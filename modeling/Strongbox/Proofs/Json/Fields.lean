/-
  Strongbox.Proofs.Json.Fields — typed readings of what was written.

  Proved:
  - `text?_ofText`, `word64?_ofNat`, `word32?_ofNat`: texts and words are read back.
  - `members?_ofMembers`: an object has the members it was made of.
-/

import Strongbox.Json.Fields
import Strongbox.Proofs.Json.Reader

namespace Strongbox.Json

@[simp] theorem text?_ofText (text : String) : text? (ofText text) = some text := readText?_spellText text

@[simp] theorem bool?_bool (b : Bool) : bool? (.bool b) = some b := rfl

@[simp] theorem word64?_ofNat (w : UInt64) : word64? (ofNat w.toNat) = some w := by
  rw [word64?, ofNat, nat?, readNat?_spellNat]
  exact Text.Decimal.word64?_toNat w

@[simp] theorem word32?_ofNat (w : UInt32) : word32? (ofNat w.toNat) = some w := by
  rw [word32?, ofNat, nat?, readNat?_spellNat]
  exact Text.Decimal.word32?_toNat w

@[simp] theorem option?_null {α : Type} (read? : Json → Option α) : option? read? .null = some none := rfl

@[simp] theorem option?_ofNat {α : Type} (read? : Json → Option α) (n : Nat) :
    option? read? (ofNat n) = (read? (ofNat n)).map some := rfl

@[simp] theorem option?_ofText {α : Type} (read? : Json → Option α) (text : String) :
    option? read? (ofText text) = (read? (ofText text)).map some := rfl

@[simp] theorem members?_ofMembers (members : List (String × Json)) :
    members? (ofMembers members) = some members := by
  unfold ofMembers
  rw [members?]
  induction members with
  | nil => rfl
  | cons first members ih =>
    obtain ⟨name, value⟩ := first
    rw [List.map_cons, List.mapM_cons, ih]
    simp only [readText?_spellText]
    rfl

theorem fields?_ofMembers (names : List String) (members : List (String × Json)) :
    fields? names (ofMembers members) = names.mapM (uniqueField? members) := by
  have hm := members?_ofMembers members
  unfold ofMembers at hm ⊢
  simp only [fields?, hm, Option.bind_some]

/-! ## Plain values -/

theorem plain_ofText (text : String) : Plain (ofText text) := ⟨text, rfl⟩

theorem plain_ofNat (n : Nat) : Plain (ofNat n) := ⟨n, rfl⟩

theorem plainMembers_spelled {α : Type} (name : α → Bytes) (value : α → Json)
    (hn : ∀ a, ∃ text, name a = spellText text) (hv : ∀ a, Plain (value a)) (items : List α) :
    PlainMembers (items.map fun a => (name a, value a)) := by
  induction items with
  | nil => trivial
  | cons a items ih => exact ⟨hn a, hv a, ih⟩

theorem plain_ofMembers {members : List (String × Json)} (h : ∀ m ∈ members, Plain m.2) : Plain (ofMembers members) := by
  unfold ofMembers
  simp only [Plain]
  induction members with
  | nil => trivial
  | cons first members ih =>
    exact ⟨⟨first.1, rfl⟩, h first (by simp), ih fun m hm => h m (List.mem_cons_of_mem _ hm)⟩

theorem spellByte_digit : ∀ n < 58, 48 ≤ n → spellByte (UInt8.ofNat n) = [UInt8.ofNat n] := by decide

/-- A number is spelled without anything that would have to be escaped. -/
theorem spellText_text (n : Nat) : spellText (Text.Decimal.text n) = spellNat n := by
  have h : ∀ b ∈ spellNat n, spellByte b = [b] := by
    intro b hb
    have hd := List.all_eq_true.mp (all_isDigitByte_spellNat n) b hb
    simp only [isDigitByte, Bool.and_eq_true, decide_eq_true_eq, UInt8.le_iff_toNat_le] at hd
    rw [← UInt8.ofNat_toNat (x := b)]
    exact spellByte_digit b.toNat (Nat.lt_succ_of_le hd.2) hd.1
  change (spellNat n).flatMap spellByte = spellNat n
  generalize spellNat n = bytes at h
  induction bytes with
  | nil => rfl
  | cons b bytes ih =>
    rw [List.flatMap_cons, h b (by simp), ih fun c hc => h c (List.mem_cons_of_mem _ hc)]
    rfl

end Strongbox.Json
