/-
  Strongbox.Proofs.Text.Quoted — quoted text can be told from what follows it.

  What is written for a character says which one it is and where it ends: itself, or a backslash with
  a mark, or a backslash with its code point in braces. A double quote on its own is never written for
  a character, so the first one ends the text.

  Proved:
  - `inRanges_iff`: which code points lie in ranges that are in order.
  - `toDigits_injective`: two numbers are never written alike in hexadecimal.
  - `escaped_append_inj`: which character was written, whatever follows.
  - `quoted_append_inj`: which text was written, whatever follows.
-/

import Strongbox.Text.Quoted

namespace Strongbox.Text

variable {c d : Char} {s t : List Char}

/-! ## Ranges of code points -/

/-- Code points in ranges, if those are in order. -/
theorem inRanges_iff {code : Nat} {ranges : List (Nat × Nat)} (h : ranges.Pairwise fun range later => range.1 ≤ later.1) :
    inRanges code ranges ↔ ∃ first last, (first, last) ∈ ranges ∧ first ≤ code ∧ code ≤ last := by
  induction ranges with
  | nil => simp [inRanges]
  | cons range rest ih =>
    obtain ⟨first, last⟩ := range
    obtain ⟨hfirst, hrest⟩ := List.pairwise_cons.mp h
    rw [inRanges]
    by_cases hbelow : code < first
    · rw [if_pos hbelow]
      refine iff_of_false (by simp) ?_
      rintro ⟨first', last', hmem, hle, -⟩
      rcases List.mem_cons.mp hmem with heq | hmem
      · cases heq
        omega
      · have := hfirst _ hmem
        omega
    · rw [if_neg hbelow, Bool.or_eq_true, decide_eq_true_eq, ih hrest]
      constructor
      · rintro (hle | ⟨first', last', hmem, hin⟩)
        · exact ⟨first, last, List.mem_cons_self, Nat.not_lt.mp hbelow, hle⟩
        · exact ⟨first', last', List.mem_cons_of_mem _ hmem, hin⟩
      · rintro ⟨first', last', hmem, hin⟩
        rcases List.mem_cons.mp hmem with heq | hmem
        · cases heq
          exact .inl hin.2
        · exact .inr ⟨first', last', hmem, hin⟩

/-! ## Hexadecimal digits -/

theorem digitChar_injective : ∀ a < 16, ∀ b < 16, a.digitChar = b.digitChar → a = b := by decide

theorem digitChar_ne_brace : ∀ a < 16, a.digitChar ≠ '\x7d' := by decide

theorem toDigits_injective {a b : Nat} (h : Nat.toDigits 16 a = Nat.toDigits 16 b) : a = b := by
  induction a using Nat.strongRecOn generalizing b with
  | ind a ih =>
    have hlast (n : Nat) : Nat.toDigits 16 n = (if n < 16 then [] else Nat.toDigits 16 (n / 16)) ++ [(n % 16).digitChar] := by
      rw [Nat.toDigits_eq_if (by decide)]
      split
      · rw [Nat.mod_eq_of_lt (by assumption), List.nil_append]
      · rfl
    rw [hlast a, hlast b] at h
    obtain ⟨hfront, hdigit⟩ := List.append_inj' h rfl
    have hmod := digitChar_injective _ (Nat.mod_lt a (by decide)) _ (Nat.mod_lt b (by decide)) (List.singleton_inj.mp hdigit)
    have hdiv : a / 16 = b / 16 := by
      split at hfront
      · split at hfront
        · omega
        · exact absurd hfront.symm Nat.toDigits_ne_nil
      · split at hfront
        · exact absurd hfront Nat.toDigits_ne_nil
        · exact ih (a / 16) (by omega) hfront
    omega

theorem brace_not_mem_toDigits (n : Nat) : '\x7d' ∉ Nat.toDigits 16 n := by
  induction n using Nat.strongRecOn with
  | ind n ih =>
    rw [Nat.toDigits_eq_if (by decide)]
    split
    · rename_i hlt
      rw [List.mem_singleton]
      exact (digitChar_ne_brace n hlt).symm
    · rw [List.mem_append, List.mem_singleton, not_or]
      exact ⟨ih (n / 16) (by omega), (digitChar_ne_brace _ (Nat.mod_lt n (by decide))).symm⟩

/-! ## Characters -/

/-- The marks that stand for characters behind a backslash. -/
inductive Marks : Char → Char → Prop
  | nul : Marks '0' '\x00'
  | tab : Marks 't' '\t'
  | carriageReturn : Marks 'r' '\r'
  | newline : Marks 'n' '\n'
  | backslash : Marks '\\' '\\'
  | quote : Marks '"' '"'

theorem Marks.right_unique {mark : Char} (h : Marks mark c) (h' : Marks mark d) : c = d := by
  cases h <;> cases h' <;> rfl

theorem Marks.ne_codePoint {mark : Char} (h : Marks mark c) : mark ≠ 'u' := by
  cases h <;> decide

/-- What is written for a character between double quotes. -/
theorem escaped_cases (c : Char) : (escaped '"' c = [c] ∧ c ≠ '\\' ∧ c ≠ '"') ∨
    (∃ mark, escaped '"' c = ['\\', mark] ∧ Marks mark c) ∨ escaped '"' c = codePoint c := by
  unfold escaped
  split
  · rename_i h
    exact .inr (.inl ⟨'0', rfl, h ▸ .nul⟩)
  split
  · rename_i h
    exact .inr (.inl ⟨'t', rfl, h ▸ .tab⟩)
  split
  · rename_i h
    exact .inr (.inl ⟨'r', rfl, h ▸ .carriageReturn⟩)
  split
  · rename_i h
    exact .inr (.inl ⟨'n', rfl, h ▸ .newline⟩)
  split
  · rename_i h
    rcases h with rfl | rfl
    · exact .inr (.inl ⟨_, rfl, .backslash⟩)
    · exact .inr (.inl ⟨_, rfl, .quote⟩)
  rename_i hmark
  split
  · exact .inr (.inr rfl)
  · rw [not_or] at hmark
    exact .inl ⟨rfl, hmark.1, hmark.2⟩

theorem codePoint_append_inj (h : codePoint c ++ s = codePoint d ++ t) : c = d ∧ s = t := by
  simp only [codePoint, List.append_assoc, List.cons_append, List.nil_append, List.cons.injEq, true_and] at h
  have hfront (n : Nat) (rest : List Char) :
      (Nat.toDigits 16 n ++ '\x7d' :: rest).takeWhile (· ≠ '\x7d') = Nat.toDigits 16 n := by
    rw [List.takeWhile_append_of_pos, List.takeWhile_cons_of_neg (by decide), List.append_nil]
    intro digit hdigit
    exact decide_eq_true fun heq => brace_not_mem_toDigits n (heq ▸ hdigit)
  have hdigits : Nat.toDigits 16 c.toNat = Nat.toDigits 16 d.toNat := by rw [← hfront c.toNat s, h, hfront d.toNat t]
  rw [hdigits] at h
  exact ⟨Char.toNat_inj.mp (toDigits_injective hdigits), (List.cons.inj (List.append_cancel_left h)).2⟩

theorem escaped_append_inj (h : escaped '"' c ++ s = escaped '"' d ++ t) : c = d ∧ s = t := by
  rcases escaped_cases c with ⟨hc, hslash, -⟩ | ⟨mark, hc, hmark⟩ | hc <;>
    rcases escaped_cases d with ⟨hd, hslash', -⟩ | ⟨mark', hd, hmark'⟩ | hd <;> rw [hc, hd] at h
  · exact List.cons.inj h
  · exact absurd (List.cons.inj h).1 hslash
  · exact absurd (List.cons.inj h).1 hslash
  · exact absurd (List.cons.inj h).1.symm hslash'
  · obtain ⟨rfl, rfl⟩ := List.cons.inj (List.cons.inj h).2
    exact ⟨hmark.right_unique hmark', rfl⟩
  · exact absurd (List.cons.inj (List.cons.inj h).2).1 hmark.ne_codePoint
  · exact absurd (List.cons.inj h).1.symm hslash'
  · exact absurd (List.cons.inj (List.cons.inj h).2).1.symm hmark'.ne_codePoint
  · exact codePoint_append_inj h

/-- What is written for a character does not begin with a double quote. -/
theorem escaped_append_ne (c : Char) (s t : List Char) : escaped '"' c ++ s ≠ '"' :: t := by
  intro h
  rcases escaped_cases c with ⟨hc, -, hquote⟩ | ⟨mark, hc, -⟩ | hc <;> rw [hc] at h
  · exact hquote (List.cons.inj h).1
  · exact absurd (List.cons.inj h).1 (by decide)
  · exact absurd (List.cons.inj h).1 (by decide)

/-! ## Texts -/

theorem quoted_append_inj {a b : String} (h : (quoted a).toList ++ s = (quoted b).toList ++ t) : a = b ∧ s = t := by
  have hlists (cs ds : List Char) (h : cs.flatMap (escaped '"') ++ '"' :: s = ds.flatMap (escaped '"') ++ '"' :: t) :
      cs = ds ∧ s = t := by
    induction cs generalizing ds with
    | nil =>
      cases ds with
      | nil => exact ⟨rfl, (List.cons.inj h).2⟩
      | cons d ds =>
        rw [List.flatMap_cons, List.append_assoc] at h
        exact absurd h.symm (escaped_append_ne d _ _)
    | cons c cs ih =>
      cases ds with
      | nil =>
        rw [List.flatMap_cons, List.append_assoc] at h
        exact absurd h (escaped_append_ne c _ _)
      | cons d ds =>
        rw [List.flatMap_cons, List.flatMap_cons, List.append_assoc, List.append_assoc] at h
        obtain ⟨rfl, hrest⟩ := escaped_append_inj h
        obtain ⟨rfl, rfl⟩ := ih ds hrest
        exact ⟨rfl, rfl⟩
  simp only [quoted, String.toList_ofList, List.cons_append, List.append_assoc, List.cons.injEq, true_and] at h
  obtain ⟨htexts, rfl⟩ := hlists _ _ h
  exact ⟨String.toList_inj.mp htexts, rfl⟩

end Strongbox.Text
