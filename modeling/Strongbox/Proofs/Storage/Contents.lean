/-
  Strongbox.Proofs.Storage.Contents — a sealed storage as what opens under its keys.

  Nonces make every stored value differ from the last one that held the same; what opens under
  a key does not depend on them. An edit puts a value under a key, sealed, or deletes the key.
  A list of edits that was cut short is made good by making all of them: what was done is done
  again to the same effect.

  Proved:
  - `Edits.contents`: edits change what opens as if nothing were sealed.
  - `edits_again`: edits made after a part of them leave what they leave alone.
  - `ends_get`, `ends_edit`, `ends_edits`: how sealed calls end.
-/

import Strongbox.Proofs.KeyRing
import Strongbox.Proofs.Storage.Access
import Strongbox.Storage.Sealed

namespace Strongbox

/-- What opens under each stored key. -/
abbrev Contents := String → Option (Except StorageError Bytes)

/-- What opens under each key of a memory. -/
def Memory.contents (ring : KeyRing) (m : Memory) : Contents := fun key => m[key]?.map (ring.openSealed key)

/-- A value put under a key, or a key deleted. -/
structure Edit where
  key : String
  value : Option Bytes

namespace Edit

/-- The edit as a program. -/
def access (ring : KeyRing) : Edit → Access Unit
  | ⟨key, some value⟩ => do
    let nonce ← Access.random 12
    Access.put key (ring.sealWith nonce key value)
  | ⟨key, none⟩ => Access.delete key

/-- The call that makes the edit. -/
def call (ring : KeyRing) (nonce : Block 12) : Edit → Call
  | ⟨key, some value⟩ => .put key (ring.sealWith nonce key value)
  | ⟨key, none⟩ => .delete key

theorem key_of_call {ring : KeyRing} {nonce : Block 12} {e : Edit} {key : String} {value : Bytes}
    (h : e.call ring nonce = .put key value) : e.key = key := by
  obtain ⟨place, content⟩ := e
  cases content with
  | some content => exact (Call.put.inj h).1
  | none => cases h

theorem isWrite_call (ring : KeyRing) (nonce : Block 12) (e : Edit) : (e.call ring nonce).isWrite = true := by
  obtain ⟨_, value⟩ := e
  cases value <;> rfl

/-- The memory after the edit. -/
def after (ring : KeyRing) (nonce : Block 12) (e : Edit) (m : Memory) : Memory := Memory.after (e.call ring nonce) m

end Edit

/-- The second memory is the first one after these edits. -/
inductive Edits (ring : KeyRing) : List Edit → Memory → Memory → Prop
  | nil {m : Memory} : Edits ring [] m m
  | cons {e : Edit} {es : List Edit} {m m' : Memory} (nonce : Block 12) (rest : Edits ring es (e.after ring nonce m) m') :
    Edits ring (e :: es) m m'

namespace Contents

/-- The value under a key, if there is one and it opens. -/
def lookup (c : Contents) (key : String) : Except Error (Option Bytes) :=
  match c key with
  | none => .ok none
  | some (.ok value) => .ok (some value)
  | some (.error e) => .error (.storage e)

def edit (c : Contents) (e : Edit) : Contents := fun key => if key = e.key then e.value.map .ok else c key

def edits (c : Contents) (es : List Edit) : Contents := es.foldl edit c

variable {c : Contents} {key : String}

theorem lookup_edit_self (c : Contents) (e : Edit) : (c.edit e).lookup e.key = .ok e.value := by
  rw [lookup, edit, if_pos rfl]
  cases e.value <;> rfl

theorem lookup_congr {c' : Contents} (h : c key = c' key) : c.lookup key = c'.lookup key := by rw [lookup, lookup, h]

theorem lookup_eq_none : c.lookup key = .ok none ↔ c key = none := by
  rw [lookup]
  rcases c key with _ | (_ | _) <;> simp

theorem edit_of_ne {e : Edit} (h : key ≠ e.key) : c.edit e key = c key := if_neg h

theorem edits_of_not_mem {es : List Edit} (h : key ∉ es.map Edit.key) : c.edits es key = c key := by
  induction es generalizing c with
  | nil => rfl
  | cons e es ih =>
    simp only [List.map_cons, List.mem_cons, not_or] at h
    exact (ih h.2).trans (edit_of_ne h.1)

/-- Nothing is left under the keys of edits that delete. -/
theorem edits_of_deleted {es : List Edit} (hes : ∀ e ∈ es, e.value = none) (h : key ∈ es.map Edit.key) : c.edits es key = none := by
  induction es generalizing c with
  | nil => cases h
  | cons e es ih =>
    by_cases hrest : key ∈ es.map Edit.key
    · exact ih (fun e' he' => hes e' (List.mem_cons_of_mem e he')) hrest
    · obtain rfl : key = e.key := (List.mem_cons.mp h).resolve_right hrest
      show (c.edit e).edits es e.key = none
      rw [edits_of_not_mem hrest, edit, if_pos rfl, hes e List.mem_cons_self]
      rfl

/-- What stands under an edited key does not depend on what stood there. -/
theorem edits_of_mem {es : List Edit} (h : key ∈ es.map Edit.key) (c c' : Contents) : c.edits es key = c'.edits es key := by
  induction es generalizing c c' with
  | nil => cases h
  | cons e es ih =>
    by_cases hes : key ∈ es.map Edit.key
    · exact ih hes _ _
    · have hkey : key = e.key := (List.mem_cons.mp h).resolve_right hes
      have hc (c : Contents) : c.edits (e :: es) key = e.value.map .ok :=
        (edits_of_not_mem hes).trans (if_pos hkey)
      rw [hc, hc]

/-- Edits that were begun and are then made from the start. -/
theorem edits_again (c : Contents) (done rest : List Edit) :
    (c.edits done).edits (done ++ rest) = c.edits (done ++ rest) := by
  funext key
  by_cases h : key ∈ (done ++ rest).map Edit.key
  · exact edits_of_mem h _ _
  · have hdone : key ∉ done.map Edit.key := fun hd => h (by simp only [List.map_append, List.mem_append, hd, true_or])
    rw [edits_of_not_mem h, edits_of_not_mem h, edits_of_not_mem hdone]

end Contents

/-! ## What edits leave -/

namespace Memory

variable {ring : KeyRing} {key : String}

theorem getElem?_after {e : Edit} (nonce : Block 12) (m : Memory) (h : key ≠ e.key) :
    (e.after ring nonce m)[key]? = m[key]? := by
  obtain ⟨place, value⟩ := e
  have hk : compare place key ≠ .eq := fun hc => h (Std.LawfulEqCmp.eq_of_compare hc).symm
  cases value with
  | some value => exact Std.ExtTreeMap.getElem?_insert.trans (if_neg hk)
  | none => exact Std.ExtTreeMap.getElem?_erase.trans (if_neg hk)

theorem contents_eq_none {m : Memory} : m.contents ring key = none ↔ m[key]? = none := Option.map_eq_none_iff

theorem contents_congr {m m' : Memory} (h : m'[key]? = m[key]?) : m'.contents ring key = m.contents ring key :=
  congrArg (Option.map (ring.openSealed key)) h

theorem contents_after (e : Edit) (nonce : Block 12) (m : Memory) :
    (e.after ring nonce m).contents ring = (m.contents ring).edit e := by
  funext key
  by_cases h : key = e.key
  · subst h
    obtain ⟨place, value⟩ := e
    cases value <;> simp [contents, Contents.edit, Edit.after, Edit.call, after]
  · rw [Contents.edit_of_ne h, contents, getElem?_after nonce m h]
    rfl

end Memory

namespace Edits

variable {ring : KeyRing} {es : List Edit} {m m' : Memory}

theorem contents (h : Edits ring es m m') : m'.contents ring = (m.contents ring).edits es := by
  induction h with
  | nil => rfl
  | cons nonce _ ih => rw [ih, Memory.contents_after]; rfl

/-- Nothing else is touched. -/
theorem frame (h : Edits ring es m m') {key : String} (hkey : key ∉ es.map Edit.key) : m'[key]? = m[key]? := by
  induction h with
  | nil => rfl
  | cons nonce _ ih =>
    simp only [List.map_cons, List.mem_cons, not_or] at hkey
    rw [ih hkey.2, Memory.getElem?_after nonce _ hkey.1]

end Edits

/-! ## How sealed calls end -/

namespace Access

variable {w : Weather} {m : Memory}

theorem ends_get {s : Sealed} {key : String} {Q : Except Error (Option Bytes) → Memory → Prop}
    (hfail : w (.get (s.physicalKey key)) false → ∀ e, Q (.error (.storage e)) m)
    (h : Q ((m.contents s.ring).lookup (s.physicalKey key)) m) : (s.get key).Ends w m Q := by
  refine ⟨hfail, ?_⟩
  intro _
  rw [Contents.lookup, Memory.contents] at h
  generalize hreply : Memory.reply (.get (s.physicalKey key)) m = reply
  replace hreply : m[s.physicalKey key]? = reply := hreply
  rw [hreply] at h
  cases reply with
  | none => exact h
  | some sealed =>
    rw [Option.map_some] at h
    show Ends w (do pure (some (← ofExcept (s.ring.openSealed (s.physicalKey key) sealed)))) m Q
    cases ho : s.ring.openSealed (s.physicalKey key) sealed with
    | ok value =>
      rw [ho] at h
      exact h
    | error e =>
      rw [ho] at h
      exact h

theorem ends_edit {ring : KeyRing} {e : Edit} {Q : Except Error Unit → Memory → Prop}
    (hfail : ∀ nonce, w (e.call ring nonce) false → ∀ err, Q (.error (.storage err)) m)
    (h : ∀ nonce, w (e.call ring nonce) true → Q (.ok ()) (e.after ring nonce m)) : (e.access ring).Ends w m Q := by
  obtain ⟨key, value⟩ := e
  cases value with
  | some value => exact fun nonce => ⟨hfail nonce, h nonce⟩
  | none => exact ⟨hfail (.tabulate 12 fun _ => 0), h (.tabulate 12 fun _ => 0)⟩

theorem ends_edits {ring : KeyRing} {es : List Edit} {Q : Except Error Unit → Memory → Prop}
    (hfail : ∀ done e rest nonce m', es = done ++ e :: rest → Edits ring done m m' → w (e.call ring nonce) false →
      ∀ err, Q (.error (.storage err)) m')
    (h : ∀ m', Edits ring es m m' → Q (.ok ()) m') : (forEach (Edit.access ring) es).Ends w m Q := by
  induction es generalizing m with
  | nil => exact h m .nil
  | cons e es ih =>
    refine ends_bind.mpr (ends_edit ?_ ?_)
    · intro nonce
      exact hfail [] e es nonce m rfl .nil
    · intro nonce _
      apply ih
      · intro done e' rest nonce' m' hes hdone
        exact hfail (e :: done) e' rest nonce' m' (by rw [hes, List.cons_append]) (.cons nonce hdone)
      · intro m' hm
        exact h m' (.cons nonce hm)

end Access

end Strongbox
