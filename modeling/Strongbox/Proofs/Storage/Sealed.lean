/-
  Strongbox.Proofs.Storage.Sealed — a sealed storage answers as a plain one.

  A sealed storage keeps its values below a fixed text, under keys that may be hidden. What opens
  there is what a plain storage holds that was asked the same: a put seals with a nonce of its own,
  a get opens whatever nonce it was sealed with, and no two keys are kept under the same key. What
  is stored elsewhere stays.

  Proved:
  - `physicalKey_injective`: different keys are kept under different keys.
  - `Mirrors.serve`: a single call keeps what opens and what a plain storage holds the same.
  - `sealed_transparent`: every sequence of calls is answered as by a plain storage.
-/

import Strongbox.Proofs.Storage.Contents

namespace Strongbox

/-! ## Calls about single keys -/

inductive KeyCall where
  | get (key : String)
  | put (key : String) (value : Bytes)
  | delete (key : String)
  deriving DecidableEq

namespace KeyCall

abbrev Reply : KeyCall → Type
  | .get _ => Option Bytes
  | .put _ _ => Unit
  | .delete _ => Unit

/-- The call on a storage as it is. -/
def access : (c : KeyCall) → Access c.Reply
  | .get key => Access.get key
  | .put key value => Access.put key value
  | .delete key => Access.delete key

/-- What the call answers on a storage that holds these values. -/
def reply : (c : KeyCall) → Memory → c.Reply
  | .get key, m => m[key]?
  | .put _ _, _ => ()
  | .delete _, _ => ()

/-- What the call leaves of them. -/
def after : KeyCall → Memory → Memory
  | .get _, m => m
  | .put key value, m => m.insert key value
  | .delete key, m => m.erase key

theorem run_access (c : KeyCall) (world : World Memory) :
    c.access.run Backend.memory world = (.ok (c.reply world.store), { world with store := c.after world.store }) := by
  cases c with
  | get key => exact Access.run_memory_call (.get key) _ world
  | put key value => exact Access.run_memory_call (.put key value) _ world
  | delete key => exact Access.run_memory_call (.delete key) _ world

/-- The answers to calls made one after the other, and the world after them. -/
def answers (serve : (c : KeyCall) → Access c.Reply) :
    List KeyCall → World Memory → List ((c : KeyCall) × Except Error c.Reply) × World Memory
  | [], world => ([], world)
  | c :: rest, world =>
    let (answer, world) := (serve c).run Backend.memory world
    let (others, world) := answers serve rest world
    (⟨c, answer⟩ :: others, world)

end KeyCall

namespace Sealed

variable {s : Sealed}

/-- The call on a sealed storage. -/
def serve (s : Sealed) : (c : KeyCall) → Access c.Reply
  | .get key => s.get key
  | .put key value => s.put key value
  | .delete key => s.delete key

/-! ## Where keys are kept -/

/-- Different keys are kept under different keys. -/
theorem physicalKey_injective (s : Sealed) {a b : String} (h : s.physicalKey a = s.physicalKey b) : a = b := by
  have hnames := (String.append_right_inj _).mp h
  cases hhides : s.hidesNames with
  | false =>
    rw [hhides] at hnames
    exact hnames
  | true =>
    rw [hhides] at hnames
    exact s.ring.hidePath_injective hnames

/-- Every key is kept below the fixed text. -/
theorem below_physicalKey (s : Sealed) (key : String) : s.below.toList <+: (s.physicalKey key).toList := by
  rw [physicalKey, String.toList_append]
  exact List.prefix_append _ _

/-! ## One call -/

/-- What opens under the keys of the storage is what a plain one holds, and what is stored elsewhere
    is as it was at first. -/
structure Mirrors (s : Sealed) (first plain m : Memory) : Prop where
  same : ∀ key : String, m.contents s.ring (s.physicalKey key) = plain[key]?.map .ok
  elsewhere : ∀ key : String, ¬ s.below.toList <+: key.toList → m[key]? = first[key]?

namespace Mirrors

variable {first plain m : Memory}

/-- The storage mirrors an empty one as long as nothing is stored below the fixed text. -/
theorem start (h : ∀ key : String, s.below.toList <+: key.toList → first[key]? = none) : s.Mirrors first ∅ first where
  same key := by
    rw [Memory.contents_eq_none.mpr (h _ (s.below_physicalKey key)), Std.ExtTreeMap.getElem?_empty]
    rfl
  elsewhere _ _ := rfl

theorem lookup (h : s.Mirrors first plain m) (key : String) :
    (m.contents s.ring).lookup (s.physicalKey key) = .ok plain[key]? := by
  rw [Contents.lookup, h.same]
  cases plain[key]? <;> rfl

/-- An edit under the key that a key is kept under. -/
theorem edit (h : s.Mirrors first plain m) (nonce : Block 12) (key : String) (value : Option Bytes) {plain' : Memory}
    (hplain : ∀ other : String, plain'[other]? = if other = key then value else plain[other]?) :
    s.Mirrors first plain' (Edit.after s.ring nonce ⟨s.physicalKey key, value⟩ m) where
  same other := by
    rw [Memory.contents_after, hplain]
    by_cases ho : other = key
    · subst ho
      simp only [Contents.edit, if_true]
    · rw [Contents.edit_of_ne fun he => ho (s.physicalKey_injective he), if_neg ho, h.same]
  elsewhere other ho := by
    refine (Memory.getElem?_after nonce m ?_).trans (h.elsewhere other ho)
    rintro rfl
    exact ho (s.below_physicalKey key)

/-- A call is answered as by the plain storage, and both stay the same. -/
theorem serve (h : s.Mirrors first plain m) (c : KeyCall) :
    (s.serve c).Ends Faults.none.weather m fun answer m' =>
      answer = .ok (c.reply plain) ∧ s.Mirrors first (c.after plain) m' := by
  cases c with
  | get key =>
    refine Access.ends_get (fun hw => (Faults.weather_none hw).elim) ?_
    rw [h.lookup]
    exact ⟨rfl, h⟩
  | put key value =>
    show (Edit.access s.ring ⟨s.physicalKey key, some value⟩).Ends _ _ _
    refine Access.ends_edit (fun _ hw => (Faults.weather_none hw).elim) ?_
    intro nonce _
    refine ⟨rfl, h.edit nonce key (some value) fun other => ?_⟩
    show (plain.insert key value)[other]? = _
    rw [Std.ExtTreeMap.getElem?_insert]
    simp only [Std.compare_eq_iff_eq, @eq_comm _ key other]
  | delete key =>
    show (Edit.access s.ring ⟨s.physicalKey key, none⟩).Ends _ _ _
    refine Access.ends_edit (fun _ hw => (Faults.weather_none hw).elim) ?_
    intro nonce _
    refine ⟨rfl, h.edit nonce key none fun other => ?_⟩
    show (plain.erase key)[other]? = _
    rw [Std.ExtTreeMap.getElem?_erase]
    simp only [Std.compare_eq_iff_eq, @eq_comm _ key other]

/-! ## Calls one after the other -/

/-- Calls are answered as by the plain storage. -/
theorem answers (calls : List KeyCall) {world : World Memory} (h : s.Mirrors first plain world.store) (entropy : Entropy) :
    (KeyCall.answers s.serve calls world).1 = (KeyCall.answers KeyCall.access calls ⟨plain, entropy⟩).1 ∧
      ∃ plain', s.Mirrors first plain' (KeyCall.answers s.serve calls world).2.store := by
  induction calls generalizing plain world with
  | nil => exact ⟨rfl, plain, h⟩
  | cons c calls ih =>
    obtain ⟨hanswer, hafter⟩ := (h.serve c).run_memory
    generalize hrun : (s.serve c).run Backend.memory world = served at hanswer hafter
    obtain ⟨answer, world'⟩ := served
    obtain rfl : answer = .ok (c.reply plain) := hanswer
    obtain ⟨hothers, hend⟩ := ih hafter
    simp only [KeyCall.answers, KeyCall.run_access, hrun]
    rw [hothers]
    exact ⟨rfl, hend⟩

end Mirrors

/-- Whatever the keys, the text that everything is stored below, and whether names are hidden: if
    nothing is stored below that text, every sequence of calls is answered as by a plain storage that
    is empty at first, whatever nonces are drawn. Different keys are kept under different keys, and
    what is stored elsewhere stays as it is. -/
theorem sealed_transparent (master : MasterKey) (salt : Bytes) (below : String) (hidesNames : Bool) (calls : List KeyCall)
    {world : World Memory} (hempty : ∀ key : String, below.toList <+: key.toList → world.store[key]? = none) (entropy : Entropy) :
    let s : Sealed := ⟨KeyRing.derive master salt, below, hidesNames⟩
    (KeyCall.answers s.serve calls world).1 = (KeyCall.answers KeyCall.access calls ⟨∅, entropy⟩).1 ∧
      (∀ a b, s.physicalKey a = s.physicalKey b → a = b) ∧
      ∀ key : String, ¬ below.toList <+: key.toList → (KeyCall.answers s.serve calls world).2.store[key]? = world.store[key]? := by
  intro s
  have hstart : s.Mirrors world.store ∅ world.store := .start hempty
  obtain ⟨hanswers, plain, hend⟩ := hstart.answers calls entropy
  exact ⟨hanswers, fun a b => s.physicalKey_injective, hend.elsewhere⟩

/-- Calls on hidden keys, one of them empty and one with an empty segment, beside a salt. -/
theorem sealed_transparent_beside :
    let s : Sealed := ⟨KeyRing.derive ⟨.tabulate 32 fun _ => 7⟩ [1], "n/", true⟩
    let world : World Memory := ⟨(∅ : Memory).insert "salt" [1], ⟨fun _ => 0, 0⟩⟩
    let calls : List KeyCall := [.put "" [97], .put "a//b" [98], .get "a//b", .delete "", .get ""]
    (KeyCall.answers s.serve calls world).1 = (KeyCall.answers KeyCall.access calls ⟨∅, ⟨fun _ => 0, 0⟩⟩).1 ∧
      (KeyCall.answers s.serve calls world).2.store["salt"]? = some [1] := by
  intro s world calls
  have hsalt : ¬ "n/".toList <+: "salt".toList := by decide
  have hempty (key : String) (hkey : "n/".toList <+: key.toList) : world.store[key]? = none := by
    rw [Std.ExtTreeMap.getElem?_insert, if_neg]
    · exact Std.ExtTreeMap.getElem?_empty
    · intro hc
      obtain rfl := Std.LawfulEqCmp.eq_of_compare hc
      exact hsalt hkey
  obtain ⟨hanswers, _, helsewhere⟩ :=
    sealed_transparent ⟨.tabulate 32 fun _ => 7⟩ [1] "n/" true calls hempty ⟨fun _ => 0, 0⟩
  exact ⟨hanswers, (helsewhere "salt" hsalt).trans Std.ExtTreeMap.getElem?_insert_self⟩

end Sealed

end Strongbox
