/-
  Strongbox.Proofs.Vault.History — what the log of a run says of a path.

  A log is read as a client can read it: from what was asked and what was answered. A version
  counts as written when its write was accepted, and a path as erased when the erasure was
  answered without failure.
-/

import Strongbox.Proofs.Vault.Session

namespace Strongbox

open Time (Instant)

namespace Event

/-- The number and the data of a version of a path that an event wrote. -/
def written? (path : String) : Event → Option (UInt64 × Bytes)
  | .asked _ _ (.writeData other data _) (.ok (.accepted version _)) =>
    if other = path then some (version.version, data) else none
  | _ => none

/-- Whether the event erased a path. -/
def erases (path : String) : Event → Bool
  | .asked _ _ (.deleteMetadata other) (.ok _) => other = path
  | _ => false

/-- Whether the event is a write to a path that failed. -/
def failedWrite (path : String) : Event → Bool
  | .asked _ _ (.writeData other _ _) (.error _) => other = path
  | _ => false

/-- The path of a single key that the event concerns. -/
def path? : Event → Option String
  | .asked _ _ r _ => r.path?
  | .restarted => none

/-- No call failed. -/
def IsCalm : Event → Prop
  | .asked f _ _ _ => f = Faults.none
  | .restarted => True

/-- Whether the event is an accepted write, whatever its path. -/
def isWrite : Event → Bool
  | .asked _ _ (.writeData _ _ _) (.ok (.accepted _ _)) => true
  | _ => false

end Event

/-- The versions of a path written since it was last erased, the last first. -/
def writtenSince (path : String) : List Event → List (UInt64 × Bytes)
  | [] => []
  | e :: log => if e.erases path then [] else (e.written? path).toList ++ writtenSince path log

/-- The number of accepted writes. -/
def writesIn (log : List Event) : Nat := log.countP Event.isWrite

/-- The paths that were asked about and can name a key. -/
def pathsIn (log : List Event) : List String := (log.filterMap Event.path?).filter fun path => (KeyPath.fault? path).isNone

/-- No two of these paths have the same identifier. -/
def Distinct (ring : KeyRing) (paths : List String) : Prop :=
  ∀ p ∈ paths, ∀ q ∈ paths, ring.identifier p = ring.identifier q → p = q

namespace Event

variable {path : String} {f : Faults} {now : Instant} {r : Request}

theorem written?_of_error (path : String) (f : Faults) (now : Instant) (r : Request) (e : Error) :
    (Event.asked f now r (r.settle (.error e))).written? path = none := by
  cases r <;> rfl

theorem erases_of_error (path : String) (f : Faults) (now : Instant) (r : Request) (e : Error) :
    (Event.asked f now r (r.settle (.error e))).erases path = false := by
  cases r <;> rfl

/-- A request that revises neither writes nor erases. -/
theorem of_revised? {q : String} (h : r.revised? = some q) (reply : Except Error r.Reply) :
    (Event.asked f now r reply).written? path = none ∧ (Event.asked f now r reply).erases path = false := by
  cases r <;> first | exact ⟨rfl, rfl⟩ | cases h

theorem isWrite_of_written? {e : Event} {w : UInt64 × Bytes} (h : e.written? path = some w) : e.isWrite = true := by
  unfold written? at h
  split at h
  · rfl
  · cases h

theorem path?_of_written? {e : Event} {w : UInt64 × Bytes} (h : e.written? path = some w) : e.path? = some path := by
  unfold written? at h
  split at h
  · split at h
    · rename_i hpath
      exact congrArg some hpath
    · cases h
  · cases h

theorem path?_of_erases {e : Event} (h : e.erases path = true) : e.path? = some path := by
  unfold erases at h
  split at h
  · exact congrArg some (of_decide_eq_true h)
  · cases h

/-- An answer given at once does not accept a write. -/
theorem written?_of_immediate? {reply : r.Reply} (h : r.immediate? = some reply) (path : String) (f : Faults) (now : Instant) :
    (Event.asked f now r (.ok reply)).written? path = none := by
  cases r with
  | writeData other data cas =>
    obtain ⟨_, _, rfl⟩ := Option.map_eq_some_iff.mp h
    rfl
  | _ => rfl

/-- An answer given at once does not erase a path that can name a key. -/
theorem erases_of_immediate? {reply : r.Reply} (h : r.immediate? = some reply) (hvalid : KeyPath.fault? path = none)
    (f : Faults) (now : Instant) : (Event.asked f now r (.ok reply)).erases path = false := by
  cases r with
  | deleteMetadata other =>
    obtain ⟨_, hother, rfl⟩ := Option.map_eq_some_iff.mp h
    refine decide_eq_false ?_
    rintro rfl
    rw [hvalid] at hother
    cases hother
  | _ => rfl

/-- A request that answers without a change does not write, and erases only a path without record. -/
theorem of_answered {v : Vault} {m : Memory} {answer : r.Reply} (plan : v.plan now m r = .ok (.answer answer)) (path : String)
    (f : Faults) : (Event.asked f now r (r.settle (.ok answer))).written? path = none ∧
      ((Event.asked f now r (r.settle (.ok answer))).erases path = true → (m.contents v.ring).record v.ring path = .ok none) := by
  cases r with
  | writeData other data cas =>
    obtain ⟨_, _, -, -, ⟨_, -, rfl⟩ | ⟨-, -, rfl⟩⟩ := Vault.answer_of_planWrite plan
    · exact ⟨rfl, nofun⟩
    · exact ⟨rfl, nofun⟩
  | deleteMetadata other =>
    refine ⟨rfl, fun he => ?_⟩
    obtain rfl : other = path := of_decide_eq_true he
    obtain ⟨found, hf, plan⟩ := Except.of_bind_eq_ok plan
    cases found with
    | none => exact hf
    | some record => cases plan
  | _ => exact ⟨rfl, nofun⟩

/-- An event that asked nothing of the storage neither writes nor erases. -/
theorem Idle.says_nothing {e : Event} (h : e.Idle) (hvalid : KeyPath.fault? path = none) :
    e.written? path = none ∧ e.erases path = false := by
  cases h with
  | restarted => exact ⟨rfl, rfl⟩
  | immediate h => exact ⟨written?_of_immediate? h path _ _, erases_of_immediate? h hvalid _ _⟩
  | shut => exact ⟨written?_of_error .., erases_of_error ..⟩

end Event

/-! ## The paths of a log -/

theorem Request.valid_of_immediate? {r : Request} {path : String} (h : r.immediate? = none) (hpath : r.path? = some path) :
    KeyPath.fault? path = none := by
  cases r with
  | writeMetadata other changes =>
    cases hpath
    simp only [immediate?] at h
    split at h
    · cases h
    · assumption
  | undeleteVersions other versions =>
    cases hpath
    simp only [immediate?, versionsFault?] at h
    split at h
    · cases h
    · assumption
  | destroyVersions other versions =>
    cases hpath
    simp only [immediate?, versionsFault?] at h
    split at h
    · cases h
    · assumption
  | listMetadata other => cases hpath
  | readPolicy => cases hpath
  | writePolicy changes => cases hpath
  | _ =>
    cases hpath
    exact Option.map_eq_none_iff.mp h

theorem mem_pathsIn_cons {log : List Event} {path : String} (e : Event) (h : path ∈ pathsIn log) :
    path ∈ pathsIn (e :: log) := by
  simp only [pathsIn, List.mem_filter, List.mem_filterMap] at h ⊢
  obtain ⟨⟨e', he, hpath⟩, hvalid⟩ := h
  exact ⟨⟨e', List.mem_cons_of_mem e he, hpath⟩, hvalid⟩

theorem mem_pathsIn_of_asked {log : List Event} {path : String} {f : Faults} {now : Instant} {r : Request}
    {reply : Except Error r.Reply} (hi : r.immediate? = none) (hpath : r.path? = some path) :
    path ∈ pathsIn (.asked f now r reply :: log) := by
  simp only [pathsIn, List.mem_filter, List.mem_filterMap, Option.isNone_iff_eq_none]
  exact ⟨⟨_, List.mem_cons_self, hpath⟩, Request.valid_of_immediate? hi hpath⟩

theorem valid_of_mem_pathsIn {log : List Event} {path : String} (h : path ∈ pathsIn log) : KeyPath.fault? path = none :=
  Option.isNone_iff_eq_none.mp (List.mem_filter.mp h).2

theorem of_mem_pathsIn_cons {e : Event} {log : List Event} {path : String} (h : path ∈ pathsIn (e :: log)) :
    e.path? = some path ∨ path ∈ pathsIn log := by
  simp only [pathsIn, List.mem_filter, List.mem_filterMap] at h ⊢
  obtain ⟨⟨e', he, hpath⟩, hvalid⟩ := h
  rcases List.mem_cons.mp he with rfl | he
  · exact .inl hpath
  · exact .inr ⟨⟨e', he, hpath⟩, hvalid⟩

theorem Distinct.mono {ring : KeyRing} {paths paths' : List String} (h : Distinct ring paths) (hp : ∀ p ∈ paths', p ∈ paths) :
    Distinct ring paths' :=
  fun p hpp q hq hid => h p (hp p hpp) q (hp q hq) hid

/-- One path alone is mistaken for no other. -/
theorem Distinct.of_forall_eq {ring : KeyRing} {paths : List String} (path : String) (h : ∀ p ∈ paths, p = path) :
    Distinct ring paths :=
  fun p hp q hq _ => (h p hp).trans (h q hq).symm

theorem Session.valid_of_written? {f : Faults} {now : Instant} {r : Request} {s : Session} {path : String}
    {w : UInt64 × Bytes} (h : (Event.asked f now r (s.ask f now r).1).written? path = some w) :
    KeyPath.fault? path = none := by
  cases hi : r.immediate? with
  | some reply =>
    rw [ask_of_immediate hi, Event.written?_of_immediate? hi] at h
    cases h
  | none => exact Request.valid_of_immediate? hi (Event.path?_of_written? h)

/-- Only paths that can name a key are written to. -/
theorem Runs.valid_of_mem {master : MasterKey} {log : List Event} {s : Session} {path : String} {w : UInt64 × Bytes}
    (h : Runs master log s) (hw : w ∈ writtenSince path log) : KeyPath.fault? path = none := by
  induction h with
  | start => cases hw
  | restart _ _ ih => exact ih hw
  | @ask log s f now r _ ih =>
    rw [writtenSince] at hw
    split at hw
    · cases hw
    · rcases List.mem_append.mp hw with hlast | hbefore
      · exact Session.valid_of_written? (Option.mem_toList.mp hlast)
      · exact ih hbefore

end Strongbox
