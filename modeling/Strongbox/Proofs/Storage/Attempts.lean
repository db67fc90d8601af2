/-
  Strongbox.Proofs.Storage.Attempts — programs over memory together with the calls they made.

  An attempt is a run over a memory whose calls may fail, with every call noted. A failed call ends
  the program, so all calls but the last went through, and up to there the run went as it would have
  without failures. What is in order when nothing fails can therefore fail in one way only: by the
  failure of the last call.

  Proved:
  - `attempt_bind`: one program after the other.
  - `attempt_eq_runOn`: noting the calls changes nothing else.
  - `Ends.blame`: a program that succeeds when no call fails, and failed, did so with its last call.
-/

import Strongbox.Proofs.Storage.Recording

namespace Strongbox

/-- What came of running a program: its result, the calls made, the last first, and what it left. -/
structure Attempt (α : Type) where
  result : Except Error α
  calls : List Call
  world : World Memory

namespace Faults

/-- No call that reads fails. -/
def SparesReads (f : Faults) : Prop := ∀ k c, c.isWrite = false → f k c = Option.none

/-- The error is the failure of the last of these calls. -/
def Explains (f : Faults) (calls : List Call) (e : Error) : Prop :=
  ∃ c earlier failure, calls = c :: earlier ∧ f earlier.length c = some failure ∧ e = .storage failure

theorem sparesReads_none : none.SparesReads := fun _ _ _ => rfl

theorem SparesReads.through {f : Faults} {k : Nat} {c : Call} {e : StorageError} (h : f.SparesReads) (hc : c.isWrite = false)
    (fails : f k c = some e) : False := nomatch (h k c hc).symm.trans fails

end Faults

namespace Access

variable {α β : Type} {f : Faults} {calls : List Call} {world : World Memory}

/-- Runs a program after these calls, over a memory whose calls fail as told. -/
def attempt (f : Faults) (p : Access α) (calls : List Call) (world : World Memory) : Attempt α :=
  match p.run (Backend.faulty f.strikes Backend.memory).recording calls calls.length world with
  | (((result, calls), _), world) => ⟨result, calls, world⟩

theorem run_noted_call (f : Faults) (c : Call) (next : c.Reply → Access α) (calls : List Call) (k : Nat) (world : World Memory) :
    (Access.call c next).run (Backend.faulty f.strikes Backend.memory).recording calls k world =
      match f k c with
      | none => (next (Memory.reply c world.store)).run (Backend.faulty f.strikes Backend.memory).recording (c :: calls) (k + 1)
          { world with store := Memory.after c world.store }
      | some e => (((.error (.storage e), c :: calls), k + 1), world) := by
  have hperform : (Backend.faulty f.strikes Backend.memory).recording.perform c calls k world =
      match (Backend.faulty f.strikes Backend.memory).perform c k world with
      | ((result, k), world) => (((result, c :: calls), k), world) := rfl
  rw [run]
  simp only [Bind.bind, StateT.bind, hperform]
  cases hf : f k c with
  | none => rw [Backend.perform_through hf]
  | some e =>
    rw [Backend.perform_failed hf]
    rfl

theorem attempt_call (f : Faults) (c : Call) (next : c.Reply → Access α) (calls : List Call) (world : World Memory) :
    (Access.call c next).attempt f calls world =
      match f calls.length c with
      | none => (next (Memory.reply c world.store)).attempt f (c :: calls) { world with store := Memory.after c world.store }
      | some e => ⟨.error (.storage e), c :: calls, world⟩ := by
  rw [attempt, run_noted_call]
  cases f calls.length c <;> rfl

/-- The number of the next call is that of the calls made. -/
theorem run_noted (f : Faults) (p : Access α) (calls : List Call) (world : World Memory) :
    let a := p.attempt f calls world
    p.run (Backend.faulty f.strikes Backend.memory).recording calls calls.length world =
      (((a.result, a.calls), a.calls.length), a.world) := by
  induction p generalizing calls world with
  | done result => rfl
  | draw n next ih => exact ih _ calls _
  | call c next ih =>
    rw [attempt_call, run_noted_call]
    cases f calls.length c with
    | none => exact ih _ (c :: calls) _
    | some e => rfl

theorem attempt_bind (f : Faults) (p : Access α) (g : α → Access β) (calls : List Call) (world : World Memory) :
    (p >>= g).attempt f calls world =
      match p.attempt f calls world with
      | ⟨.ok a, calls, world⟩ => (g a).attempt f calls world
      | ⟨.error e, calls, world⟩ => ⟨.error e, calls, world⟩ := by
  induction p generalizing calls world with
  | done result => cases result <;> rfl
  | draw n next ih => exact ih _ calls _
  | call c next ih =>
    rw [attempt_call]
    show (Access.call c fun reply => (next reply).bind g).attempt f calls world = _
    rw [attempt_call]
    cases f calls.length c with
    | none => exact ih _ _ _
    | some e => rfl

/-- Noting the calls changes nothing else. -/
theorem attempt_eq_runOn (f : Faults) (p : Access α) (calls : List Call) (world : World Memory) :
    let a := p.attempt f calls world
    p.runOn f calls.length world = ((a.result, a.calls.length), a.world) := by
  induction p generalizing calls world with
  | done result => rfl
  | draw n next ih => exact ih _ calls _
  | call c next ih =>
    rw [attempt_call, runOn_call]
    cases hf : f calls.length c with
    | none =>
      rw [Backend.perform_through hf]
      exact ih _ (c :: calls) _
    | some e =>
      rw [Backend.perform_failed hf]
      rfl

/-- A program that succeeds when no call fails, and failed, did so with the failure of its last
    call. -/
theorem Ends.blame {p : Access α} (h : p.Ends Faults.none.weather world.store fun result _ => ∃ a, result = .ok a) {e : Error}
    (failed : (p.attempt f calls world).result = .error e) : f.Explains (p.attempt f calls world).calls e := by
  induction p generalizing calls world with
  | done result =>
    obtain ⟨a, rfl⟩ := h
    cases failed
  | draw n next ih => exact ih _ (h _) failed
  | call c next ih =>
    rw [attempt_call] at failed ⊢
    cases hf : f calls.length c with
    | none =>
      -- the call went through, as it does when no call fails
      rw [hf] at failed
      exact ih _ (h.2 ⟨0, rfl⟩) failed
    | some failure =>
      rw [hf] at failed
      cases failed
      exact ⟨c, calls, failure, rfl, hf, rfl⟩

/-- A storage that refuses every write stays as it is. -/
theorem store_of_readOnly (p : Access α) (world : World Memory) :
    (p.run Backend.memory.readOnly world).2.store = world.store := by
  induction p generalizing world with
  | done result => rfl
  | draw n next ih => exact ih _ _
  | call c next ih =>
    rw [run]
    cases c with
    | get key => exact ih _ _
    | put key value => rfl
    | delete key => rfl
    | list directory => exact ih _ _

end Access

end Strongbox
