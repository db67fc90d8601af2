/-
  Strongbox.Proofs.Storage.ReadOnly — programs over a memory that refuses writes.

  A program runs over such a memory as it does over one that takes writes, up to its first write, and
  there it fails. Whether there is one can be read off the calls of the run that may write.

  Proved:
  - `run_readOnly`: what a program comes to over a memory that refuses writes.
  - `store_of_reads`: a run without a write leaves the memory as it is.
  - `Ends.run_readOnly`: what a program ends in where writes fail is what running it there gives.
-/

import Strongbox.Proofs.Storage.Attempts
import Strongbox.Proofs.Storage.Runs

namespace Strongbox

/-- What can happen to a call of a memory that refuses writes: a write fails and a read goes through. -/
def Weather.readOnly : Weather := fun c through => through = !c.isWrite

theorem Memory.after_of_read {c : Call} (h : c.isWrite = false) (m : Memory) : Memory.after c m = m := by
  cases c <;> first | rfl | cases h

namespace Access

variable {α β : Type}

theorem run_readOnly_call (c : Call) (next : c.Reply → Access α) (world : World Memory) :
    (Access.call c next).run Backend.memory.readOnly world =
      if c.isWrite then (.error (.storage .readOnly), world)
      else (next (Memory.reply c world.store)).run Backend.memory.readOnly world := by
  rw [run]
  cases c <;> rfl

/-- Over a memory that refuses writes a program fails with its first write. Without one it comes to
    what it does where every call goes through. -/
theorem run_readOnly (p : Access α) (calls : List Call) (world : World Memory) :
    let a := p.attempt Faults.none calls world
    ∃ made, a.calls = made ++ calls ∧
      if made.any Call.isWrite then (p.run Backend.memory.readOnly world).1 = .error (.storage .readOnly)
      else p.run Backend.memory.readOnly world = (a.result, a.world) := by
  induction p generalizing calls world with
  | done result => exact ⟨[], rfl, rfl⟩
  | draw n next ih => exact ih _ calls _
  | call c next ih =>
    rw [attempt_call, run_readOnly_call]
    obtain ⟨made, hmade, hresult⟩ := ih (Memory.reply c world.store) (c :: calls) { world with store := Memory.after c world.store }
    refine ⟨made ++ [c], ?_, ?_⟩
    · rw [List.append_assoc]
      exact hmade
    · rw [List.any_append]
      cases hc : c.isWrite with
      | true =>
        rw [if_pos]
        · rfl
        · rw [List.any_cons, hc, Bool.true_or, Bool.or_true]
      | false =>
        rw [Memory.after_of_read hc] at hresult ⊢
        rw [List.any_cons, hc, List.any_nil, Bool.or_false, Bool.or_false]
        exact hresult

/-- A run that made no write leaves the memory as it is. -/
theorem store_of_reads {p : Access α} {world : World Memory}
    (h : (p.attempt Faults.none [] world).calls.any Call.isWrite = false) :
    (p.attempt Faults.none [] world).world.store = world.store := by
  obtain ⟨made, hmade, hresult⟩ := p.run_readOnly [] world
  rw [List.append_nil] at hmade
  rw [← hmade, h] at hresult
  have hstore := p.store_of_readOnly world
  rw [show p.run Backend.memory.readOnly world = _ from hresult] at hstore
  exact hstore

/-- What a program ends in where writes fail is what running it over a memory that refuses them gives. -/
theorem Ends.run_readOnly {p : Access α} {Q : Except Error α → Memory → Prop} {world : World Memory}
    (h : p.Ends Weather.readOnly world.store Q) :
    Q (p.run Backend.memory.readOnly world).1 (p.run Backend.memory.readOnly world).2.store := by
  induction p generalizing world with
  | done result => exact h
  | draw n next ih => exact @ih _ (World.draw n world).2 (h _)
  | call c next ih =>
    rw [run_readOnly_call]
    cases hc : c.isWrite with
    | true => exact h.1 (by rw [Weather.readOnly, hc]; rfl) .readOnly
    | false =>
      have hnext := h.2 (by rw [Weather.readOnly, hc]; rfl)
      rw [Memory.after_of_read hc] at hnext
      exact ih _ hnext

end Access

end Strongbox
