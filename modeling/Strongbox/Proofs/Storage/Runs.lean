/-
  Strongbox.Proofs.Storage.Runs — what a program over any storage has done when it succeeds.

  A program that ends in a result has made all its calls, each of which was answered. So a run that
  succeeds comes apart into the runs of its parts, down to single calls and draws.

  Proved:
  - `run_bind_eq_ok`: of a program and the next one, both succeed.
  - `run_get_eq_ok`, `run_put_eq_ok`, `run_delete_eq_ok`: a single call succeeds where it is answered.
  - `forEach_keeps`: what each of several programs keeps, all of them keep.
-/

import Strongbox.Storage.Access

namespace Strongbox.Access

variable {σ α β : Type} {b : Backend (StateM σ)} {w w' : σ}

theorem run_call (b : Backend (StateM σ)) (c : Call) (next : c.Reply → Access α) (w : σ) :
    (Access.call c next).run b w =
      match b.perform c w with
      | (.ok reply, w) => (next reply).run b w
      | (.error e, w) => (.error (.storage e), w) := by
  rw [run]
  show StateT.bind (b.perform c) _ w = _
  rw [StateT.bind]
  show (match b.perform c w with | (result, w) => _) = _
  rcases b.perform c w with ⟨result, w⟩
  cases result <;> rfl

theorem run_bind (b : Backend (StateM σ)) (p : Access α) (f : α → Access β) (w : σ) :
    (p >>= f).run b w =
      match p.run b w with
      | (.ok a, w) => (f a).run b w
      | (.error e, w) => (.error e, w) := by
  induction p generalizing w with
  | done result => cases result <;> rfl
  | draw n next ih => exact ih _ _
  | call c next ih =>
    show (Access.call c fun reply => (next reply).bind f).run b w = _
    rw [run_call, run_call]
    rcases b.perform c w with ⟨result, w⟩
    cases result with
    | ok reply => exact ih reply w
    | error e => rfl

/-- A program and the next one succeed if each of them does. -/
theorem run_bind_eq_ok {p : Access α} {f : α → Access β} {result : β} :
    (p >>= f).run b w = (.ok result, w') ↔ ∃ a mid, p.run b w = (.ok a, mid) ∧ (f a).run b mid = (.ok result, w') := by
  rw [run_bind]
  rcases p.run b w with ⟨first, mid⟩
  cases first with
  | ok a =>
    constructor
    · intro h
      exact ⟨a, mid, rfl, h⟩
    · rintro ⟨_, _, heq, h⟩
      cases heq
      exact h
  | error e =>
    constructor
    · intro h
      cases h
    · rintro ⟨_, _, heq, _⟩
      cases heq

theorem run_pure_eq_ok {a result : α} : (pure a : Access α).run b w = (.ok result, w') ↔ a = result ∧ w = w' := by
  constructor
  · intro h
    cases h
    exact ⟨rfl, rfl⟩
  · rintro ⟨rfl, rfl⟩
    rfl

theorem run_fail_ne_ok {e : Error} {result : α} : (fail e : Access α).run b w ≠ (.ok result, w') := by
  intro h
  cases h

theorem run_ofExcept_eq_ok {given : Except StorageError α} {result : α} :
    (ofExcept given).run b w = (.ok result, w') ↔ given = .ok result ∧ w = w' := by
  constructor
  · intro h
    cases given with
    | ok a =>
      cases h
      exact ⟨rfl, rfl⟩
    | error e => cases h
  · rintro ⟨rfl, rfl⟩
    rfl

theorem run_call_eq_ok {c : Call} {reply : c.Reply} :
    (Access.call c fun reply => .done (.ok reply)).run b w = (.ok reply, w') ↔ b.perform c w = (.ok reply, w') := by
  rw [run_call]
  rcases b.perform c w with ⟨result, mid⟩
  cases result with
  | error e => exact iff_of_false nofun nofun
  | ok answer =>
    constructor
    · intro h
      cases h
      rfl
    · intro h
      cases h
      rfl

theorem run_get_eq_ok {key : String} {found : Option Bytes} :
    (get key).run b w = (.ok found, w') ↔ b.perform (.get key) w = (.ok found, w') :=
  run_call_eq_ok

theorem run_put_eq_ok {key : String} {value : Bytes} {done : Unit} :
    (put key value).run b w = (.ok done, w') ↔ b.perform (.put key value) w = (.ok done, w') :=
  run_call_eq_ok

theorem run_delete_eq_ok {key : String} {done : Unit} :
    (delete key).run b w = (.ok done, w') ↔ b.perform (.delete key) w = (.ok done, w') :=
  run_call_eq_ok

theorem run_random_eq_ok {n : Nat} {block : Block n} :
    (random n).run b w = (.ok block, w') ↔ b.random n w = (block, w') := by
  constructor
  · intro h
    cases h
    rfl
  · intro h
    show ((.ok (b.random n w).1, (b.random n w).2) : Except Error (Block n) × σ) = _
    rw [h]

/-- What each of several programs keeps when it succeeds, all of them keep. -/
theorem forEach_keeps {I : σ → Prop} {f : α → Access Unit} {as : List α} {done : Unit}
    (hstep : ∀ a ∈ as, ∀ w w' done, I w → (f a).run b w = (.ok done, w') → I w') (h : I w)
    (hrun : (forEach f as).run b w = (.ok done, w')) : I w' := by
  induction as generalizing w with
  | nil =>
    cases hrun
    exact h
  | cons a as ih =>
    obtain ⟨first, mid, hfirst, hrest⟩ := run_bind_eq_ok.mp (show (f a >>= fun _ => forEach f as).run b w = _ from hrun)
    have hmid := hstep a List.mem_cons_self w mid first h hfirst
    exact ih (fun other hother => hstep other (List.mem_cons_of_mem a hother)) hmid hrest

end Strongbox.Access
