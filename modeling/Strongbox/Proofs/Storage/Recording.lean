/-
  Strongbox.Proofs.Storage.Recording — runs over another storage beside runs over a memory.

  A backend that notes its calls tells afterwards which were made. Two runs go side by side: one
  over a memory, one over a storage that is kept in step with it as long as the calls in use go
  through there, which they do if there is room for them. Then either a call was made that there was
  no room for, or both runs come to the same.

  Proved:
  - `notes_run`: noting calls changes nothing else.
  - `Alike.bind`: one computation after the other.
  - `alike_run`: a program that makes only calls in use runs alike over both.
-/

import Strongbox.Proofs.Storage.Access

namespace Strongbox

/-- Notes every call, the last first. -/
def Backend.recording {m : Type → Type} [Monad m] (b : Backend m) : Backend (StateT (List Call) m) where
  perform c := do
    modify (c :: ·)
    b.perform c
  random n := b.random n

/-- A computation over a pure storage that notes calls. -/
abbrev Noted (σ α : Type) := StateT (List Call) (StateM (World σ)) α

variable {σ α β : Type}

/-! ## Noting calls -/

/-- The first does what the second does, and what was noted before stays noted. -/
structure Notes (x : Noted σ α) (y : StateM (World σ) α) : Prop where
  same : ∀ calls world, ((x calls world).1.1, (x calls world).2) = y world
  grows : ∀ calls world, ∀ c ∈ calls, c ∈ (x calls world).1.2

theorem notes_pure (a : α) : Notes (pure a : Noted σ α) (pure a) where
  same _ _ := rfl
  grows _ _ _ h := h

theorem Notes.bind {x : Noted σ α} {y : StateM (World σ) α} {f : α → Noted σ β} {g : α → StateM (World σ) β} (hx : Notes x y)
    (hf : ∀ a, Notes (f a) (g a)) : Notes (x >>= f) (y >>= g) where
  same calls world := by
    have hrun : (y >>= g) world = g (y world).1 (y world).2 := rfl
    rw [hrun, ← hx.same calls world]
    exact (hf _).same _ _
  grows calls world c h := (hf _).grows _ _ c (hx.grows calls world c h)

theorem notes_perform (b : Backend (StateM (World σ))) (c : Call) : Notes (b.recording.perform c) (b.perform c) where
  same _ _ := rfl
  grows _ _ _ h := List.mem_cons_of_mem c h

theorem notes_random (b : Backend (StateM (World σ))) (n : Nat) : Notes (b.recording.random n) (b.random n) where
  same _ _ := rfl
  grows _ _ _ h := h

theorem Access.notes_run (b : Backend (StateM (World σ))) (p : Access α) : Notes (p.run b.recording) (p.run b) := by
  induction p with
  | done result => exact notes_pure result
  | draw n next ih => exact (notes_random b n).bind ih
  | call c next ih =>
    rw [run, run]
    refine (notes_perform b c).bind fun result => ?_
    cases result with
    | ok reply => exact ih reply
    | error e => exact notes_pure _

/-! ## Side by side -/

/-- The storage is kept in step with the memory, and both draw the same bytes. -/
structure Joint (R : Memory → σ → Prop) (world : World σ) (world' : World Memory) : Prop where
  store : R world'.store world.store
  entropy : world.entropy = world'.entropy

/-- Either a call in use was made that there was no room for, or what came of the run is what came
    of the one over the memory, and only calls in use were made. -/
def Alike (R : Memory → σ → Prop) (K room : Call → Prop) (calls : List Call) (out : (α × List Call) × World σ)
    (out' : α × World Memory) : Prop :=
  (∃ c ∈ out.1.2, K c ∧ ¬ room c) ∨
    (out.1.1 = out'.1 ∧ Joint R out.2 out'.2 ∧ ∀ c ∈ out.1.2, c ∈ calls ∨ K c)

section

variable {R : Memory → σ → Prop} {K room : Call → Prop} {calls : List Call} {world : World σ} {world' : World Memory}

theorem alike_pure (h : Joint R world world') (a : α) : Alike R K room calls ((a, calls), world) (a, world') :=
  .inr ⟨rfl, h, fun _ hc => .inl hc⟩

theorem Alike.bind {x : Noted σ α} {y : StateM (World Memory) α} {f : α → Noted σ β} {g : α → StateM (World Memory) β}
    (hx : Alike R K room calls (x calls world) (y world')) (hgrows : ∀ a calls world, ∀ c ∈ calls, c ∈ (f a calls world).1.2)
    (hf : ∀ a calls₁ world₁ world₁', y world' = (a, world₁') → Joint R world₁ world₁' →
      Alike R K room calls₁ (f a calls₁ world₁) (g a world₁')) :
    Alike R K room calls ((x >>= f) calls world) ((y >>= g) world') := by
  have hrun : (x >>= f) calls world = f (x calls world).1.1 (x calls world).1.2 (x calls world).2 := rfl
  have hrun' : (y >>= g) world' = g (y world').1 (y world').2 := rfl
  rw [hrun, hrun']
  generalize x calls world = out at hx
  obtain ⟨⟨a, calls₁⟩, world₁⟩ := out
  rcases hx with ⟨c, hc, hbad⟩ | ⟨ha, hjoint, hcalls⟩
  · exact .inl ⟨c, hgrows a calls₁ world₁ c hc, hbad⟩
  · simp only at ha hjoint hcalls
    subst ha
    rcases hf _ calls₁ world₁ _ rfl hjoint with hbad | ⟨hb, hjoint, hmore⟩
    · exact .inl hbad
    · refine .inr ⟨hb, hjoint, fun c hc => ?_⟩
      rcases hmore c hc with hc | hc
      · exact hcalls c hc
      · exact .inr hc

end

/-! ## Programs -/

namespace Access

/-- The program makes only such calls, and if it comes to a value, to such a one. -/
def Asks (K : Call → Prop) (Q : α → Prop) : Access α → Prop
  | .done (.ok a) => Q a
  | .done (.error _) => True
  | .draw _ next => ∀ b, (next b).Asks K Q
  | .call c next => K c ∧ ∀ reply, (next reply).Asks K Q

section Asks

variable {K : Call → Prop}

theorem asks_pure {Q : α → Prop} {a : α} (h : Q a) : Asks K Q (pure a) := h

theorem Asks.bind {P : α → Prop} {Q : β → Prop} {p : Access α} {f : α → Access β} (hp : p.Asks K P)
    (hf : ∀ a, P a → (f a).Asks K Q) : (p >>= f).Asks K Q := by
  induction p with
  | done result =>
    cases result with
    | ok a => exact hf a hp
    | error e => trivial
  | draw n next ih => exact fun b => ih b (hp b)
  | call c next ih => exact ⟨hp.1, fun reply => ih reply (hp.2 reply)⟩

theorem asks_ofExcept (r : Except StorageError α) : Asks K (fun _ => True) (ofExcept r) := by
  cases r <;> trivial

theorem asks_forEach {f : α → Access Unit} {as : List α} (h : ∀ a ∈ as, (f a).Asks K fun _ => True) :
    (forEach f as).Asks K fun _ => True := by
  induction as with
  | nil => trivial
  | cons a as ih =>
    exact (h a List.mem_cons_self).bind fun _ _ => ih fun a' ha' => h a' (List.mem_cons_of_mem a ha')

end Asks

section Run

variable {perform : (c : Call) → StateM σ (Except StorageError c.Reply)}

/-- A program run over a pure storage, noting its calls. -/
theorem run_recording_call (c : Call) (next : c.Reply → Access α) (calls : List Call) (world : World σ) :
    (Access.call c next).run (Backend.ofStore perform).recording calls world =
      match perform c world.store with
      | (.ok reply, store) => (next reply).run (Backend.ofStore perform).recording (c :: calls) { world with store }
      | (.error e, store) => ((.error (.storage e), c :: calls), { world with store }) := by
  have hperform : (Backend.ofStore perform).recording.perform c calls world =
      (((perform c world.store).1, c :: calls), { world with store := (perform c world.store).2 }) := rfl
  rw [run]
  simp only [Bind.bind, StateT.bind, hperform]
  rcases perform c world.store with ⟨result, store⟩
  cases result <;> rfl

variable {R : Memory → σ → Prop} {K room : Call → Prop}

/-- A program that makes only calls in use runs alike over the memory and over a storage that is
    kept in step with it. -/
theorem alike_run (hstep : ∀ c m store, K c → room c → R m store →
      ∃ store', perform c store = (.ok (Memory.reply c m), store') ∧ R (Memory.after c m) store')
    {Q : α → Prop} {p : Access α} (hp : p.Asks K Q) {calls : List Call} {world : World σ} {world' : World Memory}
    (h : Joint R world world') :
    Alike R K room calls (p.run (Backend.ofStore perform).recording calls world) (p.run Backend.memory world') := by
  induction p generalizing calls world world' with
  | done result => exact alike_pure h result
  | draw n next ih =>
    have hdraw : (World.draw n world : _ × World σ).1 = (World.draw n world' : _ × World Memory).1 :=
      congrArg (fun entropy => (Entropy.draw n entropy).1) h.entropy
    have hjoint : Joint R (World.draw n world : _ × World σ).2 (World.draw n world' : _ × World Memory).2 :=
      ⟨h.store, congrArg (fun entropy => (Entropy.draw n entropy).2) h.entropy⟩
    rw [run_memory_draw, ← hdraw]
    exact ih _ (hp _) hjoint
  | call c next ih =>
    rw [run_recording_call, run_memory_call]
    by_cases hroom : room c
    · obtain ⟨store', hperform, hR⟩ := hstep c world'.store world.store hp.1 hroom h.store
      rw [hperform]
      have hjoint : Joint R { world with store := store' } { world' with store := Memory.after c world'.store } := ⟨hR, h.entropy⟩
      rcases ih (Memory.reply c world'.store) (hp.2 _) hjoint with hbad | ⟨hresult, hjoint, hcalls⟩
      · exact .inl hbad
      · refine .inr ⟨hresult, hjoint, fun c' hc' => ?_⟩
        rcases hcalls c' hc' with hc' | hc'
        · rcases List.mem_cons.mp hc' with rfl | hc'
          · exact .inr hp.1
          · exact .inl hc'
        · exact .inr hc'
    · refine .inl ⟨c, ?_, hp.1, hroom⟩
      split
      · exact (notes_run _ _).grows _ _ c List.mem_cons_self
      · exact List.mem_cons_self

end Run

end Access

end Strongbox
