/-
  Strongbox.Proofs.Storage.Access — how programs over memory end.

  A call over a memory that can fail either goes through or fails without effect. A weather says
  which of the two can happen to a call; `Ends` says that a program started in a memory ends as
  a statement on its result and the memory asks, whatever bytes are drawn and however its calls
  go in that weather.

  Proved:
  - `ends_bind`: one program after the other.
  - `Ends.run`: what a program ends in is what running it gives.
  - `runOn_none`: a program none of whose calls fail runs as over the memory alone.
-/

import Strongbox.Storage.Memory

namespace Strongbox

/-- Whether and how the call number `k` of a request fails, given the call. -/
abbrev Faults := Nat → Call → Option StorageError

/-- What can happen to a call: `true` that it goes through, `false` that it fails. -/
abbrev Weather := Call → Bool → Prop

namespace Faults

/-- No call fails. -/
def none : Faults := fun _ _ => Option.none

/-- The failures in the order of the calls. -/
def strikes (f : Faults) : Call → StateM Nat (Option StorageError) := fun c k => (f k c, k + 1)

/-- What can happen to a call in such a request. -/
def weather (f : Faults) : Weather := fun c through => ∃ k, (f k c).isNone = through

theorem weather_none {c : Call} (h : none.weather c false) : False := by
  obtain ⟨_, h⟩ := h
  cases h

end Faults

namespace Memory

/-- What a call answers. -/
def reply : (c : Call) → Memory → c.Reply
  | .get key, m => m[key]?
  | .put _ _, _ => ()
  | .delete _, _ => ()
  | .list directory, m => childNames directory m.keys

/-- What a call leaves. -/
def after : Call → Memory → Memory
  | .get _, m => m
  | .put key value, m => m.insert key value
  | .delete key, m => m.erase key
  | .list _, m => m

theorem perform_eq (c : Call) (m : Memory) : Memory.perform c m = (.ok (reply c m), after c m) := by cases c <;> rfl

theorem getElem?_insert_of_ne (m : Memory) (value : Bytes) {key other : String} (h : other ≠ key) :
    (m.insert key value)[other]? = m[other]? := by
  rw [Std.ExtTreeMap.getElem?_insert, if_neg]
  exact fun hc => h (Std.LawfulEqCmp.eq_of_compare hc).symm

theorem getElem?_erase_of_ne (m : Memory) {key other : String} (h : other ≠ key) : (m.erase key)[other]? = m[other]? := by
  rw [Std.ExtTreeMap.getElem?_erase, if_neg]
  exact fun hc => h (Std.LawfulEqCmp.eq_of_compare hc).symm

/-- What is stored after a put. -/
theorem insert_ne_none {m : Memory} {value : Bytes} {key other : String} :
    (m.insert key value)[other]? ≠ none ↔ other = key ∨ m[other]? ≠ none := by
  by_cases h : other = key
  · rw [h, Std.ExtTreeMap.getElem?_insert_self]
    exact iff_of_true (Option.some_ne_none _) (.inl rfl)
  · rw [getElem?_insert_of_ne m value h, or_iff_right h]

/-- What is stored after a deletion. -/
theorem erase_ne_none {m : Memory} {key other : String} : (m.erase key)[other]? ≠ none ↔ other ≠ key ∧ m[other]? ≠ none := by
  by_cases h : other = key
  · rw [h, Std.ExtTreeMap.getElem?_erase_self]
    exact iff_of_false (not_not_intro rfl) fun h => h.1 rfl
  · rw [getElem?_erase_of_ne m h, and_iff_right h]

end Memory

/-- Calls one after the other, each with its answer. -/
def Call.answers {σ : Type} (perform : (c : Call) → StateM σ (Except StorageError c.Reply)) :
    List Call → StateM σ (List ((c : Call) × Except StorageError c.Reply))
  | [] => fun s => ([], s)
  | c :: rest => fun s =>
    let (answer, s) := perform c s
    let (others, s) := answers perform rest s
    (⟨c, answer⟩ :: others, s)

theorem Call.answers_cons {σ : Type} (perform : (c : Call) → StateM σ (Except StorageError c.Reply)) (c : Call) (rest : List Call)
    (s : σ) : answers perform (c :: rest) s =
      (⟨c, (perform c s).1⟩ :: (answers perform rest (perform c s).2).1, (answers perform rest (perform c s).2).2) := rfl

namespace Backend

variable {f : Faults} {c : Call} {k : Nat}

theorem perform_through (h : f k c = none) (world : World Memory) :
    (Backend.faulty f.strikes Backend.memory).perform c k world =
      ((.ok (Memory.reply c world.store), k + 1), { world with store := Memory.after c world.store }) := by
  have hget : (pure (k, k) : StateM (World Memory) (Nat × Nat)) world = ((k, k), world) := rfl
  simp only [faulty, Faults.strikes, Bind.bind, StateT.bind, MonadState.get, getThe, MonadStateOf.get, StateT.get, hget, h]
  cases c <;> rfl

theorem perform_failed {e : StorageError} (h : f k c = some e) (world : World Memory) :
    (Backend.faulty f.strikes Backend.memory).perform c k world = ((.error e, k + 1), world) := by
  have hget : (pure (k, k) : StateM (World Memory) (Nat × Nat)) world = ((k, k), world) := rfl
  simp only [faulty, Faults.strikes, Bind.bind, StateT.bind, MonadState.get, getThe, MonadStateOf.get, StateT.get, hget, h]
  rfl

end Backend

namespace Access

variable {α β : Type}

/-! ## Programs one after the other -/

theorem bind_assoc {γ : Type} (p : Access α) (f : α → Access β) (g : β → Access γ) :
    (p.bind f).bind g = p.bind fun a => (f a).bind g := by
  induction p with
  | done result =>
    cases result with
    | ok a => rfl
    | error e => rfl
  | draw n next ih => exact congrArg (Access.draw n) (funext fun b => ih b)
  | call c next ih => exact congrArg (Access.call c) (funext fun reply => ih reply)

theorem bind_done (p : Access α) : (p.bind fun a => .done (.ok a)) = p := by
  induction p with
  | done result =>
    cases result with
    | ok a => rfl
    | error e => rfl
  | draw n next ih => exact congrArg (Access.draw n) (funext fun b => ih b)
  | call c next ih => exact congrArg (Access.call c) (funext fun reply => ih reply)

instance : LawfulMonad Access := LawfulMonad.mk' Access
  (fun p => bind_done p)
  (fun _ _ => rfl)
  (fun p f g => bind_assoc p f g)

theorem forEach_map (f : β → Access Unit) (g : α → β) (as : List α) :
    forEach f (as.map g) = forEach (fun a => f (g a)) as := by
  induction as with
  | nil => rfl
  | cons a as ih => simp only [List.map_cons, forEach, ih]

/-! ## Ends -/

/-- Started in a memory, the program ends with a result and a memory as stated. -/
def Ends (w : Weather) : Access α → Memory → (Except Error α → Memory → Prop) → Prop
  | .done result, m, Q => Q result m
  | .draw _ next, m, Q => ∀ b, (next b).Ends w m Q
  | .call c next, m, Q =>
    (w c false → ∀ e, Q (.error (.storage e)) m) ∧
      (w c true → (next (Memory.reply c m)).Ends w (Memory.after c m) Q)

variable {w : Weather} {m : Memory}

theorem Ends.mono {p : Access α} {Q R : Except Error α → Memory → Prop} (h : p.Ends w m Q)
    (hQR : ∀ result m', Q result m' → R result m') : p.Ends w m R := by
  induction p generalizing m with
  | done result => exact hQR result m h
  | draw n next ih => exact fun b => ih b (h b)
  | call c next ih => exact ⟨fun hw e => hQR _ _ (h.1 hw e), fun hw => ih _ (h.2 hw)⟩

theorem ends_bind {p : Access α} {f : α → Access β} {Q : Except Error β → Memory → Prop} :
    (p >>= f).Ends w m Q ↔ p.Ends w m fun result m' =>
      match result with
      | .ok a => (f a).Ends w m' Q
      | .error e => Q (.error e) m' := by
  induction p generalizing m with
  | done result =>
    cases result with
    | ok a => exact Iff.rfl
    | error e => exact Iff.rfl
  | draw n next ih => exact forall_congr' fun b => ih b
  | call c next ih => exact and_congr Iff.rfl (imp_congr Iff.rfl (ih _))

/-! ## Running -/

/-- A program run over a memory whose calls fail as they are told. -/
def runOn (f : Faults) (p : Access α) (k : Nat) (world : World Memory) : (Except Error α × Nat) × World Memory :=
  p.run (Backend.faulty f.strikes Backend.memory) k world

theorem runOn_draw (f : Faults) (n : Nat) (next : Block n → Access α) (k : Nat) (world : World Memory) :
    (Access.draw n next).runOn f k world =
      (next (World.draw n world).1).runOn f k (World.draw n world : _ × World Memory).2 := rfl

theorem runOn_call (f : Faults) (c : Call) (next : c.Reply → Access α) (k : Nat) (world : World Memory) :
    (Access.call c next).runOn f k world =
      match (Backend.faulty f.strikes Backend.memory).perform c k world with
      | ((.ok reply, k), world) => (next reply).runOn f k world
      | ((.error e, k), world) => ((.error (.storage e), k), world) := by
  rw [runOn, Access.run]
  simp only [Bind.bind, StateT.bind]
  rcases (Backend.faulty f.strikes Backend.memory).perform c k world with ⟨⟨result, k⟩, world⟩
  cases result with
  | ok reply => rfl
  | error e => rfl

/-- What a program ends in is what running it gives. -/
theorem Ends.run {f : Faults} {p : Access α} {Q : Except Error α → Memory → Prop} {world : World Memory}
    (h : p.Ends f.weather world.store Q) (k : Nat) :
    Q (p.runOn f k world).1.1 (p.runOn f k world).2.store := by
  induction p generalizing k world with
  | done result => exact h
  | draw n next ih =>
    rw [runOn_draw]
    exact @ih _ (World.draw n world).2 (h _) k
  | call c next ih =>
    have hk : f.weather c (f k c).isNone := ⟨k, rfl⟩
    rw [runOn_call]
    cases hs : f k c with
    | none =>
      rw [hs] at hk
      rw [Backend.perform_through hs]
      exact @ih _ { world with store := Memory.after c world.store } (h.2 hk) (k + 1)
    | some e =>
      rw [hs] at hk
      rw [Backend.perform_failed hs]
      exact h.1 hk e

theorem run_memory_draw (n : Nat) (next : Block n → Access α) (world : World Memory) :
    (Access.draw n next).run Backend.memory world =
      (next (World.draw n world).1).run Backend.memory (World.draw n world : _ × World Memory).2 := rfl

theorem run_memory_call (c : Call) (next : c.Reply → Access α) (world : World Memory) :
    (Access.call c next).run Backend.memory world =
      (next (Memory.reply c world.store)).run Backend.memory { world with store := Memory.after c world.store } := by
  rw [run]
  cases c <;> rfl

/-- Where no call fails, a program runs as over the memory alone. -/
theorem runOn_none (p : Access α) (k : Nat) (world : World Memory) :
    (p.runOn Faults.none k world).1.1 = (p.run Backend.memory world).1 ∧
      (p.runOn Faults.none k world).2 = (p.run Backend.memory world).2 := by
  induction p generalizing k world with
  | done result => exact ⟨rfl, rfl⟩
  | draw n next ih => exact ih _ k _
  | call c next ih =>
    rw [runOn_call, Backend.perform_through rfl, run_memory_call]
    exact ih _ (k + 1) _

/-- What a program ends in where no call fails is what running it over the memory gives. -/
theorem Ends.run_memory {p : Access α} {Q : Except Error α → Memory → Prop} {world : World Memory}
    (h : p.Ends Faults.none.weather world.store Q) : Q (p.run Backend.memory world).1 (p.run Backend.memory world).2.store := by
  obtain ⟨hresult, hworld⟩ := runOn_none p 0 world
  rw [← hresult, ← hworld]
  exact h.run 0

end Access

end Strongbox
