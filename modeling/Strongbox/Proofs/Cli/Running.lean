/-
  Strongbox.Proofs.Cli.Running — what a run of the program that goes well has done.

  Over a tree of files a run reads its configuration, opens its directory, asks one request of a fresh
  store over the files in it, and reports the answer. Each of these can end the run, and then the report
  says why; a report without a failure is that of an answer.

  Proved:
  - `backend_ofTree`: the store of a run is over the files of its directory.
  - `steps_of_carryOut`: the steps of a run that reports no failure.
  - `carryOut_of_steps`: what these steps come to.
-/

import Strongbox.Cli.Run
import Strongbox.Proofs.Storage.Within
import Strongbox.Proofs.Vault.Backends

namespace Strongbox.Cli

open Time (Instant)

variable {env : Environment} {here : List String} {now : Instant} {w w' : World FileTree} {i : Invocation} {directory : String}
  {master : MasterKey} {defaults : Policy}

/-! ## The parts of a run -/

/-- The store of a run is over the files of its directory, which it may not write if so told. -/
theorem backend_ofTree (env : Environment) (here : List String) (now : Instant) (directory : String) (readOnly : Bool) :
    (Host.ofTree env here now).backend directory readOnly =
      if readOnly then (Backend.files here (.ofText directory)).readOnly else Backend.files here (.ofText directory) := by
  have hperform : Directory.perform (Host.ofTree env here now).files (.ofText directory) =
      fun c => World.onStore (Directory.perform (FileTree.fileSystem here) (.ofText directory) c) :=
    funext (Directory.within_eq (FileTree.fileSystem here) (.ofText directory))
  unfold Host.backend
  rw [hperform]
  rfl

theorem ensureRoot_ofTree (env : Environment) (here : List String) (now : Instant) (root : FilePath) (w : World FileTree) :
    Directory.ensureRoot (Host.ofTree env here now).files root w =
      ((Directory.ensureRoot (FileTree.fileSystem here) root w.store).1,
        { w with store := (Directory.ensureRoot (FileTree.fileSystem here) root w.store).2 }) :=
  congrFun (Directory.ensureRoot_within (FileTree.fileSystem here) root) w

/-- Reading the configuration leaves the files as they are. -/
theorem load_ofTree (env : Environment) (here : List String) (now : Instant) (file : Option String) (w : World FileTree) :
    (Policy.load (Host.ofTree env here now).files env file w).2 = w := by
  cases file <;> rfl

/-- So does reading what is to be written. -/
theorem request_ofTree (env : Environment) (here : List String) (now : Instant) (t : Task) (w : World FileTree) :
    ((Host.ofTree env here now).request t w).2 = w := by
  cases t with
  | request r => rfl
  | putFile path file cas =>
    show (StateT.bind ((Host.ofTree env here now).files.read (.ofText file)) _ w).2 = w
    have hread : (Host.ofTree env here now).files.read (.ofText file) w =
        (w.store.locate here (.ofText file) >>= w.store.read, w) := rfl
    rw [StateT.bind, hread]
    cases w.store.locate here (.ofText file) >>= w.store.read <;> rfl

/-! ## Failures -/

theorem dataDirectory_ne_nil {s : Settings} {chain : List String} (h : dataDirectory env s = .error chain) : chain ≠ [] := by
  unfold dataDirectory at h
  split at h
  · cases h
  · cases h
    exact List.cons_ne_nil _ _

theorem masterKey_ne_nil {chain : List String} (h : masterKey env = .error chain) : chain ≠ [] := by
  have hnamed {name : String} {key : Except MasterKey.Fault MasterKey}
      (h : (key.mapError fun fault => ["Invalid " ++ name, fault.message]) = .error chain) : chain ≠ [] := by
    cases key with
    | ok key => cases h
    | error fault =>
      cases h
      exact List.cons_ne_nil _ _
  unfold masterKey at h
  split at h
  · exact hnamed h
  · exact hnamed h
  · cases h
    exact List.cons_ne_nil _ _

theorem errorChain_ne_nil (e : Error) : Report.errorChain e ≠ [] := by
  unfold Report.errorChain
  split <;> exact List.cons_ne_nil _ _

theorem request_ne_nil {t : Task} {chain : List String} (h : ((Host.ofTree env here now).request t w).1 = .error chain) : chain ≠ [] := by
  cases t with
  | request r => cases h
  | putFile path file cas =>
    replace h : (StateT.bind ((Host.ofTree env here now).files.read (.ofText file)) _ w).1 = _ := h
    have hread : (Host.ofTree env here now).files.read (.ofText file) w =
        (w.store.locate here (.ofText file) >>= w.store.read, w) := rfl
    rw [StateT.bind, hread] at h
    cases hcontent : w.store.locate here (.ofText file) >>= w.store.read with
    | ok data =>
      rw [hcontent] at h
      cases h
    | error e =>
      rw [hcontent] at h
      cases h
      exact List.cons_ne_nil _ _

/-! ## The whole run -/

/-- One step after the other, from a state. -/
theorem bind_apply {σ α β : Type} (p : StateM σ α) (f : α → StateM σ β) (s : σ) : (p >>= f) s = f (p s).1 (p s).2 := rfl

theorem perform_eq (b : Backend (StateM (World FileTree))) (s : Store) (t : Task) (w : World FileTree) :
    (Host.ofTree env here now).perform b s t w =
      match ((Host.ofTree env here now).request t w).1 with
      | .error chain => (.failed chain, w)
      | .ok r =>
        (match (s.handle b now r w).1.1 with
          | .ok reply => .ofReply r reply
          | .error e => .failed (Report.errorChain e), (s.handle b now r w).2) := by
  unfold Host.perform
  rw [bind_apply, request_ofTree]
  cases ((Host.ofTree env here now).request t w).1 with
  | error chain => rfl
  | ok r =>
    dsimp only
    rw [bind_apply, bind_apply, show ((Host.ofTree env here now).now w) = (now, w) from rfl]
    rcases s.handle b now r w with ⟨⟨reply, after⟩, world⟩
    cases reply <;> rfl

theorem carryOut_eq (hdirectory : dataDirectory env i.settings = .ok directory) (hmaster : masterKey env = .ok master)
    (w : World FileTree) : (Host.ofTree env here now).carryOut i w =
      match (Policy.load (Host.ofTree env here now).files env i.settings.policyFile w).1 with
      | .error e => (.failed ("Failed to load backend configuration" :: Report.policyChain e), w)
      | .ok defaults =>
        match Directory.ensureRoot (FileTree.fileSystem here) (.ofText directory) w.store with
        | (.error e, opened) => (.failed (("Failed to open storage at " ++ directory) :: Report.ioChain e), { w with store := opened })
        | (.ok (), opened) => (Host.ofTree env here now).perform ((Host.ofTree env here now).backend directory i.settings.readOnly)
          { master, defaults } i.task { w with store := opened } := by
  unfold Host.carryOut
  rw [show (Host.ofTree env here now).environment = env from rfl, hdirectory, hmaster]
  dsimp only
  rw [bind_apply, load_ofTree]
  cases (Policy.load (Host.ofTree env here now).files env i.settings.policyFile w).1 with
  | error e => rfl
  | ok defaults =>
    dsimp only
    rw [bind_apply, ensureRoot_ofTree]
    rcases Directory.ensureRoot (FileTree.fileSystem here) (.ofText directory) w.store with ⟨result, opened⟩
    cases result <;> rfl

theorem run_eq {args : List String} (hi : invocation env args = .ok i) (w : World FileTree) :
    run (Host.ofTree env here now) args w =
      (.ok ((Host.ofTree env here now).carryOut i w).1, ((Host.ofTree env here now).carryOut i w).2) := by
  unfold run
  rw [show (Host.ofTree env here now).environment = env from rfl, hi]
  rfl

/-- The steps of a run that goes well: with its configuration read and its directory opened, a fresh
    store over the files in it answers its request. -/
structure Steps (env : Environment) (here : List String) (now : Instant) (i : Invocation) (w : World FileTree) (name : String)
    (master : MasterKey) (defaults : Policy) (opened : FileTree) (r : Request) (reply : r.Reply) (w' : World FileTree) : Prop where
  named : dataDirectory env i.settings = .ok name
  keyed : masterKey env = .ok master
  configured : (Policy.load (Host.ofTree env here now).files env i.settings.policyFile w).1 = .ok defaults
  opens : Directory.ensureRoot (FileTree.fileSystem here) (.ofText name) w.store = (.ok (), opened)
  asks : ((Host.ofTree env here now).request i.task { w with store := opened }).1 = .ok r
  answers : ∃ after, ({ master, defaults } : Store).handle ((Host.ofTree env here now).backend name i.settings.readOnly) now r
    { w with store := opened } = ((.ok reply, after), w')

/-- These steps end in a report of the answer. -/
theorem carryOut_of_steps {name : String} {opened : FileTree} {r : Request} {reply : r.Reply}
    (h : Steps env here now i w name master defaults opened r reply w') :
    (Host.ofTree env here now).carryOut i w = (.ofReply r reply, w') := by
  obtain ⟨after, hanswer⟩ := h.answers
  rw [carryOut_eq h.named h.keyed, h.configured]
  dsimp only
  rw [h.opens]
  dsimp only
  rw [perform_eq, h.asks]
  dsimp only
  rw [hanswer]

/-- A run that reports no failure has gone through these steps. -/
theorem steps_of_carryOut {report : Report} (h : (Host.ofTree env here now).carryOut i w = (report, w')) (hok : report.failure = []) :
    ∃ name master defaults opened r reply, Steps env here now i w name master defaults opened r reply w' ∧ report = .ofReply r reply := by
  have hfailed {chain : List String} {world : World FileTree} (heq : (.failed chain, world) = (report, w')) (hne : chain ≠ []) : False := by
    rw [← (Prod.mk.inj heq).1] at hok
    exact hne hok
  cases hnamed : dataDirectory env i.settings with
  | error chain =>
    unfold Host.carryOut at h
    rw [show (Host.ofTree env here now).environment = env from rfl, hnamed] at h
    exact (hfailed h (dataDirectory_ne_nil hnamed)).elim
  | ok name =>
    cases hkeyed : masterKey env with
    | error chain =>
      unfold Host.carryOut at h
      rw [show (Host.ofTree env here now).environment = env from rfl, hnamed, hkeyed] at h
      exact (hfailed h (masterKey_ne_nil hkeyed)).elim
    | ok master =>
      rw [carryOut_eq hnamed hkeyed] at h
      cases hconfigured : (Policy.load (Host.ofTree env here now).files env i.settings.policyFile w).1 with
      | error e =>
        rw [hconfigured] at h
        exact (hfailed h (List.cons_ne_nil _ _)).elim
      | ok defaults =>
        rw [hconfigured] at h
        dsimp only at h
        rcases hopens : Directory.ensureRoot (FileTree.fileSystem here) (.ofText name) w.store with ⟨made, opened⟩
        rw [hopens] at h
        cases made with
        | error e => exact (hfailed h (List.cons_ne_nil _ _)).elim
        | ok =>
          dsimp only at h
          rw [perform_eq] at h
          cases hasks : ((Host.ofTree env here now).request i.task { w with store := opened }).1 with
          | error chain =>
            rw [hasks] at h
            exact (hfailed h (request_ne_nil hasks)).elim
          | ok r =>
            rw [hasks] at h
            dsimp only at h
            rcases hhandled : ({ master, defaults } : Store).handle
              ((Host.ofTree env here now).backend name i.settings.readOnly) now r { w with store := opened } with ⟨⟨answer, after⟩, world⟩
            rw [hhandled] at h
            cases answer with
            | error e => exact (hfailed h (errorChain_ne_nil e)).elim
            | ok reply =>
              obtain ⟨hreport, rfl⟩ := Prod.mk.inj h
              exact ⟨name, master, defaults, opened, r, reply, ⟨hnamed, hkeyed, hconfigured, hopens, hasks, after, hhandled⟩, hreport.symm⟩

end Strongbox.Cli
