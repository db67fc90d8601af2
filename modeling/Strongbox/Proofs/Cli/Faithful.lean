/-
  Strongbox.Proofs.Cli.Faithful — what was put is what a get prints.

  Put and get are two runs of the program over one tree of files, which may hold anything at first. The
  environment, the switches and the clock of the get may differ from those of the put, as long as both name the
  same directory and the same master key. A put that goes well prints the number of a version; a get
  of that number prints the text that was put, unless the version has expired by then.

  Proved:
  - `left_by_put`: what a put that goes well leaves in the files.
  - `prints_iff_unexpired`: when a get prints what was put.
  - `first_put`: a put into an empty directory goes well.
  - `shown_faithfully`: what is printed of any version, and of what was put.
-/

import Strongbox.Proofs.Cli.Arguments
import Strongbox.Proofs.Cli.Rendering
import Strongbox.Proofs.Cli.Running
import Strongbox.Proofs.Storage.Root
import Strongbox.Proofs.Vault.Filing
import Strongbox.Proofs.Vault.Fresh

namespace Strongbox

open Time (Instant)
open Access (run_bind_eq_ok)

/-! ## Opening -/

section Opening

variable {here base : List String} {root : FilePath} {w w' : World FileTree} {ring : KeyRing}

/-- A set-up that succeeds below an opened root shows that this leads to a directory. -/
theorem rooted_of_setUp {master : MasterKey} {t : FileTree} (hne : root.isEmpty = false)
    (hopened : Directory.ensureRoot (FileTree.fileSystem here) root t = (.ok (), w.store))
    (h : (KeyRing.setUp master).run (Backend.files here root) w = (.ok ring, w')) : ∃ base, Directory.Rooted here root base w.store := by
  obtain ⟨salt, _, hsalted, -⟩ := run_bind_eq_ok.mp h
  obtain ⟨found, _, hget, -⟩ := run_bind_eq_ok.mp hsalted
  exact Directory.rooted_of_opened hne hopened (get_run_files hget).2

/-- Nothing is put where writes are refused. -/
theorem Sealed.put_readOnly {σ : Type} {b : Backend (StateM σ)} {s : Sealed} {key : String} {value : Bytes} {w w' : σ} {done : Unit} :
    (s.put key value).run b.readOnly w ≠ (.ok done, w') := by
  intro h
  obtain ⟨nonce, mid, -, hput⟩ := run_bind_eq_ok.mp h
  rw [Access.run_put_eq_ok] at hput
  cases hput

end Opening

namespace Cli

variable {env env' : Environment} {here : List String} {now later : Instant} {w w' : World FileTree} {put get : Invocation}
  {path text : String} {number : UInt64} {cas : Option UInt64}

/-! ## What runs say -/

/-- The run reports the number of a version that it wrote. -/
def Wrote (outcome : Except Stop Report) (number : UInt64) : Prop :=
  ∃ report, outcome = .ok report ∧ report.failure = [] ∧ shownVersion? report.output = some number

/-- The run prints a version with its number and this text for its data. -/
def Prints (outcome : Except Stop Report) (number : UInt64) (text : String) : Prop :=
  ∃ report shown, outcome = .ok report ∧ report.failure = [] ∧ ShownSecret.ofOutput? report.output = some shown ∧
    shown.version = number ∧ shown.data = some text

/-- Once its directory is there, an invocation comes to a request. What is to be written may be in a
    file, which is read then. -/
def Asks (env : Environment) (here : List String) (now : Instant) (i : Invocation) (w : World FileTree) (r : Request) : Prop :=
  ∃ name, dataDirectory env i.settings = .ok name ∧ ((Host.ofTree env here now).request i.task
    { w with store := (Directory.ensureRoot (FileTree.fileSystem here) (.ofText name) w.store).2 }).1 = .ok r

/-- What a run that reads the record of a path finds to be the lifetime of its versions, by this
    record and by the policy. -/
def InForce (env : Environment) (here : List String) (now : Instant) (i : Invocation) (path : String) (w : World FileTree)
    (lifetime : Option UInt64) : Prop :=
  ∃ name master defaults ring policy record,
    dataDirectory env i.settings = .ok name ∧ masterKey env = .ok master ∧
    (Policy.load (Host.ofTree env here now).files env i.settings.policyFile w).1 = .ok defaults ∧
    let b := (Host.ofTree env here now).backend name i.settings.readOnly
    (KeyRing.setUp master).run b w = (.ok ring, w) ∧
    (Vault.mk ring defaults).readPolicy.run b w = (.ok policy, w) ∧
    (Vault.readRecord ring path).run b w = (.ok (some record), w) ∧
    lifetime = record.lifetime? policy

theorem readsFiles_ofTree (env : Environment) (here : List String) (now : Instant) (name : String) (readOnly : Bool) :
    ReadsFiles here (.ofText name) ((Host.ofTree env here now).backend name readOnly) := by
  rw [backend_ofTree]
  cases readOnly with
  | false => exact readsFiles_files
  | true => exact readsFiles_readOnly

/-! ## Putting -/

/-- What a put that goes well leaves: a storage that is set up, with the version in it. -/
theorem left_by_put {i : Invocation} {name : String} {master : MasterKey} {defaults : Policy} {opened : FileTree} {data : Bytes}
    {written : WrittenVersion} {warnings : List Warning} (hname : (FilePath.ofText name).isEmpty = false)
    (h : Steps env here now i w name master defaults opened (.writeData path data cas) (.accepted written warnings) w') :
    KeyPath.fault? path = none ∧ ∃ base ring, Unlocks here (.ofText name) base master ring w'.store ∧
      Deposit here (.ofText name) base ring path now written.version data w'.store := by
  obtain ⟨after, hanswer⟩ := h.answers
  have hvalid : KeyPath.fault? path = none := by
    cases hfault : KeyPath.fault? path with
    | none => rfl
    | some fault =>
      have himmediate : (Request.writeData path data cas).immediate? = some (.rejected (.path fault)) := by
        rw [Request.immediate?, hfault]
        rfl
      unfold Store.handle at hanswer
      rw [himmediate] at hanswer
      cases hanswer
  have himmediate : (Request.writeData path data cas).immediate? = none := by
    rw [Request.immediate?, hvalid]
    rfl
  obtain ⟨ring, mid, hopened, hwritten⟩ := Store.opened_of_handle himmediate (fun _ => rfl) hanswer
  have haccepted := Vault.writeData_accepted hwritten
  rw [backend_ofTree] at hopened haccepted
  cases hreadOnly : i.settings.readOnly with
  | true =>
    rw [hreadOnly, if_pos rfl] at haccepted
    obtain ⟨_, _, _, _, _, _, _, _, -, -, -, hpayload, -⟩ := haccepted.steps
    exact absurd hpayload Sealed.put_readOnly
  | false =>
    rw [hreadOnly, if_neg (by decide)] at hopened haccepted
    obtain ⟨base, hroot⟩ := rooted_of_setUp hname h.opens hopened
    have hunlocks := unlocks_of_setUp hroot hopened
    obtain ⟨hunlocks, hdeposit⟩ := deposit_of_accepted hunlocks hvalid haccepted
    exact ⟨hvalid, base, ring, hunlocks, hdeposit⟩

/-! ## Getting -/

/-- Data that is a text is printed as that text, and data that is not there is not printed. -/
theorem prints_readData (path : String) (version : Option UInt64) (shown : Option SecretVersion) :
    Prints (.ok (.ofReply (.readData path version) shown)) number text ↔
      ∃ secret, shown = some secret ∧ secret.version = number ∧ secret.data = some (Bytes.utf8 text) := by
  cases shown with
  | none =>
    refine iff_of_false ?_ nofun
    rintro ⟨report, _, heq, hok, -⟩
    cases heq
    cases hok
  | some secret =>
    have hprinted : ShownSecret.ofOutput? (Report.ofReply (.readData path version) (some secret)).output = some secret.shown := secret.printed
    constructor
    · rintro ⟨report, shown, heq, -, hshown, hversion, hdata⟩
      cases heq
      rw [hprinted] at hshown
      cases hshown
      exact ⟨secret, rfl, hversion, secret.shown_data_eq_some_iff.mp hdata⟩
    · rintro ⟨_, heq, hversion, hdata⟩
      cases heq
      exact ⟨_, secret.shown, rfl, rfl, hprinted, hversion, secret.shown_data_eq_some_iff.mpr hdata⟩

/-- Of a storage with a version in it a get prints the text of this version exactly if it has not expired. -/
theorem prints_iff_unexpired {base : List String} {name : String} {master : MasterKey} {defaults : Policy} {ring : KeyRing}
    {args : List String} (hget : invocation env args = .ok get) (htask : get.task = .request (.readData path (some number)))
    (hnamed : dataDirectory env get.settings = .ok name) (hkeyed : masterKey env = .ok master)
    (hconfigured : (Policy.load (Host.ofTree env here later).files env get.settings.policyFile w).1 = .ok defaults)
    (hpath : KeyPath.fault? path = none) (hunlocks : Unlocks here (.ofText name) base master ring w.store)
    (hdeposit : Deposit here (.ofText name) base ring path now number (Bytes.utf8 text) w.store) :
    ∃ lifetime, InForce env here later get path w lifetime ∧
      (Prints (run (Host.ofTree env here later) args w).1 number text ↔
        ({ createdTime := now } : VersionEntry).expired? lifetime later = none) := by
  have hreads := readsFiles_ofTree env here later name get.settings.readOnly
  have hopened := hunlocks.setUp hreads
  obtain ⟨policy, record, hpolicy, hrecord, hread⟩ := Deposit.readData (v := ⟨ring, defaults⟩) hreads hdeposit
  have hforce : InForce env here later get path w (record.lifetime? policy) :=
    ⟨name, master, defaults, ring, policy, record, hnamed, hkeyed, hconfigured, hopened, hpolicy, hrecord, rfl⟩
  refine ⟨record.lifetime? policy, hforce, ?_⟩
  have himmediate : (Request.readData path (some number)).immediate? = none := by
    rw [Request.immediate?, hpath]
    rfl
  have hhandled : ({ master, defaults } : Store).handle ((Host.ofTree env here later).backend name get.settings.readOnly) later
      (.readData path (some number)) w = _ := Store.handle_of_opened himmediate hopened
  rw [run_eq hget]
  cases hexpired : ({ createdTime := now } : VersionEntry).expired? (record.lifetime? policy) later with
  | none =>
    rw [hexpired] at hread
    have hperform : ((Vault.mk ring defaults).perform later (.readData path (some number))).run
      ((Host.ofTree env here later).backend name get.settings.readOnly) w = _ := hread
    rw [hperform] at hhandled
    have hsteps : Steps env here later get w name master defaults w.store (.readData path (some number)) _ w :=
      ⟨hnamed, hkeyed, hconfigured, hunlocks.rooted.ensureRoot, by rw [htask]; rfl, _, hhandled⟩
    rw [carryOut_of_steps hsteps]
    exact iff_of_true ((prints_readData path (some number) _).mpr ⟨_, rfl, rfl, rfl⟩) rfl
  | some ending =>
    rw [hexpired] at hread
    refine iff_of_false (fun hprints => ?_) (Option.some_ne_none ending)
    -- a report with the text in it would be that of an answer, and every answer is without data
    obtain ⟨report, -, hreport, hok, -⟩ := id hprints
    obtain ⟨name', master', defaults', opened, r, reply, hsteps, rfl⟩ :=
      steps_of_carryOut (Prod.ext (Except.ok.inj hreport) rfl) hok
    rw [hreport] at hprints
    obtain rfl : name = name' := Except.ok.inj (hnamed.symm.trans hsteps.named)
    obtain rfl : master = master' := Except.ok.inj (hkeyed.symm.trans hsteps.keyed)
    obtain rfl : defaults = defaults' := Except.ok.inj (hconfigured.symm.trans hsteps.configured)
    obtain rfl : w.store = opened := (Prod.mk.inj (hunlocks.rooted.ensureRoot.symm.trans hsteps.opens)).2
    obtain rfl : Request.readData path (some number) = r := by
      have hasks := hsteps.asks
      rw [htask] at hasks
      exact Except.ok.inj hasks
    obtain ⟨after, hanswer⟩ := hsteps.answers
    rw [hhandled] at hanswer
    obtain ⟨hanswer, hworld⟩ := Prod.mk.inj hanswer
    obtain ⟨secret, rfl, hnone⟩ := hread reply _ (Prod.ext (Prod.mk.inj hanswer).1 rfl)
    obtain ⟨_, heq, -, hdata⟩ := (prints_readData path (some number) _).mp hprints
    cases heq
    rw [hnone] at hdata
    cases hdata

/-! ## Putting and getting -/

/-- A run that says that it wrote a version has had its write accepted. -/
theorem accepted_of_wrote {args : List String} {data : Bytes} (hput : invocation env args = .ok put)
    (hasks : Asks env here now put w (.writeData path data cas)) (hwrote : Wrote (run (Host.ofTree env here now) args w).1 number) :
    ∃ name master defaults opened written warnings, written.version = number ∧
      Steps env here now put w name master defaults opened (.writeData path data cas) (.accepted written warnings)
        (run (Host.ofTree env here now) args w).2 := by
  obtain ⟨report, hreport, hok, hshown⟩ := hwrote
  rw [run_eq hput] at hreport ⊢
  obtain ⟨name, master, defaults, opened, r, reply, hsteps, rfl⟩ := steps_of_carryOut (Prod.ext (Except.ok.inj hreport) rfl) hok
  obtain ⟨name', hnamed, hasks⟩ := hasks
  obtain rfl : name = name' := Except.ok.inj (hsteps.named.symm.trans hnamed)
  obtain rfl : Request.writeData path data cas = r := by
    rw [hsteps.opens] at hasks
    exact Except.ok.inj (hasks.symm.trans hsteps.asks)
  cases reply with
  | rejected reason => cases hok
  | overflowed => cases hok
  | accepted written warnings =>
    refine ⟨name, master, defaults, opened, written, warnings, ?_, hsteps⟩
    exact Option.some.inj (written.printed.symm.trans hshown)

/-! ## In an empty directory -/

/-- An invocation that may write the directory of this name, with this key and this policy. -/
structure Ready (env : Environment) (here : List String) (now : Instant) (i : Invocation) (w : World FileTree) (name : String)
    (master : MasterKey) (defaults : Policy) : Prop where
  named : dataDirectory env i.settings = .ok name
  keyed : masterKey env = .ok master
  configured : (Policy.load (Host.ofTree env here now).files env i.settings.policyFile w).1 = .ok defaults
  writable : i.settings.readOnly = false

section Empty

variable {base args args' : List String} {name : String} {master : MasterKey} {defaults defaults' : Policy} {data : Bytes}

/-- A put of a name into an empty directory goes well unless a check is asked for. -/
theorem first_put (hput : invocation env args = .ok put) (htask : put.task = .request (.writeData path data none))
    (hready : Ready env here now put w name master defaults) (hcas : defaults.casRequired = false)
    (hroot : Directory.Vacant here (.ofText name) base w.store) (hname : ShortName (.ofText name) path) :
    Wrote (run (Host.ofTree env here now) args w).1 1 ∧ (run (Host.ofTree env here now) args w).2 =
      (({ master, defaults } : Store).handle (Backend.files here (.ofText name)) now (.writeData path data none) w).2 := by
  have hanswer := (first_write_files master w.entropy now data hroot hname hcas).1
  generalize hhandled : ({ master, defaults } : Store).handle (Backend.files here (.ofText name)) now (.writeData path data none) w =
    handled at hanswer
  have hsteps : Steps env here now put w name master defaults w.store (.writeData path data none)
      (.accepted ⟨1, ({ createdTime := now } : VersionEntry).view⟩) handled.2 := by
    refine ⟨hready.named, hready.keyed, hready.configured, Directory.ensureRoot_eq (hroot.holds fun _ => True) hroot, by rw [htask]; rfl,
      handled.1.2, ?_⟩
    rw [backend_ofTree, hready.writable, if_neg (by decide), hhandled, ← hanswer]
    rfl
  rw [run_eq hput, carryOut_of_steps hsteps]
  exact ⟨⟨_, rfl, rfl, WrittenVersion.printed _⟩, rfl⟩

/-- After that, a get by whose policy the version has expired prints no text. -/
theorem not_prints_of_expired (hput : invocation env args = .ok put) (htask : put.task = .request (.writeData path data none))
    (hready : Ready env here now put w name master defaults) (hcas : defaults.casRequired = false)
    (hroot : Directory.Vacant here (.ofText name) base w.store) (hname : ShortName (.ofText name) path)
    (hget : invocation env' args' = .ok get) (htask' : get.task = .request (.readData path (some 1)))
    (hready' : Ready env' here later get (run (Host.ofTree env here now) args w).2 name master defaults') {ending : Instant}
    (hexpired : ({ createdTime := now } : VersionEntry).expired? defaults'.expiry? later = some ending) :
    ¬ Prints (run (Host.ofTree env' here later) args' (run (Host.ofTree env here now) args w).2).1 number text := by
  obtain ⟨hwrote, hworld⟩ := first_put hput htask hready hcas hroot hname
  obtain ⟨opened, _, _, _, _, _, _, hsteps⟩ := accepted_of_wrote hput ⟨name, hready.named, by rw [htask]; rfl⟩ hwrote
  obtain rfl : name = opened := Except.ok.inj (hready.named.symm.trans hsteps.named)
  obtain ⟨-, _, _, hunlocks, -⟩ := left_by_put (FilePath.isEmpty_ofText (dataDirectory_ne_empty hput hready.named)) hsteps
  have hopens := hunlocks.rooted.ensureRoot
  obtain ⟨secret, hread, hnone⟩ := (first_write_files master w.entropy now data hroot hname hcas).2 defaults' later ending hexpired
  rw [← hworld] at hread
  generalize (run (Host.ofTree env here now) args w).2 = w' at hread hopens hready'
  generalize hhandled : ({ master, defaults := defaults' } : Store).handle (Backend.files here (.ofText name)) later
    (.readData path (some 1)) w' = handled at hread
  have hgot : Steps env' here later get w' name master defaults' w'.store (.readData path (some 1)) (some secret) handled.2 := by
    refine ⟨hready'.named, hready'.keyed, hready'.configured, hopens, by rw [htask']; rfl, handled.1.2, ?_⟩
    rw [backend_ofTree, hready'.writable, if_neg (by decide), hhandled, ← hread]
    rfl
  rw [run_eq hget, carryOut_of_steps hgot, prints_readData]
  rintro ⟨_, heq, -, hdata⟩
  cases heq
  cases hnone.symm.trans hdata

end Empty

/-- A tree of one directory with nothing in it. -/
def emptyDirectory : World FileTree := ⟨(∅ : FileTree).insert ["d"] .directory, ⟨fun _ => 0, 0⟩⟩

theorem vacant_emptyDirectory : Directory.Vacant [] (.ofText "d") ["d"] emptyDirectory.store := .single rfl

theorem shortName_k : ShortName (.ofText "d") "k" := ⟨by decide, by decide, by decide, by decide⟩

/-- An environment with a master key, and with the lifetime of versions if one is given. -/
def keyedEnvironment (lifetime : Option String) : Environment := fun name =>
  if name = "VKV_MASTER_KEY" then some (List.replicate 64 48)
  else if name = Policy.deleteVersionAfterVariable then lifetime.map Bytes.utf8
  else none

theorem invocation_put (lifetime : Option String) : invocation (keyedEnvironment lifetime) ["--data-dir", "d", "kv", "put", "k", "a"] =
    .ok ⟨{ dataDirectory := some "d" }, .request (.writeData "k" (Bytes.utf8 "a") none)⟩ := rfl

theorem invocation_get (lifetime : Option String) :
    invocation (keyedEnvironment lifetime) ["--data-dir", "d", "kv", "get", "--version", "1", "k"] =
      .ok ⟨{ dataDirectory := some "d" }, .request (.readData "k" (some 1))⟩ := rfl

theorem ready_keyedEnvironment (lifetime : Option String) (defaults : Policy)
    (hpolicy : Policy.overriddenBy (keyedEnvironment lifetime) {} = .ok defaults) (now : Instant) (task : Task) (w : World FileTree) :
    Ready (keyedEnvironment lifetime) [] now ⟨{ dataDirectory := some "d" }, task⟩ w "d" ⟨.tabulate 32 fun _ => 0⟩ defaults where
  named := rfl
  keyed := rfl
  configured := hpolicy
  writable := rfl

/-! ## Faithfulness -/

/-- What is printed of a version gives back everything that was read of it, and shows the data as a text exactly if
    it is one. When a put of a text has printed the number of a version, a get of that number, with the same directory
    and the same master key and with a policy that can be read, prints the text exactly if the version has not
    expired by then. -/
theorem shown_faithfully :
    (∀ (path : String) (version : Option UInt64) (secret : SecretVersion),
      let report := Report.ofReply (.readData path version) (some secret)
      report.failure = [] ∧ ∃ shown, ShownSecret.ofOutput? report.output = some shown ∧
        (∀ text, shown.data = some text ↔ secret.data = some (Bytes.utf8 text)) ∧
        (shown.dataBase64.isSome = true ↔ ∃ data, secret.data = some data ∧ ∀ text, data ≠ Bytes.utf8 text) ∧
        shown.bytes? = some secret.data ∧ shown.version = secret.version ∧ shown.metadata = secret.metadata ∧
        shown.customMetadata = secret.customMetadata) ∧
    ∀ (here : List String) (env : Environment) (now : Instant) (putArgs : List String) (put : Invocation) (w : World FileTree)
      (path text : String) (cas : Option UInt64) (number : UInt64),
      invocation env putArgs = .ok put → Asks env here now put w (.writeData path (Bytes.utf8 text) cas) →
      Wrote (run (Host.ofTree env here now) putArgs w).1 number →
      ∀ (env' : Environment) (later : Instant) (getArgs : List String) (get : Invocation) (w' : World FileTree) (defaults : Policy),
        invocation env' getArgs = .ok get → get.task = .request (.readData path (some number)) →
        dataDirectory env' get.settings = dataDirectory env put.settings → masterKey env' = masterKey env →
        w'.store = (run (Host.ofTree env here now) putArgs w).2.store →
        (Policy.load (Host.ofTree env' here later).files env' get.settings.policyFile w').1 = .ok defaults →
        ∃ lifetime, InForce env' here later get path w' lifetime ∧
          (Prints (run (Host.ofTree env' here later) getArgs w').1 number text ↔
            ({ createdTime := now } : VersionEntry).expired? lifetime later = none) := by
  constructor
  · intro path version secret report
    exact ⟨rfl, secret.shown, secret.printed, fun text => secret.shown_data_eq_some_iff, secret.isSome_shown_dataBase64_iff,
      secret.bytes?_shown, rfl, rfl, rfl⟩
  · intro here env now putArgs put w path text cas number hput hasks hwrote env' later getArgs get w' defaults hget htask hdirectory hkey
      hstore hconfigured
    obtain ⟨name, master, _, _, written, _, rfl, hsteps⟩ := accepted_of_wrote hput hasks hwrote
    obtain ⟨hpath, base, ring, hunlocks, hdeposit⟩ := left_by_put (FilePath.isEmpty_ofText (dataDirectory_ne_empty hput hsteps.named)) hsteps
    rw [← hstore] at hunlocks hdeposit
    exact prints_iff_unexpired hget htask (hdirectory.trans hsteps.named) (hkey.trans hsteps.keyed) hconfigured hpath hunlocks hdeposit

/-- Where versions do not expire the text is printed. -/
theorem shown_faithfully_at_once :
    Wrote (run (Host.ofTree (keyedEnvironment none) [] .epoch) ["--data-dir", "d", "kv", "put", "k", "a"] emptyDirectory).1 1 ∧
      Prints (run (Host.ofTree (keyedEnvironment none) [] .epoch) ["--data-dir", "d", "kv", "get", "--version", "1", "k"]
        (run (Host.ofTree (keyedEnvironment none) [] .epoch) ["--data-dir", "d", "kv", "put", "k", "a"] emptyDirectory).2).1 1 "a" := by
  have hready := ready_keyedEnvironment none {} rfl
  obtain ⟨hwrote, -⟩ := first_put (invocation_put none) rfl (hready .epoch _ emptyDirectory) rfl vacant_emptyDirectory shortName_k
  refine ⟨hwrote, ?_⟩
  have hasks : Asks (keyedEnvironment none) [] .epoch ⟨{ dataDirectory := some "d" }, .request (.writeData "k" (Bytes.utf8 "a") none)⟩
      emptyDirectory (.writeData "k" (Bytes.utf8 "a") none) := ⟨"d", rfl, rfl⟩
  obtain ⟨lifetime, ⟨_, _, _, _, policy, record, -, -, -, -, -, -, rfl⟩, hprints⟩ :=
    shown_faithfully.2 _ _ _ _ _ _ _ _ _ _ (invocation_put none) hasks hwrote _ .epoch _ _ _ _ (invocation_get none) rfl rfl rfl rfl
      (hready .epoch (.request (.readData "k" (some 1))) _).configured
  have hplain : Instant.epoch.IsPlain := Nat.zero_lt_succ _
  refine hprints.mpr (VersionEntry.expired?_of_not_isOver hplain hplain ?_)
  rintro ⟨-, hpos, hover⟩
  dsimp only at hover
  omega

/-- Where versions last for a second the text is not printed two seconds later. -/
theorem not_shown_once_expired :
    Wrote (run (Host.ofTree (keyedEnvironment (some "1")) [] ⟨1700000000, 0, by decide, by decide⟩)
        ["--data-dir", "d", "kv", "put", "k", "a"] emptyDirectory).1 1 ∧
      ¬ Prints (run (Host.ofTree (keyedEnvironment (some "1")) [] ⟨1700000002, 0, by decide, by decide⟩)
        ["--data-dir", "d", "kv", "get", "--version", "1", "k"]
        (run (Host.ofTree (keyedEnvironment (some "1")) [] ⟨1700000000, 0, by decide, by decide⟩)
          ["--data-dir", "d", "kv", "put", "k", "a"] emptyDirectory).2).1 1 "a" := by
  have hready := ready_keyedEnvironment (some "1") { deleteVersionAfter := some 1 } rfl
  have hexpired : ({ createdTime := ⟨1700000000, 0, by decide, by decide⟩ } : VersionEntry).expired?
      (Policy.expiry? { deleteVersionAfter := some 1 }) ⟨1700000002, 0, by decide, by decide⟩ =
        some ⟨1700000001, 0, by decide, by decide⟩ := by decide
  constructor
  · exact (first_put (invocation_put (some "1")) rfl (hready _ _ emptyDirectory) rfl vacant_emptyDirectory shortName_k).1
  · exact not_prints_of_expired (invocation_put (some "1")) rfl (hready _ _ emptyDirectory) rfl vacant_emptyDirectory shortName_k
      (invocation_get (some "1")) rfl (hready _ _ _) hexpired

end Cli

end Strongbox
