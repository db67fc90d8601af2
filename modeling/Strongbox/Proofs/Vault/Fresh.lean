/-
  Strongbox.Proofs.Vault.Fresh — the first write to a directory in which nothing is yet.

  A memory that holds nothing takes a write to any path, unless the policy asks for a check, and gives
  the version the number one. Files in an empty directory answer as that memory does, and so does a store
  that is opened over them later, with a policy of its own.

  Proved:
  - `left_by_first_write`: the answer to a first write to a memory, and what it leaves.
  - `files_answers`: files in an empty directory answer as a memory.
  - `first_write_files`: the answer to a first write to files, and to a read after the version has expired.
-/

import Strongbox.Proofs.Vault.Backends
import Strongbox.Proofs.Vault.Expiry

namespace Strongbox

open Time (Instant)
open KeyRing (saltKey checkKey)
open Vault (policyKey)

variable {master : MasterKey} {defaults defaults' : Policy} {entropy : Entropy} {now later : Instant} {path : String} {data : Bytes}

/-! ## Over a memory -/

namespace Session

/-- A first write is accepted unless a check is asked for, and leaves a record and no policy. -/
theorem left_by_first_write (master : MasterKey) (entropy : Entropy) (now : Instant) (data : Bytes)
    (hpath : KeyPath.fault? path = none) (hcas : defaults.casRequired = false) :
    let answered := (start master defaults entropy).ask Faults.none now (.writeData path data none)
    let new := KeyRecord.new path now
    answered.1 = .ok (.accepted ⟨1, ({ createdTime := now } : VersionEntry).view⟩) ∧
      answered.2.contents.record answered.2.ring path = .ok (some (new.written now (Vault.keptOf defaults new))) ∧
      answered.2.contents policyKey = none := by
  intro answered new
  have hkept := kept_start master defaults entropy
  have hi : (Request.writeData path data none).immediate? = none := Option.map_eq_none_iff.mpr hpath
  have hkept' := (asked_ask hkept Faults.none now (.writeData path data none)).kept hkept
  obtain ⟨m, begun, hreply, hcontents, hstore, -⟩ := asked_calm hkept hi now
  -- the run itself is forgotten, so that nothing below unfolds it
  change answered.2.Kept master at hkept'
  change answered.1 = _ at hreply
  change answered.2.memory.contents _ = _ at hcontents
  change answered.2.store = _ at hstore
  clear_value answered
  generalize (start master defaults entropy).keys = keys at hreply hcontents hstore
  have hstored (key : String) (hs : key ≠ saltKey) (hc : key ≠ checkKey) : m[key]? = none :=
    (begun.others key hs hc).trans Std.ExtTreeMap.getElem?_empty
  have hnone : m.contents keys policyKey = none := Memory.contents_eq_none.mpr (hstored _ (by decide) (by decide))
  have hpolicy : (m.contents keys).policy defaults = .ok defaults := Contents.policy_of_none hnone defaults
  have hrecord : (m.contents keys).record keys path = .ok none :=
    Contents.record_eq_none.mpr (hstored _ (Vault.ne_of_initial? (by simp)) (Vault.ne_of_initial? (by simp)))
  have hno : Vault.casRejection? new defaults none = none := if_neg (by simp [new, KeyRecord.needsCas, KeyRecord.new, hcas])
  have hplan : (Vault.mk keys defaults).plan now m (.writeData path data none) = _ :=
    Vault.planWrite_of_accepted (v := ⟨keys, defaults⟩) hpolicy (Vault.recordOrNewIn_of_none hrecord) hno (KeyRecord.not_exhausted_new _ _)
  rw [show (start master defaults entropy).store.defaults = defaults from rfl, Vault.outcome, hplan] at hreply hcontents
  have hring : answered.2.ring = keys := (hkept'.ring keys (congrArg Store.ring hstore)).1.symm
  have hafter : answered.2.contents =
      ((m.contents keys).edits (Vault.writeEdits keys path data (new.appended now) (Vault.keptOf defaults new))).edit
        (Vault.recordEdit keys (new.written now (Vault.keptOf defaults new))) := by
    rw [contents, hring]
    exact hcontents
  refine ⟨hreply, ?_, ?_⟩
  · rw [hring, hafter]
    have hkey : (new.written now (Vault.keptOf defaults new)).key = path := new.written_key now _
    conv => lhs; rw [← hkey]
    exact Contents.record_recordEdit _ _
  · rw [hafter, Contents.edit_of_ne (Vault.ne_of_initial? (by simp)),
      Vault.edits_of_payloads (Vault.writeEdits_isPayload keys path data _ _) _ (by simp)]
    exact hnone

/-- A store that is opened after a first write, with another policy, reads no data of a version that has expired by this. -/
theorem read_after_first_write (hpath : KeyPath.fault? path = none) (hcas : defaults.casRequired = false) {ending : Instant}
    (hexpired : ({ createdTime := now } : VersionEntry).expired? defaults'.expiry? later = some ending) :
    let s := ((start master defaults entropy).ask Faults.none now (.writeData path data none)).2.restart defaults'
    ∃ secret : SecretVersion, (s.ask Faults.none later (.readData path (some 1))).1 = .ok (some secret) ∧ secret.data = none := by
  intro s
  have hstart := kept_start master defaults entropy
  have hs : s.Kept master := ((asked_ask hstart Faults.none now (.writeData path data none)).kept hstart).restart defaults'
  obtain ⟨-, hrecord, hpolicy⟩ := left_by_first_write master entropy now data hpath hcas
  obtain ⟨-, hring, hcontents⟩ := views_restart ((start master defaults entropy).ask Faults.none now (.writeData path data none)).2 defaults'
  rw [← hring, ← hcontents] at hrecord
  rw [← hcontents] at hpolicy
  generalize Vault.keptOf defaults (KeyRecord.new path now) = kept at hrecord
  have hentry : ((KeyRecord.new path now).written now kept).selected? (some 1) = some { createdTime := now } :=
    (KeyRecord.new path now).getElem?_written_next now kept
  have hlast : ((KeyRecord.new path now).written now kept).lifetime? defaults' = defaults'.expiry? :=
    (KeyRecord.new path now).written_lifetime? now kept defaults'
  rw [← hlast] at hexpired
  exact (read_of_expired hs hpath (Contents.policy_of_none hpolicy _) hrecord hentry hexpired).1

end Session

/-! ## Over files -/

/-- A first write, and a read of the version by a store that is opened later with another policy. -/
def Step.putThenGet (now later : Instant) (path : String) (data : Bytes) (defaults : Policy) : List Step :=
  [.ask now (.writeData path data none), .restart defaults, .ask later (.readData path (some 1))]

theorem Store.answers_ask_cons {σ : Type} (b : Backend (StateM σ)) (s : Store) (now : Instant) (r : Request) (rest : List Step) (w : σ) :
    (s.answers b (.ask now r :: rest) w).1 =
      ⟨r, (s.handle b now r w).1.1⟩ :: ((s.handle b now r w).1.2.answers b rest (s.handle b now r w).2).1 := rfl

theorem Store.master_handle {σ : Type} (b : Backend (StateM σ)) (s : Store) (now : Instant) (r : Request) (w : σ) :
    (s.handle b now r w).1.2.master = s.master := by
  unfold Store.handle
  cases r.immediate? with
  | some reply => rfl
  | none =>
    show (StateT.bind (s.openRing.run b) _ w : (Except Error r.Reply × Store) × σ).1.2.master = _
    rw [StateT.bind]
    rcases s.openRing.run b w with ⟨result, mid⟩
    cases result <;> rfl

/-- A path that is one name, which is short enough for files below the root. -/
structure ShortName (root : FilePath) (path : String) : Prop where
  valid : KeyPath.fault? path = none
  word : KeyPath.segments path = [path]
  size : path.utf8ByteSize ≤ 158
  room : root.text.utf8ByteSize + 768 ≤ FileTree.maxPathLength

section Files

variable {here base : List String} {root : FilePath} {first : FileTree} {steps : List Step}

/-- Files in an empty directory answer as a memory that draws the same bytes. -/
theorem files_answers (hroot : Directory.Vacant here root base first)
    (hsuits : Step.Suits (KeyRing.derive master (Entropy.draw 32 entropy).1.bytes) steps)
    (hroom : ∀ c ∈ (Store.answers (Backend.files here root).recording steps { master, defaults } [] ⟨first, entropy⟩).1.2,
      Directory.Room root c) :
    (Store.answers (Backend.files here root) steps { master, defaults } ⟨first, entropy⟩).1 =
      (Store.answers Backend.memory steps { master, defaults } ⟨∅, entropy⟩).1 := by
  have hsame := (Store.notes_answers (Backend.files here root) steps { master, defaults }).same [] ⟨first, entropy⟩
  rw [← hsame]
  rcases alike_files hroot hsuits with ⟨c, hc, -, hbad⟩ | ⟨hanswers, -, -⟩
  · exact absurd (hroom c hc) hbad
  · exact hanswers

theorem paths_putThenGet {other : String} (h : other ∈ Step.paths (Step.putThenGet now later path data defaults)) : other = path := by
  rcases List.mem_cons.mp h with rfl | h
  · rfl
  · exact List.mem_singleton.mp h

theorem ShortName.suits (h : ShortName root path) (ring : KeyRing) :
    Step.Suits ring (Step.putThenGet now later path data defaults) := by
  have hnames : ∀ name ∈ Step.names (Step.putThenGet now later path data defaults), name = path := by
    intro name hname
    obtain ⟨other, hother, hsegment⟩ := List.mem_flatMap.mp hname
    rw [paths_putThenGet ((List.mem_append.mp hother).resolve_right List.not_mem_nil), h.word] at hsegment
    exact List.mem_singleton.mp (List.mem_filter.mp hsegment).1
  refine ⟨fun other hother => ?_, nofun, fun name hname => ?_, fun a ha b hb => ?_⟩
  · rw [paths_putThenGet hother]
    exact h.valid
  · rw [hnames name hname]
    exact h.size
  · rw [hnames a ha, hnames b hb]
    exact ring.hideName_ne_of_size (Nat.le_refl _)

/-- Files in an empty directory answer a first write, and a read that follows it, as a memory does. -/
theorem put_then_get_files (master : MasterKey) (defaults defaults' : Policy) (entropy : Entropy) (now later : Instant) (data : Bytes)
    (hroot : Directory.Vacant here root base first) (hname : ShortName root path) :
    let put := ({ master, defaults } : Store).handle (Backend.files here root) now (.writeData path data none) ⟨first, entropy⟩
    let asked := (Session.start master defaults entropy).ask Faults.none now (.writeData path data none)
    put.1.1 = asked.1 ∧
      (({ master, defaults := defaults' } : Store).handle (Backend.files here root) later (.readData path (some 1)) put.2).1.1 =
        ((asked.2.restart defaults').ask Faults.none later (.readData path (some 1))).1 := by
  intro put asked
  let steps := Step.putThenGet now later path data defaults'
  have hsuits : Step.Suits (KeyRing.derive master (Entropy.draw 32 entropy).1.bytes) steps := hname.suits _
  have hdepth : ∀ other ∈ Step.paths steps ++ Step.directories steps, (KeyPath.segments other).length ≤ 2 := by
    intro other hother
    rw [paths_putThenGet ((List.mem_append.mp hother).resolve_right List.not_mem_nil), hname.word]
    exact Nat.le_succ 1
  have hanswers : (Store.answers (Backend.files here root) steps { master, defaults } ⟨first, entropy⟩).1 =
      (Store.answers Backend.memory steps { master, defaults } ⟨∅, entropy⟩).1 :=
    files_answers hroot hsuits (room_of_shallow hroot hsuits hdepth (Nat.le_refl 2) hname.room)
  have hfiles : (Store.answers (Backend.files here root) steps { master, defaults } ⟨first, entropy⟩).1 = [⟨_, put.1.1⟩,
      ⟨_, (({ master, defaults := defaults' } : Store).handle (Backend.files here root) later (.readData path (some 1)) put.2).1.1⟩] := by
    have hmaster : put.1.2.master = master := Store.master_handle ..
    have hget := Store.answers_ask_cons (Backend.files here root) { master := put.1.2.master, defaults := defaults' } later
      (.readData path (some 1)) [] put.2
    refine (Store.answers_ask_cons ..).trans (congrArg (_ :: ·) (hget.trans ?_))
    rw [hmaster]
    rfl
  have hmemory : (Store.answers Backend.memory steps { master, defaults } ⟨∅, entropy⟩).1 =
      [⟨_, asked.1⟩, ⟨_, ((asked.2.restart defaults').ask Faults.none later (.readData path (some 1))).1⟩] := by
    have hput := congrArg Prod.fst (Session.answers_ask (Session.start master defaults entropy) now (.writeData path data none)
      [.restart defaults', .ask later (.readData path (some 1))])
    have hget := congrArg Prod.fst (Session.answers_ask (asked.2.restart defaults') later (.readData path (some 1)) [])
    exact hput.trans (congrArg (_ :: ·) hget)
  rw [hfiles, hmemory] at hanswers
  obtain ⟨hput, hget⟩ := List.cons.inj hanswers
  exact ⟨eq_of_heq (Sigma.mk.inj hput).2, eq_of_heq (Sigma.mk.inj (List.cons.inj hget).1).2⟩

/-- The first write of a name to files is accepted unless a check is asked for, and a store that is opened later, with another
    policy, reads no data of the version if it has expired by this. -/
theorem first_write_files (master : MasterKey) (entropy : Entropy) (now : Instant) (data : Bytes)
    (hroot : Directory.Vacant here root base first) (hname : ShortName root path) (hcas : defaults.casRequired = false) :
    let put := ({ master, defaults } : Store).handle (Backend.files here root) now (.writeData path data none) ⟨first, entropy⟩
    put.1.1 = .ok (.accepted ⟨1, ({ createdTime := now } : VersionEntry).view⟩) ∧
      ∀ (defaults' : Policy) later ending, ({ createdTime := now } : VersionEntry).expired? defaults'.expiry? later = some ending →
        ∃ secret : SecretVersion, (({ master, defaults := defaults' } : Store).handle (Backend.files here root) later
          (.readData path (some 1)) put.2).1.1 = .ok (some secret) ∧ secret.data = none := by
  intro put
  have hanswers (defaults' : Policy) (later : Instant) := put_then_get_files master defaults defaults' entropy now later data hroot hname
  refine ⟨(hanswers defaults now).1.trans (Session.left_by_first_write master entropy now data hname.valid hcas).1, ?_⟩
  intro defaults' later ending hexpired
  rw [(hanswers defaults' later).2]
  exact Session.read_after_first_write hname.valid hcas hexpired

end Files

end Strongbox
