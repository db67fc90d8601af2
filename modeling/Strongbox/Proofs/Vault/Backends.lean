/-
  Strongbox.Proofs.Vault.Backends — a store over files answers as one over a memory.

  A run over files in an empty directory goes beside one over a memory that draws the same bytes, and
  the tree holds the memory after every call; that one answers as any other run over a memory with
  the same salt. What this asks for is that every path can name a key, that hidden names fit and none
  is hidden as another with an underscore in front, and that no path the run needs is too long.

  Proved:
  - `alike_handle`, `alike_answers`: what comes of a request, and of a sequence of requests.
  - `backends_agree`: the answers are the same, and the key check refuses nothing.
-/

import Strongbox.Proofs.Vault.Answers
import Strongbox.Proofs.Vault.FileNames

namespace Strongbox

open Time (Instant)
open KeyRing (saltKey checkKey)

namespace Step

/-- The paths that requests are about. -/
def paths (steps : List Step) : List String := steps.filterMap fun
  | .ask _ r => r.path?
  | .restart _ => none

/-- The paths that are listed. -/
def directories (steps : List Step) : List String := steps.filterMap fun
  | .ask _ (.listMetadata path) => some path
  | _ => none

/-- The segments of all of them. -/
def names (steps : List Step) : List String :=
  (paths steps ++ directories steps).flatMap fun path => (KeyPath.segments path).filter (· ≠ "")

/-- Requests that files can serve: paths can name keys, listings are of everything or of such paths
    with at most one slash behind, segments are not too long, and no hidden one is another with an
    underscore in front. -/
structure Suits (ring : KeyRing) (steps : List Step) : Prop where
  paths : ∀ path ∈ paths steps, KeyPath.fault? path = none
  directories : ∀ path ∈ directories steps, path = "" ∨
    ∃ above, KeyPath.fault? above = none ∧ (path = above ∨ path = above ++ "/")
  size : ∀ name ∈ names steps, name.utf8ByteSize ≤ 158
  apart : ∀ a ∈ names steps, ∀ b ∈ names steps, ring.hideName a ≠ "_" ++ ring.hideName b

variable {step : Step} {rest : List Step} {path : String}

theorem mem_names {segment : String} {steps : List Step} (hpath : path ∈ paths steps ∨ path ∈ directories steps)
    (hsegment : segment ∈ KeyPath.segments path) (hne : segment ≠ "") : segment ∈ names steps :=
  List.mem_flatMap.mpr ⟨path, List.mem_append.mpr hpath, List.mem_filter.mpr ⟨hsegment, by simpa using hne⟩⟩

theorem ne_empty_of_mem_names {segment : String} {steps : List Step} (h : segment ∈ names steps) : segment ≠ "" := by
  obtain ⟨path, _, hsegment⟩ := List.mem_flatMap.mp h
  simpa using (List.mem_filter.mp hsegment).2

theorem mem_paths_ask {now : Instant} {r : Request} (h : r.path? = some path) : path ∈ paths (.ask now r :: rest) :=
  List.mem_filterMap.mpr ⟨_, List.mem_cons_self, h⟩

theorem paths_cons (h : path ∈ paths rest) : path ∈ paths (step :: rest) := by
  obtain ⟨other, hother, hpath⟩ := List.mem_filterMap.mp h
  exact List.mem_filterMap.mpr ⟨other, List.mem_cons_of_mem step hother, hpath⟩

theorem directories_cons (h : path ∈ directories rest) : path ∈ directories (step :: rest) := by
  obtain ⟨other, hother, hpath⟩ := List.mem_filterMap.mp h
  exact List.mem_filterMap.mpr ⟨other, List.mem_cons_of_mem step hother, hpath⟩

end Step

/-! ## Asking beside a memory -/

section Beside

variable {σ : Type}

theorem Store.notes_handle (b : Backend (StateM (World σ))) (now : Instant) (r : Request) (s : Store) :
    Notes (s.handle b.recording now r) (s.handle b now r) := by
  unfold Store.handle
  cases r.immediate? with
  | some reply => exact notes_pure _
  | none =>
    refine (Access.notes_run b s.openRing).bind fun result => ?_
    cases result with
    | error e => exact notes_pure _
    | ok ring => exact (Access.notes_run b _).bind fun reply => notes_pure _

theorem Store.notes_answers (b : Backend (StateM (World σ))) (steps : List Step) (s : Store) :
    Notes (s.answers b.recording steps) (s.answers b steps) := by
  induction steps generalizing s with
  | nil => exact notes_pure []
  | cons step rest ih =>
    cases step with
    | ask now r =>
      rw [answers, answers]
      refine (notes_handle b now r s).bind fun answered => ?_
      exact (ih answered.2).bind fun others => notes_pure _
    | restart defaults => exact ih _

namespace Session

variable {master : MasterKey} {s : Session}

/-- Opening a storage in order goes through, and gives its keys. -/
theorem openRing_memory (h : s.Kept master) : (s.store.openRing.run Backend.memory s.world).1 = .ok s.keys := by
  have hopen := (ends_openRing (w := Faults.none.weather) h).run 0
  have hsalt := salt_openRing h
  obtain ⟨hresult, _⟩ := s.store.openRing.runOn_none 0 s.world
  rw [← hresult]
  generalize s.store.openRing.runOn Faults.none 0 s.world = opened at hopen hsalt
  obtain ⟨⟨result, k⟩, world⟩ := opened
  cases result with
  | error e =>
    obtain ⟨_, _, _, _, hw, _⟩ := hopen
    exact (Faults.weather_none hw).elim
  | ok ring =>
    obtain ⟨_, hring, _⟩ := hopen
    refine congrArg Except.ok (hring.trans ?_)
    rw [keys, h.master_eq, Memory.ring]
    exact congrArg (KeyRing.derive master) (congrArg (·.getD []) hsalt)

variable {perform : (c : Call) → StateM σ (Except StorageError c.Reply)} {R : Memory → σ → Prop} {room : Call → Prop}
  {ring : KeyRing} {paths directories : List String}

theorem asks_openRing (s : Store) : s.openRing.Asks (InUse ring paths directories) fun _ => True := by
  unfold Store.openRing
  cases s.ring with
  | some ring => trivial
  | none => exact KeyRing.asks_setUp s.master ring

/-- A request is answered alike over the memory and over a storage that is kept in step with it. -/
theorem alike_handle (hstep : ∀ c m store, InUse ring paths directories c → room c → R m store →
      ∃ store', perform c store = (.ok (Memory.reply c m), store') ∧ R (Memory.after c m) store')
    (h : s.Kept master) (hring : s.keys = ring) (now : Instant) {r : Request}
    (hpath : ∀ path, r.path? = some path → path ∈ paths) (hdirectory : ∀ path, r = .listMetadata path → path ∈ directories)
    {calls : List Call} {world : World σ} (hjoint : Joint R world s.world) :
    Alike R (InUse ring paths directories) room calls (s.store.handle (Backend.ofStore perform).recording now r calls world)
      (s.store.handle Backend.memory now r s.world) := by
  unfold Store.handle
  cases r.immediate? with
  | some reply => exact alike_pure hjoint _
  | none =>
    refine (Access.alike_run hstep (asks_openRing s.store) hjoint).bind ?_ fun result calls₁ world₁ world₁' hopened hjoint₁ => ?_
    · intro result
      cases result with
      | error e => exact fun _ _ _ hc => hc
      | ok opened => exact ((Access.notes_run _ _).bind fun reply => notes_pure (r.settle reply, _)).grows
    · have hresult : result = .ok ring := by
        have hkeys := openRing_memory h
        rw [hopened, hring] at hkeys
        exact hkeys
      subst hresult
      refine (Access.alike_run hstep (Vault.asks_perform ⟨ring, s.store.defaults⟩ now hpath hdirectory) hjoint₁).bind ?_ ?_
      · exact fun reply => (notes_pure _).grows
      · exact fun reply calls₂ world₂ world₂' _ hjoint₂ => alike_pure hjoint₂ _

/-- So is a sequence of requests. -/
theorem alike_answers (hstep : ∀ c m store, InUse ring paths directories c → room c → R m store →
      ∃ store', perform c store = (.ok (Memory.reply c m), store') ∧ R (Memory.after c m) store')
    (h : s.Kept master) (hring : s.keys = ring) {steps : List Step} (hpaths : ∀ path ∈ Step.paths steps, path ∈ paths)
    (hdirectories : ∀ path ∈ Step.directories steps, path ∈ directories) {calls : List Call} {world : World σ}
    (hjoint : Joint R world s.world) : Alike R (InUse ring paths directories) room calls
      (s.store.answers (Backend.ofStore perform).recording steps calls world) (s.store.answers Backend.memory steps s.world) := by
  induction steps generalizing s calls world with
  | nil => exact alike_pure hjoint []
  | cons step rest ih =>
    cases step with
    | ask now r =>
      have hpath : ∀ path, r.path? = some path → path ∈ paths := fun path hpath => hpaths path (Step.mem_paths_ask hpath)
      have hdirectory : ∀ path, r = .listMetadata path → path ∈ directories := by
        rintro path rfl
        exact hdirectories path List.mem_cons_self
      have hrest := fun path hp => hpaths path (Step.paths_cons hp)
      have hdirs := fun path hp => hdirectories path (Step.directories_cons hp)
      rw [Store.answers, Store.answers]
      refine (alike_handle hstep h hring now hpath hdirectory hjoint).bind ?_ ?_
      · exact fun answered => ((Store.notes_answers _ rest answered.2).bind fun others => notes_pure _).grows
      · intro answered calls₁ world₁ world₁' hasked hjoint₁
        rw [handle_memory] at hasked
        obtain ⟨rfl, rfl⟩ := Prod.mk.inj hasked
        refine (ih ((asked_ask h Faults.none now r).kept h) ((keys_ask h now r).trans hring) hrest hdirs hjoint₁).bind ?_ ?_
        · exact fun others => (notes_pure _).grows
        · exact fun others calls₂ world₂ world₂' _ hjoint₂ => alike_pure hjoint₂ _
    | restart defaults => exact ih (h.restart defaults) hring hpaths hdirectories hjoint

end Session

end Beside

/-! ## Requests that files can serve -/

/-- A path that can name a key is listed alike with and without a slash behind. -/
theorem directory_of_listed {path above : String} (hvalid : KeyPath.fault? above = none) (hpath : path = above ∨ path = above ++ "/") :
    Sealed.directory path = above ++ "/" ∧ ∀ segment ∈ KeyPath.segments above, segment ∈ KeyPath.segments path := by
  rcases hpath with rfl | rfl
  · have hne : path ≠ "" := by
      rintro rfl
      cases hvalid
    refine ⟨if_neg ?_, fun _ h => h⟩
    rintro (hnil | hlast)
    · exact hne hnil
    · exact KeyPath.getLast?_of_not_mem (KeyPath.not_mem_of_valid hvalid) hlast
  · refine ⟨if_pos (.inr (by simp)), fun segment hsegment => ?_⟩
    rw [KeyPath.segments_slash]
    exact List.mem_append_left _ hsegment

namespace Step.Suits

variable {ring : KeyRing} {steps : List Step} (h : Step.Suits ring steps)

include h

theorem separates : ring.Separates (names steps) := ⟨fun _ => ne_empty_of_mem_names, h.size, h.apart⟩

theorem segments : ∀ path ∈ Step.paths steps, ∀ segment ∈ KeyPath.segments path, segment ∈ names steps := by
  rintro path hpath segment hsegment
  refine mem_names (.inl hpath) hsegment ?_
  rintro rfl
  exact KeyPath.not_mem_of_valid (h.paths path hpath) hsegment

theorem listed : ∀ path ∈ Step.directories steps, path = "" ∨
    ∃ above, Sealed.directory path = above ++ "/" ∧ ∀ segment ∈ KeyPath.segments above, segment ∈ names steps := by
  intro path hpath
  refine (h.directories path hpath).imp_right fun ⟨above, hvalid, habove⟩ => ?_
  obtain ⟨hdirectory, hsub⟩ := directory_of_listed hvalid habove
  refine ⟨above, hdirectory, fun segment hsegment => mem_names (.inr hpath) (hsub segment hsegment) ?_⟩
  rintro rfl
  exact KeyPath.not_mem_of_valid hvalid hsegment

end Step.Suits

/-! ## Files and memory -/

/-- Storage in files below a directory of a tree. -/
def Backend.files (here : List String) (root : FilePath) : Backend (StateM (World FileTree)) :=
  .ofStore (Directory.perform (FileTree.fileSystem here) root)

section Files

variable {here base : List String} {root : FilePath} {first : FileTree} {master : MasterKey} {defaults : Policy} {steps : List Step}
  {entropy entropy' : Entropy}

theorem salt_start (master : MasterKey) (defaults : Policy) (entropy : Entropy) :
    (Session.start master defaults entropy).salt = (Entropy.draw 32 entropy).1.bytes := by
  rw [Session.salt, Session.start, Std.ExtTreeMap.getElem?_empty]
  rfl

/-- A run over files in an empty directory goes beside a run over a memory that draws the same bytes. -/
theorem alike_files (hroot : Directory.Vacant here root base first)
    (hsuits : Step.Suits (KeyRing.derive master (Entropy.draw 32 entropy).1.bytes) steps) :
    let ring := KeyRing.derive master (Entropy.draw 32 entropy).1.bytes
    Alike (fun m tree => Directory.Holds base first (Form ring (Step.paths steps)) m [] tree)
      (InUse ring (Step.paths steps) (Step.directories steps)) (Directory.Room root) []
      (Store.answers (Backend.files here root).recording steps { master, defaults } [] ⟨first, entropy⟩)
      (Store.answers Backend.memory steps { master, defaults } ⟨∅, entropy⟩) := by
  intro ring
  have hkeys : (Session.start master defaults entropy).keys = ring := by
    rw [Session.keys, salt_start]
    rfl
  have hforms := apart_forms hsuits.separates hsuits.segments
  refine Session.alike_answers ?_ (Session.kept_start master defaults entropy) hkeys (fun _ h => h) (fun _ h => h) ⟨hroot.holds _, rfl⟩
  intro c m tree hc hroom hholds
  exact (hc.concerns hsuits.separates hsuits.segments hsuits.listed).perform hforms hholds hroot hroom

/-- There is room for requests about paths that are not too deep, if the root is not too long. -/
theorem room_of_shallow (hroot : Directory.Vacant here root base first)
    (hsuits : Step.Suits (KeyRing.derive master (Entropy.draw 32 entropy).1.bytes) steps) {depth : Nat}
    (hdepth : ∀ path ∈ Step.paths steps ++ Step.directories steps, (KeyPath.segments path).length ≤ depth) (hdeep : 2 ≤ depth)
    (hshort : root.text.utf8ByteSize + 256 * (depth + 1) ≤ FileTree.maxPathLength) :
    ∀ c ∈ (Store.answers (Backend.files here root).recording steps { master, defaults } [] ⟨first, entropy⟩).1.2,
      Directory.Room root c := by
  have hinUse {c : Call} (hc : InUse _ (Step.paths steps) (Step.directories steps) c) : Directory.Room root c :=
    hc.room hsuits.separates hsuits.segments hsuits.listed hdepth hdeep hshort
  intro c hc
  rcases alike_files hroot hsuits with ⟨other, _, hother, hbad⟩ | ⟨_, _, hcalls⟩
  · exact absurd (hinUse hother) hbad
  · exact hinUse ((hcalls c hc).resolve_left List.not_mem_nil)

/-- A store over files in an empty directory gives the same answers to every sequence of requests
    and restarts as one over a memory, if both have the same master key and draw the same salt, and
    whatever nonces they draw. No call it makes is refused by the key check, and the directory can
    be opened again at any time. This holds for all requests that files can serve, as long as no path
    is too long. -/
theorem backends_agree (hroot : Directory.Vacant here root base first)
    (hsalt : (Entropy.draw 32 entropy').1 = (Entropy.draw 32 entropy).1)
    (hsuits : Step.Suits (KeyRing.derive master (Entropy.draw 32 entropy).1.bytes) steps)
    (hroom : ∀ c ∈ (Store.answers (Backend.files here root).recording steps { master, defaults } [] ⟨first, entropy⟩).1.2,
      Directory.Room root c) :
    let files := Store.answers (Backend.files here root) steps { master, defaults } ⟨first, entropy⟩
    let noted := Store.answers (Backend.files here root).recording steps { master, defaults } [] ⟨first, entropy⟩
    files.1 = (Store.answers Backend.memory steps { master, defaults } ⟨∅, entropy'⟩).1 ∧
      (∀ c ∈ noted.1.2, ∀ tree key fault,
        (Directory.perform (FileTree.fileSystem here) root c tree).1 ≠ .error (.invalidKey key fault)) ∧
      Directory.ensureRoot (FileTree.fileSystem here) root files.2.store = (.ok (), files.2.store) := by
  intro files noted
  have hsame : (noted.1.1, noted.2) = files := (Store.notes_answers (Backend.files here root) steps { master, defaults }).same _ _
  have hmatch : (Session.start master defaults entropy).Matches (Session.start master defaults entropy') :=
    ⟨rfl, rfl, by rw [salt_start, salt_start, hsalt], fun _ _ _ => rfl⟩
  have hmemory : (Store.answers Backend.memory steps { master, defaults } ⟨∅, entropy'⟩).1 =
      (Store.answers Backend.memory steps { master, defaults } ⟨∅, entropy⟩).1 :=
    Session.answers_matches hmatch (Session.kept_start master defaults entropy) (Session.kept_start master defaults entropy') steps
  rcases alike_files hroot hsuits with ⟨c, hc, _, hbad⟩ | ⟨hanswers, hjoint, hcalls⟩
  · exact absurd (hroom c hc) hbad
  · rw [← hsame]
    refine ⟨hanswers.trans hmemory.symm, ?_, Directory.ensureRoot_eq hjoint.store hroot⟩
    intro c hc
    have hinUse := (hcalls c hc).resolve_left List.not_mem_nil
    exact (hinUse.concerns hsuits.separates hsuits.segments hsuits.listed).accepted (apart_forms hsuits.separates hsuits.segments)

/-- A nested key is written, read after a restart and listed, over files and over a memory that draws
    other nonces. -/
theorem backends_agree_nested :
    let steps : List Step := [.ask .epoch (.writeData "a/b" [1] none), .restart {}, .ask .epoch (.readData "a/b" none),
      .ask .epoch (.listMetadata "a/")]
    let first : FileTree := (∅ : FileTree).insert ["d"] .directory
    Directory.Vacant [] ⟨true, ["d"]⟩ ["d"] first ∧ (∀ ring, Step.Suits ring steps) ∧
      (Store.answers (Backend.files [] ⟨true, ["d"]⟩) steps { master := ⟨.tabulate 32 fun _ => 7⟩ } ⟨first, ⟨fun _ => 0, 0⟩⟩).1 =
        (Store.answers Backend.memory steps { master := ⟨.tabulate 32 fun _ => 7⟩ } ⟨∅, ⟨fun n => if n < 32 then 0 else 1, 0⟩⟩).1 := by
  intro steps first
  have hroot : Directory.Vacant [] ⟨true, ["d"]⟩ ["d"] first := by
    have hnode (path : List String) (hne : path ≠ []) :
        first.node? path = if path = ["d"] then some .directory else none := by
      rw [FileTree.node?_insert _ (by simp), FileTree.node?_of_ne_nil hne, Std.ExtTreeMap.getElem?_empty]
    refine ⟨rfl, hnode ["d"] (by simp), ?_⟩
    intro below hbelow
    rw [hnode _ (by simp), if_neg]
    intro heq
    exact hbelow (List.append_cancel_left (heq.trans (List.append_nil ["d"]).symm))
  have hsuits (ring : KeyRing) : Step.Suits ring steps := by
    have hnames : Step.names steps = ["a", "b", "a", "b", "a"] := by decide
    have hsize : ∀ name ∈ Step.names steps, name.utf8ByteSize = 1 := by
      rw [hnames]
      decide
    refine ⟨by decide, ?_, ?_, ?_⟩
    · intro path hpath
      obtain rfl : path = "a/" := List.mem_singleton.mp hpath
      exact .inr ⟨"a", by decide, .inr (by decide)⟩
    · intro name hname
      rw [hsize name hname]
      decide
    · intro a ha b hb
      exact ring.hideName_ne_of_size (Nat.le_of_eq ((hsize a ha).trans (hsize b hb).symm))
  have hsalt : (Entropy.draw 32 ⟨fun n => if n < 32 then 0 else 1, 0⟩).1 = (Entropy.draw 32 ⟨fun _ => 0, 0⟩).1 := by decide
  refine ⟨hroot, hsuits, (backends_agree hroot hsalt (hsuits _) ?_).1⟩
  exact room_of_shallow hroot (hsuits _) (by decide) (Nat.le_refl 2) (by decide)

end Files

end Strongbox
