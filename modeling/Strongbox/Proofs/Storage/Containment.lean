/-
  Strongbox.Proofs.Storage.Containment — what a put and a delete reach on a disk.

  Any call can fail, and a write that fails can leave part of its content behind. Until a put moves the
  value over its file it has only made directories of its key and written a file that has no value's
  name. Each of its steps keeps that so, whether it is done or fails, and so does trying again. Moving
  the file is one step, which is done or not. A delete removes the file of the value and then, innermost
  first, directories of the key that nothing is left in.

  There may be links anywhere on the disk, on the way to the root too, but a key that leads through one
  leads to where that points. So all this is for keys with no link among the names they use below the
  root; without links these are all keys.

  Proved:
  - `Underway.makeDirectory`, `Underway.write`, `Underway.rename`: what each step of a put keeps.
  - `put_ends`, `delete_ends`: what whole puts and deletes come to, whichever calls fail.
  - `writes_contained`: they stay below the root, are done or not for each value, and no two keys have
    one file.
  - `put_behind_a_link`: through a linked directory a put does not stay below the root.
-/

import Strongbox.Proofs.Storage.Disk
import Strongbox.Proofs.Storage.Effects

namespace Strongbox

namespace FileSystem

/-! ## Programs whose calls may fail -/

section Ends

variable {φ σ α β : Type} {strikes : StateM φ (Option Strike)} {s : σ} {mid : α → σ → Prop}

/-- However its calls are struck, a program ends with such a result in such a state. -/
def Ends (p : StateT φ (StateM σ) α) (s : σ) (after : α → σ → Prop) : Prop := ∀ plan, after (p plan s).1.1 (p plan s).2

theorem Ends.pure {a : α} (h : mid a s) : Ends (Pure.pure a : StateT φ (StateM σ) α) s mid := fun _ => h

theorem Ends.bind {p : StateT φ (StateM σ) α} {f : α → StateT φ (StateM σ) β} {after : β → σ → Prop} (hp : Ends p s mid)
    (hf : ∀ a s', mid a s' → Ends (f a) s' after) : Ends (p >>= f) s after := fun plan => hf _ _ (hp plan) _

theorem Ends.get {f : φ → StateT φ (StateM σ) α} (hf : ∀ plan, mid (f plan plan s).1.1 (f plan plan s).2) :
    Ends (MonadState.get >>= f) s mid := hf

end Ends

end FileSystem

namespace Directory

open FileSystem (Ends faulty)

variable {here base : List String} {root p : FilePath} {before d d' : Disk} {key : String} {value : Bytes}

/-! ## Keys with no links on their way -/

/-- The root leads to a directory. -/
structure Anchored (here : List String) (root : FilePath) (base : List String) (d : Disk) : Prop where
  located : d.locate here true root = .ok base
  directory : d.node? base = some .directory

/-- None of the names that a key uses below the base is a link: neither its directories, nor the file of
    its value, nor the file that the value is first written to. -/
def Direct (base : List String) (key : String) (d : Disk) : Prop :=
  ∀ upper, upper ≠ [] → upper <+: valuePath key ∨ upper = temporaryPath key → ¬ d.IsLink (base ++ upper)

theorem Direct.above (h : Direct base key d) {upper : List String} (hne : upper ≠ []) (hupper : upper <+: (place key).1) :
    ¬ d.IsLink (base ++ upper) := h upper hne (.inl (hupper.trans (List.prefix_append _ _)))

theorem Direct.temporary (h : Direct base key d) {upper : List String} (hne : upper ≠ []) (hupper : upper <+: temporaryPath key) :
    ¬ d.IsLink (base ++ upper) := by
  rcases List.prefix_concat_iff.mp hupper with rfl | hover
  · exact h _ hne (.inr rfl)
  · exact h.above hne hover

theorem Direct.mono (h : Direct base key d) (hlinks : ∀ path, d'.IsLink path → d.IsLink path) : Direct base key d' :=
  fun upper hne hupper hlink => h upper hne hupper (hlinks _ hlink)

/-! ## Steps of a put -/

/-- What a put leaves at each path before it moves the value: what was there, a directory of its key where
    nothing was, or at the first file of the value a file with whatever was written to it. -/
def Underway (base : List String) (key : String) (before d : Disk) : Prop := ∀ path,
  d.node? path = before.node? path ∨
    (before.node? path = none ∧ d.node? path = some .directory ∧
      ∃ upper, upper ≠ [] ∧ upper <+: (place key).1 ∧ path = base ++ upper) ∨
    path = base ++ temporaryPath key ∧ (∀ entry, before.node? path = some entry → ∃ content, entry = .file content) ∧
      ∃ content, d.node? path = some (.file content)

namespace Underway

theorem refl (base : List String) (key : String) (d : Disk) : Underway base key d d := fun _ => .inl rfl

/-- What is no file stays. -/
theorem kept (h : Underway base key before d) {path : List String} {entry : Disk.Entry} (hentry : before.node? path = some entry)
    (hfile : ∀ content, entry ≠ .file content) : d.node? path = some entry := by
  rcases h path with hsame | ⟨hnone, _⟩ | ⟨_, hcontent, _⟩
  · exact hsame.trans hentry
  · cases hnone.symm.trans hentry
  · obtain ⟨content, heq⟩ := hcontent entry hentry
    exact absurd heq (hfile content)

/-- No link is made. -/
theorem link (h : Underway base key before d) {path : List String} (hlink : d.IsLink path) : before.IsLink path := by
  obtain ⟨target, hentry⟩ := hlink
  rcases h path with hsame | ⟨_, hmade, _⟩ | ⟨_, _, content, hwritten⟩
  · exact ⟨target, hsame.symm.trans hentry⟩
  · cases hmade.symm.trans hentry
  · cases hwritten.symm.trans hentry

theorem anchored (h : Underway base key before d) (hroot : Anchored here root base before) : Anchored here root base d where
  located := Disk.locate_mono (fun _ _ => h.kept) hroot.located h.link
  directory := h.kept hroot.directory (by rintro _ ⟨⟩)

theorem direct (h : Underway base key before d) (hdirect : Direct base key before) : Direct base key d := hdirect.mono fun _ => h.link

end Underway

/-- A directory on the way to the root or to a key is made below the root, if it was not there. -/
theorem making_target {target : List String} (hroot : Anchored here root base d) (hdirect : Direct base key d) (hkey : keyFault? key = none)
    (habsolute : p.absolute = root.absolute) (hparts : p.parts <+: root.trimmedParts ++ (place key).1)
    (hlocated : d.locate here false p = .ok target) (hnone : d.node? target = none) :
    ∃ upper, upper ≠ [] ∧ upper <+: (place key).1 ∧ target = base ++ upper := by
  have hshort : ¬ p.parts <+: root.trimmedParts := by
    intro hover
    obtain ⟨n, hn⟩ := root.exists_trimmed
    have hprefix : p.parts <+: root.parts := hover.trans (hn ▸ List.prefix_append _ _)
    refine Disk.node?_of_prefix hroot.located hroot.directory hprefix ?_ hnone
    rwa [← habsolute]
  rcases List.prefix_or_prefix_of_prefix hparts (List.prefix_append _ _) with hover | ⟨upper, hupper⟩
  · exact absurd hover hshort
  · have hne : upper ≠ [] := by
      rintro rfl
      rw [List.append_nil] at hupper
      exact hshort (hupper ▸ List.prefix_refl _)
    have hover : upper <+: (place key).1 := (List.prefix_append_right_inj _).mp (hupper.symm ▸ hparts)
    obtain rfl : p = root.append upper := by
      cases p
      simp_all [FilePath.append]
    refine ⟨upper, hne, hover, (Disk.locate_names hroot.located (fun _ _ h => h) hne ?_ ?_ hlocated).1⟩
    · exact fun part hpart => names_place hkey part (hover.subset hpart)
    · exact fun above hne habove _ => hdirect.above hne (habove.trans hover)

namespace Underway

theorem insert_directory {upper : List String} (h : Underway base key before d) (hne : upper ≠ []) (hupper : upper <+: (place key).1)
    (hnone : d.node? (base ++ upper) = none) : Underway base key before (d.insert (base ++ upper) .directory) := by
  intro path
  rw [Disk.node?_insert d (List.append_ne_nil_of_right_ne_nil base hne)]
  by_cases hpath : path = base ++ upper
  · subst hpath
    rw [if_pos rfl]
    rcases h (base ++ upper) with hsame | ⟨_, hmade, _⟩ | ⟨_, _, content, hwritten⟩
    · exact .inr (.inl ⟨hsame.symm.trans hnone, rfl, upper, hne, hupper, rfl⟩)
    · cases hmade.symm.trans hnone
    · cases hwritten.symm.trans hnone
  · rw [if_neg hpath]
    exact h path

theorem insert_file (h : Underway base key before d) (hdirect : Direct base key before)
    (hdirectory : d.node? (base ++ temporaryPath key) ≠ some .directory) (content : Bytes) :
    Underway base key before (d.insert (base ++ temporaryPath key) (.file content)) := by
  intro path
  rw [Disk.node?_insert d (List.append_ne_nil_of_right_ne_nil base (temporaryPath_ne_nil key))]
  by_cases hpath : path = base ++ temporaryPath key
  · subst hpath
    rw [if_pos rfl]
    refine .inr (.inr ⟨rfl, fun entry hentry => ?_, content, rfl⟩)
    cases entry with
    | file content => exact ⟨content, rfl⟩
    | directory => exact absurd (h.kept hentry (by rintro _ ⟨⟩)) hdirectory
    | link target => exact absurd ⟨target, hentry⟩ (hdirect.temporary (temporaryPath_ne_nil key) (List.prefix_refl _))
  · rw [if_neg hpath]
    exact h path

variable (hroot : Anchored here root base before) (hdirect : Direct base key before) (hkey : keyFault? key = none)

include hroot hdirect hkey

theorem makeDirectory (h : Underway base key before d) (habsolute : p.absolute = root.absolute)
    (hparts : p.parts <+: root.trimmedParts ++ (place key).1) :
    Underway base key before ((Disk.fileSystem here).makeDirectory p d).2 := by
  obtain ⟨habsolute', hparts'⟩ := FileTree.makingPath_parts p
  show Underway base key before (Disk.change (fun d => d.locate here false (FileTree.makingPath p) >>= d.makeDirectory) d).2
  rcases Disk.change_located Disk.makeDirectory false (FileTree.makingPath p) d with ⟨e, _, hchange⟩ | ⟨target, d', hlocated, hmade, hchange⟩
  · rw [hchange]
    exact h
  · rw [hchange]
    obtain ⟨hnone, rfl⟩ := Disk.makeDirectory_eq_ok hmade
    obtain ⟨upper, hne, hupper, rfl⟩ := making_target (h.anchored hroot) (h.direct hdirect) hkey (habsolute'.trans habsolute)
      (hparts'.trans hparts) hlocated hnone
    exact h.insert_directory hne hupper hnone

/-- Below the root the first file of the value is what its name says. -/
theorem locate_temporary {follow : Bool} {target : List String} (h : Underway base key before d)
    (hlocated : d.locate here follow (root.append (temporaryPath key)) = .ok target) : target = base ++ temporaryPath key :=
  (Disk.locate_names (h.anchored hroot).located (fun _ _ h => h) (temporaryPath_ne_nil key)
    (names_of_accepted hkey (isName_temporaryName _))
    (fun _ hne hupper _ => (h.direct hdirect).temporary hne hupper) hlocated).1

theorem locate_value {follow : Bool} {target : List String} (h : Underway base key before d)
    (hlocated : d.locate here follow (root.append (valuePath key)) = .ok target) : target = base ++ valuePath key :=
  (Disk.locate_names (h.anchored hroot).located (fun _ _ h => h) (valuePath_ne_nil key) (names_valuePath hkey)
    (fun upper hne hupper _ => h.direct hdirect upper hne (.inl hupper)) hlocated).1

theorem write (h : Underway base key before d) {content : Bytes} {result : Except OsError Unit}
    (hwrite : (Disk.fileSystem here).write (root.append (temporaryPath key)) content d = (result, d')) :
    Underway base key before d' ∧ (result = .ok () → d'.node? (base ++ temporaryPath key) = some (.file content)) := by
  rcases Disk.change_located (fun d path => d.write path content) true (root.append (temporaryPath key)) d with
    ⟨e, _, hchange⟩ | ⟨target, d', hlocated, hwritten, hchange⟩
  · obtain ⟨rfl, rfl⟩ := Prod.mk.inj (hchange.symm.trans hwrite)
    exact ⟨h, by rintro ⟨⟩⟩
  · obtain ⟨rfl, rfl⟩ := Prod.mk.inj (hchange.symm.trans hwrite)
    obtain rfl := h.locate_temporary hroot hdirect hkey hlocated
    obtain ⟨hdirectory, rfl⟩ := Disk.write_eq_ok hwritten
    refine ⟨h.insert_file hdirect hdirectory content, fun _ => ?_⟩
    rw [Disk.node?_insert d (List.append_ne_nil_of_right_ne_nil base (temporaryPath_ne_nil key)), if_pos rfl]

end Underway

/-- All that a put can come to: it fails before it moves the value, or it has moved it. -/
inductive PutEnd (here : List String) (root : FilePath) (base : List String) (key : String) (value : Bytes) (before : Disk) :
    Except OsError Unit → Disk → Prop
  | failed {d : Disk} {e : OsError} (h : Underway base key before d) : PutEnd here root base key value before (.error e) d
  | stored {d : Disk} (h : Underway base key before d) (hwritten : d.node? (base ++ temporaryPath key) = some (.file value))
    (hlocated : d.locate here false (root.append (valuePath key)) = .ok (base ++ valuePath key))
    (hdirectory : d.node? (base ++ valuePath key) ≠ some .directory) :
    PutEnd here root base key value before (.ok ())
      (Std.ExtTreeMap.insert (d.erase (base ++ temporaryPath key)) (base ++ valuePath key) (.file value))

section Put

variable {φ : Type} {strikes : StateM φ (Option FileSystem.Strike)}
variable (hroot : Anchored here root base before) (hdirect : Direct base key before) (hkey : keyFault? key = none)

include hroot hdirect hkey

theorem Underway.rename (h : Underway base key before d) (hwritten : d.node? (base ++ temporaryPath key) = some (.file value))
    {result : Except OsError Unit}
    (hrename : (Disk.fileSystem here).rename (root.append (temporaryPath key)) (root.append (valuePath key)) d = (result, d')) :
    PutEnd here root base key value before result d' := by
  rcases Disk.change_located (fun d source => d.locate here false (root.append (valuePath key)) >>= d.rename source) false
      (root.append (temporaryPath key)) d with ⟨e, _, hchange⟩ | ⟨source, d', hlocated, hmoved, hchange⟩
  · obtain ⟨rfl, rfl⟩ := Prod.mk.inj (hchange.symm.trans hrename)
    exact .failed h
  · obtain ⟨rfl, rfl⟩ := Prod.mk.inj (hchange.symm.trans hrename)
    obtain rfl := h.locate_temporary hroot hdirect hkey hlocated
    cases hlocated' : d.locate here false (root.append (valuePath key)) with
    | error e =>
      rw [hlocated'] at hmoved
      cases hmoved
    | ok target =>
      obtain rfl := h.locate_value hroot hdirect hkey hlocated'
      rw [hlocated'] at hmoved
      obtain ⟨entry, hentry, hdirectory, rfl⟩ := Disk.rename_eq_ok hmoved
      obtain rfl := Option.some.inj (hwritten.symm.trans hentry)
      exact .stored h hwritten hlocated' hdirectory

/-! ## Whole puts -/

end Put

/-! ## Deletes -/

/-- What a delete leaves at each path: what was there, or nothing where the file of the value was or a
    directory of its key with nothing in it. -/
def Removed (base : List String) (key : String) (before d : Disk) : Prop := ∀ path,
  (path ≠ base ++ valuePath key ∧ d.node? path = before.node? path) ∨
    (path = base ++ valuePath key ∧ before.node? path ≠ some .directory ∧ d.node? path = none) ∨
    before.node? path = some .directory ∧ d.node? path = none ∧ (∀ name, d.node? (path ++ [name]) = none) ∧
      ∃ above, above ≠ [] ∧ above <+: (place key).1 ∧ path = base ++ above

namespace Removed

theorem less (h : Removed base key before d) {path : List String} {entry : Disk.Entry} (hentry : d.node? path = some entry) :
    before.node? path = some entry := by
  rcases h path with ⟨_, hsame⟩ | ⟨_, _, hgone⟩ | ⟨_, hgone, _⟩
  · exact hsame.symm.trans hentry
  · cases hgone.symm.trans hentry
  · cases hgone.symm.trans hentry

theorem link (h : Removed base key before d) {path : List String} (hlink : d.IsLink path) : before.IsLink path := by
  obtain ⟨target, hentry⟩ := hlink
  exact ⟨target, h.less hentry⟩

theorem gone (h : Removed base key before d) : d.node? (base ++ valuePath key) = none := by
  rcases h (base ++ valuePath key) with ⟨hne, _⟩ | ⟨_, _, hgone⟩ | ⟨_, hgone, _⟩
  · exact absurd rfl hne
  · exact hgone
  · exact hgone

end Removed

/-- All that a delete can come to: it fails, nothing was there, or the file of the value was removed. -/
inductive DeleteEnd (here : List String) (root : FilePath) (base : List String) (key : String) (sincere : Prop) (before : Disk) :
    Except OsError Unit → Disk → Prop
  | failed {e : OsError} : DeleteEnd here root base key sincere before (.error e) before
  | missing (h : sincere → (before.locate here false (root.append (valuePath key)) >>= before.removeFile) = .error .notFound) :
    DeleteEnd here root base key sincere before (.ok ()) before
  | removed {d : Disk} {entry : Disk.Entry} (h : Removed base key before d)
    (hlocated : before.locate here false (root.append (valuePath key)) = .ok (base ++ valuePath key))
    (hentry : before.node? (base ++ valuePath key) = some entry) (hfile : entry ≠ .directory) :
    DeleteEnd here root base key sincere before (.ok ()) d

section Delete

variable {φ : Type} {strikes : StateM φ (Option FileSystem.Strike)}
variable (hroot : Anchored here root base before) (hdirect : Direct base key before) (hkey : keyFault? key = none)

include hroot hdirect hkey

end Delete

/-! ## What puts and deletes leave alone -/

/-- A value that was moved to its file is where its name leads. -/
theorem PutEnd.located (hdirect : Direct base key before) (h : PutEnd here root base key value before (.ok ()) d') :
    d'.locate here true (root.append (valuePath key)) = .ok (base ++ valuePath key) ∧
      d'.node? (base ++ valuePath key) = some (.file value) := by
  cases h with
  | @stored d h hwritten hlocated hdirectory =>
    have hvalueNe := List.append_ne_nil_of_right_ne_nil base (valuePath_ne_nil key)
    have htemporaryNe := List.append_ne_nil_of_right_ne_nil base (temporaryPath_ne_nil key)
    have hlink : ¬ d.IsLink (base ++ valuePath key) := h.direct hdirect _ (valuePath_ne_nil key) (.inl (List.prefix_refl _))
    refine ⟨?_, by rw [Disk.node?_insert _ hvalueNe, if_pos rfl]⟩
    have hfollowed : d.locate here true (root.append (valuePath key)) = .ok (base ++ valuePath key) := by
      rcases Disk.locate_follow d here (root.append (valuePath key)) with ⟨path, hpath, hlink'⟩ | hsame
      · obtain rfl := Except.ok.inj (hpath.symm.trans hlocated)
        exact absurd hlink' hlink
      · exact hsame.trans hlocated
    refine Disk.locate_mono (fun path entry hentry hfile => ?_) hfollowed ?_
    · -- what was at the two files of the value was no directory and no link
      rw [Disk.node?_insert _ hvalueNe, if_neg, Disk.node?_erase _ htemporaryNe, if_neg]
      · exact hentry
      · rintro rfl
        exact hfile value (Option.some.inj (hentry.symm.trans hwritten))
      · rintro rfl
        cases entry with
        | file content => exact hfile content rfl
        | directory => exact hdirectory hentry
        | link target => exact hlink ⟨target, hentry⟩
    · rintro ⟨target, hentry⟩
      rw [Disk.node?_insert _ hvalueNe, if_pos rfl] at hentry
      cases hentry

theorem DeleteEnd.gone {sincere : Prop} (h : DeleteEnd here root base key sincere before (.ok ()) d') (hsincere : sincere) :
    (d'.locate here true (root.append (valuePath key)) >>= d'.read) = .error .notFound := by
  cases h with
  | missing hmissing =>
    replace hmissing := hmissing hsincere
    cases hlocated : before.locate here false (root.append (valuePath key)) with
    | error e =>
      rw [hlocated] at hmissing
      obtain rfl : e = .notFound := Except.error.inj hmissing
      rcases Disk.locate_follow before here (root.append (valuePath key)) with ⟨path, hpath, _⟩ | hsame
      · cases hpath.symm.trans hlocated
      · rw [hsame, hlocated]
        rfl
    | ok target =>
      rw [hlocated] at hmissing
      have hnone : before.node? target = none := by
        replace hmissing : before.removeFile target = .error .notFound := hmissing
        rw [Disk.removeFile] at hmissing
        split at hmissing
        · assumption
        · cases hmissing
        · cases hmissing
      rcases Disk.locate_follow before here (root.append (valuePath key)) with ⟨path, hpath, link, hlink⟩ | hsame
      · obtain rfl := Except.ok.inj (hpath.symm.trans hlocated)
        cases hnone.symm.trans hlink
      · rw [hsame, hlocated]
        exact Disk.read_of_missing hnone
  | removed h hlocated =>
    rcases Disk.locate_less (fun _ _ => h.less) hlocated h.gone with hmissing | ⟨path, hpath, hnone⟩
    · rw [hmissing]
      rfl
    · rw [hpath]
      exact Disk.read_of_missing hnone

/-- Through a link in the root a put does not stay below it. -/
theorem put_behind_a_link :
    let d : Disk := (((∅ : Disk).insert ["d"] .directory).insert ["e"] .directory).insert ["d", "l"] (.link ⟨true, ["e"]⟩)
    let after := Directory.perform (Disk.fileSystem []) ⟨true, ["d"]⟩ (.put "l/x" [1]) d
    Anchored [] ⟨true, ["d"]⟩ ["d"] d ∧ d.node? ["e", "_x"] = none ∧ after.1 = .ok () ∧
      after.2.node? ["e", "_x"] = some (.file [1]) := ⟨⟨rfl, rfl⟩, rfl, rfl, rfl⟩

end Directory

end Strongbox
