/-
  Strongbox.Proofs.Storage.Untouched — what other calls leave of the value of a key.

  Whatever else is in a tree: once a get was answered with a value, or at the top of the root with
  nothing, it goes on being answered so while other keys are put. It does so while other keys are
  deleted that have a value beside them, for then no directory becomes empty. Only a put that needs a
  directory where the value of the key is can stand in the way.

  Proved:
  - `Gives.reply`: what a get of the key answers.
  - `gives_of_put`, `gives_of_found`, `gives_of_top`: a key is given after a put, and where a get was answered.
  - `Gives.put`, `Gives.delete`: puts and deletes of other keys leave it.
-/

import Strongbox.Proofs.Storage.Tidiness

namespace Strongbox.Directory

open FileTree (node?)

variable {here base : List String} {root : FilePath} {t t' : FileTree} {key other : String} {found : Option Bytes} {value : Bytes}

/-! ## What is given -/

/-- A get of the key reaches the place of its value, and this is there. -/
structure Gives (here : List String) (root : FilePath) (base : List String) (key : String) (found : Option Bytes)
    (t : FileTree) : Prop where
  rooted : Rooted here root base t
  accepted : keyFault? key = none
  legal : Legal root (valuePath key)
  paved : Paved base (place key).1 t
  node : t.node? (base ++ valuePath key) = found.map .file

theorem Gives.reply (h : Gives here root base key found t) :
    Directory.perform (FileTree.fileSystem here) root (.get key) t = (.ok found, t) := by
  have hlocated : t.locate here (root.append (valuePath key)) = .ok (base ++ valuePath key) :=
    h.rooted.locate_of_paved h.paved h.legal
  have hread : (t.locate here (root.append (valuePath key)) >>= t.read) = t.read (base ++ valuePath key) := by
    rw [hlocated]
    rfl
  rw [Directory.perform, checked_eq h.accepted, get_read, hread, FileTree.read, h.node]
  cases found <;> rfl

/-- Where a get reaches a place, what is there is given. -/
theorem gives_of_located (hroot : Rooted here root base t) (hkey : keyFault? key = none) {target : List String}
    (hlocated : t.locate here (root.append (valuePath key)) = .ok target) (hnode : t.node? target = found.map .file) :
    Gives here root base key found t := by
  obtain ⟨rfl, hlegal, hover⟩ := hroot.of_located (fun _ h => h) (names_valuePath hkey) hlocated
  refine ⟨hroot, hkey, hlegal, fun upper hupper => ?_, hnode⟩
  refine hover upper (hupper.trans (List.prefix_append _ _)) ?_
  rintro rfl
  exact concat_not_prefix hupper

/-- What a get read or missed if it was answered. -/
theorem read_of_answered (h : (Directory.perform (FileTree.fileSystem here) root (.get key) t).1 = .ok found) :
    keyFault? key = none ∧ (t.locate here (root.append (valuePath key)) >>= t.read) = found.elim (.error .notFound) .ok := by
  rw [Directory.perform] at h
  cases hkey : keyFault? key with
  | some fault =>
    rw [checked_refused hkey] at h
    cases h
  | none =>
    rw [checked_eq hkey, get_read] at h
    refine ⟨rfl, ?_⟩
    cases hread : t.locate here (root.append (valuePath key)) >>= t.read with
    | ok content =>
      rw [hread] at h
      cases h
      rfl
    | error e =>
      rw [hread] at h
      cases e <;> cases h
      rfl

/-- A value that a get has found is given. -/
theorem gives_of_found (hroot : Rooted here root base t)
    (h : (Directory.perform (FileTree.fileSystem here) root (.get key) t).1 = .ok (some value)) :
    Gives here root base key (some value) t := by
  obtain ⟨hkey, hread⟩ := read_of_answered h
  cases hlocated : t.locate here (root.append (valuePath key)) with
  | error e =>
    rw [hlocated] at hread
    cases hread
  | ok target =>
    rw [hlocated] at hread
    replace hread : t.read target = .ok value := hread
    refine gives_of_located hroot hkey hlocated ?_
    cases hnode : t.node? target with
    | none =>
      rw [FileTree.read, hnode] at hread
      cases hread
    | some node =>
      rw [FileTree.read, hnode] at hread
      cases node <;> cases hread
      rfl

/-- At the top of the root nothing can be missing on the way, so what a get has not found is not there. -/
theorem gives_of_top (hroot : Rooted here root base t) (htop : (place key).1 = [])
    (h : (Directory.perform (FileTree.fileSystem here) root (.get key) t).1 = .ok found) :
    Gives here root base key found t := by
  cases found with
  | some value => exact gives_of_found hroot h
  | none =>
    obtain ⟨hkey, hread⟩ := read_of_answered h
    cases hlocated : t.locate here (root.append (valuePath key)) with
    | error e =>
      rw [hlocated] at hread
      obtain rfl : e = .notFound := Except.error.inj hread
      obtain ⟨upper, hover, hne, hnone⟩ := FileTree.locate_missing hroot.located (names_valuePath hkey)
        (hroot.isEmpty_append _) hlocated
      obtain rfl : upper = [] := by
        have hshort := (List.prefix_concat_iff.mp hover).resolve_left hne
        rwa [htop, List.prefix_nil] at hshort
      rw [List.append_nil, hroot.directory] at hnone
      cases hnone
    | ok target =>
      rw [hlocated] at hread
      replace hread : t.read target = .error .notFound := hread
      refine gives_of_located hroot hkey hlocated ?_
      cases hnode : t.node? target with
      | none => rfl
      | some node =>
        rw [FileTree.read, hnode] at hread
        cases node <;> cases hread

/-- What was put is given. -/
theorem gives_of_put (hroot : Rooted here root base t)
    (hput : Directory.perform (FileTree.fileSystem here) root (.put key value) t = (.ok (), t')) :
    Gives here root base key (some value) t' := by
  rcases perform_put_cases hroot key value with ⟨fault, hrefused⟩ | ⟨result, u, hperform, hkey, heffect⟩
  · cases hput.symm.trans hrefused
  · obtain ⟨hresult, rfl⟩ := Prod.mk.inj (hput.symm.trans hperform)
    cases result with
    | error e => cases hresult
    | ok =>
      obtain ⟨hlocated, hnode⟩ := heffect.located_value hroot
      exact gives_of_located (hroot.mono fun _ => heffect.directory) hkey hlocated hnode

/-! ## Other keys -/

/-- A key whose directories do not lead over the value of another. -/
structure Beside (key other : String) : Prop where
  ne : other ≠ key
  clear : ¬ valuePath key <+: (place other).1

/-- A put of another key leaves what is given, whether it goes through or fails. -/
theorem Gives.put (h : Gives here root base key found t) (hbeside : Beside key other) {result : Except StorageError Unit}
    (hput : Directory.perform (FileTree.fileSystem here) root (.put other value) t = (result, t')) :
    Gives here root base key found t' := by
  rcases perform_put_cases h.rooted other value with ⟨fault, hrefused⟩ | ⟨done, u, hperform, _, heffect⟩
  · obtain ⟨-, rfl⟩ := Prod.mk.inj (hput.symm.trans hrefused)
    exact h
  · obtain ⟨-, rfl⟩ := Prod.mk.inj (hput.symm.trans hperform)
    refine ⟨h.rooted.mono fun _ => heffect.directory, h.accepted, h.legal, fun upper hover => heffect.directory (h.paved upper hover), ?_⟩
    rw [← h.node]
    rcases heffect.node?_cases (base ++ valuePath key) with hsame | ⟨_, _, upper, _, hupper, heq⟩ | ⟨heq, _⟩ | ⟨heq, _⟩
    · exact hsame
    · exact absurd (List.append_cancel_left heq ▸ hupper) hbeside.clear
    · exact absurd (List.append_cancel_left heq) (valuePath_ne_temporaryPath key other)
    · exact absurd (valuePath_injective (List.append_cancel_left heq)).symm hbeside.ne

/-- A delete beside a value removes no directory. -/
theorem DeleteEffect.beside {result : Except OsError Unit} (h : DeleteEffect here root base other t result t')
    {sibling : String} (hsibling : t.node? (base ++ valuePath sibling) = some (.file value)) (hne : other ≠ sibling)
    (hplace : (place other).1 = (place sibling).1) :
    t' = t ∨ (∃ content, t.node? (base ++ valuePath other) = some (.file content)) ∧ t' = t.erase (base ++ valuePath other) := by
  cases h with
  | refused => exact .inl rfl
  | absent => exact .inl rfl
  | removed _ hfile hpruned =>
    refine .inr ⟨⟨_, hfile⟩, ?_⟩
    have hstill : node? (t.erase (base ++ valuePath other)) (base ++ valuePath sibling) = some (.file value) := by
      rw [FileTree.node?_erase_below t base (valuePath_ne_nil other), if_neg fun heq => hne (valuePath_injective heq).symm, hsibling]
    have hbeside : valuePath sibling = (place other).1 ++ [valueName (place sibling).2] := by rw [hplace, valuePath]
    rw [hbeside] at hstill
    generalize t.erase (base ++ valuePath other) = u at hpruned hstill ⊢
    generalize (place other).1 = way at hpruned hstill
    cases hpruned with
    | top => rfl
    | stays => rfl
    | gone _ hempty _ =>
      have hnone := FileTree.children_eq_nil_iff.mp hempty (valueName (place sibling).2)
      rw [List.append_assoc, hstill] at hnone
      cases hnone

/-- A delete of another key leaves what is given if there is a value beside what is deleted. -/
theorem Gives.delete (h : Gives here root base key found t) (hne : other ≠ key) {sibling : String}
    (hsibling : Gives here root base sibling (some value) t) (hother : other ≠ sibling) (hplace : (place other).1 = (place sibling).1)
    {result : Except StorageError Unit}
    (hdelete : Directory.perform (FileTree.fileSystem here) root (.delete other) t = (result, t')) :
    Gives here root base key found t' := by
  rcases perform_delete_cases h.rooted other with ⟨fault, hrefused⟩ | ⟨done, u, hperform, _, heffect⟩
  · obtain ⟨-, rfl⟩ := Prod.mk.inj (hdelete.symm.trans hrefused)
    exact h
  · obtain ⟨-, rfl⟩ := Prod.mk.inj (hdelete.symm.trans hperform)
    rcases heffect.beside hsibling.node hother hplace with rfl | ⟨⟨content, hfile⟩, rfl⟩
    · exact h
    · have hdirectory {path : List String} (hpath : t.node? path = some .directory) :
          node? (t.erase (base ++ valuePath other)) path = some .directory := by
        rw [FileTree.node?_erase t (List.append_ne_nil_of_right_ne_nil base (valuePath_ne_nil other)), if_neg, hpath]
        rintro rfl
        rw [hfile] at hpath
        cases hpath
      refine ⟨h.rooted.mono fun _ => hdirectory, h.accepted, h.legal, fun upper hover => hdirectory (h.paved upper hover), ?_⟩
      rw [FileTree.node?_erase_below t base (valuePath_ne_nil other), if_neg fun heq => hne (valuePath_injective heq).symm, h.node]

end Strongbox.Directory
