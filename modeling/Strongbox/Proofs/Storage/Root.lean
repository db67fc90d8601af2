/-
  Strongbox.Proofs.Storage.Root — what opening a root leaves.

  Opening makes the root with all directories above it if nothing is there. If something is there it
  may be a file; then no key can be read below it. So once the root was opened and a get was answered
  the root leads to a directory, and opening it again changes nothing.

  Proved:
  - `rooted_of_opened`: an opened root below which a get was answered leads to a directory.
  - `Rooted.ensureRoot`: such a root is opened as it is.
-/

import Strongbox.Proofs.Storage.Untouched

namespace Strongbox.Directory

open FileTree (node?)

variable {here base : List String} {root : FilePath} {t t' : FileTree} {key : String} {found : Option Bytes}

/-- A root that leads to a directory is opened as it is. -/
theorem Rooted.ensureRoot (h : Rooted here root base t) : Directory.ensureRoot (FileTree.fileSystem here) root t = (.ok (), t) := by
  have hpresent : (FileTree.fileSystem here).present root t = (true, t) := by
    show (((t.locate here root).toOption.bind t.node?).isSome, t) = (true, t)
    rw [h.located]
    simp [Except.toOption, h.directory]
  unfold Directory.ensureRoot
  show StateT.bind ((FileTree.fileSystem here).present root) _ t = _
  rw [StateT.bind, hpresent]
  rfl

/-! ## Slashes at the end -/

theorem walk_blanks (h : t.node? base = some .directory) (n : Nat) : t.walk base (List.replicate n "") = .ok base := by
  induction n with
  | zero => rfl
  | succ n ih =>
    rw [List.replicate_succ, FileTree.walk, h]
    show (if "" = "" ∨ "" = "." then _ else _) = _
    rw [if_pos (.inl rfl), ih]

/-- A path that leads to a directory without the slashes at its end leads there with them. -/
theorem locate_of_trimmed (hne : root.isEmpty = false) (hsize : root.text.utf8ByteSize ≤ FileTree.maxPathLength)
    (h : t.locate here { root with parts := root.trimmedParts } = .ok base) (hbase : t.node? base = some .directory) :
    t.locate here root = .ok base := by
  obtain ⟨hnul, -, hwalk⟩ := FileTree.locate_eq_ok h
  obtain ⟨n, hn⟩ := root.exists_trimmed
  have hroot : '\x00' ∉ root.text.toList := by
    rw [FilePath.nul_mem_text] at hnul ⊢
    rintro ⟨part, hpart, hmem⟩
    rw [hn] at hpart
    rcases List.mem_append.mp hpart with hpart | hpart
    · exact hnul ⟨part, hpart, hmem⟩
    · rw [List.eq_of_mem_replicate hpart] at hmem
      cases hmem
  rw [FileTree.locate, if_neg (by simpa using hroot), if_neg (by simp [hne]), if_neg (Nat.not_lt.mpr hsize), hn, FileTree.walk_append]
  replace hwalk : t.walk (if root.absolute then [] else here) root.trimmedParts = .ok base := hwalk
  rw [hwalk]
  exact walk_blanks hbase n

/-! ## Making the root -/

/-- A directory that was made is where its path leads. -/
theorem rooted_of_made (hne : root.isEmpty = false) (h : (FileTree.fileSystem here).makeDirectory root t = (.ok (), t')) :
    ∃ base, Rooted here root base t' := by
  replace h : FileTree.change (fun t => t.locate here (FileTree.makingPath root) >>= t.makeDirectory) t = (.ok (), t') := h
  cases hlocated : t.locate here (FileTree.makingPath root) with
  | error e =>
    rw [FileTree.change_error (by rw [hlocated]; rfl)] at h
    cases h
  | ok path =>
    cases hnode : t.node? path with
    | some node =>
      have hmake : t.makeDirectory path = .error .alreadyExists := by rw [FileTree.makeDirectory, hnode]
      rw [FileTree.change_error (by rw [hlocated]; exact hmake)] at h
      cases h
    | none =>
      have hmake : t.makeDirectory path = .ok (t.insert path .directory) := by rw [FileTree.makeDirectory, hnode]
      rw [FileTree.change_ok (by rw [hlocated]; exact hmake)] at h
      obtain rfl := (Prod.mk.inj h).2
      have hpath : path ≠ [] := by
        rintro rfl
        cases hnode
      have hinsert := FileTree.node?_insert t hpath .directory
      have hdirectory : node? (t.insert path .directory) path = some .directory := by rw [hinsert, if_pos rfl]
      have hsize : root.text.utf8ByteSize ≤ FileTree.maxPathLength := by
        refine Nat.not_lt.mp fun hlong => ?_
        rw [FileTree.makingPath, if_neg (Nat.not_le.mpr hlong)] at hlocated
        exact absurd (FileTree.locate_eq_ok hlocated).2.1 (Nat.not_le.mpr hlong)
      rw [FileTree.makingPath, if_pos hsize] at hlocated
      refine ⟨path, locate_of_trimmed hne hsize (FileTree.locate_mono hlocated fun other hother => ?_) hdirectory, hdirectory⟩
      rw [hinsert]
      split
      · rfl
      · exact hother

/-- A directory that is found is where its path leads. -/
theorem rooted_of_isDirectory (h : ((FileTree.fileSystem here).isDirectory root t).1 = true) : ∃ base, Rooted here root base t := by
  replace h : (t.locate here root).toOption.bind t.node? = some .directory := of_decide_eq_true h
  cases hlocated : t.locate here root with
  | error e =>
    rw [hlocated] at h
    cases h
  | ok base =>
    rw [hlocated] at h
    exact ⟨base, hlocated, h⟩

/-- Making a directory with those above it ends by making it, or by finding it. -/
theorem makeDirectories_last {depth : Nat} (hne : root.isEmpty = false)
    (h : (FileTree.fileSystem here).makeDirectories (depth + 1) root t = (.ok (), t')) :
    (∃ u, (FileTree.fileSystem here).makeDirectory root u = (.ok (), t')) ∨ ((FileTree.fileSystem here).isDirectory root t').1 = true := by
  have hrefused {u : FileTree} {e : OsError} (h : ((FileTree.fileSystem here).isDirectory root >>= fun there =>
      if there then pure (.ok ()) else pure (.error e) : StateM FileTree (Except OsError Unit)) u = (.ok (), t')) :
      ((FileTree.fileSystem here).isDirectory root t').1 = true := by
    replace h : (if ((FileTree.fileSystem here).isDirectory root u).1 then pure (.ok ()) else pure (.error e) :
      StateM FileTree (Except OsError Unit)) u = (.ok (), t') := h
    cases hthere : ((FileTree.fileSystem here).isDirectory root u).1 with
    | true =>
      rw [hthere] at h
      rw [← (Prod.mk.inj h).2, hthere]
    | false =>
      rw [hthere] at h
      cases h
  simp only [FileSystem.makeDirectories, hne, Bool.false_eq_true, if_false, bind, StateT.bind] at h
  rcases hmade : (FileTree.fileSystem here).makeDirectory root t with ⟨made, u⟩
  rw [hmade] at h
  cases made with
  | ok =>
    cases h
    exact .inl ⟨t, hmade⟩
  | error e =>
    cases e with
    | notFound =>
      dsimp only at h
      rcases habove : (FileTree.fileSystem here).makeDirectories depth root.parent u with ⟨above, u'⟩
      rw [StateT.bind, habove] at h
      cases above with
      | error e => cases h
      | ok =>
        replace h : StateT.bind ((FileTree.fileSystem here).makeDirectory root) _ u' = ((.ok (), t') : Except OsError Unit × FileTree) := h
        rcases hagain : (FileTree.fileSystem here).makeDirectory root u' with ⟨again, u''⟩
        rw [StateT.bind, hagain] at h
        cases again with
        | ok =>
          cases h
          exact .inl ⟨u', hagain⟩
        | error e => exact .inr (hrefused h)
    | _ => exact .inr (hrefused h)

/-- A directory that was made for its owner was made. -/
theorem ensureDirectory_of_makePrivate (h : makePrivate (FileTree.fileSystem here) root t = (.ok (), t')) :
    (FileTree.fileSystem here).ensureDirectory root t = (.ok (), t') := by
  unfold makePrivate at h
  replace h : StateT.bind ((FileTree.fileSystem here).ensureDirectory root) _ t = _ := h
  rcases hmade : (FileTree.fileSystem here).ensureDirectory root t with ⟨made, u⟩
  rw [StateT.bind, hmade] at h
  cases made with
  | error e => cases h
  | ok =>
    replace h : (u.locate here root >>= u.found, u) = (.ok (), t') := h
    rw [(Prod.mk.inj h).2]

/-! ## Opening -/

/-- Below a file no key can be read. -/
theorem get_below_file {content : Bytes} (hlocated : t.locate here root = .ok base) (hfile : t.node? base = some (.file content)) :
    (Directory.perform (FileTree.fileSystem here) root (.get key) t).1 ≠ .ok found := by
  intro h
  obtain ⟨-, hread⟩ := read_of_answered h
  have hblocked : ∃ e, e ≠ .notFound ∧ t.locate here (root.append (valuePath key)) = .error e := by
    rw [FileTree.locate]
    split
    · exact ⟨_, by decide, rfl⟩
    · split
      · rename_i hempty
        rw [FilePath.isEmpty_append (FileTree.isEmpty_of_located hlocated)] at hempty
        cases hempty
      · split
        · exact ⟨_, by decide, rfl⟩
        · refine ⟨.notDirectory, by decide, ?_⟩
          show t.walk (if root.absolute then [] else here) (root.trimmedParts ++ valuePath key) = _
          rw [FileTree.walk_append, FileTree.walk_trimmed (FileTree.locate_eq_ok hlocated).2.2]
          show t.walk base (valuePath key) = _
          cases hpath : valuePath key with
          | nil => exact absurd hpath (valuePath_ne_nil key)
          | cons part rest => rw [FileTree.walk, hfile]
  obtain ⟨e, hne, hblocked⟩ := hblocked
  rw [hblocked] at hread
  replace hread : (.error e : Except OsError Bytes) = found.elim (.error .notFound) .ok := hread
  cases found with
  | none => exact hne (Except.error.inj hread)
  | some value => cases hread

/-- An opened root below which a get was answered leads to a directory. -/
theorem rooted_of_opened (hne : root.isEmpty = false) (hopened : Directory.ensureRoot (FileTree.fileSystem here) root t = (.ok (), t'))
    (hget : (Directory.perform (FileTree.fileSystem here) root (.get key) t').1 = .ok found) : ∃ base, Rooted here root base t' := by
  unfold Directory.ensureRoot at hopened
  replace hopened : (if (((t.locate here root).toOption.bind t.node?).isSome) then pure (.ok ())
    else makePrivate (FileTree.fileSystem here) root : StateM FileTree (Except OsError Unit)) t = (.ok (), t') := hopened
  split at hopened
  · rename_i hpresent
    obtain rfl := (Prod.mk.inj hopened).2
    cases hlocated : t.locate here root with
    | error e =>
      rw [hlocated] at hpresent
      cases hpresent
    | ok base =>
      rw [hlocated] at hpresent
      obtain ⟨node, hnode⟩ := Option.isSome_iff_exists.mp hpresent
      replace hnode : t.node? base = some node := hnode
      cases node with
      | directory => exact ⟨base, hlocated, hnode⟩
      | file content => exact absurd hget (get_below_file hlocated hnode)
  · rcases makeDirectories_last hne (ensureDirectory_of_makePrivate hopened) with ⟨u, hmade⟩ | hthere
    · exact rooted_of_made hne hmade
    · exact rooted_of_isDirectory hthere

end Strongbox.Directory
