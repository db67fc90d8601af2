/-
  Strongbox.Proofs.Storage.Files — calls over files are answered as over a memory.

  A put makes the directories that are missing, one below the other, and then two files, one of
  which takes the other's place; a delete removes a file and, innermost first, the directories that
  became empty. On a tree that holds a memory each of these goes through as long as no path is too
  long and nothing stored is in the way, and leaves a tree that holds the memory after the call.

  Proved:
  - `get_eq`, `put_eq`, `delete_eq`, `list_eq`: what each operation answers and leaves.
  - `Holds.perform`: a call that nothing is in the way of is answered over the files as over the memory.
  - `Concerns.perform`: so is every call about keys that stand apart, and no such key is refused.
-/

import Strongbox.Proofs.Storage.Directory

namespace Strongbox.Directory

open FileTree (Plain node?)

variable {here base extra : List String} {root : FilePath} {first t : FileTree} {keys : String → Prop} {m : Memory}

/-! ## Reading -/

/-- What a get makes of reading a file. -/
theorem get_read (key : String) (t : FileTree) : Directory.get (FileTree.fileSystem here) root key t =
    (match t.locate here (root.append (valuePath key)) >>= t.read with
      | .ok value => .ok (some value)
      | .error .notFound => .ok none
      | .error e => .error e, t) := by
  have hread : (FileTree.fileSystem here).read (root.append (valuePath key)) t =
      (t.locate here (root.append (valuePath key)) >>= t.read, t) := rfl
  unfold Directory.get
  show StateT.bind ((FileTree.fileSystem here).read (root.append (valuePath key))) _ t = _
  rw [StateT.bind, hread]
  cases t.locate here (root.append (valuePath key)) >>= t.read with
  | ok value => rfl
  | error e => cases e <;> rfl

theorem get_eq {key : String} (h : Holds base first keys m [] t) (hroot : Vacant here root base first)
    (hclear : Passable m (place key).1) (hfree : Unoccupied m (valuePath key)) (hlegal : Legal root (valuePath key)) :
    Directory.get (FileTree.fileSystem here) root key t = (.ok m[key]?, t) := by
  have hvalue := h.value hfree (by simp [valuePath])
  have hread : (t.locate here (root.append (valuePath key)) >>= t.read) = t.read (base ++ valuePath key) :=
    h.locate_bind hroot hclear hlegal fun hnone => by rw [FileTree.read, hnone]
  rw [get_read, hread, FileTree.read, hvalue]
  cases m[key]? <;> rfl

/-! ## Making directories -/

section Making

variable {way : List String} {name : String}

theorem makeDirectory_eq_change (here : List String) (root : FilePath) (hnames : ∀ part ∈ way, KeyPath.isName part) (t : FileTree) :
    (FileTree.fileSystem here).makeDirectory (root.append way) t =
      FileTree.change (fun t => t.locate here (root.append way) >>= t.makeDirectory) t := by
  have hmaking : FileTree.makingPath (root.append way) = root.append way := by
    rw [FileTree.makingPath, FilePath.trimmedParts_append, ite_self]
    rintro part hpart rfl
    exact absurd (hnames "" hpart) (by decide)
  show FileTree.change (fun t => t.locate here (FileTree.makingPath (root.append way)) >>= t.makeDirectory) t = _
  rw [hmaking]

/-- A directory that is there is not made again. -/
theorem makeDirectory_there {path : FilePath} {target : List String} (hlocated : t.locate here path = .ok target)
    (hmake : (FileTree.fileSystem here).makeDirectory path t = FileTree.change (fun t => t.locate here path >>= t.makeDirectory) t)
    (hnode : t.node? target = some .directory) : (FileTree.fileSystem here).makeDirectory path t = (.error .alreadyExists, t) ∧
      (FileTree.fileSystem here).isDirectory path t = (true, t) := by
  constructor
  · rw [hmake]
    refine FileTree.change_error ?_
    rw [hlocated]
    show t.makeDirectory target = _
    rw [FileTree.makeDirectory, hnode]
  · show (decide ((t.locate here path).toOption.bind t.node? = some .directory), t) = (true, t)
    rw [hlocated]
    simp [Except.toOption, hnode]

/-- A directory whose directory is there is made, unless it is there already. -/
theorem makeDirectory_eq (h : Holds base first keys m way t) (hroot : Vacant here root base first)
    (hclear : Passable m (way ++ [name])) (hlegal : Legal root (way ++ [name])) :
    ∃ t', Holds base first keys m (way ++ [name]) t' ∧
      ((FileTree.fileSystem here).makeDirectory (root.append (way ++ [name])) t = (.ok (), t') ∨
        t' = t ∧ (FileTree.fileSystem here).makeDirectory (root.append (way ++ [name])) t = (.error .alreadyExists, t) ∧
          (FileTree.fileSystem here).isDirectory (root.append (way ++ [name])) t = (true, t)) := by
  have hway : t.node? (base ++ way) = some .directory := (h.directory way).mpr (.inl (List.prefix_refl _))
  have hmake := makeDirectory_eq_change here root (fun part hpart => (hlegal.plain part hpart).isName) t
  have hlocated : t.locate here (root.append (way ++ [name])) = .ok (base ++ (way ++ [name])) := by
    rcases h.locate hroot (hclear.above (List.prefix_append _ _)) hlegal with ⟨hlocated, _⟩ | ⟨_, hnone, _⟩
    · exact hlocated
    · rw [hway] at hnone
      cases hnone
  cases hnode : t.node? (base ++ (way ++ [name])) with
  | none =>
    refine ⟨_, h.make hnode, .inl ?_⟩
    rw [hmake]
    refine FileTree.change_ok ?_
    rw [hlocated]
    show t.makeDirectory (base ++ (way ++ [name])) = _
    rw [FileTree.makeDirectory, hnode]
  | some node =>
    cases node with
    | file content => exact absurd hnode (h.no_file hclear (List.prefix_refl _) content)
    | directory => exact ⟨t, h.widen (List.prefix_append _ _) hnode, .inr ⟨rfl, makeDirectory_there hlocated hmake hnode⟩⟩

/-- A directory whose directory is missing is not made. -/
theorem makeDirectory_missing (h : Holds base first keys m extra t) (hroot : Vacant here root base first)
    (hclear : Passable m way) (hlegal : Legal root (way ++ [name])) (hnone : t.node? (base ++ way) = none) :
    (FileTree.fileSystem here).makeDirectory (root.append (way ++ [name])) t = (.error .notFound, t) := by
  rw [makeDirectory_eq_change here root fun part hpart => (hlegal.plain part hpart).isName]
  refine FileTree.change_error ?_
  rcases h.locate hroot hclear hlegal with ⟨_, hnode⟩ | ⟨hmissing, _⟩
  · rw [hnone] at hnode
    cases hnode
  · rw [hmissing]
    rfl

section Steps

variable {σ : Type} {fs : FileSystem (StateM σ)} {p : FilePath} {s s' : σ} {e : OsError} {there : Bool}

theorem makeDirectories_made (depth : Nat) (hempty : p.isEmpty = false) (hmade : fs.makeDirectory p s = (.ok (), s')) :
    fs.makeDirectories (depth + 1) p s = (.ok (), s') := by
  simp only [FileSystem.makeDirectories, hempty, Bool.false_eq_true, if_false, bind, StateT.bind, hmade]
  rfl

/-- A directory that could not be made may be there already. -/
theorem makeDirectories_refused (depth : Nat) (hempty : p.isEmpty = false) (hmade : fs.makeDirectory p s = (.error e, s))
    (he : e ≠ .notFound) (hthere : fs.isDirectory p s = (there, s)) :
    fs.makeDirectories (depth + 1) p s = (if there then .ok () else .error e, s) := by
  cases e with
  | notFound => exact absurd rfl he
  | _ =>
    simp only [FileSystem.makeDirectories, hempty, Bool.false_eq_true, if_false, bind, StateT.bind, hmade, hthere]
    cases there <;> rfl

theorem makeDirectories_above_refused {depth : Nat} (hempty : p.isEmpty = false) (hmissing : fs.makeDirectory p s = (.error .notFound, s))
    (habove : fs.makeDirectories depth p.parent s = (.error e, s')) : fs.makeDirectories (depth + 1) p s = (.error e, s') := by
  simp only [FileSystem.makeDirectories, hempty, Bool.false_eq_true, if_false, bind, StateT.bind, hmissing, habove]
  rfl

/-- Once the directories above are made, a directory that was missing one is made like any other. -/
theorem makeDirectories_again {depth : Nat} (hempty : p.isEmpty = false) (hmissing : fs.makeDirectory p s = (.error .notFound, s))
    (habove : fs.makeDirectories depth p.parent s = (.ok (), s')) (hfound : (fs.makeDirectory p s').1 ≠ .error .notFound) :
    fs.makeDirectories (depth + 1) p s = fs.makeDirectories (depth + 1) p s' := by
  simp only [FileSystem.makeDirectories, hempty, Bool.false_eq_true, if_false, bind, StateT.bind, hmissing, habove]
  rcases hmade : fs.makeDirectory p s' with ⟨made, s''⟩
  rw [hmade] at hfound
  cases made with
  | ok => rfl
  | error e =>
    cases e with
    | notFound => exact absurd rfl hfound
    | _ => rfl

end Steps

/-- The root is there, and nothing is made. -/
theorem makeDirectories_root (hroot : Rooted here root base t) (depth : Nat) :
    (FileTree.fileSystem here).makeDirectories (depth + 1) (root.append []) t = (.ok (), t) := by
  obtain ⟨hmake, hthere⟩ := makeDirectory_there hroot.locate_root (makeDirectory_eq_change here root (by simp) t) hroot.directory
  simp only [FileSystem.makeDirectories, hroot.isEmpty_append [], Bool.false_eq_true, if_false, bind, StateT.bind, hmake, hthere, if_true]
  rfl

/-- Below a directory that is there the next one is made at once. -/
theorem makeDirectories_below (h : Holds base first keys m way t) (hroot : Vacant here root base first)
    (hclear : Passable m (way ++ [name])) (hlegal : Legal root (way ++ [name])) (depth : Nat) :
    ∃ t', (FileTree.fileSystem here).makeDirectories (depth + 1) (root.append (way ++ [name])) t = (.ok (), t') ∧
      Holds base first keys m (way ++ [name]) t' ∧
        ((FileTree.fileSystem here).makeDirectory (root.append (way ++ [name])) t).1 ≠ .error .notFound := by
  have hne := (h.rooted hroot).isEmpty_append (way ++ [name])
  obtain ⟨t', hholds, hmade | ⟨rfl, hmade, hthere⟩⟩ := makeDirectory_eq h hroot hclear hlegal
  · refine ⟨t', makeDirectories_made depth hne hmade, hholds, ?_⟩
    rw [hmade]
    rintro ⟨⟩
  · refine ⟨t', makeDirectories_refused depth hne hmade (by rintro ⟨⟩) hthere, hholds, ?_⟩
    rw [hmade]
    rintro ⟨⟩

/-- A directory is made with all those above it. -/
theorem makeDirectories_eq (h : Holds base first keys m [] t) (hroot : Vacant here root base first)
    (hclear : Passable m way) (hlegal : Legal root way) {depth : Nat} (hdepth : way.length < depth) :
    ∃ t', (FileTree.fileSystem here).makeDirectories depth (root.append way) t = (.ok (), t') ∧
      Holds base first keys m way t' := by
  induction depth generalizing way with
  | zero => omega
  | succ depth ih =>
    rcases List.eq_nil_or_concat way with rfl | ⟨above, name, hway⟩
    · exact ⟨t, makeDirectories_root (h.rooted hroot) depth, h⟩
    · rw [List.concat_eq_append] at hway
      subst hway
      rw [List.length_append, List.length_singleton] at hdepth
      have hclearabove : Passable m above := hclear.above (List.prefix_append _ _)
      cases hnode : t.node? (base ++ above) with
      | some node =>
        cases node with
        | file content => exact absurd hnode (h.no_file hclearabove (List.prefix_refl _) content)
        | directory =>
          obtain ⟨t', hmade, hholds, _⟩ := makeDirectories_below (h.widen List.nil_prefix hnode) hroot hclear hlegal depth
          exact ⟨t', hmade, hholds⟩
      | none =>
        have hne := (h.rooted hroot).isEmpty_append (above ++ [name])
        have hmissing := makeDirectory_missing h hroot hclearabove hlegal hnode
        obtain ⟨t₁, habove, hholds₁⟩ := ih hclearabove hlegal.above (by omega)
        rw [← FilePath.parent_append (hlegal.plain name (by simp)).isName] at habove
        obtain ⟨t', hmade, hholds, hfound⟩ := makeDirectories_below hholds₁ hroot hclear hlegal depth
        exact ⟨t', (makeDirectories_again hne hmissing habove hfound).trans hmade, hholds⟩

end Making

/-! ## Writing -/

section Writing

variable {key : String}

/-- Where a value can be written to first, it can be moved to its file. -/
theorem legal_valuePath (h : Legal root (temporaryPath key)) : Legal root (valuePath key) where
  plain part hpart := by
    rcases List.mem_append.mp hpart with hpart | hpart
    · exact h.plain part (List.mem_append_left _ hpart)
    · obtain ⟨_, hnul, hsize⟩ := h.plain (temporaryName (place key).2) (by simp [temporaryPath])
      rw [List.mem_singleton.mp hpart]
      refine ⟨isName_valueName _, ?_, ?_⟩
      · intro hmem
        rw [temporaryName] at hnul
        simp [hmem] at hnul
      · rw [utf8ByteSize_temporaryName] at hsize
        rw [utf8ByteSize_valueName]
        omega
  fits := Nat.le_trans (root.utf8ByteSize_append_concat_le _
    (by rw [utf8ByteSize_valueName, utf8ByteSize_temporaryName]; omega)) h.fits

/-- Nothing is where a value is first written to. -/
theorem Holds.temporary (h : Holds base first keys m (place key).1 t) (hfree : Unoccupied m (temporaryPath key)) :
    t.node? (base ++ temporaryPath key) = none := by
  cases hnode : t.node? (base ++ temporaryPath key) with
  | none => rfl
  | some node =>
    cases node with
    | file content =>
      obtain ⟨other, _, hpath⟩ := (h.file _ _).mp hnode
      exact absurd hpath.symm (valuePath_ne_temporaryPath other key)
    | directory =>
      rcases (h.directory _).mp hnode with hpre | ⟨other, hother, hpre⟩
      · exact absurd hpre concat_not_prefix
      · exact absurd hpre (hfree other hother)

/-- The value is first written under another name. -/
theorem write_temporary (h : Holds base first keys m (place key).1 t) (hroot : Vacant here root base first)
    (hfree : Unoccupied m (temporaryPath key)) (hlegal : Legal root (temporaryPath key)) (value : Bytes) :
    (FileTree.fileSystem here).write (root.append (temporaryPath key)) value t =
      (.ok (), t.insert (base ++ temporaryPath key) (.file value)) := by
  have hlocated : t.locate here (root.append (temporaryPath key)) = .ok (base ++ temporaryPath key) :=
    (h.rooted hroot).locate_of_paved h.paved hlegal
  show FileTree.change (fun t => t.locate here (root.append (temporaryPath key)) >>= fun path => t.write path value) t = _
  refine FileTree.change_ok ?_
  rw [hlocated]
  show t.write (base ++ temporaryPath key) value = _
  rw [FileTree.write, h.temporary hfree]

/-- What a put has done when it closes the first file: the value is in it, where it was no directory. -/
structure Drafted (here : List String) (root : FilePath) (base : List String) (key : String) (value : Bytes) (t u : FileTree) : Prop where
  rooted : Rooted here root base t
  paved : Paved base (place key).1 t
  legal : Legal root (temporaryPath key)
  free : t.node? (base ++ temporaryPath key) ≠ some .directory
  eq : u = t.insert (base ++ temporaryPath key) (.file value)

namespace Drafted

variable {value : Bytes} {u : FileTree}

theorem node? (h : Drafted here root base key value t u) (below : List String) :
    u.node? (base ++ below) = if below = temporaryPath key then some (.file value) else t.node? (base ++ below) :=
  h.eq ▸ FileTree.node?_insert_below t base (temporaryPath_ne_nil key) _ below

/-- All directories are still there, so the files of the key are where they were. -/
theorem locate (h : Drafted here root base key value t u) :
    u.locate here (root.append (temporaryPath key)) = .ok (base ++ temporaryPath key) ∧
      u.locate here (root.append (valuePath key)) = .ok (base ++ valuePath key) := by
  have hkept : ∀ path, t.node? path = some .directory → u.node? path = some .directory := by
    intro path hpath
    rw [h.eq, FileTree.node?_insert _ (List.append_ne_nil_of_right_ne_nil base (temporaryPath_ne_nil key)), if_neg]
    · exact hpath
    · rintro rfl
      exact h.free hpath
  have hrooted := h.rooted.mono hkept
  have hpaved : Paved base (place key).1 u := fun upper hover => hkept _ (h.paved upper hover)
  exact ⟨hrooted.locate_of_paved hpaved h.legal, hrooted.locate_of_paved hpaved (legal_valuePath h.legal)⟩

/-- The first file can be closed to others. -/
theorem protect (h : Drafted here root base key value t u) :
    (FileTree.fileSystem here).protect false (root.append (temporaryPath key)) u = (.ok (), u) := by
  show (u.locate here (root.append (temporaryPath key)) >>= u.found, u) = _
  rw [h.locate.1]
  show (u.found (base ++ temporaryPath key), u) = _
  rw [FileTree.found, h.node?, if_pos rfl]
  rfl

/-- It is moved over a file or to where nothing is, not over a directory. -/
theorem rename (h : Drafted here root base key value t u) :
    (FileTree.fileSystem here).rename (root.append (temporaryPath key)) (root.append (valuePath key)) u =
      if t.node? (base ++ valuePath key) = some .directory then (.error .isDirectory, u)
      else (.ok (), (u.erase (base ++ temporaryPath key)).insert (base ++ valuePath key) (.file value)) := by
  have hrename : (u.locate here (root.append (temporaryPath key)) >>= fun source =>
      u.locate here (root.append (valuePath key)) >>= fun target => u.rename source target) =
      u.rename (base ++ temporaryPath key) (base ++ valuePath key) := by
    rw [h.locate.1, h.locate.2]
    rfl
  rw [FileTree.rename, h.node?, h.node?, if_pos rfl, if_neg (valuePath_ne_temporaryPath key key)] at hrename
  show FileTree.change (fun t => t.locate here (root.append (temporaryPath key)) >>= fun source =>
    t.locate here (root.append (valuePath key)) >>= fun target => t.rename source target) u = _
  cases hnode : t.node? (base ++ valuePath key) with
  | none =>
    rw [hnode] at hrename
    exact FileTree.change_ok hrename
  | some node =>
    rw [hnode] at hrename
    cases node with
    | file content => exact FileTree.change_ok hrename
    | directory => exact FileTree.change_error hrename

end Drafted

/-- Then it takes the place of the value before. -/
theorem rename_temporary (h : Holds base first keys m (place key).1 t) (hroot : Vacant here root base first) (hkey : keys key)
    (hfree : Unoccupied m (valuePath key)) (htemporary : Unoccupied m (temporaryPath key))
    (hlegal : Legal root (temporaryPath key)) (value : Bytes) :
    let u := t.insert (base ++ temporaryPath key) (.file value)
    Drafted here root base key value t u ∧
      ∃ t', (FileTree.fileSystem here).rename (root.append (temporaryPath key)) (root.append (valuePath key)) u = (.ok (), t') ∧
        Holds base first keys (m.insert key value) [] t' := by
  intro u
  have hnone := h.temporary htemporary
  have hdrafted : Drafted here root base key value t u :=
    ⟨h.rooted hroot, h.paved, hlegal, by rw [hnone]; exact nofun, rfl⟩
  have hvalue : t.node? (base ++ valuePath key) ≠ some .directory := by
    rw [h.value hfree concat_not_prefix]
    cases m[key]? <;> exact nofun
  have hrenamed := hdrafted.rename
  rw [if_neg hvalue] at hrenamed
  refine ⟨hdrafted, _, hrenamed, (h.congr fun path => ?_).put value hfree hkey⟩
  rw [FileTree.node?_erase _ (by simp [temporaryPath]), FileTree.node?_insert _ (by simp [temporaryPath])]
  by_cases hpath : path = base ++ temporaryPath key
  · rw [if_pos hpath, hpath, hnone]
  · rw [if_neg hpath, if_neg hpath]

section Steps

variable {σ : Type} {fs : FileSystem (StateM σ)} {p : FilePath} {s s' : σ} {result : Except OsError Unit}

/-- What does not fail because something is missing is not tried again. -/
theorem retried_of_found {attempt : StateM σ (Except OsError Unit)} (again : Nat) (h : attempt s = (result, s'))
    (hfound : result ≠ .error .notFound) : retried attempt again s = (result, s') := by
  cases again with
  | zero => exact h
  | succ again =>
    unfold retried
    show StateT.bind attempt _ s = _
    rw [StateT.bind, h]
    cases result with
    | ok => rfl
    | error e =>
      cases e with
      | notFound => exact absurd rfl hfound
      | _ => rfl

/-- The directory of a file is made, or not, like any other. -/
theorem makeWay_eq {there : Bool} (hpresent : fs.present p s = (there, s)) (hmade : fs.ensureDirectory p s = (result, s'))
    (hclosed : result = .ok () → fs.protect true p s' = (.ok (), s')) : makeWay fs p s = (result, s') := by
  have hway : makeWay fs p s = (if there then fs.ensureDirectory p else makePrivate fs p) s := by
    unfold makeWay
    show StateT.bind (fs.present p) _ s = _
    rw [StateT.bind, hpresent]
    rfl
  rw [hway]
  cases there with
  | true => exact hmade
  | false =>
    show makePrivate fs p s = _
    unfold makePrivate
    show StateT.bind (fs.ensureDirectory p) _ s = _
    rw [StateT.bind, hmade]
    cases result with
    | error e => rfl
    | ok => exact hclosed rfl

end Steps

section Put

variable {value : Bytes} {u : FileTree} {result : Except OsError Unit}

/-- A directory below the root that is there can be closed to others. -/
theorem protect_paved {way : List String} (hroot : Rooted here root base t) (hpaved : Paved base way t) (hlegal : Legal root way) :
    (FileTree.fileSystem here).protect true (root.append way) t = (.ok (), t) := by
  show (t.locate here (root.append way) >>= t.found, t) = _
  rw [hroot.locate_way hpaved hlegal]
  show (t.found (base ++ way), t) = _
  rw [FileTree.found, hpaved way (List.prefix_refl way)]
  rfl

/-- A put ends with the first step that fails. -/
theorem put_of_unmade {e : OsError} (hmade : (FileTree.fileSystem here).ensureDirectory (root.append (place key).1) t = (.error e, u))
    (hfound : e ≠ .notFound) : Directory.put (FileTree.fileSystem here) root key value t = (.error e, u) := by
  refine retried_of_found _ ?_ fun h => hfound (Except.error.inj h)
  unfold writeAtomic
  show StateT.bind (makeWay (FileTree.fileSystem here) (root.append (place key).1)) _ t = _
  rw [StateT.bind, makeWay_eq rfl hmade nofun]
  rfl

theorem put_of_unwritten {u' : FileTree} {e : OsError}
    (hmade : (FileTree.fileSystem here).ensureDirectory (root.append (place key).1) t = (.ok (), u))
    (hclosed : (FileTree.fileSystem here).protect true (root.append (place key).1) u = (.ok (), u))
    (hwritten : (FileTree.fileSystem here).write (root.append (temporaryPath key)) value u = (.error e, u')) (hfound : e ≠ .notFound) :
    Directory.put (FileTree.fileSystem here) root key value t = (.error e, u') := by
  refine retried_of_found _ ?_ fun h => hfound (Except.error.inj h)
  unfold writeAtomic
  show StateT.bind (makeWay (FileTree.fileSystem here) (root.append (place key).1)) _ t = _
  rw [StateT.bind, makeWay_eq rfl hmade fun _ => hclosed]
  show StateT.bind ((FileTree.fileSystem here).write (root.append (temporaryPath key)) value) _ u = _
  rw [StateT.bind, hwritten]
  rfl

/-- A put ends with moving what it wrote. -/
theorem put_of_written {written t' : FileTree}
    (hmade : (FileTree.fileSystem here).ensureDirectory (root.append (place key).1) t = (.ok (), u))
    (hclosed : (FileTree.fileSystem here).protect true (root.append (place key).1) u = (.ok (), u))
    (hwritten : (FileTree.fileSystem here).write (root.append (temporaryPath key)) value u = (.ok (), written))
    (hdrafted : Drafted here root base key value u written)
    (hrenamed : (FileTree.fileSystem here).rename (root.append (temporaryPath key)) (root.append (valuePath key)) written = (result, t'))
    (hfound : result ≠ .error .notFound) : Directory.put (FileTree.fileSystem here) root key value t = (result, t') := by
  refine retried_of_found _ ?_ hfound
  unfold writeAtomic
  show StateT.bind (makeWay (FileTree.fileSystem here) (root.append (place key).1)) _ t = _
  rw [StateT.bind, makeWay_eq rfl hmade fun _ => hclosed]
  show StateT.bind ((FileTree.fileSystem here).write (root.append (temporaryPath key)) value) _ u = _
  rw [StateT.bind, hwritten]
  show StateT.bind ((FileTree.fileSystem here).protect false (root.append (temporaryPath key))) _ written = _
  rw [StateT.bind, hdrafted.protect]
  exact hrenamed

end Put

theorem put_eq (h : Holds base first keys m [] t) (hroot : Vacant here root base first) (hkey : keys key)
    (hclear : Passable m (place key).1) (hfree : Unoccupied m (valuePath key)) (htemporary : Unoccupied m (temporaryPath key))
    (hlegal : Legal root (temporaryPath key)) (value : Bytes) :
    ∃ t', Directory.put (FileTree.fileSystem here) root key value t = (.ok (), t') ∧
      Holds base first keys (m.insert key value) [] t' := by
  obtain ⟨t₁, hmade, h₁⟩ := makeDirectories_eq h hroot hclear hlegal.above
    (show (place key).1.length < (root.append (place key).1).parts.length + 2 by simp [FilePath.append]; omega)
  have hclosed := protect_paved (h₁.rooted hroot) h₁.paved hlegal.above
  obtain ⟨hdrafted, t', hrenamed, hholds⟩ := rename_temporary h₁ hroot hkey hfree htemporary hlegal value
  exact ⟨t', put_of_written hmade hclosed (write_temporary h₁ hroot htemporary hlegal value) hdrafted hrenamed (by rintro ⟨⟩), hholds⟩

end Writing

/-! ## Deleting -/

section Deleting

variable {key : String} {way : List String}

/-- The first directory that cannot be removed ends a prune. -/
theorem prune_stays {name : String} {above : List String} {e : OsError}
    (h : (t.locate here (root.append (above.reverse ++ [name])) >>= t.removeDirectory) = .error e) :
    Directory.prune (FileTree.fileSystem here) root (name :: above) t = ((), t) := by
  have hstays : (FileTree.fileSystem here).removeDirectory (root.append (above.reverse ++ [name])) t = (.error e, t) :=
    FileTree.change_error (f := fun t => t.locate here (root.append (above.reverse ++ [name])) >>= t.removeDirectory) h
  unfold Directory.prune
  rw [List.reverse_cons]
  show StateT.bind ((FileTree.fileSystem here).removeDirectory (root.append (above.reverse ++ [name]))) _ t = _
  rw [StateT.bind, hstays]
  rfl

theorem prune_gone {name : String} {above : List String} {u : FileTree}
    (h : (t.locate here (root.append (above.reverse ++ [name])) >>= t.removeDirectory) = .ok u) :
    Directory.prune (FileTree.fileSystem here) root (name :: above) t = Directory.prune (FileTree.fileSystem here) root above u := by
  have hgone : (FileTree.fileSystem here).removeDirectory (root.append (above.reverse ++ [name])) t = (.ok (), u) :=
    FileTree.change_ok (f := fun t => t.locate here (root.append (above.reverse ++ [name])) >>= t.removeDirectory) h
  conv => lhs; unfold Directory.prune
  rw [List.reverse_cons]
  show StateT.bind ((FileTree.fileSystem here).removeDirectory (root.append (above.reverse ++ [name]))) _ t = _
  rw [StateT.bind, hgone]
  rfl

/-- A delete that finds no file has nothing to do, and one that cannot remove it fails. -/
theorem delete_unremoved {e : OsError} (h : (t.locate here (root.append (valuePath key)) >>= t.removeFile) = .error e) :
    Directory.delete (FileTree.fileSystem here) root key t = (if e = .notFound then .ok () else .error e, t) := by
  have hremoved : (FileTree.fileSystem here).removeFile (root.append (valuePath key)) t = (.error e, t) :=
    FileTree.change_error (f := fun t => t.locate here (root.append (valuePath key)) >>= t.removeFile) h
  unfold Directory.delete
  show StateT.bind ((FileTree.fileSystem here).removeFile (root.append (valuePath key))) _ t = _
  rw [StateT.bind, hremoved]
  cases e <;> rfl

/-- A delete that removed the file goes on with its directories. -/
theorem delete_removed {u : FileTree} (h : (t.locate here (root.append (valuePath key)) >>= t.removeFile) = .ok u) :
    Directory.delete (FileTree.fileSystem here) root key t =
      (.ok (), (Directory.prune (FileTree.fileSystem here) root (place key).1.reverse u).2) := by
  have hremoved : (FileTree.fileSystem here).removeFile (root.append (valuePath key)) t = (.ok (), u) :=
    FileTree.change_ok (f := fun t => t.locate here (root.append (valuePath key)) >>= t.removeFile) h
  unfold Directory.delete
  show StateT.bind ((FileTree.fileSystem here).removeFile (root.append (valuePath key))) _ t = _
  rw [StateT.bind, hremoved]
  rfl

/-- Extra directories are removed as far as nothing is in them. -/
theorem prune_eq {segments : List String} (h : Holds base first keys m segments.reverse t) (hroot : Vacant here root base first)
    (hlegal : Legal root segments.reverse) :
    ∃ t', Directory.prune (FileTree.fileSystem here) root segments t = ((), t') ∧ Holds base first keys m [] t' := by
  induction segments generalizing t with
  | nil => exact ⟨t, rfl, h⟩
  | cons name above ih =>
    rw [List.reverse_cons] at h hlegal
    have hpaved : Paved base above.reverse t := fun upper hover => h.paved upper (hover.trans (List.prefix_append _ _))
    have hlocated := (h.rooted hroot).locate_of_paved hpaved hlegal
    have hnode := (h.directory (above.reverse ++ [name])).mpr (.inl (List.prefix_refl _))
    have hremove (result : Except OsError FileTree) (hresult : t.removeDirectory (base ++ (above.reverse ++ [name])) = result) :
        (t.locate here (root.append (above.reverse ++ [name])) >>= t.removeDirectory) = result := by
      rw [hlocated]
      exact hresult
    have hne : base ++ (above.reverse ++ [name]) ≠ [] := by simp
    by_cases hempty : t.children (base ++ (above.reverse ++ [name])) = []
    · have hgone := hremove (.ok (t.erase (base ++ (above.reverse ++ [name])))) (by
        rw [FileTree.removeDirectory, hnode]
        simp only [hne, hempty, ne_eq, not_true_eq_false, or_self, if_false])
      obtain ⟨t', hpruned, hholds⟩ := ih (h.remove hempty) hlegal.above
      exact ⟨t', (prune_gone hgone).trans hpruned, hholds⟩
    · have hstays := hremove (.error .notEmpty) (by
        rw [FileTree.removeDirectory, hnode]
        simp only [hempty, ne_eq, not_false_eq_true, or_true, if_true])
      obtain ⟨key, hkey, hpre⟩ := (h.children_ne_nil (List.prefix_refl _)).mp hempty
      exact ⟨t, prune_stays hstays, h.narrow hkey hpre⟩

theorem delete_eq (h : Holds base first keys m [] t) (hroot : Vacant here root base first) (hclear : Passable m (place key).1)
    (hfree : Unoccupied m (valuePath key)) (hlegal : Legal root (valuePath key)) :
    ∃ t', Directory.delete (FileTree.fileSystem here) root key t = (.ok (), t') ∧ Holds base first keys (m.erase key) [] t' := by
  have hvalue := h.value hfree (by simp [valuePath])
  have hlocated : (t.locate here (root.append (valuePath key)) >>= t.removeFile) = t.removeFile (base ++ valuePath key) := by
    refine h.locate_bind hroot hclear hlegal ?_
    intro hnone
    rw [FileTree.removeFile, hnone]
  cases hstored : m[key]? with
  | none =>
    have hmissing : (t.locate here (root.append (valuePath key)) >>= t.removeFile) = .error .notFound := by
      rw [hlocated, FileTree.removeFile, hvalue, hstored]
      rfl
    have hsame : m.erase key = m := by
      refine Std.ExtTreeMap.ext_getElem? fun other => ?_
      by_cases heq : other = key
      · rw [heq, Std.ExtTreeMap.getElem?_erase_self, hstored]
      · exact Memory.getElem?_erase_of_ne m heq
    exact ⟨t, delete_unremoved hmissing, by rw [hsame]; exact h⟩
  | some value =>
    have hgone : (t.locate here (root.append (valuePath key)) >>= t.removeFile) = .ok (t.erase (base ++ valuePath key)) := by
      rw [hlocated, FileTree.removeFile, hvalue, hstored]
      rfl
    have herased := h.erase hstored
    rw [← List.reverse_reverse (place key).1] at herased
    obtain ⟨t', hpruned, hholds⟩ := prune_eq herased hroot (by
      rw [List.reverse_reverse]
      exact hlegal.above)
    exact ⟨t', by rw [delete_removed hgone, hpruned], hholds⟩

end Deleting

/-! ## Listing -/

section Listing

variable {text : String} {way : List String}

/-- What a listing of a map names, by the segments of the keys. -/
theorem mem_childNames_iff (hbelow : ∀ relative, KeyPath.segments (text ++ relative) = way ++ KeyPath.segments relative)
    (hnames : ∀ key : String, m[key]? ≠ none → "" ∉ KeyPath.segments key) {name : String} :
    name ∈ childNames text m.keys ↔
      (∃ key, m[key]? ≠ none ∧ place key = (way, name)) ∨
        ∃ next key, name = next ++ "/" ∧ m[key]? ≠ none ∧ way ++ [next] <+: (place key).1 := by
  have hstored {key : String} : key ∈ m.keys ↔ m[key]? ≠ none := by
    rw [Std.ExtTreeMap.mem_keys, ← Std.ExtTreeMap.isSome_getElem?_iff_mem, Option.isSome_iff_ne_none]
  have hflat_segments {text : String} (h : '/' ∉ text.toList) : KeyPath.segments text = [text] := Text.pieces_of_not_mem '/' h
  rw [mem_childNames]
  constructor
  · rintro ⟨relative, hkey, hfirst⟩
    have hsegments := hbelow relative
    cases hfirst with
    | leaf _ hflat =>
      rw [hflat_segments hflat] at hsegments
      exact .inl ⟨_, hstored.mp hkey, place_eq hsegments⟩
    | @directory next hflat rest =>
      refine .inr ⟨next, _, rfl, hstored.mp hkey, ?_⟩
      rw [KeyRing.segments_append next rest, segments_eq rest, hflat_segments hflat, ← List.append_assoc, ← List.append_assoc] at hsegments
      rw [place_eq hsegments]
      exact List.prefix_append _ _
  · rintro (⟨key, hkey, hplace⟩ | ⟨next, key, rfl, hkey, more, hmore⟩)
    · have hsegments := segments_eq key
      rw [hplace] at hsegments
      have hname : name ∈ KeyPath.segments key := hsegments ▸ List.mem_append_right _ (List.mem_singleton_self _)
      have hflat : '/' ∉ name.toList := Text.not_mem_of_mem_pieces '/' hname
      have hne : name ≠ "" := by
        rintro rfl
        exact hnames key hkey hname
      refine ⟨name, ?_, .leaf hne hflat⟩
      have heq : text ++ name = key := KeyRing.segments_injective (by rw [hbelow, hflat_segments hflat, hsegments])
      rw [heq]
      exact hstored.mpr hkey
    · have hsegments := segments_eq key
      rw [← hmore, List.append_assoc, List.append_assoc] at hsegments
      have hnext : next ∈ KeyPath.segments key := by
        rw [hsegments]
        simp
      have hflat : '/' ∉ next.toList := Text.not_mem_of_mem_pieces '/' hnext
      obtain ⟨rest, hrest⟩ : ∃ rest, KeyPath.segments rest = more ++ [(place key).2] := by
        refine KeyRing.exists_of_segments (by simp) fun part hpart => ?_
        have hmem : part ∈ KeyPath.segments key := by
          rw [hsegments]
          exact List.mem_append_right _ (List.mem_append_right _ hpart)
        exact Text.not_mem_of_mem_pieces '/' hmem
      refine ⟨next ++ "/" ++ rest, ?_, .directory hflat rest⟩
      have heq : text ++ (next ++ "/" ++ rest) = key := by
        refine KeyRing.segments_injective ?_
        rw [hbelow, KeyRing.segments_append, hflat_segments hflat, hrest, hsegments]
      rw [heq]
      exact hstored.mpr hkey

theorem listedName?_valueName (name : String) : listedName? (valueName name, false) = some name := by
  simp [listedName?, valueName]

/-- What a listing of a directory names, by the segments of the keys. -/
theorem Holds.mem_listed (h : Holds base first keys m [] t) {way : List String} {name : String} :
    name ∈ (t.children (base ++ way)).filterMap listedName? ↔
      (∃ key, m[key]? ≠ none ∧ place key = (way, name)) ∨
        ∃ next key, name = next ++ "/" ∧ m[key]? ≠ none ∧ way ++ [next] <+: (place key).1 := by
  rw [List.mem_filterMap]
  constructor
  · rintro ⟨⟨entry, isDirectory⟩, hchild, hlisted⟩
    obtain ⟨node, hnode, rfl⟩ := FileTree.mem_children.mp hchild
    rw [List.append_assoc] at hnode
    cases node with
    | file content =>
      obtain ⟨key, hkey, hpath⟩ := (h.file _ _).mp hnode
      obtain ⟨hway, hentry⟩ := List.append_inj' hpath rfl
      rw [List.singleton_inj.mp hentry] at hlisted
      refine .inl ⟨key, by rw [hkey]; exact Option.some_ne_none _, Prod.ext hway.symm ?_⟩
      exact Option.some.inj ((listedName?_valueName _).symm.trans hlisted)
    | directory =>
      rcases (h.directory _).mp hnode with hpre | ⟨key, hkey, hpre⟩
      · simp at hpre
      · exact .inr ⟨entry, key, (Option.some.inj hlisted).symm, hkey, hpre⟩
  · rintro (⟨key, hkey, hplace⟩ | ⟨next, key, rfl, hkey, hpre⟩)
    · obtain ⟨content, hcontent⟩ := Option.ne_none_iff_exists'.mp hkey
      have hnode := (h.file _ content).mpr ⟨key, hcontent, rfl⟩
      rw [valuePath, hplace, ← List.append_assoc] at hnode
      exact ⟨_, FileTree.mem_children.mpr ⟨_, hnode, rfl⟩, listedName?_valueName name⟩
    · have hnode := (h.directory _).mpr (.inr ⟨key, hkey, hpre⟩)
      rw [← List.append_assoc] at hnode
      exact ⟨_, FileTree.mem_children.mpr ⟨_, hnode, rfl⟩, rfl⟩

/-- What a listing makes of reading a directory. -/
theorem list_entries (way : List String) (t : FileTree) : Directory.list (FileTree.fileSystem here) root way t =
    (match t.locate here (root.append way) >>= t.entries with
      | .ok entries => .ok (sortedNames (entries.filterMap listedName?))
      | .error .notFound => .ok []
      | .error e => .error e, t) := by
  have hentries : (FileTree.fileSystem here).entries (root.append way) t = (t.locate here (root.append way) >>= t.entries, t) := rfl
  unfold Directory.list
  show StateT.bind ((FileTree.fileSystem here).entries (root.append way)) _ t = _
  rw [StateT.bind, hentries]
  cases t.locate here (root.append way) >>= t.entries with
  | ok entries => rfl
  | error e => cases e <;> rfl

/-- What a directory is listed as is what the map lists below it. -/
theorem list_eq (h : Holds base first keys m [] t)
    (hbelow : ∀ relative, KeyPath.segments (text ++ relative) = way ++ KeyPath.segments relative)
    (hnames : ∀ key : String, m[key]? ≠ none → "" ∉ KeyPath.segments key) (hclear : Passable m way)
    (hread : (t.locate here (root.append way) >>= t.entries) = t.entries (base ++ way)) :
    Directory.list (FileTree.fileSystem here) root way t = (.ok (childNames text m.keys), t) := by
  have hlisted : childNames text m.keys = sortedNames ((t.children (base ++ way)).filterMap listedName?) := by
    refine sortedNames_congr fun name => ?_
    rw [h.mem_listed, ← mem_childNames_iff hbelow hnames, childNames, mem_sortedNames]
  rw [list_entries, hread, hlisted, FileTree.entries]
  cases hnode : t.node? (base ++ way) with
  | some node =>
    cases node with
    | directory => rfl
    | file content => exact absurd hnode (h.no_file hclear (List.prefix_refl _) content)
  | none =>
    have hempty : t.children (base ++ way) = [] := by
      refine Decidable.byContradiction fun hne => ?_
      obtain ⟨key, hkey, hpre⟩ := (h.children_ne_nil List.nil_prefix).mp hne
      rw [(h.directory _).mpr (.inr ⟨key, hkey, hpre⟩)] at hnode
      cases hnode
    rw [hempty]
    rfl

/-- A directory below the root is read where it is, and if it is missing it is as if empty. -/
theorem Holds.entries_below (h : Holds base first keys m [] t) (hroot : Vacant here root base first) (hne : way ≠ [])
    (hclear : Passable m way) (hlegal : Legal root way) :
    (t.locate here (root.append way) >>= t.entries) = t.entries (base ++ way) := by
  obtain ⟨above, name, rfl⟩ : ∃ above name, way = above ++ [name] :=
    ⟨way.dropLast, way.getLast hne, (List.dropLast_concat_getLast hne).symm⟩
  refine h.locate_bind hroot (hclear.above (List.prefix_append _ _)) hlegal ?_
  intro hnone
  rw [FileTree.entries, hnone]

end Listing

/-! ## Opening -/

/-- A root that holds a memory is opened as it is. -/
theorem ensureRoot_eq (h : Holds base first keys m [] t) (hroot : Vacant here root base first) :
    Directory.ensureRoot (FileTree.fileSystem here) root t = (.ok (), t) := by
  have hlocated := FileTree.locate_congr hroot.located hroot.empty h.outside h.node?_base
  have hpresent : (FileTree.fileSystem here).present root t = (true, t) := by
    show (((t.locate here root).toOption.bind t.node?).isSome, t) = (true, t)
    rw [hlocated]
    simp [Except.toOption, h.node?_base]
  unfold Directory.ensureRoot
  show StateT.bind ((FileTree.fileSystem here).present root) _ t = _
  rw [StateT.bind, hpresent]
  rfl

/-! ## Calls -/

section Keys

variable {key : String}

theorem length_place (key fileName : String) : ((place key).1 ++ [fileName]).length = (KeyPath.segments key).length := by
  rw [segments_eq, List.length_append, List.length_append]
  rfl

/-- A key that is not refused has names for segments. -/
theorem keyFault?_eq_none_iff : keyFault? key = none ↔ ∀ part ∈ KeyPath.segments key, KeyPath.isName part := by
  have hempty (h : ∀ part ∈ KeyPath.segments key, KeyPath.isName part) : "" ∉ KeyPath.segments key :=
    fun hmem => absurd (h "" hmem) (by decide)
  constructor
  · intro h
    unfold keyFault? at h
    split at h
    · cases h
    · split at h
      · cases h
      · split at h
        · rename_i hall
          exact List.all_eq_true.mp hall
        · cases h
  · intro h
    have hne : key ≠ "" := by
      rintro rfl
      exact hempty h (by decide)
    rw [keyFault?, if_neg hne, if_neg (KeyPath.getLast?_of_not_mem (hempty h)), if_pos (List.all_eq_true.mpr h)]

theorem not_mem_of_accepted (h : keyFault? key = none) : "" ∉ KeyPath.segments key :=
  fun hmem => absurd (keyFault?_eq_none_iff.mp h "" hmem) (by decide)

/-- A key whose segments are names is not refused. -/
theorem keyFault?_of_plain (hplain : ∀ part ∈ KeyPath.segments key, Plain part) : keyFault? key = none :=
  keyFault?_eq_none_iff.mpr fun part hpart => (hplain part hpart).isName

theorem withoutTrailing_append (h : key.toList.getLast? ≠ some '/') : withoutTrailing (key ++ "/") = key := by
  apply String.toList_injective
  rw [withoutTrailing, String.toList_ofList, String.toList_append, List.reverse_append]
  show (('/' :: key.toList.reverse).dropWhile (· = '/')).reverse = key.toList
  rw [List.dropWhile_cons_of_pos (by simp)]
  cases hreverse : key.toList.reverse with
  | nil => rw [List.reverse_eq_nil_iff.mp hreverse]; rfl
  | cons last more =>
    have hlast : last ≠ '/' := by
      rintro rfl
      rw [← List.head?_reverse, hreverse] at h
      exact h rfl
    rw [List.dropWhile_cons_of_neg (by simpa using hlast), ← hreverse, List.reverse_reverse]

theorem withoutTrailing_of_accepted (h : keyFault? key = none) : withoutTrailing (key ++ "/") = key :=
  withoutTrailing_append (KeyPath.getLast?_of_not_mem (not_mem_of_accepted h))

theorem checked_eq {σ α : Type} (hkey : keyFault? key = none) (go : StateM σ (Except OsError α)) (s : σ) :
    checked key go s = ((go s).1.mapError .io, (go s).2) := by
  rw [checked, hkey]
  rfl

/-- A key that is refused is looked at no further. -/
theorem checked_refused {σ α : Type} {fault : KeyFault} (hkey : keyFault? key = some fault) (go : StateM σ (Except OsError α))
    (s : σ) : checked key go s = (.error (.invalidKey key fault), s) := by
  rw [checked, hkey]
  rfl

theorem perform_list_of_ne {directory : String} (hne : directory ≠ "") : Directory.perform (FileTree.fileSystem here) root (.list directory) =
    checked (withoutTrailing directory)
      (Directory.list (FileTree.fileSystem here) root (KeyPath.segments (withoutTrailing directory))) := by
  simp only [Directory.perform]

theorem perform_list (hkey : keyFault? key = none) (t : FileTree) :
    Directory.perform (FileTree.fileSystem here) root (.list (key ++ "/")) t =
      checked key (Directory.list (FileTree.fileSystem here) root (KeyPath.segments key)) t := by
  rw [perform_list_of_ne (by simp), withoutTrailing_of_accepted hkey]

theorem perform_listAll (t : FileTree) : Directory.perform (FileTree.fileSystem here) root (.list "") t =
    ((Directory.list (FileTree.fileSystem here) root [] t).1.mapError .io, (Directory.list (FileTree.fileSystem here) root [] t).2) := rfl

end Keys

/-- A call about a key that is accepted, with names that the file system takes, or a listing of
    everything or of a directory with such a name. -/
inductive Served (root : FilePath) : Call → Prop
  | get {key : String} (hkey : keyFault? key = none) (hlegal : Legal root (valuePath key)) : Served root (.get key)
  | put {key : String} (hkey : keyFault? key = none) (hlegal : Legal root (temporaryPath key)) (value : Bytes) :
    Served root (.put key value)
  | delete {key : String} (hkey : keyFault? key = none) (hlegal : Legal root (valuePath key)) : Served root (.delete key)
  | listAll : Served root (.list "")
  | list {key : String} (hkey : keyFault? key = none) (hlegal : Legal root (KeyPath.segments key)) : Served root (.list (key ++ "/"))

/-- The directory that a listing is about. -/
def listedWay (directory : String) : List String := if directory = "" then [] else KeyPath.segments (withoutTrailing directory)

theorem listedWay_append {key : String} (hkey : keyFault? key = none) : listedWay (key ++ "/") = KeyPath.segments key := by
  rw [listedWay, if_neg (by simp), withoutTrailing_of_accepted hkey]

/-- Nothing stored is in the way of a call: no value is where it needs a directory, and no directory
    where it needs a file. -/
def Clear (m : Memory) : Call → Prop
  | .get key => Passable m (place key).1 ∧ Unoccupied m (valuePath key)
  | .put key _ => Passable m (place key).1 ∧ Unoccupied m (valuePath key) ∧ Unoccupied m (temporaryPath key)
  | .delete key => Passable m (place key).1 ∧ Unoccupied m (valuePath key)
  | .list directory => Passable m (listedWay directory)

/-- A call that nothing is in the way of is answered over the files as over the memory. -/
theorem Holds.perform {c : Call} (h : Holds base first keys m [] t) (hroot : Vacant here root base first)
    (hnames : ∀ key, keys key → keyFault? key = none) (hput : ∀ key value, c = .put key value → keys key)
    (hc : Served root c) (hclear : Clear m c) :
    ∃ t', Directory.perform (FileTree.fileSystem here) root c t = (.ok (Memory.reply c m), t') ∧
      Holds base first keys (Memory.after c m) [] t' := by
  have hstored (key : String) (hkey : m[key]? ≠ none) : "" ∉ KeyPath.segments key :=
    not_mem_of_accepted (hnames key (h.known key hkey))
  cases hc with
  | get hkey hlegal =>
    refine ⟨t, ?_, h⟩
    rw [Directory.perform, checked_eq hkey, get_eq h hroot hclear.1 hclear.2 hlegal]
    rfl
  | put hkey hlegal value =>
    obtain ⟨t', heq, hholds⟩ := put_eq h hroot (hput _ value rfl) hclear.1 hclear.2.1 hclear.2.2 hlegal value
    refine ⟨t', ?_, hholds⟩
    rw [Directory.perform, checked_eq hkey, heq]
    rfl
  | delete hkey hlegal =>
    obtain ⟨t', heq, hholds⟩ := delete_eq h hroot hclear.1 hclear.2 hlegal
    refine ⟨t', ?_, hholds⟩
    rw [Directory.perform, checked_eq hkey, heq]
    rfl
  | listAll =>
    have hread : (t.locate here (root.append []) >>= t.entries) = t.entries (base ++ []) := by
      rw [(h.rooted hroot).locate_root, List.append_nil]
      rfl
    have hbelow (relative : String) : KeyPath.segments ("" ++ relative) = [] ++ KeyPath.segments relative := by
      rw [String.empty_append, List.nil_append]
    refine ⟨t, ?_, h⟩
    rw [perform_listAll, list_eq h hbelow hstored hclear hread]
    rfl
  | @list key hkey hlegal =>
    replace hclear : Passable m (KeyPath.segments key) := listedWay_append hkey ▸ hclear
    refine ⟨t, ?_, h⟩
    rw [perform_list hkey, checked_eq hkey, list_eq h (fun relative => KeyRing.segments_append key relative) hstored hclear
      (h.entries_below hroot (Text.pieces_ne_nil '/' key) hclear hlegal)]
    rfl

/-! ## Keys that stand apart -/

/-- A call about one of these keys, or a listing of a directory that no value can be in the way of. -/
inductive Concerns (keys : String → Prop) : Call → Prop
  | get {key : String} (hkey : keys key) : Concerns keys (.get key)
  | put {key : String} (hkey : keys key) (value : Bytes) : Concerns keys (.put key value)
  | delete {key : String} (hkey : keys key) : Concerns keys (.delete key)
  | list {directory : String} (hclear : ∀ key, keys key → ¬ valuePath key <+: KeyPath.segments directory)
    (hplain : ∀ part ∈ KeyPath.segments directory, Plain part) : Concerns keys (.list (directory ++ "/"))

/-- The longest path that a call asks the file system for is not too long. -/
def Room (root : FilePath) : Call → Prop
  | .get key => Fits root (valuePath key)
  | .put key _ => Fits root (temporaryPath key)
  | .delete key => Fits root (valuePath key)
  | .list directory => Fits root (KeyPath.segments (withoutTrailing directory))

/-- There is room for a few names below a short root. -/
theorem fits_of_plain {parts : List String} (hplain : ∀ part ∈ parts, Plain part)
    (hsize : root.text.utf8ByteSize + 256 * parts.length ≤ FileTree.maxPathLength) : Fits root parts := by
  obtain ⟨n, hn⟩ := root.exists_trimmed
  have hparts : Text.separatedSize parts ≤ 256 * parts.length := by
    clear hsize
    induction parts with
    | nil => exact Nat.le_refl 0
    | cons part parts ih =>
      have hpart : part.utf8ByteSize ≤ 255 := (hplain part List.mem_cons_self).size
      have hrest := ih fun other hother => hplain other (List.mem_cons_of_mem part hother)
      rw [Text.separatedSize, List.length_cons]
      omega
  have htrimmed : Text.separatedSize root.trimmedParts ≤ Text.separatedSize root.parts := by
    rw [hn, Text.separatedSize_append]
    exact Nat.le_add_right _ _
  rw [FilePath.utf8ByteSize_text] at hsize
  rw [Fits, FilePath.utf8ByteSize_text, FilePath.append, Text.separatedSize_append]
  simp only
  omega

section Apart

variable {key : String} {c : Call} (hkeys : Apart keys)

include hkeys

/-- The directories of a key lead to what they name, and so does what is in the innermost one. -/
theorem plain_place (hkey : keys key) {fileName : String → String} (hname : ∀ name, Proper name → Plain (fileName name)) :
    ∀ part ∈ (place key).1 ++ [fileName (place key).2], Plain part := by
  have hproper := hkeys.proper key hkey
  rw [segments_eq] at hproper
  intro part hpart
  rcases List.mem_append.mp hpart with hpart | hpart
  · exact (hproper part (List.mem_append_left _ hpart)).plain
  · rw [List.mem_singleton.mp hpart]
    exact hname _ (hproper _ (List.mem_append_right _ (List.mem_singleton_self _)))

theorem plain_valuePath (hkey : keys key) : ∀ part ∈ valuePath key, Plain part :=
  plain_place hkeys hkey fun _ hname => hname.plain_valueName

theorem plain_temporaryPath (hkey : keys key) : ∀ part ∈ temporaryPath key, Plain part :=
  plain_place hkeys hkey fun _ hname => hname.plain_temporaryName

theorem accepted_of_apart (hkey : keys key) : keyFault? key = none :=
  keyFault?_of_plain fun part hpart => (hkeys.proper key hkey part hpart).plain

/-- The key check refuses none of these calls. -/
theorem Concerns.accepted (hc : Concerns keys c) (t : FileTree) (key : String) (fault : KeyFault) :
    (Directory.perform (FileTree.fileSystem here) root c t).1 ≠ .error (.invalidKey key fault) := by
  have hio {α : Type} (result : Except OsError α) :
      result.mapError StorageError.io ≠ .error (.invalidKey key fault) := by
    cases result <;> exact nofun
  cases hc with
  | get hkey =>
    rw [Directory.perform, checked_eq (accepted_of_apart hkeys hkey)]
    exact hio _
  | put hkey value =>
    rw [Directory.perform, checked_eq (accepted_of_apart hkeys hkey)]
    exact hio _
  | delete hkey =>
    rw [Directory.perform, checked_eq (accepted_of_apart hkeys hkey)]
    exact hio _
  | list hclear hplain =>
    have hkey := keyFault?_of_plain hplain
    rw [perform_list hkey, checked_eq hkey]
    exact hio _

theorem Concerns.served (hc : Concerns keys c) (hroom : Room root c) : Served root c := by
  cases hc with
  | get hkey => exact .get (accepted_of_apart hkeys hkey) ⟨plain_valuePath hkeys hkey, hroom⟩
  | put hkey value => exact .put (accepted_of_apart hkeys hkey) ⟨plain_temporaryPath hkeys hkey, hroom⟩ value
  | delete hkey => exact .delete (accepted_of_apart hkeys hkey) ⟨plain_valuePath hkeys hkey, hroom⟩
  | list hclear hplain =>
    have hkey := keyFault?_of_plain hplain
    rw [Room, withoutTrailing_of_accepted hkey] at hroom
    exact .list hkey ⟨hplain, hroom⟩

/-- Where only such keys are stored nothing is in the way of such calls. -/
theorem Concerns.clear (hc : Concerns keys c) (hknown : ∀ key : String, m[key]? ≠ none → keys key) : Clear m c := by
  have hpassable {key : String} (hkey : keys key) : Passable m (place key).1 :=
    fun other hother => hkeys.clear other (hknown other hother) key hkey
  have hvalue {key : String} (hkey : keys key) : Unoccupied m (valuePath key) :=
    fun other hother => hkeys.clear key hkey other (hknown other hother)
  cases hc with
  | get hkey => exact ⟨hpassable hkey, hvalue hkey⟩
  | @put key hkey value =>
    refine ⟨hpassable hkey, hvalue hkey, ?_⟩
    intro other hother hpre
    have hmem : temporaryName (place key).2 ∈ KeyPath.segments other := by
      rw [segments_eq]
      exact List.mem_append_left _ (hpre.subset (List.mem_append_right _ (List.mem_singleton_self _)))
    refine absurd ?_ (hkeys.proper other (hknown other hother) _ hmem).undotted
    simp [temporaryName]
  | delete hkey => exact ⟨hpassable hkey, hvalue hkey⟩
  | list hclear hplain =>
    rw [Clear, listedWay_append (keyFault?_of_plain hplain)]
    exact fun key hkey => hclear key (hknown key hkey)

/-- Such calls over the files are answered as over the memory. -/
theorem Concerns.perform (hc : Concerns keys c) (h : Holds base first keys m [] t) (hroot : Vacant here root base first)
    (hroom : Room root c) : ∃ t', Directory.perform (FileTree.fileSystem here) root c t = (.ok (Memory.reply c m), t') ∧
      Holds base first keys (Memory.after c m) [] t' := by
  have hput (key : String) (value : Bytes) (heq : c = .put key value) : keys key := by
    subst heq
    cases hc
    assumption
  exact h.perform hroot (fun _ hkey => accepted_of_apart hkeys hkey) hput (hc.served hkeys hroom)
    (hc.clear hkeys h.known)

end Apart

end Strongbox.Directory
