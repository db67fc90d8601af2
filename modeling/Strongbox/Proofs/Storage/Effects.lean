/-
  Strongbox.Proofs.Storage.Effects — what a put and a delete come to in a tree of files.

  This holds of every tree in which the root is a directory, whatever else is there. A put makes the
  directories of its key that are missing, then a file whose name begins with a dot, and moves
  that over the file of the value; it can end after each of these. A delete removes the file of the
  value and then, innermost first, directories of the key that nothing is left in. What else is in
  the tree stays as it is. Where no operation fails of itself, no step of a put fails because something
  is missing, so a put is tried once.

  Proved:
  - `makeDirectories_ensured`: making a directory makes only directories along the way to it.
  - `put_effect`, `delete_effect`: all that a put and a delete can come to.
  - `PutEffect.node?_cases`: what a put leaves at a path.
-/

import Strongbox.Proofs.Storage.Files

namespace Strongbox.Directory

open FileTree (node?)

variable {here base way : List String} {root : FilePath} {t t' u : FileTree} {key : String} {value : Bytes}

/-! ## Making directories -/

/-- Directories were made along a way where nothing was, and nothing else was changed. -/
structure Grown (base way : List String) (t t' : FileTree) : Prop where
  kept : ∀ path, t.node? path ≠ none → t'.node? path = t.node? path
  made : ∀ path, t.node? path = none → t'.node? path = none ∨
    t'.node? path = some .directory ∧ ∃ upper, upper ≠ [] ∧ upper <+: way ∧ path = base ++ upper
  inside : ∀ above name, t.node? (base ++ (above ++ [name])) = none → t'.node? (base ++ (above ++ [name])) ≠ none →
    t'.node? (base ++ above) = some .directory

namespace Grown

theorem refl (base way : List String) (t : FileTree) : Grown base way t t :=
  ⟨fun _ _ => rfl, fun _ h => .inl h, fun _ _ h hthere => absurd h hthere⟩

theorem directory (h : Grown base way t t') {path : List String} (hpath : t.node? path = some .directory) :
    t'.node? path = some .directory := by
  rw [h.kept path (by rw [hpath]; exact Option.some_ne_none _), hpath]

theorem trans (h : Grown base way t t') (h' : Grown base way t' u) : Grown base way t u where
  kept path hpath := by
    have hmid := h.kept path hpath
    rw [h'.kept path (by rwa [hmid]), hmid]
  made path hpath := by
    rcases h.made path hpath with hnone | ⟨hdirectory, hupper⟩
    · exact h'.made path hnone
    · refine .inr ⟨?_, hupper⟩
      rw [h'.kept path (by rw [hdirectory]; exact Option.some_ne_none _), hdirectory]
  inside above name hnone hthere := by
    by_cases hmid : t'.node? (base ++ (above ++ [name])) = none
    · exact h'.inside above name hmid hthere
    · exact h'.directory (h.inside above name hnone hmid)

theorem mono {upper : List String} (h : Grown base upper t t') (hover : upper <+: way) : Grown base way t t' where
  kept := h.kept
  made path hpath :=
    (h.made path hpath).imp_right fun ⟨hnode, above, hne, habove, heq⟩ => ⟨hnode, above, hne, habove.trans hover, heq⟩
  inside := h.inside

theorem rooted (h : Grown base way t t') (hroot : Rooted here root base t) : Rooted here root base t' :=
  hroot.mono fun _ => h.directory

end Grown

/-- A directory is put where nothing was, below directories that are there. -/
theorem Grown.insert_directory (hway : way ≠ []) (hnone : t.node? (base ++ way) = none)
    (hover : ∀ upper, upper <+: way → upper ≠ way → t.node? (base ++ upper) = some .directory) :
    Grown base way t (t.insert (base ++ way) .directory) ∧ Paved base way (t.insert (base ++ way) .directory) := by
  have hinsert := FileTree.node?_insert t (List.append_ne_nil_of_right_ne_nil base hway) .directory
  refine ⟨⟨fun path hpath => ?_, fun path hpath => ?_, fun above name hmissing hthere => ?_⟩, fun upper hupper => ?_⟩
  · rw [hinsert, if_neg]
    rintro rfl
    exact hpath hnone
  · rw [hinsert]
    by_cases heq : path = base ++ way
    · rw [if_pos heq]
      exact .inr ⟨rfl, way, hway, List.prefix_refl way, heq⟩
    · rw [if_neg heq]
      exact .inl hpath
  · -- the one place where something appeared is the end of the way
    rw [hinsert] at hthere ⊢
    by_cases heq : base ++ (above ++ [name]) = base ++ way
    · obtain rfl := List.append_cancel_left heq
      rw [if_neg (by simp)]
      exact hover above (List.prefix_append _ _) (by simp)
    · rw [if_neg heq] at hthere
      exact absurd hmissing hthere
  · rw [hinsert]
    by_cases heq : upper = way
    · rw [heq, if_pos rfl]
    · rw [if_neg fun h => heq (List.append_cancel_left h)]
      exact hover upper hupper heq

/-- A directory is made below directories that are there, or nothing is done. -/
theorem makeDirectory_grown (hroot : Rooted here root base t) (hnames : ∀ part ∈ way, KeyPath.isName part) :
    (∃ t', (FileTree.fileSystem here).makeDirectory (root.append way) t = (.ok (), t') ∧ Grown base way t t' ∧
        Legal root way ∧ Paved base way t') ∨
      ∃ e, (FileTree.fileSystem here).makeDirectory (root.append way) t = (.error e, t) ∧
        (e = .notFound → ∃ above, above <+: way ∧ above ≠ way ∧ t.node? (base ++ above) = none) := by
  rw [makeDirectory_eq_change here root hnames]
  cases hlocated : t.locate here (root.append way) with
  | error e =>
    refine .inr ⟨e, FileTree.change_error (by rw [hlocated]; rfl), ?_⟩
    rintro rfl
    exact FileTree.locate_missing hroot.located hnames (hroot.isEmpty_append way) hlocated
  | ok target =>
    obtain ⟨rfl, hlegal, hover⟩ := hroot.of_located (fun _ h => h) hnames hlocated
    cases hnode : t.node? (base ++ way) with
    | some node =>
      refine .inr ⟨.alreadyExists, FileTree.change_error ?_, nofun⟩
      rw [hlocated]
      show t.makeDirectory (base ++ way) = _
      rw [FileTree.makeDirectory, hnode]
    | none =>
      have hway : way ≠ [] := by
        rintro rfl
        rw [List.append_nil, hroot.directory] at hnode
        cases hnode
      obtain ⟨hgrown, hpaved⟩ := Grown.insert_directory hway hnode hover
      refine .inl ⟨t.insert (base ++ way) .directory, FileTree.change_ok ?_, hgrown, hlegal, hpaved⟩
      rw [hlocated]
      show t.makeDirectory (base ++ way) = _
      rw [FileTree.makeDirectory, hnode]

/-- Where there is a directory, all those above it are there. -/
theorem isDirectory_paved (hroot : Rooted here root base t) (hnames : ∀ part ∈ way, KeyPath.isName part) :
    ∃ there, (FileTree.fileSystem here).isDirectory (root.append way) t = (there, t) ∧
      (there = true → Legal root way ∧ Paved base way t) := by
  refine ⟨_, rfl, fun hthere => ?_⟩
  replace hthere : (t.locate here (root.append way)).toOption.bind t.node? = some .directory := of_decide_eq_true hthere
  cases hlocated : t.locate here (root.append way) with
  | error e =>
    rw [hlocated] at hthere
    cases hthere
  | ok target =>
    obtain ⟨rfl, hlegal, hover⟩ := hroot.of_located (fun _ h => h) hnames hlocated
    rw [hlocated] at hthere
    refine ⟨hlegal, fun upper hupper => ?_⟩
    by_cases heq : upper = way
    · rw [heq]
      exact hthere
    · exact hover upper hupper heq

/-- What making a directory with those above it comes to: if it goes through all are there, and it
    does not fail because one is missing. -/
structure Ensured (root : FilePath) (base way : List String) (t : FileTree) (result : Except OsError Unit) (t' : FileTree) : Prop where
  grown : Grown base way t t'
  paved : result = .ok () → Legal root way ∧ Paved base way t'
  found : result ≠ .error .notFound

theorem Ensured.of_there {there : Bool} {e : OsError} (hgrown : Grown base way t t')
    (hpaved : there = true → Legal root way ∧ Paved base way t') (he : e ≠ .notFound) :
    Ensured root base way t (if there then .ok () else .error e) t' where
  grown := hgrown
  paved h := hpaved (by cases there with | true => rfl | false => cases h)
  found h := by
    cases there with
    | true => cases h
    | false => exact he (Except.error.inj h)

/-- A directory that nothing above is missing of is made, is there, or cannot be made. -/
theorem makeDirectories_once (hroot : Rooted here root base t) (hnames : ∀ part ∈ way, KeyPath.isName part)
    (hfound : ((FileTree.fileSystem here).makeDirectory (root.append way) t).1 ≠ .error .notFound) (depth : Nat) : ∃ result t', (FileTree.fileSystem here).makeDirectories (depth + 1) (root.append way) t = (result, t') ∧
      Ensured root base way t result t' := by
  have hne := hroot.isEmpty_append way
  rcases makeDirectory_grown hroot hnames with ⟨t', hmade, hgrown, hpaved⟩ | ⟨e, hmade, _⟩
  · exact ⟨.ok (), t', makeDirectories_made depth hne hmade, hgrown, fun _ => hpaved, by rintro ⟨⟩⟩
  · obtain ⟨there, hthere, hpaved⟩ := isDirectory_paved hroot hnames
    have he : e ≠ .notFound := by
      rintro rfl
      exact hfound (by rw [hmade])
    exact ⟨_, t, makeDirectories_refused depth hne hmade he hthere, .of_there (.refl base way t) hpaved he⟩

/-- Below directories that are there a directory is not refused for one that is missing. -/
theorem makeDirectory_found {name : String} (hroot : Rooted here root base t) (hpaved : Paved base way t)
    (hnames : ∀ part ∈ way ++ [name], KeyPath.isName part) :
    ((FileTree.fileSystem here).makeDirectory (root.append (way ++ [name])) t).1 ≠ .error .notFound := by
  rcases makeDirectory_grown hroot hnames with ⟨t', hmade, _⟩ | ⟨e, hmade, hmissing⟩
  · rw [hmade]
    rintro ⟨⟩
  · rw [hmade]
    rintro ⟨⟩
    obtain ⟨upper, hover, hne, hnone⟩ := hmissing rfl
    rw [hpaved upper ((List.prefix_concat_iff.mp hover).resolve_left hne)] at hnone
    cases hnone

theorem makeDirectories_ensured (hroot : Rooted here root base t) (hnames : ∀ part ∈ way, KeyPath.isName part) (depth : Nat) :
    ∃ result t', (FileTree.fileSystem here).makeDirectories depth (root.append way) t = (result, t') ∧
      Ensured root base way t result t' := by
  induction depth generalizing way with
  | zero => exact ⟨_, t, rfl, .refl base way t, by rintro ⟨⟩, by rintro ⟨⟩⟩
  | succ depth ih =>
    rcases List.eq_nil_or_concat way with rfl | ⟨above, name, hway⟩
    · refine ⟨_, t, makeDirectories_root hroot depth, .refl base [] t, fun _ => ⟨hroot.legal, fun upper hupper => ?_⟩, by rintro ⟨⟩⟩
      rw [List.prefix_nil.mp hupper, List.append_nil]
      exact hroot.directory
    · rw [List.concat_eq_append] at hway
      subst hway
      have hne := hroot.isEmpty_append (above ++ [name])
      rcases makeDirectory_grown hroot hnames with ⟨t', hmade, hgrown, hpaved⟩ | ⟨e, hmade, _⟩
      · exact ⟨.ok (), t', makeDirectories_made depth hne hmade, hgrown, fun _ => hpaved, by rintro ⟨⟩⟩
      · by_cases he : e = .notFound
        · -- the directories above are made, and it is tried once more
          subst he
          obtain ⟨result, t₁, habove, hensured⟩ := ih fun part hpart => hnames part (List.mem_append_left _ hpart)
          have hgrown : Grown base (above ++ [name]) t t₁ := hensured.grown.mono (List.prefix_append _ _)
          rw [← FilePath.parent_append (hnames name (by simp))] at habove
          cases result with
          | error e => exact ⟨.error e, t₁, makeDirectories_above_refused hne hmade habove, hgrown, by rintro ⟨⟩, hensured.found⟩
          | ok =>
            have hroot₁ : Rooted here root base t₁ := hgrown.rooted hroot
            have hfound := makeDirectory_found hroot₁ (hensured.paved rfl).2 hnames
            obtain ⟨result, t₂, hagain, hensured₂⟩ := makeDirectories_once hroot₁ hnames hfound depth
            exact ⟨result, t₂, (makeDirectories_again hne hmade habove hfound).trans hagain, hgrown.trans hensured₂.grown,
              hensured₂.paved, hensured₂.found⟩
        · refine makeDirectories_once hroot hnames ?_ depth
          rw [hmade]
          exact fun h => he (Except.error.inj h)

/-! ## Putting a value -/

section Put

variable {key : String} {value : Bytes}

/-- The names of a file in the directories of an accepted key. -/
theorem names_of_accepted (hkey : keyFault? key = none) {fileName : String} (hname : KeyPath.isName fileName) :
    ∀ part ∈ (place key).1 ++ [fileName], KeyPath.isName part := by
  have hsegments := keyFault?_eq_none_iff.mp hkey
  rw [segments_eq] at hsegments
  intro part hpart
  rcases List.mem_append.mp hpart with hpart | hpart
  · exact hsegments part (List.mem_append_left _ hpart)
  · rw [List.mem_singleton.mp hpart]
    exact hname

theorem names_place (hkey : keyFault? key = none) : ∀ part ∈ (place key).1, KeyPath.isName part := fun part hpart =>
  names_of_accepted hkey (isName_valueName "") part (List.mem_append_left _ hpart)

theorem names_valuePath (hkey : keyFault? key = none) : ∀ part ∈ valuePath key, KeyPath.isName part :=
  names_of_accepted hkey (isName_valueName _)

/-- All that a put can come to. -/
inductive PutEffect (root : FilePath) (base : List String) (key : String) (value : Bytes) (t : FileTree) :
    Except OsError Unit → FileTree → Prop
  /-- A directory or the first file could not be made. -/
  | stopped {u : FileTree} {e : OsError} (hgrown : Grown base (place key).1 t u) (hfound : e ≠ .notFound) :
    PutEffect root base key value t (.error e) u
  /-- The value was written, but a directory is where it should be moved to. -/
  | stranded {u : FileTree} (hgrown : Grown base (place key).1 t u) (hpaved : Paved base (place key).1 u)
    (hlegal : Legal root (temporaryPath key)) (htemporary : u.node? (base ++ temporaryPath key) ≠ some .directory)
    (hvalue : u.node? (base ++ valuePath key) = some .directory) :
    PutEffect root base key value t (.error .isDirectory) (u.insert (base ++ temporaryPath key) (.file value))
  /-- The value was written and moved to its file. -/
  | stored {u : FileTree} (hgrown : Grown base (place key).1 t u) (hpaved : Paved base (place key).1 u)
    (hlegal : Legal root (temporaryPath key)) (htemporary : u.node? (base ++ temporaryPath key) ≠ some .directory)
    (hvalue : u.node? (base ++ valuePath key) ≠ some .directory) :
    PutEffect root base key value t (.ok ())
      (((u.insert (base ++ temporaryPath key) (.file value)).erase (base ++ temporaryPath key)).insert
        (base ++ valuePath key) (.file value))

/-- A file below directories that are there is written unless a directory is in its place. -/
theorem write_paved {fileName : String} (hroot : Rooted here root base t) (hpaved : Paved base way t)
    (hnames : ∀ part ∈ way ++ [fileName], KeyPath.isName part) (value : Bytes) :
    (∃ e, (FileTree.fileSystem here).write (root.append (way ++ [fileName])) value t = (.error e, t) ∧ e ≠ .notFound) ∨
      Legal root (way ++ [fileName]) ∧ t.node? (base ++ (way ++ [fileName])) ≠ some .directory ∧
        (FileTree.fileSystem here).write (root.append (way ++ [fileName])) value t =
          (.ok (), t.insert (base ++ (way ++ [fileName])) (.file value)) := by
  have hwrite : (FileTree.fileSystem here).write (root.append (way ++ [fileName])) value t =
      FileTree.change (fun t => t.locate here (root.append (way ++ [fileName])) >>= fun path => t.write path value) t := rfl
  rw [hwrite]
  cases hlocated : t.locate here (root.append (way ++ [fileName])) with
  | error e =>
    refine .inl ⟨e, FileTree.change_error (by rw [hlocated]; rfl), ?_⟩
    rintro rfl
    obtain ⟨upper, hover, hne, hnone⟩ :=
      FileTree.locate_missing hroot.located hnames (hroot.isEmpty_append _) hlocated
    rw [hpaved upper ((List.prefix_concat_iff.mp hover).resolve_left hne)] at hnone
    cases hnone
  | ok target =>
    obtain ⟨rfl, hlegal, _⟩ := hroot.of_located (fun _ h => h) hnames hlocated
    by_cases hnode : t.node? (base ++ (way ++ [fileName])) = some .directory
    · refine .inl ⟨.isDirectory, FileTree.change_error ?_, by rintro ⟨⟩⟩
      rw [hlocated]
      show t.write (base ++ (way ++ [fileName])) value = _
      rw [FileTree.write, hnode]
    · refine .inr ⟨hlegal, hnode, FileTree.change_ok ?_⟩
      rw [hlocated]
      show t.write (base ++ (way ++ [fileName])) value = _
      cases hcontent : t.node? (base ++ (way ++ [fileName])) with
      | none => rw [FileTree.write, hcontent]
      | some node =>
        cases node with
        | file content => rw [FileTree.write, hcontent]
        | directory => exact absurd hcontent hnode

theorem put_effect (hroot : Rooted here root base t) (hkey : keyFault? key = none) (value : Bytes) :
    ∃ result t', Directory.put (FileTree.fileSystem here) root key value t = (result, t') ∧ PutEffect root base key value t result t' := by
  obtain ⟨made, u, hmade, hgrown, hpaved, hfound⟩ :=
    makeDirectories_ensured hroot (names_place hkey) ((root.append (place key).1).parts.length + 2)
  have hroot : Rooted here root base u := hgrown.rooted hroot
  cases made with
  | error e =>
    have he : e ≠ .notFound := fun he => hfound (he ▸ rfl)
    exact ⟨.error e, u, put_of_unmade hmade he, .stopped hgrown he⟩
  | ok =>
    obtain ⟨hway, hpaved⟩ := hpaved rfl
    have hclosed := protect_paved hroot hpaved hway
    rcases write_paved hroot hpaved (names_of_accepted hkey (isName_temporaryName _)) value with
      ⟨e, hwritten, he⟩ | ⟨hlegal, htemporary, hwritten⟩
    · exact ⟨.error e, u, put_of_unwritten hmade hclosed hwritten he, .stopped hgrown he⟩
    · have hdrafted : Drafted here root base key value u _ := ⟨hroot, hpaved, hlegal, htemporary, rfl⟩
      have hrenamed := hdrafted.rename
      by_cases hvalue : u.node? (base ++ valuePath key) = some .directory
      · rw [if_pos hvalue] at hrenamed
        exact ⟨_, _, put_of_written hmade hclosed hwritten hdrafted hrenamed (by rintro ⟨⟩), .stranded hgrown hpaved hlegal htemporary hvalue⟩
      · rw [if_neg hvalue] at hrenamed
        exact ⟨_, _, put_of_written hmade hclosed hwritten hdrafted hrenamed (by rintro ⟨⟩), .stored hgrown hpaved hlegal htemporary hvalue⟩

/-- A put is refused, or comes to one of these. -/
theorem perform_put_cases (hroot : Rooted here root base t) (key : String) (value : Bytes) :
    (∃ fault, Directory.perform (FileTree.fileSystem here) root (.put key value) t = (.error (.invalidKey key fault), t)) ∨
      ∃ result t', Directory.perform (FileTree.fileSystem here) root (.put key value) t = (result.mapError .io, t') ∧
        keyFault? key = none ∧ PutEffect root base key value t result t' := by
  rw [Directory.perform]
  cases hkey : keyFault? key with
  | some fault => exact .inl ⟨fault, checked_refused hkey _ t⟩
  | none =>
    obtain ⟨result, t', hput, heffect⟩ := put_effect hroot hkey value
    exact .inr ⟨result, t', by rw [checked_eq hkey, hput], rfl, heffect⟩

/-- What a put leaves at a path: what was there, a directory it made on its way, its first file if
    it could not be moved, or the value. -/
theorem PutEffect.node?_cases {result : Except OsError Unit} (h : PutEffect root base key value t result t') (path : List String) :
    t'.node? path = t.node? path ∨
      (t.node? path = none ∧ t'.node? path = some .directory ∧ ∃ upper, upper ≠ [] ∧ upper <+: (place key).1 ∧ path = base ++ upper) ∨
      (path = base ++ temporaryPath key ∧ t.node? path ≠ some .directory ∧
        (result = .ok () ∧ t'.node? path = none ∨ result = .error .isDirectory ∧ t'.node? path = some (.file value))) ∨
      (path = base ++ valuePath key ∧ t.node? path ≠ some .directory ∧ result = .ok () ∧ t'.node? path = some (.file value)) := by
  have hgrown {u : FileTree} (hgrown : Grown base (place key).1 t u) (hsame : t'.node? path = u.node? path) :
      t'.node? path = t.node? path ∨ (t.node? path = none ∧ t'.node? path = some .directory ∧
        ∃ upper, upper ≠ [] ∧ upper <+: (place key).1 ∧ path = base ++ upper) := by
    rw [hsame]
    by_cases hnone : t.node? path = none
    · rcases hgrown.made path hnone with hmissing | ⟨hdirectory, hupper⟩
      · exact .inl (hmissing.trans hnone.symm)
      · exact .inr ⟨hnone, hdirectory, hupper⟩
    · exact .inl (hgrown.kept path hnone)
  have hbefore {u : FileTree} (hgrown : Grown base (place key).1 t u) (hnode : u.node? path ≠ some .directory) :
      t.node? path ≠ some .directory := fun h => hnode (hgrown.directory h)
  have htemporaryNe : base ++ temporaryPath key ≠ [] := List.append_ne_nil_of_right_ne_nil base (temporaryPath_ne_nil key)
  have hvalueNe : base ++ valuePath key ≠ [] := List.append_ne_nil_of_right_ne_nil base (valuePath_ne_nil key)
  cases h with
  | stopped hmade => exact (hgrown hmade rfl).imp_right .inl
  | @stranded u hmade _ _ htemporary =>
    have hnode := FileTree.node?_insert u htemporaryNe (.file value) path
    by_cases hpath : path = base ++ temporaryPath key
    · rw [if_pos hpath] at hnode
      exact .inr (.inr (.inl ⟨hpath, hbefore hmade (hpath ▸ htemporary), .inr ⟨rfl, hnode⟩⟩))
    · rw [if_neg hpath] at hnode
      exact (hgrown hmade hnode).imp_right .inl
  | @stored u hmade _ _ htemporary hvalue =>
    let written := u.insert (base ++ temporaryPath key) (.file value)
    have hnode := FileTree.node?_insert (written.erase (base ++ temporaryPath key)) hvalueNe (.file value) path
    rw [FileTree.node?_erase _ htemporaryNe, FileTree.node?_insert _ htemporaryNe] at hnode
    by_cases hpath : path = base ++ valuePath key
    · rw [if_pos hpath] at hnode
      exact .inr (.inr (.inr ⟨hpath, hbefore hmade (hpath ▸ hvalue), rfl, hnode⟩))
    · rw [if_neg hpath] at hnode
      by_cases hother : path = base ++ temporaryPath key
      · rw [if_pos hother] at hnode
        exact .inr (.inr (.inl ⟨hother, hbefore hmade (hother ▸ htemporary), .inl ⟨rfl, hnode⟩⟩))
      · rw [if_neg hother, if_neg hother] at hnode
        exact (hgrown hmade hnode).imp_right .inl

theorem PutEffect.directory {result : Except OsError Unit} (h : PutEffect root base key value t result t') {path : List String}
    (hpath : t.node? path = some .directory) : t'.node? path = some .directory := by
  rcases h.node?_cases path with hsame | ⟨_, hmade, _⟩ | ⟨_, hnode, _⟩ | ⟨_, hnode, _⟩
  · exact hsame.trans hpath
  · exact hmade
  · exact absurd hpath hnode
  · exact absurd hpath hnode

theorem PutEffect.stored_value (h : PutEffect root base key value t (.ok ()) t') :
    t'.node? (base ++ valuePath key) = some (.file value) := by
  cases h with
  | stored => rw [FileTree.node?_insert_below _ base (valuePath_ne_nil key), if_pos rfl]

end Put

/-! ## Deleting a value -/

section Delete

/-- What removing directories innermost first comes to: it stops at the base or at the first
    directory that is not removed, and those removed had nothing in them. -/
inductive Pruned (here : List String) (root : FilePath) (base : List String) : List String → FileTree → FileTree → Prop
  | top (t : FileTree) : Pruned here root base [] t t
  | stays {way : List String} {t : FileTree} {e : OsError} (h : (t.locate here (root.append way) >>= t.removeDirectory) = .error e) :
    Pruned here root base way t t
  | gone {above : List String} {name : String} {t t' : FileTree} (hnode : t.node? (base ++ (above ++ [name])) = some .directory)
    (hempty : t.children (base ++ (above ++ [name])) = []) (h : Pruned here root base above (t.erase (base ++ (above ++ [name]))) t') :
    Pruned here root base (above ++ [name]) t t'

/-- A directory that is removed had nothing in it. -/
theorem removeDirectory_eq_ok {path : List String} (h : t.removeDirectory path = .ok t') :
    t.node? path = some .directory ∧ t.children path = [] ∧ t' = t.erase path := by
  cases hnode : t.node? path with
  | none => simp [FileTree.removeDirectory, hnode] at h
  | some node =>
    cases node with
    | file content => simp [FileTree.removeDirectory, hnode] at h
    | directory =>
      rw [FileTree.removeDirectory, hnode] at h
      simp only at h
      split at h
      · cases h
      · rename_i hfull
        exact ⟨rfl, Decidable.byContradiction fun hne => hfull (.inr hne), (Except.ok.inj h).symm⟩

/-- A file that is removed was one. -/
theorem removeFile_eq_ok {path : List String} (h : t.removeFile path = .ok t') :
    ∃ content, t.node? path = some (.file content) ∧ t' = t.erase path := by
  cases hnode : t.node? path with
  | none => simp [FileTree.removeFile, hnode] at h
  | some node =>
    cases node with
    | directory => simp [FileTree.removeFile, hnode] at h
    | file content =>
      rw [FileTree.removeFile, hnode] at h
      exact ⟨content, rfl, (Except.ok.inj h).symm⟩

theorem prune_pruned (hroot : Rooted here root base t) {segments : List String} (hnames : ∀ part ∈ segments, KeyPath.isName part)
    (hless : ∀ path, u.node? path = some .directory → t.node? path = some .directory) :
    ∃ u', Directory.prune (FileTree.fileSystem here) root segments u = ((), u') ∧ Pruned here root base segments.reverse u u' := by
  induction segments generalizing u with
  | nil => exact ⟨u, rfl, .top u⟩
  | cons name above ih =>
    rw [List.reverse_cons]
    cases hresult : u.locate here (root.append (above.reverse ++ [name])) >>= u.removeDirectory with
    | error e => exact ⟨u, prune_stays hresult, .stays hresult⟩
    | ok u₁ =>
      have hgone := prune_gone hresult
      cases hlocated : u.locate here (root.append (above.reverse ++ [name])) with
      | error e =>
        rw [hlocated] at hresult
        cases hresult
      | ok target =>
        have hall : ∀ part ∈ above.reverse ++ [name], KeyPath.isName part := by
          intro part hpart
          exact hnames part (by simpa [or_comm] using hpart)
        obtain ⟨rfl, _, _⟩ := hroot.of_located hless hall hlocated
        rw [hlocated] at hresult
        obtain ⟨hnode, hempty, rfl⟩ := removeDirectory_eq_ok hresult
        have hne : base ++ (above.reverse ++ [name]) ≠ [] := by simp
        obtain ⟨u', hpruned, heffect⟩ := ih (fun part hpart => hnames part (List.mem_cons_of_mem name hpart))
          fun path hpath => hless path (FileTree.node?_of_erase hne hpath).2
        exact ⟨u', hgone.trans hpruned, .gone hnode hempty heffect⟩

/-- All that a delete can come to. -/
inductive DeleteEffect (here : List String) (root : FilePath) (base : List String) (key : String) (t : FileTree) :
    Except OsError Unit → FileTree → Prop
  | refused {e : OsError} (hfound : e ≠ .notFound) (h : (t.locate here (root.append (valuePath key)) >>= t.removeFile) = .error e) :
    DeleteEffect here root base key t (.error e) t
  | absent (h : (t.locate here (root.append (valuePath key)) >>= t.removeFile) = .error .notFound) :
    DeleteEffect here root base key t (.ok ()) t
  | removed {content : Bytes} {t' : FileTree} (hlocated : t.locate here (root.append (valuePath key)) = .ok (base ++ valuePath key))
    (hfile : t.node? (base ++ valuePath key) = some (.file content))
    (hpruned : Pruned here root base (place key).1 (t.erase (base ++ valuePath key)) t') :
    DeleteEffect here root base key t (.ok ()) t'

theorem delete_effect (hroot : Rooted here root base t) (hkey : keyFault? key = none) :
    ∃ result t', Directory.delete (FileTree.fileSystem here) root key t = (result, t') ∧ DeleteEffect here root base key t result t' := by
  cases hresult : t.locate here (root.append (valuePath key)) >>= t.removeFile with
  | error e =>
    have hunremoved := delete_unremoved hresult
    by_cases he : e = .notFound
    · subst he
      exact ⟨.ok (), t, hunremoved, .absent hresult⟩
    · rw [if_neg he] at hunremoved
      exact ⟨.error e, t, hunremoved, .refused he hresult⟩
  | ok u =>
    have hremoved := delete_removed hresult
    cases hlocated : t.locate here (root.append (valuePath key)) with
    | error e =>
      rw [hlocated] at hresult
      cases hresult
    | ok target =>
      obtain ⟨rfl, _, _⟩ := hroot.of_located (fun _ h => h) (names_valuePath hkey) hlocated
      rw [hlocated] at hresult
      obtain ⟨content, hfile, rfl⟩ := removeFile_eq_ok hresult
      have hne : base ++ valuePath key ≠ [] := List.append_ne_nil_of_right_ne_nil base (valuePath_ne_nil key)
      obtain ⟨t', hpruned, heffect⟩ := prune_pruned hroot (fun part hpart => names_place hkey part (List.mem_reverse.mp hpart))
        fun path hpath => (FileTree.node?_of_erase hne hpath).2
      rw [List.reverse_reverse] at heffect
      exact ⟨.ok (), t', by rw [hremoved, hpruned], .removed hlocated hfile heffect⟩

/-- A delete is refused, or comes to one of these. -/
theorem perform_delete_cases (hroot : Rooted here root base t) (key : String) :
    (∃ fault, Directory.perform (FileTree.fileSystem here) root (.delete key) t = (.error (.invalidKey key fault), t)) ∨
      ∃ result t', Directory.perform (FileTree.fileSystem here) root (.delete key) t = (result.mapError .io, t') ∧
        keyFault? key = none ∧ DeleteEffect here root base key t result t' := by
  rw [Directory.perform]
  cases hkey : keyFault? key with
  | some fault => exact .inl ⟨fault, checked_refused hkey _ t⟩
  | none =>
    obtain ⟨result, t', hdelete, heffect⟩ := delete_effect hroot hkey
    exact .inr ⟨result, t', by rw [checked_eq hkey, hdelete], rfl, heffect⟩

end Delete

/-! ## What a put and a delete leave alone -/

theorem below_of_ne_nil {below : List String} (hne : below ≠ []) : base <+: base ++ below ∧ base ++ below ≠ base :=
  ⟨List.prefix_append _ _, fun h => hne (List.append_right_eq_self.mp h)⟩

theorem PutEffect.below_or_same {result : Except OsError Unit} (h : PutEffect root base key value t result t')
    (path : List String) : base <+: path ∧ path ≠ base ∨ t'.node? path = t.node? path := by
  rcases h.node?_cases path with hsame | ⟨_, _, upper, hne, _, rfl⟩ | ⟨rfl, _⟩ | ⟨rfl, _⟩
  · exact .inr hsame
  · exact .inl (below_of_ne_nil hne)
  · exact .inl (below_of_ne_nil (temporaryPath_ne_nil key))
  · exact .inl (below_of_ne_nil (valuePath_ne_nil key))

/-- A put that succeeds leaves the value where a get looks for it. -/
theorem PutEffect.located_value (hroot : Rooted here root base t) (h : PutEffect root base key value t (.ok ()) t') :
    t'.locate here (root.append (valuePath key)) = .ok (base ++ valuePath key) ∧
      t'.node? (base ++ valuePath key) = some (.file value) := by
  cases h with
  | @stored u hgrown hpaved hlegal htemporary hvalue =>
    have heffect : PutEffect root base key value u _ _ := .stored (.refl _ _ u) hpaved hlegal htemporary hvalue
    have hrooted := (hgrown.rooted hroot).mono fun _ hpath => heffect.directory hpath
    refine ⟨hrooted.locate_of_paved (fun upper hover => heffect.directory (hpaved upper hover)) (legal_valuePath hlegal), ?_⟩
    exact heffect.stored_value

/-- A delete that fails has done nothing. -/
theorem DeleteEffect.eq_of_error {e : OsError} (h : DeleteEffect here root base key t (.error e) t') : t' = t := by
  cases h with
  | refused => rfl

end Strongbox.Directory
