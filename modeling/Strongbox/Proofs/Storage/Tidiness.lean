/-
  Strongbox.Proofs.Storage.Tidiness — what calls over files leave behind.

  A directory is there for the values below it: a put makes the directories of its key, a delete
  removes those that became empty. But a put that fails after it made something does not remove it:
  the directories stay, and the file that could not be moved as well. So whatever is below the
  root and not for a value goes back to a put that failed.

  Proved:
  - `PutEffect.traced`, `DeleteEffect.traced`: what each kind of call keeps.
  - `traced_run`: this holds after any calls.
  - `tidy_iff_unspoiled`: a run leaves nothing behind exactly if every call that fails changes nothing.
-/

import Strongbox.Proofs.Storage.Effects

namespace Strongbox.Directory

open FileTree (node?)

variable {here base way : List String} {root : FilePath} {first t t' : FileTree} {spoiled : String → Prop} {extra : List String}
  {key : String}

/-! ## What is there for what -/

/-- The value of an accepted key is in its file, below a directory. -/
def HasValue (base way : List String) (t : FileTree) : Prop :=
  ∃ key content, keyFault? key = none ∧ t.node? (base ++ valuePath key) = some (.file content) ∧ way <+: (place key).1

theorem HasValue.above {upper : List String} (h : HasValue base way t) (hover : upper <+: way) : HasValue base upper t := by
  obtain ⟨key, content, hkey, hfile, hway⟩ := h
  exact ⟨key, content, hkey, hfile, hover.trans hway⟩

theorem HasValue.mono (h : HasValue base way t)
    (hkept : ∀ key content, t.node? (base ++ valuePath key) = some (.file content) → way <+: (place key).1 →
      ∃ content', t'.node? (base ++ valuePath key) = some (.file content')) : HasValue base way t' := by
  obtain ⟨key, content, hkey, hfile, hway⟩ := h
  obtain ⟨content', hfile'⟩ := hkept key content hfile hway
  exact ⟨key, content', hkey, hfile', hway⟩

/-- Below the base there are files of values and the directories above them, and otherwise only what
    belongs to spoiled keys and, while a delete is under way, directories along one more path. -/
structure Traced (base : List String) (first : FileTree) (spoiled : String → Prop) (extra : List String) (t : FileTree) : Prop where
  outside : ∀ path, ¬ base <+: path → t.node? path = first.node? path
  root : t.node? base = some .directory
  inside : ∀ above name, t.node? (base ++ (above ++ [name])) ≠ none → t.node? (base ++ above) = some .directory
  file : ∀ below content, t.node? (base ++ below) = some (.file content) →
    (∃ key, keyFault? key = none ∧ below = valuePath key) ∨ ∃ key, spoiled key ∧ below = temporaryPath key
  directory : ∀ below, t.node? (base ++ below) = some .directory →
    below <+: extra ∨ HasValue base below t ∨ ∃ key, spoiled key ∧ below <+: (place key).1

theorem Vacant.traced (h : Vacant here root base first) (spoiled : String → Prop) : Traced base first spoiled [] first where
  outside _ _ := rfl
  root := h.directory
  inside above name hthere := absurd (h.empty _ (by simp)) hthere
  file below content hnode := by
    by_cases hnil : below = []
    · rw [hnil, List.append_nil, h.directory] at hnode
      cases hnode
    · rw [h.empty below hnil] at hnode
      cases hnode
  directory below hnode := by
    by_cases hnil : below = []
    · exact .inl (hnil ▸ List.prefix_refl [])
    · rw [h.empty below hnil] at hnode
      cases hnode

/-- All directories above something are there. -/
theorem Traced.above (h : Traced base first spoiled extra t) {upper rest : List String} (hne : rest ≠ [])
    (hthere : t.node? (base ++ (upper ++ rest)) ≠ none) : t.node? (base ++ upper) = some .directory := by
  induction rest generalizing upper with
  | nil => exact absurd rfl hne
  | cons name more ih =>
    by_cases hmore : more = []
    · subst hmore
      exact h.inside upper name hthere
    · have hnext := @ih (upper ++ [name]) hmore (by rwa [List.append_assoc])
      exact h.inside upper name (by rw [hnext]; exact Option.some_ne_none _)

/-! ## Putting -/

section Put

variable {value : Bytes} {result : Except OsError Unit}

/-- What a put makes is in a directory. -/
theorem PutEffect.inside (h : PutEffect root base key value t result t') {above : List String} {name : String}
    (hnew : t'.node? (base ++ (above ++ [name])) ≠ t.node? (base ++ (above ++ [name])))
    (hthere : t'.node? (base ++ (above ++ [name])) ≠ none) : t'.node? (base ++ above) = some .directory := by
  have hgrown {u : FileTree} (hgrown : Grown base (place key).1 t u)
      (hsame : t'.node? (base ++ (above ++ [name])) = u.node? (base ++ (above ++ [name]))) : u.node? (base ++ above) = some .directory := by
    refine hgrown.inside above name ?_ (hsame ▸ hthere)
    exact Decidable.byContradiction fun hbefore => hnew (hsame.trans (hgrown.kept _ hbefore))
  -- after the directories are there, what is new is one of the two files
  have hwritten {u : FileTree} (hmade : Grown base (place key).1 t u) (hpaved : Paved base (place key).1 u)
      (heffect : PutEffect root base key value u result t') : t'.node? (base ++ above) = some .directory := by
    refine heffect.directory ?_
    rcases heffect.node?_cases (base ++ (above ++ [name])) with hsame | ⟨hnone, _, upper, _, hupper, heq⟩ | ⟨heq, _⟩ | ⟨heq, _⟩
    · exact hgrown hmade hsame
    · rw [heq, hpaved upper hupper] at hnone
      cases hnone
    · rw [(List.append_inj' (List.append_cancel_left heq) rfl).1]
      exact hpaved _ (List.prefix_refl _)
    · rw [(List.append_inj' (List.append_cancel_left heq) rfl).1]
      exact hpaved _ (List.prefix_refl _)
  cases h with
  | stopped hmade => exact hgrown hmade rfl
  | stranded hmade hpaved hlegal htemporary hvalue =>
    exact hwritten hmade hpaved (.stranded (.refl _ _ _) hpaved hlegal htemporary hvalue)
  | stored hmade hpaved hlegal htemporary hvalue =>
    exact hwritten hmade hpaved (.stored (.refl _ _ _) hpaved hlegal htemporary hvalue)

/-- A value stays one, possibly with other content. -/
theorem PutEffect.value_kept (h : PutEffect root base key value t result t') {other : String} {content : Bytes}
    (hfile : t.node? (base ++ valuePath other) = some (.file content)) :
    ∃ content', t'.node? (base ++ valuePath other) = some (.file content') := by
  rcases h.node?_cases (base ++ valuePath other) with hsame | ⟨hnone, _⟩ | ⟨heq, _⟩ | ⟨_, _, _, hnode⟩
  · exact ⟨content, hsame.trans hfile⟩
  · rw [hfile] at hnone
    cases hnone
  · exact absurd (List.append_cancel_left heq) (valuePath_ne_temporaryPath other key)
  · exact ⟨value, hnode⟩

theorem PutEffect.traced (hkey : keyFault? key = none) (h : PutEffect root base key value t result t')
    (htraced : Traced base first spoiled [] t)
    (hspoiled : (∃ e, result = .error e) → (∃ path, t'.node? path ≠ t.node? path) → spoiled key) : Traced base first spoiled [] t' where
  outside path hpath := ((h.below_or_same path).resolve_left fun hbelow => hpath hbelow.1).trans (htraced.outside path hpath)
  root := h.directory htraced.root
  inside above name hthere := by
    by_cases hsame : t'.node? (base ++ (above ++ [name])) = t.node? (base ++ (above ++ [name]))
    · exact h.directory (htraced.inside above name (hsame ▸ hthere))
    · exact h.inside hsame hthere
  file below content hnode := by
    by_cases hsame : t'.node? (base ++ below) = t.node? (base ++ below)
    · exact htraced.file below content (hsame ▸ hnode)
    · rcases h.node?_cases (base ++ below) with hsame' | ⟨_, hmade, _⟩ | ⟨heq, _, ⟨_, hgone⟩ | ⟨he, _⟩⟩ | ⟨heq, _⟩
      · exact absurd hsame' hsame
      · rw [hmade] at hnode
        cases hnode
      · rw [hgone] at hnode
        cases hnode
      · exact .inr ⟨key, hspoiled ⟨_, he⟩ ⟨_, hsame⟩, List.append_cancel_left heq⟩
      · exact .inl ⟨key, hkey, List.append_cancel_left heq⟩
  directory below hnode := by
    by_cases hsame : t'.node? (base ++ below) = t.node? (base ++ below)
    · have hbefore := htraced.directory below (hsame ▸ hnode)
      exact hbefore.imp_right (Or.imp_left fun hvalue => hvalue.mono fun _ _ hfile _ => h.value_kept hfile)
    · rcases h.node?_cases (base ++ below) with
        hsame' | ⟨_, _, upper, _, hupper, heq⟩ | ⟨_, _, ⟨_, hgone⟩ | ⟨_, hleft⟩⟩ | ⟨_, _, _, hstored⟩
      · exact absurd hsame' hsame
      · rw [List.append_cancel_left heq]
        cases result with
        | error e => exact .inr (.inr ⟨key, hspoiled ⟨e, rfl⟩ ⟨_, hsame⟩, hupper⟩)
        | ok => exact .inr (.inl ⟨key, value, hkey, h.stored_value, hupper⟩)
      · rw [hgone] at hnode
        cases hnode
      · rw [hleft] at hnode
        cases hnode
      · rw [hstored] at hnode
        cases hnode

end Put

/-! ## Deleting -/

section Delete

/-- Something that nothing is in was removed: directories above it may be left for nothing. -/
theorem Traced.erase {extra' path : List String} (h : Traced base first spoiled extra t) (hne : path ≠ [])
    (hleaf : ∀ child, t.node? (base ++ (path ++ [child])) = none) (hextra : ∀ below, below <+: extra → below ≠ path → below <+: extra')
    (hvalue : ∀ key, valuePath key = path → (place key).1 <+: extra') :
    Traced base first spoiled extra' (t.erase (base ++ path)) := by
  have hbelow := FileTree.node?_erase_below t base hne
  have hbefore {below : List String} {node : Node} (hnode : node? (t.erase (base ++ path)) (base ++ below) = some node) :
      below ≠ path ∧ t.node? (base ++ below) = some node := by
    obtain ⟨hother, hnode⟩ := FileTree.node?_of_erase (List.append_ne_nil_of_right_ne_nil base hne) hnode
    exact ⟨fun heq => hother (heq ▸ rfl), hnode⟩
  refine ⟨fun other hother => ?_, ?_, fun above child hthere => ?_, fun below content hnode => ?_, fun below hnode => ?_⟩
  · rw [FileTree.node?_erase_outside t hne hother, h.outside other hother]
  · have hroot := hbelow []
    rw [if_neg fun heq => hne heq.symm, List.append_nil] at hroot
    rw [hroot, h.root]
  · obtain ⟨node, hnode⟩ := Option.ne_none_iff_exists'.mp hthere
    have hchild := (hbefore hnode).2
    rw [hbelow, if_neg]
    · exact h.inside above child (by rw [hchild]; exact Option.some_ne_none _)
    · rintro rfl
      rw [hleaf child] at hchild
      cases hchild
  · exact h.file below content (hbefore hnode).2
  · obtain ⟨hother, hnode⟩ := hbefore hnode
    rcases h.directory below hnode with hover | ⟨key, content, hkey, hfile, hover⟩ | hspoiled
    · exact .inl (hextra below hover hother)
    · by_cases heq : valuePath key = path
      · exact .inl (hover.trans (hvalue key heq))
      · refine .inr (.inl ⟨key, content, hkey, ?_, hover⟩)
        rw [hbelow, if_neg heq]
        exact hfile
    · exact .inr (.inr hspoiled)

/-- What is in a directory belongs to a value below it or to a spoiled key. -/
theorem Traced.directory_of_child {child : String} {node : Node} (h : Traced base first spoiled way t)
    (hnode : t.node? (base ++ (way ++ [child])) = some node) : HasValue base way t ∨ ∃ key, spoiled key ∧ way <+: (place key).1 := by
  cases node with
  | file content =>
    rcases h.file _ _ hnode with ⟨key, hkey, heq⟩ | ⟨key, hkey, heq⟩
    · exact .inl ⟨key, content, hkey, heq ▸ hnode, (List.append_inj' heq rfl).1 ▸ List.prefix_refl _⟩
    · exact .inr ⟨key, hkey, (List.append_inj' heq rfl).1 ▸ List.prefix_refl _⟩
  | directory =>
    rcases h.directory _ hnode with hover | hvalue | ⟨key, hkey, hover⟩
    · exact absurd hover concat_not_prefix
    · exact .inl (hvalue.above (List.prefix_append _ _))
    · exact .inr ⟨key, hkey, (List.prefix_append _ _).trans hover⟩

/-- Directories are removed as far as nothing is in them, so what is left of them is for something. -/
theorem Pruned.traced (hroot : Vacant here root base first) (h : Pruned here root base way t t')
    (htraced : Traced base first spoiled way t) (hpaved : Paved base way t) (hlegal : Legal root way) :
    Traced base first spoiled [] t' := by
  induction h with
  | top => exact htraced
  | @stays way t e hrefused =>
    have hextra (below : List String) (hover : below <+: way) :
        below <+: [] ∨ HasValue base below t ∨ ∃ key, spoiled key ∧ below <+: (place key).1 := by
      rcases List.eq_nil_or_concat way with rfl | ⟨above, name, hway⟩
      · exact .inl hover
      · rw [List.concat_eq_append] at hway
        subst hway
        have hlocated := (hroot.rooted htraced.outside htraced.root).locate_of_paved
          (fun upper hupper => hpaved upper (hupper.trans (List.prefix_append _ _))) hlegal
        have hnode := hpaved _ (List.prefix_refl _)
        rw [hlocated] at hrefused
        replace hrefused : t.removeDirectory (base ++ (above ++ [name])) = .error e := hrefused
        have hchildren : t.children (base ++ (above ++ [name])) ≠ [] := by
          intro hempty
          rw [FileTree.removeDirectory, hnode] at hrefused
          simp [hempty] at hrefused
        obtain ⟨⟨child, _⟩, hchild⟩ := List.exists_mem_of_ne_nil _ hchildren
        obtain ⟨node, hnode, _⟩ := FileTree.mem_children.mp hchild
        rw [List.append_assoc] at hnode
        refine .inr ((htraced.directory_of_child hnode).imp (·.above hover) ?_)
        rintro ⟨key, hkey, hway⟩
        exact ⟨key, hkey, hover.trans hway⟩
    refine { htraced with directory := fun below hnode => ?_ }
    exact (htraced.directory below hnode).elim (hextra below) .inr
  | @gone above name t t' _ hempty _ ih =>
    have hleaf (child : String) : t.node? (base ++ (above ++ [name] ++ [child])) = none := by
      rw [← List.append_assoc]
      exact FileTree.children_eq_nil_iff.mp hempty child
    have herased := htraced.erase (by simp) hleaf (fun below hover hne => (List.prefix_concat_iff.mp hover).resolve_left hne)
      fun key heq => (List.append_inj' heq rfl).1 ▸ List.prefix_refl _
    refine ih herased (fun upper hupper => ?_) hlegal.above
    rw [FileTree.node?_erase_below t base (by simp), if_neg]
    · exact hpaved upper (hupper.trans (List.prefix_append _ _))
    · rintro rfl
      exact concat_not_prefix hupper

theorem DeleteEffect.traced {result : Except OsError Unit} (hroot : Vacant here root base first) (hkey : keyFault? key = none)
    (h : DeleteEffect here root base key t result t') (htraced : Traced base first spoiled [] t) : Traced base first spoiled [] t' := by
  cases h with
  | refused => exact htraced
  | absent => exact htraced
  | removed hlocated hfile hpruned =>
    obtain ⟨_, hlegal, hdirectories⟩ :=
      (hroot.rooted htraced.outside htraced.root).of_located (fun _ h => h) (names_valuePath hkey) hlocated
    have hleaf (child : String) : t.node? (base ++ (valuePath key ++ [child])) = none := by
      refine Decidable.byContradiction fun hthere => ?_
      rw [htraced.inside _ child hthere] at hfile
      cases hfile
    have hsame (other : String) (heq : valuePath other = valuePath key) : (place other).1 <+: (place key).1 := by
      obtain rfl := valuePath_injective heq
      exact List.prefix_refl _
    have herased := htraced.erase (valuePath_ne_nil key) hleaf (fun below hover _ => hover.trans List.nil_prefix) hsame
    refine hpruned.traced hroot herased (fun upper hupper => ?_) hlegal.above
    have hne : upper ≠ valuePath key := by
      rintro rfl
      exact concat_not_prefix hupper
    rw [FileTree.node?_erase_below t base (valuePath_ne_nil key), if_neg hne]
    exact hdirectories upper (hupper.trans (List.prefix_append _ _)) hne

end Delete

/-! ## Runs -/

/-- A call that fails and still changes the tree. -/
def Spoils (here : List String) (root : FilePath) (c : Call) (t : FileTree) : Prop :=
  (∃ e, (Directory.perform (FileTree.fileSystem here) root c t).1 = .error e) ∧
    ∃ path, (Directory.perform (FileTree.fileSystem here) root c t).2.node? path ≠ t.node? path

/-- The tree that calls lead to. -/
def reached (here : List String) (root : FilePath) (first : FileTree) (calls : List Call) : FileTree :=
  (Call.answers (Directory.perform (FileTree.fileSystem here) root) calls first).2

/-- A put of the key was among the calls and spoiled the tree. -/
def SpoiledBy (here : List String) (root : FilePath) (first : FileTree) (calls : List Call) (key : String) : Prop :=
  ∃ before value after, calls = before ++ .put key value :: after ∧ Spoils here root (.put key value) (reached here root first before)

theorem perform_get_tree (key : String) (t : FileTree) : (Directory.perform (FileTree.fileSystem here) root (.get key) t).2 = t := by
  rw [Directory.perform]
  cases hkey : keyFault? key with
  | some fault => rw [checked_refused hkey]
  | none => rw [checked_eq hkey, get_read]

theorem perform_list_tree (directory : String) (t : FileTree) :
    (Directory.perform (FileTree.fileSystem here) root (.list directory) t).2 = t := by
  by_cases hall : directory = ""
  · rw [hall, perform_listAll, list_entries]
  · rw [perform_list_of_ne hall]
    cases hkey : keyFault? (withoutTrailing directory) with
    | some fault => rw [checked_refused hkey]
    | none => rw [checked_eq hkey, list_entries]

theorem Traced.perform (hroot : Vacant here root base first) (h : Traced base first spoiled [] t) (c : Call)
    (hspoiled : ∀ key value, c = .put key value → Spoils here root c t → spoiled key) :
    Traced base first spoiled [] (Directory.perform (FileTree.fileSystem here) root c t).2 := by
  have hrooted := hroot.rooted h.outside h.root
  cases c with
  | get key => rwa [perform_get_tree]
  | list directory => rwa [perform_list_tree]
  | put key value =>
    rcases perform_put_cases hrooted key value with ⟨fault, hrefused⟩ | ⟨result, t', hput, hkey, heffect⟩
    · rwa [hrefused]
    · have hspoils := hspoiled key value rfl
      rw [Spoils, hput] at hspoils
      rw [hput]
      refine heffect.traced hkey h ?_
      rintro ⟨e, rfl⟩ hchanged
      exact hspoils ⟨⟨.io e, rfl⟩, hchanged⟩
  | delete key =>
    rcases perform_delete_cases hrooted key with ⟨fault, hrefused⟩ | ⟨result, t', hdelete, hkey, heffect⟩
    · rwa [hrefused]
    · rw [hdelete]
      exact heffect.traced hroot hkey h

theorem reached_cons (c : Call) (calls : List Call) : reached here root t (c :: calls) =
    reached here root (Directory.perform (FileTree.fileSystem here) root c t).2 calls := rfl

theorem reached_append (first : FileTree) (before after : List Call) :
    reached here root first (before ++ after) = reached here root (reached here root first before) after := by
  induction before generalizing first with
  | nil => rfl
  | cons c before ih => exact ih _

/-- What calls leave behind belongs to values and to the puts that spoiled the tree. -/
theorem traced_run {calls : List Call} (hroot : Vacant here root base first) (h : Traced base first spoiled [] t)
    (hspoiled : ∀ key, SpoiledBy here root t calls key → spoiled key) :
    Traced base first spoiled [] (reached here root t calls) := by
  induction calls generalizing t with
  | nil => exact h
  | cons c rest ih =>
    rw [reached_cons]
    refine ih (h.perform hroot c ?_) ?_
    · rintro key value rfl hspoils
      exact hspoiled key ⟨[], value, rest, rfl, hspoils⟩
    · rintro key ⟨before, value, after, rfl, hspoils⟩
      exact hspoiled key ⟨c :: before, value, after, rfl, hspoils⟩

/-! ## Tidy trees -/

/-- Nothing is left behind: the root is there, all files are values, and every directory has one below it. -/
structure Tidy (base : List String) (t : FileTree) : Prop where
  root : t.node? base = some .directory
  file : ∀ below content, t.node? (base ++ below) = some (.file content) → ∃ key, keyFault? key = none ∧ below = valuePath key
  directory : ∀ below, below ≠ [] → t.node? (base ++ below) = some .directory → HasValue base below t

theorem Traced.tidy (h : Traced base first spoiled [] t) (hnone : ∀ key, ¬ spoiled key) : Tidy base t where
  root := h.root
  file below content hnode := (h.file below content hnode).resolve_right fun ⟨key, hkey, _⟩ => hnone key hkey
  directory below hne hnode := by
    rcases h.directory below hnode with hnil | hvalue | ⟨key, hkey, _⟩
    · exact absurd (List.prefix_nil.mp hnil) hne
    · exact hvalue
    · exact absurd hkey (hnone key)

/-- A put that spoils a tree leaves a directory with no value below it or a file that is none. -/
theorem PutEffect.not_tidy {value : Bytes} {e : OsError} (h : PutEffect root base key value t (.error e) t')
    (htraced : Traced base first spoiled [] t) (hchanged : ∃ path, t'.node? path ≠ t.node? path) : ¬ Tidy base t' := by
  intro htidy
  obtain ⟨path, hpath⟩ := hchanged
  rcases h.node?_cases path with hsame | ⟨hnone, hmade, upper, hne, _, rfl⟩ | ⟨rfl, _, ⟨hok, _⟩ | ⟨_, hleft⟩⟩ | ⟨_, _, hok, _⟩
  · exact hpath hsame
  · -- a value below the new directory would be an old one, and the directory would not be new
    obtain ⟨other, content, _, hfile, hover⟩ := htidy.directory upper hne hmade
    have hold : t.node? (base ++ valuePath other) = some (.file content) := by
      rcases h.node?_cases (base ++ valuePath other) with hsame | ⟨_, hdirectory, _⟩ | ⟨heq, _⟩ | ⟨_, _, hok, _⟩
      · exact hsame ▸ hfile
      · rw [hfile] at hdirectory
        cases hdirectory
      · exact absurd (List.append_cancel_left heq) (valuePath_ne_temporaryPath other key)
      · cases hok
    obtain ⟨rest, hrest⟩ := hover.trans (List.prefix_append _ [valueName (place other).2])
    have hmore : rest ≠ [] := by
      rintro rfl
      rw [List.append_nil] at hrest
      rw [hrest, show (place other).1 ++ [valueName (place other).2] = valuePath other from rfl, hfile] at hmade
      cases hmade
    rw [valuePath, ← hrest] at hold
    rw [htraced.above hmore (by rw [hold]; exact Option.some_ne_none _)] at hnone
    cases hnone
  · cases hok
  · obtain ⟨other, _, heq⟩ := htidy.file _ _ hleft
    exact valuePath_ne_temporaryPath other key heq.symm
  · cases hok

theorem Spoils.not_tidy {c : Call} (hroot : Vacant here root base first) (htraced : Traced base first spoiled [] t)
    (h : Spoils here root c t) : ¬ Tidy base (Directory.perform (FileTree.fileSystem here) root c t).2 := by
  obtain ⟨⟨e, he⟩, path, hpath⟩ := h
  have hrooted := hroot.rooted htraced.outside htraced.root
  cases c with
  | get key => exact absurd (by rw [perform_get_tree]) hpath
  | list directory => exact absurd (by rw [perform_list_tree]) hpath
  | put key value =>
    rcases perform_put_cases hrooted key value with ⟨fault, hrefused⟩ | ⟨result, t', hput, _, heffect⟩
    · exact absurd (by rw [hrefused]) hpath
    · rw [hput] at he hpath ⊢
      cases result with
      | ok => cases he
      | error e => exact heffect.not_tidy htraced ⟨path, hpath⟩
  | delete key =>
    rcases perform_delete_cases hrooted key with ⟨fault, hrefused⟩ | ⟨result, t', hdelete, hkey, heffect⟩
    · exact absurd (by rw [hrefused]) hpath
    · rw [hdelete] at he hpath
      cases result with
      | ok => cases he
      | error e => exact absurd (congrArg (fun u : FileTree => u.node? path) heffect.eq_of_error) hpath

/-! ## Listings -/

/-- What is listed is in the directory that the names lead to. -/
theorem mem_children_of_list (hrooted : Rooted here root base t) (hnames : ∀ part ∈ way, KeyPath.isName part) {entry : String}
    {names : List String} (hlist : (Directory.list (FileTree.fileSystem here) root way t).1 = .ok names) (hentry : entry ∈ names) :
    ∃ child ∈ t.children (base ++ way), listedName? child = some entry := by
  rw [list_entries] at hlist
  cases hlocated : t.locate here (root.append way) with
  | error e =>
    rw [hlocated] at hlist
    cases e with
    | notFound =>
      obtain rfl : [] = names := Except.ok.inj hlist
      cases hentry
    | _ => cases hlist
  | ok target =>
    obtain ⟨rfl, _⟩ := hrooted.of_located (fun _ h => h) hnames hlocated
    rw [hlocated, show (Except.ok (base ++ way) >>= t.entries) = t.entries (base ++ way) from rfl, FileTree.entries] at hlist
    cases hnode : t.node? (base ++ way) with
    | none =>
      rw [hnode] at hlist
      obtain rfl : [] = names := Except.ok.inj hlist
      cases hentry
    | some node =>
      rw [hnode] at hlist
      cases node with
      | file content => cases hlist
      | directory =>
        obtain rfl : sortedNames ((t.children (base ++ way)).filterMap listedName?) = names := Except.ok.inj hlist
        exact List.mem_filterMap.mp (mem_sortedNames.mp hentry)

theorem mem_children_of_perform (hrooted : Rooted here root base t) {directory entry : String} {names : List String}
    (hlist : (Directory.perform (FileTree.fileSystem here) root (.list directory) t).1 = .ok names) (hentry : entry ∈ names) :
    ∃ child ∈ t.children (base ++ listedWay directory), listedName? child = some entry := by
  have hok {result : Except OsError (List String)} (h : result.mapError StorageError.io = .ok names) : result = .ok names := by
    cases result with
    | ok => exact congrArg Except.ok (Except.ok.inj h)
    | error e => cases h
  by_cases hall : directory = ""
  · rw [hall, perform_listAll] at hlist
    rw [listedWay, if_pos hall]
    exact mem_children_of_list hrooted (by simp) (hok hlist) hentry
  · rw [perform_list_of_ne hall] at hlist
    rw [listedWay, if_neg hall]
    cases hkey : keyFault? (withoutTrailing directory) with
    | some fault =>
      rw [checked_refused hkey] at hlist
      cases hlist
    | none =>
      rw [checked_eq hkey] at hlist
      exact mem_children_of_list hrooted (keyFault?_eq_none_iff.mp hkey) (hok hlist) hentry

/-- A directory that is listed is there. -/
theorem Traced.listed (hroot : Vacant here root base first) (h : Traced base first spoiled [] t) {directory name : String}
    {names : List String} (hlist : (Directory.perform (FileTree.fileSystem here) root (.list directory) t).1 = .ok names)
    (hname : name ++ "/" ∈ names) : t.node? (base ++ (listedWay directory ++ [name])) = some .directory := by
  obtain ⟨⟨child, isDirectory⟩, hchild, hlisted⟩ := mem_children_of_perform (hroot.rooted h.outside h.root) hlist hname
  obtain ⟨node, hnode, rfl⟩ := FileTree.mem_children.mp hchild
  rw [List.append_assoc] at hnode
  cases node with
  | directory =>
    have heq : child ++ "/" = name ++ "/" := Option.some.inj hlisted
    rwa [(String.append_left_inj "/").mp heq] at hnode
  | file content =>
    -- a value is listed by the last segment of its key, which holds no slash, and a first file not at all
    rcases h.file _ _ hnode with ⟨key, _, heq⟩ | ⟨key, _, heq⟩
    · rw [List.singleton_inj.mp (List.append_inj' heq rfl).2] at hlisted
      have hlast : (place key).2 = name ++ "/" := Option.some.inj ((listedName?_valueName _).symm.trans hlisted)
      have hsegment : (place key).2 ∈ KeyPath.segments key := by
        rw [segments_eq]
        exact List.mem_append_right _ (List.mem_singleton_self _)
      exact absurd (show '/' ∈ (place key).2.toList by simp [hlast]) (Text.not_mem_of_mem_pieces '/' hsegment)
    · rw [List.singleton_inj.mp (List.append_inj' heq rfl).2] at hlisted
      simp [listedName?, temporaryName] at hlisted

/-- After any calls from an empty directory the root is still there, and whatever is below it and not
    for a value belongs to the key of a put that failed and still changed the tree; so a listing
    names a directory only if a value or such a put is below it. And nothing is ever left behind
    exactly if there is no such put. -/
theorem tidy_iff_unspoiled (hroot : Vacant here root base first) (calls : List Call) :
    Traced base first (SpoiledBy here root first calls) [] (reached here root first calls) ∧
      (∀ directory names name,
        (Directory.perform (FileTree.fileSystem here) root (.list directory) (reached here root first calls)).1 = .ok names →
          name ++ "/" ∈ names → HasValue base (listedWay directory ++ [name]) (reached here root first calls) ∨
            ∃ key, SpoiledBy here root first calls key ∧ listedWay directory ++ [name] <+: (place key).1) ∧
      ((∀ before, before <+: calls → Tidy base (reached here root first before)) ↔
        ∀ before c after, calls = before ++ c :: after → ¬ Spoils here root c (reached here root first before)) := by
  have htraced := traced_run hroot (hroot.traced (SpoiledBy here root first calls)) fun _ h => h
  refine ⟨htraced, ?_, ?_, ?_⟩
  · intro directory names name hlist hname
    exact (htraced.directory _ (htraced.listed hroot hlist hname)).resolve_left (by simp)
  · rintro htidy before c after rfl hspoils
    have hbefore := traced_run hroot (hroot.traced (SpoiledBy here root first before)) fun _ h => h
    refine hspoils.not_tidy hroot hbefore ?_
    have hnext := htidy (before ++ [c]) ⟨after, by simp⟩
    rwa [reached_append] at hnext
  · rintro hunspoiled before ⟨rest, rfl⟩
    refine (traced_run hroot (hroot.traced fun _ => False) fun key hkey => ?_).tidy fun _ h => h
    obtain ⟨earlier, value, after, rfl, hspoils⟩ := hkey
    exact hunspoiled earlier _ (after ++ rest) (by simp) hspoils

/-- The value of `a` cannot be moved to where the directory of `_a/b` is, and its first file is left. -/
theorem tidy_iff_unspoiled_stranded :
    let first : FileTree := (∅ : FileTree).insert ["d"] .directory
    let calls : List Call := [.put "_a/b" [1], .put "a" [2]]
    Vacant [] ⟨true, ["d"]⟩ ["d"] first ∧
      (reached [] ⟨true, ["d"]⟩ first calls).node? ["d", "._a.tmp"] = some (.file [2]) ∧
      (∃ key, SpoiledBy [] ⟨true, ["d"]⟩ first calls key ∧ ["._a.tmp"] = temporaryPath key) ∧
      ¬ ∀ before, before <+: calls → Tidy ["d"] (reached [] ⟨true, ["d"]⟩ first before) := by
  intro first calls
  have hroot : Vacant [] ⟨true, ["d"]⟩ ["d"] first := .single rfl
  have hleft : (reached [] ⟨true, ["d"]⟩ first calls).node? ["d", "._a.tmp"] = some (.file [2]) := rfl
  obtain ⟨htraced, _, hiff⟩ := tidy_iff_unspoiled hroot calls
  have hspoiled : ∃ key, SpoiledBy [] ⟨true, ["d"]⟩ first calls key ∧ ["._a.tmp"] = temporaryPath key := by
    refine (htraced.file ["._a.tmp"] [2] hleft).resolve_left ?_
    rintro ⟨key, _, heq⟩
    exact valuePath_ne_temporaryPath key "a" heq.symm
  refine ⟨hroot, hleft, hspoiled, fun htidy => ?_⟩
  obtain ⟨key, ⟨before, value, after, hcalls, hspoils⟩, _⟩ := hspoiled
  exact hiff.mp htidy before _ after hcalls hspoils

end Strongbox.Directory
