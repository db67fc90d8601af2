/-
  Strongbox.Proofs.Storage.Coexistence — which keys can stand side by side in files.

  A directory is named as the segment it is for; the file of a value has `_` in front, and the one
  it is first written to `._` in front and `.tmp` behind. A segment may itself be such a name: the
  directory of `_a/b` is where the value of `a` is. A call that needs a directory where a value is,
  or a file where a directory is, fails; every other call is answered as over a memory. So files
  serve as a map as long as no such two keys meet, and no longer.

  Proved:
  - `Holds.blocked`: a call that something stored is in the way of fails.
  - `unhindered_of_names`: nothing is in the way if no directory has the name of a file.
  - `files_agree_iff`: calls over files are answered as over a memory exactly if nothing is in the way
    of any of them.
-/

import Strongbox.Proofs.Storage.Effects

namespace Strongbox.Directory

variable {here base way : List String} {root : FilePath} {first t : FileTree} {keys : String → Prop} {m : Memory} {name : String}

/-! ## What stands in the way -/

/-- Names that pass the file of a value lead nowhere. -/
theorem Holds.locate_blocked (h : Holds base first keys m [] t) (hroot : Vacant here root base first) (hblocked : ¬ Passable m way)
    (hlegal : Legal root (way ++ [name])) : t.locate here (root.append (way ++ [name])) = .error .notDirectory := by
  obtain ⟨key, hkey, rest, rfl⟩ : ∃ key : String, m[key]? ≠ none ∧ valuePath key <+: way := by simpa [Passable] using hblocked
  obtain ⟨content, hcontent⟩ := Option.ne_none_iff_exists'.mp hkey
  have hfile := (h.file _ content).mpr ⟨key, hcontent, rfl⟩
  have hover (above : List String) (hpre : above <+: valuePath key) (hne : above ≠ valuePath key) :
      t.node? (base ++ above) = some .directory := h.above (by rw [hfile]; exact Option.some_ne_none _) hpre hne
  have hplain := hlegal.plain
  rw [(h.rooted hroot).locate_eq_walk hlegal]
  rw [List.append_assoc] at hplain ⊢
  cases hmore : rest ++ [name] with
  | nil => simp at hmore
  | cons next more =>
    rw [hmore] at hplain
    exact FileTree.walk_file hplain hover hfile

/-- Where a directory is needed there is one. -/
theorem Holds.occupied {path : List String} (h : Holds base first keys m [] t) (hblocked : ¬ Unoccupied m path) :
    t.node? (base ++ path) = some .directory := by
  refine (h.directory path).mpr (.inr ?_)
  simpa [Unoccupied] using hblocked

/-- What is asked of a file fails where a value or a directory is in the way. -/
theorem Holds.refused {α : Type} {f : List String → Except OsError α} (h : Holds base first keys m [] t)
    (hroot : Vacant here root base first) (hlegal : Legal root (way ++ [name]))
    (hblocked : ¬ (Passable m way ∧ Unoccupied m (way ++ [name])))
    (hf : t.node? (base ++ (way ++ [name])) = some .directory → f (base ++ (way ++ [name])) = .error .isDirectory) :
    ∃ e, (t.locate here (root.append (way ++ [name])) >>= f) = .error e ∧ e ≠ .notFound := by
  by_cases hpass : Passable m way
  · have hnode := h.occupied fun hfree => hblocked ⟨hpass, hfree⟩
    rcases h.locate hroot hpass hlegal with ⟨hlocated, _⟩ | ⟨_, _, hnone⟩
    · rw [hlocated]
      exact ⟨.isDirectory, hf hnode, nofun⟩
    · rw [hnode] at hnone
      cases hnone
  · rw [h.locate_blocked hroot hpass hlegal]
    exact ⟨.notDirectory, rfl, nofun⟩

/-- Where the value of a key is, or below it, nothing can be listed. -/
theorem Holds.unlisted (h : Holds base first keys m [] t) (hroot : Vacant here root base first) (hlegal : Legal root way)
    (hne : way ≠ []) (hblocked : ¬ Passable m way) :
    ∃ e, (t.locate here (root.append way) >>= t.entries) = .error e ∧ e ≠ .notFound := by
  obtain ⟨above, name, rfl⟩ : ∃ above name, way = above ++ [name] :=
    ⟨way.dropLast, way.getLast hne, (List.dropLast_concat_getLast hne).symm⟩
  refine ⟨.notDirectory, ?_, nofun⟩
  by_cases hpass : Passable m above
  · obtain ⟨key, hkey, hover⟩ : ∃ key : String, m[key]? ≠ none ∧ valuePath key <+: above ++ [name] := by
      simpa [Passable] using hblocked
    obtain ⟨content, hcontent⟩ := Option.ne_none_iff_exists'.mp hkey
    have hfile := (h.file _ content).mpr ⟨key, hcontent, rfl⟩
    rw [(List.prefix_concat_iff.mp hover).resolve_right (hpass key hkey)] at hfile
    rw [h.locate_bind hroot hpass hlegal fun hnone => by rw [FileTree.entries, hnone], FileTree.entries, hfile]
  · rw [h.locate_blocked hroot hpass hlegal]
    rfl

/-- A put that goes through had nothing in its way. -/
theorem Holds.clear_of_put {key : String} {value : Bytes} {t' : FileTree} (h : Holds base first keys m [] t)
    (heffect : PutEffect root base key value t (.ok ()) t') : Clear m (.put key value) := by
  cases heffect with
  | @stored u hgrown hpaved _ htemporary hvalue =>
    refine ⟨?_, ?_, ?_⟩
    · intro other hother hover
      obtain ⟨content, hcontent⟩ := Option.ne_none_iff_exists'.mp hother
      have hfile := (h.file _ content).mpr ⟨other, hcontent, rfl⟩
      have hkept := hgrown.kept (base ++ valuePath other) (by rw [hfile]; exact Option.some_ne_none _)
      rw [hpaved _ hover, hfile] at hkept
      cases hkept
    · intro other hother hover
      exact hvalue (hgrown.directory ((h.directory _).mpr (.inr ⟨other, hother, hover⟩)))
    · intro other hother hover
      exact htemporary (hgrown.directory ((h.directory _).mpr (.inr ⟨other, hother, hover⟩)))

theorem error_of_checked {σ α : Type} {key : String} {go : StateM σ (Except OsError α)} {s : σ} {e : OsError}
    (hkey : keyFault? key = none) (h : (go s).1 = .error e) : (checked key go s).1 = .error (.io e) := by
  rw [checked_eq hkey, h]
  rfl

/-- A call that something stored is in the way of fails. -/
theorem Holds.blocked {c : Call} (h : Holds base first keys m [] t) (hroot : Vacant here root base first) (hc : Served root c)
    (hblocked : ¬ Clear m c) : ∃ e, (Directory.perform (FileTree.fileSystem here) root c t).1 = .error e := by
  have hrooted := h.rooted hroot
  cases hc with
  | @get key hkey hlegal =>
    obtain ⟨e, hread, he⟩ := h.refused hroot hlegal hblocked (f := t.read) fun hnode => by rw [FileTree.read, hnode]
    refine ⟨.io e, error_of_checked hkey ?_⟩
    rw [get_read, show t.locate here (root.append (valuePath key)) >>= t.read = .error e from hread]
    cases e with
    | notFound => exact absurd rfl he
    | _ => rfl
  | @put key hkey hlegal value =>
    rcases perform_put_cases hrooted key value with ⟨fault, hrefused⟩ | ⟨result, t', hput, _, heffect⟩
    · exact ⟨_, congrArg Prod.fst hrefused⟩
    · cases result with
      | ok => exact absurd (h.clear_of_put heffect) hblocked
      | error e => exact ⟨.io e, congrArg Prod.fst hput⟩
  | @delete key hkey hlegal =>
    obtain ⟨e, hremove, he⟩ := h.refused hroot hlegal hblocked (f := t.removeFile) fun hnode => by rw [FileTree.removeFile, hnode]
    replace hremove : t.locate here (root.append (valuePath key)) >>= t.removeFile = .error e := hremove
    rcases perform_delete_cases hrooted key with ⟨fault, hrefused⟩ | ⟨result, t', hdelete, _, heffect⟩
    · exact ⟨_, congrArg Prod.fst hrefused⟩
    · cases heffect with
      | refused => exact ⟨_, congrArg Prod.fst hdelete⟩
      | absent hmissing => exact absurd (Except.error.inj (hremove.symm.trans hmissing)) he
      | removed hlocated hfile =>
        rw [hlocated] at hremove
        replace hremove : t.removeFile (base ++ valuePath key) = .error e := hremove
        rw [FileTree.removeFile, hfile] at hremove
        cases hremove
  | listAll => exact absurd (fun _ _ hover => valuePath_ne_nil _ (List.prefix_nil.mp hover)) hblocked
  | @list key hkey hlegal =>
    replace hblocked : ¬ Passable m (KeyPath.segments key) := listedWay_append hkey ▸ hblocked
    obtain ⟨e, hread, he⟩ := h.unlisted hroot hlegal (Text.pieces_ne_nil '/' key) hblocked
    rw [perform_list hkey]
    refine ⟨.io e, error_of_checked hkey ?_⟩
    rw [list_entries, hread]
    cases e with
    | notFound => exact absurd rfl he
    | _ => rfl

/-! ## Runs -/

/-- Nothing stored is in the way of any of the calls when these are made one after the other. -/
def Unhindered : Memory → List Call → Prop
  | _, [] => True
  | m, c :: rest => Clear m c ∧ Unhindered (Memory.after c m) rest

/-- The directories that a call passes or lists. -/
def directories : Call → List String
  | .get key => (place key).1
  | .put key _ => (place key).1
  | .delete key => (place key).1
  | .list directory => listedWay directory

/-- The names of directories that no file has. -/
def Unlike (part : String) : Prop := ∀ name, part ≠ valueName name ∧ part ≠ temporaryName name

theorem unlike_of_head {part : String} (hvalue : part.toList.head? ≠ some '_') (htemporary : part.toList.head? ≠ some '.') :
    Unlike part := by
  intro name
  constructor
  · rintro rfl
    exact hvalue (by simp [valueName])
  · rintro rfl
    exact htemporary (by simp [temporaryName])

theorem not_prefix_of_unlike {path : List String} (hname : (∃ other, name = valueName other) ∨ ∃ other, name = temporaryName other)
    (hway : ∀ part ∈ way, Unlike part) : ¬ path ++ [name] <+: way := by
  intro hover
  have hunlike := hway name (hover.subset (by simp))
  rcases hname with ⟨other, rfl⟩ | ⟨other, rfl⟩
  · exact (hunlike other).1 rfl
  · exact (hunlike other).2 rfl

/-- Nothing is in the way if no directory has the name of a file. -/
theorem unhindered_of_names {calls : List Call} (hcalls : ∀ c ∈ calls, ∀ part ∈ directories c, Unlike part)
    (hstored : ∀ key : String, m[key]? ≠ none → ∀ part ∈ (place key).1, Unlike part) : Unhindered m calls := by
  induction calls generalizing m with
  | nil => trivial
  | cons c rest ih =>
    have hcall := hcalls c List.mem_cons_self
    have hpass {way : List String} (hway : ∀ part ∈ way, Unlike part) : Passable m way :=
      fun key _ => not_prefix_of_unlike (.inl ⟨_, rfl⟩) hway
    have hfree {path : List String} {name : String} (hname : (∃ other, name = valueName other) ∨ ∃ other, name = temporaryName other) :
        Unoccupied m (path ++ [name]) := fun key hkey => not_prefix_of_unlike hname (hstored key hkey)
    constructor
    · cases c with
      | get key => exact ⟨hpass hcall, hfree (.inl ⟨_, rfl⟩)⟩
      | put key value => exact ⟨hpass hcall, hfree (.inl ⟨_, rfl⟩), hfree (.inr ⟨_, rfl⟩)⟩
      | delete key => exact ⟨hpass hcall, hfree (.inl ⟨_, rfl⟩)⟩
      | list directory => exact hpass hcall
    · refine ih (fun other hother => hcalls other (List.mem_cons_of_mem c hother)) fun key hkey => ?_
      cases c with
      | get | list => exact hstored key hkey
      | put other value =>
        rcases Memory.insert_ne_none.mp hkey with rfl | hkey
        · exact hcall
        · exact hstored key hkey
      | delete other => exact hstored key (Memory.erase_ne_none.mp hkey).2

/-- Over a tree that holds a memory, calls are answered as over the memory exactly as long as nothing
    stored is in the way. -/
theorem Holds.answers_iff {calls : List Call} (h : Holds base first (keyFault? · = none) m [] t) (hroot : Vacant here root base first)
    (hserved : ∀ c ∈ calls, Served root c) :
    (Call.answers (Directory.perform (FileTree.fileSystem here) root) calls t).1 = (Call.answers Memory.perform calls m).1 ↔
      Unhindered m calls := by
  induction calls generalizing m t with
  | nil => exact iff_of_true rfl trivial
  | cons c rest ih =>
    have hc := hserved c List.mem_cons_self
    rw [Call.answers_cons, Call.answers_cons, Memory.perform_eq, Unhindered]
    by_cases hclear : Clear m c
    · have hput (key : String) (value : Bytes) (heq : c = .put key value) : keyFault? key = none := by
        subst heq
        cases hc
        assumption
      obtain ⟨t', hanswer, hholds⟩ := h.perform hroot (fun _ hkey => hkey) hput hc hclear
      have hrest := ih hholds fun other hother => hserved other (List.mem_cons_of_mem c hother)
      rw [hanswer, and_iff_right hclear, ← hrest]
      exact List.cons_inj_right _
    · obtain ⟨e, hanswer⟩ := h.blocked hroot hc hclear
      refine iff_of_false ?_ fun h => hclear h.1
      intro heq
      have hhead := eq_of_heq (Sigma.mk.inj (List.cons.inj heq).1).2
      rw [hanswer] at hhead
      cases hhead

/-- Calls about keys that the check accepts and names that the file system takes, from an empty
    directory: they are answered as over a memory, where none fails, exactly if nothing stored is in
    the way of any of them, and that is so whenever no directory has the name of a file. -/
theorem files_agree_iff {directory : String} {calls : List Call} (hroot : Vacant here (.ofText directory) base first)
    (hserved : ∀ c ∈ calls, Served (.ofText directory) c) :
    ((Call.answers (Directory.perform (FileTree.fileSystem here) (.ofText directory)) calls first).1 =
        (Call.answers Memory.perform calls ∅).1 ↔ Unhindered ∅ calls) ∧
      ((∀ c ∈ calls, ∀ part ∈ directories c, Unlike part) → Unhindered ∅ calls) :=
  ⟨(hroot.holds _).answers_iff hroot hserved,
    fun hcalls => unhindered_of_names hcalls fun _ hkey => absurd Std.ExtTreeMap.getElem?_empty hkey⟩

/-- A key and a key below it are stored side by side, but not `a` and `_a/b`. -/
theorem files_agree_beside_not_across :
    let first : FileTree := (∅ : FileTree).insert ["d"] .directory
    let beside : List Call := [.put "a" [1], .put "a/b" [2], .get "a", .list ""]
    let across : List Call := [.put "a" [1], .put "_a/b" [2]]
    Vacant [] (.ofText "/d") ["d"] first ∧ (∀ c ∈ beside ++ across, Served (.ofText "/d") c) ∧
      (Call.answers (Directory.perform (FileTree.fileSystem []) (.ofText "/d")) beside first).1 = (Call.answers Memory.perform beside ∅).1 ∧
      (Call.answers (Directory.perform (FileTree.fileSystem []) (.ofText "/d")) across first).1 ≠
        (Call.answers Memory.perform across ∅).1 := by
  intro first beside across
  have hroot : Vacant [] (.ofText "/d") ["d"] first := .single rfl
  have hserved : ∀ c ∈ beside ++ across, Served (.ofText "/d") c := by
    have hput (value : Bytes) : ∀ key ∈ ["a", "a/b", "_a/b"], Served (.ofText "/d") (.put key value) := by
      intro key hkey
      have hchecks : ∀ key ∈ ["a", "a/b", "_a/b"], keyFault? key = none ∧ Legal (.ofText "/d") (temporaryPath key) := by decide
      exact .put (hchecks key hkey).1 (hchecks key hkey).2 value
    simp only [beside, across, List.cons_append, List.nil_append, List.forall_mem_cons]
    exact ⟨hput _ _ (by simp), hput _ _ (by simp), .get (by decide) (by decide), .listAll, hput _ _ (by simp), hput _ _ (by simp), nofun⟩
  have hbeside := files_agree_iff hroot fun c hc => hserved c (List.mem_append_left _ hc)
  have hacross := files_agree_iff hroot fun c hc => hserved c (List.mem_append_right _ hc)
  refine ⟨hroot, hserved, hbeside.1.mpr (hbeside.2 ?_), fun heq => ?_⟩
  · have hheads : ∀ c ∈ beside, ∀ part ∈ directories c, part.toList.head? ≠ some '_' ∧ part.toList.head? ≠ some '.' := by decide
    exact fun c hc part hpart => unlike_of_head (hheads c hc part hpart).1 (hheads c hc part hpart).2
  · obtain ⟨_, ⟨hpass, _⟩, _⟩ := hacross.1.mp heq
    exact hpass "a" (by decide) (by decide)

end Strongbox.Directory
