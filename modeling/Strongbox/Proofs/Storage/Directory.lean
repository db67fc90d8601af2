/-
  Strongbox.Proofs.Storage.Directory — a tree that holds a memory.

  The value of a key is in a file below the directories that its segments name. A tree holds a
  memory if below the base it has these files, the directories above them, and nothing else; while
  a call is under way it has the directories along one more path. A key can be reached as long as
  its names fit, no value is where it needs a directory, and no directory where it needs a file.

  Proved:
  - `Rooted.locate_of_paved`, `Rooted.of_located`: where names below the root lead, in any tree.
  - `Holds.value`: what is stored under a key is what is in its file.
  - `Holds.locate`: names lead to what they name, or something is missing.
  - `Holds.make`, `Holds.remove`, `Holds.put`, `Holds.erase`: what a change of the tree leaves.
-/

import Strongbox.Proofs.Storage.Access
import Strongbox.Proofs.Storage.Children
import Strongbox.Proofs.Storage.FileTree
import Strongbox.Storage.Directory

namespace Strongbox.Directory

open FileTree (Plain node?)

/-! ## Where values are -/

/-- The file of a key, below the root. -/
def valuePath (key : String) : List String := (place key).1 ++ [valueName (place key).2]

/-- The file that a value is first written to. -/
def temporaryPath (key : String) : List String := (place key).1 ++ [temporaryName (place key).2]

theorem segments_eq (key : String) : KeyPath.segments key = (place key).1 ++ [(place key).2] := by
  have hne : KeyPath.segments key ≠ [] := Text.pieces_ne_nil '/' key
  rw [place, List.getLast?_eq_some_getLast hne, Option.getD_some, List.dropLast_concat_getLast hne]

/-- The directories and the name are the segments, however these are put together. -/
theorem place_eq {key name : String} {above : List String} (h : KeyPath.segments key = above ++ [name]) :
    place key = (above, name) := by
  rw [segments_eq] at h
  have hlast := List.append_inj' h rfl
  exact Prod.ext hlast.1 (List.singleton_inj.mp hlast.2)

theorem valuePath_ne_nil (key : String) : valuePath key ≠ [] := by simp [valuePath]

theorem temporaryPath_ne_nil (key : String) : temporaryPath key ≠ [] := by simp [temporaryPath]

theorem concat_not_prefix {way : List String} {name : String} : ¬ way ++ [name] <+: way := by
  intro h
  have hlength := h.length_le
  rw [List.length_append, List.length_singleton] at hlength
  omega

theorem valuePath_injective {a b : String} (h : valuePath a = valuePath b) : a = b := by
  have hlast := List.append_inj' h rfl
  have hname : (place a).2 = (place b).2 := (String.append_right_inj "_").mp (List.singleton_inj.mp hlast.2)
  apply KeyRing.segments_injective
  rw [segments_eq, segments_eq, hlast.1, hname]

/-- A value is not where another is first written to. -/
theorem valuePath_ne_temporaryPath (a b : String) : valuePath a ≠ temporaryPath b := by
  intro h
  have hname := List.singleton_inj.mp (List.append_inj' h rfl).2
  have hhead := congrArg (fun name : String => name.toList.head?) hname
  simp [valueName, temporaryName] at hhead

/-! ## Names that fit -/

/-- A name that can be that of a directory and of a value: neither it nor what a value is written
    to under it is refused or mistaken for something else. -/
structure Proper (name : String) : Prop where
  ne_empty : name ≠ ""
  undotted : name.toList.head? ≠ some '.'
  nul : '\x00' ∉ name.toList
  size : name.utf8ByteSize + 6 ≤ FileTree.maxNameLength

theorem isName_of_undotted {name : String} (hne : name ≠ "") (h : name.toList.head? ≠ some '.') : KeyPath.isName name := by
  have hdot : name ≠ "." ∧ name ≠ ".." := by
    constructor
    all_goals
      rintro rfl
      exact h rfl
  simp [KeyPath.isName, hne, hdot]

theorem isName_of_size {name : String} (h : 2 < name.utf8ByteSize) : KeyPath.isName name := by
  have hne : name ≠ "" ∧ name ≠ "." ∧ name ≠ ".." := by
    refine ⟨?_, ?_, ?_⟩
    all_goals
      rintro rfl
      exact absurd h (by decide)
  simp [KeyPath.isName, hne]

theorem isName_valueName (name : String) : KeyPath.isName (valueName name) :=
  isName_of_undotted (by simp [valueName]) (by simp [valueName])

theorem utf8ByteSize_valueName (name : String) : (valueName name).utf8ByteSize = name.utf8ByteSize + 1 := by
  rw [valueName, String.utf8ByteSize_append, show "_".utf8ByteSize = 1 by decide, Nat.add_comm]

theorem utf8ByteSize_temporaryName (name : String) : (temporaryName name).utf8ByteSize = name.utf8ByteSize + 6 := by
  rw [temporaryName, String.utf8ByteSize_append, String.utf8ByteSize_append, utf8ByteSize_valueName,
    show ".".utf8ByteSize = 1 by decide, show ".tmp".utf8ByteSize = 4 by decide]
  omega

theorem isName_temporaryName (name : String) : KeyPath.isName (temporaryName name) :=
  isName_of_size (by rw [utf8ByteSize_temporaryName]; omega)

namespace Proper

variable {name : String} (h : Proper name)

include h

theorem plain : Plain name where
  isName := isName_of_undotted h.ne_empty h.undotted
  nul := h.nul
  size := by
    have := h.size
    omega

theorem plain_valueName : Plain (valueName name) where
  isName := isName_valueName name
  nul := by simpa [valueName] using h.nul
  size := by
    have := h.size
    rw [utf8ByteSize_valueName]
    omega

theorem plain_temporaryName : Plain (temporaryName name) where
  isName := isName_temporaryName name
  nul := by simpa [temporaryName, valueName] using h.nul
  size := by
    rw [utf8ByteSize_temporaryName]
    exact h.size

end Proper

/-- A path below the root that is not too long. -/
def Fits (root : FilePath) (parts : List String) : Prop := (root.append parts).text.utf8ByteSize ≤ FileTree.maxPathLength

/-- Names below the root that the file system takes: they lead to what they name, and are not too
    long together. -/
structure Legal (root : FilePath) (parts : List String) : Prop where
  plain : ∀ part ∈ parts, Plain part
  fits : Fits root parts

instance (root : FilePath) (parts : List String) : Decidable (Fits root parts) := inferInstanceAs (Decidable (_ ≤ _))

instance (root : FilePath) (parts : List String) : Decidable (Legal root parts) :=
  decidable_of_iff ((∀ part ∈ parts, Plain part) ∧ Fits root parts)
    ⟨fun ⟨hplain, hfits⟩ => ⟨hplain, hfits⟩, fun ⟨hplain, hfits⟩ => ⟨hplain, hfits⟩⟩

theorem Legal.above {root : FilePath} {way more : List String} (h : Legal root (way ++ more)) : Legal root way where
  plain part hpart := h.plain part (List.mem_append_left _ hpart)
  fits := Nat.le_trans (root.utf8ByteSize_append_le _ _) h.fits

/-! ## Where the root leads -/

/-- The root leads to a directory. -/
structure Rooted (here : List String) (root : FilePath) (base : List String) (t : FileTree) : Prop where
  located : t.locate here root = .ok base
  directory : t.node? base = some .directory

/-- All directories along a way are there. -/
def Paved (base way : List String) (t : FileTree) : Prop := ∀ upper, upper <+: way → t.node? (base ++ upper) = some .directory

namespace Rooted

variable {here base way : List String} {root : FilePath} {t t' : FileTree} {name : String}

theorem mono (h : Rooted here root base t)
    (hkept : ∀ path, t.node? path = some .directory → t'.node? path = some .directory) : Rooted here root base t' where
  located := FileTree.locate_mono h.located hkept
  directory := hkept base h.directory

theorem isEmpty_append (h : Rooted here root base t) (parts : List String) : (root.append parts).isEmpty = false :=
  FilePath.isEmpty_append (FileTree.isEmpty_of_located h.located) parts

theorem locate_root (h : Rooted here root base t) : t.locate here (root.append []) = .ok base := by
  obtain ⟨hnul, hsize, hwalk⟩ := FileTree.locate_eq_ok h.located
  exact FileTree.locate_append hnul hwalk nofun (Nat.le_trans root.utf8ByteSize_append_nil_le hsize) (h.isEmpty_append [])

theorem legal (h : Rooted here root base t) : Legal root [] :=
  ⟨nofun, Nat.le_trans root.utf8ByteSize_append_nil_le (FileTree.locate_eq_ok h.located).2.1⟩

/-- A path below the root leads where its names lead from there. -/
theorem locate_eq_walk (h : Rooted here root base t) (hlegal : Legal root (way ++ [name])) :
    t.locate here (root.append (way ++ [name])) = t.walk base (way ++ [name]) := by
  obtain ⟨hnul, _, hwalk⟩ := FileTree.locate_eq_ok h.located
  exact FileTree.locate_append hnul hwalk (fun part hpart => (hlegal.plain part hpart).nul) hlegal.fits
    (h.isEmpty_append _)

/-- Names lead to what they name where all they pass are directories. -/
theorem locate_of_paved (h : Rooted here root base t) (hway : Paved base way t) (hlegal : Legal root (way ++ [name])) :
    t.locate here (root.append (way ++ [name])) = .ok (base ++ (way ++ [name])) := by
  have hover {upper : List String} (hpre : upper <+: way ++ [name]) (hne : upper ≠ way ++ [name]) :
      t.node? (base ++ upper) = some .directory := hway upper ((List.prefix_concat_iff.mp hpre).resolve_left hne)
  rw [h.locate_eq_walk hlegal]
  rcases FileTree.walk_plain hlegal.plain (fun upper hpre hne content => by rw [hover hpre hne]; nofun) with
    ⟨hlocated, _⟩ | ⟨_, upper, hpre, hne, hnone⟩
  · exact hlocated
  · rw [hover hpre hne] at hnone
    cases hnone

/-- A directory below the root leads to where its names say. -/
theorem locate_way (h : Rooted here root base t) (hway : Paved base way t) (hlegal : Legal root way) :
    t.locate here (root.append way) = .ok (base ++ way) := by
  rcases List.eq_nil_or_concat way with rfl | ⟨above, name, rfl⟩
  · rw [List.append_nil]
    exact h.locate_root
  · rw [List.concat_eq_append] at hway hlegal ⊢
    exact h.locate_of_paved (fun upper hover => hway upper (hover.trans (List.prefix_append _ _))) hlegal

/-- Names that lead somewhere, though directories may have been removed, lead to what they name. -/
theorem of_located {parts target : List String} (h : Rooted here root base t)
    (hless : ∀ path, t'.node? path = some .directory → t.node? path = some .directory)
    (hnames : ∀ part ∈ parts, KeyPath.isName part) (hlocated : t'.locate here (root.append parts) = .ok target) :
    target = base ++ parts ∧ Legal root parts ∧
      ∀ above, above <+: parts → above ≠ parts → t'.node? (base ++ above) = some .directory := by
  obtain ⟨htarget, hplain, hfits, hdirectories⟩ := FileTree.locate_names h.located hless hnames hlocated
  exact ⟨htarget, ⟨hplain, hfits⟩, hdirectories⟩

end Rooted

/-! ## A tree that holds a memory -/

/-- Keys that can stand side by side: their names fit, and where the value of one is, no directory
    of another is. -/
structure Apart (keys : String → Prop) : Prop where
  proper : ∀ key, keys key → ∀ name ∈ KeyPath.segments key, Proper name
  clear : ∀ key, keys key → ∀ other, keys other → ¬ valuePath key <+: (place other).1

/-- No value is where a directory on the way would be. -/
def Passable (m : Memory) (way : List String) : Prop := ∀ key : String, m[key]? ≠ none → ¬ valuePath key <+: way

/-- No directory is at the path. -/
def Unoccupied (m : Memory) (path : List String) : Prop := ∀ key : String, m[key]? ≠ none → ¬ path <+: (place key).1

theorem Passable.above {m : Memory} {way upper : List String} (h : Passable m way) (hover : upper <+: way) : Passable m upper :=
  fun key hkey hpre => h key hkey (hpre.trans hover)

/-- Below the base the tree has the files of the values that the memory holds, the directories
    above them and those along `extra`; elsewhere it is as it was at first. -/
structure Holds (base : List String) (first : FileTree) (keys : String → Prop) (m : Memory) (extra : List String)
    (t : FileTree) : Prop where
  outside : ∀ path, ¬ base <+: path → t.node? path = first.node? path
  file : ∀ below content, t.node? (base ++ below) = some (.file content) ↔
    ∃ key, m[key]? = some content ∧ below = valuePath key
  directory : ∀ below, t.node? (base ++ below) = some .directory ↔
    below <+: extra ∨ ∃ key, m[key]? ≠ none ∧ below <+: (place key).1
  known : ∀ key : String, m[key]? ≠ none → keys key

/-- The root leads to an empty directory. -/
structure Vacant (here : List String) (root : FilePath) (base : List String) (first : FileTree) : Prop where
  located : first.locate here root = .ok base
  directory : first.node? base = some .directory
  empty : ∀ below, below ≠ [] → first.node? (base ++ below) = none

/-- A tree of one directory below the top. -/
theorem Vacant.single {name : String} {root : FilePath}
    (hlocated : FileTree.locate [] ((∅ : FileTree).insert [name] .directory) root = .ok [name]) :
    Vacant [] root [name] ((∅ : FileTree).insert [name] .directory) where
  located := hlocated
  directory := by rw [FileTree.node?_insert _ (by simp), if_pos rfl]
  empty below hne := by
    rw [FileTree.node?_insert _ (by simp), if_neg fun heq => hne (List.append_right_eq_self.mp heq),
      FileTree.node?_of_ne_nil (by simp), Std.ExtTreeMap.getElem?_empty]

theorem Vacant.holds {here base : List String} {root : FilePath} {first : FileTree} (h : Vacant here root base first)
    (keys : String → Prop) : Holds base first keys ∅ [] first where
  outside _ _ := rfl
  file below content := by
    refine iff_of_false ?_ ?_
    · by_cases hnil : below = []
      · rw [hnil, List.append_nil, h.directory]
        rintro ⟨⟩
      · rw [h.empty below hnil]
        rintro ⟨⟩
    · rintro ⟨key, hkey, _⟩
      rw [Std.ExtTreeMap.getElem?_empty] at hkey
      cases hkey
  directory below := by
    by_cases hnil : below = []
    · rw [hnil, List.append_nil, h.directory]
      exact iff_of_true rfl (.inl List.nil_prefix)
    · rw [h.empty below hnil]
      refine iff_of_false nofun ?_
      rintro (hpre | ⟨key, hkey, _⟩)
      · exact hnil (List.prefix_nil.mp hpre)
      · exact hkey Std.ExtTreeMap.getElem?_empty
  known key hkey := absurd Std.ExtTreeMap.getElem?_empty hkey

/-- The root leads where it did as long as nothing is changed but below it. -/
theorem Vacant.rooted {here base : List String} {root : FilePath} {first t : FileTree} (h : Vacant here root base first)
    (houtside : ∀ path, ¬ base <+: path → t.node? path = first.node? path) (hbase : t.node? base = some .directory) :
    Rooted here root base t :=
  ⟨FileTree.locate_congr h.located h.empty houtside hbase, hbase⟩

section Tree

variable {here base extra : List String} {root : FilePath} {first t : FileTree} {keys : String → Prop} {m : Memory}

namespace Holds

theorem node?_base (h : Holds base first keys m extra t) : t.node? base = some .directory := by
  have hbase := (h.directory []).mpr (.inl List.nil_prefix)
  rwa [List.append_nil] at hbase

theorem rooted (h : Holds base first keys m extra t) (hroot : Vacant here root base first) : Rooted here root base t :=
  hroot.rooted h.outside h.node?_base

theorem paved (h : Holds base first keys m extra t) : Paved base extra t := fun upper hover => (h.directory upper).mpr (.inl hover)

theorem congr {t' : FileTree} (h : Holds base first keys m extra t) (ht : ∀ path, t'.node? path = t.node? path) :
    Holds base first keys m extra t' where
  outside path hpath := (ht path).trans (h.outside path hpath)
  file below content := by rw [ht, h.file]
  directory below := by rw [ht, h.directory]
  known := h.known

/-- What is above something in the tree is a directory. -/
theorem above (h : Holds base first keys m extra t) {upper below : List String} (hthere : t.node? (base ++ below) ≠ none)
    (hover : upper <+: below) (hne : upper ≠ below) : t.node? (base ++ upper) = some .directory := by
  rw [h.directory]
  cases hnode : t.node? (base ++ below) with
  | none => exact absurd hnode hthere
  | some node =>
    cases node with
    | file content =>
      obtain ⟨key, hkey, rfl⟩ := (h.file _ _).mp hnode
      refine .inr ⟨key, by rw [hkey]; exact Option.some_ne_none _, ?_⟩
      exact (List.prefix_concat_iff.mp hover).resolve_left hne
    | directory =>
      exact ((h.directory _).mp hnode).imp hover.trans fun ⟨key, hkey, hpre⟩ => ⟨key, hkey, hover.trans hpre⟩

/-- What is stored under a key is what is in its file. -/
theorem value (h : Holds base first keys m extra t) {key : String} (hfree : Unoccupied m (valuePath key))
    (hextra : ¬ valuePath key <+: extra) : t.node? (base ++ valuePath key) = m[key]?.map .file := by
  cases hvalue : m[key]? with
  | some content => exact (h.file _ _).mpr ⟨key, hvalue, rfl⟩
  | none =>
    cases hnode : t.node? (base ++ valuePath key) with
    | none => rfl
    | some node =>
      cases node with
      | file content =>
        obtain ⟨other, hother, hpath⟩ := (h.file _ _).mp hnode
        rw [valuePath_injective hpath, hother] at hvalue
        cases hvalue
      | directory =>
        rcases (h.directory _).mp hnode with hpre | ⟨other, hother, hpre⟩
        · exact absurd hpre hextra
        · exact absurd hpre (hfree other hother)

/-- Only values are files. -/
theorem no_file (h : Holds base first keys m extra t) {way : List String} (hclear : Passable m way)
    {upper : List String} (hover : upper <+: way) (content : Bytes) : t.node? (base ++ upper) ≠ some (.file content) := by
  intro hnode
  obtain ⟨key, hkey, rfl⟩ := (h.file _ _).mp hnode
  exact hclear key (by rw [hkey]; exact Option.some_ne_none _) hover

/-- Where no value is in the way, names lead to what they name, or something is missing. -/
theorem locate (h : Holds base first keys m extra t) (hroot : Vacant here root base first) {way : List String} {name : String}
    (hclear : Passable m way) (hlegal : Legal root (way ++ [name])) :
    (t.locate here (root.append (way ++ [name])) = .ok (base ++ (way ++ [name])) ∧
        t.node? (base ++ way) = some .directory) ∨
      (t.locate here (root.append (way ++ [name])) = .error .notFound ∧ t.node? (base ++ way) = none ∧
        t.node? (base ++ (way ++ [name])) = none) := by
  have hbelow {upper : List String} (hover : upper <+: way ++ [name]) (hne : upper ≠ way ++ [name]) : upper <+: way :=
    (List.prefix_concat_iff.mp hover).resolve_left hne
  rw [(h.rooted hroot).locate_eq_walk hlegal]
  rcases FileTree.walk_plain hlegal.plain fun upper hover hne => h.no_file hclear (hbelow hover hne) with
    ⟨hlocated, hdirectories⟩ | ⟨hmissing, upper, hover, hne, hnone⟩
  · exact .inl ⟨hlocated, hdirectories way (List.prefix_append _ _) (by simp)⟩
  · have hthere {below : List String} (hpre : upper <+: below) : t.node? (base ++ below) = none := by
      refine Decidable.byContradiction fun hnode => ?_
      by_cases heq : upper = below
      · exact hnode (heq ▸ hnone)
      · rw [h.above hnode hpre heq] at hnone
        cases hnone
    exact .inr ⟨hmissing, hthere (hbelow hover hne), hthere hover⟩

/-- Asking for what is there and what is missing in the same way. -/
theorem locate_bind (h : Holds base first keys m extra t) (hroot : Vacant here root base first) {way : List String} {name : String}
    (hclear : Passable m way) (hlegal : Legal root (way ++ [name])) {α : Type}
    {f : List String → Except OsError α} (hf : t.node? (base ++ (way ++ [name])) = none → f (base ++ (way ++ [name])) = .error .notFound) :
    (t.locate here (root.append (way ++ [name])) >>= f) = f (base ++ (way ++ [name])) := by
  rcases h.locate hroot hclear hlegal with ⟨hlocated, _⟩ | ⟨hmissing, _, hnone⟩
  · rw [hlocated]
    rfl
  · rw [hmissing, hf hnone]
    rfl

/-! ### Changes of the tree -/

variable {way : List String} {name : String}

/-- Directories that are there can count as extra ones. -/
theorem widen (h : Holds base first keys m extra t) (hextra : extra <+: way) (hway : t.node? (base ++ way) = some .directory) :
    Holds base first keys m way t where
  outside := h.outside
  file := h.file
  known := h.known
  directory below := by
    rw [h.directory]
    constructor
    · exact Or.imp_left fun hbelow => hbelow.trans hextra
    · rintro (hbelow | hkey)
      · exact ((h.directory way).mp hway).imp hbelow.trans fun ⟨key, hkey, hpre⟩ => ⟨key, hkey, hbelow.trans hpre⟩
      · exact .inr hkey

/-- Directories above a value are no extra ones. -/
theorem narrow (h : Holds base first keys m extra t) {key : String} (hkey : m[key]? ≠ none) (hextra : extra <+: (place key).1) :
    Holds base first keys m [] t where
  outside := h.outside
  file := h.file
  known := h.known
  directory below := by
    rw [h.directory]
    constructor
    · rintro (hbelow | hkey)
      · exact .inr ⟨key, hkey, hbelow.trans hextra⟩
      · exact .inr hkey
    · exact Or.imp_left fun hbelow => hbelow.trans List.nil_prefix

/-- In a directory that is not above an extra one there is something exactly if a value is below it. -/
theorem children_ne_nil (h : Holds base first keys m extra t) (hextra : extra <+: way) :
    t.children (base ++ way) ≠ [] ↔ ∃ key, m[key]? ≠ none ∧ way <+: (place key).1 := by
  constructor
  · intro hne
    obtain ⟨⟨name, isDirectory⟩, hchild⟩ := List.exists_mem_of_ne_nil _ hne
    obtain ⟨node, hnode, _⟩ := FileTree.mem_children.mp hchild
    rw [List.append_assoc] at hnode
    cases node with
    | file content =>
      obtain ⟨key, hkey, hpath⟩ := (h.file _ _).mp hnode
      have hway : way = (place key).1 := (List.append_inj' hpath rfl).1
      exact ⟨key, by rw [hkey]; exact Option.some_ne_none _, hway ▸ List.prefix_refl way⟩
    | directory =>
      rcases (h.directory _).mp hnode with hbelow | ⟨key, hkey, hbelow⟩
      · exact absurd (hbelow.trans hextra) concat_not_prefix
      · exact ⟨key, hkey, (List.prefix_append _ _).trans hbelow⟩
  · rintro ⟨key, hkey, rest, hrest⟩ hnil
    obtain ⟨content, hcontent⟩ := Option.ne_none_iff_exists'.mp hkey
    have hfile := (h.file _ content).mpr ⟨key, hcontent, rfl⟩
    have hpath : valuePath key = way ++ (rest ++ [valueName (place key).2]) := by rw [valuePath, ← hrest, List.append_assoc]
    -- the first name of what leads from here to the value
    cases hbelow : rest ++ [valueName (place key).2] with
    | nil => simp at hbelow
    | cons name more =>
      have hover : way ++ [name] <+: valuePath key := by
        rw [hpath, hbelow]
        exact ⟨more, by simp⟩
      have hthere : t.node? (base ++ (way ++ [name])) ≠ none := by
        by_cases heq : way ++ [name] = valuePath key
        · rw [heq, hfile]
          exact Option.some_ne_none _
        · rw [h.above (by rw [hfile]; exact Option.some_ne_none _) hover heq]
          exact Option.some_ne_none _
      obtain ⟨node, hnode⟩ := Option.ne_none_iff_exists'.mp hthere
      have hmem := FileTree.mem_children.mpr ⟨node, by rw [List.append_assoc]; exact hnode, rfl⟩
      rw [hnil] at hmem
      cases hmem

/-- A directory that was made. -/
theorem make (h : Holds base first keys m way t) (hnone : t.node? (base ++ (way ++ [name])) = none) :
    Holds base first keys m (way ++ [name]) (t.insert (base ++ (way ++ [name])) .directory) where
  outside path hpath := by rw [FileTree.node?_insert_outside t (by simp) _ hpath, h.outside path hpath]
  file below content := by
    rw [FileTree.node?_insert_below t base (by simp)]
    by_cases hbelow : below = way ++ [name]
    · rw [if_pos hbelow, ← h.file, hbelow, hnone]
      exact iff_of_false nofun nofun
    · rw [if_neg hbelow, h.file]
  known := h.known
  directory below := by
    rw [FileTree.node?_insert_below t base (by simp), List.prefix_concat_iff]
    by_cases hbelow : below = way ++ [name]
    · rw [if_pos hbelow]
      exact iff_of_true rfl (.inl (.inl hbelow))
    · rw [if_neg hbelow, h.directory, or_iff_right hbelow]

/-- A directory that was removed because nothing was in it. -/
theorem remove (h : Holds base first keys m (way ++ [name]) t) (hempty : t.children (base ++ (way ++ [name])) = []) :
    Holds base first keys m way (t.erase (base ++ (way ++ [name]))) where
  outside path hpath := by rw [FileTree.node?_erase_outside t (by simp) hpath, h.outside path hpath]
  file below content := by
    rw [FileTree.node?_erase_below t base (by simp)]
    by_cases hbelow : below = way ++ [name]
    · have hdirectory := (h.directory (way ++ [name])).mpr (.inl (List.prefix_refl _))
      rw [if_pos hbelow, ← h.file, hbelow, hdirectory]
      exact iff_of_false nofun nofun
    · rw [if_neg hbelow, h.file]
  known := h.known
  directory below := by
    rw [FileTree.node?_erase_below t base (by simp)]
    by_cases hbelow : below = way ++ [name]
    · rw [if_pos hbelow]
      refine iff_of_false nofun ?_
      rintro (hpre | ⟨key, hkey, hpre⟩)
      · exact concat_not_prefix (hbelow ▸ hpre)
      · exact (h.children_ne_nil (List.prefix_refl _)).mpr ⟨key, hkey, hbelow ▸ hpre⟩ hempty
    · rw [if_neg hbelow, h.directory, List.prefix_concat_iff, or_iff_right hbelow]

/-- A value that was written below the directories above it. -/
theorem put {key : String} (value : Bytes) (h : Holds base first keys m (place key).1 t) (hfree : Unoccupied m (valuePath key)) (hkey : keys key) :
    Holds base first keys (m.insert key value) [] (t.insert (base ++ valuePath key) (.file value)) where
  outside path hpath := by rw [FileTree.node?_insert_outside t (valuePath_ne_nil key) _ hpath, h.outside path hpath]
  file below content := by
    rw [FileTree.node?_insert_below t base (valuePath_ne_nil key)]
    by_cases hbelow : below = valuePath key
    · rw [if_pos hbelow, Option.some.injEq, Node.file.injEq]
      constructor
      · rintro rfl
        exact ⟨key, Std.ExtTreeMap.getElem?_insert_self, hbelow⟩
      · rintro ⟨other, hother, hpath⟩
        rw [← valuePath_injective (hbelow.symm.trans hpath), Std.ExtTreeMap.getElem?_insert_self] at hother
        exact Option.some.inj hother
    · rw [if_neg hbelow, h.file]
      refine exists_congr fun other => and_congr_left fun hpath => ?_
      rw [Memory.getElem?_insert_of_ne]
      rintro rfl
      exact hbelow hpath
  directory below := by
    rw [FileTree.node?_insert_below t base (valuePath_ne_nil key)]
    simp only [Memory.insert_ne_none, or_and_right, exists_or, exists_eq_left]
    by_cases hbelow : below = valuePath key
    · rw [if_pos hbelow]
      refine iff_of_false nofun ?_
      rintro (hpre | hpre | ⟨other, hother, hpre⟩)
      · exact valuePath_ne_nil key (List.prefix_nil.mp (hbelow ▸ hpre))
      · exact concat_not_prefix (hbelow ▸ hpre)
      · exact hfree other hother (hbelow ▸ hpre)
    · rw [if_neg hbelow, h.directory]
      constructor
      · exact .inr
      · rintro (hpre | h)
        · exact .inl (hpre.trans List.nil_prefix)
        · exact h
  known other hother := by
    rcases Memory.insert_ne_none.mp hother with rfl | hother
    · exact hkey
    · exact h.known other hother

/-- A value whose file was removed: the directories above it are left. -/
theorem erase {key : String} {value : Bytes} (h : Holds base first keys m [] t) (hvalue : m[key]? = some value) :
    Holds base first keys (m.erase key) (place key).1 (t.erase (base ++ valuePath key)) where
  outside path hpath := by rw [FileTree.node?_erase_outside t (valuePath_ne_nil key) hpath, h.outside path hpath]
  file below content := by
    rw [FileTree.node?_erase_below t base (valuePath_ne_nil key)]
    by_cases hbelow : below = valuePath key
    · rw [if_pos hbelow]
      refine iff_of_false nofun ?_
      rintro ⟨other, hother, hpath⟩
      rw [← valuePath_injective (hbelow.symm.trans hpath), Std.ExtTreeMap.getElem?_erase_self] at hother
      cases hother
    · rw [if_neg hbelow, h.file]
      refine exists_congr fun other => and_congr_left fun hpath => ?_
      rw [Memory.getElem?_erase_of_ne]
      rintro rfl
      exact hbelow hpath
  directory below := by
    have hfile := (h.file _ value).mpr ⟨key, hvalue, rfl⟩
    have hdirectory := h.directory below
    rw [FileTree.node?_erase_below t base (valuePath_ne_nil key)]
    simp only [Memory.erase_ne_none]
    by_cases hbelow : below = valuePath key
    · rw [if_pos hbelow]
      refine iff_of_false nofun ?_
      rintro (hpre | ⟨other, ⟨_, hother⟩, hpre⟩)
      · exact concat_not_prefix (hbelow ▸ hpre)
      · rw [hbelow, hfile] at hdirectory
        cases hdirectory.mpr (.inr ⟨other, hother, hbelow ▸ hpre⟩)
    · rw [if_neg hbelow, hdirectory]
      constructor
      · rintro (hpre | ⟨other, hother, hpre⟩)
        · exact .inl (hpre.trans List.nil_prefix)
        · by_cases heq : other = key
          · exact .inl (heq ▸ hpre)
          · exact .inr ⟨other, ⟨heq, hother⟩, hpre⟩
      · rintro (hpre | ⟨other, ⟨_, hother⟩, hpre⟩)
        · exact .inr ⟨key, by rw [hvalue]; exact Option.some_ne_none _, hpre⟩
        · exact .inr ⟨other, hother, hpre⟩
  known other hother := h.known other (Memory.erase_ne_none.mp hother).2

end Holds

end Tree

end Strongbox.Directory
