/-
  Strongbox.Proofs.Storage.FileTree — where paths lead, and what is found there.

  A path that leads to a directory can be followed by names: each leads from the directory reached
  so far to what it names there. A walk along names stops only where a directory is missing or a
  file is in the way. Empty parts lead nowhere else, so they can be trimmed at the end of a path.

  Proved:
  - `node?_insert`, `node?_erase`, `mem_children`: what is where after a change, and in a directory.
  - `walk_plain`, `walk_names`, `walk_file`, `walk_missing`: where names lead, and what is in the way.
  - `walk_congr`, `walk_mono`: where a path leads after a change.
  - `locate_append`: a path put together leads where its second part leads from the end of the first.
  - `locate_names`: what is known of names below a path that lead somewhere.
-/

import Strongbox.KeyPath
import Strongbox.Proofs.Text.Pieces
import Strongbox.Storage.FileTree

namespace Strongbox

/-! ## Texts of paths -/

namespace Text

theorem mem_glue {separator c : Char} {parts : List (List Char)} (h : c ∈ glue separator parts) :
    c = separator ∨ ∃ part ∈ parts, c ∈ part := by
  induction parts with
  | nil => cases h
  | cons first parts ih =>
    cases parts with
    | nil => exact .inr ⟨first, List.mem_singleton_self first, h⟩
    | cons second rest =>
      rcases List.mem_append.mp h with h | h
      · exact .inr ⟨first, List.mem_cons_self, h⟩
      · rcases List.mem_cons.mp h with h | h
        · exact .inl h
        · exact (ih h).imp_right fun ⟨part, hpart, hc⟩ => ⟨part, List.mem_cons_of_mem first hpart, hc⟩

theorem mem_glue_of_mem (separator : Char) {c : Char} {part : List Char} {parts : List (List Char)} (hpart : part ∈ parts)
    (hc : c ∈ part) : c ∈ glue separator parts := by
  induction parts with
  | nil => cases hpart
  | cons first parts ih =>
    cases parts with
    | nil => exact List.mem_singleton.mp hpart ▸ hc
    | cons second rest =>
      rcases List.mem_cons.mp hpart with rfl | hpart
      · exact List.mem_append_left _ hc
      · exact List.mem_append_right _ (List.mem_cons_of_mem _ (ih hpart))

/-- The bytes of texts with a separator behind each. -/
def separatedSize : List String → Nat
  | [] => 0
  | part :: parts => part.utf8ByteSize + 1 + separatedSize parts

theorem separatedSize_append (first second : List String) :
    separatedSize (first ++ second) = separatedSize first + separatedSize second := by
  induction first with
  | nil => exact (Nat.zero_add _).symm
  | cons part first ih =>
    rw [List.cons_append, separatedSize, separatedSize, ih]
    omega

/-- A joined text has one separator less than parts. -/
theorem utf8ByteSize_join (parts : List String) : (join "/" parts).utf8ByteSize = separatedSize parts - 1 := by
  induction parts with
  | nil => rfl
  | cons first parts ih =>
    cases parts with
    | nil => rfl
    | cons second rest =>
      rw [join, String.utf8ByteSize_append, String.utf8ByteSize_append, ih]
      simp only [separatedSize]
      have hslash : "/".utf8ByteSize = 1 := by decide
      omega

end Text

namespace FilePath

variable (p : FilePath)

/-- Only empty parts are trimmed. -/
theorem exists_trimmed : ∃ n, p.parts = p.trimmedParts ++ List.replicate n "" := by
  let cut := p.parts.reverse.takeWhile (· = "")
  have hcut : cut = List.replicate cut.length "" := by
    refine List.eq_replicate_iff.mpr ⟨rfl, ?_⟩
    intro part hpart
    exact of_decide_eq_true (List.all_eq_true.mp List.all_takeWhile part hpart)
  have hparts : cut ++ p.parts.reverse.dropWhile (· = "") = p.parts.reverse := List.takeWhile_append_dropWhile
  refine ⟨cut.length, ?_⟩
  rw [trimmedParts, ← List.reverse_replicate, ← hcut, ← List.reverse_append, hparts, List.reverse_reverse]

variable {p} {parts : List String}

theorem trimmedParts_append (h : ∀ part ∈ parts, part ≠ "") : (p.append parts).trimmedParts = (p.append parts).parts := by
  have hlast : (p.trimmedParts ++ parts).reverse.head?.all (fun part => !decide (part = "")) := by
    cases hparts : parts.reverse with
    | nil =>
      rw [List.reverse_append, hparts, List.nil_append, trimmedParts, List.reverse_reverse]
      have hhead := List.head?_dropWhile_not (fun part => decide (part = "")) p.parts.reverse
      cases hdrop : (p.parts.reverse.dropWhile fun part => decide (part = "")).head? with
      | none => rfl
      | some part =>
        rw [hdrop] at hhead
        simpa using hhead
    | cons last more =>
      have hmem : last ∈ parts := List.mem_reverse.mp (hparts ▸ List.mem_cons_self)
      rw [List.reverse_append, hparts]
      simpa using h last hmem
  show ((p.trimmedParts ++ parts).reverse.dropWhile fun part => decide (part = "")).reverse = p.trimmedParts ++ parts
  cases hreverse : (p.trimmedParts ++ parts).reverse with
  | nil => rw [List.reverse_eq_nil_iff.mp hreverse]; rfl
  | cons last more =>
    rw [hreverse] at hlast
    rw [List.dropWhile_cons_of_neg (by simpa using hlast), ← hreverse, List.reverse_reverse]

theorem parent_append {name : String} (hname : KeyPath.isName name) : (p.append (parts ++ [name])).parent = p.append parts := by
  simp only [KeyPath.isName, Bool.and_eq_true, decide_eq_true_eq, ne_eq] at hname
  simp [parent, append, hname]

theorem nul_mem_text : '\x00' ∈ p.text.toList ↔ ∃ part ∈ p.parts, '\x00' ∈ part.toList := by
  have hslash : ¬ '\x00' ∈ (if p.absolute then "/" else "").toList := by cases p.absolute <;> decide
  rw [text, String.toList_append, List.mem_append, show ("/" : String) = String.singleton '/' from rfl, Text.toList_join]
  constructor
  · rintro (h | h)
    · exact absurd h hslash
    · rcases Text.mem_glue h with h | ⟨part, hpart, hnul⟩
      · cases h
      · obtain ⟨text, htext, rfl⟩ := List.mem_map.mp hpart
        exact ⟨text, htext, hnul⟩
  · rintro ⟨part, hpart, hnul⟩
    exact .inr (Text.mem_glue_of_mem '/' (List.mem_map_of_mem hpart) hnul)

theorem nul_not_mem_append (hp : '\x00' ∉ p.text.toList) (h : ∀ part ∈ parts, '\x00' ∉ part.toList) :
    '\x00' ∉ (p.append parts).text.toList := by
  obtain ⟨n, hn⟩ := p.exists_trimmed
  rw [nul_mem_text] at hp ⊢
  rintro ⟨part, hpart, hnul⟩
  rcases List.mem_append.mp hpart with hpart | hpart
  · exact hp ⟨part, hn ▸ List.mem_append_left _ hpart, hnul⟩
  · exact h part hpart hnul

theorem utf8ByteSize_text : p.text.utf8ByteSize = (if p.absolute then 1 else 0) + (Text.separatedSize p.parts - 1) := by
  rw [text, String.utf8ByteSize_append, Text.utf8ByteSize_join]
  cases p.absolute <;> rfl

/-- A path is no longer than one below it. -/
theorem utf8ByteSize_append_le (p : FilePath) (parts more : List String) :
    (p.append parts).text.utf8ByteSize ≤ (p.append (parts ++ more)).text.utf8ByteSize := by
  rw [utf8ByteSize_text, utf8ByteSize_text]
  refine Nat.add_le_add_left ?_ _
  simp only [append, Text.separatedSize_append]
  omega

theorem utf8ByteSize_append_nil_le (p : FilePath) : (p.append []).text.utf8ByteSize ≤ p.text.utf8ByteSize := by
  obtain ⟨n, hn⟩ := p.exists_trimmed
  rw [utf8ByteSize_text, utf8ByteSize_text, append, List.append_nil]
  refine Nat.add_le_add_left (Nat.sub_le_sub_right ?_ 1) _
  rw [hn, Text.separatedSize_append]
  exact Nat.le_add_right _ _

theorem isEmpty_eq_false_iff : p.isEmpty = false ↔ p.absolute = true ∨ ∃ part ∈ p.parts, part ≠ "" := by
  cases habsolute : p.absolute <;> simp [isEmpty, habsolute]

/-- A path below one that leads somewhere leads somewhere. -/
theorem isEmpty_append (h : p.isEmpty = false) (parts : List String) : (p.append parts).isEmpty = false := by
  obtain ⟨n, hn⟩ := p.exists_trimmed
  rw [isEmpty_eq_false_iff] at h ⊢
  refine h.imp_right ?_
  rintro ⟨part, hpart, hne⟩
  rw [hn] at hpart
  refine ⟨part, List.mem_append_left _ ((List.mem_append.mp hpart).resolve_right ?_), hne⟩
  exact fun hblank => hne (List.eq_of_mem_replicate hblank)

/-- A path read from a text that is not empty leads somewhere. -/
theorem isEmpty_ofText {text : String} (h : text ≠ "") : (ofText text).isEmpty = false := by
  rw [isEmpty_eq_false_iff]
  unfold ofText
  split
  · rename_i hnil
    exact absurd (String.toList_eq_nil_iff.mp hnil) h
  · exact .inl rfl
  · rename_i hne habsolute
    cases hchars : text.toList with
    | nil => exact absurd hchars hne
    | cons c rest =>
      have hc : c ≠ '/' := by
        rintro rfl
        exact habsolute rest hchars
      refine .inr ?_
      simp only [Text.pieces, hchars, Text.cutAt, if_neg hc]
      cases Text.cutAt '/' rest with
      | nil => exact ⟨String.ofList [c], by simp, by simp⟩
      | cons first others => exact ⟨String.ofList (c :: first), by simp, by simp⟩

/-- A path with a longer last name is longer. -/
theorem utf8ByteSize_append_concat_le (p : FilePath) (parts : List String) {name longer : String}
    (h : name.utf8ByteSize ≤ longer.utf8ByteSize) :
    (p.append (parts ++ [name])).text.utf8ByteSize ≤ (p.append (parts ++ [longer])).text.utf8ByteSize := by
  rw [utf8ByteSize_text, utf8ByteSize_text]
  refine Nat.add_le_add_left ?_ _
  simp only [append, Text.separatedSize_append, Text.separatedSize]
  omega

end FilePath

namespace FileTree

variable {t t' : FileTree} {path : List String}

theorem node?_of_ne_nil (hne : path ≠ []) : t.node? path = t[path]? := by
  cases path with
  | nil => exact absurd rfl hne
  | cons name rest => rfl

theorem node?_insert (t : FileTree) (hne : path ≠ []) (node : Node) (other : List String) :
    node? (t.insert path node) other = if other = path then some node else t.node? other := by
  by_cases hnil : other = []
  · subst hnil
    rw [if_neg fun h => hne h.symm]
    rfl
  · rw [node?_of_ne_nil hnil, node?_of_ne_nil hnil, Std.ExtTreeMap.getElem?_insert]
    by_cases h : other = path
    · rw [if_pos h, if_pos (h ▸ Std.compare_self)]
    · rw [if_neg h, if_neg fun hc => h (Std.LawfulEqCmp.eq_of_compare hc).symm]

theorem node?_erase (t : FileTree) (hne : path ≠ []) (other : List String) :
    node? (t.erase path) other = if other = path then none else t.node? other := by
  by_cases hnil : other = []
  · subst hnil
    rw [if_neg fun h => hne h.symm]
    rfl
  · rw [node?_of_ne_nil hnil, node?_of_ne_nil hnil, Std.ExtTreeMap.getElem?_erase]
    by_cases h : other = path
    · rw [if_pos h, if_pos (h ▸ Std.compare_self)]
    · rw [if_neg h, if_neg fun hc => h (Std.LawfulEqCmp.eq_of_compare hc).symm]

/-- What is left after something is removed was there before. -/
theorem node?_of_erase {other : List String} {node : Node} (hne : path ≠ []) (h : node? (t.erase path) other = some node) :
    other ≠ path ∧ t.node? other = some node := by
  rw [node?_erase t hne] at h
  split at h
  · cases h
  · rename_i hother
    exact ⟨hother, h⟩

section Below

variable {base way : List String}

theorem node?_insert_below (t : FileTree) (base : List String) (hne : way ≠ []) (node : Node) (below : List String) :
    node? (t.insert (base ++ way) node) (base ++ below) = if below = way then some node else t.node? (base ++ below) := by
  rw [node?_insert t (List.append_ne_nil_of_right_ne_nil base hne)]
  simp only [List.append_cancel_left_eq]

theorem node?_insert_outside (t : FileTree) (hne : way ≠ []) (node : Node) (h : ¬ base <+: path) :
    node? (t.insert (base ++ way) node) path = t.node? path := by
  rw [node?_insert t (List.append_ne_nil_of_right_ne_nil base hne), if_neg]
  rintro rfl
  exact h (List.prefix_append _ _)

theorem node?_erase_below (t : FileTree) (base : List String) (hne : way ≠ []) (below : List String) :
    node? (t.erase (base ++ way)) (base ++ below) = if below = way then none else t.node? (base ++ below) := by
  rw [node?_erase t (List.append_ne_nil_of_right_ne_nil base hne)]
  simp only [List.append_cancel_left_eq]

theorem node?_erase_outside (t : FileTree) (hne : way ≠ []) (h : ¬ base <+: path) :
    node? (t.erase (base ++ way)) path = t.node? path := by
  rw [node?_erase t (List.append_ne_nil_of_right_ne_nil base hne), if_neg]
  rintro rfl
  exact h (List.prefix_append _ _)

end Below

theorem mem_children {name : String} {isDirectory : Bool} : (name, isDirectory) ∈ t.children path ↔
    ∃ node, t.node? (path ++ [name]) = some node ∧ isDirectory = decide (node = .directory) := by
  have hne : path ++ [name] ≠ [] := by simp
  rw [children, List.mem_filterMap, node?_of_ne_nil hne]
  constructor
  · rintro ⟨⟨below, node⟩, hmem, hchild⟩
    rw [Std.ExtTreeMap.mem_toList_iff_getElem?_eq_some] at hmem
    simp only at hchild
    cases hlast : below.getLast? with
    | none =>
      rw [hlast] at hchild
      cases hchild
    | some last =>
      rw [hlast] at hchild
      obtain ⟨above, rfl⟩ := List.getLast?_eq_some_iff.mp hlast
      by_cases hpath : above = path
      · simp only [List.dropLast_concat, hpath, if_true, Option.some.injEq, Prod.mk.injEq] at hchild
        obtain ⟨rfl, rfl⟩ := hchild
        exact ⟨node, hpath ▸ hmem, rfl⟩
      · simp only [List.dropLast_concat, hpath, if_false] at hchild
        cases hchild
  · rintro ⟨node, hnode, rfl⟩
    exact ⟨(path ++ [name], node), Std.ExtTreeMap.mem_toList_iff_getElem?_eq_some.mpr hnode, by simp⟩

theorem children_eq_nil_iff : t.children path = [] ↔ ∀ name, t.node? (path ++ [name]) = none := by
  rw [List.eq_nil_iff_forall_not_mem]
  constructor
  · intro h name
    cases hnode : t.node? (path ++ [name]) with
    | none => rfl
    | some node => exact absurd (mem_children.mpr ⟨node, hnode, rfl⟩) (h _)
  · rintro h ⟨name, isDirectory⟩ hchild
    obtain ⟨node, hnode, _⟩ := mem_children.mp hchild
    rw [h name] at hnode
    cases hnode

theorem change_ok {f : FileTree → Except OsError FileTree} (h : f t = .ok t') : change f t = (.ok (), t') := by rw [change, h]

theorem change_error {f : FileTree → Except OsError FileTree} {e : OsError} (h : f t = .error e) : change f t = (.error e, t) := by
  rw [change, h]

/-! ## Where names lead -/

/-- A name that leads to what it names. -/
structure Plain (name : String) : Prop where
  isName : KeyPath.isName name
  nul : '\x00' ∉ name.toList
  size : name.utf8ByteSize ≤ maxNameLength

instance (name : String) : Decidable (Plain name) :=
  decidable_of_iff (KeyPath.isName name ∧ '\x00' ∉ name.toList ∧ name.utf8ByteSize ≤ maxNameLength)
    ⟨fun ⟨hname, hnul, hsize⟩ => ⟨hname, hnul, hsize⟩, fun ⟨hname, hnul, hsize⟩ => ⟨hname, hnul, hsize⟩⟩

theorem walk_append (t : FileTree) (start first second : List String) :
    t.walk start (first ++ second) = t.walk start first >>= fun mid => t.walk mid second := by
  induction first generalizing start with
  | nil => rfl
  | cons part first ih =>
    rw [List.cons_append, walk, walk]
    split
    · rfl
    · rfl
    · split
      · exact ih _
      · split
        · exact ih _
        · split
          · rfl
          · exact ih _

/-- Empty parts lead nowhere else. -/
theorem walk_replicate {start target : List String} {n : Nat} (h : t.walk start (List.replicate n "") = .ok target) :
    target = start := by
  induction n with
  | zero => exact (Except.ok.inj h).symm
  | succ n ih =>
    rw [List.replicate_succ, walk] at h
    split at h
    · cases h
    · cases h
    · rw [if_pos (.inl rfl)] at h
      exact ih h

theorem walk_cons_plain {start rest : List String} {name : String} (h : Plain name)
    (hstart : t.node? start = some .directory) : t.walk start (name :: rest) = t.walk (start ++ [name]) rest := by
  obtain ⟨hname, _, hsize⟩ := h
  simp only [KeyPath.isName, Bool.and_eq_true, decide_eq_true_eq, ne_eq] at hname
  rw [walk, hstart]
  simp only [hname, or_self, if_false, Nat.not_lt.mpr hsize]

/-- Names lead from directory to directory, or something is missing on the way. -/
theorem walk_plain {start names : List String} (hplain : ∀ name ∈ names, Plain name)
    (hdir : ∀ above, above <+: names → above ≠ names → ∀ content, t.node? (start ++ above) ≠ some (.file content)) :
    (t.walk start names = .ok (start ++ names) ∧
        ∀ above, above <+: names → above ≠ names → t.node? (start ++ above) = some .directory) ∨
      (t.walk start names = .error .notFound ∧ ∃ above, above <+: names ∧ above ≠ names ∧ t.node? (start ++ above) = none) := by
  induction names generalizing start with
  | nil =>
    refine .inl ⟨by rw [List.append_nil]; rfl, ?_⟩
    intro above hpre hne
    exact absurd (List.prefix_nil.mp hpre) hne
  | cons name names ih =>
    have hhere := hdir [] List.nil_prefix (by simp)
    rw [List.append_nil] at hhere
    cases hnode : t.node? start with
    | none =>
      refine .inr ⟨by rw [walk, hnode], [], List.nil_prefix, by simp, ?_⟩
      rw [List.append_nil]
      exact hnode
    | some node =>
      cases node with
      | file content => exact absurd hnode (hhere content)
      | directory =>
        rw [walk_cons_plain (hplain name List.mem_cons_self) hnode]
        have happend (above : List String) : start ++ [name] ++ above = start ++ name :: above := by simp
        have hrest := @ih (start ++ [name]) (fun other h => hplain other (List.mem_cons_of_mem name h)) (by
          intro above hpre hne content
          rw [happend]
          exact hdir (name :: above) (List.prefix_cons_inj name |>.mpr hpre) (by simpa using hne) content)
        rcases hrest with ⟨hwalk, hall⟩ | ⟨hwalk, above, hpre, hne, hmissing⟩
        · refine .inl ⟨by rw [hwalk, happend], ?_⟩
          intro above hpre hne
          cases above with
          | nil => rwa [List.append_nil]
          | cons first above =>
            obtain ⟨rfl, hp⟩ := List.cons_prefix_cons.mp hpre
            rw [← happend]
            exact hall above hp (by simpa using hne)
        · rw [happend] at hmissing
          exact .inr ⟨hwalk, name :: above, (List.prefix_cons_inj name).mpr hpre, by simpa using hne, hmissing⟩

/-- Where one part leads from a directory. -/
def step (start : List String) (part : String) : Except OsError (List String) :=
  if part = "" ∨ part = "." then .ok start
  else if part = ".." then .ok start.dropLast
  else if maxNameLength < part.utf8ByteSize then .error .nameTooLong
  else .ok (start ++ [part])

/-- A walk goes on from where its first part leads, if it starts at a directory. -/
theorem walk_cons_eq_ok {start target rest : List String} {part : String} : t.walk start (part :: rest) = .ok target ↔
    t.node? start = some .directory ∧ ∃ next, step start part = .ok next ∧ t.walk next rest = .ok target := by
  rw [walk, step]
  split
  · rename_i hnode
    exact iff_of_false nofun fun h => by simp [hnode] at h
  · rename_i hnode
    exact iff_of_false nofun fun h => by simp [hnode] at h
  · rename_i hnode
    rw [and_iff_right hnode]
    split
    · simp
    · split
      · simp
      · split <;> simp

/-- A path leads where it did as long as all directories are there. -/
theorem walk_mono {start target parts : List String} (h : t.walk start parts = .ok target)
    (hkept : ∀ path, t.node? path = some .directory → t'.node? path = some .directory) : t'.walk start parts = .ok target := by
  induction parts generalizing start with
  | nil => exact h
  | cons part parts ih =>
    obtain ⟨hnode, next, hstep, hwalk⟩ := walk_cons_eq_ok.mp h
    exact walk_cons_eq_ok.mpr ⟨hkept start hnode, next, hstep, ih hwalk⟩

/-- Names that lead somewhere lead to what they name, and from directory to directory. -/
theorem walk_names {start target names : List String} (hnames : ∀ name ∈ names, KeyPath.isName name)
    (h : t.walk start names = .ok target) : target = start ++ names ∧ (∀ name ∈ names, name.utf8ByteSize ≤ maxNameLength) ∧
      ∀ above, above <+: names → above ≠ names → t.node? (start ++ above) = some .directory := by
  induction names generalizing start with
  | nil =>
    refine ⟨by rw [List.append_nil]; exact (Except.ok.inj h).symm, nofun, ?_⟩
    intro above hpre hne
    exact absurd (List.prefix_nil.mp hpre) hne
  | cons name names ih =>
    obtain ⟨hnode, next, hstep, hwalk⟩ := walk_cons_eq_ok.mp h
    have hname := hnames name List.mem_cons_self
    simp only [KeyPath.isName, Bool.and_eq_true, decide_eq_true_eq, ne_eq] at hname
    simp only [step, hname, or_self, if_false] at hstep
    split at hstep
    · cases hstep
    · rename_i hsize
      obtain rfl : start ++ [name] = next := Except.ok.inj hstep
      obtain ⟨htarget, hsizes, hdirectories⟩ := ih (fun other hother => hnames other (List.mem_cons_of_mem name hother)) hwalk
      refine ⟨by rw [htarget, List.append_assoc]; rfl, ?_, ?_⟩
      · intro other hother
        rcases List.mem_cons.mp hother with rfl | hother
        · exact Nat.not_lt.mp hsize
        · exact hsizes other hother
      · intro above hpre hne
        cases above with
        | nil => rwa [List.append_nil]
        | cons first above =>
          obtain ⟨rfl, hp⟩ := List.cons_prefix_cons.mp hpre
          have habove := hdirectories above hp (by simpa using hne)
          rwa [List.append_assoc] at habove

/-- Names for which something is missing pass a place where nothing is. -/
theorem walk_missing {start names : List String} (hnames : ∀ name ∈ names, KeyPath.isName name)
    (h : t.walk start names = .error .notFound) : ∃ above, above <+: names ∧ above ≠ names ∧ t.node? (start ++ above) = none := by
  induction names generalizing start with
  | nil => cases h
  | cons name names ih =>
    cases hnode : t.node? start with
    | none =>
      refine ⟨[], List.nil_prefix, by simp, ?_⟩
      rw [List.append_nil]
      exact hnode
    | some node =>
      have hname := hnames name List.mem_cons_self
      simp only [KeyPath.isName, Bool.and_eq_true, decide_eq_true_eq, ne_eq] at hname
      cases node with
      | file content => simp [walk, hnode] at h
      | directory =>
        simp only [walk, hnode, hname, or_self, if_false] at h
        split at h
        · cases h
        · obtain ⟨above, hpre, hne, hnone⟩ := ih (fun other hother => hnames other (List.mem_cons_of_mem name hother)) h
          refine ⟨name :: above, (List.prefix_cons_inj name).mpr hpre, by simpa using hne, ?_⟩
          rwa [List.append_assoc] at hnone

/-- Names lead nowhere if a file is in the way. -/
theorem walk_file {start upper names : List String} {name : String} {content : Bytes} (hplain : ∀ part ∈ upper ++ name :: names, Plain part)
    (hover : ∀ above, above <+: upper → above ≠ upper → t.node? (start ++ above) = some .directory)
    (hfile : t.node? (start ++ upper) = some (.file content)) : t.walk start (upper ++ name :: names) = .error .notDirectory := by
  induction upper generalizing start with
  | nil =>
    rw [List.append_nil] at hfile
    rw [List.nil_append, walk, hfile]
  | cons part upper ih =>
    have hhere := hover [] List.nil_prefix (by simp)
    rw [List.append_nil] at hhere
    rw [List.cons_append, walk_cons_plain (hplain part List.mem_cons_self) hhere]
    refine ih (fun other hother => hplain other (List.mem_cons_of_mem part hother)) ?_ ?_
    · intro above hpre hne
      rw [List.append_assoc]
      exact hover (part :: above) ((List.prefix_cons_inj part).mpr hpre) (by simpa using hne)
    · rw [List.append_assoc]
      exact hfile

/-- A path leads where it did if nothing was changed but below the end of it. -/
theorem walk_congr {start base parts : List String} (h : t.walk start parts = .ok base)
    (hempty : ∀ below, below ≠ [] → t.node? (base ++ below) = none)
    (hsame : ∀ path, ¬ base <+: path → t'.node? path = t.node? path) (hbase : t'.node? base = some .directory) :
    t'.walk start parts = .ok base := by
  induction parts generalizing start with
  | nil => exact h
  | cons part parts ih =>
    obtain ⟨hnode, next, hstep, hwalk⟩ := walk_cons_eq_ok.mp h
    refine walk_cons_eq_ok.mpr ⟨?_, next, hstep, ih hwalk⟩
    by_cases hbelow : base <+: start
    · obtain ⟨below, rfl⟩ := hbelow
      by_cases hnil : below = []
      · rwa [hnil, List.append_nil]
      · rw [hempty below hnil] at hnode
        cases hnode
    · rw [hsame start hbelow, hnode]

theorem makingPath_parts (p : FilePath) : (makingPath p).absolute = p.absolute ∧ (makingPath p).parts <+: p.parts := by
  unfold makingPath
  split
  · obtain ⟨n, hn⟩ := p.exists_trimmed
    exact ⟨rfl, _, hn.symm⟩
  · exact ⟨rfl, List.prefix_refl _⟩

section Locate

variable {here base parts : List String} {root : FilePath}

theorem isEmpty_of_located (h : t.locate here root = .ok base) : root.isEmpty = false := by
  unfold locate at h
  split at h
  · cases h
  · split at h
    · cases h
    · rename_i hne
      simpa using hne

theorem locate_eq_ok (h : t.locate here root = .ok base) : '\x00' ∉ root.text.toList ∧
    root.text.utf8ByteSize ≤ maxPathLength ∧ t.walk (if root.absolute then [] else here) root.parts = .ok base := by
  unfold locate at h
  split at h
  · cases h
  · rename_i hnul
    split at h
    · cases h
    · split at h
      · cases h
      · rename_i hsize
        exact ⟨by simpa using hnul, Nat.not_lt.mp hsize, h⟩

/-- What a path needs besides places to lead to does not depend on the tree. -/
theorem locate_eq_walk (h : t.locate here root = .ok base) (t' : FileTree) :
    t'.locate here root = t'.walk (if root.absolute then [] else here) root.parts := by
  unfold locate at h ⊢
  split at h
  · cases h
  · rename_i hnul
    rw [if_neg hnul]
    split at h
    · cases h
    · rename_i hpath
      rw [if_neg hpath]
      split at h
      · cases h
      · rename_i hsize
        rw [if_neg hsize]

theorem locate_congr (h : t.locate here root = .ok base) (hempty : ∀ below, below ≠ [] → t.node? (base ++ below) = none)
    (hsame : ∀ path, ¬ base <+: path → t'.node? path = t.node? path) (hbase : t'.node? base = some .directory) :
    t'.locate here root = .ok base := by
  rw [locate_eq_walk h]
  exact walk_congr (locate_eq_ok h).2.2 hempty hsame hbase

theorem locate_mono (h : t.locate here root = .ok base)
    (hkept : ∀ path, t.node? path = some .directory → t'.node? path = some .directory) : t'.locate here root = .ok base := by
  rw [locate_eq_walk h]
  exact walk_mono (locate_eq_ok h).2.2 hkept

/-- Empty parts at the end of a path can be left out. -/
theorem walk_trimmed (hwalk : t.walk (if root.absolute then [] else here) root.parts = .ok base) :
    t.walk (if root.absolute then [] else here) root.trimmedParts = .ok base := by
  obtain ⟨n, hn⟩ := root.exists_trimmed
  rw [hn, walk_append] at hwalk
  cases hmid : t.walk (if root.absolute then [] else here) root.trimmedParts with
  | error e =>
    rw [hmid] at hwalk
    cases hwalk
  | ok mid =>
    rw [hmid] at hwalk
    rw [walk_replicate hwalk]

/-- A path below another leads where its parts lead from there. -/
theorem locate_append (hroot : '\x00' ∉ root.text.toList) (hwalk : t.walk (if root.absolute then [] else here) root.parts = .ok base)
    (hparts : ∀ part ∈ parts, '\x00' ∉ part.toList) (hsize : (root.append parts).text.utf8ByteSize ≤ maxPathLength)
    (hne : (root.append parts).isEmpty = false) : t.locate here (root.append parts) = t.walk base parts := by
  have hnul := FilePath.nul_not_mem_append hroot hparts
  rw [locate, if_neg (by simpa using hnul), if_neg (by simp [hne]), if_neg (Nat.not_lt.mpr hsize)]
  show t.walk (if root.absolute then [] else here) (root.trimmedParts ++ parts) = _
  rw [walk_append, walk_trimmed hwalk]
  rfl

/-- Names below a path that lead somewhere, though directories may have been removed, lead to what
    they name, and the file system takes them. -/
theorem locate_names {target : List String} (hroot : t.locate here root = .ok base)
    (hless : ∀ path, t'.node? path = some .directory → t.node? path = some .directory)
    (hnames : ∀ part ∈ parts, KeyPath.isName part) (h : t'.locate here (root.append parts) = .ok target) :
    target = base ++ parts ∧ (∀ part ∈ parts, Plain part) ∧ (root.append parts).text.utf8ByteSize ≤ maxPathLength ∧
      ∀ above, above <+: parts → above ≠ parts → t'.node? (base ++ above) = some .directory := by
  obtain ⟨hnul, hsize, hwalk⟩ := locate_eq_ok h
  replace hwalk : t'.walk (if root.absolute then [] else here) (root.trimmedParts ++ parts) = .ok target := hwalk
  rw [walk_append] at hwalk
  cases hmid : t'.walk (if root.absolute then [] else here) root.trimmedParts with
  | error e =>
    rw [hmid] at hwalk
    cases hwalk
  | ok mid =>
    rw [hmid] at hwalk
    obtain rfl : base = mid :=
      Except.ok.inj ((walk_trimmed (locate_eq_ok hroot).2.2).symm.trans (walk_mono hmid hless))
    obtain ⟨htarget, hsizes, hdirectories⟩ := walk_names hnames hwalk
    refine ⟨htarget, fun part hpart => ⟨hnames part hpart, ?_, hsizes part hpart⟩, hsize, hdirectories⟩
    intro hpartnul
    exact hnul (FilePath.nul_mem_text.mpr ⟨part, List.mem_append_right _ hpart, hpartnul⟩)

/-- Names below a path for which something is missing pass a place where nothing is. -/
theorem locate_missing (hroot : t.locate here root = .ok base) (hnames : ∀ part ∈ parts, KeyPath.isName part)
    (hne : (root.append parts).isEmpty = false) (h : t.locate here (root.append parts) = .error .notFound) :
    ∃ above, above <+: parts ∧ above ≠ parts ∧ t.node? (base ++ above) = none := by
  unfold locate at h
  split at h
  · cases h
  · rw [if_neg (by simp [hne])] at h
    split at h
    · cases h
    · replace h : t.walk (if root.absolute then [] else here) (root.trimmedParts ++ parts) = .error .notFound := h
      rw [walk_append, walk_trimmed (locate_eq_ok hroot).2.2] at h
      exact walk_missing hnames h

end Locate

end FileTree
end Strongbox
