/-
  Strongbox.Proofs.Storage.Children — what a listing names, and listings of hidden keys.

  A key below a directory is listed under the first name of what follows the directory: all of it,
  or what stands before the first slash, with the slash. Hiding goes by segments, so cutting a
  hidden key at a slash is hiding the two parts of the key, and the first name of a hidden key is
  its first name hidden.

  Proved:
  - `sortedNames_pairwise`, `sortedNames_congr`: names are put in order, and the same names alike.
  - `mem_childNames`: a listing holds the first names of the keys below the directory.
  - `firstName_hidePath`: the first name of a hidden text is its first name hidden.
  - `revealChild_hidePath`: a hidden first name is revealed.
-/

import Strongbox.Proofs.KeyRing
import Strongbox.Storage.Sealed

namespace Strongbox

/-! ## Sorted names -/

theorem mem_sortedNames {names : List String} {name : String} : name ∈ sortedNames names ↔ name ∈ names := by
  rw [sortedNames, Std.ExtTreeSet.mem_toList, Std.ExtTreeSet.mem_ofList, List.contains_iff_mem]

/-- Each name stands before the next, so none stands twice. -/
theorem sortedNames_pairwise (names : List String) : (sortedNames names).Pairwise (· < ·) := by
  refine Std.ExtTreeSet.ordered_toList.imp ?_
  intro a b h
  exact compareOfLessAndEq_eq_lt.mp h

/-- The same names are sorted alike. -/
theorem sortedNames_congr {names names' : List String} (h : ∀ name, name ∈ names ↔ name ∈ names') :
    sortedNames names = sortedNames names' := by
  refine congrArg Std.ExtTreeSet.toList (Std.ExtTreeSet.ext_mem ?_)
  intro name
  rw [Std.ExtTreeSet.mem_ofList, Std.ExtTreeSet.mem_ofList, List.contains_iff_mem, List.contains_iff_mem, h]

/-! ## First names -/

/-- The name that a relative key is listed under: itself, or the directory that it is in. -/
inductive FirstName : String → String → Prop
  | leaf {name : String} (hne : name ≠ "") (hflat : '/' ∉ name.toList) : FirstName name name
  | directory {name : String} (hflat : '/' ∉ name.toList) (rest : String) : FirstName (name ++ "/" ++ rest) (name ++ "/")

theorem Text.after?_eq_some {head text rest : List Char} : after? head text = some rest ↔ text = head ++ rest := by
  induction head generalizing text with
  | nil => exact Option.some_inj
  | cons h head ih =>
    cases text with
    | nil => exact iff_of_false (by rintro ⟨⟩) (by rintro ⟨⟩)
    | cons c text =>
      rw [after?, List.cons_append, List.cons.injEq]
      by_cases hc : h = c
      · rw [if_pos hc, ih]
        exact (and_iff_right hc.symm).symm
      · rw [if_neg hc]
        exact iff_of_false (by rintro ⟨⟩) fun h => hc h.1.symm

/-- A text has no slash, or there is a first one. -/
theorem slash_cases (text : String) : '/' ∉ text.toList ∨
    ∃ before after : String, '/' ∉ before.toList ∧ text = before ++ "/" ++ after := by
  by_cases h : '/' ∈ text.toList
  · obtain ⟨before, after, htext, hbefore⟩ := List.eq_append_cons_of_mem h
    refine .inr ⟨.ofList before, .ofList after, by rwa [String.toList_ofList], ?_⟩
    apply String.toList_injective
    rw [htext]
    simp
  · exact .inl h

/-- A text is cut at its first slash. -/
theorem takeWhile_of_slash {cs : List Char} (h : '/' ∉ cs) {more : List Char} (hmore : more.head?.all (· = '/') = true) :
    (cs ++ more).takeWhile (· ≠ '/') = cs ∧ (cs ++ more).dropWhile (· ≠ '/') = more := by
  have hall : ∀ c ∈ cs, decide (c ≠ '/') = true := by
    intro c hc
    refine decide_eq_true ?_
    rintro rfl
    exact h hc
  rw [List.takeWhile_append_of_pos hall, List.dropWhile_append_of_pos hall]
  cases more with
  | nil => simp
  | cons c more => simp_all

theorem childName?_append (directory : String) {name : String} (hflat : '/' ∉ name.toList) (more : String)
    (hmore : more.toList.head?.all (· = '/') = true) : childName? directory (directory ++ (name ++ more)) =
      if more ≠ "" then some (name ++ "/") else if name ≠ "" then some name else none := by
  obtain ⟨htake, hdrop⟩ := takeWhile_of_slash hflat hmore
  have hafter : Text.after? directory.toList (directory ++ (name ++ more)).toList = some (name.toList ++ more.toList) := by
    rw [Text.after?_eq_some]
    simp
  have hslash : String.ofList (name.toList ++ ['/']) = name ++ "/" := by
    apply String.toList_injective
    simp
  simp only [childName?, hafter, Option.bind_some, htake, hdrop, hslash, String.ofList_toList, ne_eq, String.toList_eq_nil_iff]

theorem childName?_eq_some {directory key name : String} :
    childName? directory key = some name ↔ ∃ relative, key = directory ++ relative ∧ FirstName relative name := by
  constructor
  · intro h
    obtain ⟨cs, hcs, _⟩ := Option.bind_eq_some_iff.mp h
    obtain rfl : key = directory ++ String.ofList cs := by
      apply String.toList_injective
      rw [Text.after?_eq_some.mp hcs]
      simp
    refine ⟨_, rfl, ?_⟩
    generalize String.ofList cs = relative at h
    rcases slash_cases relative with hflat | ⟨first, rest, hflat, rfl⟩
    · rw [← String.append_empty (s := relative), childName?_append directory hflat "" rfl, if_neg (by simp)] at h
      split at h
      · cases h
        exact .leaf ‹_› hflat
      · cases h
    · rw [String.append_assoc, childName?_append directory hflat _ (by simp), if_pos (by simp)] at h
      cases h
      exact .directory hflat rest
  · rintro ⟨relative, rfl, h⟩
    cases h with
    | leaf hne hflat =>
      have hname := childName?_append directory hflat "" rfl
      rwa [String.append_empty, if_neg (by simp), if_pos hne] at hname
    | directory hflat rest =>
      rw [String.append_assoc, childName?_append directory hflat _ (by simp), if_pos (by simp)]

theorem mem_childNames {directory name : String} {keys : List String} : name ∈ childNames directory keys ↔
    ∃ relative, directory ++ relative ∈ keys ∧ FirstName relative name := by
  rw [childNames, mem_sortedNames, List.mem_filterMap]
  constructor
  · rintro ⟨key, hkey, hchild⟩
    obtain ⟨relative, rfl, hfirst⟩ := childName?_eq_some.mp hchild
    exact ⟨relative, hkey, hfirst⟩
  · rintro ⟨relative, hkey, hfirst⟩
    exact ⟨_, hkey, childName?_eq_some.mpr ⟨relative, rfl, hfirst⟩⟩

/-! ## Hidden names -/

section Hidden

variable {ring : KeyRing} {text name : String}

theorem slash_mem_hidePath : '/' ∈ (ring.hidePath text).toList ↔ '/' ∈ text.toList := by
  rcases slash_cases text with hflat | ⟨first, rest, _, rfl⟩
  · rw [ring.hidePath_of_flat hflat]
    exact iff_of_false (ring.slash_not_mem_hideSegment text) hflat
  · rw [ring.hidePath_append]
    exact iff_of_true (by simp) (by simp)

/-- The first name of a hidden text is the first name of the text, hidden. -/
theorem firstName_hidePath : FirstName (ring.hidePath text) name ↔ ∃ first, FirstName text first ∧ name = ring.hidePath first := by
  constructor
  · intro h
    generalize hhidden : ring.hidePath text = hidden at h
    cases h with
    | leaf hne hflat =>
      refine ⟨text, .leaf ?_ ?_, hhidden.symm⟩
      · rintro rfl
        rw [ring.hidePath_empty] at hhidden
        exact hne hhidden.symm
      · rw [← hhidden] at hflat
        exact fun h => hflat (slash_mem_hidePath.mpr h)
    | directory hflat rest =>
      obtain ⟨first, below, rfl, rfl, _⟩ := ring.hidePath_eq_append hhidden
      refine ⟨first ++ "/", .directory ?_ below, (ring.hidePath_directory first).symm⟩
      exact fun h => hflat (slash_mem_hidePath.mpr h)
  · rintro ⟨first, h, rfl⟩
    cases h with
    | leaf hne hflat =>
      refine .leaf ?_ fun h => hflat (slash_mem_hidePath.mp h)
      intro h
      exact hne (ring.hidePath_injective (h.trans ring.hidePath_empty.symm))
    | directory hflat rest =>
      rw [ring.hidePath_append, ring.hidePath_directory]
      exact .directory (fun h => hflat (slash_mem_hidePath.mp h)) _

/-- A hidden name is revealed, with its slash if it is a directory. -/
theorem revealChild_hidePath {s : Sealed} (h : FirstName text name) (hne : name ≠ "/") :
    s.revealChild (s.ring.hidePath name) = .ok name := by
  cases h with
  | leaf hempty hflat =>
    have hhidden : s.ring.hidePath text = s.ring.hideName text := by
      rw [s.ring.hidePath_of_flat hflat, KeyRing.hideSegment, if_neg hempty]
    rw [hhidden, Sealed.revealChild]
    split
    · rename_i rest hrest
      refine absurd ?_ (s.ring.slash_not_mem_hideName text)
      rw [← List.mem_reverse, hrest]
      exact List.mem_cons_self
    · exact s.ring.revealName_hideName text
  | @directory first hflat rest =>
    have hempty : first ≠ "" := by
      rintro rfl
      exact hne rfl
    have hhidden : s.ring.hidePath (first ++ "/") = s.ring.hideName first ++ "/" := by
      rw [s.ring.hidePath_directory, s.ring.hidePath_of_flat hflat, KeyRing.hideSegment, if_neg hempty]
    rw [hhidden, Sealed.revealChild]
    simp [s.ring.revealName_hideName, Except.map]

end Hidden

end Strongbox
