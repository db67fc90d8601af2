/-
  Strongbox.Proofs.KeyRing.Names — hidden names are names, and hidden paths have the structure of the paths.

  A hidden name can be revealed, so no two names are hidden alike. An identifier cannot: it has 32 bytes
  whatever it is of.

  Proved:
  - `hideName_chars`, `isName_hideName`: what a hidden name is spelled with, and that it can stand in a path.
  - `isEmpty_segments_hidePath`: a hidden path has as many segments, empty where those of the path are.
  - `hiding_keeps_structure`: all of it, with names revealed, paths told apart and directories kept.
  - `identifiers_meet`: some paths have the same identifier.
-/

import Mathlib.Data.Fintype.Pigeonhole
import Mathlib.Data.Set.Finite.List
import Strongbox.Proofs.KeyRing
import Strongbox.Proofs.Text.Pieces

namespace Strongbox.KeyRing

variable (ring : KeyRing)

/-- A hidden name is spelled with letters, digits, `-` and `_`. -/
theorem hideName_chars (name : String) :
    (ring.hideName name).toList.all (fun c => c.isAlphanum || c = '-' || c = '_') = true :=
  List.all_eq_true.mpr (Base64.encode_chars _)

/-- A hidden name can stand in a path: it is not empty and none of the dots. -/
theorem isName_hideName (name : String) : KeyPath.isName (ring.hideName name) = true := by
  have hchars := ring.hideName_chars name
  have hne (dots : String) (hdots : dots.toList.all (fun c => c.isAlphanum || c = '-' || c = '_') = false) :
      ring.hideName name ≠ dots := by
    rintro rfl
    rw [hchars] at hdots
    cases hdots
  simp only [KeyPath.isName, Bool.and_eq_true, decide_eq_true_eq]
  exact ⟨⟨ring.hideName_ne_empty name, hne "." (by decide)⟩, hne ".." (by decide)⟩

theorem hideSegment_eq_empty_iff {segment : String} : ring.hideSegment segment = "" ↔ segment = "" := by
  unfold hideSegment
  by_cases h : segment = ""
  · rw [if_pos h]
    exact iff_of_true rfl h
  · rw [if_neg h]
    exact iff_of_false (ring.hideName_ne_empty segment) h

/-- A hidden path has as many segments, and they are empty where those of the path are. -/
theorem isEmpty_segments_hidePath (path : String) :
    (KeyPath.segments (ring.hidePath path)).map (fun segment => decide (segment = "")) =
      (KeyPath.segments path).map fun segment => decide (segment = "") := by
  rw [segments_hidePath, List.map_map]
  refine List.map_congr_left fun segment _ => ?_
  exact decide_eq_decide.mpr ring.hideSegment_eq_empty_iff

/-- Hidden names are revealed, and they are names, of letters, digits, `-` and `_` only. Hidden paths
    differ where the paths do, have as many segments and the same ones empty, and start with a hidden
    directory exactly where the paths start with the directory, what follows being hidden as it is. -/
theorem hiding_keeps_structure :
    (∀ name, ring.revealName (ring.hideName name) = .ok name) ∧
    (∀ name, ring.hideName name ≠ "" ∧ KeyPath.isName (ring.hideName name) = true ∧
      (ring.hideName name).toList.all (fun c => c.isAlphanum || c = '-' || c = '_') = true ∧
      '/' ∉ (ring.hideName name).toList) ∧
    (∀ path path', ring.hidePath path = ring.hidePath path' ↔ path = path') ∧
    (∀ path, (KeyPath.segments (ring.hidePath path)).length = (KeyPath.segments path).length ∧
      (KeyPath.segments (ring.hidePath path)).map (fun segment => decide (segment = "")) =
        (KeyPath.segments path).map fun segment => decide (segment = "")) ∧
    ∀ directory path, directory = "" ∨ (∃ above, directory = above ++ "/") →
      ((∃ rest, path = directory ++ rest) ↔ ∃ hidden, ring.hidePath path = ring.hidePath directory ++ hidden) ∧
      ∀ hidden, ring.hidePath path = ring.hidePath directory ++ hidden ↔
        ∃ rest, path = directory ++ rest ∧ hidden = ring.hidePath rest := by
  refine ⟨ring.revealName_hideName, ?_, ?_, ?_, ?_⟩
  · intro name
    exact ⟨ring.hideName_ne_empty name, ring.isName_hideName name, ring.hideName_chars name, ring.slash_not_mem_hideName name⟩
  · intro path path'
    exact ⟨ring.hidePath_injective, congrArg _⟩
  · intro path
    refine ⟨?_, ring.isEmpty_segments_hidePath path⟩
    rw [segments_hidePath, List.length_map]
  · intro directory path hdirectory
    refine ⟨?_, fun hidden => ring.hidePath_eq_append_iff hdirectory⟩
    constructor
    · intro ⟨rest, hrest⟩
      exact ⟨_, (ring.hidePath_eq_append_iff hdirectory).mpr ⟨rest, hrest, rfl⟩⟩
    · intro ⟨hidden, hpath⟩
      obtain ⟨rest, hrest, _⟩ := (ring.hidePath_eq_append_iff hdirectory).mp hpath
      exact ⟨rest, hrest⟩

/-- A directory that ends in an empty segment, and a path in it. -/
theorem hidePath_in_doubled_slash :
    let ring := derive ⟨⟨List.replicate 32 7, by decide⟩⟩ [1, 2, 3]
    (∃ above, "a//" = above ++ "/") ∧ ring.hidePath "a//b" = ring.hidePath "a//" ++ ring.hidePath "b" := by
  intro ring
  have hdirectory : ∃ above, "a//" = above ++ "/" := ⟨"a/", rfl⟩
  refine ⟨hdirectory, ?_⟩
  exact (((hiding_keeps_structure ring).2.2.2.2 "a//" "a//b" (.inr hdirectory)).2 _).mpr ⟨"b", rfl, rfl⟩

/-! ## Identifiers -/

/-- A path of one segment, which is a row of letters. -/
def row (n : Nat) : String := String.ofList (List.replicate (n + 1) 'a')

theorem fault?_row (n : Nat) : KeyPath.fault? (row n) = none := by
  have hslash : '/' ∉ (row n).toList := by
    rw [row, String.toList_ofList]
    intro h
    exact absurd (List.eq_of_mem_replicate h) (by decide)
  have hne (text : String) (h : text.toList.head? ≠ some 'a') : row n ≠ text := by
    rintro rfl
    exact h (by rw [row, String.toList_ofList]; rfl)
  have hname : KeyPath.isName (row n) := by
    simp only [KeyPath.isName, Bool.and_eq_true, decide_eq_true_eq]
    exact ⟨⟨hne "" (by decide), hne "." (by decide)⟩, hne ".." (by decide)⟩
  rw [KeyPath.fault?, if_neg (hne "" (by decide)), KeyPath.segments, Text.pieces_of_not_mem '/' hslash, if_pos]
  simpa using hname

/-- There are more paths than identifiers, so two have the same. -/
theorem identifiers_meet :
    ∃ p q, p ≠ q ∧ KeyPath.fault? p = none ∧ KeyPath.fault? q = none ∧ ring.identifier p = ring.identifier q := by
  let digest (n : Nat) : {bytes : List UInt8 // bytes.length = 32} :=
    ⟨(Crypto.Hmac.digest ring.identifierKey.bytes (Bytes.utf8 (row n))).bytes, (Crypto.Hmac.digest _ _).length_eq⟩
  have : Finite UInt8 := Finite.of_injective UInt8.toFin fun a b h => UInt8.toFin_inj.mp h
  have : Finite {bytes : List UInt8 // bytes.length = 32} := (List.finite_length_eq UInt8 32).to_subtype
  obtain ⟨a, b, hne, heq⟩ := Finite.exists_ne_map_eq_of_infinite digest
  have hdigest : (digest a).val = (digest b).val := by rw [heq]
  refine ⟨row a, row b, fun h => hne ?_, fault?_row a, fault?_row b, congrArg Hex.encode hdigest⟩
  simpa [row] using congrArg (fun s : String => s.toList.length) h

end Strongbox.KeyRing
