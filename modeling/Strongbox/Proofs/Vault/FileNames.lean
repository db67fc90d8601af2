/-
  Strongbox.Proofs.Vault.FileNames — the keys of a vault as files.

  Fixed names, hidden names, identifiers and version numbers are all spelled in ASCII without dots and
  slashes, so they can name files and directories as long as they are not too long. The keys stand
  apart: payloads have a directory of their own, and a directory above a record is in the way of the
  value of another only if it is hidden as the other is, with an underscore in front.

  Proved:
  - `proper_of_word`, `proper_hideName`: what can name a file or a directory.
  - `apart_forms`: the keys of a vault stand apart.
  - `InUse.concerns`: the calls of a vault are about such keys, or list where no value is in the way.
  - `InUse.room`: there is room for calls about paths that are not too deep.
-/

import Strongbox.Proofs.Hex
import Strongbox.Proofs.Storage.Files
import Strongbox.Proofs.Vault.Calls

namespace Strongbox

open KeyRing (saltKey checkKey)
open Vault (recordAddress payloadAddress policyKey)
open Directory (valuePath place Proper Apart Concerns)
open FileTree (Plain)

/-! ## Spelling -/

/-- A character of one byte that means nothing to a file system. -/
def isWordChar (c : Char) : Bool := c.toNat < 128 && c != '.' && c != '/' && c != '\x00'

def IsWord (text : String) : Prop := ∀ c ∈ text.toList, isWordChar c = true

instance (text : String) : Decidable (IsWord text) := decidable_of_iff (text.toList.all isWordChar) List.all_eq_true

namespace IsWord

variable {text : String}

theorem ascii (h : IsWord text) : ∀ c ∈ text.toList, c.toNat < 128 := by
  intro c hc
  have hword := h c hc
  simp only [isWordChar, Bool.and_eq_true, decide_eq_true_eq] at hword
  exact hword.1.1.1

theorem utf8ByteSize_eq (h : IsWord text) : text.utf8ByteSize = text.toList.length := by
  have hlength := congrArg List.length (Bytes.utf8_ascii h.ascii)
  rw [String.ofList_toList, List.length_map] at hlength
  rw [← hlength]
  simp [Bytes.utf8]

theorem not_mem (h : IsWord text) {c : Char} (hc : isWordChar c = false) : c ∉ text.toList := by
  intro hmem
  rw [h c hmem] at hc
  cases hc

theorem segments (h : IsWord text) : KeyPath.segments text = [text] := Text.pieces_of_not_mem '/' (h.not_mem (by decide))

end IsWord

/-- A word that is not too long can name a file and a directory. -/
theorem Directory.proper_of_word {name : String} (h : IsWord name) (hne : name ≠ "")
    (hlength : name.toList.length + 6 ≤ FileTree.maxNameLength) : Proper name where
  ne_empty := hne
  undotted hdot := h.not_mem (c := '.') (by decide) (List.mem_of_mem_head? hdot)
  nul := h.not_mem (by decide)
  size := by
    rw [h.utf8ByteSize_eq]
    exact hlength

theorem Base64.isWord_encode (bytes : Bytes) : IsWord (url.encode bytes) := by
  have hdigit : ∀ n < 64, isWordChar (url.digit n) = true := by decide
  intro c hc
  rw [toList_encode] at hc
  obtain ⟨n, hn, rfl⟩ := List.mem_map.mp hc
  exact hdigit n (sextets_lt bytes n hn)

namespace KeyRing

variable (ring : KeyRing)

/-- Four characters for three bytes, of which a nonce and a tag are twenty-eight. -/
theorem length_hideName (name : String) : (ring.hideName name).toList.length = (4 * (name.utf8ByteSize + 28) + 2) / 3 := by
  have hbytes : (Bytes.utf8 name).length = name.utf8ByteSize := by simp [Bytes.utf8]
  have hnonce := (ring.nameNonce name).length_eq
  have htag (cipherText : Bytes) := (Crypto.Aead.tag ring.nameKey (ring.nameNonce name) [] cipherText).length_eq
  rw [hideName, Base64.toList_encode, List.length_map, Base64.length_sextets, List.length_append, hnonce,
    Crypto.Aead.encrypt, List.length_append, htag, Crypto.ChaCha20.length_apply, hbytes]
  omega

/-- A name that is no longer than another is not hidden as the other with an underscore in front. -/
theorem hideName_ne_of_size {a b : String} (h : a.utf8ByteSize ≤ b.utf8ByteSize) : ring.hideName a ≠ "_" ++ ring.hideName b := by
  intro heq
  have hlength := congrArg (fun text : String => text.toList.length) heq
  simp only [String.toList_append, List.length_append, length_hideName] at hlength
  have hunderscore : "_".toList.length = 1 := by decide
  omega

/-- A hidden name can name a file and a directory if what it hides has at most 158 bytes. -/
theorem proper_hideName {name : String} (hsize : name.utf8ByteSize ≤ 158) : Proper (ring.hideName name) := by
  refine Directory.proper_of_word (Base64.isWord_encode _) (ring.hideName_ne_empty name) ?_
  rw [length_hideName, FileTree.maxNameLength]
  omega

end KeyRing

theorem Hex.isWord_encode (bytes : Bytes) : IsWord (encode bytes) := by
  have hdigit : ∀ n < 16, isWordChar (digit n) = true := by decide
  intro c hc
  rw [encode, String.toList_ofList, List.mem_flatMap] at hc
  obtain ⟨b, _, hb⟩ := hc
  have hlt := b.toNat_lt
  rcases List.mem_cons.mp hb with rfl | hb
  · exact hdigit _ (by omega)
  · exact List.mem_singleton.mp hb ▸ hdigit _ (by omega)

theorem KeyRing.proper_identifier (ring : KeyRing) (path : String) : Proper (ring.identifier path) := by
  have hlength : (ring.identifier path).toList.length = 64 := by
    rw [identifier, Hex.length_encode, (Crypto.Hmac.digest _ _).length_eq]
  refine Directory.proper_of_word (Hex.isWord_encode _) ?_ (by rw [hlength]; decide)
  intro hnil
  rw [hnil] at hlength
  cases hlength

namespace Text.Decimal

theorem isWord_text (n : Nat) : IsWord (text n) := by
  intro c hc
  rw [text, String.toList_ofList] at hc
  have hdigit := Json.toNat_lt_of_isDigit (List.all_eq_true.mp (all_isDigit_digits n) c hc)
  have hne (other : Char) (hother : other.toNat < 48) : c ≠ other := by
    rintro rfl
    omega
  simp only [isWordChar, Bool.and_eq_true, decide_eq_true_eq, bne_iff_ne]
  exact ⟨⟨⟨by omega, hne '.' (by decide)⟩, hne '/' (by decide)⟩, hne '\x00' (by decide)⟩

theorem proper_text (version : UInt64) : Proper (text version.toNat) := by
  have hlength : (digits version.toNat).length ≤ 20 :=
    (Nat.length_toDigits_le_iff (by decide) (by decide)).mpr (Nat.lt_trans version.toNat_lt (by decide))
  refine Directory.proper_of_word (isWord_text _) ?_ ?_
  · intro hnil
    exact digits_ne_nil version.toNat (String.ofList_eq_empty_iff.mp hnil)
  · rw [text, String.toList_ofList, FileTree.maxNameLength]
    omega

end Text.Decimal

/-! ## Where the values of a vault are -/

section Places

variable {ring : KeyRing} {path : String}

/-- Names that fit when they are hidden, none of them hidden as another with an underscore in front. -/
structure KeyRing.Separates (ring : KeyRing) (names : List String) : Prop where
  ne_empty : ∀ a ∈ names, a ≠ ""
  size : ∀ a ∈ names, a.utf8ByteSize ≤ 158
  apart : ∀ a ∈ names, ∀ b ∈ names, ring.hideName a ≠ "_" ++ ring.hideName b

variable {names paths directories : List String}

theorem segments_metadata (h : "" ∉ KeyPath.segments path) :
    KeyPath.segments ("metadata/" ++ ring.hidePath path) = "metadata" :: (KeyPath.segments path).map ring.hideName := by
  have hhidden : ∀ segment ∈ KeyPath.segments path, ring.hideSegment segment = ring.hideName segment := by
    rintro segment hsegment
    rw [KeyRing.hideSegment, if_neg]
    rintro rfl
    exact h hsegment
  have happend : "metadata/" ++ ring.hidePath path = "metadata" ++ "/" ++ ring.hidePath path := rfl
  rw [happend, KeyRing.segments_append, ring.segments_hidePath, List.map_congr_left hhidden]
  rfl

theorem place_recordAddress (h : "" ∉ KeyPath.segments path) :
    place (recordAddress ring path) = ("metadata" :: (place path).1.map ring.hideName, ring.hideName (place path).2) := by
  refine Directory.place_eq ?_
  rw [Vault.recordAddress_eq, segments_metadata h, Directory.segments_eq path, List.map_append]
  rfl

theorem segments_payloadAddress (version : UInt64) : KeyPath.segments (payloadAddress ring path version) =
    ["versions", ring.identifier path, Text.Decimal.text version.toNat] := by
  have happend : payloadAddress ring path version =
      "versions" ++ "/" ++ (ring.identifier path ++ "/" ++ Text.Decimal.text version.toNat) := by
    rw [Vault.payloadAddress_eq]
    rfl
  have hidentifier : IsWord (ring.identifier path) := Hex.isWord_encode _
  rw [happend, KeyRing.segments_append, KeyRing.segments_append, hidentifier.segments, (Text.Decimal.isWord_text _).segments]
  rfl

theorem place_payloadAddress (version : UInt64) : place (payloadAddress ring path version) =
    (["versions", ring.identifier path], Text.Decimal.text version.toNat) :=
  Directory.place_eq (segments_payloadAddress version)

/-! ## Keys that stand apart -/

/-- A value at the top is beside the directories. -/
theorem clear_of_word {key first : String} (hword : IsWord key) (hne : Directory.valueName key ≠ first) (above : List String) :
    ¬ valuePath key <+: first :: above := by
  have hplace : place key = ([], key) := Directory.place_eq hword.segments
  rw [valuePath, hplace]
  exact fun hpre => hne (List.cons_prefix_cons.mp hpre).1

/-- A directory of records is in the way of no value. -/
theorem Form.clear {key : String} (hnames : ring.Separates names)
    (hpaths : ∀ path ∈ paths, ∀ segment ∈ KeyPath.segments path, segment ∈ names) (h : Form ring paths key)
    {above : List String} (habove : ∀ a ∈ above, a ∈ names) : ¬ valuePath key <+: "metadata" :: above.map ring.hideName := by
  cases h with
  | salt => exact clear_of_word (by decide) (by decide) _
  | check => exact clear_of_word (by decide) (by decide) _
  | policy => exact clear_of_word (by decide) (by decide) _
  | @record path hpath =>
    have hempty : "" ∉ KeyPath.segments path := fun h => hnames.ne_empty _ (hpaths path hpath _ h) rfl
    rw [valuePath, place_recordAddress hempty, List.cons_append, List.cons_prefix_cons]
    rintro ⟨-, hpre⟩
    obtain ⟨a, ha, hhidden⟩ := List.mem_map.mp (hpre.subset (List.mem_append_right _ (List.mem_singleton_self _)))
    refine hnames.apart a (habove a ha) (place path).2 (hpaths path hpath _ ?_) hhidden
    rw [Directory.segments_eq]
    exact List.mem_append_right _ (List.mem_singleton_self _)
  | @payload path hpath version =>
    rw [valuePath, place_payloadAddress, List.cons_append, List.cons_prefix_cons]
    rintro ⟨hfirst, _⟩
    exact absurd hfirst (by decide)

/-- Keys whose names separate stand apart. -/
theorem apart_forms (hnames : ring.Separates names)
    (hpaths : ∀ path ∈ paths, ∀ segment ∈ KeyPath.segments path, segment ∈ names) : Apart (Form ring paths) where
  proper key h name hname := by
    have hfixed {fixed : String} (hword : IsWord fixed) (hne : fixed ≠ "")
        (hlength : fixed.toList.length + 6 ≤ FileTree.maxNameLength) (h : name ∈ KeyPath.segments fixed) : Proper name := by
      rw [hword.segments] at h
      exact List.mem_singleton.mp h ▸ Directory.proper_of_word hword hne hlength
    cases h with
    | salt => exact hfixed (by decide) (by decide) (by decide) hname
    | check => exact hfixed (by decide) (by decide) (by decide) hname
    | policy => exact hfixed (by decide) (by decide) (by decide) hname
    | @record path hpath =>
      rw [Vault.recordAddress_eq, segments_metadata fun h => hnames.ne_empty _ (hpaths path hpath _ h) rfl] at hname
      rcases List.mem_cons.mp hname with rfl | hname
      · exact Directory.proper_of_word (by decide) (by decide) (by decide)
      · obtain ⟨segment, hsegment, rfl⟩ := List.mem_map.mp hname
        exact ring.proper_hideName (hnames.size segment (hpaths path hpath segment hsegment))
    | @payload path hpath version =>
      rw [segments_payloadAddress] at hname
      rcases List.mem_cons.mp hname with rfl | hname
      · exact Directory.proper_of_word (by decide) (by decide) (by decide)
      · rcases List.mem_cons.mp hname with rfl | hname
        · exact ring.proper_identifier path
        · exact List.mem_singleton.mp hname ▸ Text.Decimal.proper_text version
  clear key h other hother := by
    have hroot {above : List String} (hnil : above = []) : ¬ valuePath key <+: above := by
      rw [hnil, List.prefix_nil]
      simp [valuePath]
    cases hother with
    | salt => exact hroot (by decide)
    | check => exact hroot (by decide)
    | policy => exact hroot (by decide)
    | @record path hpath =>
      rw [place_recordAddress fun h => hnames.ne_empty _ (hpaths path hpath _ h) rfl]
      refine h.clear hnames hpaths fun a ha => hpaths path hpath a ?_
      rw [Directory.segments_eq]
      exact List.mem_append_left _ ha
    | @payload path hpath version =>
      rw [place_payloadAddress]
      cases h with
      | salt => exact clear_of_word (by decide) (by decide) _
      | check => exact clear_of_word (by decide) (by decide) _
      | policy => exact clear_of_word (by decide) (by decide) _
      | @record path' hpath' =>
        rw [valuePath, place_recordAddress fun h => hnames.ne_empty _ (hpaths path' hpath' _ h) rfl, List.cons_append,
          List.cons_prefix_cons]
        rintro ⟨hfirst, _⟩
        exact absurd hfirst (by decide)
      | @payload path' hpath' version' =>
        intro hpre
        have hlength := hpre.length_le
        rw [valuePath, place_payloadAddress, List.length_append] at hlength
        simp at hlength

theorem length_directory (path : String) :
    (KeyPath.segments (Sealed.directory path)).length ≤ (KeyPath.segments path).length + 1 := by
  unfold Sealed.directory
  split
  · exact Nat.le_succ _
  · rw [KeyPath.segments_slash, List.length_append]
    exact Nat.le_refl _

/-- What is listed is a hidden path below `metadata`. -/
theorem exists_listed (hnames : ring.Separates names) (hdirectory : path = "" ∨
      ∃ above, Sealed.directory path = above ++ "/" ∧ ∀ segment ∈ KeyPath.segments above, segment ∈ names) :
    ∃ (directory : String) (above : List String), (Vault.records ring).physicalKey (Sealed.directory path) = directory ++ "/" ∧
      KeyPath.segments directory = "metadata" :: above.map ring.hideName ∧ (∀ a ∈ above, a ∈ names) ∧
      above.length ≤ (KeyPath.segments path).length := by
  have hphysical : (Vault.records ring).physicalKey (Sealed.directory path) = "metadata/" ++ ring.hidePath (Sealed.directory path) :=
    Vault.recordAddress_eq ring _
  rw [hphysical]
  rcases hdirectory with rfl | ⟨above, habove, hsegments⟩
  · refine ⟨"metadata", [], ?_, IsWord.segments (by decide), nofun, Nat.zero_le _⟩
    rw [show Sealed.directory "" = "" by decide, ring.hidePath_empty]
    rfl
  · refine ⟨_, KeyPath.segments above, ?_, segments_metadata fun h => hnames.ne_empty _ (hsegments _ h) rfl, hsegments, ?_⟩
    · rw [habove, ring.hidePath_directory, String.append_assoc]
    · have hlength := length_directory path
      rw [habove, KeyPath.segments_slash, List.length_append, List.length_singleton] at hlength
      omega

theorem plain_metadata (hnames : ring.Separates names) {above : List String} (habove : ∀ a ∈ above, a ∈ names) :
    ∀ part ∈ "metadata" :: above.map ring.hideName, Plain part := by
  intro part hpart
  rcases List.mem_cons.mp hpart with rfl | hpart
  · exact (Directory.proper_of_word (by decide) (by decide) (by decide)).plain
  · obtain ⟨a, ha, rfl⟩ := List.mem_map.mp hpart
    exact (ring.proper_hideName (hnames.size a (habove a ha))).plain

section Calls

variable {c : Call} (hnames : ring.Separates names)
  (hpaths : ∀ path ∈ paths, ∀ segment ∈ KeyPath.segments path, segment ∈ names)
  (hdirectories : ∀ path ∈ directories, path = "" ∨
    ∃ above, Sealed.directory path = above ++ "/" ∧ ∀ segment ∈ KeyPath.segments above, segment ∈ names)

include hnames hpaths hdirectories

/-- A call of the vault is about a key that stands apart, or lists where no value is in the way. -/
theorem InUse.concerns (h : InUse ring paths directories c) : Concerns (Form ring paths) c := by
  cases h with
  | get hform => exact .get hform
  | put hform value => exact .put hform value
  | delete hform => exact .delete hform
  | @list path hpath =>
    obtain ⟨directory, above, hdirectory, hparts, habove, _⟩ := exists_listed hnames (hdirectories path hpath)
    rw [hdirectory]
    refine .list ?_ ?_
    · intro key hform
      rw [hparts]
      exact hform.clear hnames hpaths habove
    · rw [hparts]
      exact plain_metadata hnames habove

/-- There is room for calls about paths that are not too deep. -/
theorem InUse.room {root : FilePath} {depth : Nat}
    (hdepth : ∀ path ∈ paths ++ directories, (KeyPath.segments path).length ≤ depth) (hdeep : 2 ≤ depth)
    (hroot : root.text.utf8ByteSize + 256 * (depth + 1) ≤ FileTree.maxPathLength)
    (h : InUse ring paths directories c) : Directory.Room root c := by
  have hapart := apart_forms hnames hpaths
  have hlength {key : String} (hform : Form ring paths key) : (KeyPath.segments key).length ≤ depth + 1 := by
    cases hform with
    | salt => exact Nat.le_add_left 1 depth
    | check => exact Nat.le_add_left 1 depth
    | policy => exact Nat.le_add_left 1 depth
    | @record path hpath =>
      rw [Vault.recordAddress_eq, segments_metadata fun h => hnames.ne_empty _ (hpaths path hpath _ h) rfl, List.length_cons,
        List.length_map]
      exact Nat.succ_le_succ (hdepth path (List.mem_append_left _ hpath))
    | @payload path hpath version =>
      rw [segments_payloadAddress]
      exact Nat.succ_le_succ hdeep
  have hvalue {key : String} (hform : Form ring paths key) : Directory.Fits root (valuePath key) := by
    refine Directory.fits_of_plain (Directory.plain_valuePath hapart hform) ?_
    have := hlength hform
    rw [valuePath, Directory.length_place]
    omega
  cases h with
  | get hform => exact hvalue hform
  | put hform value =>
    refine Directory.fits_of_plain (Directory.plain_temporaryPath hapart hform) ?_
    have := hlength hform
    rw [Directory.temporaryPath, Directory.length_place]
    omega
  | delete hform => exact hvalue hform
  | @list path hpath =>
    obtain ⟨directory, above, hdirectory, hparts, habove, hshort⟩ := exists_listed hnames (hdirectories path hpath)
    have hplain := plain_metadata hnames habove
    rw [← hparts] at hplain
    rw [Directory.Room, hdirectory, Directory.withoutTrailing_of_accepted (Directory.keyFault?_of_plain hplain)]
    have hlength : above.length + 1 ≤ depth + 1 :=
      Nat.succ_le_succ (Nat.le_trans hshort (hdepth path (List.mem_append_right _ hpath)))
    refine Directory.fits_of_plain hplain ?_
    rw [hparts, List.length_cons, List.length_map]
    exact Nat.le_trans (Nat.add_le_add_left (Nat.mul_le_mul_left 256 hlength) _) hroot

end Calls

end Places

end Strongbox
