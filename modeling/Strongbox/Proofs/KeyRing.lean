/-
  Strongbox.Proofs.KeyRing — what a key ring seals or hides, it opens and reveals.

  Enciphering is exclusive or with a key stream that depends on the length of the data only, so
  doing it twice gives the data back; the tag is computed from what is enciphered, so it is the
  right one when it is checked.

  Proved:
  - `openSealed_sealWith`: a sealed value opens under the key it was sealed for.
  - `revealName_hideName`: a hidden name is revealed.
  - `hidePath_injective`: two paths are never hidden alike.
  - `hidePath_eq_append`: a hidden path is cut at a slash exactly where the path is.
-/

import Strongbox.KeyRing.Basic
import Strongbox.Proofs.Base64
import Strongbox.Proofs.Text.Pieces

namespace Strongbox

/-! ## Enciphering -/

theorem Bytes.length_xor (a b : Bytes) : (Bytes.xor a b).length = min a.length b.length := by
  simp [Bytes.xor]

theorem Bytes.xor_xor {data stream : Bytes} (h : data.length ≤ stream.length) :
    Bytes.xor (Bytes.xor data stream) stream = data := by
  induction data generalizing stream with
  | nil => simp [Bytes.xor]
  | cons b data ih =>
    cases stream with
    | nil => simp at h
    | cons s stream =>
      have hd := @ih stream (by simpa using h)
      simp only [Bytes.xor, List.zipWith_cons_cons] at hd ⊢
      rw [hd, UInt8.xor_assoc, UInt8.xor_self, UInt8.xor_zero]

namespace Crypto

theorem ChaCha20.length_apply (key : Block 32) (nonce : Block 12) (data : Bytes) :
    (ChaCha20.apply key nonce data).length = data.length := by
  rw [ChaCha20.apply, Bytes.length_xor, ChaCha20.length_keyStream]
  omega

theorem ChaCha20.apply_apply (key : Block 32) (nonce : Block 12) (data : Bytes) :
    ChaCha20.apply key nonce (ChaCha20.apply key nonce data) = data := by
  conv => lhs; rw [ChaCha20.apply, ChaCha20.length_apply]
  rw [ChaCha20.apply, Bytes.xor_xor]
  rw [ChaCha20.length_keyStream]
  omega

/-- The tag at the end of a sealed text is the right one. -/
theorem Aead.decrypt?_append (key : Block 32) (nonce : Block 12) (bound cipherText : Bytes) :
    Aead.decrypt? key nonce bound (cipherText ++ (Aead.tag key nonce bound cipherText).bytes) =
      some (ChaCha20.apply key nonce cipherText) := by
  have hl := (Aead.tag key nonce bound cipherText).length_eq
  have hk : (cipherText ++ (Aead.tag key nonce bound cipherText).bytes).length - 16 = cipherText.length := by
    simp [hl]
  have h16 : ¬ (cipherText ++ (Aead.tag key nonce bound cipherText).bytes).length < 16 := by simp [hl]
  unfold Aead.decrypt?
  rw [if_neg h16, hk, List.take_left, List.drop_left, if_pos rfl]

theorem Aead.decrypt?_encrypt (key : Block 32) (nonce : Block 12) (bound plain : Bytes) :
    Aead.decrypt? key nonce bound (Aead.encrypt key nonce bound plain) = some plain := by
  rw [Aead.encrypt, Aead.decrypt?_append, ChaCha20.apply_apply]

end Crypto

namespace KeyRing

/-! ## Values -/

theorem splitNonce?_append (nonce : Block 12) (rest : Bytes) :
    splitNonce? (nonce.bytes ++ rest) = some (nonce, rest) := by
  have hn : 12 = nonce.bytes.length := nonce.length_eq.symm
  rw [splitNonce?, List.take_left' nonce.length_eq, List.drop_left' nonce.length_eq, Block.ofBytes?_bytes]
  rfl

@[simp] theorem openSealed_sealWith (ring : KeyRing) (nonce : Block 12) (key : String) (plain : Bytes) :
    ring.openSealed key (ring.sealWith nonce key plain) = .ok plain := by
  simp only [openSealed, sealWith, List.cons_append, splitNonce?_append, ne_eq, not_true_eq_false, if_false,
    Crypto.Aead.decrypt?_encrypt]

/-! ## Names -/

theorem revealName_hideName (ring : KeyRing) (name : String) : ring.revealName (ring.hideName name) = .ok name := by
  simp only [revealName, hideName, Base64.decode?_encode, splitNonce?_append, Crypto.Aead.decrypt?_encrypt,
    Bytes.text?_utf8]

theorem hideName_injective (ring : KeyRing) {a b : String} (h : ring.hideName a = ring.hideName b) : a = b := by
  have ha := ring.revealName_hideName a
  rw [h, revealName_hideName] at ha
  exact (Except.ok.inj ha).symm

theorem hideName_ne_empty (ring : KeyRing) (name : String) : ring.hideName name ≠ "" := by
  apply Base64.encode_ne_empty
  intro h
  have hl := (ring.nameNonce name).length_eq
  rw [(List.append_eq_nil_iff.mp h).1] at hl
  simp at hl

theorem slash_not_mem_hideName (ring : KeyRing) (name : String) : '/' ∉ (ring.hideName name).toList := by
  intro h
  exact absurd (Base64.encode_chars _ '/' h) (by decide)

/-! ## Paths -/

/-- A segment as it stands in a hidden path: an empty one stays as it is. -/
def hideSegment (ring : KeyRing) (segment : String) : String := if segment = "" then "" else ring.hideName segment

theorem hideSegment_injective (ring : KeyRing) {a b : String} (h : ring.hideSegment a = ring.hideSegment b) :
    a = b := by
  unfold hideSegment at h
  by_cases ha : a = "" <;> by_cases hb : b = ""
  · rw [ha, hb]
  · rw [if_pos ha, if_neg hb] at h
    exact absurd h.symm (ring.hideName_ne_empty b)
  · rw [if_neg ha, if_pos hb] at h
    exact absurd h (ring.hideName_ne_empty a)
  · rw [if_neg ha, if_neg hb] at h
    exact ring.hideName_injective h

theorem slash_not_mem_hideSegment (ring : KeyRing) (segment : String) :
    '/' ∉ (ring.hideSegment segment).toList := by
  unfold hideSegment
  split
  · simp
  · exact ring.slash_not_mem_hideName segment

theorem hidePath_eq (ring : KeyRing) (path : String) :
    ring.hidePath path = Text.join (String.singleton '/') ((KeyPath.segments path).map ring.hideSegment) := rfl

theorem segments_hidePath (ring : KeyRing) (path : String) :
    KeyPath.segments (ring.hidePath path) = (KeyPath.segments path).map ring.hideSegment := by
  rw [hidePath_eq]
  apply Text.pieces_join
  · intro h
    exact Text.pieces_ne_nil '/' path (List.map_eq_nil_iff.mp h)
  · intro part hp
    obtain ⟨segment, _, rfl⟩ := List.mem_map.mp hp
    exact ring.slash_not_mem_hideSegment segment

theorem segments_injective {a b : String} (h : KeyPath.segments a = KeyPath.segments b) : a = b := by
  rw [← Text.join_pieces '/' a, ← Text.join_pieces '/' b]
  exact congrArg _ h

theorem hidePath_injective (ring : KeyRing) {a b : String} (h : ring.hidePath a = ring.hidePath b) : a = b := by
  have hs := congrArg KeyPath.segments h
  rw [segments_hidePath, segments_hidePath] at hs
  exact segments_injective ((List.map_inj_right fun _ _ => ring.hideSegment_injective).mp hs)

/-! ## Paths put together -/

variable (ring : KeyRing)

theorem segments_append (a b : String) : KeyPath.segments (a ++ "/" ++ b) = KeyPath.segments a ++ KeyPath.segments b :=
  Text.pieces_append '/' a b

theorem hidePath_append (a b : String) : ring.hidePath (a ++ "/" ++ b) = ring.hidePath a ++ "/" ++ ring.hidePath b := by
  apply segments_injective
  rw [segments_hidePath, segments_append, segments_append, segments_hidePath, segments_hidePath, List.map_append]

/-- These texts are the segments of one. -/
theorem exists_of_segments {parts : List String} (hne : parts ≠ []) (h : ∀ part ∈ parts, '/' ∉ part.toList) :
    ∃ path, KeyPath.segments path = parts := ⟨_, Text.pieces_join '/' hne h⟩

/-- Where a hidden text is cut at a slash, so is the text. -/
theorem hidePath_eq_append {path a b : String} (h : ring.hidePath path = a ++ "/" ++ b) :
    ∃ a' b', path = a' ++ "/" ++ b' ∧ a = ring.hidePath a' ∧ b = ring.hidePath b' := by
  have hsegments := congrArg KeyPath.segments h
  rw [segments_hidePath, segments_append] at hsegments
  obtain ⟨above, below, hpath, habove, hbelow⟩ := List.map_eq_append_iff.mp hsegments
  have hflat : ∀ part ∈ above ++ below, '/' ∉ part.toList := by
    intro part hpart
    rw [← hpath] at hpart
    exact Text.not_mem_of_mem_pieces '/' hpart
  have hne {part : List String} {text : String} (h : part.map ring.hideSegment = KeyPath.segments text) : part ≠ [] := by
    rintro rfl
    exact Text.pieces_ne_nil '/' text h.symm
  obtain ⟨a', ha⟩ := exists_of_segments (hne habove) fun part hp => hflat part (List.mem_append_left _ hp)
  obtain ⟨b', hb⟩ := exists_of_segments (hne hbelow) fun part hp => hflat part (List.mem_append_right _ hp)
  refine ⟨a', b', ?_, ?_, ?_⟩
  · exact segments_injective (by rw [hpath, segments_append, ha, hb])
  · exact segments_injective (by rw [segments_hidePath, ha, habove])
  · exact segments_injective (by rw [segments_hidePath, hb, hbelow])

theorem hidePath_of_flat {name : String} (h : '/' ∉ name.toList) : ring.hidePath name = ring.hideSegment name := by
  apply segments_injective
  rw [segments_hidePath, KeyPath.segments, Text.pieces_of_not_mem '/' h, KeyPath.segments,
    Text.pieces_of_not_mem '/' (ring.slash_not_mem_hideSegment name), List.map_singleton]

@[simp] theorem hidePath_empty : ring.hidePath "" = "" := ring.hidePath_of_flat (by simp)

/-- A directory is hidden by hiding its name. -/
theorem hidePath_directory (name : String) : ring.hidePath (name ++ "/") = ring.hidePath name ++ "/" := by
  have h := ring.hidePath_append name ""
  rwa [String.append_empty, ring.hidePath_empty, String.append_empty] at h

/-- What is hidden in a hidden directory is what is in the directory. -/
theorem hidePath_eq_append_iff {directory path hidden : String} (h : directory = "" ∨ ∃ above, directory = above ++ "/") :
    ring.hidePath path = ring.hidePath directory ++ hidden ↔ ∃ rest, path = directory ++ rest ∧ hidden = ring.hidePath rest := by
  rcases h with rfl | ⟨above, rfl⟩
  · rw [hidePath_empty, String.empty_append]
    constructor
    · intro hpath
      exact ⟨path, String.empty_append.symm, hpath.symm⟩
    · intro ⟨rest, hrest, hhidden⟩
      rw [hrest, hhidden, String.empty_append]
  · rw [hidePath_directory]
    constructor
    · intro hpath
      obtain ⟨above', rest, rfl, habove, rfl⟩ := ring.hidePath_eq_append hpath
      exact ⟨rest, by rw [ring.hidePath_injective habove], rfl⟩
    · intro ⟨rest, hrest, hhidden⟩
      rw [hrest, hhidden, hidePath_append]

end KeyRing

/-! ## Paths that can name a key -/

namespace KeyPath

variable {path : String}

theorem not_mem_of_valid (h : fault? path = none) : "" ∉ segments path := by
  unfold fault? at h
  intro hempty
  split at h
  · cases h
  · split at h
    · rename_i hall
      exact absurd (List.all_eq_true.mp hall "" hempty) (by decide)
    · cases h

theorem segments_slash (path : String) : segments (path ++ "/") = segments path ++ [""] := by
  have happend := KeyRing.segments_append path ""
  rwa [String.append_empty] at happend

/-- A slash at the end is followed by an empty segment. -/
theorem getLast?_of_not_mem (h : "" ∉ segments path) : path.toList.getLast? ≠ some '/' := by
  intro hlast
  obtain ⟨above, habove⟩ := List.getLast?_eq_some_iff.mp hlast
  obtain rfl : path = String.ofList above ++ "/" := by
    apply String.toList_injective
    rw [habove]
    simp
  rw [segments_slash] at h
  exact h (List.mem_append_right _ (List.mem_singleton_self _))

end KeyPath

end Strongbox
