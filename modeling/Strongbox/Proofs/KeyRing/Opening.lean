/-
  Strongbox.Proofs.KeyRing.Opening — what opens is what was sealed.

  A sealed value is a version byte, a nonce, the enciphered value and a tag over it. The tag is a
  function of what stands before it, and enciphering is its own inverse, so a value that opens is
  the sealing of what it opens to, byte for byte, under the nonce it carries. Whatever else is
  stored is refused, and the refusal says at which step reading it ended.

  Proved:
  - `openSealed_eq_ok`: a value opens exactly if it was sealed.
  - `openSealed_of_foreign`: every other value is refused, and how.
  - `opens_exactly_sealed`: both, and what they mean for a get on a sealed storage.
-/

import Strongbox.Proofs.Storage.Contents

namespace Strongbox

theorem Block.ext {n : Nat} {a b : Block n} (h : a.bytes = b.bytes) : a = b := by
  obtain ⟨bytes, _⟩ := a
  cases h
  rfl

/-! ## Deciphering -/

namespace Crypto.Aead

variable {key : Block 32} {nonce : Block 12} {bound boxed plain : Bytes}

theorem length_encrypt (key : Block 32) (nonce : Block 12) (bound plain : Bytes) :
    (encrypt key nonce bound plain).length = plain.length + 16 := by
  rw [encrypt, List.length_append, ChaCha20.length_apply, Block.length_eq]

/-- What deciphers is the enciphered text of what it deciphers to. -/
theorem encrypt_of_decrypt? (h : decrypt? key nonce bound boxed = some plain) : encrypt key nonce bound plain = boxed := by
  unfold decrypt? at h
  split at h
  · cases h
  · dsimp only at h
    split at h
    · rename_i htag
      rw [← Option.some.inj h, encrypt, ChaCha20.apply_apply, ← htag]
      exact List.take_append_drop _ boxed
    · cases h

end Crypto.Aead

namespace KeyRing

variable {ring : KeyRing} {key : String} {sealed plain : Bytes}

/-! ## Nonces -/

theorem splitNonce?_eq_some {bytes rest : Bytes} {nonce : Block 12} :
    splitNonce? bytes = some (nonce, rest) ↔ nonce.bytes ++ rest = bytes := by
  constructor
  · intro h
    rw [splitNonce?, Block.ofBytes?] at h
    split at h
    · cases h
      exact List.take_append_drop 12 bytes
    · cases h
  · rintro rfl
    exact splitNonce?_append nonce rest

theorem splitNonce?_eq_none {bytes : Bytes} : splitNonce? bytes = none ↔ bytes.length < 12 := by
  rw [splitNonce?, Option.map_eq_none_iff, Block.ofBytes?]
  split
  · rename_i htake
    rw [List.length_take] at htake
    exact iff_of_false (Option.some_ne_none _) (by omega)
  · rename_i htake
    rw [List.length_take] at htake
    exact iff_of_true rfl (by omega)

/-! ## Opening -/

theorem length_sealWith (ring : KeyRing) (nonce : Block 12) (key : String) (plain : Bytes) :
    (ring.sealWith nonce key plain).length = plain.length + 29 := by
  have hnonce := nonce.length_eq
  have hboxed := Crypto.Aead.length_encrypt ring.valueKey nonce (Bytes.utf8 key) plain
  simp only [sealWith, List.length_cons, List.length_append]
  omega

/-- A value that opens is a sealing of what it opens to. -/
theorem sealWith_of_openSealed (h : ring.openSealed key sealed = .ok plain) :
    ∃ nonce, ring.sealWith nonce key plain = sealed := by
  unfold openSealed at h
  split at h
  · cases h
  · rename_i version rest
    split at h
    · cases h
    · rename_i nonce boxed hsplit
      split at h
      · cases h
      · rename_i hversion
        split at h
        · rename_i opened hopened
          obtain rfl := Except.ok.inj h
          obtain rfl := Crypto.Aead.encrypt_of_decrypt? hopened
          obtain rfl := splitNonce?_eq_some.mp hsplit
          obtain rfl := Decidable.not_not.mp hversion
          exact ⟨nonce, rfl⟩
        · cases h

theorem openSealed_eq_ok : ring.openSealed key sealed = .ok plain ↔ ∃ nonce, ring.sealWith nonce key plain = sealed := by
  refine ⟨sealWith_of_openSealed, ?_⟩
  rintro ⟨nonce, rfl⟩
  exact ring.openSealed_sealWith nonce key plain

/-- Why bytes do not open that were not sealed: the step at which reading them ends. -/
def refusal (sealed : Bytes) : SealFault :=
  if sealed.length < 13 then .tooShort
  else if sealed.head? = some sealVersion then .notAuthentic
  else .unknownVersion (sealed.headD 0)

/-- Whatever fails to open is refused in that way, under the key it was to open with. -/
theorem openSealed_eq_error {e : StorageError} (h : ring.openSealed key sealed = .error e) :
    e = .decryption key (refusal sealed) := by
  unfold openSealed at h
  split at h
  · cases h
    rfl
  · rename_i version rest
    split at h
    · rename_i hsplit
      have hshort := splitNonce?_eq_none.mp hsplit
      cases h
      rw [refusal, if_pos (by simp only [List.length_cons]; omega)]
    · rename_i nonce boxed hsplit
      have hlong : ¬ (version :: rest).length < 13 := by
        obtain rfl := splitNonce?_eq_some.mp hsplit
        have hnonce := nonce.length_eq
        simp only [List.length_cons, List.length_append]
        omega
      rw [refusal, if_neg hlong]
      split at h
      · rename_i hversion
        cases h
        rw [List.head?_cons, if_neg fun hhead => hversion (Option.some.inj hhead), List.headD_cons]
      · rename_i hversion
        split at h
        · cases h
        · cases h
          rw [List.head?_cons, if_pos (congrArg some (Decidable.not_not.mp hversion))]

theorem openSealed_of_foreign (h : ∀ nonce plain, ring.sealWith nonce key plain ≠ sealed) :
    ring.openSealed key sealed = .error (.decryption key (refusal sealed)) := by
  cases hopen : ring.openSealed key sealed with
  | ok plain =>
    obtain ⟨nonce, hsealed⟩ := sealWith_of_openSealed hopen
    exact absurd hsealed (h nonce plain)
  | error e => rw [openSealed_eq_error hopen]

/-- The nonce is read off a sealed value. -/
theorem nonce_of_sealWith (ring : KeyRing) (nonce : Block 12) (key : String) (plain : Bytes) :
    ((ring.sealWith nonce key plain).drop 1).take 12 = nonce.bytes := by
  rw [sealWith, List.cons_append, List.drop_succ_cons, List.drop_zero, List.take_left' nonce.length_eq]

/-- No two values with one nonce open to the same. -/
theorem openSealed_injective {a b : Bytes} (hnonce : (a.drop 1).take 12 = (b.drop 1).take 12)
    (ha : ring.openSealed key a = .ok plain) (hb : ring.openSealed key b = .ok plain) : a = b := by
  obtain ⟨nonce, rfl⟩ := sealWith_of_openSealed ha
  obtain ⟨nonce', rfl⟩ := sealWith_of_openSealed hb
  rw [nonce_of_sealWith, nonce_of_sealWith] at hnonce
  rw [Block.ext hnonce]

end KeyRing

/-! ## Sealed storage -/

namespace Sealed

variable {s : Sealed} {name : String} {f : Faults} {k : Nat} {world : World Memory}

/-- A get makes one call; if that goes through, it answers what opens under the key. -/
theorem runOn_get (s : Sealed) (name : String) (f : Faults) (k : Nat) (world : World Memory) :
    ((s.get name).runOn f k world).1.1 =
      match f k (.get (s.physicalKey name)) with
      | some failure => .error (.storage failure)
      | none => (world.store.contents s.ring).lookup (s.physicalKey name) := by
  show ((Access.call (.get (s.physicalKey name)) _).runOn f k world).1.1 = _
  rw [Access.runOn_call]
  cases hf : f k (.get (s.physicalKey name)) with
  | some failure => rw [Backend.perform_failed hf]
  | none =>
    rw [Backend.perform_through hf, Contents.lookup, Memory.contents]
    generalize hreply : Memory.reply (.get (s.physicalKey name)) world.store = reply
    replace hreply : world.store[s.physicalKey name]? = reply := hreply
    rw [hreply]
    cases reply with
    | none => rfl
    | some sealed =>
      rw [Option.map_some]
      show ((do pure (some (← Access.ofExcept (s.ring.openSealed (s.physicalKey name) sealed))) : Access _).runOn f _ _).1.1 = _
      cases s.ring.openSealed (s.physicalKey name) sealed <;> rfl

theorem get_eq_none : ((s.get name).runOn f k world).1.1 = .ok none ↔
    f k (.get (s.physicalKey name)) = none ∧ world.store[s.physicalKey name]? = none := by
  rw [runOn_get]
  cases f k (.get (s.physicalKey name)) with
  | some failure => exact iff_of_false nofun nofun
  | none => exact Contents.lookup_eq_none.trans (Memory.contents_eq_none.trans (and_iff_right rfl).symm)

end Sealed

namespace KeyRing

/-- A stored value opens exactly if it is the version byte, a nonce and what enciphering what it
    opens to under that nonce gives, bound to its key: sealing that with the nonce gives the same
    bytes again. So what was sealed opens, whatever the nonce and the data; no two values with one
    nonce open to the same; everything else is refused as undecryptable, whatever its length. A get
    on a sealed storage therefore says that nothing is there only if nothing is. -/
theorem opens_exactly_sealed (master : MasterKey) (salt : Bytes) (key : String) :
    let ring := derive master salt
    (∀ sealed plain, ring.openSealed key sealed = .ok plain ↔ ∃ nonce : Block 12,
      sealed = 0x01 :: (nonce.bytes ++ Crypto.Aead.encrypt ring.valueKey nonce (Bytes.utf8 key) plain) ∧
        ring.sealWith nonce key plain = sealed) ∧
      (∀ nonce plain, ring.openSealed key (ring.sealWith nonce key plain) = .ok plain ∧
        (ring.sealWith nonce key plain).length = plain.length + 29) ∧
      (∀ a b plain, (a.drop 1).take 12 = (b.drop 1).take 12 → ring.openSealed key a = .ok plain →
        ring.openSealed key b = .ok plain → a = b) ∧
      (∀ sealed, (∀ nonce plain, ring.sealWith nonce key plain ≠ sealed) → ring.openSealed key sealed =
        .error (.decryption key (if sealed.length < 13 then .tooShort
          else if sealed.head? = some 0x01 then .notAuthentic else .unknownVersion (sealed.headD 0)))) ∧
      ∀ below hidesNames name f k (world : World Memory), let s : Sealed := ⟨ring, below, hidesNames⟩
        ((s.get name).runOn f k world).1.1 = .ok none ↔
          f k (.get (s.physicalKey name)) = none ∧ world.store[s.physicalKey name]? = none := by
  intro ring
  refine ⟨?_, ?_, fun _ _ _ => openSealed_injective, fun _ => openSealed_of_foreign, fun _ _ _ _ _ _ => Sealed.get_eq_none⟩
  · intro sealed plain
    rw [openSealed_eq_ok]
    refine exists_congr fun nonce => ⟨?_, And.right⟩
    rintro rfl
    exact ⟨rfl, rfl⟩
  · exact fun nonce plain => ⟨ring.openSealed_sealWith nonce key plain, ring.length_sealWith nonce key plain⟩

/-- A value opens under its own key; cut short inside the nonce, or with another first byte, it does not. -/
theorem opens_exactly_sealed_cut :
    let ring := derive ⟨.tabulate 32 fun _ => 7⟩ [3]
    let sealed := ring.sealWith (.tabulate 12 fun _ => 9) "config" [1, 2]
    ring.openSealed "config" sealed = .ok [1, 2] ∧ sealed.length = 31 ∧
      ring.openSealed "config" (sealed.take 12) = .error (.decryption "config" .tooShort) ∧
      ring.openSealed "config" (2 :: sealed.drop 1) = .error (.decryption "config" (.unknownVersion 2)) := by
  intro ring sealed
  obtain ⟨_, hsealed, _, hforeign, _⟩ := opens_exactly_sealed ⟨.tabulate 32 fun _ => 7⟩ [3] "config"
  obtain ⟨hopen, hlength⟩ := hsealed (.tabulate 12 fun _ => 9) [1, 2]
  replace hlength : sealed.length = 31 := hlength
  have hshort : (sealed.take 12).length = 12 := by
    rw [List.length_take, hlength]
    rfl
  have hlong : (2 :: sealed.drop 1).length = 31 := by
    rw [List.length_cons, List.length_drop, hlength]
  refine ⟨hopen, hlength, ?_, ?_⟩
  · refine (hforeign _ fun nonce plain heq => ?_).trans ?_
    · have hlen := (ring.length_sealWith nonce "config" plain).symm.trans ((congrArg List.length heq).trans hshort)
      omega
    · rw [if_pos (by rw [hshort]; decide)]
  · refine (hforeign _ fun nonce plain heq => ?_).trans ?_
    · exact absurd (List.cons.inj heq).1 (by decide)
    · rw [if_neg (by rw [hlong]; decide)]
      rfl

end KeyRing

end Strongbox
