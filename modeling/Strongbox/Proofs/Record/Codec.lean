/-
  Strongbox.Proofs.Record.Codec — what is stored of a record or a policy is read back.

  Proved, for every record and every policy:
  - `KeyRecord.decode?_encode`: a stored record reads as the record.
  - `Policy.decode?_encode`: a stored policy reads as the policy.
-/

import Strongbox.Proofs.Json.Fields
import Strongbox.Proofs.Time.Rfc3339
import Strongbox.Record.Codec

namespace Strongbox

open Time (Instant)

/-! ## Maps from their entries -/

/-- A map is what its entries, put in one after the other, make. -/
theorem foldl_insert_toList {α β : Type} [Ord α] [Std.TransOrd α] [Std.LawfulEqOrd α] [BEq α] [LawfulBEq α]
    [Std.LawfulBEqOrd α] (m : Std.ExtTreeMap α β) :
    m.toList.foldl (fun table (k, v) => table.insert k v) (∅ : Std.ExtTreeMap α β) = m := by
  have hof : m.toList.foldl (fun table (k, v) => table.insert k v) (∅ : Std.ExtTreeMap α β) =
      Std.ExtTreeMap.ofList m.toList compare := Std.ExtTreeMap.ofList_eq_foldl.symm
  rw [hof]
  apply Std.ExtTreeMap.ext_getElem?
  intro k
  cases hk : m[k]? with
  | some v =>
    have hmem := Std.ExtTreeMap.mem_toList_iff_getElem?_eq_some.mpr hk
    exact Std.ExtTreeMap.getElem?_ofList_of_mem Std.ReflCmp.compare_self Std.ExtTreeMap.distinct_keys_toList hmem
  | none =>
    have hno : k ∉ Std.ExtTreeMap.ofList m.toList compare := by
      rw [Std.ExtTreeMap.mem_ofList, Std.ExtTreeMap.map_fst_toList_eq_keys, List.contains_iff_mem,
        Std.ExtTreeMap.mem_keys, ← Std.ExtTreeMap.isSome_getElem?_iff_mem, hk]
      simp
    exact Std.ExtTreeMap.getElem?_eq_none hno

/-! ## Parts of a record -/

theorem Json.option?_text {α : Type} {read? : Json → Option α} {text : String} {a : α} (h : read? (ofText text) = some a) :
    option? read? (ofText text) = some (some a) := by
  rw [option?_ofText, h, Option.map_some]

namespace Time.Instant

@[simp] theorem ofJson?_toJson (t : Instant) : ofJson? t.toJson = some t := by
  rw [ofJson?, toJson, Json.text?_ofText, Option.bind_some, Rfc3339.ofText?_text]

@[simp] theorem option?_toJson (t : Instant) : Json.option? ofJson? t.toJson = some (some t) :=
  Json.option?_text t.ofJson?_toJson

theorem plain_toJson (t : Instant) : t.toJson.Plain := Json.plain_ofText _

end Time.Instant

namespace VersionEntry

@[simp] theorem ofJson?_toJson (v : VersionEntry) : ofJson? v.toJson = some v := by
  obtain ⟨created, deletion, destroyed⟩ := v
  cases deletion <;>
    simp [ofJson?, toJson, fieldNames, Json.fields?_ofMembers, Json.uniqueField?, Json.required?, Json.withDefault?]

theorem plain_toJson (v : VersionEntry) : v.toJson.Plain := by
  obtain ⟨created, deletion, destroyed⟩ := v
  apply Json.plain_ofMembers
  cases deletion <;> simp [Time.Instant.plain_toJson, Json.Plain]

end VersionEntry

namespace VersionTable

theorem mapM_entries (entries : List (UInt64 × VersionEntry)) :
    (entries.map fun (n, v) => (Json.spellNat n.toNat, v.toJson)).mapM (fun (name, entry) => do
      some (← Text.Decimal.word64? (← Json.readNat? name), ← VersionEntry.ofJson? entry)) = some entries := by
  induction entries with
  | nil => rfl
  | cons first entries ih =>
    obtain ⟨n, v⟩ := first
    rw [List.map_cons, List.mapM_cons, ih]
    simp [Text.Decimal.word64?_toNat]

@[simp] theorem ofJson?_toJson (versions : VersionTable) : ofJson? (toJson versions) = some versions := by
  have hm := mapM_entries versions.toList
  unfold ofJson? toJson
  simp only [Json.spelledMembers?, Option.bind_eq_bind, Option.bind_some] at hm ⊢
  rw [hm, Option.bind_some, foldl_insert_toList]

theorem plain_toJson (versions : VersionTable) : (toJson versions).Plain := by
  unfold toJson
  simp only [Json.Plain]
  exact Json.plainMembers_spelled (fun e : UInt64 × VersionEntry => Json.spellNat e.1.toNat) (fun e => e.2.toJson)
    (fun e => ⟨_, (Json.spellText_text e.1.toNat).symm⟩) (fun e => e.2.plain_toJson) versions.toList

end VersionTable

namespace CustomMetadata

theorem mapM_entries (entries : List (String × String)) :
    (entries.map fun (key, value) => (key, Json.ofText value)).mapM
      (fun (key, value) => value.text?.map (key, ·)) = some entries := by
  induction entries with
  | nil => rfl
  | cons first entries ih =>
    obtain ⟨key, value⟩ := first
    rw [List.map_cons, List.mapM_cons, ih]
    simp

@[simp] theorem ofJson?_toJson (entries : CustomMetadata) : ofJson? entries.toJson = some entries := by
  have hm := mapM_entries entries.toList
  unfold ofJson? toJson
  simp only [Json.members?_ofMembers, Option.bind_eq_bind, Option.bind_some] at hm ⊢
  rw [hm, Option.bind_some, ofPairs, foldl_insert_toList]

theorem plain_toJson (entries : CustomMetadata) : entries.toJson.Plain := by
  apply Json.plain_ofMembers
  intro m hm
  obtain ⟨e, _, rfl⟩ := List.mem_map.mp hm
  exact Json.plain_ofText _

end CustomMetadata

/-! ## Records and policies -/

namespace KeyRecord

theorem ofJson?_toJson (r : KeyRecord) : ofJson? r.toJson = some r := by
  obtain ⟨key, versions, currentVersion, oldestVersion, createdTime, updatedTime, maxVersions, casRequired,
    deleteVersionAfter, customMetadata⟩ := r
  cases deleteVersionAfter <;>
    simp [ofJson?, toJson, fieldNames, Json.fields?_ofMembers, Json.uniqueField?, Json.required?, Json.withDefault?]

theorem plain_toJson (r : KeyRecord) : r.toJson.Plain := by
  obtain ⟨key, versions, currentVersion, oldestVersion, createdTime, updatedTime, maxVersions, casRequired,
    deleteVersionAfter, customMetadata⟩ := r
  apply Json.plain_ofMembers
  cases deleteVersionAfter <;>
    simp [Time.Instant.plain_toJson, VersionTable.plain_toJson, CustomMetadata.plain_toJson, Json.plain_ofText,
      Json.plain_ofNat, Json.Plain]

@[simp] theorem decode?_encode (r : KeyRecord) : decode? r.encode = some r := by
  rw [decode?, encode, Json.ofBytes?_compact r.plain_toJson, Option.bind_some, ofJson?_toJson]

end KeyRecord

namespace Policy

theorem ofJson?_toJson (p : Policy) : ofJson? p.toJson = some p := by
  obtain ⟨maxVersions, casRequired, deleteVersionAfter⟩ := p
  cases deleteVersionAfter <;>
    simp [ofJson?, toJson, fieldNames, Json.fields?_ofMembers, Json.uniqueField?, Json.withDefault?]

theorem plain_toJson (p : Policy) : p.toJson.Plain := by
  obtain ⟨maxVersions, casRequired, deleteVersionAfter⟩ := p
  apply Json.plain_ofMembers
  cases deleteVersionAfter <;> simp [Json.plain_ofNat, Json.Plain]

@[simp] theorem decode?_encode (p : Policy) : decode? p.encode = some p := by
  rw [decode?, encode, Json.ofBytes?_compact p.plain_toJson, Option.bind_some, ofJson?_toJson]

end Policy

end Strongbox
