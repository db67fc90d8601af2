/-
  Strongbox.Proofs.Record.View — the view of a record shows all of it but its key.

  A view holds texts where the record holds times, spans and version numbers. Each of these is a
  text of one thing only, so nothing is lost in writing it: in particular no two versions meet
  under one number when they are put under their decimal texts. What a view does not tell apart
  is a lifetime that is not set from one that is set to zero, and it does not name the key.

  Proved:
  - `KeyRecord.getElem?_view_versions`, `KeyRecord.mem_view_versions`: a view lists each version of
    the record under its number, and nothing else.
  - `VersionEntry.view_injective`: no two entries are shown alike.
  - `KeyRecord.view_loses_nothing`: two views are equal exactly if the records agree.
-/

import Strongbox.Proofs.Record.Codec
import Strongbox.Proofs.Time.Span
import Strongbox.Record.View

namespace Strongbox

open Text (Decimal.text Decimal.text_injective)
open Time (Instant spanText spanText_injective)
open Time.Rfc3339 (textOrEmpty textOrEmpty_injective textOrEmpty_eq_empty_iff)

theorem VersionEntry.view_injective {v v' : VersionEntry} (h : v.view = v'.view) : v = v' := by
  obtain ⟨hcreated, hdeletion, hdestroyed⟩ := VersionView.mk.inj h
  cases v
  cases v'
  cases Time.Rfc3339.text_injective hcreated
  cases textOrEmpty_injective hdeletion
  cases hdestroyed
  rfl

namespace KeyRecord

/-! ## Versions under their numbers -/

variable (r : KeyRecord)

theorem view_versions : r.view.versions =
    Std.ExtTreeMap.ofList (r.versions.toList.map fun (n, v) => (Decimal.text n.toNat, v.view)) compare := by
  rw [Std.ExtTreeMap.ofList_eq_foldl, List.foldl_map]
  rfl

/-- A decimal text is that of one version number. -/
theorem decimal_toNat_injective {n n' : UInt64} (h : Decimal.text n.toNat = Decimal.text n'.toNat) : n = n' :=
  UInt64.toNat_inj.mp (Decimal.text_injective h)

theorem mem_view_versions {number : String} :
    number ∈ r.view.versions ↔ ∃ n ∈ r.versions, Decimal.text n.toNat = number := by
  rw [view_versions, Std.ExtTreeMap.mem_ofList, List.contains_iff_mem]
  simp only [List.map_map, List.mem_map, Function.comp_apply, Prod.exists]
  constructor
  · rintro ⟨n, v, hmem, rfl⟩
    have hn := Std.ExtTreeMap.mem_toList_iff_getElem?_eq_some.mp hmem
    exact ⟨n, Std.ExtTreeMap.isSome_getElem?_iff_mem.mp (by rw [hn]; rfl), rfl⟩
  · rintro ⟨n, hn, rfl⟩
    obtain ⟨v, hv⟩ := Option.isSome_iff_exists.mp (Std.ExtTreeMap.isSome_getElem?_iff_mem.mpr hn)
    exact ⟨n, v, Std.ExtTreeMap.mem_toList_iff_getElem?_eq_some.mpr hv, rfl⟩

theorem getElem?_view_versions (n : UInt64) :
    r.view.versions[Decimal.text n.toNat]? = r.versions[n]?.map VersionEntry.view := by
  cases hn : r.versions[n]? with
  | some v =>
    have hmem := Std.ExtTreeMap.mem_toList_iff_getElem?_eq_some.mpr hn
    rw [view_versions]
    refine Std.ExtTreeMap.getElem?_ofList_of_mem Std.ReflCmp.compare_self ?_
      (List.mem_map.mpr ⟨_, hmem, rfl⟩)
    -- Texts of two numbers are two texts.
    refine List.pairwise_map.mpr (Std.ExtTreeMap.distinct_keys_toList.imp ?_)
    intro a b hne heq
    have hab := decimal_toNat_injective (Std.LawfulEqCmp.compare_eq_iff_eq.mp heq)
    exact hne (hab ▸ Std.ReflCmp.compare_self)
  | none =>
    refine Std.ExtTreeMap.getElem?_eq_none ?_
    intro hmem
    obtain ⟨m, hm, htext⟩ := r.mem_view_versions.mp hmem
    rw [decimal_toNat_injective htext, ← Std.ExtTreeMap.isSome_getElem?_iff_mem, hn] at hm
    cases hm

/-! ## Views of two records -/

/-- Two records agree in all but the key; a lifetime of zero is one that is not set. -/
structure AgreesWith (r r' : KeyRecord) : Prop where
  versions : r.versions = r'.versions
  currentVersion : r.currentVersion = r'.currentVersion
  oldestVersion : r.oldestVersion = r'.oldestVersion
  createdTime : r.createdTime = r'.createdTime
  updatedTime : r.updatedTime = r'.updatedTime
  maxVersions : r.maxVersions = r'.maxVersions
  casRequired : r.casRequired = r'.casRequired
  deleteVersionAfter : r.deleteVersionAfter.getD 0 = r'.deleteVersionAfter.getD 0
  customMetadata : r.customMetadata = r'.customMetadata

variable {r} {r' : KeyRecord}

theorem versions_of_view_versions (h : r.view.versions = r'.view.versions) : r.versions = r'.versions := by
  apply Std.ExtTreeMap.ext_getElem?
  intro n
  refine Option.map_injective (fun _ _ => VersionEntry.view_injective) ?_
  rw [← getElem?_view_versions, h, getElem?_view_versions]

theorem view_eq_iff : r.view = r'.view ↔ r.AgreesWith r' := by
  constructor
  · intro h
    exact {
      versions := versions_of_view_versions (congrArg MetadataView.versions h)
      currentVersion := congrArg MetadataView.currentVersion h
      oldestVersion := congrArg MetadataView.oldestVersion h
      createdTime := Time.Rfc3339.text_injective (congrArg MetadataView.createdTime h)
      updatedTime := Time.Rfc3339.text_injective (congrArg MetadataView.updatedTime h)
      maxVersions := congrArg MetadataView.maxVersions h
      casRequired := congrArg MetadataView.casRequired h
      deleteVersionAfter := UInt64.toNat_inj.mp (spanText_injective (congrArg MetadataView.deleteVersionAfter h))
      customMetadata := congrArg MetadataView.customMetadata h }
  · intro h
    simp only [view, h.versions, h.currentVersion, h.oldestVersion, h.createdTime, h.updatedTime, h.maxVersions,
      h.casRequired, h.deleteVersionAfter, h.customMetadata]

/-- Two views are equal exactly if the records agree in all but the key: every version stands under
    its number, and numbers, times and spans are written so that they can be told apart. -/
theorem view_loses_nothing :
    (∀ r r' : KeyRecord, r.view = r'.view ↔ r.AgreesWith r') ∧
    (∀ (r : KeyRecord) (n : UInt64), r.view.versions[Decimal.text n.toNat]? = r.versions[n]?.map VersionEntry.view) ∧
    (∀ (r : KeyRecord) (number : String),
      number ∈ r.view.versions ↔ ∃ n ∈ r.versions, Decimal.text n.toNat = number) ∧
    (∀ n n' : UInt64, Decimal.text n.toNat = Decimal.text n'.toNat ↔ n = n') ∧
    (∀ t t' : Option Instant, textOrEmpty t = textOrEmpty t' ↔ t = t') ∧
    (∀ t : Option Instant, textOrEmpty t = "" ↔ t = none) ∧
    (∀ seconds seconds' : UInt64, spanText seconds.toNat = spanText seconds'.toNat ↔ seconds = seconds') := by
  refine ⟨fun _ _ => view_eq_iff, getElem?_view_versions, fun r _ => r.mem_view_versions, ?_, ?_, ?_, ?_⟩
  · intro n n'
    exact ⟨decimal_toNat_injective, fun h => by rw [h]⟩
  · intro t t'
    exact ⟨textOrEmpty_injective, fun h => by rw [h]⟩
  · intro t
    exact textOrEmpty_eq_empty_iff
  · intro seconds seconds'
    exact ⟨fun h => UInt64.toNat_inj.mp (spanText_injective h), fun h => by rw [h]⟩

end KeyRecord

end Strongbox
