/-
  Strongbox.Proofs.Cli.Rendering — what is printed of a version says all that was read of it.

  The data of a version is any bytes. Bytes that are a text are shown as that text, all others in
  base 64 under another name, and where there is no data neither name is there. So a reader
  who takes the one or the other gets the bytes, and the rest of the version besides.

  Proved:
  - `SecretVersion.printed`: the printed text of a version reads as what it shows.
  - `SecretVersion.bytes?_shown`: what is shown gives the data back.
  - `WrittenVersion.printed`: so does the number that is printed of a version just written.
-/

import Strongbox.Cli.Report
import Strongbox.Proofs.Base64
import Strongbox.Proofs.Record.Codec

namespace Strongbox

/-! ## Reading what is shown -/

def VersionView.ofJson? (value : Json) : Option VersionView := do
  let members ← value.members?
  some {
    createdTime := ← Json.required? Json.text? (← Json.uniqueField? members "created_time")
    deletionTime := ← Json.required? Json.text? (← Json.uniqueField? members "deletion_time")
    destroyed := ← Json.required? Json.bool? (← Json.uniqueField? members "destroyed") }

/-- A version as it is shown, member by member; the two that may be missing are optional. -/
structure ShownSecret where
  data : Option String
  dataBase64 : Option String
  version : UInt64
  metadata : VersionView
  customMetadata : CustomMetadata

namespace ShownSecret

/-- A member that may be missing, but is a text if it is there. -/
def optionalText? (members : List (String × Json)) (name : String) : Option (Option String) := do
  match ← Json.uniqueField? members name with
  | none => some none
  | some value => value.text?.map some

def ofJson? (value : Json) : Option ShownSecret := do
  let members ← value.members?
  some {
    data := ← optionalText? members "data"
    dataBase64 := ← optionalText? members "data_base64"
    version := ← Json.required? Json.word64? (← Json.uniqueField? members "version")
    metadata := ← Json.required? VersionView.ofJson? (← Json.uniqueField? members "metadata")
    customMetadata := ← Json.required? CustomMetadata.ofJson? (← Json.uniqueField? members "custom_metadata") }

/-- What is shown on standard output. -/
def ofOutput? (output : Bytes) : Option ShownSecret := (Json.ofBytes? output).bind ofJson?

/-- The data that is shown: a text stands for its bytes, base 64 for the bytes it spells. -/
def bytes? (s : ShownSecret) : Option (Option Bytes) :=
  match s.data, s.dataBase64 with
  | none, none => some none
  | some text, none => some (some (Bytes.utf8 text))
  | none, some spelled => (Base64.common.decodePadded? spelled).map some
  | some _, some _ => none

end ShownSecret

/-- The number of the version that is shown on standard output. -/
def shownVersion? (output : Bytes) : Option UInt64 := do
  let members ← (← Json.ofBytes? output).members?
  Json.required? Json.word64? (← Json.uniqueField? members "version")

/-! ## Showing -/

namespace VersionView

variable (v : VersionView)

@[simp] theorem ofJson?_members : ofJson? (Json.ofMembers v.members) = some v := by
  simp [ofJson?, members, Json.uniqueField?, Json.required?]

theorem plain_of_mem_members : ∀ m ∈ v.members, m.2.Plain := by
  intro m hm
  simp only [members, List.mem_cons, List.not_mem_nil, or_false] at hm
  rcases hm with rfl | rfl | rfl
  · exact Json.plain_ofText _
  · exact Json.plain_ofText _
  · trivial

end VersionView

namespace SecretVersion

variable (s : SecretVersion)

/-- The text that the data is, if it is one. -/
def dataText? : Option String := s.data.bind Bytes.text?

/-- The base 64 form of data that is no text. -/
def dataBase64? : Option String :=
  s.data.bind fun data => if (Bytes.text? data).isSome then none else some (Base64.common.encode data)

/-- The version as it is shown. -/
def shown : ShownSecret := ⟨s.dataText?, s.dataBase64?, s.version, s.metadata, s.customMetadata⟩

theorem plain_toJson : s.toJson.Plain := by
  apply Json.plain_ofMembers
  have hmetadata : (Json.ofMembers s.metadata.members).Plain := Json.plain_ofMembers s.metadata.plain_of_mem_members
  have hdata : ∀ m ∈ dataMember s.data, m.2.Plain := by
    unfold dataMember
    intro m hm
    split at hm
    · cases hm
    · split at hm <;> exact List.mem_singleton.mp hm ▸ Json.plain_ofText _
  intro m hm
  simp only [List.mem_append, List.mem_cons, List.not_mem_nil, or_false] at hm
  rcases hm with (rfl | hm) | rfl | rfl
  · exact CustomMetadata.plain_toJson _
  · exact hdata m hm
  · exact hmetadata
  · exact Json.plain_ofNat _

theorem ofJson?_toJson : ShownSecret.ofJson? s.toJson = some s.shown := by
  obtain ⟨version, data, metadata, customMetadata⟩ := s
  cases data with
  | none =>
    simp [ShownSecret.ofJson?, toJson, dataMember, ShownSecret.optionalText?, Json.uniqueField?, Json.required?, shown, dataText?,
      dataBase64?]
  | some data =>
    cases htext : Bytes.text? data <;>
      simp [ShownSecret.ofJson?, toJson, dataMember, htext, ShownSecret.optionalText?, Json.uniqueField?, Json.required?, shown,
        dataText?, dataBase64?]

/-- The printed text of a version reads as what it shows. -/
theorem printed : ShownSecret.ofOutput? (Cli.Report.value s.toJson).output = some s.shown := by
  rw [ShownSecret.ofOutput?, Cli.Report.value, Json.ofBytes?_indented s.plain_toJson rfl, Option.bind_some, ofJson?_toJson]

/-- Data is shown as a text exactly if it is the bytes of that text. -/
theorem shown_data_eq_some_iff {text : String} : s.shown.data = some text ↔ s.data = some (Bytes.utf8 text) := by
  rw [shown, dataText?, Option.bind_eq_some_iff]
  constructor
  · intro ⟨data, hdata, htext⟩
    rw [hdata, Bytes.utf8_of_text? htext]
  · intro hdata
    exact ⟨_, hdata, Bytes.text?_utf8 text⟩

/-- Data is shown in base 64 exactly if it is no text. -/
theorem isSome_shown_dataBase64_iff :
    s.shown.dataBase64.isSome = true ↔ ∃ data, s.data = some data ∧ ∀ text, data ≠ Bytes.utf8 text := by
  rw [shown, dataBase64?, Option.isSome_iff_exists]
  simp only [Option.bind_eq_some_iff]
  constructor
  · intro ⟨_, data, hdata, hshown⟩
    refine ⟨data, hdata, ?_⟩
    rintro text rfl
    rw [Bytes.text?_utf8] at hshown
    cases hshown
  · intro ⟨data, hdata, hno⟩
    refine ⟨_, data, hdata, if_neg fun hsome => ?_⟩
    obtain ⟨text, htext⟩ := Option.isSome_iff_exists.mp hsome
    exact hno text (Bytes.utf8_of_text? htext)

/-- What is shown gives the data back. -/
theorem bytes?_shown : s.shown.bytes? = some s.data := by
  obtain ⟨version, data, metadata, customMetadata⟩ := s
  cases data with
  | none => rfl
  | some data =>
    cases htext : Bytes.text? data with
    | none => simp [shown, dataText?, dataBase64?, ShownSecret.bytes?, htext, Base64.decodePadded?_encode]
    | some text => simp [shown, dataText?, dataBase64?, ShownSecret.bytes?, htext, ← Bytes.utf8_of_text? htext]

end SecretVersion

/-- The number that is printed of a version just written reads back. -/
theorem WrittenVersion.printed (w : WrittenVersion) : shownVersion? (Cli.Report.value w.toJson).output = some w.version := by
  have hplain : w.toJson.Plain := by
    apply Json.plain_ofMembers
    intro m hm
    rcases List.mem_cons.mp hm with rfl | hm
    · exact Json.plain_ofNat _
    · exact w.metadata.plain_of_mem_members m hm
  rw [shownVersion?, Cli.Report.value, Json.ofBytes?_indented hplain rfl]
  simp [toJson, VersionView.members, Json.uniqueField?, Json.required?]

end Strongbox
