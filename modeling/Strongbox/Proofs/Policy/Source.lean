/-
  Strongbox.Proofs.Policy.Source — where each field of a fresh store's policy comes from.

  Three layers lie over each other: the defaults, a configuration file if one is named, and the
  environment. A layer settles each field or leaves it to those below, one field without the
  others. What a variable may hold is said here without the readers: a number is digits after an
  optional plus sign, a truth value is one of six words in any case, and blanks may stand around
  either.

  Loading fails at the first thing that is wrong: the file before the variables, the variables in
  the order of the fields. A variable that holds a text has to make sense, whatever lies below it.
  A variable that holds bytes that are no text is passed over as if it were not set; there alone
  a value that is not well formed does not stop loading.

  Proved:
  - `maxVersions?_eq_some_iff`, `casRequired?_eq_some_iff`, `seconds?_eq_some_iff`: each reader takes
    exactly the well-formed texts.
  - `ofYaml?_eq_layer`: a file is a layer over the defaults.
  - `ofSources_eq_ok_iff`, `ofSources_eq_error_iff`: what loading comes to, and which error it is.
  - `load_settles_every_field`: all of it for any file system, with what is passed over.
-/

import Mathlib.Logic.Basic
import Strongbox.Policy.Source
import Strongbox.Proofs.Text.Decimal
import Strongbox.Proofs.Text.Pieces
import Strongbox.Proofs.Time.Rfc3339
import Strongbox.Storage.FileTree

namespace Strongbox.Policy

open Text (isBlank trim)
open Text.Decimal (isDigit value)

/-! ## Well-formed values -/

/-- A text that is this word with blanks around it. -/
def Surrounds (given : String) (word : List Char) : Prop :=
  ∃ before after : List Char,
    given.toList = before ++ word ++ after ∧ before.all isBlank = true ∧ after.all isBlank = true

/-- Decimal digits after an optional plus sign, with blanks around them. -/
def SpellsNumber (given : String) (n : Nat) : Prop :=
  ∃ sign digits : List Char, Surrounds given (sign ++ digits) ∧ (sign = [] ∨ sign = ['+']) ∧
    digits ≠ [] ∧ digits.all isDigit = true ∧ value digits = n

def boolWords : Bool → List String
  | true => ["1", "true", "yes"]
  | false => ["0", "false", "no"]

/-- One of three words in any case, with blanks around it. -/
def SpellsBool (given : String) (b : Bool) : Prop :=
  ∃ word : String, Surrounds given word.toList ∧ word.map Char.toLower ∈ boolWords b

/-- A number below 2^32. -/
def SpellsMaxVersions (given : String) (n : UInt32) : Prop := SpellsNumber given n.toNat

/-- A number below 2^64; seconds are always a setting of their own. -/
def SpellsSeconds (given : String) (seconds : Option UInt64) : Prop :=
  ∃ n : UInt64, seconds = some n ∧ SpellsNumber given n.toNat

variable {given : String}

theorem trim_eq_ofList_iff {word : List Char} (h : ∀ c ∈ word, isBlank c = false) :
    (trim given).toList = word ↔ Surrounds given word := by
  have hiff : trim given = String.ofList word ↔ _ := Text.trim_eq_iff (by rwa [String.toList_ofList])
  rw [String.toList_ofList] at hiff
  rw [Surrounds, ← hiff]
  constructor
  · rintro rfl
    rw [String.ofList_toList]
  · intro htrim
    rw [htrim, String.toList_ofList]

theorem unsigned?_trim_iff {n : Nat} : Text.Decimal.unsigned? (trim given).toList = some n ↔ SpellsNumber given n := by
  rw [Text.Decimal.unsigned?_eq_some_iff]
  refine exists_congr fun sign => exists_congr fun digits => ?_
  refine and_congr_left ?_
  rintro ⟨hsign, -, hdigits, -⟩
  refine trim_eq_ofList_iff ?_
  intro c hc
  rcases List.mem_append.mp hc with hc | hc
  · rcases hsign with rfl | rfl
    · cases hc
    · rw [List.mem_singleton.mp hc]
      decide
  · exact Time.Rfc3339.not_isBlank_of_isDigit (List.all_eq_true.mp hdigits c hc)

theorem maxVersions?_eq_some_iff {n : UInt32} : maxVersions? given = some n ↔ SpellsMaxVersions given n := by
  simp only [maxVersions?, Option.bind_eq_some_iff, unsigned?_trim_iff, Text.Decimal.word32?_eq_some_iff]
  constructor
  · rintro ⟨_, h, rfl⟩
    exact h
  · intro h
    exact ⟨_, h, rfl⟩

theorem seconds?_eq_some_iff {n : UInt64} : seconds? given = some n ↔ SpellsNumber given n.toNat := by
  simp only [seconds?, Option.bind_eq_some_iff, unsigned?_trim_iff, Text.Decimal.word64?_eq_some_iff]
  constructor
  · rintro ⟨_, h, rfl⟩
    exact h
  · intro h
    exact ⟨_, h, rfl⟩

theorem map_seconds?_eq_some_iff {seconds : Option UInt64} :
    (seconds? given).map some = some seconds ↔ SpellsSeconds given seconds := by
  simp only [Option.map_eq_some_iff, seconds?_eq_some_iff, SpellsSeconds]
  refine exists_congr fun n => ?_
  rw [and_comm, eq_comm]

/-- No blank is a letter with two cases. -/
theorem toLower_of_isBlank {c : Char} (h : isBlank c = true) : c.toLower = c := by
  unfold Char.toLower
  split
  · rename_i hupper
    simp only [ge_iff_le, UInt32.le_iff_toNat_le] at hupper
    have hlow : 65 ≤ c.toNat := hupper.1
    have hhigh : c.toNat ≤ 90 := hupper.2
    simp only [isBlank, Bool.or_eq_true, Bool.and_eq_true, decide_eq_true_eq] at h
    omega
  · rfl

theorem not_isBlank_of_boolWord {word : String} {b : Bool} (h : word.map Char.toLower ∈ boolWords b) :
    ∀ c ∈ word.toList, isBlank c = false := by
  intro c hc
  have hwords : ((boolWords b).all fun w => w.toList.all fun d => !isBlank d) = true := by
    cases b with
    | true => rfl
    | false => rfl
  simp only [List.all_eq_true, Bool.not_eq_true'] at hwords
  have hlower : isBlank c.toLower = false := by
    refine hwords _ h _ ?_
    rw [String.toList_map]
    exact List.mem_map_of_mem hc
  cases hblank : isBlank c with
  | false => rfl
  | true => rwa [toLower_of_isBlank hblank, hblank] at hlower

theorem casRequired?_eq_some_iff {b : Bool} : casRequired? given = some b ↔ SpellsBool given b := by
  have hreader : casRequired? given = some b ↔ (trim given).map Char.toLower ∈ boolWords b := by
    have hdisjoint : ∀ w ∈ boolWords true, w ∉ boolWords false := by decide
    simp only [casRequired?, List.contains_iff_mem]
    split
    · rename_i hyes
      cases b with
      | true => exact iff_of_true rfl hyes
      | false => exact iff_of_false (by simp) (hdisjoint _ hyes)
    · rename_i hyes
      split
      · rename_i hno
        cases b with
        | true => exact iff_of_false (by simp) hyes
        | false => exact iff_of_true rfl hno
      · rename_i hno
        cases b with
        | true => exact iff_of_false (by simp) hyes
        | false => exact iff_of_false (by simp) hno
  rw [hreader]
  constructor
  · intro h
    exact ⟨trim given, Text.toList_eq_trim given, h⟩
  · rintro ⟨word, hword, h⟩
    rwa [(Text.trim_eq_iff (not_isBlank_of_boolWord h)).mpr hword]

/-! ## Layers -/

/-- What one source settles; a field that it leaves out is settled below it. -/
structure Layer where
  maxVersions : Option UInt32 := none
  casRequired : Option Bool := none
  deleteVersionAfter : Option (Option UInt64) := none

/-- The policy with the fields that a layer settles in place of its own. -/
def Layer.over (l : Layer) (p : Policy) : Policy where
  maxVersions := l.maxVersions.getD p.maxVersions
  casRequired := l.casRequired.getD p.casRequired
  deleteVersionAfter := l.deleteVersionAfter.getD p.deleteVersionAfter

/-! ## The file -/

/-- What the entries of a document say of a field, if they make sense there. -/
def given? {α : Type} (d : Yaml.Document) (entries : List (String × Yaml.Node)) (name : String)
    (value? : Yaml.Scalar → Option α) : Option (Option α) :=
  match entries.filter (·.1 = name) with
  | [] => some none
  | [(_, value)] => ((d.anchors.scalar? value).bind value?).map some
  | _ => none

theorem field?_eq_given? {α : Type} (d : Yaml.Document) (entries : List (String × Yaml.Node)) (name : String)
    (default : α) (value? : Yaml.Scalar → Option α) :
    d.field? entries name default value? = (given? d entries name value?).map (·.getD default) := by
  unfold Yaml.Document.field? given?
  generalize entries.filter (·.1 = name) = found
  match found with
  | [] => rfl
  | [(_, value)] =>
    dsimp only
    rw [Option.map_map]
    exact Option.map_id_apply.symm
  | _ :: _ :: _ => rfl

/-- The layer that a configuration file is, if it parses. -/
def Layer.ofYaml? (text : String) : Option Layer := do
  let document ← Yaml.Document.ofText? text
  let entries ← document.entries?
  let maxVersions ← given? document entries "max_versions" fun s => s.nat?.bind Text.Decimal.word32?
  let casRequired ← given? document entries "cas_required" Yaml.Scalar.bool?
  let deleteVersionAfter ← given? document entries "delete_version_after"
    (Yaml.Scalar.option? fun s => s.nat?.bind Text.Decimal.word64?)
  return { maxVersions, casRequired, deleteVersionAfter }

theorem ofYaml?_eq_layer (text : String) : ofYaml? text = (Layer.ofYaml? text).map (·.over {}) := by
  simp only [ofYaml?, Layer.ofYaml?, field?_eq_given?, Option.bind_eq_bind, Option.pure_def, Option.map_bind,
    Option.bind_map, Function.comp_def, Option.map_some]
  rfl

/-- The configuration file, if one is named, with what reading it gave. -/
abbrev Supplied := Option (String × Except OsError Bytes)

/-- The layer that the file is; a file that is not named settles nothing. -/
inductive FileSettles : Supplied → Layer → Prop
  | unnamed : FileSettles none {}
  | read {file text : String} {l : Layer} (h : Layer.ofYaml? text = some l) :
      FileSettles (some (file, .ok (Bytes.utf8 text))) l

/-- How a file that is named can fail. -/
inductive FileRefused : Supplied → SourceError → Prop
  | notFound (file : String) : FileRefused (some (file, .error .notFound)) (.fileNotFound file)
  | unreadable (file : String) {e : OsError} (h : e ≠ .notFound) : FileRefused (some (file, .error e)) (.unreadable e)
  | noText (file : String) {content : Bytes} (h : ∀ text, content ≠ Bytes.utf8 text) :
      FileRefused (some (file, .ok content)) (.unreadable .notUtf8)
  | notParsed (file : String) {text : String} (h : Layer.ofYaml? text = none) :
      FileRefused (some (file, .ok (Bytes.utf8 text))) (.notParsed file)

/-- The policy under the environment's. -/
def below : Supplied → Except SourceError Policy
  | none => .ok {}
  | some (file, content) => ofContent file content

theorem below_of_settles {s : Supplied} {l : Layer} (h : FileSettles s l) : below s = .ok (l.over {}) := by
  cases h with
  | unnamed => rfl
  | read h => simp only [below, ofContent, Bytes.text?_utf8, ofYaml?_eq_layer, h, Option.map_some]

theorem below_of_refused {s : Supplied} {e : SourceError} (h : FileRefused s e) : below s = .error e := by
  cases h with
  | notFound file => rfl
  | @unreadable file e h =>
    cases e with
    | notFound => exact absurd rfl h
    | _ => rfl
  | @noText file content h =>
    cases htext : Bytes.text? content with
    | none => simp only [below, ofContent, htext]
    | some text => exact absurd (Bytes.utf8_of_text? htext) (h text)
  | notParsed file h => simp only [below, ofContent, Bytes.text?_utf8, ofYaml?_eq_layer, h, Option.map_none]

theorem file_settles_or_refused (s : Supplied) : (∃ l, FileSettles s l) ∨ ∃ e, FileRefused s e := by
  match s with
  | none => exact .inl ⟨{}, .unnamed⟩
  | some (file, .error e) =>
    by_cases he : e = .notFound
    · subst he
      exact .inr ⟨_, .notFound file⟩
    · exact .inr ⟨_, .unreadable file he⟩
  | some (file, .ok content) =>
    cases htext : Bytes.text? content with
    | none =>
      refine .inr ⟨_, .noText file ?_⟩
      rintro text rfl
      rw [Bytes.text?_utf8] at htext
      cases htext
    | some text =>
      obtain rfl := Bytes.utf8_of_text? htext
      cases hlayer : Layer.ofYaml? text with
      | none => exact .inr ⟨_, .notParsed file hlayer⟩
      | some l => exact .inl ⟨l, .read hlayer⟩

/-! ## The environment -/

/-- What the value of a variable settles of a field. -/
inductive Settles {α : Type} (Spells : String → α → Prop) : Option Bytes → Option α → Prop
  | unset : Settles Spells none none
  | holds {given : String} {a : α} (h : Spells given a) : Settles Spells (some (Bytes.utf8 given)) (some a)

/-- The variable holds a text that makes no sense. -/
def Malformed {α : Type} (Spells : String → α → Prop) (held : Option Bytes) (given : String) : Prop :=
  held = some (Bytes.utf8 given) ∧ ∀ a, ¬ Spells given a

def variableNames : List String := [maxVersionsVariable, casRequiredVariable, deleteVersionAfterVariable]

/-- The layer that the variables are, if each that is set is well formed. -/
structure EnvironmentSettles (env : Environment) (l : Layer) : Prop where
  maxVersions : Settles SpellsMaxVersions (env maxVersionsVariable) l.maxVersions
  casRequired : Settles SpellsBool (env casRequiredVariable) l.casRequired
  deleteVersionAfter : Settles SpellsSeconds (env deleteVersionAfterVariable) l.deleteVersionAfter

/-- The first variable that makes no sense, in the order of the fields. -/
inductive EnvironmentRefused (env : Environment) : SourceError → Prop
  | maxVersions {given : String} (h : Malformed SpellsMaxVersions (env maxVersionsVariable) given) :
      EnvironmentRefused env (.maxVersions given)
  | casRequired {given : String} {o : Option UInt32} (first : Settles SpellsMaxVersions (env maxVersionsVariable) o)
      (h : Malformed SpellsBool (env casRequiredVariable) given) : EnvironmentRefused env (.casRequired given)
  | deleteVersionAfter {given : String} {o : Option UInt32} {o' : Option Bool}
      (first : Settles SpellsMaxVersions (env maxVersionsVariable) o)
      (second : Settles SpellsBool (env casRequiredVariable) o')
      (h : Malformed SpellsSeconds (env deleteVersionAfterVariable) given) :
      EnvironmentRefused env (.deleteVersionAfter given)

/-- The environment without the variables whose bytes are no text. -/
def textsOf (env : Environment) : Environment := fun name => (env name).filter fun value => (Bytes.text? value).isSome

variable {env : Environment}

theorem textsOf_eq (name : String) : textsOf env name = (env.text? name).map Bytes.utf8 := by
  simp only [textsOf, Environment.text?]
  cases env name with
  | none => rfl
  | some value =>
    cases htext : Bytes.text? value with
    | none => simp [htext]
    | some text => simp [htext, ← Bytes.utf8_of_text? htext]

section Variable

variable {α : Type} {Spells : String → α → Prop} {name : String}

theorem settles_or_malformed (env : Environment) (name : String) (Spells : String → α → Prop) :
    (∃ o, Settles Spells (textsOf env name) o) ∨ ∃ given, Malformed Spells (textsOf env name) given := by
  rw [textsOf_eq]
  cases env.text? name with
  | none => exact .inl ⟨none, .unset⟩
  | some given =>
    by_cases h : ∃ a, Spells given a
    · obtain ⟨a, ha⟩ := h
      exact .inl ⟨some a, .holds ha⟩
    · exact .inr ⟨given, rfl, fun a ha => h ⟨a, ha⟩⟩

variable {value? : String → Option α} (hreader : ∀ {given a}, value? given = some a ↔ Spells given a)
  (refusal : String → SourceError) (otherwise : α)

include hreader

theorem fromVariable_of_settles {o : Option α} (h : Settles Spells (textsOf env name) o) :
    fromVariable env name value? refusal otherwise = .ok (o.getD otherwise) := by
  rw [textsOf_eq] at h
  unfold fromVariable
  generalize env.text? name = held at h
  cases held with
  | none =>
    cases h
    rfl
  | some given =>
    generalize hheld : (some given).map Bytes.utf8 = bytes at h
    cases h with
    | unset => cases hheld
    | holds h =>
      rw [Bytes.utf8_injective (Option.some.inj hheld)]
      simp only [hreader.mpr h, Option.getD_some]

theorem fromVariable_of_malformed (h : Malformed Spells (textsOf env name) given) :
    fromVariable env name value? refusal otherwise = .error (refusal given) := by
  obtain ⟨hheld, hno⟩ := h
  rw [textsOf_eq, Option.map_eq_some_iff] at hheld
  obtain ⟨text, htext, hbytes⟩ := hheld
  rw [Bytes.utf8_injective hbytes] at htext
  unfold fromVariable
  rw [htext]
  cases hvalue : value? given with
  | none => simp only [hvalue]
  | some a => exact absurd (hreader.mp hvalue) (hno a)

end Variable

theorem overriddenBy_of_settles {l : Layer} (h : EnvironmentSettles (textsOf env) l) (p : Policy) :
    overriddenBy env p = .ok (l.over p) := by
  unfold overriddenBy
  rw [fromVariable_of_settles maxVersions?_eq_some_iff _ _ h.maxVersions,
    fromVariable_of_settles casRequired?_eq_some_iff _ _ h.casRequired,
    fromVariable_of_settles map_seconds?_eq_some_iff _ _ h.deleteVersionAfter]
  rfl

theorem overriddenBy_of_refused {e : SourceError} (h : EnvironmentRefused (textsOf env) e) (p : Policy) :
    overriddenBy env p = .error e := by
  unfold overriddenBy
  cases h with
  | maxVersions h =>
    rw [fromVariable_of_malformed maxVersions?_eq_some_iff _ _ h]
    rfl
  | casRequired first h =>
    rw [fromVariable_of_settles maxVersions?_eq_some_iff _ _ first,
      fromVariable_of_malformed casRequired?_eq_some_iff _ _ h]
    rfl
  | deleteVersionAfter first second h =>
    rw [fromVariable_of_settles maxVersions?_eq_some_iff _ _ first,
      fromVariable_of_settles casRequired?_eq_some_iff _ _ second,
      fromVariable_of_malformed map_seconds?_eq_some_iff _ _ h]
    rfl

theorem environment_settles_or_refused (env : Environment) :
    (∃ l, EnvironmentSettles (textsOf env) l) ∨ ∃ e, EnvironmentRefused (textsOf env) e := by
  rcases settles_or_malformed env maxVersionsVariable SpellsMaxVersions with ⟨o, first⟩ | ⟨given, h⟩
  · rcases settles_or_malformed env casRequiredVariable SpellsBool with ⟨o', second⟩ | ⟨given, h⟩
    · rcases settles_or_malformed env deleteVersionAfterVariable SpellsSeconds with ⟨o'', third⟩ | ⟨given, h⟩
      · exact .inl ⟨⟨o, o', o''⟩, first, second, third⟩
      · exact .inr ⟨_, .deleteVersionAfter first second h⟩
    · exact .inr ⟨_, .casRequired first h⟩
  · exact .inr ⟨_, .maxVersions h⟩

/-- The variable is set, but to bytes that are no text. -/
def PassedOver (env : Environment) (name : String) : Prop :=
  ∃ value, env name = some value ∧ ∀ text, value ≠ Bytes.utf8 text

theorem textsOf_of_not_passedOver {name : String} (h : ¬ PassedOver env name) : textsOf env name = env name := by
  simp only [textsOf]
  cases hvalue : env name with
  | none => rfl
  | some value =>
    cases htext : Bytes.text? value with
    | some text => simp [htext]
    | none =>
      refine absurd ⟨value, hvalue, ?_⟩ h
      rintro text rfl
      rw [Bytes.text?_utf8] at htext
      cases htext

theorem not_passedOver_of_settles {α : Type} {Spells : String → α → Prop} {name : String} {o : Option α}
    (h : Settles Spells (env name) o) : ¬ PassedOver env name := by
  rintro ⟨value, hvalue, hno⟩
  rw [hvalue] at h
  cases h with
  | holds => exact hno _ rfl

theorem environmentSettles_textsOf_iff {l : Layer} (h : ∀ name ∈ variableNames, ¬ PassedOver env name) :
    EnvironmentSettles (textsOf env) l ↔ EnvironmentSettles env l := by
  have hsame : ∀ name ∈ variableNames, textsOf env name = env name := fun name hname =>
    textsOf_of_not_passedOver (h name hname)
  simp only [variableNames, List.forall_mem_cons, List.not_mem_nil, false_implies, implies_true, and_true] at hsame
  obtain ⟨hfirst, hsecond, hthird⟩ := hsame
  constructor
  · rintro ⟨first, second, third⟩
    exact ⟨hfirst ▸ first, hsecond ▸ second, hthird ▸ third⟩
  · rintro ⟨first, second, third⟩
    exact ⟨hfirst.symm ▸ first, hsecond.symm ▸ second, hthird.symm ▸ third⟩

/-- That every variable that is set is well formed says two things: those that hold a text are, and
    there are no others. -/
theorem environment_settles_iff : (∃ l, EnvironmentSettles env l) ↔
    (∃ l, EnvironmentSettles (textsOf env) l) ∧ ∀ name ∈ variableNames, ¬ PassedOver env name := by
  constructor
  · rintro ⟨l, h⟩
    have hnot : ∀ name ∈ variableNames, ¬ PassedOver env name := by
      simp only [variableNames, List.forall_mem_cons, List.not_mem_nil, false_implies, implies_true, and_true]
      exact ⟨not_passedOver_of_settles h.maxVersions, not_passedOver_of_settles h.casRequired,
        not_passedOver_of_settles h.deleteVersionAfter⟩
    exact ⟨⟨l, (environmentSettles_textsOf_iff hnot).mpr h⟩, hnot⟩
  · rintro ⟨⟨l, h⟩, hnot⟩
    exact ⟨l, (environmentSettles_textsOf_iff hnot).mp h⟩

/-! ## All together -/

/-- The file that is named, as it is read. -/
def supplied {m : Type → Type} [Monad m] (fs : FileSystem m) : Option String → m Supplied
  | none => pure none
  | some file => (fun content => some (file, content)) <$> fs.read (FilePath.ofText file)

/-- The policy that the file and the variables make. -/
def ofSources (env : Environment) (s : Supplied) : Except SourceError Policy := below s >>= overriddenBy env

theorem load_eq {m : Type → Type} [Monad m] [LawfulMonad m] (fs : FileSystem m) (env : Environment)
    (file : Option String) : load fs env file = ofSources env <$> supplied fs file := by
  cases file with
  | none =>
    rw [supplied, map_pure]
    rfl
  | some file =>
    rw [supplied, ← comp_map, map_eq_pure_bind]
    rfl

theorem ofSources_of_settles {s : Supplied} {lower upper : Layer} (hfile : FileSettles s lower)
    (henv : EnvironmentSettles (textsOf env) upper) : ofSources env s = .ok (upper.over (lower.over {})) := by
  rw [ofSources, below_of_settles hfile]
  exact overriddenBy_of_settles henv _

theorem ofSources_of_refused {s : Supplied} {e : SourceError}
    (h : FileRefused s e ∨ (∃ lower, FileSettles s lower) ∧ EnvironmentRefused (textsOf env) e) :
    ofSources env s = .error e := by
  rcases h with hfile | ⟨⟨lower, hfile⟩, henv⟩
  · rw [ofSources, below_of_refused hfile]
    rfl
  · rw [ofSources, below_of_settles hfile]
    exact overriddenBy_of_refused henv _

theorem settles_or_refused (env : Environment) (s : Supplied) :
    (∃ lower upper, FileSettles s lower ∧ EnvironmentSettles (textsOf env) upper) ∨
    ∃ e, FileRefused s e ∨ (∃ lower, FileSettles s lower) ∧ EnvironmentRefused (textsOf env) e := by
  rcases file_settles_or_refused s with ⟨lower, hfile⟩ | ⟨e, hfile⟩
  · rcases environment_settles_or_refused env with ⟨upper, henv⟩ | ⟨e, henv⟩
    · exact .inl ⟨lower, upper, hfile, henv⟩
    · exact .inr ⟨e, .inr ⟨⟨lower, hfile⟩, henv⟩⟩
  · exact .inr ⟨e, .inl hfile⟩

theorem ofSources_eq_ok_iff {s : Supplied} {p : Policy} : ofSources env s = .ok p ↔
    ∃ lower upper, FileSettles s lower ∧ EnvironmentSettles (textsOf env) upper ∧ p = upper.over (lower.over {}) := by
  constructor
  · intro h
    rcases settles_or_refused env s with ⟨lower, upper, hfile, henv⟩ | ⟨e, he⟩
    · rw [ofSources_of_settles hfile henv] at h
      exact ⟨lower, upper, hfile, henv, (Except.ok.inj h).symm⟩
    · rw [ofSources_of_refused he] at h
      cases h
  · rintro ⟨lower, upper, hfile, henv, rfl⟩
    exact ofSources_of_settles hfile henv

theorem ofSources_eq_error_iff {s : Supplied} {e : SourceError} : ofSources env s = .error e ↔
    FileRefused s e ∨ (∃ lower, FileSettles s lower) ∧ EnvironmentRefused (textsOf env) e := by
  constructor
  · intro h
    rcases settles_or_refused env s with ⟨lower, upper, hfile, henv⟩ | ⟨e', he⟩
    · rw [ofSources_of_settles hfile henv] at h
      cases h
    · rw [ofSources_of_refused he] at h
      cases h
      exact he
  · exact ofSources_of_refused

/-- Loading reads the file, if one is named, and answers by what it read and the variables. It
    succeeds exactly if the file settles what it gives and every variable that holds a text is well
    formed, and each field is then the variable's, else the file's, else the default. Else the file
    is refused, or the first variable that is malformed. A variable that is not well formed does
    not stop it only where some variable holds bytes that are no text. -/
theorem load_settles_every_field {m : Type → Type} [Monad m] [LawfulMonad m] (fs : FileSystem m) (env : Environment)
    (file : Option String) :
    load fs env file = ofSources env <$> supplied fs file ∧
    ∀ s : Supplied,
      (∀ p, ofSources env s = .ok p ↔ ∃ lower upper, FileSettles s lower ∧
        EnvironmentSettles (textsOf env) upper ∧ p = upper.over (lower.over {})) ∧
      (∀ e, ofSources env s = .error e ↔
        FileRefused s e ∨ (∃ lower, FileSettles s lower) ∧ EnvironmentRefused (textsOf env) e) ∧
      (∀ p, ofSources env s = .ok p →
        ((¬ ∃ upper, EnvironmentSettles env upper) ↔ ∃ name ∈ variableNames, PassedOver env name)) := by
  refine ⟨load_eq fs env file, fun s => ⟨fun p => ofSources_eq_ok_iff, fun e => ofSources_eq_error_iff, ?_⟩⟩
  intro p h
  obtain ⟨_, upper, -, henv, -⟩ := ofSources_eq_ok_iff.mp h
  rw [environment_settles_iff, and_iff_right ⟨upper, henv⟩]
  simp only [not_forall, not_not, exists_prop]

/-- A truth value in any case and with blanks is taken, while a number that is no text is not even
    refused: the default stays. -/
theorem load_settles_every_field_beside_no_text :
    let env : Environment := fun name =>
      if name = maxVersionsVariable then some [0xff]
      else if name = casRequiredVariable then some (Bytes.utf8 " Yes")
      else none
    load (FileTree.fileSystem []) env none = pure (.ok { casRequired := true }) ∧ PassedOver env maxVersionsVariable := by
  intro env
  have hfirst : textsOf env maxVersionsVariable = none := by decide +kernel
  have hsecond : textsOf env casRequiredVariable = some (Bytes.utf8 " Yes") := by decide +kernel
  have hthird : textsOf env deleteVersionAfterVariable = none := by decide +kernel
  have hload := load_settles_every_field (FileTree.fileSystem []) env none
  have hok : ofSources env none = .ok { casRequired := true } := by
    refine ((hload.2 none).1 _).mpr ⟨{}, { casRequired := some true }, .unnamed, ⟨?_, ?_, ?_⟩, rfl⟩
    · rw [hfirst]
      exact .unset
    · rw [hsecond]
      exact .holds (casRequired?_eq_some_iff.mp (by decide +kernel))
    · rw [hthird]
      exact .unset
  refine ⟨?_, [0xff], rfl, ?_⟩
  · rw [hload.1, supplied, map_pure, hok]
  · intro text h
    have htext : Bytes.text? [0xff] = some text := by rw [h, Bytes.text?_utf8]
    have hno : Bytes.text? [0xff] = none := by decide +kernel
    rw [hno] at htext
    cases htext

end Strongbox.Policy
