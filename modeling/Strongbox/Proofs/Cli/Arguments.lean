/-
  Strongbox.Proofs.Cli.Arguments — values of switches are those that the switches accept.

  However switches are spelled and whatever stands between them, a value is only taken for a switch of
  the level that it is given at, and only if this accepts it. So the name of the data directory is never
  empty: an empty one is refused as the value of the switch, and the variable does not count if it is
  empty.

  Proved:
  - `Level.scan_judged`: what is taken at a level was accepted there.
  - `dataDirectory_ne_empty`: the program never runs on a directory without a name.
-/

import Strongbox.Cli.Run
import Strongbox.Proofs.Text.Pieces
import Strongbox.Proofs.Vault.Views

namespace Strongbox.Cli

/-- A value that a switch of this kind takes. -/
def Switch.accepts (s : Switch) (value : String) : Bool :=
  match s.kind with
  | .value accepts _ => accepts value
  | .values accepts => accepts value
  | _ => true

/-- All values were taken for switches of the level that accept them, and so will be the one that is pending. -/
structure Scan.Judged (switches : List Switch) (p : Scan) : Prop where
  taken : ∀ name value, (name, value) ∈ p.given.values → ∃ s ∈ switches, s.name = name ∧ s.accepts value = true
  known : ∀ s value?, p.pending = some (s, value?) → s ∈ switches

namespace Scan

variable {switches : List Switch} {p p' : Scan} {s : Switch} {value : String}

theorem judged_empty : Judged switches {} := ⟨nofun, nofun⟩

theorem Judged.take (h : p.Judged switches) (hs : s ∈ switches) (htaken : take s value p = .ok p') : p'.Judged switches := by
  have hadded (haccepts : s.accepts value = true) :
      Judged switches { p with given := { p.given with values := p.given.values ++ [(s.name, value)] } } := by
    refine ⟨fun name other hmem => ?_, h.known⟩
    rcases List.mem_append.mp hmem with hmem | hmem
    · exact h.taken name other hmem
    · cases List.mem_singleton.mp hmem
      exact ⟨s, hs, rfl, haccepts⟩
  unfold Scan.take at htaken
  unfold Switch.accepts at hadded
  split at htaken
  all_goals
    rename_i hkind
    rw [hkind] at hadded
  · split at htaken <;> cases htaken
    exact hadded rfl
  · cases htaken
    exact hadded rfl
  · cases htaken
  · cases htaken
  · split at htaken
    · cases htaken
    · rename_i haccepts
      cases htaken
      simp only [Bool.or_eq_true, Bool.not_eq_true', not_or, Bool.not_eq_false] at haccepts
      exact hadded haccepts.2
  · split at htaken
    · rename_i haccepts
      cases htaken
      exact hadded haccepts
    · cases htaken

theorem Judged.settle (h : p.Judged switches) (hsettled : p.settle = .ok p') : p'.Judged switches := by
  unfold Scan.settle at hsettled
  split at hsettled
  · cases hsettled
    exact h
  · cases hsettled
  · rename_i s value hpending
    have hjudged : Judged switches { p with pending := none } := ⟨h.taken, fun other value? heq => by cases heq⟩
    exact hjudged.take (h.known s _ hpending) hsettled

theorem Judged.give (h : p.Judged switches) (hs : s ∈ switches) {attached : Option String} (hgiven : p.give s attached = .ok p') :
    p'.Judged switches := by
  unfold Scan.give at hgiven
  split at hgiven
  · obtain ⟨settled, hsettled, htaken⟩ := Except.of_bind_eq_ok hgiven
    exact (h.settle hsettled).take hs htaken
  · cases hsettled : p.settle with
    | error stop =>
      rw [hsettled] at hgiven
      cases hgiven
    | ok settled =>
      rw [hsettled] at hgiven
      cases hgiven
      refine ⟨(h.settle hsettled).taken, fun other value? heq => ?_⟩
      cases heq
      exact hs
  · cases hgiven
  · obtain ⟨settled, hsettled, htaken⟩ := Except.of_bind_eq_ok hgiven
    exact (h.settle hsettled).take hs htaken

theorem Judged.letters (h : p.Judged switches) {text : List Char} (hread : letters switches text p = .ok p') : p'.Judged switches := by
  induction text generalizing p with
  | nil =>
    cases hread
    exact h
  | cons letter rest ih =>
    unfold Scan.letters at hread
    split at hread
    · cases hread
    · rename_i s hfind
      have hs := List.mem_of_find?_eq_some hfind
      split at hread
      · exact h.give hs hread
      · obtain ⟨given, hgiven, hrest⟩ := Except.of_bind_eq_ok hread
        exact ih (h.give hs hgiven) hrest

theorem Judged.long (h : p.Judged switches) {text : List Char} (hread : long switches text p = .ok p') : p'.Judged switches := by
  unfold Scan.long at hread
  dsimp only at hread
  split at hread
  · cases hread
  · rename_i s hfind
    exact h.give (List.mem_of_find?_eq_some hfind) hread

variable {level : Level} {arg : String}

theorem Judged.operand (h : p.Judged switches) (hread : p.operand level arg = .ok p') : p'.Judged switches := by
  obtain ⟨settled, hsettled, hread⟩ := Except.of_bind_eq_ok hread
  split at hread
  · cases hread
    exact ⟨(h.settle hsettled).taken, (h.settle hsettled).known⟩
  · cases hread

theorem Judged.word (h : p.Judged switches) (hread : p.word level arg = .ok p') : p'.Judged switches := by
  unfold Scan.word at hread
  split at hread
  · rename_i s hpending
    cases hread
    refine ⟨h.taken, fun other value? heq => ?_⟩
    cases heq
    exact h.known s none hpending
  · exact h.operand hread

theorem Judged.argument (h : p.Judged level.switches) (hread : p.argument level arg = .ok p') : p'.Judged level.switches := by
  unfold Scan.argument at hread
  split at hread
  · exact h.operand hread
  · split at hread
    · cases hread
      exact ⟨h.taken, h.known⟩
    · exact h.long hread
    · dsimp only at hread
      split at hread
      · exact h.word hread
      · exact h.letters hread
    · exact h.word hread

end Scan

/-- What is taken at a level was accepted there. -/
theorem Level.scan_judged {level : Level} {args : List String} {p p' : Scan} {rest : Option (String × List String)}
    (h : p.Judged level.switches) (hscan : level.scan args p = .ok (p', rest)) : p'.Judged level.switches := by
  induction args generalizing p with
  | nil =>
    cases hscan
    exact h
  | cons arg args ih =>
    rw [Level.scan] at hscan
    split at hscan
    · cases hscan
      exact h
    · obtain ⟨next, hnext, hscan⟩ := Except.of_bind_eq_ok hscan
      exact ih (h.argument hnext) hscan

/-! ## The data directory -/

/-- No switch of the level takes an empty name for the data directory. -/
def Level.NamesDirectory (level : Level) : Prop :=
  ∀ s ∈ level.switches, s.name = dataDirectorySwitch.name → s.accepts "" = false

theorem namesDirectory_ofNames (names : List String) : (Level.ofNames names).NamesDirectory := by
  show ∀ s ∈ commonSwitches ++ [versionSwitch], s.name = dataDirectorySwitch.name → s.accepts "" = false
  decide +kernel

theorem namesDirectory_of_command {group name : String} {commands : List (String × Command)} {command : Command}
    (hgroup : groups.lookup group = some commands) (hcommand : commands.lookup name = some command) : command.level.NamesDirectory := by
  have hall : ∀ g ∈ groups, ∀ c ∈ g.2, ∀ s ∈ c.2.level.switches, s.name = dataDirectorySwitch.name → s.accepts "" = false := by
    decide +kernel
  obtain ⟨before, after, hgroup, -⟩ := List.lookup_eq_some_iff.mp hgroup
  obtain ⟨before', after', hcommand, -⟩ := List.lookup_eq_some_iff.mp hcommand
  exact hall (group, commands) (by rw [hgroup]; simp) (name, command) (by rw [hcommand]; simp)

/-- No empty name is given for the data directory at a level. -/
theorem Scan.Judged.named {level : Level} {p : Scan} (h : p.Judged level.switches) (hnames : level.NamesDirectory) :
    p.given.value? dataDirectorySwitch.name ≠ some "" := by
  intro hvalue
  obtain ⟨before, after, hvalues, -⟩ := List.lookup_eq_some_iff.mp hvalue
  obtain ⟨s, hs, hname, haccepts⟩ := h.taken dataDirectorySwitch.name "" (by rw [hvalues]; simp)
  rw [hnames s hs hname] at haccepts
  cases haccepts

/-- Asking for help comes to no invocation. -/
theorem helpOn_ne_ok {α : Type} {names args : List String} {a : α} : helpOn names args ≠ .ok a := by
  intro h
  unfold helpOn at h
  split at h
  · cases h
  · split at h <;> cases h
  · cases h

theorem helpOnGroup_ne_ok {α : Type} {args : List String} {a : α} : helpOnGroup args ≠ .ok a := by
  intro h
  unfold helpOnGroup at h
  split at h
  · split at h
    · exact helpOn_ne_ok h
    · cases h
  · exact helpOn_ne_ok h

/-- The settings of an invocation are those of levels at which no empty name is given for the data directory. -/
theorem levels_of_invocation {env : Environment} {args : List String} {i : Invocation} (h : invocation env args = .ok i) :
    ∃ levels, levels ≠ [] ∧ settingsOf env levels = .ok i.settings ∧
      ∀ g ∈ levels, g.value? dataDirectorySwitch.name ≠ some "" := by
  obtain ⟨⟨outer, group⟩, houter, h⟩ := Except.of_bind_eq_ok h
  dsimp only at h
  split at h
  · cases h
  · rename_i group args
    split at h
    · exact absurd h helpOnGroup_ne_ok
    · rename_i commands hgroup
      obtain ⟨⟨middle, command⟩, hmiddle, h⟩ := Except.of_bind_eq_ok h
      dsimp only at h
      split at h
      · cases h
      · rename_i name args
        split at h
        · exact absurd h helpOn_ne_ok
        · rename_i command hcommand
          obtain ⟨⟨inner, rest⟩, hinner, h⟩ := Except.of_bind_eq_ok h
          obtain ⟨inner', hinner', h⟩ := Except.of_bind_eq_ok h
          obtain ⟨middle', hmiddle', h⟩ := Except.of_bind_eq_ok h
          obtain ⟨outer', houter', h⟩ := Except.of_bind_eq_ok h
          obtain ⟨settings, hsettings, h⟩ := Except.of_bind_eq_ok h
          split at h
          · cases h
            refine ⟨_, List.cons_ne_nil _ _, hsettings, fun g hg => ?_⟩
            simp only [List.mem_cons, List.not_mem_nil, or_false] at hg
            rcases hg with rfl | rfl | rfl
            · exact ((Level.scan_judged Scan.judged_empty hinner).settle hinner').named (namesDirectory_of_command hgroup hcommand)
            · exact ((Level.scan_judged Scan.judged_empty hmiddle).settle hmiddle').named (namesDirectory_ofNames _)
            · exact ((Level.scan_judged Scan.judged_empty houter).settle houter').named (namesDirectory_ofNames _)
          · cases h

theorem ne_empty_of_text? {bytes : Bytes} {text : String} (h : Bytes.text? bytes = some text) (hne : bytes ≠ []) : text ≠ "" := by
  rintro rfl
  exact hne (Bytes.utf8_of_text? h)

/-- Bytes show as no text only if there are none. -/
theorem lossy_ne_empty {bytes : Bytes} (h : bytes ≠ []) : Text.lossy bytes ≠ "" := by
  unfold Text.lossy
  split
  · rename_i text htext
    exact ne_empty_of_text? htext h
  · cases bytes with
    | nil => exact absurd rfl h
    | cons lead rest =>
      have hlength : 0 < Text.characterLength (lead :: rest) := by
        unfold Text.characterLength
        dsimp only
        split
        · split <;> omega
        · exact Nat.one_pos
      have hfirst : (lead :: rest).take (Text.characterLength (lead :: rest)) ≠ [] := by
        rw [ne_eq, List.take_eq_nil_iff]
        rintro (hzero | hnil)
        · omega
        · cases hnil
      show String.join (_ :: _) ≠ ""
      rw [String.join_cons, ne_eq, String.append_eq_empty_iff]
      rintro ⟨hempty, -⟩
      cases htext : Bytes.text? ((lead :: rest).take (Text.characterLength (lead :: rest))) with
      | none =>
        rw [htext] at hempty
        exact absurd hempty (by decide)
      | some text =>
        rw [htext] at hempty
        exact ne_empty_of_text? htext hfirst hempty

theorem joined_ne_empty (directory : String) {name : String} (h : name ≠ "") : joined directory name ≠ "" := by
  unfold joined
  split
  all_goals
    rw [ne_eq, String.append_eq_empty_iff]
    exact fun hempty => h hempty.2

theorem usualDirectory_ne_empty {env : Environment} {name : String} (h : usualDirectory? env = some name) : name ≠ "" := by
  unfold usualDirectory? at h
  dsimp only at h
  split at h
  · cases h
    exact joined_ne_empty _ (by decide)
  · obtain ⟨home, -, rfl⟩ := Option.map_eq_some_iff.mp h
    exact joined_ne_empty _ (by decide)

/-- A common switch that is never given an empty value has none from the variable either. -/
theorem commonValue_ne_empty {env : Environment} {levels : List Given} {s : Switch} {variableName : String} {value? : Option String}
    (hne : levels ≠ []) (hgiven : ∀ g ∈ levels, g.value? s.name ≠ some "") (h : commonValue env levels s variableName = .ok value?) :
    value? ≠ some "" := by
  have hhead : (levels.filterMap (·.value? s.name)).head? ≠ some "" := by
    intro hempty
    obtain ⟨g, hg, hvalue⟩ := List.mem_filterMap.mp (List.mem_of_mem_head? hempty)
    exact hgiven g hg hvalue
  unfold commonValue at h
  generalize levels.filterMap (·.value? s.name) = values at h hhead
  dsimp only at h
  split at h
  · cases h
    exact hhead
  · split at h
    · cases h
    · rename_i value _ hvariable
      cases h
      cases values with
      | cons first others => exact hhead
      | nil =>
        intro hempty
        refine lossy_ne_empty ?_ (Option.some.inj hempty)
        rintro rfl
        exact hvariable ⟨rfl, List.length_pos_iff.mpr hne⟩

/-- The program never runs on a directory without a name. -/
theorem dataDirectory_ne_empty {env : Environment} {args : List String} {i : Invocation} {name : String}
    (h : invocation env args = .ok i) (hname : dataDirectory env i.settings = .ok name) : name ≠ "" := by
  obtain ⟨levels, hne, hsettings, hnames⟩ := levels_of_invocation h
  obtain ⟨directory, hdirectory, hsettings⟩ := Except.of_bind_eq_ok hsettings
  obtain ⟨policyFile, -, hsettings⟩ := Except.of_bind_eq_ok hsettings
  have hsame : directory = i.settings.dataDirectory := congrArg Settings.dataDirectory (Except.ok.inj hsettings)
  have hgiven := commonValue_ne_empty hne hnames hdirectory
  rw [hsame] at hgiven
  unfold dataDirectory at hname
  split at hname
  · rename_i named hnamed
    cases hname
    rcases Option.or_eq_some_iff.mp hnamed with hswitch | ⟨-, husual⟩
    · rintro rfl
      exact hgiven hswitch
    · exact usualDirectory_ne_empty husual
  · cases hname

end Strongbox.Cli
