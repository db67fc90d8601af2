/-
  Strongbox.Proofs.Vault.Ledger — record, payloads and log of a path agree.

  The versions written since a path was last erased are numbered from 1 up to the current
  version. A payload is that of a listed version, and then it is the data of the write that
  returned this number, or it stands under a number that has not been handed out: a write that
  failed has left it there, and it is overwritten before it can be listed. If no call ever
  failed, every version that is listed and not destroyed has its payload.

  Proved:
  - `Complete.write`, `Complete.revise`: what goes through leaves no listed version without a payload.
  - `Turn.ledger`, `Runs.ledger`: every run keeps the ledger of every path.
-/

import Strongbox.Proofs.Vault.Account

namespace Strongbox

open Time (Instant)
open KeyRing (saltKey)

/-! ## Complete accounts -/

namespace Account

variable {a : Account} {path : String} {now : Instant} {base : KeyRecord}

/-- Every listed version that is not destroyed has a payload. -/
def Complete (a : Account) : Prop :=
  ∀ version entry, a.listed? version = some entry → entry.destroyed = false → a.payload version ≠ none

theorem complete_blank : blank.Complete := by
  intro version entry hentry
  cases hentry

theorem Complete.write (h : a.Complete) (hbase : base = a.record.getD (KeyRecord.new path now)) (data : Bytes) (kept : UInt64) :
    (a.write base now kept data).Complete := by
  intro version entry hentry hd
  rw [listed?_write hbase] at hentry
  rw [payload_write]
  split at hentry
  · cases hentry
  · rename_i hout
    rw [if_neg hout]
    split at hentry
    · rename_i hversion
      rw [if_pos hversion.symm]
      exact Option.some_ne_none _
    · rename_i hversion
      rw [if_neg (Ne.symm hversion)]
      exact h version entry hentry hd

theorem Complete.revise (h : a.Complete) {gone : List UInt64} {after : KeyRecord}
    (hbase : base = a.record.getD (KeyRecord.new path now)) (rev : KeyRecord.Revises gone base after) :
    (a.revise gone after).Complete := by
  intro version entry hentry hd
  have hdestroyed := destroyed_revise hbase rev version
  rw [hentry, Option.map_some, hd] at hdestroyed
  obtain ⟨before, hbefore, hlive⟩ := Option.map_eq_some_iff.mp hdestroyed.symm
  rw [Bool.or_eq_false_iff, decide_eq_false_iff_not] at hlive
  rw [payload_revise, if_neg hlive.2]
  exact h version before hbefore hlive.1

end Account

/-! ## The ledger of a path -/

/-- The versions are numbered from 1 up to this number, the last first. -/
def Numbered : Nat → List (UInt64 × Bytes) → Prop
  | 0, written => written = []
  | n + 1, written => ∃ version data rest, written = (version, data) :: rest ∧ version.toNat = n + 1 ∧ Numbered n rest

/-- Account and log of a path agree; more so if no call ever failed. -/
structure Ledger (calm : Prop) (written : List (UInt64 × Bytes)) (a : Account) : Prop where
  numbered : Numbered a.current.toNat written
  listed : ∀ version entry, a.listed? version = some entry → version.toNat ≤ a.current.toNat
  held : ∀ version data, a.payload version = some data →
    (∃ entry, a.listed? version = some entry ∧ entry.destroyed = false ∧ (version, data) ∈ written) ∨
      a.current.toNat < version.toNat
  complete : calm → ∀ version entry, a.listed? version = some entry → entry.destroyed = false → a.payload version ≠ none

theorem Numbered.length {n : Nat} {written : List (UInt64 × Bytes)} (h : Numbered n written) : written.length = n := by
  induction n generalizing written with
  | zero => rw [h]; rfl
  | succ n ih =>
    obtain ⟨_, _, rest, rfl, _, hrest⟩ := h
    rw [List.length_cons, ih hrest]

theorem Numbered.le {n : Nat} {written : List (UInt64 × Bytes)} (h : Numbered n written) {w : UInt64 × Bytes}
    (hw : w ∈ written) : w.1.toNat ≤ n := by
  induction n generalizing written with
  | zero =>
    rw [h] at hw
    cases hw
  | succ n ih =>
    obtain ⟨version, data, rest, rfl, hversion, hrest⟩ := h
    rcases List.mem_cons.mp hw with rfl | hw
    · exact Nat.le_of_eq hversion
    · exact Nat.le_succ_of_le (ih hrest hw)

/-- A number was returned by one write. -/
theorem Numbered.filter {n : Nat} {written : List (UInt64 × Bytes)} (h : Numbered n written) {version : UInt64} {data : Bytes}
    (hw : (version, data) ∈ written) : written.filter (·.1 = version) = [(version, data)] := by
  induction n generalizing written with
  | zero =>
    rw [h] at hw
    cases hw
  | succ n ih =>
    obtain ⟨last, lastData, rest, rfl, hlast, hrest⟩ := h
    rcases List.mem_cons.mp hw with hhead | htail
    · cases hhead
      have hnone : rest.filter (·.1 = version) = [] := by
        refine List.filter_eq_nil_iff.mpr ?_
        intro w hw' heq
        have hle := hrest.le hw'
        rw [of_decide_eq_true heq, hlast] at hle
        omega
      rw [List.filter_cons_of_pos (by simp), hnone]
    · have hne : last ≠ version := by
        rintro rfl
        have hle := hrest.le htail
        simp only [hlast] at hle
        omega
      rw [List.filter_cons_of_neg (by simpa using hne), ih hrest htail]

namespace Ledger

variable {calm : Prop} {written : List (UInt64 × Bytes)} {a : Account}

theorem blank (calm : Prop) : Ledger calm [] Account.blank where
  numbered := rfl
  listed _ _ h := nomatch h
  held _ _ h := nomatch h
  complete _ _ _ h := nomatch h

theorem mono {calm' : Prop} (h : Ledger calm written a) (hc : calm' → calm) : Ledger calm' written a where
  numbered := h.numbered
  listed := h.listed
  held := h.held
  complete hc' := h.complete (hc hc')

/-- Payloads that are lost when a request is cut short. -/
theorem without (h : Ledger calm written a) {calm' : Prop} (hc : ¬ calm') (gone : List UInt64) :
    Ledger calm' written (a.without gone) where
  numbered := h.numbered
  listed := h.listed
  held version data hp := by
    simp only [Account.without] at hp
    split at hp
    · cases hp
    · exact h.held version data hp
  complete hc' := absurd hc' hc

/-- A payload that is left under the next number when a write is cut short. -/
theorem put (h : Ledger calm written a) {calm' : Prop} (hc : ¬ calm') (hfew : (a.current + 1).toNat = a.current.toNat + 1)
    (data : Bytes) : Ledger calm' written (a.put (a.current + 1) data) where
  numbered := h.numbered
  listed := h.listed
  held version held hp := by
    simp only [Account.put] at hp
    split at hp
    · rename_i hversion
      refine .inr ?_
      rw [hversion, hfew]
      exact Nat.lt_succ_self _
    · exact h.held version held hp
  complete hc' := absurd hc' hc

/-- A write that goes through: its data stands under the next number, which is listed now. -/
theorem write (h : Ledger calm written a) (hfew : (a.current + 1).toNat = a.current.toNat + 1) {path : String}
    {now : Instant} {base : KeyRecord} (hbase : base = a.record.getD (KeyRecord.new path now)) (data : Bytes) (kept : UInt64) :
    Ledger calm ((a.current + 1, data) :: written) (a.write base now kept data) := by
  have hcurrent : (a.write base now kept data).current.toNat = a.current.toNat + 1 := by
    rw [Account.current_write hbase, hfew]
  refine ⟨?_, ?_, ?_, ?_⟩
  · rw [hcurrent]
    exact ⟨_, _, _, rfl, hfew, h.numbered⟩
  · intro version entry he
    rw [Account.listed?_write hbase] at he
    rw [hcurrent]
    split at he
    · cases he
    · split at he
      · rename_i hversion
        have htop : version.toNat = a.current.toNat + 1 := by rw [← hversion, hfew]
        exact Nat.le_of_eq htop
      · exact Nat.le_succ_of_le (h.listed version entry he)
  · intro version held hp
    rw [Account.payload_write] at hp
    rw [hcurrent, Account.listed?_write hbase]
    split at hp
    · cases hp
    · rename_i hout
      rw [if_neg hout]
      split at hp
      · rename_i hversion
        rw [if_pos hversion.symm, ← Option.some.inj hp, hversion]
        exact .inl ⟨{ createdTime := now }, rfl, rfl, List.mem_cons_self⟩
      · rename_i hversion
        rw [if_neg (fun e => hversion e.symm)]
        rcases h.held version held hp with ⟨entry, he, hd, hmem⟩ | hlt
        · exact .inl ⟨entry, he, hd, List.mem_cons_of_mem _ hmem⟩
        · have hne : version.toNat ≠ (a.current + 1).toNat := fun e => hversion (UInt64.toNat_inj.mp e)
          exact .inr (by omega)
  · intro hc
    exact Account.Complete.write (h.complete hc) hbase data kept

theorem erase (h : Ledger calm written a) {record : KeyRecord} (hr : a.record = some record) :
    Ledger calm [] { (a.without record.versions.keys) with record := none } := by
  refine ⟨rfl, fun _ _ he => (nomatch he), ?_, fun _ _ _ he => (nomatch he)⟩
  intro version data hp
  simp only [Account.without, Std.ExtTreeMap.mem_keys] at hp
  split at hp
  · cases hp
  · rename_i hout
    -- what is left is not listed, so it stands above the numbers handed out
    rcases h.held version data hp with ⟨entry, he, _⟩ | hlt
    · rw [Account.listed?, hr, Option.bind_some, Std.ExtTreeMap.getElem?_eq_none hout] at he
      cases he
    · exact .inr (Nat.lt_of_le_of_lt (Nat.zero_le _) hlt)

theorem revise (h : Ledger calm written a) {path : String} {now : Instant} {gone : List UInt64} {base after : KeyRecord}
    (hbase : base = a.record.getD (KeyRecord.new path now)) (rev : KeyRecord.Revises gone base after) :
    Ledger calm written (a.revise gone after) := by
  have hcurrent := Account.current_revise hbase rev
  have hdestroyed := Account.destroyed_revise hbase rev
  -- an entry afterwards is one from before
  have hbefore (version : UInt64) (entry : VersionEntry) (he : (a.revise gone after).listed? version = some entry) :
      ∃ old, a.listed? version = some old ∧ (old.destroyed || decide (version ∈ gone)) = entry.destroyed := by
    have hmap := hdestroyed version
    rw [he, Option.map_some] at hmap
    exact Option.map_eq_some_iff.mp hmap.symm
  refine ⟨?_, ?_, ?_, ?_⟩
  · rw [hcurrent]
    exact h.numbered
  · intro version entry he
    rw [hcurrent]
    obtain ⟨old, hold, _⟩ := hbefore version entry he
    exact h.listed version old hold
  · intro version data hp
    rw [Account.payload_revise] at hp
    rw [hcurrent]
    split at hp
    · cases hp
    · rename_i hout
      rcases h.held version data hp with ⟨entry, he, hd, hmem⟩ | hlt
      · have hmap := hdestroyed version
        rw [he, Option.map_some, hd, decide_eq_false hout] at hmap
        obtain ⟨entry', he', hd'⟩ := Option.map_eq_some_iff.mp hmap
        exact .inl ⟨entry', he', hd', hmem⟩
      · exact .inr hlt
  · intro hc
    exact Account.Complete.revise (h.complete hc) hbase rev

end Ledger

/-! ## Every run keeps the ledger -/

/-- A turn keeps the ledger as long as the next number is not zero. -/
theorem Turn.ledger {path : String} {e : Event} {log : List Event} {a a' : Account} {calm : Prop} (h : Turn path e a a')
    (hl : Ledger calm (writtenSince path log) a) (hfew : (a.current + 1).toNat = a.current.toNat + 1) :
    Ledger (e.IsCalm ∧ calm) (writtenSince path (e :: log)) a' := by
  have hcalm : e.IsCalm ∧ calm → calm := And.right
  cases h with
  | idle hw he =>
    rw [writtenSince, hw, he]
    exact hl.mono hcalm
  | absent hr hw he =>
    have hnone : writtenSince path log = [] := by
      have hnumbered := hl.numbered
      rwa [Account.current, hr] at hnumbered
    rw [hnone] at hl
    rw [writtenSince, if_pos he]
    exact hl.mono hcalm
  | thinned gone hstorm hw he =>
    rw [writtenSince, hw, he]
    exact hl.without (fun hc => hstorm hc.1) gone
  | strayed data gone hstorm _ hw he =>
    rw [writtenSince, hw, he]
    have hput : Ledger (e.IsCalm ∧ calm) _ _ := hl.put (fun hc => hstorm hc.1) hfew data
    exact hput.without (fun hc => hstorm hc.1) gone
  | written kept hbase hw he =>
    rw [writtenSince, hw, he]
    exact (hl.write hfew hbase _ kept).mono hcalm
  | erased hr hw he =>
    rw [writtenSince, if_pos he]
    exact (hl.erase hr).mono hcalm
  | revised hbase rev hw he =>
    rw [writtenSince, hw, he]
    exact (hl.revise hbase rev).mono hcalm

theorem writesIn_le_cons (e : Event) (log : List Event) : writesIn log ≤ writesIn (e :: log) :=
  (List.sublist_cons_self e log).countP_le

theorem writesIn_le_append (later log : List Event) : writesIn log ≤ writesIn (later ++ log) :=
  (List.sublist_append_right later log).countP_le

theorem writtenSince_length_le (path : String) (log : List Event) : (writtenSince path log).length ≤ writesIn log := by
  induction log with
  | nil => exact Nat.le_refl _
  | cons e log ih =>
    rw [writtenSince]
    split
    · exact Nat.zero_le _
    · cases hw : e.written? path with
      | none => exact Nat.le_trans ih (writesIn_le_cons e log)
      | some w =>
        rw [writesIn, List.countP_cons_of_pos (Event.isWrite_of_written? hw), Option.toList_some, List.length_append]
        exact Nat.add_comm _ _ ▸ Nat.succ_le_succ ih

/-- With fewer writes than numbers, the number after the last one is not zero. -/
theorem Numbered.next {current : UInt64} {path : String} {log : List Event}
    (h : Numbered current.toNat (writtenSince path log)) (hfew : writesIn log < 2 ^ 64 - 1) :
    (current + 1).toNat = current.toNat + 1 := by
  have hlength := h.length ▸ writtenSince_length_le path log
  rw [UInt64.toNat_add, UInt64.toNat_one]
  exact Nat.mod_eq_of_lt (by omega)

/-- Record, payloads and log of every path agree after every run with fewer writes than numbers,
    unless its identifier is that of another path. -/
theorem Runs.ledger {master : MasterKey} {log : List Event} {s : Session} {path : String} {ring : KeyRing}
    (h : Runs master log s) (hfew : writesIn log < 2 ^ 64 - 1) (hvalid : KeyPath.fault? path = none)
    (hd : Distinct ring (path :: pathsIn log)) (hring : s.memory[saltKey]? ≠ none → ring = s.ring) :
    ∃ a : Account, a.Of (s.memory.contents ring) ring path ∧ Ledger (∀ e ∈ log, e.IsCalm) (writtenSince path log) a := by
  let I (log : List Event) (a : Account) : Prop :=
    writesIn log < 2 ^ 64 - 1 → Ledger (∀ e ∈ log, e.IsCalm) (writtenSince path log) a
  have hstep : ∀ e log a a', Turn path e a a' → I log a → I (e :: log) a' := by
    intro e log a a' hturn ih hfew
    have hbefore := Nat.lt_of_le_of_lt (writesIn_le_cons e log) hfew
    have hl := ih hbefore
    exact (hturn.ledger hl (hl.numbered.next hbefore)).mono fun hc => ⟨hc e List.mem_cons_self, fun e' he' => hc e' (List.mem_cons_of_mem e he')⟩
  have hpaths : ∀ p ∈ pathsIn log, p ∈ path :: pathsIn log := fun p hp => List.mem_cons_of_mem path hp
  obtain ⟨a, ha, hl⟩ := h.accounted (I := I) (fun _ => Ledger.blank _) hstep hvalid List.mem_cons_self hpaths hd hring
  exact ⟨a, ha, hl hfew⟩

end Strongbox
