/-
  Strongbox.Proofs.Vault.Account — what an event does to one path.

  The account of a path is its record and its payloads. If no two paths in use have the same
  identifier, an event leaves the account of every path alone but the one it concerns, and what
  it can do to that one is a `Turn`: nothing; take payloads away, or put one under the next
  number, and fail; write; erase; revise.

  Proved:
  - `turn_of_effect`: what comes of a request is a turn for every path in use.
  - `Runs.accounted`: what every turn keeps, every run keeps.
-/

import Strongbox.Proofs.Vault.History

namespace Strongbox

open Time (Instant)
open KeyRing (saltKey)
open Memory (Begun)
open Vault (Effect Move recordAddress payloadAddress)
open KeyRecord (Revises)

/-- The number of the last version of a path; zero if it has no record. -/
def currentOf (found : Option KeyRecord) : UInt64 := found.elim 0 KeyRecord.currentVersion

@[simp] theorem currentOf_getD (found : Option KeyRecord) (path : String) (now : Instant) :
    (found.getD (KeyRecord.new path now)).currentVersion = currentOf found := by
  cases found <;> rfl

structure Account where
  record : Option KeyRecord
  payload : UInt64 → Option Bytes

namespace Account

/-- What opens for a path is this account. -/
structure Of (c : Contents) (ring : KeyRing) (path : String) (a : Account) : Prop where
  record : c.record ring path = .ok a.record
  payload : ∀ version, c.payload ring path version = .ok (a.payload version)

/-- The account of a path without record and payloads. -/
def blank : Account := ⟨none, fun _ => none⟩

/-- The number of the last version; zero if there is no record. -/
def current (a : Account) : UInt64 := a.record.elim 0 KeyRecord.currentVersion

/-- What the record lists of a version. -/
def listed? (a : Account) (version : UInt64) : Option VersionEntry := a.record.bind fun record => record.versions[version]?

/-- The account without the payloads of these versions. -/
def without (gone : List UInt64) (a : Account) : Account :=
  ⟨a.record, fun version => if version ∈ gone then none else a.payload version⟩

/-- The account with data under a number. -/
def put (number : UInt64) (data : Bytes) (a : Account) : Account :=
  ⟨a.record, fun version => if version = number then some data else a.payload version⟩

/-- The account after a write that starts from this record. -/
def write (base : KeyRecord) (now : Instant) (kept : UInt64) (data : Bytes) (a : Account) : Account :=
  { (a.put (a.current + 1) data).without ((base.appended now).fallen kept) with
    record := some (base.written now kept) }

/-- The account after a change that destroys these versions. -/
def revise (gone : List UInt64) (after : KeyRecord) (a : Account) : Account := { a.without gone with record := some after }

end Account

/-- What an event does to the account of a path. -/
inductive Turn (path : String) (e : Event) : Account → Account → Prop
  | idle {a : Account} (hw : e.written? path = none) (he : e.erases path = false) : Turn path e a a
  /-- The path had no record to erase. -/
  | absent {a : Account} (hr : a.record = none) (hw : e.written? path = none) (he : e.erases path = true) : Turn path e a a
  /-- The event was cut short when some payloads had been erased. -/
  | thinned {a : Account} (gone : List UInt64) (hcalm : ¬ e.IsCalm) (hw : e.written? path = none)
    (he : e.erases path = false) : Turn path e a (a.without gone)
  /-- A write was cut short when its payload had been put and some others erased. -/
  | strayed {a : Account} (data : Bytes) (gone : List UInt64) (hcalm : ¬ e.IsCalm) (hf : e.failedWrite path = true)
    (hw : e.written? path = none) (he : e.erases path = false) :
    Turn path e a ((a.put (a.current + 1) data).without gone)
  | written {a : Account} {now : Instant} {data : Bytes} {base : KeyRecord} (kept : UInt64)
    (hbase : base = a.record.getD (KeyRecord.new path now)) (hw : e.written? path = some (a.current + 1, data))
    (he : e.erases path = false) :
    Turn path e a (a.write base now kept data)
  | erased {a : Account} {record : KeyRecord} (hr : a.record = some record) (hw : e.written? path = none)
    (he : e.erases path = true) : Turn path e a { (a.without record.versions.keys) with record := none }
  | revised {a : Account} {now : Instant} {gone : List UInt64} {base after : KeyRecord}
    (hbase : base = a.record.getD (KeyRecord.new path now)) (rev : Revises gone base after)
    (hw : e.written? path = none) (he : e.erases path = false) :
    Turn path e a (a.revise gone after)

namespace Account

variable {c : Contents} {ring : KeyRing} {path other : String} {a : Account}

/-! ## Accounts after edits -/

theorem Of.congr {c' : Contents} (h : a.Of c ring path) (hr : c' (recordAddress ring path) = c (recordAddress ring path))
    (hp : ∀ version, c' (payloadAddress ring path version) = c (payloadAddress ring path version)) : a.Of c' ring path where
  record := (Contents.record_congr hr).trans h.record
  payload version := (Contents.lookup_congr (hp version)).trans (h.payload version)

/-- Erasing payloads, seen from any path. -/
theorem Of.erased (h : a.Of c ring path) (hd : ring.identifier path = ring.identifier other → path = other)
    (gone : List UInt64) : (if path = other then a.without gone else a).Of
      (c.edits (gone.map (Vault.eraseEdit ring other))) ring path := by
  have hrecord : (c.edits (gone.map (Vault.eraseEdit ring other))).record ring path = .ok a.record :=
    (Contents.record_congr (Vault.edits_of_payloads (Vault.erased_isPayload ring other gone) c (by simp))).trans h.record
  by_cases hpath : path = other
  · subst hpath
    rw [if_pos rfl]
    refine ⟨hrecord, ?_⟩
    intro version
    rw [Vault.payload_erased, h.payload]
    by_cases hv : version ∈ gone <;> simp [without, hv]
  · rw [if_neg hpath]
    refine ⟨hrecord, ?_⟩
    intro version
    rw [Vault.payload_erased, if_neg (fun hid => hpath (hd hid.1)), h.payload]

/-- A write's edits of payloads, seen from any path. -/
theorem Of.put (h : a.Of c ring path) (hd : ring.identifier path = ring.identifier other → path = other)
    (number : UInt64) (data : Bytes) (gone : List UInt64) :
    (if path = other then (a.put number data).without gone else a).Of
      (c.edits (Vault.payloadEdit ring other number (some data) :: gone.map (Vault.eraseEdit ring other))) ring path := by
  have hput : (if path = other then a.put number data else a).Of
      (c.edit (Vault.payloadEdit ring other number (some data))) ring path := by
    have hrecord : (c.edit (Vault.payloadEdit ring other number (some data))).record ring path = .ok a.record :=
      (Contents.record_edit_of_ne (Vault.ne_of_initial? (by simp))).trans h.record
    by_cases hpath : path = other
    · subst hpath
      rw [if_pos rfl]
      refine ⟨hrecord, ?_⟩
      intro version
      rw [Vault.payload_put, h.payload]
      by_cases hv : version = number <;> simp [Account.put, hv]
    · rw [if_neg hpath]
      refine ⟨hrecord, ?_⟩
      intro version
      rw [Vault.payload_put, if_neg (fun hid => hpath (hd hid.1)), h.payload]
  have herased := hput.erased hd gone
  by_cases hpath : path = other
  · rw [if_pos hpath] at herased ⊢
    rwa [if_pos hpath] at herased
  · rw [if_neg hpath] at herased ⊢
    rwa [if_neg hpath] at herased

/-- The edit of a record, seen from any path. -/
theorem Of.recordEdit (h : a.Of c ring path) (record : KeyRecord) :
    (if path = record.key then { a with record := some record } else a).Of (c.edit (Vault.recordEdit ring record)) ring path := by
  have hpayload (version : UInt64) : (c.edit (Vault.recordEdit ring record)).payload ring path version =
      .ok (a.payload version) :=
    (Contents.payload_edit_of_ne (Vault.ne_of_initial? (by simp))).trans (h.payload version)
  by_cases hpath : path = record.key
  · subst hpath
    rw [if_pos rfl]
    exact ⟨Contents.record_recordEdit c record, hpayload⟩
  · rw [if_neg hpath]
    refine ⟨?_, hpayload⟩
    rw [Contents.record_edit_of_ne fun e => hpath (Vault.recordAddress_inj.mp e), h.record]

/-- The deletion of a record, seen from any path. -/
theorem Of.dropEdit (h : a.Of c ring path) (other : String) :
    (if path = other then { a with record := none } else a).Of (c.edit (Vault.dropEdit ring other)) ring path := by
  have hpayload (version : UInt64) : (c.edit (Vault.dropEdit ring other)).payload ring path version =
      .ok (a.payload version) :=
    (Contents.payload_edit_of_ne (Vault.ne_of_initial? (by simp))).trans (h.payload version)
  by_cases hpath : path = other
  · subst hpath
    rw [if_pos rfl]
    exact ⟨Contents.record_dropEdit c path, hpayload⟩
  · rw [if_neg hpath]
    refine ⟨?_, hpayload⟩
    rw [Contents.record_edit_of_ne fun e => hpath (Vault.recordAddress_inj.mp e), h.record]

/-- The record that a change starts from. -/
theorem Of.base {v : Vault} {now : Instant} {m : Memory} {before : KeyRecord} (h : a.Of (m.contents v.ring) v.ring path)
    (hr : v.recordOrNewIn now m path = .ok before) : before = a.record.getD (KeyRecord.new path now) := by
  rw [Vault.recordOrNewIn, h.record] at hr
  exact (Except.ok.inj hr).symm

theorem current_eq (a : Account) (path : String) (now : Instant) :
    (a.record.getD (KeyRecord.new path now)).currentVersion = a.current := currentOf_getD a.record path now

/-- The record that a change starts from lists what the account does. -/
theorem listed?_eq (a : Account) (path : String) (now : Instant) (version : UInt64) :
    (a.record.getD (KeyRecord.new path now)).versions[version]? = a.listed? version := by
  rw [listed?]
  cases a.record with
  | some record => rfl
  | none => exact Std.ExtTreeMap.getElem?_empty

/-! ## Accounts after a change -/

section Changes

variable {now : Instant} {base after : KeyRecord} {gone : List UInt64}

theorem current_write (hbase : base = a.record.getD (KeyRecord.new path now)) (kept : UInt64) (data : Bytes) :
    (a.write base now kept data).current = a.current + 1 := by
  show (base.written now kept).currentVersion = a.current + 1
  rw [KeyRecord.written_currentVersion, hbase, a.current_eq]

theorem listed?_write (hbase : base = a.record.getD (KeyRecord.new path now)) (kept : UInt64) (data : Bytes)
    (version : UInt64) : (a.write base now kept data).listed? version =
      if version ∈ (base.appended now).fallen kept then none
      else if a.current + 1 = version then some { createdTime := now } else a.listed? version := by
  have hcurrent : base.currentVersion = a.current := by rw [hbase, a.current_eq]
  show (base.written now kept).versions[version]? = _
  rw [base.getElem?_written, hcurrent, ← a.listed?_eq path now, ← hbase]

theorem payload_write (kept : UInt64) (data : Bytes) (version : UInt64) : (a.write base now kept data).payload version =
    if version ∈ (base.appended now).fallen kept then none
    else if version = a.current + 1 then some data else a.payload version := rfl

theorem current_revise (hbase : base = a.record.getD (KeyRecord.new path now)) (rev : Revises gone base after) :
    (a.revise gone after).current = a.current := by
  show after.currentVersion = a.current
  rw [rev.currentVersion, hbase, a.current_eq]

/-- What was listed is listed, and destroyed if it is one of these. -/
theorem destroyed_revise (hbase : base = a.record.getD (KeyRecord.new path now)) (rev : Revises gone base after)
    (version : UInt64) : ((a.revise gone after).listed? version).map VersionEntry.destroyed =
      (a.listed? version).map fun entry => entry.destroyed || decide (version ∈ gone) := by
  show (after.versions[version]?).map _ = _
  rw [rev.destroyed, hbase, a.listed?_eq]

theorem payload_revise (version : UInt64) :
    (a.revise gone after).payload version = if version ∈ gone then none else a.payload version := rfl

end Changes

end Account

/-! ## Turns -/

section Turns

variable {f : Faults} {v : Vault} {now : Instant} {m m' : Memory} {r : Request} {path : String} {a : Account}

theorem turn_of_error {e : Error} (h : a.Of (m.contents v.ring) v.ring path) :
    ∃ a' : Account, a'.Of (m.contents v.ring) v.ring path ∧ Turn path (.asked f now r (r.settle (.error e))) a a' :=
  ⟨a, h, .idle (Event.written?_of_error path f now r e) (Event.erases_of_error path f now r e)⟩

/-- A request that answers without a change. -/
theorem turn_of_answered {answer : r.Reply} (plan : v.plan now m r = .ok (.answer answer))
    (h : a.Of (m.contents v.ring) v.ring path) :
    ∃ a' : Account, a'.Of (m.contents v.ring) v.ring path ∧ Turn path (.asked f now r (r.settle (.ok answer))) a a' := by
  obtain ⟨hw, hnone⟩ := Event.of_answered plan path f
  refine ⟨a, h, ?_⟩
  cases he : (Event.asked f now r (r.settle (.ok answer))).erases path with
  | true => exact .absent (Except.ok.inj (h.record.symm.trans (hnone he))) hw he
  | false => exact .idle hw he

/-- A request that was cut short. -/
theorem turn_of_interrupted {edits done rest : List Edit} {commit : Edit} {answer : r.Reply} {e : Error}
    (hcalm : f ≠ Faults.none) (plan : v.plan now m r = .ok (.change edits commit answer)) (hedits : edits = done ++ rest)
    (made : Edits v.ring done m m')
    (hd : ∀ q, r.path? = some q → v.ring.identifier path = v.ring.identifier q → path = q)
    (h : a.Of (m.contents v.ring) v.ring path) :
    ∃ a' : Account, a'.Of (m'.contents v.ring) v.ring path ∧ Turn path (.asked f now r (r.settle (.error e))) a a' := by
  have hw := Event.written?_of_error path f now r e
  have he := Event.erases_of_error path f now r e
  rw [made.contents]
  -- some payloads of a path have been erased
  have herased (q : String) (gone : List UInt64) (hq : r.path? = some q) : ∃ a' : Account,
      a'.Of ((m.contents v.ring).edits (gone.map (Vault.eraseEdit v.ring q))) v.ring path ∧
        Turn path (.asked f now r (r.settle (.error e))) a a' := by
    refine ⟨_, h.erased (hd q hq) gone, ?_⟩
    split
    · exact .thinned gone hcalm hw he
    · exact .idle hw he
  cases Vault.move_of_plan plan with
  | policy =>
    obtain ⟨rfl, _⟩ := List.append_eq_nil_iff.mp hedits.symm
    exact ⟨a, h, .idle hw he⟩
  | @erase q record =>
    obtain ⟨gone, _, _, rfl⟩ := Vault.prefix_of_erased hedits
    exact herased q gone rfl
  | @write q data cas policy before _ hr _ _ =>
    rcases Vault.prefix_of_writeEdits hedits with rfl | ⟨gone, _, _, rfl⟩
    · exact ⟨a, h, .idle hw he⟩
    · refine ⟨_, h.put (hd q rfl) _ data gone, ?_⟩
      split
      · rename_i hpath
        subst hpath
        have hcurrent : before.currentVersion = a.current := by rw [h.base hr, a.current_eq]
        rw [KeyRecord.appended_currentVersion, hcurrent]
        exact .strayed data gone hcalm (decide_eq_true rfl) hw he
      · exact .idle hw he
  | @revise _ q gone before after _ hpath _ _ _ =>
    obtain ⟨gone', _, _, rfl⟩ := Vault.prefix_of_erased hedits
    exact herased q gone' (Request.path?_of_revised? hpath)

/-- A request that went through with its change. -/
theorem turn_of_changed {edits : List Edit} {commit : Edit} {answer : r.Reply} {nonce : Block 12}
    (plan : v.plan now m r = .ok (.change edits commit answer)) (made : Edits v.ring edits m m')
    (hd : ∀ q, r.path? = some q → v.ring.identifier path = v.ring.identifier q → path = q)
    (h : a.Of (m.contents v.ring) v.ring path) :
    ∃ a' : Account, a'.Of ((commit.after v.ring nonce m').contents v.ring) v.ring path ∧
      Turn path (.asked f now r (r.settle (.ok answer))) a a' := by
  rw [Memory.contents_after, made.contents]
  cases Vault.move_of_plan plan with
  | policy =>
    refine ⟨a, h.congr ?_ fun version => ?_, .idle rfl rfl⟩
    · exact Contents.edit_of_ne (Vault.ne_of_initial? (by simp))
    · exact Contents.edit_of_ne (Vault.ne_of_initial? (by simp))
  | @erase q record hr =>
    refine ⟨_, (h.erased (hd q rfl) record.versions.keys).dropEdit q, ?_⟩
    by_cases hpath : path = q
    · subst hpath
      rw [if_pos rfl, if_pos rfl]
      exact .erased (Except.ok.inj (h.record.symm.trans hr)) rfl (decide_eq_true rfl)
    · rw [if_neg hpath, if_neg hpath]
      exact .idle rfl (decide_eq_false fun e => hpath e.symm)
  | @write q data cas policy before _ hr hkey _ =>
    refine ⟨_, (h.put (hd q rfl) _ data _).recordEdit _, ?_⟩
    rw [KeyRecord.written_key, hkey]
    by_cases hpath : path = q
    · subst hpath
      have hbase := h.base hr
      have hcurrent : before.currentVersion = a.current := by rw [hbase, a.current_eq]
      rw [if_pos rfl, if_pos rfl, KeyRecord.appended_currentVersion, hcurrent]
      refine .written (Vault.keptOf policy before) hbase ?_ rfl
      exact if_pos rfl
    · rw [if_neg hpath, if_neg hpath]
      exact .idle (if_neg fun e => hpath e.symm) rfl
  | @revise _ q gone before after _ hrevised hr hkey rev =>
    have hevent : (Event.asked f now r (r.settle (.ok answer))).written? path = none ∧ Event.erases path _ = false :=
      Event.of_revised? hrevised _
    refine ⟨_, (h.erased (hd q (Request.path?_of_revised? hrevised)) gone).recordEdit after, ?_⟩
    rw [rev.key, hkey]
    by_cases hpath : path = q
    · subst hpath
      rw [if_pos rfl, if_pos rfl]
      exact .revised (h.base hr) rev hevent.1 hevent.2
    · rw [if_neg hpath, if_neg hpath]
      exact .idle hevent.1 hevent.2

/-- What comes of a request is a turn for every path whose identifier is not that of another. -/
theorem turn_of_effect {reply : Except Error r.Reply} (heffect : Effect f.weather v now m r reply m')
    (hd : ∀ q, r.path? = some q → v.ring.identifier path = v.ring.identifier q → path = q)
    (h : a.Of (m.contents v.ring) v.ring path) :
    ∃ a' : Account, a'.Of (m'.contents v.ring) v.ring path ∧ Turn path (.asked f now r (r.settle reply)) a a' := by
  cases heffect with
  | unread => exact turn_of_error h
  | broken => exact turn_of_error h
  | answered plan => exact turn_of_answered plan h
  | interrupted plan split made fails =>
    obtain ⟨rest', hedits⟩ := Vault.prefix_of_split split
    have hcalm : f ≠ Faults.none := by
      rintro rfl
      exact Faults.weather_none fails
    exact turn_of_interrupted hcalm plan hedits made hd h
  | changed plan made _ => exact turn_of_changed plan made hd h

end Turns

/-! ## From turns to runs -/

theorem Account.Of.begun {master : MasterKey} {m m' : Memory} {ring : KeyRing} {path : String} {a : Account}
    (h : a.Of (m.contents ring) ring path) (hb : Begun master m m') : a.Of (m'.contents ring) ring path := by
  refine h.congr (Memory.contents_congr (hb.frame (by simp) (by simp))) ?_
  intro version
  exact Memory.contents_congr (hb.frame (by simp) (by simp))

/-- What holds of a blank account and is kept by every turn holds after every run. The key ring
    is that of the storage once there is a salt. -/
theorem Runs.accounted {master : MasterKey} {log : List Event} {s : Session} {I : List Event → Account → Prop}
    {path : String} {ring : KeyRing} {paths : List String} (h : Runs master log s) (h0 : I [] Account.blank)
    (hstep : ∀ e log a a', Turn path e a a' → I log a → I (e :: log) a') (hvalid : KeyPath.fault? path = none)
    (hpath : path ∈ paths) (hpaths : ∀ p ∈ pathsIn log, p ∈ paths) (hd : Distinct ring paths)
    (hring : s.memory[saltKey]? ≠ none → ring = s.ring) : ∃ a : Account, a.Of (s.memory.contents ring) ring path ∧ I log a := by
  revert hpaths
  refine h.preserve (I := fun log m => (∀ p ∈ pathsIn log, p ∈ paths) →
    ∃ a : Account, a.Of (m.contents ring) ring path ∧ I log a) hring ?_ ?_ ?_ ?_
  · intro _
    exact ⟨.blank, ⟨rfl, fun _ => rfl⟩, h0⟩
  · intro e log m hidle ih hpaths
    obtain ⟨a, ha, hI⟩ := ih fun p hp => hpaths p (mem_pathsIn_cons e hp)
    obtain ⟨hw, he⟩ := hidle.says_nothing hvalid
    exact ⟨a, ha, hstep e log a a (.idle hw he) hI⟩
  · intro log m m' begun ih hpaths
    obtain ⟨a, ha, hI⟩ := ih hpaths
    exact ⟨a, ha.begun begun, hI⟩
  · intro log f now r defaults m reply m' hi effect ih hpaths
    obtain ⟨a, ha, hI⟩ := ih fun p hp => hpaths p (mem_pathsIn_cons _ hp)
    have hfresh : ∀ q, r.path? = some q → ring.identifier path = ring.identifier q → path = q := by
      intro q hq
      exact hd path hpath q (hpaths q (mem_pathsIn_of_asked hi hq))
    obtain ⟨a', ha', hturn⟩ := turn_of_effect effect hfresh ha
    exact ⟨a', ha', hstep _ log a a' hturn hI⟩

end Strongbox
