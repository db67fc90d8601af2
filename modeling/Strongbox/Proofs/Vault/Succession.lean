/-
  Strongbox.Proofs.Vault.Succession — what an event makes of the record of one path.

  Records have addresses of their own, so whatever identifiers paths have, an event leaves the
  records of all paths alone but the one it concerns. What it can do to that one is a
  `Succession`: leave it, erase it, append a version, or amend it. Versions are written under the
  numbers that the record hands out one after the other.

  Proved:
  - `Vault.leaves_of_changed`: what a change leaves of the record of each path.
  - `Session.succession_ask`: what comes of a request is a succession for every path.
  - `Runs.recorded`: what every succession keeps, every run keeps.
  - `Runs.lineage`: record and log of every path agree after every run.
  - `Runs.capped`: no run lists a version above the current one.
-/

import Strongbox.Proofs.Vault.Ledger
import Strongbox.Proofs.Vault.Reading

namespace Strongbox

open Time (Instant)
open KeyRing (saltKey checkKey)
open Memory (Begun)
open Vault (Effect)

/-- What an event makes of the record of a path, if the path has one. -/
inductive Succession (path : String) (e : Event) : Option KeyRecord → Option KeyRecord → Prop
  | idle {found : Option KeyRecord} (hw : e.written? path = none) (he : e.erases path = true → found = none) :
    Succession path e found found
  | erased {record : KeyRecord} (hw : e.written? path = none) (he : e.erases path = true) : Succession path e (some record) none
  | written {found : Option KeyRecord} {now : Instant} {data : Bytes} {base : KeyRecord} (kept : UInt64)
    (hbase : base = found.getD (KeyRecord.new path now)) (hmore : ¬ base.Exhausted)
    (hw : e.written? path = some (base.currentVersion + 1, data)) (he : e.erases path = false) : Succession path e found (some (base.written now kept))
  | amended {found : Option KeyRecord} {now : Instant} {base after : KeyRecord}
    (hbase : base = found.getD (KeyRecord.new path now)) (ham : base.Amended after) (hw : e.written? path = none)
    (he : e.erases path = false) : Succession path e found (some after)

/-! ## From requests to successions -/

section Requests

variable {f : Faults} {v : Vault} {now : Instant} {m m' : Memory} {r : Request} {path : String} {found : Option KeyRecord}

/-- The record that a change starts from is the one found, or a new one. -/
theorem Vault.eq_of_recordOrNewIn {before : KeyRecord} (hr : v.recordOrNewIn now m path = .ok before)
    (hf : (m.contents v.ring).record v.ring path = .ok found) : before = found.getD (KeyRecord.new path now) := by
  rw [recordOrNewIn, hf] at hr
  exact (Except.ok.inj hr).symm

/-- A record that is stored, seen from any path. -/
theorem Contents.record_of_recordEdit {c : Contents} {ring : KeyRing} (h : c.record ring path = .ok found) (record : KeyRecord) :
    (c.edit (Vault.recordEdit ring record)).record ring path = .ok (if path = record.key then some record else found) := by
  by_cases hpath : path = record.key
  · rw [if_pos hpath, hpath]
    exact Contents.record_recordEdit c record
  · rw [if_neg hpath, ← h]
    exact Contents.record_edit_of_ne fun e => hpath (Vault.recordAddress_inj.mp e)

/-- What a change leaves of the record of a path. -/
inductive Vault.Leaves (v : Vault) (now : Instant) (m : Memory) (path : String) (found : Option KeyRecord) :
    (r : Request) → r.Reply → Option KeyRecord → Prop
  | other {r : Request} {a : r.Reply} (hr : r.path? ≠ some path) : Leaves v now m path found r a found
  | erased {record : KeyRecord} (hf : found = some record) : Leaves v now m path found (.deleteMetadata path) () none
  | written {data : Bytes} {cas : Option UInt64} {base : KeyRecord} {kept : UInt64} {view : VersionView}
    (hbase : base = found.getD (KeyRecord.new path now)) (hmore : ¬ base.Exhausted) :
    Leaves v now m path found (.writeData path data cas) (.accepted ⟨base.currentVersion + 1, view⟩) (some (base.written now kept))
  | rewritten {r : Request} {a : r.Reply} {gone : List UInt64} {base after : KeyRecord} (hpath : r.revised? = some path)
    (hbase : base = found.getD (KeyRecord.new path now)) (h : Vault.Rewrites v now m base r gone after) :
    Leaves v now m path found r a (some after)

/-- A request that went through with its change. -/
theorem Vault.leaves_of_changed {edits : List Edit} {commit : Edit} {answer : r.Reply} {nonce : Block 12}
    (plan : v.plan now m r = .ok (.change edits commit answer)) (made : Edits v.ring edits m m')
    (h : (m.contents v.ring).record v.ring path = .ok found) :
    ∃ found', ((commit.after v.ring nonce m').contents v.ring).record v.ring path = .ok found' ∧
      Leaves v now m path found r answer found' := by
  have hmove := Vault.move_of_plan plan
  have hedits : ((m.contents v.ring).edits edits).record v.ring path = .ok found :=
    (Contents.record_congr (Vault.edits_of_payloads hmove.edit_isPayload _ (by simp))).trans h
  rw [Memory.contents_after, made.contents]
  by_cases hpath : r.path? = some path
  · cases hrevised : r.revised? with
    | some q =>
      obtain ⟨before, gone, after, hr, hrewrites, rfl, rfl⟩ := Vault.rewriting_of_plan hrevised plan
      obtain rfl : q = path := Option.some.inj ((Request.path?_of_revised? hrevised).symm.trans hpath)
      refine ⟨_, Contents.record_of_recordEdit hedits after, ?_⟩
      rw [hrewrites.revises.key, Vault.key_of_recordOrNewIn hr, if_pos rfl]
      exact .rewritten hrevised (Vault.eq_of_recordOrNewIn hr h) hrewrites
    | none =>
      cases hmove with
      | policy => cases hpath
      | erase hr =>
        cases hpath
        exact ⟨none, Contents.record_dropEdit _ path, .erased (Except.ok.inj (h.symm.trans hr))⟩
      | write _ hr hkey _ hmore =>
        cases hpath
        refine ⟨_, Contents.record_of_recordEdit hedits _, ?_⟩
        rw [KeyRecord.written_key, hkey, if_pos rfl]
        exact .written (Vault.eq_of_recordOrNewIn hr h) hmore
      | revise hrevises =>
        rw [hrevised] at hrevises
        cases hrevises
  · refine ⟨found, (Contents.record_edit_of_ne fun haddress => ?_).trans hedits, .other hpath⟩
    rcases hmove.commit_key with ⟨hkey, _⟩ | ⟨q, hq, hkey⟩
    · exact Vault.ne_of_initial? (by simp) (haddress.trans hkey)
    · exact hpath (Vault.recordAddress_inj.mp (haddress.trans hkey) ▸ hq)

theorem Vault.Leaves.succession {answer : r.Reply} {found' : Option KeyRecord} (h : Leaves v now m path found r answer found') :
    Succession path (.asked f now r (r.settle (.ok answer))) found found' := by
  cases h with
  | other hr =>
    refine .idle ?_ fun he => absurd (Event.path?_of_erases he) hr
    exact Option.eq_none_iff_forall_ne_some.mpr fun w hw => hr (Event.path?_of_written? hw)
  | erased hf =>
    rw [hf]
    exact .erased rfl (decide_eq_true rfl)
  | @written _ _ _ kept _ hbase hmore => exact .written kept hbase hmore (if_pos rfl) rfl
  | rewritten hpath hbase hrewrites =>
    obtain ⟨hw, he⟩ := Event.of_revised? hpath _
    exact .amended hbase hrewrites.amended hw he

/-- What comes of a request is a succession for every path. -/
theorem succession_of_effect {reply : Except Error r.Reply} (heffect : Effect f.weather v now m r reply m')
    (h : (m.contents v.ring).record v.ring path = .ok found) :
    ∃ found', (m'.contents v.ring).record v.ring path = .ok found' ∧
      Succession path (.asked f now r (r.settle reply)) found found' := by
  cases reply with
  | error e =>
    refine ⟨found, (heffect.views_of_error.2 path).trans h, ?_⟩
    refine .idle (Event.written?_of_error path f now r e) fun hyes => ?_
    rw [Event.erases_of_error] at hyes
    cases hyes
  | ok answer =>
    cases heffect with
    | answered plan =>
      obtain ⟨hw, hnone⟩ := Event.of_answered plan path f
      exact ⟨found, h, .idle hw fun he => Except.ok.inj (h.symm.trans (hnone he))⟩
    | changed plan made _ =>
      obtain ⟨found', hfound', hleaves⟩ := Vault.leaves_of_changed plan made h
      exact ⟨found', hfound', hleaves.succession⟩

end Requests

namespace Session

variable {master : MasterKey} {s : Session} {path : String}

/-- What a set-up leaves of records and policy: all there was, which is nothing unless it was done before. -/
theorem views_of_begun {m : Memory} (h : s.Kept master) (hb : Begun s.store.master s.memory m) :
    (∀ path, (m.contents (m.ring s.store.master)).record (m.ring s.store.master) path = s.contents.record s.ring path) ∧
      ∀ defaults, (m.contents (m.ring s.store.master)).policy defaults = s.contents.policy defaults := by
  by_cases hset : s.memory[checkKey]? = none
  · constructor
    · intro path
      rw [record_of_begun path h.memory (h.master_eq ▸ hb) hset]
      exact (record_of_begun path h.memory (.refl h.memory) hset s.ring).symm
    · intro defaults
      have hs : Vault.policyKey ≠ saltKey := Vault.ne_of_initial? (by simp)
      have hc : Vault.policyKey ≠ checkKey := Vault.ne_of_initial? (by simp)
      have hnone := h.memory.bare hset _ hs
      refine Contents.policy_congr ?_
      rw [contents, Memory.contents_eq_none.mpr hnone]
      exact Memory.contents_eq_none.mpr ((hb.others _ hs hc).trans hnone)
  · obtain rfl := hb.done hset
    exact ⟨fun _ => rfl, fun _ => rfl⟩

/-- What asking leaves of the record of a path: it stays if nothing was asked of the storage, and
    else it is what the request made of it. -/
theorem record_ask {Q : Event → Option KeyRecord → Prop} {found : Option KeyRecord} {f : Faults} {now : Instant} {r : Request}
    (h : s.Kept master) (hr : s.contents.record s.ring path = .ok found)
    (hidle : ∀ reply, (Event.asked f now r reply).Idle → Q (.asked f now r reply) found)
    (heffect : ∀ {v m m' reply}, Effect f.weather v now m r reply m' →
      (m.contents v.ring).policy v.defaults = s.contents.policy s.store.defaults →
      (m.contents v.ring).record v.ring path = .ok found →
      ∃ found', (m'.contents v.ring).record v.ring path = .ok found' ∧ Q (.asked f now r (r.settle reply)) found') :
    ∃ found', (s.ask f now r).2.contents.record (s.ask f now r).2.ring path = .ok found' ∧
      Q (.asked f now r (s.ask f now r).1) found' := by
  have ha := asked_ask h f now r
  generalize (s.ask f now r).1 = reply, (s.ask f now r).2 = s' at ha ⊢
  cases ha with
  | immediate hi => exact ⟨found, hr, hidle _ (.immediate hi)⟩
  | shut _ begun _ _ => exact ⟨found, ((views_of_begun h begun).1 path).trans hr, hidle _ .shut⟩
  | @performed m reply world _ begun _ effect =>
    have hring : world.store.ring s.store.master = m.ring s.store.master := Memory.ring_congr (effect.frame_setUp (.inl rfl))
    obtain ⟨hrecord, hpolicy⟩ := views_of_begun h begun
    obtain ⟨found', hfound', hQ⟩ := heffect effect (hpolicy _) ((hrecord path).trans hr)
    rw [contents, ring, memory, hring]
    exact ⟨found', hfound', hQ⟩

/-- What comes of asking a session is a succession for every path that can name a key. -/
theorem succession_ask {found : Option KeyRecord} (h : s.Kept master) (hvalid : KeyPath.fault? path = none)
    (hr : s.contents.record s.ring path = .ok found) (f : Faults) (now : Instant) (r : Request) :
    ∃ found', (s.ask f now r).2.contents.record (s.ask f now r).2.ring path = .ok found' ∧
      Succession path (.asked f now r (s.ask f now r).1) found found' := by
  refine record_ask (Q := fun e => Succession path e found) h hr (fun reply hi => ?_) fun effect _ hfound =>
    succession_of_effect effect hfound
  obtain ⟨hw, he⟩ := hi.says_nothing hvalid
  exact .idle hw fun hyes => absurd (he.symm.trans hyes) Bool.false_ne_true

end Session

/-! ## From successions to runs -/

/-- What holds of a path without record and is kept by every succession holds after every run. -/
theorem Runs.recorded {master : MasterKey} {log : List Event} {s : Session} {I : List Event → Option KeyRecord → Prop}
    {path : String} (h : Runs master log s) (hvalid : KeyPath.fault? path = none) (h0 : I [] none)
    (hstep : ∀ e log found found', Succession path e found found' → I log found → I (e :: log) found') :
    ∃ found, s.contents.record s.ring path = .ok found ∧ I log found := by
  induction h with
  | start defaults entropy => exact ⟨none, Contents.record_eq_none.mpr Std.ExtTreeMap.getElem?_empty, h0⟩
  | restart defaults _ ih =>
    obtain ⟨found, hr, hI⟩ := ih
    exact ⟨found, hr, hstep _ _ _ _ (.idle rfl nofun) hI⟩
  | ask f now r before ih =>
    obtain ⟨found, hr, hI⟩ := ih
    obtain ⟨found', hr', hsuccession⟩ := Session.succession_ask before.kept hvalid hr f now r
    exact ⟨found', hr', hstep _ _ _ _ hsuccession hI⟩

/-- Record and log of a path agree: the versions written since it was last erased are numbered up
    to the current one, and the record is in order. -/
structure Lineage (written : List (UInt64 × Bytes)) (found : Option KeyRecord) : Prop where
  numbered : Numbered (currentOf found).toNat written
  sound : ∀ record, found = some record → record.Sound

theorem Lineage.blank : Lineage [] none where
  numbered := rfl
  sound _ h := nomatch h

theorem Lineage.base {written : List (UInt64 × Bytes)} {found : Option KeyRecord} (h : Lineage written found) (path : String)
    (now : Instant) : (found.getD (KeyRecord.new path now)).Sound := by
  cases found with
  | none => exact .new path now
  | some record => exact h.sound record rfl

/-- A succession keeps the lineage as long as the next number is not zero. -/
theorem Succession.lineage {path : String} {e : Event} {log : List Event} {found found' : Option KeyRecord}
    (h : Succession path e found found') (hl : Lineage (writtenSince path log) found)
    (hnext : (currentOf found + 1).toNat = (currentOf found).toNat + 1) : Lineage (writtenSince path (e :: log)) found' := by
  rw [writtenSince]
  cases h with
  | idle hw he =>
    split
    · rename_i hyes
      obtain rfl := he hyes
      exact .blank
    · rw [hw]
      exact hl
  | erased hw he =>
    rw [if_pos he]
    exact .blank
  | @written _ now _ base kept hbase _ hw he =>
    have hcurrent : base.currentVersion = currentOf found := by rw [hbase, currentOf_getD]
    rw [hw, he, hcurrent]
    constructor
    · show Numbered (base.written now kept).currentVersion.toNat _
      rw [KeyRecord.written_currentVersion, hcurrent, hnext]
      exact ⟨_, _, _, rfl, hnext, hl.numbered⟩
    · rintro record ⟨⟩
      rw [← hcurrent] at hnext
      exact (hbase ▸ hl.base path now : base.Sound).written hnext now kept
  | @amended _ now base after hbase ham hw he =>
    have hbefore : base.Sound := hbase ▸ hl.base path now
    rw [hw, he]
    constructor
    · have hcurrent := (KeyRecord.Ages.amended ham).current
      rw [hbase, currentOf_getD, Nat.add_zero] at hcurrent
      show Numbered after.currentVersion.toNat _
      rw [hcurrent]
      exact hl.numbered
    · rintro record ⟨⟩
      exact hbefore.amended ham

/-- Record and log of every path agree after every run with fewer writes than numbers. -/
theorem Runs.lineage {master : MasterKey} {log : List Event} {s : Session} {path : String} (h : Runs master log s)
    (hfew : writesIn log < 2 ^ 64 - 1) (hvalid : KeyPath.fault? path = none) :
    ∃ found, s.contents.record s.ring path = .ok found ∧ Lineage (writtenSince path log) found := by
  let I (log : List Event) (found : Option KeyRecord) : Prop := writesIn log < 2 ^ 64 - 1 → Lineage (writtenSince path log) found
  have hstep : ∀ e log found found', Succession path e found found' → I log found → I (e :: log) found' := by
    intro e log found found' hsuccession ih hfew
    have hbefore := Nat.lt_of_le_of_lt (writesIn_le_cons e log) hfew
    exact hsuccession.lineage (ih hbefore) ((ih hbefore).numbered.next hbefore)
  obtain ⟨found, hr, hl⟩ := h.recorded (I := I) hvalid (fun _ => .blank) hstep
  exact ⟨found, hr, hl hfew⟩

/-- However many writes there were, a record lists no version above its current one. -/
theorem Runs.capped {master : MasterKey} {log : List Event} {s : Session} {path : String} {record : KeyRecord}
    (h : Runs master log s) (hvalid : KeyPath.fault? path = none) (hr : s.contents.record s.ring path = .ok (some record)) :
    record.Capped := by
  let I (_ : List Event) (found : Option KeyRecord) : Prop := ∀ record, found = some record → record.Capped
  have hbase {found : Option KeyRecord} (hI : ∀ record, found = some record → record.Capped) (now : Instant) :
      (found.getD (KeyRecord.new path now)).Capped := by
    cases found with
    | none => exact .new path now
    | some record => exact hI record rfl
  have hstep : ∀ e log found found', Succession path e found found' → I log found → I (e :: log) found' := by
    intro e log found found' hsuccession hI record heq
    cases hsuccession with
    | idle => exact hI record heq
    | erased => cases heq
    | written kept hfound hmore =>
      cases heq
      subst hfound
      exact (hbase hI _).written hmore _ kept
    | amended hfound ham =>
      cases heq
      subst hfound
      exact (hbase hI _).amended ham
  have hempty : I [] none := fun record heq => (Option.some_ne_none record heq.symm).elim
  obtain ⟨found, hr', hI⟩ := h.recorded (I := I) hvalid hempty hstep
  exact hI record (Except.ok.inj (hr'.symm.trans hr))

end Strongbox
