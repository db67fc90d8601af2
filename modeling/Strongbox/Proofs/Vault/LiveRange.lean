/-
  Strongbox.Proofs.Vault.LiveRange — where the oldest version of a record stands during a run.

  No version that is live ever lies below the oldest one. It is the least live version itself, or
  the current one if none is live, as soon as something was destroyed, by request or because it
  expired, and it stays so until the next write. A write sets it to the first version, or to the
  first of the versions that are kept, and goes no further. If that one is a tombstone the oldest
  version is not live, and nothing but destroying another version or writing moves it.

  Proved:
  - `Vault.Rewrites.range`: what a request makes of the range of the record it finds.
  - `Session.Leads.range`: what becomes of it between two writes.
  - `Session.oldest_version_bounds`: where the oldest version stands, at every point of a run.
-/

import Strongbox.Proofs.Record.LiveRange
import Strongbox.Proofs.Vault.Lifecycle
import Strongbox.Proofs.Vault.Retention

namespace Strongbox

open Time (Instant)
open Vault (Effect keptOf)

/-- The same version is current, and either the whole range is as it was or its lower end is tight. -/
def KeyRecord.Narrows (r r' : KeyRecord) : Prop :=
  r'.currentVersion = r.currentVersion ∧ (r.SameRange r' ∨ r'.Tight)

theorem KeyRecord.Narrows.refl (r : KeyRecord) : r.Narrows r := ⟨rfl, .inl (.refl r)⟩

theorem KeyRecord.Narrows.trans {r r' r'' : KeyRecord} (h : r.Narrows r') (h' : r'.Narrows r'') : r.Narrows r'' := by
  refine ⟨h'.1.trans h.1, ?_⟩
  rcases h'.2 with hsame' | htight
  · rcases h.2 with hsame | htight
    · exact .inl (hsame.trans hsame')
    · exact .inr (hsame'.tight_iff.mpr htight)
  · exact .inr htight

/-- What an event leaves of a record that it neither writes to nor erases. -/
def NarrowsBy (path : String) (e : Event) (record : KeyRecord) (found' : Option KeyRecord) : Prop :=
  e.written? path = none → e.erases path = false → ∃ record', found' = some record' ∧ record.Narrows record'

theorem NarrowsBy.refl {path : String} (e : Event) (record : KeyRecord) : NarrowsBy path e record (some record) :=
  fun _ _ => ⟨record, rfl, .refl record⟩

/-! ## From requests to runs -/

namespace Vault

variable {f : Faults} {v : Vault} {now : Instant} {m m' : Memory} {r : Request} {path : String} {record : KeyRecord}

theorem Rewrites.range {before after : KeyRecord} {gone : List UInt64} (h : Rewrites v now m before r gone after)
    (hs : before.Sound) : before.Narrows after := by
  have hrevises := h.revises
  refine ⟨hrevises.currentVersion, ?_⟩
  have htouch (r : KeyRecord) : (r.touch now).Tight ↔ r.Tight := ((r.revises_touch now).sameRange rfl).tight_iff
  cases h with
  | settings => exact .inl (hrevises.sameRange rfl)
  | expired _ hentry hexpired =>
    refine .inr ((htouch _).mpr ?_)
    exact (hs.setEntry _ hentry (VersionEntry.destroyed_of_expired? hexpired)).tight_advancedOldest
  | deleted =>
    exact .inl (hrevises.sameRange (KeyRecord.foldl_oldestVersion (KeyRecord.markDeleted_oldestVersion now) _ before))
  | undeleted =>
    exact .inl (hrevises.sameRange (KeyRecord.foldl_oldestVersion KeyRecord.clearDeleted_oldestVersion _ before))
  | @destroyed _ versions =>
    refine .inr ((htouch _).mpr ?_)
    exact (hs.amended (KeyRecord.amended_destroying versions before)).tight_advancedOldest

theorem Leaves.range {answer : r.Reply} {found' : Option KeyRecord} (h : Leaves v now m path (some record) r answer found')
    (hs : record.Sound) : NarrowsBy path (.asked f now r (r.settle (.ok answer))) record found' := by
  intro hw he
  cases h with
  | other => exact ⟨record, rfl, .refl record⟩
  | erased => exact absurd he (by simp [Request.settle, Event.erases])
  | written => exact absurd hw (by simp [Request.settle, Event.written?])
  | rewritten _ hbase h =>
    subst hbase
    exact ⟨_, rfl, h.range hs⟩

theorem Effect.range {reply : Except Error r.Reply} (heffect : Effect f.weather v now m r reply m')
    (hr : (m.contents v.ring).record v.ring path = .ok (some record)) (hs : record.Sound) :
    ∃ found', (m'.contents v.ring).record v.ring path = .ok found' ∧
      NarrowsBy path (.asked f now r (r.settle reply)) record found' := by
  cases reply with
  | error e => exact ⟨_, (heffect.views_of_error.2 path).trans hr, .refl _ record⟩
  | ok answer =>
    cases heffect with
    | answered => exact ⟨_, hr, .refl _ record⟩
    | changed plan made _ =>
      obtain ⟨found', hfound', hleaves⟩ := leaves_of_changed plan made hr
      exact ⟨found', hfound', hleaves.range hs⟩

end Vault

namespace Session

variable {master : MasterKey} {log later : List Event} {s t : Session} {path : String} {record : KeyRecord}

theorem range_ask (h : s.Kept master) (hr : s.contents.record s.ring path = .ok (some record)) (hs : record.Sound)
    (f : Faults) (now : Instant) (r : Request) :
    ∃ found', (s.ask f now r).2.contents.record (s.ask f now r).2.ring path = .ok found' ∧
      NarrowsBy path (.asked f now r (s.ask f now r).1) record found' :=
  record_ask (Q := fun e => NarrowsBy path e record) h hr (fun _ _ => .refl _ record) fun heffect _ hfound =>
    heffect.range hfound hs

/-- Between two writes a record narrows, if it is not erased. -/
theorem Leads.range (hl : s.Leads later t) (h : Runs master log s) (hvalid : KeyPath.fault? path = none)
    (hfew : writesIn (later ++ log) < 2 ^ 64 - 1)
    (hkept : ∀ e ∈ later, e.written? path = none ∧ e.erases path = false)
    (hr : s.contents.record s.ring path = .ok (some record)) :
    ∃ record', t.contents.record t.ring path = .ok (some record') ∧ record.Narrows record' := by
  induction hl with
  | here => exact ⟨record, hr, .refl record⟩
  | restart defaults _ ih => exact ih hfew fun e he => hkept e (List.mem_cons_of_mem _ he)
  | @ask later t f now r before ih =>
    have hrun := h.leads before
    have hbefore := Nat.lt_of_le_of_lt (writesIn_le_cons _ (later ++ log)) hfew
    obtain ⟨last, hlast, hnarrows⟩ := ih hbefore fun e he => hkept e (List.mem_cons_of_mem _ he)
    obtain ⟨found, hfound, hlineage⟩ := hrun.lineage hbefore hvalid
    obtain rfl : found = some last := Except.ok.inj (hfound.symm.trans hlast)
    obtain ⟨found', hnew, hstep⟩ := range_ask hrun.kept hlast (hlineage.sound last rfl) f now r
    obtain ⟨hw, he⟩ := hkept _ List.mem_cons_self
    obtain ⟨record', rfl, hlatest⟩ := hstep hw he
    exact ⟨record', hnew, hnarrows.trans hlatest⟩

/-- At every point of a run with fewer writes than numbers, the oldest version of a record that has
    one is listed and not above the current one, and no version that is live lies below it. It is
    the least live version, or the current one if none is live, exactly if it is live or current.
    Up to the next write it becomes so, or stays where it is with the same versions live. A write
    raises it to the first version or to the first of those that are kept, and if that is a
    tombstone, and only then, it is not the least live version after it. -/
theorem oldest_version_bounds (h : Runs master log s) (hfew : writesIn log < 2 ^ 64 - 1) :
    (∀ path record, s.contents.record s.ring path = .ok (some record) → 1 ≤ record.currentVersion →
      (record.oldestVersion ∈ record.versions ∧ record.oldestVersion ≤ record.currentVersion ∧
        ∀ version, record.IsLive version → record.oldestVersion ≤ version) ∧
      (record.Tight ↔ record.IsLive record.oldestVersion ∨ record.oldestVersion = record.currentVersion) ∧
      ∀ later t, s.Leads later t → writesIn (later ++ log) < 2 ^ 64 - 1 →
        (∀ e ∈ later, e.written? path = none ∧ e.erases path = false) →
        ∃ record', t.contents.record t.ring path = .ok (some record') ∧ (record.SameRange record' ∨ record'.Tight)) ∧
    ∀ f now path data cas w warnings, (s.ask f now (.writeData path data cas)).1 = .ok (.accepted w warnings) →
      let t := (s.ask f now (.writeData path data cas)).2
      ∃ policy found after, s.contents.policy s.store.defaults = .ok policy ∧ s.contents.record s.ring path = .ok found ∧
        t.contents.record t.ring path = .ok (some after) ∧
        let before := found.getD (KeyRecord.new path now)
        after.oldestVersion.toNat = max (max before.oldestVersion.toNat 1)
          (if 0 < before.limit policy ∧ before.limit policy < w.version.toNat then w.version.toNat - before.limit policy + 1
            else 0) ∧
        (after.Tight ↔ after.IsLive after.oldestVersion) := by
  constructor
  · intro path record hr hc
    have hvalid := h.valid_of_stored (Contents.stored_of_record hr)
    obtain ⟨found, hfound, hlineage⟩ := h.lineage hfew hvalid
    obtain rfl : found = some record := Except.ok.inj (hfound.symm.trans hr)
    have hsound := hlineage.sound record rfl
    refine ⟨⟨hsound.oldest_mem hc, hsound.oldest_le, fun _ => hsound.oldest_le_of_isLive⟩, hsound.tight_iff, ?_⟩
    intro later t hl hfew' hkept
    obtain ⟨record', hr', _, hnarrows⟩ := hl.range h hvalid hfew' hkept hr
    exact ⟨record', hr', hnarrows⟩
  · intro f now path data cas w warnings hok t
    obtain ⟨hvalid, -⟩ := found_of_accepted h.kept hok
    obtain ⟨policy, found, hp, hf, -, hversion, hafter, -⟩ := written_of_accepted h.kept hok
    obtain ⟨_, hf', hlineage⟩ := h.lineage hfew hvalid
    obtain rfl := Except.ok.inj (hf.symm.trans hf')
    have hnext := hlineage.numbered.next hfew
    rw [← currentOf_getD found path now] at hnext
    refine ⟨policy, found, _, hp, hf, hafter, ?_, ((hlineage.base path now).written hnext now _).tight_written_iff⟩
    rw [hversion, ← toNat_keptOf]
    exact KeyRecord.toNat_oldestVersion_written _ _ _

/-- Two versions are kept and three are written: the first falls out, and the oldest version is the second,
    which is live. When that one is destroyed it is the third. -/
theorem oldest_version_bounds_pruned :
    let first := ((opened ⟨.tabulate 32 fun _ => 7⟩ { maxVersions := 2 } ⟨fun _ => 0, 0⟩).ask Faults.none .epoch
      (.writeData "k" [97] none)).2
    let second := (first.ask Faults.none .epoch (.writeData "k" [98] none)).2
    let third := (second.ask Faults.none .epoch (.writeData "k" [99] none)).2
    let last := (third.ask Faults.none .epoch (.destroyVersions "k" [2])).2
    ∃ pruned narrowed, third.contents.record third.ring "k" = .ok (some pruned) ∧ pruned.oldestVersion = 2 ∧ pruned.Tight ∧
      last.contents.record last.ring "k" = .ok (some narrowed) ∧ narrowed.oldestVersion = 3 ∧ narrowed.Tight := by
  intro first second third last
  let policy : Policy := { maxVersions := 2 }
  let blank := KeyRecord.new "k" .epoch
  let one := blank.written .epoch (keptOf policy blank)
  let two := one.written .epoch (keptOf policy one)
  let three := two.written .epoch (keptOf policy two)
  have hpath : KeyPath.fault? "k" = none := by decide
  have hopened := stands_opened ⟨.tabulate 32 fun _ => 7⟩ policy ⟨fun _ => 0, 0⟩ "k"
  have hfirst : first.Stands _ "k" policy (some one) := hopened.write .epoch hpath [97] none blank rfl (by decide) (by decide)
  have hsecond : second.Stands _ "k" policy (some two) := hfirst.write .epoch hpath [98] none one rfl (by decide) (by decide)
  have hthird : third.Stands _ "k" policy (some three) := hsecond.write .epoch hpath [99] none two rfl (by decide) (by decide)
  have hfew (log : List Event) (h : log.length ≤ 5) : writesIn log < 2 ^ 64 - 1 :=
    Nat.lt_of_le_of_lt (Nat.le_trans List.countP_le_length h) (by decide)
  have hruns : Runs ⟨.tabulate 32 fun _ => 7⟩ _ second := ((runs_opened ⟨.tabulate 32 fun _ => 7⟩ policy ⟨fun _ => 0, 0⟩).ask
    Faults.none .epoch (.writeData "k" [97] none)).ask Faults.none .epoch (.writeData "k" [98] none)
  -- the third write is accepted, and so the oldest version is the first of those that are kept
  have hanswer : (second.ask Faults.none .epoch (.writeData "k" [99] none)).1 = .ok (.accepted _) :=
    (ask_write hruns.kept hsecond.check hpath [99] none hsecond.policy_eq
      (Vault.recordOrNewIn_of_record hsecond.record_eq) rfl (by decide)).1
  have hcurrent : two.currentVersion = 2 := by decide
  have hlatest : three.currentVersion = 3 := by
    rw [KeyRecord.written_currentVersion, hcurrent]
    rfl
  have hlimit : two.limit policy = 2 := by decide
  obtain ⟨policy', found, after, hp, hr, hafter, holdest, htight⟩ := (oldest_version_bounds hruns (hfew _ (by simp))).2 _ _ _ _ _ _ _ hanswer
  obtain rfl : policy' = policy := Except.ok.inj (hp.symm.trans hsecond.policy_eq)
  obtain rfl : found = some two := Except.ok.inj (hr.symm.trans hsecond.record_eq)
  obtain rfl : after = three := Option.some.inj (Except.ok.inj (hafter.symm.trans hthird.record_eq))
  have hkept : (keptOf policy two).toNat = 2 := by decide
  have hthree : three.oldestVersion = 2 := by
    have hle := ((oldest_version_bounds hruns (hfew _ (by simp))).1 "k" two hsecond.record_eq (by decide)).1.2.1
    rw [hcurrent] at hle
    rw [show (some two).getD (KeyRecord.new "k" .epoch) = two from rfl, hlimit, hcurrent, if_pos (by decide)] at holdest
    refine UInt64.toNat_inj.mp (holdest.trans (Nat.max_eq_right ?_))
    exact Nat.max_le.mpr ⟨UInt64.le_iff_toNat_le.mp hle, by decide⟩
  have hlisted : three.versions[(2 : UInt64)]? = some { createdTime := .epoch } := by
    rw [KeyRecord.getElem?_written_of_keeps, hkept, hcurrent, if_pos (by decide), if_neg (by decide)]
    exact one.getElem?_written_next .epoch _
  -- the second version is live before its destruction, and after it only the third is
  obtain ⟨⟨_, _, hbelow⟩, -, hnarrows⟩ := (oldest_version_bounds (hruns.ask Faults.none .epoch (.writeData "k" [99] none))
    (hfew _ (by simp))).1 "k" three hthird.record_eq (by rw [hlatest]; decide)
  obtain ⟨narrowed, hnarrowed, hrange⟩ := hnarrows _ last (.ask Faults.none .epoch (.destroyVersions "k" [2]) .here)
    (hfew _ (by simp)) (by simp [Event.written?, Event.erases])
  have hlive (version : UInt64) : narrowed.IsLive version ↔ 2 ≠ version ∧ three.IsLive version := by
    have hlast := (hthird.destroy .epoch hpath 2 _ hlisted rfl).record_eq
    rw [show narrowed = _ from Option.some.inj (Except.ok.inj (hnarrowed.symm.trans hlast)), KeyRecord.isLive_destroyed]
  have hspent : ¬ narrowed.IsLive 2 := fun h => ((hlive 2).mp h).1 rfl
  have htop : narrowed.IsLive 3 := (hlive 3).mpr ⟨by decide, two.isLive_written .epoch _⟩
  have hleast (version : UInt64) (h : narrowed.IsLive version) : 3 ≤ version := by
    obtain ⟨hne, h⟩ := (hlive version).mp h
    have hle := hbelow version h
    rw [hthree] at hle
    rw [UInt64.le_iff_toNat_le] at hle ⊢
    rw [ne_eq, ← UInt64.toNat_inj] at hne
    simp only [UInt64.reduceToNat] at hle hne ⊢
    omega
  have htight' : narrowed.Tight := hrange.resolve_left fun hsame => hspent ((hsame.live 2).mpr ⟨_, hlisted, rfl⟩)
  refine ⟨three, narrowed, hthird.record_eq, hthree, htight.mpr ?_, hnarrowed, htight'.oldestVersion_eq htop hleast, htight'⟩
  rw [hthree]
  exact ⟨_, hlisted, rfl⟩

/-- Two versions are kept. Two are written, the second is destroyed, and a third is written: the
    first falls out, and the oldest version is the second, a tombstone, while the third is live. -/
theorem oldest_version_at_tombstone :
    let first := ((opened ⟨.tabulate 32 fun _ => 7⟩ { maxVersions := 2 } ⟨fun _ => 0, 0⟩).ask Faults.none .epoch
      (.writeData "k" [97] none)).2
    let second := (first.ask Faults.none .epoch (.writeData "k" [98] none)).2
    let s := (second.ask Faults.none .epoch (.destroyVersions "k" [2])).2
    let t := (s.ask Faults.none .epoch (.writeData "k" [99] none)).2
    ∃ log record, Runs ⟨.tabulate 32 fun _ => 7⟩ log t ∧ (∀ e ∈ log, e.IsCalm) ∧
      t.contents.record t.ring "k" = .ok (some record) ∧ 1 ≤ record.currentVersion ∧ ¬ record.Tight := by
  intro first second s t
  let policy : Policy := { maxVersions := 2 }
  let blank := KeyRecord.new "k" .epoch
  let one := blank.written .epoch (keptOf policy blank)
  let two := one.written .epoch (keptOf policy one)
  let spent := (two.setEntry 2 { createdTime := .epoch, destroyed := true }).advancedOldest.touch .epoch
  have hpath : KeyPath.fault? "k" = none := by decide
  have hopened := stands_opened ⟨.tabulate 32 fun _ => 7⟩ policy ⟨fun _ => 0, 0⟩ "k"
  have hfirst : first.Stands _ "k" policy (some one) := hopened.write .epoch hpath [97] none blank rfl (by decide) (by decide)
  have hsecond : second.Stands _ "k" policy (some two) := hfirst.write .epoch hpath [98] none one rfl (by decide) (by decide)
  have hlisted : two.versions[(2 : UInt64)]? = some { createdTime := .epoch } := one.getElem?_written_next .epoch _
  have hs : s.Stands _ "k" policy (some spent) := hsecond.destroy .epoch hpath 2 { createdTime := .epoch } hlisted rfl
  have ht : t.Stands _ "k" policy (some (spent.written .epoch (keptOf policy spent))) :=
    hs.write .epoch hpath [99] none spent rfl (by decide) (by decide)
  -- the first version falls out, and the oldest one stands at the tombstone
  let last := spent.written .epoch (keptOf policy spent)
  have hcurrent : spent.currentVersion = 2 := by decide
  have hkept : (keptOf policy spent).toNat = 2 := by decide
  have holdest : last.oldestVersion = 2 := by
    have hbelow : spent.oldestVersion ≤ 2 := KeyRecord.advanced_le_currentVersion (by decide)
    have hnat := KeyRecord.toNat_oldestVersion_written spent .epoch (keptOf policy spent)
    rw [hcurrent, hkept, if_pos (by decide)] at hnat
    refine UInt64.toNat_inj.mp (hnat.trans (Nat.max_eq_right ?_))
    exact Nat.max_le.mpr ⟨UInt64.le_iff_toNat_le.mp hbelow, by decide⟩
  have htombstone : last.versions[last.oldestVersion]? = some { createdTime := .epoch, destroyed := true } := by
    rw [holdest, KeyRecord.getElem?_written_of_keeps, hkept, hcurrent, if_pos (by decide), if_neg (by decide),
      KeyRecord.touch_versions, KeyRecord.advancedOldest_versions, KeyRecord.getElem?_setEntry, if_pos rfl]
  obtain ⟨log, hruns, hcalm⟩ := ht.runs
  refine ⟨log, last, hruns, hcalm, ht.record_eq, ?_, ?_⟩
  · rw [KeyRecord.written_currentVersion, hcurrent]
    decide
  · exact KeyRecord.not_tight_written htombstone rfl

end Session

end Strongbox
