/-
  Strongbox.Proofs.Vault.Plan — what an operation is going to do, once it has read.

  An operation reads first. Then it either answers, or makes edits of payloads, then one edit
  of a record or of the policy that makes the change count, and answers. Reading changes
  nothing, so what it is going to do is determined by the memory it starts in.

  Proved:
  - `follows_perform`: performing a request is following its plan.
  - `Effect`, `ends_perform`: all that can come of a request, call by call.
-/

import Strongbox.Proofs.Record.Changes
import Strongbox.Proofs.Vault.Views

namespace Strongbox

open Time (Instant)
open Vault (recordEdit dropEdit payloadEdit eraseEdit policyEdit recordAddress payloadAddress policyKey)

inductive Plan (α : Type) where
  | answer (a : α)
  /-- The edits in order, the edit that makes them count, and the answer. -/
  | change (edits : List Edit) (commit : Edit) (a : α)

namespace Plan

variable {α : Type}

/-- The plan as a program. -/
def program (ring : KeyRing) : Plan α → Access α
  | .answer a => pure a
  | .change edits commit a => do
    Access.forEach (Edit.access ring) edits
    commit.access ring
    return a

def reply : Plan α → α
  | .answer a => a
  | .change _ _ a => a

/-- What opens once the plan has been gone through with. -/
def after (c : Contents) : Plan α → Contents
  | .answer _ => c
  | .change edits commit _ => (c.edits edits).edit commit

theorem program_cons (ring : KeyRing) (e : Edit) (es : List Edit) (commit : Edit) (a : α) :
    (Plan.change (e :: es) commit a).program ring =
      e.access ring >>= fun _ => (Plan.change es commit a).program ring :=
  bind_assoc ..

end Plan

/-! ## Plans -/

namespace Vault

variable (v : Vault) (now : Instant) (m : Memory)

/-- The record of a path, or a new one. -/
def recordOrNewIn (path : String) : Except Error KeyRecord := do
  return (← (m.contents v.ring).record v.ring path).getD (KeyRecord.new path now)

/-- What is shown of a version. -/
def shownIn (record : KeyRecord) (version : UInt64) : Except Error (Option SecretVersion) :=
  match record.versions[version]? with
  | none => return none
  | some entry => do
    let data ← if entry.isReadable now then (m.contents v.ring).payload v.ring record.key version else pure none
    return some (record.secret version entry data)

/-- What is shown of a record. -/
def metadataIn (path : String) : Except Error (Option MetadataView) := do
  return (← (m.contents v.ring).record v.ring path).map KeyRecord.view

/-- The names of the records below a path. -/
def namesIn (path : String) : Except Error (List String) := do
  let children := childNames ((records v.ring).physicalKey (Sealed.directory path)) m.keys
  return sortedNames (← (children.mapM (records v.ring).revealChild).mapError .storage)

def planPolicyChanges (changes : PolicyChanges) : Except Error (Plan (Outcome Unit)) := do
  let policy ← (m.contents v.ring).policy v.defaults
  return .change [] (policyEdit (changes.apply policy)) (.accepted ())

def planMetadata (path : String) (changes : RecordChanges) : Except Error (Plan (Outcome Unit)) := do
  let policy ← (m.contents v.ring).policy v.defaults
  match changes.rejection? policy with
  | some reason => return .answer (.rejected reason)
  | none =>
    let (changes, warnings) := changes.underPolicy policy
    let record ← v.recordOrNewIn now m path
    return .change [] (recordEdit v.ring ((changes.apply record).touch now)) (.accepted () warnings)

def planErase (path : String) : Except Error (Plan Unit) := do
  match ← (m.contents v.ring).record v.ring path with
  | none => return .answer ()
  | some record => return .change (record.versions.keys.map (eraseEdit v.ring path)) (dropEdit v.ring path) ()

def planWrite (path : String) (data : Bytes) (cas : Option UInt64) : Except Error (Plan (Outcome WrittenVersion)) := do
  let policy ← (m.contents v.ring).policy v.defaults
  let record ← v.recordOrNewIn now m path
  match casRejection? record policy cas with
  | some reason => return .answer (.rejected reason)
  | none =>
    if record.Exhausted then return .answer .overflowed
    else
      let record := record.appended now
      let version := record.currentVersion
      let kept := (policy.retention record.maxVersions).toUInt64
      return .change
        (payloadEdit v.ring path version (some data) :: (record.fallen kept).map (eraseEdit v.ring record.key))
        (recordEdit v.ring ((record.pruned kept).touch now))
        (.accepted ⟨version, ({ createdTime := now } : VersionEntry).view⟩)

def planRead (path : String) (version : Option UInt64) : Except Error (Plan (Option SecretVersion)) := do
  let policy ← (m.contents v.ring).policy v.defaults
  match ← (m.contents v.ring).record v.ring path with
  | none => return .answer none
  | some record =>
    let version := version.getD record.currentVersion
    match record.versions[version]? with
    | none => return .answer none
    | some entry =>
      match entry.expired? (record.lifetime? policy) now with
      | none => return .answer (← v.shownIn now m record version)
      | some expiredAt =>
        let tombstone := { entry with destroyed := true, deletionTime := some expiredAt }
        let expired := record.expired now version entry expiredAt
        return .change [eraseEdit v.ring record.key version] (recordEdit v.ring expired)
          (some (expired.secret version tombstone none))

/-- A changed record is written back; one that did not change is not. -/
def planChanged (before after : KeyRecord) : Plan (Outcome Unit) :=
  if after = before then .answer (.accepted ()) else .change [] (recordEdit v.ring (after.touch now)) (.accepted ())

def planDelete (path : String) (versions : List UInt64) : Except Error (Plan (Outcome Unit)) := do
  match ← (m.contents v.ring).record v.ring path with
  | none => return .answer (.accepted ())
  | some record =>
    let targets := if versions = [] then [record.currentVersion] else versions
    return v.planChanged now record (targets.foldl (KeyRecord.markDeleted now) record)

def planUndelete (path : String) (versions : List UInt64) : Except Error (Plan (Outcome Unit)) := do
  match ← (m.contents v.ring).record v.ring path with
  | none => return .answer (.accepted ())
  | some record => return v.planChanged now record (versions.foldl KeyRecord.clearDeleted record)

def planDestroy (path : String) (versions : List UInt64) : Except Error (Plan (Outcome Unit)) := do
  match ← (m.contents v.ring).record v.ring path with
  | none => return .answer (.accepted ())
  | some record =>
    let (gone, destroyed) := record.destroying versions
    if destroyed = record then return .answer (.accepted ())
    else
      return .change (gone.map (eraseEdit v.ring record.key)) (recordEdit v.ring (destroyed.advancedOldest.touch now))
        (.accepted ())

/-- What a request that is not answered at once is going to do. -/
def plan : (r : Request) → Except Error (Plan r.Reply)
  | .writeMetadata path changes => v.planMetadata now m path changes
  | .readMetadata path => do return .answer (← v.metadataIn m path)
  | .listMetadata path => do return .answer (← v.namesIn m path)
  | .metadataExists path => do return .answer (← v.metadataIn m path).isSome
  | .deleteMetadata path => v.planErase m path
  | .writeData path data cas => v.planWrite now m path data cas
  | .readData path version => v.planRead now m path version
  | .deleteVersions path versions => v.planDelete now m path versions
  | .undeleteVersions path versions => v.planUndelete now m path versions
  | .destroyVersions path versions => v.planDestroy now m path versions
  | .readPolicy => do return .answer (← (m.contents v.ring).policy v.defaults)
  | .writePolicy changes => v.planPolicyChanges m changes

/-! ## Reading -/

/-- A call that reads may fail, and the failure is the result. -/
def Unread {α : Type} (w : Weather) (m : Memory) (Q : Except Error α → Memory → Prop) : Prop :=
  ∀ c, c.isWrite = false → w c false → ∀ e, Q (.error (.storage e)) m

variable {α β : Type} {ring : KeyRing} {m}

/-- The program only reads, and what it reads is this. -/
def Reads (m : Memory) (p : Access β) (x : Except Error β) : Prop :=
  ∀ (w : Weather) (Q : Except Error β → Memory → Prop), Unread w m Q → Q x m → p.Ends w m Q

theorem Reads.pure (b : β) : Reads m (pure b) (.ok b) := fun _ _ _ h => h

theorem Reads.done (x : Except Error β) : Reads m (.done x) x := fun _ _ _ h => h

theorem Reads.bind {p : Access β} {x : Except Error β} {f : β → Access α} {g : β → Except Error α} (hp : Reads m p x)
    (hf : ∀ b, x = .ok b → Reads m (f b) (g b)) : Reads m (p >>= f) (x >>= g) := by
  intro w Q hread h
  refine Access.ends_bind.mpr (hp w _ ?_ ?_)
  · exact hread
  · cases x with
    | error e => exact h
    | ok b => exact hf b rfl w Q hread h

theorem reads_get (s : Sealed) (key : String) : Reads m (s.get key) ((m.contents s.ring).lookup (s.physicalKey key)) :=
  fun _ _ hread h => Access.ends_get (hread _ rfl) h

theorem reads_record (ring : KeyRing) (path : String) :
    Reads m (readRecord ring path) ((m.contents ring).record ring path) := by
  refine Reads.bind (reads_get (records ring) path) ?_
  intro found _
  cases found with
  | none => exact Reads.pure none
  | some bytes => exact Reads.bind (Reads.done (checkRecord path bytes)) fun record _ => Reads.pure (some record)

theorem reads_policy (v : Vault) : Reads m v.readPolicy ((m.contents v.ring).policy v.defaults) := by
  have hl := reads_get (m := m) (policies v.ring) policyKey
  rw [policy_physicalKey] at hl
  refine Reads.bind hl ?_
  intro found _
  cases found with
  | none => exact Reads.pure v.defaults
  | some bytes =>
    dsimp only
    cases Policy.decode? bytes with
    | some policy => exact Reads.pure policy
    | none => exact Reads.done _

theorem reads_readMetadata (v : Vault) (path : String) : Reads m (v.readMetadata path) (v.metadataIn m path) :=
  Reads.bind (reads_record v.ring path) fun found _ => Reads.pure (found.map KeyRecord.view)

theorem reads_recordOrNew (v : Vault) (now : Instant) (path : String) :
    Reads m (v.recordOrNew now path) (v.recordOrNewIn now m path) :=
  Reads.bind (reads_record v.ring path) fun found _ => Reads.pure (found.getD (KeyRecord.new path now))

theorem reads_payload (ring : KeyRing) (path : String) (version : UInt64) :
    Reads m (readPayload ring path version) ((m.contents ring).payload ring path version) :=
  reads_get (payloads ring) (payloadKey ring path version)

theorem reads_showVersion (v : Vault) (now : Instant) (record : KeyRecord) (version : UInt64) :
    Reads m (v.showVersion now record version) (v.shownIn now m record version) := by
  unfold showVersion shownIn
  cases record.versions[version]? with
  | none => exact Reads.pure none
  | some entry =>
    by_cases hr : entry.isReadable now
    · simp only [hr, if_true]
      exact Reads.bind (reads_payload v.ring record.key version) fun data _ => Reads.pure _
    · simp only [hr]
      exact Reads.pure (some (record.secret version entry none))

theorem reads_listRecords (v : Vault) (path : String) : Reads m (listRecords v.ring path) (v.namesIn m path) := by
  intro w Q hread h
  refine ⟨hread _ rfl, ?_⟩
  intro _
  let children := childNames ((records v.ring).physicalKey (Sealed.directory path)) m.keys
  have hrest : Reads m (do return sortedNames (← Access.ofExcept (children.mapM (records v.ring).revealChild)))
      (v.namesIn m path) :=
    Reads.bind (Reads.done ((children.mapM (records v.ring).revealChild).mapError .storage)) fun names _ =>
      Reads.pure (sortedNames names)
  exact hrest w Q hread h

/-! ## Following a plan -/

/-- The program makes its plan by reading, then goes through with it. -/
def Follows (ring : KeyRing) (m : Memory) (p : Access α) (x : Except Error (Plan α)) : Prop :=
  ∀ (w : Weather) (Q : Except Error α → Memory → Prop), Unread w m Q →
    (match x with
      | .ok plan => (plan.program ring).Ends w m Q
      | .error e => Q (.error e) m) → p.Ends w m Q

theorem Follows.bind {p : Access β} {x : Except Error β} {f : β → Access α} {g : β → Except Error (Plan α)}
    (hp : Reads m p x) (hf : ∀ b, x = .ok b → Follows ring m (f b) (g b)) : Follows ring m (p >>= f) (x >>= g) := by
  intro w Q hread h
  refine Access.ends_bind.mpr (hp w _ ?_ ?_)
  · exact hread
  · cases x with
    | error e => exact h
    | ok b => exact hf b rfl w Q hread h

theorem Follows.program (plan : Plan α) : Follows ring m (plan.program ring) (.ok plan) := fun _ _ _ h => h

theorem Follows.of_reads {p : Access α} {x : Except Error α} (hp : Reads m p x) :
    Follows ring m p (do return .answer (← x)) := by
  have h : Follows ring m (p >>= fun a => (Plan.answer a).program ring) (x >>= fun a => .ok (.answer a)) :=
    Follows.bind hp fun a _ => Follows.program (.answer a)
  rwa [show (p >>= fun a => (Plan.answer a).program ring) = p from bind_pure p] at h

theorem erasePayloads_eq (path : String) (versions : List UInt64) :
    Access.forEach (deletePayload ring path) versions =
      Access.forEach (Edit.access ring) (versions.map (eraseEdit ring path)) :=
  (Access.forEach_map (Edit.access ring) (eraseEdit ring path) versions).symm

theorem prune_eq (v : Vault) (r : KeyRecord) (kept : UInt64) : v.prune r kept = do
    Access.forEach (Edit.access v.ring) ((r.fallen kept).map (eraseEdit v.ring r.key))
    return r.pruned kept := by
  unfold prune KeyRecord.fallen KeyRecord.pruned
  cases r.cutoff? kept with
  | none => rfl
  | some cutoff => exact congrArg (· >>= fun _ => pure (r.dropUpTo cutoff)) (erasePayloads_eq r.key (r.upTo cutoff))

theorem destroyEach_eq (v : Vault) (versions : List UInt64) (r : KeyRecord) : v.destroyEach versions r = do
    Access.forEach (Edit.access v.ring) ((r.destroying versions).1.map (eraseEdit v.ring r.key))
    return (r.destroying versions).2 := by
  induction versions generalizing r with
  | nil => rfl
  | cons version rest ih =>
    unfold destroyEach KeyRecord.destroying
    cases r.versions[version]? with
    | none => exact ih r
    | some entry =>
      by_cases hd : entry.destroyed
      · simp only [hd, if_true]
        exact ih r
      · simp only [hd, Bool.false_eq_true, if_false]
        rw [ih]
        exact (bind_assoc ..).symm

theorem follows_writePolicyChanges (v : Vault) (changes : PolicyChanges) :
    Follows v.ring m (v.writePolicyChanges changes) (v.planPolicyChanges m changes) := by
  refine Follows.bind (reads_policy v) ?_
  intro policy _
  have he : writePolicy v.ring (changes.apply policy) = (policyEdit (changes.apply policy)).access v.ring := by
    rw [writePolicy, Sealed.put, policy_physicalKey]
    rfl
  rw [he]
  exact Follows.program (.change [] (policyEdit (changes.apply policy)) (Outcome.accepted ()))

theorem follows_writeMetadata (v : Vault) (now : Instant) (path : String) (changes : RecordChanges) :
    Follows v.ring m (v.writeMetadata now path changes) (v.planMetadata now m path changes) := by
  refine Follows.bind (reads_policy v) ?_
  intro policy _
  cases changes.rejection? policy with
  | some reason => exact Follows.program (.answer (Outcome.rejected reason))
  | none =>
    refine Follows.bind (reads_recordOrNew v now path) ?_
    intro record _
    exact Follows.program (.change [] (recordEdit v.ring (((changes.underPolicy policy).1.apply record).touch now))
      (Outcome.accepted () (changes.underPolicy policy).2))

theorem follows_deleteMetadata (v : Vault) (path : String) :
    Follows v.ring m (v.deleteMetadata path) (v.planErase m path) := by
  refine Follows.bind (reads_record v.ring path) ?_
  intro found _
  cases found with
  | none => exact Follows.program (.answer ())
  | some record =>
    simp only [erasePayloads_eq]
    exact Follows.program (.change (record.versions.keys.map (eraseEdit v.ring path)) (dropEdit v.ring path) ())

theorem follows_writeData (v : Vault) (now : Instant) (path : String) (data : Bytes) (cas : Option UInt64) :
    Follows v.ring m (v.writeData now path data cas) (v.planWrite now m path data cas) := by
  refine Follows.bind (reads_policy v) fun policy _ => Follows.bind (reads_recordOrNew v now path) fun record _ => ?_
  cases casRejection? record policy cas with
  | some reason => exact Follows.program (.answer (Outcome.rejected reason))
  | none =>
    simp only [record.next?_eq]
    by_cases hexhausted : record.Exhausted
    · rw [if_pos hexhausted, if_pos hexhausted]
      exact Follows.program (.answer Outcome.overflowed)
    · rw [if_neg hexhausted, if_neg hexhausted]
      let appended := record.appended now
      let kept := (policy.retention appended.maxVersions).toUInt64
      have h : Follows v.ring m _ _ := Follows.program (.change
        (payloadEdit v.ring path appended.currentVersion (some data) ::
          (appended.fallen kept).map (eraseEdit v.ring appended.key))
        (recordEdit v.ring ((appended.pruned kept).touch now))
        (Outcome.accepted
          (⟨appended.currentVersion, ({ createdTime := now } : VersionEntry).view⟩ : WrittenVersion)))
      rw [Plan.program_cons] at h
      simp only [prune_eq, bind_assoc, pure_bind]
      exact h

theorem follows_readData (v : Vault) (now : Instant) (path : String) (version : Option UInt64) :
    Follows v.ring m (v.readData now path version) (v.planRead now m path version) := by
  refine Follows.bind (reads_policy v) fun policy _ => Follows.bind (reads_record v.ring path) fun found _ => ?_
  cases found with
  | none => exact Follows.program (.answer none)
  | some record =>
    simp only
    generalize version.getD record.currentVersion = version
    cases record.versions[version]? with
    | none => exact Follows.program (.answer none)
    | some entry =>
      simp only
      cases entry.expired? (record.lifetime? policy) now with
      | none => exact Follows.of_reads (reads_showVersion v now record version)
      | some expiredAt =>
        let expired := record.expired now version entry expiredAt
        have hshow : v.showVersion now expired version = pure (some (expired.secret version
            { entry with destroyed := true, deletionTime := some expiredAt } none)) := by
          unfold showVersion
          rw [KeyRecord.getElem?_expired, if_pos rfl]
          rfl
        have h : Follows v.ring m _ _ := Follows.program (.change [eraseEdit v.ring record.key version]
          (recordEdit v.ring expired) (some (expired.secret version
            { entry with destroyed := true, deletionTime := some expiredAt } none)))
        rw [Plan.program_cons] at h
        have hexpire : v.expire now record version entry expiredAt = (do
            deletePayload v.ring record.key version
            writeRecord v.ring expired
            return expired) := rfl
        simp only [hexpire, bind_assoc, pure_bind, hshow]
        exact h

theorem follows_writeChanged (v : Vault) (now : Instant) (before after : KeyRecord) :
    Follows v.ring m (v.writeChanged now before after) (.ok (v.planChanged now before after)) := by
  unfold writeChanged planChanged
  by_cases h : after = before
  · rw [if_pos h, if_pos h]
    exact Follows.program (.answer (Outcome.accepted ()))
  · rw [if_neg h, if_neg h]
    exact Follows.program (.change [] (recordEdit v.ring (after.touch now)) (Outcome.accepted ()))

theorem follows_deleteVersions (v : Vault) (now : Instant) (path : String) (versions : List UInt64) :
    Follows v.ring m (v.deleteVersions now path versions) (v.planDelete now m path versions) := by
  refine Follows.bind (reads_record v.ring path) ?_
  intro found _
  cases found with
  | none => exact Follows.program (.answer (Outcome.accepted ()))
  | some record => exact follows_writeChanged v now record _

theorem follows_undeleteVersions (v : Vault) (now : Instant) (path : String) (versions : List UInt64) :
    Follows v.ring m (v.undeleteVersions now path versions) (v.planUndelete now m path versions) := by
  refine Follows.bind (reads_record v.ring path) ?_
  intro found _
  cases found with
  | none => exact Follows.program (.answer (Outcome.accepted ()))
  | some record => exact follows_writeChanged v now record _

theorem follows_destroyVersions (v : Vault) (now : Instant) (path : String) (versions : List UInt64) :
    Follows v.ring m (v.destroyVersions now path versions) (v.planDestroy now m path versions) := by
  refine Follows.bind (reads_record v.ring path) ?_
  intro found _
  cases found with
  | none => exact Follows.program (.answer (Outcome.accepted ()))
  | some record =>
    simp only [destroyEach_eq, bind_assoc, pure_bind]
    by_cases h : (record.destroying versions).2 = record
    · rw [if_pos h, if_pos h, KeyRecord.destroying_eq_self h]
      exact Follows.program (.answer (Outcome.accepted ()))
    · rw [if_neg h, if_neg h]
      exact Follows.program (.change ((record.destroying versions).1.map (eraseEdit v.ring record.key))
        (recordEdit v.ring ((record.destroying versions).2.advancedOldest.touch now)) (Outcome.accepted ()))

/-- A request that is performed follows its plan. -/
theorem follows_perform (v : Vault) (now : Instant) (r : Request) :
    Follows v.ring m (v.perform now r) (v.plan now m r) := by
  cases r with
  | writeMetadata path changes => exact follows_writeMetadata v now path changes
  | readMetadata path => exact Follows.of_reads (reads_readMetadata v path)
  | listMetadata path => exact Follows.of_reads (reads_listRecords v path)
  | metadataExists path =>
    exact Follows.bind (reads_readMetadata v path) fun shown _ => Follows.program (.answer shown.isSome)
  | deleteMetadata path => exact follows_deleteMetadata v path
  | writeData path data cas => exact follows_writeData v now path data cas
  | readData path version => exact follows_readData v now path version
  | deleteVersions path versions => exact follows_deleteVersions v now path versions
  | undeleteVersions path versions => exact follows_undeleteVersions v now path versions
  | destroyVersions path versions => exact follows_destroyVersions v now path versions
  | readPolicy => exact Follows.of_reads (reads_policy v)
  | writePolicy changes => exact follows_writePolicyChanges v changes

/-! ## All that can come of a request -/

/-- What comes of a request whose calls go as the weather allows. -/
inductive Effect (w : Weather) (v : Vault) (now : Instant) (m : Memory) (r : Request) : Except Error r.Reply → Memory → Prop
  /-- A call that reads failed. -/
  | unread {c : Call} {e : StorageError} (reads : c.isWrite = false) (fails : w c false) :
    Effect w v now m r (.error (.storage e)) m
  /-- What was read is not in order. -/
  | broken {e : Error} (plan : v.plan now m r = .error e) : Effect w v now m r (.error e) m
  | answered {a : r.Reply} (plan : v.plan now m r = .ok (.answer a)) : Effect w v now m r (.ok a) m
  /-- One of the edits failed, and those before it were made. -/
  | interrupted {edits : List Edit} {commit : Edit} {a : r.Reply} {done rest : List Edit} {next : Edit} {nonce : Block 12}
    {m' : Memory} {e : StorageError} (plan : v.plan now m r = .ok (.change edits commit a))
    (split : edits ++ [commit] = done ++ next :: rest) (made : Edits v.ring done m m')
    (fails : w (next.call v.ring nonce) false) : Effect w v now m r (.error (.storage e)) m'
  /-- All edits were made. -/
  | changed {edits : List Edit} {commit : Edit} {a : r.Reply} {nonce : Block 12} {m' : Memory}
    (plan : v.plan now m r = .ok (.change edits commit a)) (made : Edits v.ring edits m m')
    (through : w (commit.call v.ring nonce) true) : Effect w v now m r (.ok a) (commit.after v.ring nonce m')

theorem ends_perform (w : Weather) (v : Vault) (now : Instant) (m : Memory) (r : Request) :
    (v.perform now r).Ends w m (Effect w v now m r) := by
  refine follows_perform v now r w _ (fun c hc hw e => .unread hc hw) ?_
  cases hplan : v.plan now m r with
  | error e => exact .broken hplan
  | ok plan =>
    cases plan with
    | answer a => exact .answered hplan
    | change edits commit a =>
      refine Access.ends_bind.mpr (Access.ends_edits ?_ ?_)
      · intro done next rest nonce m' hedits hmade hw e
        exact .interrupted hplan (by rw [hedits, List.append_assoc, List.cons_append]) hmade hw
      · intro m' hmade
        refine Access.ends_bind.mpr (Access.ends_edit ?_ ?_)
        · intro nonce hw e
          exact .interrupted hplan rfl hmade hw
        · intro nonce hw
          exact .changed hplan hmade hw

/-- The answer to a request none of whose calls fail, and what opens afterwards. -/
def outcome (v : Vault) (now : Instant) (m : Memory) (r : Request) : Except Error r.Reply × Contents :=
  match v.plan now m r with
  | .ok plan => (.ok plan.reply, plan.after (m.contents v.ring))
  | .error e => (.error e, m.contents v.ring)

theorem Effect.eq_outcome {v : Vault} {now : Instant} {m m' : Memory} {r : Request} {reply : Except Error r.Reply}
    (h : Effect Faults.none.weather v now m r reply m') : (reply, m'.contents v.ring) = v.outcome now m r := by
  rw [outcome]
  cases h with
  | unread _ fails => exact (Faults.weather_none fails).elim
  | broken plan => rw [plan]
  | answered plan => rw [plan]; rfl
  | interrupted _ _ _ fails => exact (Faults.weather_none fails).elim
  | changed plan made _ =>
    rw [plan, Memory.contents_after, made.contents]
    rfl

/-- Where nothing is to be done and no call fails, nothing is. -/
theorem Effect.of_answer {v : Vault} {now : Instant} {m m' : Memory} {r : Request} {reply : Except Error r.Reply} {a : r.Reply}
    (h : Effect Faults.none.weather v now m r reply m') (hplan : v.plan now m r = .ok (.answer a)) : reply = .ok a ∧ m' = m := by
  cases h with
  | unread _ fails => exact (Faults.weather_none fails).elim
  | broken plan => cases hplan.symm.trans plan
  | answered plan =>
    cases hplan.symm.trans plan
    exact ⟨rfl, rfl⟩
  | interrupted plan => cases hplan.symm.trans plan
  | changed plan => cases hplan.symm.trans plan

/-- A change none of whose calls fail is made. -/
theorem Effect.of_change {v : Vault} {now : Instant} {m m' : Memory} {r : Request} {reply : Except Error r.Reply}
    {edits : List Edit} {commit : Edit} {a : r.Reply} (h : Effect Faults.none.weather v now m r reply m')
    (hplan : v.plan now m r = .ok (.change edits commit a)) :
    reply = .ok a ∧ ∃ nonce m₁, Edits v.ring edits m m₁ ∧ m' = commit.after v.ring nonce m₁ := by
  cases h with
  | unread _ fails => exact (Faults.weather_none fails).elim
  | broken plan => cases hplan.symm.trans plan
  | answered plan => cases hplan.symm.trans plan
  | interrupted _ _ _ fails => exact (Faults.weather_none fails).elim
  | @changed _ _ _ nonce m₁ plan made _ =>
    cases hplan.symm.trans plan
    exact ⟨rfl, nonce, m₁, made, rfl⟩

end Vault

end Strongbox
