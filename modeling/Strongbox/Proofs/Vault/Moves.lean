/-
  Strongbox.Proofs.Vault.Moves — the changes that requests make, by kind.

  A request that changes something stores a policy, erases a record, appends a version to a
  record, or revises a record. Only payloads are edited before the edit that makes the change
  count, and what a change is going to be depends on records and policy only.

  Proved:
  - `move_of_plan`: every plan that changes something is one of the four.
  - `plan_congr`: the same records and the same policy make the same change.
-/

import Strongbox.Proofs.Vault.Rewrites

namespace Strongbox

open Time (Instant)

namespace Request

/-- The path of a request that concerns a single key. -/
def path? : Request → Option String
  | .writeMetadata path _ => some path
  | .readMetadata path => some path
  | .metadataExists path => some path
  | .deleteMetadata path => some path
  | .writeData path _ _ => some path
  | .readData path _ => some path
  | .deleteVersions path _ => some path
  | .undeleteVersions path _ => some path
  | .destroyVersions path _ => some path
  | .listMetadata _ => none
  | .readPolicy => none
  | .writePolicy _ => none

theorem path?_of_revised? {r : Request} {path : String} (h : r.revised? = some path) : r.path? = some path := by
  cases r <;> first | exact h | cases h

end Request

namespace Vault

variable {v : Vault} {now : Instant} {m m' : Memory}

/-- How many versions are kept of a key. -/
def keptOf (policy : Policy) (record : KeyRecord) : UInt64 := (policy.retention record.maxVersions).toUInt64

/-- The edits of payloads that a write makes to a record with the version appended. -/
def writeEdits (ring : KeyRing) (path : String) (data : Bytes) (appended : KeyRecord) (kept : UInt64) : List Edit :=
  payloadEdit ring path appended.currentVersion (some data) :: (appended.fallen kept).map (eraseEdit ring path)

/-- The changes that a request can make: the edits of payloads, the edit that makes the change
    count, and the answer. -/
inductive Move (v : Vault) (now : Instant) (m : Memory) : (r : Request) → List Edit → Edit → r.Reply → Prop
  | policy {changes : PolicyChanges} {policy : Policy} (hp : (m.contents v.ring).policy v.defaults = .ok policy) :
    Move v now m (.writePolicy changes) [] (policyEdit (changes.apply policy)) (.accepted ())
  | erase {path : String} {record : KeyRecord} (hr : (m.contents v.ring).record v.ring path = .ok (some record)) :
    Move v now m (.deleteMetadata path) (record.versions.keys.map (eraseEdit v.ring path)) (dropEdit v.ring path) ()
  | write {path : String} {data : Bytes} {cas : Option UInt64} {policy : Policy} {before : KeyRecord}
    (hp : (m.contents v.ring).policy v.defaults = .ok policy) (hr : v.recordOrNewIn now m path = .ok before)
    (hkey : before.key = path) (hcas : casRejection? before policy cas = none) (hmore : ¬ before.Exhausted) :
    Move v now m (.writeData path data cas)
      (writeEdits v.ring path data (before.appended now) (keptOf policy before))
      (recordEdit v.ring (before.written now (keptOf policy before)))
      (.accepted ⟨before.currentVersion + 1, ({ createdTime := now } : VersionEntry).view⟩)
  | revise {r : Request} {path : String} {gone : List UInt64} {before after : KeyRecord} {a : r.Reply}
    (hpath : r.revised? = some path) (hr : v.recordOrNewIn now m path = .ok before) (hkey : before.key = path)
    (rev : KeyRecord.Revises gone before after) :
    Move v now m r (gone.map (eraseEdit v.ring path)) (recordEdit v.ring after) a

/-! ## Plans are moves -/

theorem move_of_planErase {path : String} {edits : List Edit} {commit : Edit} {a : Unit}
    (h : v.planErase m path = .ok (.change edits commit a)) : Move v now m (.deleteMetadata path) edits commit a := by
  obtain ⟨found, hf, h⟩ := Except.of_bind_eq_ok h
  cases found with
  | none => cases h
  | some record =>
    cases h
    exact .erase hf

theorem move_of_planWrite {path : String} {data : Bytes} {cas : Option UInt64} {edits : List Edit} {commit : Edit}
    {a : Outcome WrittenVersion} (h : v.planWrite now m path data cas = .ok (.change edits commit a)) :
    Move v now m (.writeData path data cas) edits commit a := by
  obtain ⟨policy, hp, h⟩ := Except.of_bind_eq_ok h
  obtain ⟨before, hr, h⟩ := Except.of_bind_eq_ok h
  split at h
  · cases h
  · rename_i hcas
    split at h
    · cases h
    · rename_i hmore
      cases h
      have hkey := key_of_recordOrNewIn hr
      have hmove : Move v now m (.writeData path data cas) _ _ _ := .write hp hr hkey hcas hmore
      rw [writeEdits, ← hkey] at hmove
      exact hkey ▸ hmove

/-- A plan that rewrites a record. -/
theorem move_of_rewriting {r : Request} {path : String} {edits : List Edit} {commit : Edit} {a : r.Reply}
    (hpath : r.revised? = some path) (h : v.plan now m r = .ok (.change edits commit a)) : Move v now m r edits commit a := by
  obtain ⟨before, gone, after, hr, hrewrites, rfl, rfl⟩ := rewriting_of_plan hpath h
  exact .revise hpath hr (key_of_recordOrNewIn hr) hrewrites.revises

/-- Every plan that changes something is a policy, an erase, a write or a revision. -/
theorem move_of_plan {r : Request} {edits : List Edit} {commit : Edit} {a : r.Reply}
    (h : v.plan now m r = .ok (.change edits commit a)) : Move v now m r edits commit a := by
  cases r with
  | writeMetadata path changes => exact move_of_rewriting rfl h
  | readMetadata path =>
    obtain ⟨_, _, h⟩ := Except.of_bind_eq_ok h
    cases h
  | listMetadata path =>
    obtain ⟨_, _, h⟩ := Except.of_bind_eq_ok h
    cases h
  | metadataExists path =>
    obtain ⟨_, _, h⟩ := Except.of_bind_eq_ok h
    cases h
  | deleteMetadata path => exact move_of_planErase h
  | writeData path data cas => exact move_of_planWrite h
  | readData path version => exact move_of_rewriting rfl h
  | deleteVersions path versions => exact move_of_rewriting rfl h
  | undeleteVersions path versions => exact move_of_rewriting rfl h
  | destroyVersions path versions => exact move_of_rewriting rfl h
  | readPolicy =>
    obtain ⟨_, _, h⟩ := Except.of_bind_eq_ok h
    cases h
  | writePolicy changes =>
    obtain ⟨policy, hp, h⟩ := Except.of_bind_eq_ok h
    cases h
    exact .policy hp

theorem Move.write_inv {path : String} {data : Bytes} {cas : Option UInt64} {edits : List Edit} {commit : Edit}
    {a : Outcome WrittenVersion} (h : Move v now m (.writeData path data cas) edits commit a) :
    ∃ policy before, (m.contents v.ring).policy v.defaults = .ok policy ∧ v.recordOrNewIn now m path = .ok before ∧
      before.key = path ∧ casRejection? before policy cas = none ∧ ¬ before.Exhausted ∧
      edits = writeEdits v.ring path data (before.appended now) (keptOf policy before) ∧
      commit = recordEdit v.ring (before.written now (keptOf policy before)) ∧
      a = .accepted ⟨before.currentVersion + 1, ({ createdTime := now } : VersionEntry).view⟩ := by
  cases h with
  | @write path data cas policy before hp hr hkey hcas hmore => exact ⟨policy, before, hp, hr, hkey, hcas, hmore, rfl, rfl, rfl⟩
  | revise hpath => cases hpath

/-- A write that is not rejected appends a version if there is a number for it. -/
theorem planWrite_of_accepted {path : String} {data : Bytes} {cas : Option UInt64} {policy : Policy} {before : KeyRecord}
    (hp : (m.contents v.ring).policy v.defaults = .ok policy) (hr : v.recordOrNewIn now m path = .ok before)
    (hcas : casRejection? before policy cas = none) (hmore : ¬ before.Exhausted) :
    v.planWrite now m path data cas = .ok (.change
      (writeEdits v.ring path data (before.appended now) (keptOf policy before))
      (recordEdit v.ring (before.written now (keptOf policy before)))
      (.accepted ⟨before.currentVersion + 1, ({ createdTime := now } : VersionEntry).view⟩)) := by
  simp only [planWrite, hp, hr, hcas, if_neg hmore, bind, Except.bind, KeyRecord.appended_key, key_of_recordOrNewIn hr]
  rfl

/-- If there is no number left nothing is changed. -/
theorem planWrite_of_exhausted {path : String} {data : Bytes} {cas : Option UInt64} {policy : Policy} {before : KeyRecord}
    (hp : (m.contents v.ring).policy v.defaults = .ok policy) (hr : v.recordOrNewIn now m path = .ok before)
    (hcas : casRejection? before policy cas = none) (hexhausted : before.Exhausted) :
    v.planWrite now m path data cas = .ok (.answer .overflowed) := by
  simp only [planWrite, hp, hr, hcas, if_pos hexhausted, bind, Except.bind]
  rfl

/-- A write that changes nothing is rejected, or there is no number left. -/
theorem answer_of_planWrite {path : String} {data : Bytes} {cas : Option UInt64} {a : Outcome WrittenVersion}
    (h : v.planWrite now m path data cas = .ok (.answer a)) :
    ∃ policy before, (m.contents v.ring).policy v.defaults = .ok policy ∧ v.recordOrNewIn now m path = .ok before ∧
      ((∃ reason, casRejection? before policy cas = some reason ∧ a = .rejected reason) ∨
        casRejection? before policy cas = none ∧ before.Exhausted ∧ a = .overflowed) := by
  obtain ⟨policy, hp, h⟩ := Except.of_bind_eq_ok h
  obtain ⟨before, hr, h⟩ := Except.of_bind_eq_ok h
  refine ⟨policy, before, hp, hr, ?_⟩
  split at h
  · rename_i reason hcas
    cases h
    exact .inl ⟨reason, hcas, rfl⟩
  · rename_i hcas
    split at h
    · rename_i hexhausted
      cases h
      exact .inr ⟨hcas, hexhausted, rfl⟩
    · cases h

/-! ## What moves edit -/

theorem key_of_erased {ring : KeyRing} {path : String} {gone : List UInt64} {e : Edit}
    (he : e ∈ gone.map (eraseEdit ring path)) : ∃ version, e.key = payloadAddress ring path version := by
  obtain ⟨version, _, rfl⟩ := List.mem_map.mp he
  exact ⟨version, rfl⟩

theorem key_of_writeEdits {ring : KeyRing} {path : String} {data : Bytes} {appended : KeyRecord} {kept : UInt64} {e : Edit}
    (he : e ∈ writeEdits ring path data appended kept) : ∃ version, e.key = payloadAddress ring path version := by
  rcases List.mem_cons.mp he with rfl | he
  · exact ⟨_, rfl⟩
  · exact key_of_erased he

theorem erased_isPayload (ring : KeyRing) (path : String) (gone : List UInt64) :
    ∀ e ∈ gone.map (eraseEdit ring path), IsPayload e.key := by
  intro e he
  obtain ⟨version, hkey⟩ := key_of_erased he
  rw [hkey]
  exact isPayload_payloadAddress ring path version

theorem writeEdits_isPayload (ring : KeyRing) (path : String) (data : Bytes) (appended : KeyRecord) (kept : UInt64) :
    ∀ e ∈ writeEdits ring path data appended kept, IsPayload e.key := by
  intro e he
  obtain ⟨version, hkey⟩ := key_of_writeEdits he
  rw [hkey]
  exact isPayload_payloadAddress ring path version

section Keys

variable {r : Request} {edits : List Edit} {commit : Edit} {a : r.Reply}

/-- The edits before the one that makes the change count are of payloads of the request's path. -/
theorem Move.edit_key (h : Move v now m r edits commit a) :
    ∀ e ∈ edits, ∃ path version, r.path? = some path ∧ e.key = payloadAddress v.ring path version := by
  cases h with
  | policy => exact fun e he => absurd he List.not_mem_nil
  | erase => exact fun e he => ⟨_, (key_of_erased he).imp fun version hkey => ⟨rfl, hkey⟩⟩
  | write => exact fun e he => ⟨_, (key_of_writeEdits he).imp fun version hkey => ⟨rfl, hkey⟩⟩
  | revise hpath =>
    exact fun e he => ⟨_, (key_of_erased he).imp fun version hkey => ⟨Request.path?_of_revised? hpath, hkey⟩⟩

/-- The edit that makes the change count is of the policy or of the record of the request's path. -/
theorem Move.commit_key (h : Move v now m r edits commit a) :
    commit.key = policyKey ∧ r.path? = none ∨ ∃ path, r.path? = some path ∧ commit.key = recordAddress v.ring path := by
  cases h with
  | policy => exact .inl ⟨rfl, rfl⟩
  | erase => exact .inr ⟨_, rfl, rfl⟩
  | @write path _ _ _ before _ _ hkey =>
    refine .inr ⟨path, rfl, ?_⟩
    rw [recordEdit_key, KeyRecord.written_key, hkey]
  | @revise _ path _ _ after _ hpath _ hkey rev =>
    refine .inr ⟨path, Request.path?_of_revised? hpath, ?_⟩
    rw [recordEdit_key, rev.key, hkey]

theorem Move.edit_isPayload (h : Move v now m r edits commit a) : ∀ e ∈ edits, IsPayload e.key := by
  intro e he
  obtain ⟨path, version, _, hkey⟩ := h.edit_key e he
  rw [hkey]
  exact isPayload_payloadAddress v.ring path version

end Keys

theorem prefix_of_split {edits done rest : List Edit} {commit next : Edit} (h : edits ++ [commit] = done ++ next :: rest) :
    ∃ rest', edits = done ++ rest' := by
  rcases List.append_eq_append_iff.mp h with ⟨more, hdone, hcommit⟩ | ⟨more, hedits, _⟩
  · cases more with
    | nil => exact ⟨[], by rw [hdone, List.append_nil, List.append_nil]⟩
    | cons first more => simp at hcommit
  · exact ⟨more, hedits⟩

/-- If the edit that failed is none of payloads, those were all made. -/
theorem done_of_split {edits done rest : List Edit} {commit next : Edit} (h : edits ++ [commit] = done ++ next :: rest)
    (hnext : next ∉ edits) : done = edits := by
  rcases List.append_eq_append_iff.mp h with ⟨more, hdone, hcommit⟩ | ⟨more, hedits, hrest⟩
  · cases more with
    | nil => rw [hdone, List.append_nil]
    | cons first more => simp at hcommit
  · cases more with
    | nil => rw [hedits, List.append_nil]
    | cons first more =>
      obtain ⟨rfl, _⟩ := List.cons.inj hrest
      exact absurd (hedits ▸ List.mem_append_right done List.mem_cons_self) hnext

/-- A request that failed has touched payloads only. -/
theorem Effect.frame_of_error {w : Weather} {r : Request} {e : Error} (h : Effect w v now m r (.error e) m') {key : String}
    (hkey : ¬ IsPayload key) : m'[key]? = m[key]? := by
  cases h with
  | unread => rfl
  | broken => rfl
  | interrupted plan split made _ =>
    obtain ⟨rest', rfl⟩ := prefix_of_split split
    refine made.frame ?_
    intro hmem
    obtain ⟨e, he, rfl⟩ := List.mem_map.mp hmem
    exact hkey ((move_of_plan plan).edit_isPayload e (List.mem_append_left _ he))

/-- A failed request leaves every record and the policy readable as before. -/
theorem Effect.views_of_error {e : Error} (h : Effect w v now m r (.error e) m') :
    (m'.contents v.ring).policy v.defaults = (m.contents v.ring).policy v.defaults ∧
      ∀ path, (m'.contents v.ring).record v.ring path = (m.contents v.ring).record v.ring path := by
  have hframe {key : String} (hkey : initial? key ≠ some 'v') : m'.contents v.ring key = m.contents v.ring key := by
    exact Memory.contents_congr (h.frame_of_error fun hp => hkey (initial?_of_isPayload hp))
  exact ⟨Contents.policy_congr (hframe (by simp)), fun path => Contents.record_congr (hframe (by simp))⟩

/-- What a request touches is record and payloads of its path, or the policy if it has none. -/
theorem Effect.touched {w : Weather} {r : Request} {reply : Except Error r.Reply} (h : Effect w v now m r reply m')
    {key : String} (hkey : m'[key]? ≠ m[key]?) : key = policyKey ∧ r.path? = none ∨ ∃ path, r.path? = some path ∧
      (key = recordAddress v.ring path ∨ ∃ version, key = payloadAddress v.ring path version) := by
  have hpayload {edits : List Edit} {commit : Edit} {a : r.Reply} (hmove : Move v now m r edits commit a)
      (hmem : key ∈ edits.map Edit.key) : ∃ path, r.path? = some path ∧
        (key = recordAddress v.ring path ∨ ∃ version, key = payloadAddress v.ring path version) := by
    obtain ⟨e, he, rfl⟩ := List.mem_map.mp hmem
    obtain ⟨path, version, hpath, hk⟩ := hmove.edit_key e he
    exact ⟨path, hpath, .inr ⟨version, hk⟩⟩
  cases h with
  | unread => exact absurd rfl hkey
  | broken => exact absurd rfl hkey
  | answered => exact absurd rfl hkey
  | interrupted plan split made _ =>
    obtain ⟨rest', rfl⟩ := prefix_of_split split
    refine .inr (hpayload (move_of_plan plan) ?_)
    rw [List.map_append]
    exact List.mem_append_left _ (Decidable.byContradiction fun hno => hkey (made.frame hno))
  | @changed edits commit _ _ _ plan made _ =>
    have hmove := move_of_plan plan
    by_cases hcommit : key = commit.key
    · rcases hmove.commit_key with ⟨hk, hnone⟩ | ⟨path, hpath, hk⟩
      · exact .inl ⟨hcommit.trans hk, hnone⟩
      · exact .inr ⟨path, hpath, .inl (hcommit.trans hk)⟩
    · rw [Memory.getElem?_after _ _ hcommit] at hkey
      exact .inr (hpayload hmove (Decidable.byContradiction fun hno => hkey (made.frame hno)))

/-- No request touches the salt or the check of the master key. -/
theorem Effect.frame_setUp {w : Weather} {r : Request} {reply : Except Error r.Reply} (h : Effect w v now m r reply m')
    {key : String} (hkey : key = KeyRing.saltKey ∨ key = KeyRing.checkKey) : m'[key]? = m[key]? := by
  refine Decidable.byContradiction ?_
  intro hne
  have htouched : initial? key = some 'c' ∨ initial? key = some 'm' ∨ initial? key = some 'v' := by
    rcases h.touched hne with ⟨rfl, _⟩ | ⟨path, _, rfl | ⟨version, rfl⟩⟩ <;> simp
  rcases hkey with rfl | rfl
  · simp at htouched
  · simp at htouched

/-- A listing touches nothing. -/
theorem Effect.unchanged_of_listing {w : Weather} {directory : String}
    {reply : Except Error (Request.listMetadata directory).Reply} (h : Effect w v now m (.listMetadata directory) reply m') :
    m' = m := by
  cases h with
  | unread => rfl
  | broken => rfl
  | answered => rfl
  | interrupted plan =>
    obtain ⟨_, _, plan⟩ := Except.of_bind_eq_ok plan
    cases plan
  | changed plan =>
    obtain ⟨_, _, plan⟩ := Except.of_bind_eq_ok plan
    cases plan

/-! ## What edits of payloads leave -/

section Payloads

variable {ring : KeyRing} {path other : String} {version : UInt64}

/-- Edits of payloads do not show elsewhere. -/
theorem edits_of_payloads {edits : List Edit} (h : ∀ e ∈ edits, IsPayload e.key) (c : Contents) {key : String}
    (hkey : initial? key ≠ some 'v') : c.edits edits key = c key := by
  refine Contents.edits_of_not_mem ?_
  intro hmem
  obtain ⟨e, he, rfl⟩ := List.mem_map.mp hmem
  exact hkey (initial?_of_isPayload (h e he))

/-- Erasing versions of a path erases the payloads of all paths with its identifier. -/
theorem payload_erased (c : Contents) (ring : KeyRing) (path other : String) (version : UInt64) (gone : List UInt64) :
    (c.edits (gone.map (eraseEdit ring path))).payload ring other version =
      if ring.identifier other = ring.identifier path ∧ version ∈ gone then .ok none
      else c.payload ring other version := by
  induction gone generalizing c with
  | nil => simp [Contents.edits]
  | cons first gone ih =>
    have hfirst : (c.edits ((first :: gone).map (eraseEdit ring path))).payload ring other version =
        ((c.edit (eraseEdit ring path first)).edits (gone.map (eraseEdit ring path))).payload ring other version := rfl
    rw [hfirst, ih]
    by_cases hgone : ring.identifier other = ring.identifier path ∧ version ∈ gone
    · rw [if_pos hgone, if_pos ⟨hgone.1, List.mem_cons_of_mem _ hgone.2⟩]
    · rw [if_neg hgone]
      by_cases hhere : ring.identifier other = ring.identifier path ∧ version = first
      · rw [if_pos ⟨hhere.1, hhere.2 ▸ List.mem_cons_self⟩]
        have haddress : payloadAddress ring other version = payloadAddress ring path first := payloadAddress_inj.mpr hhere
        rw [Contents.payload, haddress]
        exact Contents.payload_payloadEdit c path first none
      · have hno : ¬ (ring.identifier other = ring.identifier path ∧ version ∈ first :: gone) := by
          rintro ⟨hid, hmem⟩
          rcases List.mem_cons.mp hmem with rfl | hmem
          · exact hhere ⟨hid, rfl⟩
          · exact hgone ⟨hid, hmem⟩
        rw [if_neg hno]
        exact Contents.payload_edit_of_ne fun e => hhere (payloadAddress_inj.mp e)

/-- What is under the number of a version once data has been put under another, or its own. -/
theorem payload_put (c : Contents) (ring : KeyRing) (path other : String) (put version : UInt64) (data : Bytes) :
    (c.edit (payloadEdit ring path put (some data))).payload ring other version =
      if ring.identifier other = ring.identifier path ∧ version = put then .ok (some data)
      else c.payload ring other version := by
  by_cases h : ring.identifier other = ring.identifier path ∧ version = put
  · rw [if_pos h, Contents.payload, payloadAddress_inj.mpr h]
    exact Contents.payload_payloadEdit c path put (some data)
  · rw [if_neg h]
    exact Contents.payload_edit_of_ne fun e => h (payloadAddress_inj.mp e)

/-- What has been done of a list of erasures. -/
theorem prefix_of_erased {gone : List UInt64} {done rest : List Edit} (h : gone.map (eraseEdit ring path) = done ++ rest) :
    ∃ gone' gone'', gone = gone' ++ gone'' ∧ done = gone'.map (eraseEdit ring path) := by
  obtain ⟨gone', gone'', rfl, rfl, _⟩ := List.map_eq_append_iff.mp h
  exact ⟨gone', gone'', rfl, rfl⟩

/-- What has been done of the edits of a write. -/
theorem prefix_of_writeEdits {data : Bytes} {appended : KeyRecord} {kept : UInt64} {done rest : List Edit}
    (h : writeEdits ring path data appended kept = done ++ rest) :
    done = [] ∨ ∃ gone' gone'', appended.fallen kept = gone' ++ gone'' ∧
      done = payloadEdit ring path appended.currentVersion (some data) :: gone'.map (eraseEdit ring path) := by
  cases done with
  | nil => exact .inl rfl
  | cons first done =>
    rw [writeEdits, List.cons_append, List.cons.injEq] at h
    obtain ⟨gone', gone'', hgone, hdone⟩ := prefix_of_erased h.2
    exact .inr ⟨gone', gone'', hgone, by rw [← h.1, hdone]⟩

/-- What is under the number of a version once a write has put its data and erased these. -/
theorem payload_written (c : Contents) (ring : KeyRing) (path other : String) (put version : UInt64) (data : Bytes)
    (gone : List UInt64) :
    (c.edits (payloadEdit ring path put (some data) :: gone.map (eraseEdit ring path))).payload ring other version =
      if ring.identifier other = ring.identifier path then
        if version ∈ gone then .ok none
        else if version = put then .ok (some data)
        else c.payload ring other version
      else c.payload ring other version := by
  have hfirst : c.edits (payloadEdit ring path put (some data) :: gone.map (eraseEdit ring path)) =
      (c.edit (payloadEdit ring path put (some data))).edits (gone.map (eraseEdit ring path)) := rfl
  rw [hfirst, payload_erased, payload_put]
  by_cases hid : ring.identifier other = ring.identifier path
  · simp only [hid, true_and, if_true]
  · simp only [hid, false_and, if_false]

end Payloads

/-! ## What a change depends on -/

/-- The same records and the same policy make the same change. -/
theorem plan_congr {r : Request} {edits : List Edit} {commit : Edit} {a : r.Reply}
    (hp : (m'.contents v.ring).policy v.defaults = (m.contents v.ring).policy v.defaults)
    (hr : ∀ path, (m'.contents v.ring).record v.ring path = (m.contents v.ring).record v.ring path)
    (h : v.plan now m r = .ok (.change edits commit a)) : v.plan now m' r = .ok (.change edits commit a) := by
  cases r with
  | writeMetadata path changes =>
    rw [← h]
    simp only [plan, planMetadata, recordOrNewIn, hp, hr]
  | readMetadata path =>
    obtain ⟨_, _, h⟩ := Except.of_bind_eq_ok h
    cases h
  | listMetadata path =>
    obtain ⟨_, _, h⟩ := Except.of_bind_eq_ok h
    cases h
  | metadataExists path =>
    obtain ⟨_, _, h⟩ := Except.of_bind_eq_ok h
    cases h
  | deleteMetadata path =>
    rw [← h]
    simp only [plan, planErase, hr]
  | writeData path data cas =>
    rw [← h]
    simp only [plan, planWrite, recordOrNewIn, hp, hr]
  | readData path version =>
    obtain ⟨policy, hpol, h⟩ := Except.of_bind_eq_ok h
    obtain ⟨found, hf, h⟩ := Except.of_bind_eq_ok h
    simp only [plan, planRead, hp, hr, hpol, hf]
    cases found with
    | none => cases h
    | some record =>
      simp only at h
      split at h
      · cases h
      · rename_i entry hentry
        split at h
        · obtain ⟨shown, _, h⟩ := Except.of_bind_eq_ok h
          cases h
        · rename_i expiredAt hexpired
          rw [← h]
          simp only [bind, Except.bind, hentry, hexpired]
  | deleteVersions path versions =>
    rw [← h]
    simp only [plan, planDelete, hr]
  | undeleteVersions path versions =>
    rw [← h]
    simp only [plan, planUndelete, hr]
  | destroyVersions path versions =>
    rw [← h]
    simp only [plan, planDestroy, hr]
  | readPolicy =>
    obtain ⟨_, _, h⟩ := Except.of_bind_eq_ok h
    cases h
  | writePolicy changes =>
    rw [← h]
    simp only [plan, planPolicyChanges, hp]

end Vault

end Strongbox
