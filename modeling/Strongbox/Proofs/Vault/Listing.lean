/-
  Strongbox.Proofs.Vault.Listing — a listing names what exists.

  The keys below `metadata/` are the hidden paths of the records there are. A listing cuts the
  hidden keys below a hidden directory, reveals what it finds and sorts it; as hiding goes by
  segments, that is the listing of the paths themselves.

  Proved:
  - `namesIn_ok`: a listing holds the first names of the paths below the directory that have a record.
  - `listing_agrees`: after every run a listing succeeds and names, in order, exactly what exists.
-/

import Strongbox.Proofs.Storage.Children
import Strongbox.Proofs.Vault.Erase
import Strongbox.Proofs.Vault.Succession

namespace Strongbox

open Time (Instant)
open KeyRing (saltKey checkKey)
open Vault (recordAddress)

/-! ## Directories -/

section Directories

variable {path relative segment : String}

/-- A listing addresses everything, or what is below some path. -/
theorem directory_cases (path : String) : Sealed.directory path = "" ∨ ∃ above, Sealed.directory path = above ++ "/" := by
  unfold Sealed.directory
  split
  · rename_i h
    rcases h with rfl | hlast
    · exact .inl rfl
    · obtain ⟨above, habove⟩ := List.getLast?_eq_some_iff.mp hlast
      refine .inr ⟨.ofList above, ?_⟩
      apply String.toList_injective
      rw [habove]
      simp
  · exact .inr ⟨path, rfl⟩

/-- The segments of what follows a directory are segments of the whole. -/
theorem mem_segments_below (h : segment ∈ KeyPath.segments relative) :
    segment ∈ KeyPath.segments (Sealed.directory path ++ relative) := by
  rcases directory_cases path with hdir | ⟨above, hdir⟩
  · rwa [hdir, String.empty_append]
  · rw [hdir, KeyRing.segments_append]
    exact List.mem_append_right _ h

/-- What follows a directory in a path that can name a key is not empty and begins with no slash. -/
theorem FirstName.ne_of_valid {name : String} (hvalid : KeyPath.fault? (Sealed.directory path ++ relative) = none)
    (h : FirstName relative name) : name ≠ "/" := by
  intro hname
  refine KeyPath.not_mem_of_valid hvalid (mem_segments_below ?_)
  cases h with
  | leaf _ hflat =>
    rw [hname] at hflat
    simp at hflat
  | @directory first _ rest =>
    obtain rfl : first = "" := by
      have hlength := congrArg String.length hname
      simpa using hlength
    rw [KeyRing.segments_append]
    exact List.mem_append_left _ (by decide)

theorem hidePath_below (ring : KeyRing) (path relative : String) :
    ring.hidePath (Sealed.directory path ++ relative) = ring.hidePath (Sealed.directory path) ++ ring.hidePath relative :=
  (ring.hidePath_eq_append_iff (directory_cases path)).mpr ⟨relative, rfl, rfl⟩

end Directories

/-! ## What a listing names -/

/-- Where nothing fails, what is gathered is what each element gives. -/
theorem mapM_ok {α β ε : Type} {f : α → Except ε β} {as : List α} (h : ∀ a ∈ as, ∃ b, f a = .ok b) :
    ∃ bs, as.mapM f = .ok bs ∧ ∀ b, b ∈ bs ↔ ∃ a ∈ as, f a = .ok b := by
  induction as with
  | nil => exact ⟨[], rfl, by simp⟩
  | cons a as ih =>
    obtain ⟨b, hb⟩ := h a List.mem_cons_self
    obtain ⟨bs, hbs, hmem⟩ := ih fun a' ha' => h a' (List.mem_cons_of_mem a ha')
    refine ⟨b :: bs, by rw [List.mapM_cons, hb, hbs]; rfl, ?_⟩
    intro b'
    rw [List.mem_cons, hmem]
    constructor
    · rintro (rfl | ⟨a', ha', hf⟩)
      · exact ⟨a, List.mem_cons_self, hb⟩
      · exact ⟨a', List.mem_cons_of_mem a ha', hf⟩
    · rintro ⟨a', ha', hf⟩
      rcases List.mem_cons.mp ha' with rfl | ha'
      · exact .inl (Except.ok.inj (hf.symm.trans hb))
      · exact .inr ⟨a', ha', hf⟩

namespace Vault

/-- Only paths that can name a key have records. -/
def ValidRecords (ring : KeyRing) (m : Memory) : Prop := ∀ key : String, m[key]? ≠ none → initial? key = some 'm' →
  ∃ path, KeyPath.fault? path = none ∧ key = recordAddress ring path

variable {ring : KeyRing} {m : Memory} {hidden : String}

/-- What is found below a hidden directory: the first names of paths that have a record, hidden. -/
theorem mem_children_iff (hvalid : ValidRecords ring m) (path : String) :
    hidden ∈ childNames ((records ring).physicalKey (Sealed.directory path)) m.keys ↔
      ∃ relative name, m[recordAddress ring (Sealed.directory path ++ relative)]? ≠ none ∧ FirstName relative name ∧
        name ≠ "/" ∧ hidden = ring.hidePath name := by
  have haddress : (records ring).physicalKey (Sealed.directory path) = "metadata/" ++ ring.hidePath (Sealed.directory path) :=
    recordAddress_eq ring _
  have hbelow (relative : String) : recordAddress ring (Sealed.directory path ++ relative) =
      (records ring).physicalKey (Sealed.directory path) ++ ring.hidePath relative := by
    rw [haddress, recordAddress_eq, hidePath_below, String.append_assoc]
  have hstored {key : String} : key ∈ m.keys ↔ m[key]? ≠ none := by
    rw [Std.ExtTreeMap.mem_keys, ← Std.ExtTreeMap.isSome_getElem?_iff_mem, Option.isSome_iff_ne_none]
  rw [mem_childNames]
  constructor
  · rintro ⟨rest, hkey, hfirst⟩
    have hinitial : initial? ((records ring).physicalKey (Sealed.directory path) ++ rest) = some 'm' := by
      rw [haddress, String.append_assoc, initial?, String.toList_append]
      rfl
    obtain ⟨key, hkeyvalid, hp⟩ := hvalid _ (hstored.mp hkey) hinitial
    rw [haddress, recordAddress_eq, String.append_assoc] at hp
    obtain ⟨relative, rfl, rfl⟩ := (ring.hidePath_eq_append_iff (directory_cases _)).mp ((String.append_right_inj _).mp hp).symm
    obtain ⟨name, hname, rfl⟩ := firstName_hidePath.mp hfirst
    rw [← hbelow] at hkey
    exact ⟨relative, name, hstored.mp hkey, hname, hname.ne_of_valid hkeyvalid, rfl⟩
  · rintro ⟨relative, name, hkey, hfirst, _, rfl⟩
    refine ⟨ring.hidePath relative, ?_, firstName_hidePath.mpr ⟨name, hfirst, rfl⟩⟩
    rw [← hbelow]
    exact hstored.mpr hkey

/-- A listing holds the first names of the paths below the directory that have a record, each
    once and in order. -/
theorem namesIn_ok {v : Vault} (hvalid : ValidRecords v.ring m) (path : String) :
    ∃ names, v.namesIn m path = .ok names ∧ names.Pairwise (· < ·) ∧ ∀ name, name ∈ names ↔
      ∃ relative, m[recordAddress v.ring (Sealed.directory path ++ relative)]? ≠ none ∧ FirstName relative name := by
  have hreveal {relative name : String} (hfirst : FirstName relative name) (hslash : name ≠ "/") :
      (records v.ring).revealChild (v.ring.hidePath name) = .ok name := revealChild_hidePath hfirst hslash
  have hall : ∀ hidden ∈ childNames ((records v.ring).physicalKey (Sealed.directory path)) m.keys,
      ∃ name, (records v.ring).revealChild hidden = .ok name := by
    intro hidden hh
    obtain ⟨relative, name, _, hfirst, hslash, rfl⟩ := (mem_children_iff hvalid path).mp hh
    exact ⟨name, hreveal hfirst hslash⟩
  obtain ⟨names, hnames, hmem⟩ := mapM_ok hall
  refine ⟨sortedNames names, ?_, sortedNames_pairwise names, ?_⟩
  · rw [namesIn, hnames]
    rfl
  · intro name
    rw [mem_sortedNames, hmem]
    constructor
    · rintro ⟨hidden, hh, hname⟩
      obtain ⟨relative, first, hkey, hfirst, hslash, rfl⟩ := (mem_children_iff hvalid path).mp hh
      cases (hreveal hfirst hslash).symm.trans hname
      exact ⟨relative, hkey, hfirst⟩
    · rintro ⟨relative, hkey, hfirst⟩
      obtain ⟨p, hpvalid, hp⟩ := hvalid _ hkey (initial?_recordAddress _ _)
      rw [← recordAddress_inj.mp hp] at hpvalid
      have hslash := hfirst.ne_of_valid hpvalid
      exact ⟨_, (mem_children_iff hvalid path).mpr ⟨relative, name, hkey, hfirst, hslash, rfl⟩, hreveal hfirst hslash⟩

end Vault

/-! ## What exists -/

namespace Session

variable {master : MasterKey} {log : List Event} {s : Session} {path : String}

/-- There is a record of the path. -/
def HasRecord (s : Session) (path : String) : Prop := ∃ record, s.contents.record s.ring path = .ok (some record)

theorem hasRecord_iff (h : Runs master log s) : s.HasRecord path ↔ s.memory[recordAddress s.ring path]? ≠ none := by
  constructor
  · rintro ⟨record, hr⟩
    exact Contents.stored_of_record hr
  · intro hstored
    obtain ⟨found, hr, _⟩ := h.recorded (I := fun _ _ => True) (h.valid_of_stored hstored) trivial (fun _ _ _ _ _ _ => trivial)
    cases found with
    | none => exact absurd (Contents.record_eq_none.mp hr) hstored
    | some record => exact ⟨record, hr⟩

/-- A path with a record can name a key. -/
theorem HasRecord.valid (h : Runs master log s) (hr : s.HasRecord path) : KeyPath.fault? path = none :=
  h.valid_of_stored ((hasRecord_iff h).mp hr)

/-- After every run a listing succeeds, and names what follows the directory in the paths that
    have a record. -/
theorem names_of_listing (h : Runs master log s) (now : Instant) (directory : String) :
    ∃ names, (s.ask Faults.none now (.listMetadata directory)).1 = .ok names ∧ names.Pairwise (· < ·) ∧
      ∀ name, name ∈ names ↔ ∃ relative, s.HasRecord (Sealed.directory directory ++ relative) ∧ FirstName relative name := by
  have ha := asked_ask h.kept Faults.none now (.listMetadata directory)
  generalize (s.ask Faults.none now (.listMetadata directory)).1 = answer,
    (s.ask Faults.none now (.listMetadata directory)).2 = s' at ha ⊢
  cases ha with
  | immediate hi => cases hi
  | shut _ _ fails _ => exact (Faults.weather_none fails).elim
  | @performed m reply world _ begun _ effect =>
    have hvalid : Vault.ValidRecords (m.ring s.store.master) m := by
      intro key hkey hinitial
      rw [begun.frame (by simp [hinitial]) (by simp [hinitial])] at hkey
      have hsalt : s.memory[saltKey]? ≠ none := fun hnone => hkey (h.kept.memory.blank hnone key)
      rw [Memory.ring_congr (begun.salt hsalt)]
      have hform := h.forms hkey
      cases hform with
      | salt => simp at hinitial
      | check => simp at hinitial
      | policy => simp at hinitial
      | record hpath => exact ⟨_, valid_of_mem_pathsIn hpath, rfl⟩
      | payload => simp at hinitial
    obtain ⟨names, hnames, hsorted, hmem⟩ :=
      Vault.namesIn_ok (v := ⟨m.ring s.store.master, s.store.defaults⟩) hvalid directory
    refine ⟨names, ?_, hsorted, ?_⟩
    · have hreply := congrArg Prod.fst effect.eq_outcome
      rw [Vault.outcome, Vault.plan, hnames] at hreply
      exact hreply
    · intro name
      rw [hmem]
      refine exists_congr fun relative => and_congr ?_ Iff.rfl
      have hviews := (views_of_begun h.kept begun).1 (Sealed.directory directory ++ relative)
      rw [hasRecord_iff h, ne_eq, ne_eq, ← Contents.record_eq_none, hviews]
      exact not_congr Contents.record_eq_none

/-- A request about another path leaves the record. -/
theorem hasRecord_of_ne {f : Faults} {now : Instant} {r : Request} {other : String} (h : s.Kept master)
    (hother : r.path? = some other) (hne : path ≠ other) : (s.ask f now r).2.HasRecord path ↔ s.HasRecord path := by
  have ha := asked_ask h f now r
  generalize (s.ask f now r).1 = answer, (s.ask f now r).2 = s' at ha ⊢
  cases ha with
  | immediate => exact Iff.rfl
  | shut _ begun _ _ =>
    refine exists_congr fun record => ?_
    rw [← (views_of_begun h begun).1 path]
    exact Iff.rfl
  | @performed m reply world _ begun _ effect =>
    have hsame : world.store[recordAddress (m.ring s.store.master) path]? = m[recordAddress (m.ring s.store.master) path]? := by
      refine Decidable.byContradiction fun htouched => ?_
      rcases effect.touched htouched with ⟨hpolicy, _⟩ | ⟨path', hpath', hrecord | ⟨version, hpayload⟩⟩
      · exact Vault.ne_of_initial? (by simp) hpolicy
      · rw [hother, Option.some.injEq] at hpath'
        exact hne ((Vault.recordAddress_inj.mp hrecord).trans hpath'.symm)
      · exact Vault.ne_of_initial? (by simp) hpayload
    have hring : world.store.ring s.store.master = m.ring s.store.master := Memory.ring_congr (effect.frame_setUp (.inl rfl))
    refine exists_congr fun record => ?_
    rw [← (views_of_begun h begun).1 path, contents, ring, memory, hring, Contents.record_congr (Memory.contents_congr hsame)]

/-- An erasure that succeeds takes away the record of its path and no other. -/
theorem hasRecord_erased {f : Faults} {now : Instant} {gone : String} (h : Runs master log s)
    (hok : (s.ask f now (.deleteMetadata gone)).1 = .ok ()) :
    (s.ask f now (.deleteMetadata gone)).2.HasRecord path ↔ s.HasRecord path ∧ path ≠ gone := by
  by_cases hpath : path = gone
  · subst hpath
    refine iff_of_false ?_ fun h => h.2 rfl
    rw [hasRecord_iff (h.ask f now _)]
    exact not_not_intro (erased_of_ask h hok).1
  · rw [hasRecord_of_ne h.kept rfl hpath]
    exact (and_iff_left hpath).symm

/-- The first name of what follows a directory, with the path that it stands for. -/
theorem named_iff (h : Runs master log s) (directory name : String) :
    (∃ relative, s.HasRecord (Sealed.directory directory ++ relative) ∧ FirstName relative name) ↔
      ('/' ∉ name.toList ∧ s.HasRecord (Sealed.directory directory ++ name)) ∨
        ∃ c path, name = c ++ "/" ∧ c ≠ "" ∧ '/' ∉ c.toList ∧ s.HasRecord path ∧
          (Sealed.directory directory ++ c ++ "/").toList <+: path.toList := by
  constructor
  · rintro ⟨relative, hr, hfirst⟩
    have hslash := hfirst.ne_of_valid (hr.valid h)
    cases hfirst with
    | leaf _ hflat => exact .inl ⟨hflat, hr⟩
    | @directory c hflat rest =>
      refine .inr ⟨c, _, rfl, ?_, hflat, hr, ?_⟩
      · rintro rfl
        exact hslash rfl
      · exact ⟨rest.toList, by simp⟩
  · rintro (⟨hflat, hr⟩ | ⟨c, path, rfl, _, hflat, hr, rest, hrest⟩)
    · refine ⟨name, hr, .leaf ?_ hflat⟩
      rintro rfl
      exact KeyPath.not_mem_of_valid (hr.valid h) (mem_segments_below (by decide))
    · obtain rfl : Sealed.directory directory ++ (c ++ "/" ++ .ofList rest) = path := by
        apply String.toList_injective
        rw [← hrest]
        simp
      exact ⟨_, hr, .directory hflat _⟩

/-- After every run a listing succeeds and names, in the order of the bytes, exactly what exists
    below the directory: keys with a record by their last segment, and with a slash the segments
    that lead further down. A key that is both is named twice, and an erased key no more, while all
    other names stay. -/
theorem listing_agrees (h : Runs master log s) (p : String) (now : Instant) :
    let base := if p = "" ∨ p.toList.getLast? = some '/' then p else p ++ "/"
    ∃ names, (s.ask Faults.none now (.listMetadata p)).1 = .ok names ∧
      names.Pairwise (fun a b => Bytes.utf8 a < Bytes.utf8 b) ∧
      (∀ name, name ∈ names ↔ ('/' ∉ name.toList ∧ s.HasRecord (base ++ name)) ∨
        ∃ c path, name = c ++ "/" ∧ c ≠ "" ∧ '/' ∉ c.toList ∧ s.HasRecord path ∧ (base ++ c ++ "/").toList <+: path.toList) ∧
      (∀ c path, '/' ∉ c.toList → s.HasRecord (base ++ c) → s.HasRecord path → (base ++ c ++ "/").toList <+: path.toList →
        c ∈ names ∧ c ++ "/" ∈ names) ∧
      ∀ f erased c, '/' ∉ c.toList → (s.ask f erased (.deleteMetadata (base ++ c))).1 = .ok () →
        ∃ left, ((s.ask f erased (.deleteMetadata (base ++ c))).2.ask Faults.none now (.listMetadata p)).1 = .ok left ∧
          ∀ name, name ∈ left ↔ name ∈ names ∧ name ≠ c := by
  intro base
  replace hbase : base = Sealed.directory p := rfl
  rw [hbase]
  obtain ⟨names, hnames, hsorted, hmem⟩ := names_of_listing h now p
  have hiff (name : String) := (hmem name).trans (named_iff h p name)
  refine ⟨names, hnames, hsorted.imp Bytes.utf8_lt, hiff, ?_, ?_⟩
  · intro c path hflat hc hpath hbelow
    have hne : c ≠ "" := by
      rintro rfl
      exact KeyPath.not_mem_of_valid (hc.valid h) (mem_segments_below (by decide))
    exact ⟨(hiff c).mpr (.inl ⟨hflat, hc⟩), (hiff (c ++ "/")).mpr (.inr ⟨c, path, rfl, hne, hflat, hpath, hbelow⟩)⟩
  · intro f erased c hflat hok
    obtain ⟨left, hleft, _, hmem'⟩ := names_of_listing (h.ask f erased (.deleteMetadata (Sealed.directory p ++ c))) now p
    refine ⟨left, hleft, ?_⟩
    intro name
    rw [hmem', hmem]
    -- a path below the directory is the erased one exactly if its first name is the one erased
    have hgone {relative : String} (hfirst : FirstName relative name) :
        Sealed.directory p ++ relative ≠ Sealed.directory p ++ c ↔ name ≠ c := by
      rw [ne_eq, String.append_right_inj]
      cases hfirst with
      | leaf => exact Iff.rfl
      | directory _ rest =>
        refine iff_of_true ?_ ?_
        all_goals
          rintro rfl
          simp at hflat
    constructor
    · rintro ⟨relative, hr, hfirst⟩
      obtain ⟨hr, hne⟩ := (hasRecord_erased h hok).mp hr
      exact ⟨⟨relative, hr, hfirst⟩, (hgone hfirst).mp hne⟩
    · rintro ⟨⟨relative, hr, hfirst⟩, hne⟩
      exact ⟨relative, (hasRecord_erased h hok).mpr ⟨hr, (hgone hfirst).mpr hne⟩, hfirst⟩

/-- After a first write there is no other record. -/
theorem eq_of_hasRecord_written {master : MasterKey} {entropy : Entropy} {written path : String} {data : Bytes} {cas : Option UInt64}
    (h : (Session.written master entropy written data cas).HasRecord path) : path = written := by
  refine Decidable.byContradiction fun hne => ?_
  have hother : (Request.writeData written data cas).path? = some written := rfl
  obtain ⟨record, hr⟩ := (hasRecord_of_ne (runs_opened master {} entropy).kept hother hne).mp h
  cases (record_opened master {} entropy path).symm.trans hr

/-- A key and a key below it are written: the upper one is listed in both forms. -/
theorem listing_agrees_parent :
    let below := written ⟨.tabulate 32 fun _ => 7⟩ ⟨fun _ => 0, 0⟩ "a/b" [98] none
    let s := (below.ask Faults.none .epoch (.writeData "a" [97] none)).2
    s.HasRecord "a" ∧ s.HasRecord "a/b" ∧
      ∃ names, (s.ask Faults.none .epoch (.listMetadata "")).1 = .ok names ∧ "a" ∈ names ∧ "a/" ∈ names := by
  have hcas (path : String) : Vault.casRejection? (KeyRecord.new path .epoch) {} none = none := rfl
  have hnone : ¬ (written ⟨.tabulate 32 fun _ => 7⟩ ⟨fun _ => 0, 0⟩ "a/b" [98] none).HasRecord "a" :=
    fun h => absurd (eq_of_hasRecord_written h) (by decide)
  obtain ⟨hruns, hset, hshown⟩ := runs_written ⟨.tabulate 32 fun _ => 7⟩ ⟨fun _ => 0, 0⟩ [98]
    (show KeyPath.fault? "a/b" = none by decide) (hcas "a/b")
  generalize written ⟨.tabulate 32 fun _ => 7⟩ ⟨fun _ => 0, 0⟩ "a/b" [98] none = below at *
  intro _ s
  have hnew : below.vault.recordOrNewIn .epoch below.memory "a" = .ok (KeyRecord.new "a" .epoch) := by
    rw [hasRecord_iff hruns, ne_eq, Decidable.not_not] at hnone
    exact Vault.recordOrNewIn_of_none (Contents.record_eq_none.mpr hnone)
  have habove : s.HasRecord "a" :=
    ⟨_, (shown_of_write hruns.kept hset (by decide) [97] none hshown.policy_eq hnew (hcas "a") (KeyRecord.not_exhausted_new _ _) rfl).record_eq⟩
  have hbelow : s.HasRecord "a/b" := (hasRecord_of_ne hruns.kept rfl (by decide)).mpr ⟨_, hshown.record_eq⟩
  obtain ⟨names, hnames, _, _, hboth, _⟩ :=
    listing_agrees (hruns.ask Faults.none .epoch (.writeData "a" [97] none)) "" .epoch
  obtain ⟨ha, hslash⟩ := hboth "a" "a/b" (by decide) habove hbelow (by decide)
  exact ⟨habove, hbelow, names, hnames, ha, hslash⟩

end Session

end Strongbox
