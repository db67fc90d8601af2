/-
  Strongbox.Proofs.Storage.Disk — where paths lead on a disk with links.

  Whether a link is followed is seen from the parts behind it, so a path put together is walked to the
  end of its first part, links at that end included, and then on. A walk only ever goes through
  directories and links. So it leads to the same place once more of them are there, as long as no
  link stands at its end; and once some are gone it leads there, or to where something is missing.

  Proved:
  - `node?_insert`, `node?_erase`, `children_eq_nil`: what is where after a change, and in a directory.
  - `walk_split`: a path put together, part by part.
  - `walk_follow`: following a link at the end only matters where there is one.
  - `walk_mono`, `walk_less`: where a path leads after a change.
  - `locate_names`: names lead to what they name where no link is on their way.
  - `change_located`, `…_eq_ok`: what an operation that is done came upon, and what it leaves.
  - `fileSystem_ofTree`: without links each operation does what it does on a tree.
-/

import Strongbox.Proofs.Storage.FileTree
import Strongbox.Storage.Disk

namespace Strongbox.Disk

variable {d d' : Disk} {path start target : List String} {follow : Bool} {links : Nat}

/-! ## Entries -/

theorem node?_of_ne_nil (hne : path ≠ []) : d.node? path = d[path]? := by
  cases path with
  | nil => exact absurd rfl hne
  | cons name rest => rfl

theorem node?_insert (d : Disk) (hne : path ≠ []) (entry : Entry) (other : List String) :
    node? (d.insert path entry) other = if other = path then some entry else d.node? other := by
  by_cases hnil : other = []
  · subst hnil
    rw [if_neg fun h => hne h.symm]
    rfl
  · rw [node?_of_ne_nil hnil, node?_of_ne_nil hnil, Std.ExtTreeMap.getElem?_insert]
    by_cases h : other = path
    · rw [if_pos h, if_pos (h ▸ Std.compare_self)]
    · rw [if_neg h, if_neg fun hc => h (Std.LawfulEqCmp.eq_of_compare hc).symm]

theorem node?_erase (d : Disk) (hne : path ≠ []) (other : List String) :
    node? (d.erase path) other = if other = path then none else d.node? other := by
  by_cases hnil : other = []
  · subst hnil
    rw [if_neg fun h => hne h.symm]
    rfl
  · rw [node?_of_ne_nil hnil, node?_of_ne_nil hnil, Std.ExtTreeMap.getElem?_erase]
    by_cases h : other = path
    · rw [if_pos h, if_pos (h ▸ Std.compare_self)]
    · rw [if_neg h, if_neg fun hc => h (Std.LawfulEqCmp.eq_of_compare hc).symm]

/-- There is a link at the path. -/
def IsLink (d : Disk) (path : List String) : Prop := ∃ target, d.node? path = some (.link target)

/-! ## Stretches -/

section Stretch

variable {part : String} {parts rest : List String} {stop : Stretch}

/-- A walk that goes on is in a directory. -/
theorem directory_of_stretch (h : d.stretch follow start (part :: rest) = .ok stop) : d.node? start = some .directory := by
  rw [stretch] at h
  cases hstart : d.node? start with
  | none =>
    rw [hstart] at h
    cases h
  | some entry =>
    rw [hstart] at h
    cases entry with
    | directory => rfl
    | file => cases h
    | link => cases h

/-- Where parts that name nothing lead does not depend on the disk. -/
theorem stretch_skip (hpart : ¬ KeyPath.isName part) (start : List String) : ∃ next, ∀ (d : Disk) (follow : Bool) (rest : List String),
    d.node? start = some .directory → d.stretch follow start (part :: rest) = d.stretch follow next rest := by
  by_cases hblank : part = "" ∨ part = "."
  · refine ⟨start, fun d follow rest hstart => ?_⟩
    rw [stretch, hstart]
    simp only [hblank, if_true]
  · obtain rfl : part = ".." := by
      rw [not_or] at hblank
      simpa [KeyPath.isName, hblank] using hpart
    refine ⟨start.dropLast, fun d follow rest hstart => ?_⟩
    rw [stretch, hstart]
    simp only [if_neg hblank, if_true]

section Name

variable (hstart : d.node? start = some .directory) (hname : KeyPath.isName part)

include hstart hname

theorem stretch_name : d.stretch follow start (part :: rest) =
    if FileTree.maxNameLength < part.utf8ByteSize then .error .nameTooLong
    else
      match d.node? (start ++ [part]) with
      | some (.link target) =>
        if follow ∨ rest ≠ [] then .ok (.diverted start target rest) else .ok (.arrived (start ++ [part]))
      | _ => d.stretch follow (start ++ [part]) rest := by
  simp only [KeyPath.isName, Bool.and_eq_true, decide_eq_true_eq, ne_eq] at hname
  have hblank : ¬ (part = "" ∨ part = ".") := not_or.mpr hname.1
  rw [stretch, hstart]
  exact (if_neg hblank).trans (if_neg hname.2)

theorem stretch_plain (hsize : part.utf8ByteSize ≤ FileTree.maxNameLength) (hno : ¬ d.IsLink (start ++ [part])) :
    d.stretch follow start (part :: rest) = d.stretch follow (start ++ [part]) rest := by
  rw [stretch_name hstart hname, if_neg (Nat.not_lt.mpr hsize)]
  cases hentry : d.node? (start ++ [part]) with
  | none => rfl
  | some entry =>
    cases entry with
    | link target => exact absurd ⟨target, hentry⟩ hno
    | _ => rfl

theorem stretch_link (hsize : part.utf8ByteSize ≤ FileTree.maxNameLength) {target : FilePath}
    (hlink : d.node? (start ++ [part]) = some (.link target)) : d.stretch follow start (part :: rest) =
      if follow ∨ rest ≠ [] then .ok (.diverted start target rest) else .ok (.arrived (start ++ [part])) := by
  rw [stretch_name hstart hname, if_neg (Nat.not_lt.mpr hsize), hlink]

theorem size_of_stretch (h : d.stretch follow start (part :: rest) = .ok stop) : part.utf8ByteSize ≤ FileTree.maxNameLength := by
  rw [stretch_name hstart hname] at h
  split at h
  · cases h
  · rename_i hsize
    exact Nat.not_lt.mp hsize

end Name

/-- A path put together is walked to the end of its first part, links there included, and then on. -/
theorem stretch_append (hrest : rest ≠ []) (start : List String) : d.stretch follow start (parts ++ rest) =
    match d.stretch true start parts with
    | .error e => .error e
    | .ok (.arrived mid) => d.stretch follow mid rest
    | .ok (.diverted directory target more) => .ok (.diverted directory target (more ++ rest)) := by
  induction parts generalizing start with
  | nil => rfl
  | cons part parts ih =>
    rw [List.cons_append]
    cases hstart : d.node? start with
    | none => simp only [stretch, hstart]
    | some entry =>
      cases entry with
      | file => simp only [stretch, hstart]
      | link => simp only [stretch, hstart]
      | directory =>
        by_cases hname : KeyPath.isName part
        · by_cases hsize : part.utf8ByteSize ≤ FileTree.maxNameLength
          · by_cases hlink : d.IsLink (start ++ [part])
            · obtain ⟨target, hlink⟩ := hlink
              rw [stretch_link hstart hname hsize hlink, stretch_link hstart hname hsize hlink,
                if_pos (.inr (List.append_ne_nil_of_right_ne_nil parts hrest)), if_pos (.inl rfl)]
            · rw [stretch_plain hstart hname hsize hlink, stretch_plain hstart hname hsize hlink, ih]
          · rw [stretch_name hstart hname, stretch_name hstart hname, if_pos (Nat.not_le.mp hsize), if_pos (Nat.not_le.mp hsize)]
        · obtain ⟨next, hnext⟩ := stretch_skip hname start
          rw [hnext d follow _ hstart, hnext d true _ hstart, ih]

/-- Whether a link at the end is followed only matters where there is one. -/
theorem stretch_follow (d : Disk) (start parts : List String) :
    (∃ path, d.stretch false start parts = .ok (.arrived path) ∧ d.IsLink path) ∨ d.stretch true start parts = d.stretch false start parts := by
  induction parts generalizing start with
  | nil => exact .inr rfl
  | cons part rest ih =>
    by_cases hstart : d.node? start = some .directory
    · by_cases hname : KeyPath.isName part
      · by_cases hsize : part.utf8ByteSize ≤ FileTree.maxNameLength
        · by_cases hlink : d.IsLink (start ++ [part])
          · obtain ⟨target, hentry⟩ := hlink
            simp only [stretch_link hstart hname hsize hentry]
            by_cases hrest : rest = []
            · exact .inl ⟨start ++ [part], by simp [hrest], target, hentry⟩
            · exact .inr (by simp [hrest])
          · simp only [stretch_plain hstart hname hsize hlink]
            exact ih _
        · refine .inr ?_
          rw [stretch_name hstart hname, stretch_name hstart hname, if_pos (Nat.not_le.mp hsize), if_pos (Nat.not_le.mp hsize)]
      · obtain ⟨next, hnext⟩ := stretch_skip hname start
        rw [hnext d _ _ hstart, hnext d _ _ hstart]
        exact ih next
    · refine .inr ?_
      have hstuck (follow : Bool) : ∃ e, d.stretch follow start (part :: rest) = .error e ∧ e = if d.node? start = none then .notFound else .notDirectory := by
        rw [stretch]
        cases hentry : d.node? start with
        | none => exact ⟨_, rfl, rfl⟩
        | some entry =>
          cases entry with
          | directory => exact absurd hentry hstart
          | _ => exact ⟨_, rfl, rfl⟩
      obtain ⟨_, htrue, rfl⟩ := hstuck true
      obtain ⟨_, hfalse, rfl⟩ := hstuck false
      rw [htrue, hfalse]

/-- A stretch goes the same way where all directories and links are still there, unless a link has
    come to stand at its end. -/
theorem stretch_mono (hkept : ∀ path entry, d.node? path = some entry → (∀ content, entry ≠ .file content) → d'.node? path = some entry)
    (h : d.stretch follow start parts = .ok stop) (hend : ∀ path, stop = .arrived path → d'.IsLink path → d.IsLink path) :
    d'.stretch follow start parts = .ok stop := by
  induction parts generalizing start with
  | nil => exact h
  | cons part rest ih =>
    have hstart := directory_of_stretch h
    have hstart' := hkept _ _ hstart nofun
    by_cases hname : KeyPath.isName part
    · have hsize := size_of_stretch hstart hname h
      by_cases hlink : d.IsLink (start ++ [part])
      · obtain ⟨target, hentry⟩ := hlink
        rwa [stretch_link hstart' hname hsize (hkept _ _ hentry nofun), ← stretch_link hstart hname hsize hentry]
      · rw [stretch_plain hstart hname hsize hlink] at h
        have hlink' : ¬ d'.IsLink (start ++ [part]) := by
          intro hlink'
          cases rest with
          | nil => exact hlink (hend _ (Except.ok.inj h).symm hlink')
          | cons next more =>
            obtain ⟨target, hentry⟩ := hlink'
            cases (hkept _ _ (directory_of_stretch h) nofun).symm.trans hentry
        rw [stretch_plain hstart' hname hsize hlink']
        exact ih h
    · obtain ⟨next, hnext⟩ := stretch_skip hname start
      rw [hnext d _ _ hstart] at h
      rw [hnext d' _ _ hstart']
      exact ih h

/-- Where something is gone, a stretch goes the same way or to where something is missing. -/
theorem stretch_less (hless : ∀ path entry, d'.node? path = some entry → d.node? path = some entry)
    (h : d.stretch false start parts = .ok stop) (hend : ∀ path, stop = .arrived path → d'.node? path = none) :
    d'.stretch true start parts = .error .notFound ∨
      (∃ path, d'.stretch true start parts = .ok (.arrived path) ∧ d'.node? path = none) ∨
      (∃ directory target rest, stop = .diverted directory target rest ∧ d'.stretch true start parts = .ok stop) := by
  induction parts generalizing start with
  | nil =>
    obtain rfl := Except.ok.inj h
    exact .inr (.inl ⟨start, rfl, hend _ rfl⟩)
  | cons part rest ih =>
    have hstart := directory_of_stretch h
    cases hstart' : d'.node? start with
    | none =>
      refine .inl ?_
      rw [stretch, hstart']
    | some entry =>
      obtain rfl := Option.some.inj ((hless _ _ hstart').symm.trans hstart)
      by_cases hname : KeyPath.isName part
      · have hsize := size_of_stretch hstart hname h
        by_cases hlink' : d'.IsLink (start ++ [part])
        · obtain ⟨target, hentry'⟩ := hlink'
          rw [stretch_link hstart hname hsize (hless _ _ hentry')] at h
          rw [stretch_link hstart' hname hsize hentry', if_pos (.inl rfl)]
          by_cases hrest : rest = []
          · rw [if_neg (by simp [hrest])] at h
            rw [hend _ (Except.ok.inj h).symm] at hentry'
            cases hentry'
          · rw [if_pos (.inr hrest)] at h
            exact .inr (.inr ⟨start, target, rest, (Except.ok.inj h).symm, h⟩)
        · rw [stretch_plain hstart' hname hsize hlink']
          by_cases hlink : d.IsLink (start ++ [part])
          · -- a link that is gone leaves nothing to go on with
            obtain ⟨target, hentry⟩ := hlink
            have hnone : d'.node? (start ++ [part]) = none := by
              cases hentry' : d'.node? (start ++ [part]) with
              | none => rfl
              | some entry =>
                obtain rfl := Option.some.inj ((hless _ _ hentry').symm.trans hentry)
                exact absurd ⟨target, hentry'⟩ hlink'
            cases rest with
            | nil => exact .inr (.inl ⟨_, rfl, hnone⟩)
            | cons next more =>
              refine .inl ?_
              rw [stretch, hnone]
          · rw [stretch_plain hstart hname hsize hlink] at h
            exact ih h
      · obtain ⟨next, hnext⟩ := stretch_skip hname start
        rw [hnext d _ _ hstart] at h
        rw [hnext d' _ _ hstart']
        exact ih h

/-- Names along which no link is to be followed lead to what they name, through directories. -/
theorem stretch_names {names : List String} (hnames : ∀ name ∈ names, KeyPath.isName name)
    (hdirect : ∀ upper, upper ≠ [] → upper <+: names → (upper = names → follow = true) → ¬ d.IsLink (start ++ upper))
    (h : d.stretch follow start names = .ok stop) :
    stop = .arrived (start ++ names) ∧ (∀ name ∈ names, name.utf8ByteSize ≤ FileTree.maxNameLength) ∧
      ∀ above, above <+: names → above ≠ names → d.node? (start ++ above) = some .directory := by
  induction names generalizing start with
  | nil =>
    refine ⟨by rw [List.append_nil]; exact (Except.ok.inj h).symm, nofun, fun above habove hne => ?_⟩
    exact absurd (List.prefix_nil.mp habove) hne
  | cons name rest ih =>
    have hstart := directory_of_stretch h
    have hname := hnames name List.mem_cons_self
    have hsize := size_of_stretch hstart hname h
    have hover : ∀ above, above <+: name :: rest → above = [] ∨ ∃ upper, above = name :: upper ∧ upper <+: rest := by
      intro above habove
      cases above with
      | nil => exact .inl rfl
      | cons first upper =>
        obtain ⟨rfl, hupper⟩ := List.cons_prefix_cons.mp habove
        exact .inr ⟨upper, rfl, hupper⟩
    by_cases hlink : d.IsLink (start ++ [name])
    · -- only the last name can be that of a link, and then it is not followed
      have hlast : rest = [] ∧ follow ≠ true := by
        refine Decidable.byContradiction fun hno => ?_
        refine hdirect [name] (by simp) (List.cons_prefix_cons.mpr ⟨rfl, List.nil_prefix⟩) (fun heq => ?_) hlink
        exact Decidable.byContradiction fun hfollow => hno ⟨(List.cons.inj heq).2.symm, hfollow⟩
      obtain ⟨rfl, hfollow⟩ := hlast
      obtain ⟨target, hentry⟩ := hlink
      rw [stretch_link hstart hname hsize hentry, if_neg (by simp [hfollow])] at h
      refine ⟨(Except.ok.inj h).symm, ?_, fun above habove hne => ?_⟩
      · intro other hother
        rw [List.mem_singleton.mp hother]
        exact hsize
      · rcases hover above habove with rfl | ⟨upper, rfl, hupper⟩
        · rwa [List.append_nil]
        · rw [List.prefix_nil.mp hupper] at hne
          exact absurd rfl hne
    · rw [stretch_plain hstart hname hsize hlink] at h
      obtain ⟨hstop, hsizes, hdirectories⟩ := ih (fun other hother => hnames other (List.mem_cons_of_mem name hother))
        (fun upper _ hupper hend => by
          rw [List.append_assoc]
          exact hdirect (name :: upper) (List.cons_ne_nil _ _) (List.cons_prefix_cons.mpr ⟨rfl, hupper⟩)
            fun heq => hend (List.cons.inj heq).2) h
      rw [List.append_assoc] at hstop
      refine ⟨hstop, ?_, fun above habove hne => ?_⟩
      · intro other hother
        rcases List.mem_cons.mp hother with rfl | hother
        · exact hsize
        · exact hsizes other hother
      · rcases hover above habove with rfl | ⟨upper, rfl, hupper⟩
        · rwa [List.append_nil]
        · have hdirectory := hdirectories upper hupper fun heq => hne (heq ▸ rfl)
          rwa [List.append_assoc] at hdirectory

end Stretch

/-! ## Walks -/

section Walk

variable {parts rest : List String} {directory : List String} {link : FilePath}

theorem walk_of_error {e : OsError} (h : d.stretch follow start parts = .error e) : d.walk follow links start parts = .error e := by
  rw [walk, h]

theorem walk_of_arrived (h : d.stretch follow start parts = .ok (.arrived path)) : d.walk follow links start parts = .ok path := by
  rw [walk, h]

theorem walk_of_exhausted (h : d.stretch follow start parts = .ok (.diverted directory link rest)) :
    d.walk follow 0 start parts = .error tooManyLinks := by
  rw [walk, h]

theorem walk_of_diverted (h : d.stretch follow start parts = .ok (.diverted directory link rest)) :
    d.walk follow (links + 1) start parts = d.walk follow links (if link.absolute then [] else directory) (link.parts ++ rest) := by
  rw [walk, h]

/-- A path put together leads to the end of its first part, and from there on. -/
theorem walk_split (hrest : rest ≠ []) (h : d.walk follow links start (parts ++ rest) = .ok target) :
    ∃ mid left, d.walk true links start parts = .ok mid ∧ d.walk follow left mid rest = .ok target := by
  have happend : d.stretch follow start (parts ++ rest) = _ := stretch_append hrest start
  induction links, start, parts using walk.induct d true with
  | case1 links start parts e hstop =>
    rw [hstop] at happend
    cases (walk_of_error happend).symm.trans h
  | case2 links start parts mid hstop =>
    rw [hstop] at happend
    refine ⟨mid, links, walk_of_arrived hstop, ?_⟩
    rw [walk] at h ⊢
    rwa [happend] at h
  | case3 start parts directory link more hstop =>
    rw [hstop] at happend
    cases (walk_of_exhausted happend).symm.trans h
  | case4 start parts directory link more hstop links ih =>
    rw [hstop] at happend
    rw [walk_of_diverted happend, ← List.append_assoc] at h
    obtain ⟨mid, left, hmid, htarget⟩ := ih h (stretch_append hrest _)
    exact ⟨mid, left, (walk_of_diverted hstop).trans hmid, htarget⟩

/-- Empty parts lead nowhere else. -/
theorem walk_blanks {n : Nat} (h : d.walk follow links start (List.replicate n "") = .ok target) : target = start := by
  induction n with
  | zero => exact (Except.ok.inj ((walk_of_arrived rfl).symm.trans h)).symm
  | succ n ih =>
    refine ih ?_
    rw [walk] at h ⊢
    have hstretch : ∀ stop, d.stretch follow start (List.replicate (n + 1) "") = .ok stop →
        d.stretch follow start (List.replicate n "") = .ok stop := by
      intro stop hstop
      have hstart := directory_of_stretch hstop
      rw [List.replicate_succ, stretch, hstart] at hstop
      simpa using hstop
    cases hstop : d.stretch follow start (List.replicate (n + 1) "") with
    | error e =>
      rw [hstop] at h
      cases h
    | ok stop =>
      rw [hstop] at h
      rw [hstretch stop hstop]
      exact h

/-- Where a path leads does not depend on whether a link at its end is followed, unless there is one. -/
theorem walk_follow (d : Disk) (links : Nat) (start parts : List String) :
    (∃ path, d.walk false links start parts = .ok path ∧ d.IsLink path) ∨
      d.walk true links start parts = d.walk false links start parts := by
  induction links, start, parts using walk.induct d false with
  | case1 links start parts e hstop =>
    rcases stretch_follow d start parts with ⟨path, hpath, _⟩ | hsame
    · cases hstop.symm.trans hpath
    · exact .inr ((walk_of_error (hsame.trans hstop)).trans (walk_of_error hstop).symm)
  | case2 links start parts mid hstop =>
    rcases stretch_follow d start parts with ⟨path, hpath, hlink⟩ | hsame
    · exact .inl ⟨path, walk_of_arrived hpath, hlink⟩
    · exact .inr ((walk_of_arrived (hsame.trans hstop)).trans (walk_of_arrived hstop).symm)
  | case3 start parts directory link more hstop =>
    rcases stretch_follow d start parts with ⟨path, hpath, _⟩ | hsame
    · cases hstop.symm.trans hpath
    · exact .inr ((walk_of_exhausted (hsame.trans hstop)).trans (walk_of_exhausted hstop).symm)
  | case4 start parts directory link more hstop links ih =>
    rcases stretch_follow d start parts with ⟨path, hpath, _⟩ | hsame
    · cases hstop.symm.trans hpath
    · rw [walk_of_diverted hstop, walk_of_diverted (hsame.trans hstop)]
      exact ih

/-- A path leads to the same place where all directories and links are still there, unless a link has
    come to stand at that place. -/
theorem walk_mono (hkept : ∀ path entry, d.node? path = some entry → (∀ content, entry ≠ .file content) → d'.node? path = some entry)
    (h : d.walk follow links start parts = .ok target) (hend : d'.IsLink target → d.IsLink target) :
    d'.walk follow links start parts = .ok target := by
  induction links, start, parts using walk.induct d follow with
  | case1 links start parts e hstop => cases (walk_of_error hstop).symm.trans h
  | case2 links start parts mid hstop =>
    obtain rfl := Except.ok.inj ((walk_of_arrived hstop).symm.trans h)
    refine walk_of_arrived (stretch_mono hkept hstop ?_)
    rintro _ ⟨⟩
    exact hend
  | case3 start parts directory link more hstop => cases (walk_of_exhausted hstop).symm.trans h
  | case4 start parts directory link more hstop links ih =>
    rw [walk_of_diverted hstop] at h
    rw [walk_of_diverted (stretch_mono hkept hstop (by rintro _ ⟨⟩))]
    exact ih h

/-- Where something is gone, and with it what a path leads to, the path leads to where something is
    missing. -/
theorem walk_less (hless : ∀ path entry, d'.node? path = some entry → d.node? path = some entry)
    (h : d.walk false links start parts = .ok target) (hgone : d'.node? target = none) :
    d'.walk true links start parts = .error .notFound ∨
      ∃ path, d'.walk true links start parts = .ok path ∧ d'.node? path = none := by
  induction links, start, parts using walk.induct d false with
  | case1 links start parts e hstop => cases (walk_of_error hstop).symm.trans h
  | case2 links start parts mid hstop =>
    obtain rfl := Except.ok.inj ((walk_of_arrived hstop).symm.trans h)
    rcases stretch_less hless hstop (by rintro _ ⟨⟩; exact hgone) with hmissing | ⟨path, hpath, hnone⟩ | ⟨_, _, _, heq, _⟩
    · exact .inl (walk_of_error hmissing)
    · exact .inr ⟨path, walk_of_arrived hpath, hnone⟩
    · cases heq
  | case3 start parts directory link more hstop => cases (walk_of_exhausted hstop).symm.trans h
  | case4 start parts directory link more hstop links ih =>
    rcases stretch_less hless hstop (by rintro _ ⟨⟩) with hmissing | ⟨path, hpath, hnone⟩ | ⟨_, _, _, _, hsame⟩
    · exact .inl (walk_of_error hmissing)
    · exact .inr ⟨path, walk_of_arrived hpath, hnone⟩
    · rw [walk_of_diverted hstop] at h
      rw [walk_of_diverted hsame]
      exact ih h

end Walk

/-! ## Paths -/

section Locate

variable {here base parts way : List String} {root p : FilePath}

theorem locate_eq_ok (h : d.locate here follow p = .ok target) : p.isEmpty = false ∧
    d.walk follow maxLinks (if p.absolute then [] else here) p.parts = .ok target := by
  unfold locate at h
  split at h
  · cases h
  · split at h
    · cases h
    · rename_i hne
      split at h
      · cases h
      · exact ⟨by simpa using hne, h⟩

/-- What a path needs besides places to lead to does not depend on the disk. -/
theorem locate_eq_walk (h : d.locate here follow p = .ok target) (d' : Disk) (follow' : Bool) :
    d'.locate here follow' p = d'.walk follow' maxLinks (if p.absolute then [] else here) p.parts := by
  unfold locate at h ⊢
  split at h
  · cases h
  · rename_i hnul
    rw [if_neg hnul]
    split at h
    · cases h
    · rename_i hpath
      rw [if_neg hpath]
      split at h
      · cases h
      · rename_i hsize
        rw [if_neg hsize]

theorem locate_follow (d : Disk) (here : List String) (p : FilePath) :
    (∃ path, d.locate here false p = .ok path ∧ d.IsLink path) ∨ d.locate here true p = d.locate here false p := by
  unfold locate
  split
  · exact .inr rfl
  · split
    · exact .inr rfl
    · split
      · exact .inr rfl
      · exact walk_follow d _ _ _

theorem locate_mono (hkept : ∀ path entry, d.node? path = some entry → (∀ content, entry ≠ .file content) → d'.node? path = some entry)
    (h : d.locate here follow p = .ok target) (hend : d'.IsLink target → d.IsLink target) : d'.locate here follow p = .ok target := by
  rw [locate_eq_walk h]
  exact walk_mono hkept (locate_eq_ok h).2 hend

theorem locate_less (hless : ∀ path entry, d'.node? path = some entry → d.node? path = some entry)
    (h : d.locate here false p = .ok target) (hgone : d'.node? target = none) :
    d'.locate here true p = .error .notFound ∨ ∃ path, d'.locate here true p = .ok path ∧ d'.node? path = none := by
  rw [locate_eq_walk h]
  exact walk_less hless (locate_eq_ok h).2 hgone

/-- Empty parts at the end of a path can be left out. -/
theorem walk_trimmed (h : d.walk true links start root.parts = .ok base) : d.walk true links start root.trimmedParts = .ok base := by
  obtain ⟨n, hn⟩ := root.exists_trimmed
  cases n with
  | zero =>
    rw [List.replicate_zero, List.append_nil] at hn
    rwa [← hn]
  | succ n =>
    rw [hn] at h
    obtain ⟨mid, left, hmid, hblanks⟩ := walk_split (by simp) h
    rw [walk_blanks hblanks, hmid]

/-- A walk that goes on from a place goes on from a directory. -/
theorem directory_of_walk (hway : way ≠ []) (h : d.walk follow links start way = .ok target) : d.node? start = some .directory := by
  cases way with
  | nil => exact absurd rfl hway
  | cons part rest =>
    cases hstop : d.stretch follow start (part :: rest) with
    | error e => cases (walk_of_error hstop).symm.trans h
    | ok stop => exact directory_of_stretch hstop

/-- Names below a path that lead somewhere, though something may have been removed, lead to what they
    name if no link is on their way. -/
theorem locate_names (hroot : d.locate here true root = .ok base)
    (hless : ∀ path entry, d'.node? path = some entry → d.node? path = some entry) (hway : way ≠ [])
    (hnames : ∀ part ∈ way, KeyPath.isName part)
    (hdirect : ∀ upper, upper ≠ [] → upper <+: way → (upper = way → follow = true) → ¬ d'.IsLink (base ++ upper))
    (h : d'.locate here follow (root.append way) = .ok target) :
    target = base ++ way ∧ ∀ above, above <+: way → above ≠ way → d'.node? (base ++ above) = some .directory := by
  obtain ⟨mid, left, hmid, hrest⟩ := walk_split hway (locate_eq_ok h).2
  have hdirectory := directory_of_walk hway hrest
  have hback : d.walk true maxLinks (if root.absolute then [] else here) root.trimmedParts = .ok mid := by
    refine walk_mono (fun path entry hentry _ => hless path entry hentry) hmid ?_
    rintro ⟨link, hlink⟩
    cases (hless _ _ hdirectory).symm.trans hlink
  obtain rfl := Except.ok.inj ((walk_trimmed (locate_eq_ok hroot).2).symm.trans hback)
  cases hstop : d'.stretch follow base way with
  | error e => cases (walk_of_error hstop).symm.trans hrest
  | ok stop =>
    obtain ⟨rfl, -, hdirectories⟩ := stretch_names hnames hdirect hstop
    exact ⟨(Except.ok.inj ((walk_of_arrived hstop).symm.trans hrest)).symm, hdirectories⟩

/-- On the way to a place that is there, something is at every point. -/
theorem node?_of_prefix (hroot : d.locate here true root = .ok base) (hbase : d.node? base = some .directory)
    (hparts : parts <+: root.parts) (h : d.locate here false ⟨root.absolute, parts⟩ = .ok target) : d.node? target ≠ none := by
  obtain ⟨more, hmore⟩ := hparts
  have hwalk := (locate_eq_ok hroot).2
  rw [← hmore] at hwalk
  have hmid : ∃ mid, d.walk true maxLinks (if root.absolute then [] else here) parts = .ok mid ∧ d.node? mid = some .directory := by
    by_cases hnil : more = []
    · rw [hnil, List.append_nil] at hwalk
      exact ⟨base, hwalk, hbase⟩
    · obtain ⟨mid, left, hmid, hrest⟩ := walk_split hnil hwalk
      exact ⟨mid, hmid, directory_of_walk hnil hrest⟩
  obtain ⟨mid, hmid, hdirectory⟩ := hmid
  rcases walk_follow d maxLinks (if root.absolute then [] else here) parts with ⟨path, hpath, link, hlink⟩ | hsame
  · obtain rfl := Except.ok.inj (hpath.symm.trans (locate_eq_ok h).2)
    rw [hlink]
    exact Option.some_ne_none _
  · obtain rfl := Except.ok.inj ((hmid.symm.trans hsame).trans (locate_eq_ok h).2)
    rw [hdirectory]
    exact Option.some_ne_none _

end Locate

/-! ## Operations -/

section Operations

variable {here : List String}

/-- A change at the end of a path is done, or it leaves the disk as it was. -/
theorem change_located (f : Disk → List String → Except OsError Disk) (follow : Bool) (p : FilePath) (d : Disk) :
    (∃ e, (d.locate here follow p >>= f d) = .error e ∧ change (fun d => d.locate here follow p >>= f d) d = (.error e, d)) ∨
      ∃ target d', d.locate here follow p = .ok target ∧ f d target = .ok d' ∧
        change (fun d => d.locate here follow p >>= f d) d = (.ok (), d') := by
  rw [change]
  cases hlocated : d.locate here follow p with
  | error e => exact .inl ⟨e, rfl, rfl⟩
  | ok target =>
    show (∃ e, f d target = .error e ∧ _ = _) ∨ ∃ target' d', _ = _ ∧ f d target' = .ok d' ∧ _ = _
    cases hresult : f d target with
    | error e => exact .inl ⟨e, rfl, by simp [bind, Except.bind, hresult]⟩
    | ok d' => exact .inr ⟨target, d', rfl, hresult, by simp [bind, Except.bind, hresult]⟩

/-- What is missing cannot be read. -/
theorem read_of_missing (h : d.node? path = none) : d.read path = .error .notFound := by rw [read, h]

theorem makeDirectory_eq_ok (h : d.makeDirectory path = .ok d') :
    d.node? path = none ∧ d' = d.insert path .directory := by
  rw [makeDirectory] at h
  split at h
  · cases h
  · rename_i hnone
    exact ⟨hnone, (Except.ok.inj h).symm⟩

theorem write_eq_ok {content : Bytes} (h : d.write path content = .ok d') :
    d.node? path ≠ some .directory ∧ d' = d.insert path (.file content) := by
  rw [write] at h
  split at h
  · cases h
  · rename_i hdirectory
    exact ⟨hdirectory, (Except.ok.inj h).symm⟩

theorem rename_eq_ok {source : List String} (h : d.rename source target = .ok d') :
    ∃ entry, d.node? source = some entry ∧ d.node? target ≠ some .directory ∧
      d' = Std.ExtTreeMap.insert (d.erase source) target entry := by
  rw [rename] at h
  split at h
  · cases h
  · cases h
  · rename_i entry _ hentry
    split at h
    · cases h
    · rename_i hdirectory
      exact ⟨entry, hentry, hdirectory, (Except.ok.inj h).symm⟩

theorem removeFile_eq_ok (h : d.removeFile path = .ok d') :
    (∃ entry, d.node? path = some entry ∧ entry ≠ .directory) ∧ d' = d.erase path := by
  rw [removeFile] at h
  split at h
  · cases h
  · cases h
  · rename_i entry hdirectory hentry
    exact ⟨⟨entry, hentry, hdirectory⟩, (Except.ok.inj h).symm⟩

theorem removeDirectory_eq_ok (h : d.removeDirectory path = .ok d') :
    d.node? path = some .directory ∧ d.children path = [] ∧ d' = d.erase path := by
  rw [removeDirectory] at h
  split at h
  · cases h
  · rename_i hdirectory
    split at h
    · cases h
    · rename_i hfull
      rw [not_or, Decidable.not_not] at hfull
      exact ⟨hdirectory, hfull.2, (Except.ok.inj h).symm⟩
  · cases h

end Operations

/-! ## Trees -/

section Tree

variable {t : FileTree} {here : List String}

def ofNode : Node → Entry
  | .directory => .directory
  | .file content => .file content

/-- A tree as a disk without links. -/
def ofTree (t : FileTree) : Disk := t.map fun _ node => ofNode node

theorem node?_ofTree (t : FileTree) (path : List String) : (ofTree t).node? path = (t.node? path).map ofNode := by
  cases path with
  | nil => rfl
  | cons name rest => exact Std.ExtTreeMap.getElem?_map

theorem ofTree_insert (t : FileTree) (path : List String) (node : Node) : ofTree (t.insert path node) = (ofTree t).insert path (ofNode node) := by
  refine Std.ExtTreeMap.ext_getElem? fun other => ?_
  rw [ofTree, ofTree, Std.ExtTreeMap.getElem?_map, Std.ExtTreeMap.getElem?_insert, Std.ExtTreeMap.getElem?_insert, Std.ExtTreeMap.getElem?_map]
  split <;> rfl

theorem ofTree_erase (t : FileTree) (path : List String) : ofTree (t.erase path) = (ofTree t).erase path := by
  refine Std.ExtTreeMap.ext_getElem? fun other => ?_
  rw [ofTree, ofTree, Std.ExtTreeMap.getElem?_map, Std.ExtTreeMap.getElem?_erase, Std.ExtTreeMap.getElem?_erase, Std.ExtTreeMap.getElem?_map]
  split <;> rfl

theorem children_ofTree (t : FileTree) (path : List String) : (ofTree t).children path = t.children path := by
  rw [children, ofTree, Std.ExtTreeMap.toList_map, List.filterMap_map, FileTree.children]
  refine congrArg (t.toList.filterMap ·) (funext fun entry => ?_)
  rcases entry with ⟨below, _ | _⟩ <;> rfl

theorem stretch_ofTree (t : FileTree) (start parts : List String) :
    (ofTree t).stretch follow start parts = (t.walk start parts).map .arrived := by
  induction parts generalizing start with
  | nil => rfl
  | cons part rest ih =>
    have hnext : ∀ path, (match (ofTree t).node? path with
        | some (.link target) =>
          if follow ∨ rest ≠ [] then .ok (.diverted start target rest) else .ok (.arrived path)
        | _ => (ofTree t).stretch follow path rest) = (ofTree t).stretch follow path rest := by
      intro path
      rw [node?_ofTree]
      rcases t.node? path with _ | _ | _ <;> rfl
    rw [stretch, FileTree.walk, node?_ofTree]
    rcases t.node? start with _ | _ | content
    · rfl
    · simp only [Option.map_some, ofNode]
      split
      · exact ih _
      · split
        · exact ih _
        · split
          · rfl
          · exact (hnext _).trans (ih _)
    · rfl

theorem locate_ofTree (t : FileTree) (here : List String) (p : FilePath) : (ofTree t).locate here follow p = t.locate here p := by
  unfold locate FileTree.locate
  rw [walk, stretch_ofTree]
  cases t.walk (if p.absolute then [] else here) p.parts <;> rfl

/-- A program on a disk does on one without links what another does on the tree. -/
def Mirrors {α : Type} (p : StateM Disk α) (q : StateM FileTree α) : Prop := ∀ t, p (ofTree t) = ((q t).1, ofTree (q t).2)

theorem mirrors_change {f : Disk → Except OsError Disk} {g : FileTree → Except OsError FileTree}
    (h : ∀ t, f (ofTree t) = (g t).map ofTree) : Mirrors (change f) (FileTree.change g) := by
  intro t
  rw [change, FileTree.change, h]
  cases g t <;> rfl

/-- What a path leads to is there on the disk exactly as on the tree. -/
theorem located_ofTree (t : FileTree) (here : List String) (p : FilePath) :
    ((ofTree t).locate here true p).toOption.bind (ofTree t).node? = ((t.locate here p).toOption.bind t.node?).map ofNode := by
  rw [locate_ofTree]
  cases t.locate here p with
  | error e => rfl
  | ok path => exact node?_ofTree t path

/-- What is found out where a path leads. -/
theorem asked_ofTree {α : Type} {f : Disk → List String → Except OsError α} {g : FileTree → List String → Except OsError α}
    (hfg : ∀ t path, f (ofTree t) path = g t path) (t : FileTree) (here : List String) (p : FilePath) :
    ((ofTree t).locate here true p >>= f (ofTree t)) = (t.locate here p >>= g t) := by
  rw [locate_ofTree]
  cases t.locate here p with
  | error e => rfl
  | ok path => exact hfg t path

/-- What is changed where a path leads. -/
theorem mirrors_changed {f : Disk → List String → Except OsError Disk} {g : FileTree → List String → Except OsError FileTree}
    (hfg : ∀ t path, f (ofTree t) path = (g t path).map ofTree) (here : List String) (follow : Bool) (p : FilePath) :
    Mirrors (change fun d => d.locate here follow p >>= f d) (FileTree.change fun t => t.locate here p >>= g t) := by
  refine mirrors_change fun t => ?_
  rw [locate_ofTree]
  cases t.locate here p with
  | error e => rfl
  | ok path => exact hfg t path

theorem makeDirectory_ofTree (t : FileTree) (path : List String) : (ofTree t).makeDirectory path = (t.makeDirectory path).map ofTree := by
  rw [makeDirectory, FileTree.makeDirectory, node?_ofTree]
  rcases t.node? path with _ | _
  · exact congrArg Except.ok (ofTree_insert t path .directory).symm
  · rfl

theorem write_ofTree (t : FileTree) (path : List String) (content : Bytes) :
    (ofTree t).write path content = (t.write path content).map ofTree := by
  rw [write, FileTree.write, node?_ofTree]
  rcases t.node? path with _ | _ | _
  · exact congrArg Except.ok (ofTree_insert t path (.file content)).symm
  · rfl
  · exact congrArg Except.ok (ofTree_insert t path (.file content)).symm

theorem rename_ofTree (t : FileTree) (source target : List String) :
    (ofTree t).rename source target = (t.rename source target).map ofTree := by
  rw [rename, FileTree.rename, node?_ofTree, node?_ofTree]
  have hmoved (content : Bytes) : ((ofTree t).erase source).insert target (.file content) =
      ofTree ((t.erase source).insert target (.file content)) := by
    rw [ofTree_insert, ofTree_erase]
    rfl
  rcases t.node? source with _ | _ | content
  · rfl
  · rfl
  · rcases t.node? target with _ | _ | _
    · exact congrArg Except.ok (hmoved content)
    · rfl
    · exact congrArg Except.ok (hmoved content)

theorem removeFile_ofTree (t : FileTree) (path : List String) : (ofTree t).removeFile path = (t.removeFile path).map ofTree := by
  rw [removeFile, FileTree.removeFile, node?_ofTree]
  rcases t.node? path with _ | _ | _
  · rfl
  · rfl
  · exact congrArg Except.ok (ofTree_erase t path).symm

theorem removeDirectory_ofTree (t : FileTree) (path : List String) :
    (ofTree t).removeDirectory path = (t.removeDirectory path).map ofTree := by
  rw [removeDirectory, FileTree.removeDirectory, node?_ofTree, children_ofTree]
  rcases t.node? path with _ | _ | _
  · rfl
  · simp only [Option.map_some, ofNode]
    split
    · rfl
    · exact congrArg Except.ok (ofTree_erase t path).symm
  · rfl

/-- Each operation of a disk does without links what it does on a tree. -/
theorem fileSystem_ofTree (here : List String) :
    let disk := fileSystem here
    let tree := FileTree.fileSystem here
    (∀ p, Mirrors (disk.present p) (tree.present p)) ∧ (∀ p, Mirrors (disk.isDirectory p) (tree.isDirectory p)) ∧
      (∀ p, Mirrors (disk.makeDirectory p) (tree.makeDirectory p)) ∧ (∀ p, Mirrors (disk.read p) (tree.read p)) ∧
      (∀ p content, Mirrors (disk.write p content) (tree.write p content)) ∧
      (∀ directory p, Mirrors (disk.protect directory p) (tree.protect directory p)) ∧
      (∀ source target, Mirrors (disk.rename source target) (tree.rename source target)) ∧
      (∀ p, Mirrors (disk.removeFile p) (tree.removeFile p)) ∧ (∀ p, Mirrors (disk.removeDirectory p) (tree.removeDirectory p)) ∧
      ∀ p, Mirrors (disk.entries p) (tree.entries p) := by
  refine ⟨fun p t => ?_, fun p t => ?_, fun p => mirrors_changed makeDirectory_ofTree here false _, fun p t => ?_,
    fun p content => mirrors_changed (fun t path => write_ofTree t path content) here true p, fun directory p t => ?_, fun source target => ?_,
    fun p => mirrors_changed removeFile_ofTree here false p, fun p => mirrors_changed removeDirectory_ofTree here false p, fun p t => ?_⟩
  · refine Prod.ext ?_ rfl
    show Option.isSome _ = Option.isSome _
    rw [located_ofTree, Option.isSome_map]
  · refine Prod.ext ?_ rfl
    show decide (_ = _) = decide (_ = _)
    rw [located_ofTree]
    rcases (t.locate here p).toOption.bind t.node? with _ | _ | _ <;> rfl
  · refine Prod.ext (asked_ofTree (fun t path => ?_) t here p) rfl
    rw [read, FileTree.read, node?_ofTree]
    rcases t.node? path with _ | _ | _ <;> rfl
  · refine Prod.ext (asked_ofTree (fun t path => ?_) t here p) rfl
    rw [found, FileTree.found, node?_ofTree, Option.isSome_map]
  · refine mirrors_change fun t => ?_
    simp only [locate_ofTree]
    cases t.locate here source with
    | error e => rfl
    | ok path =>
      cases t.locate here target with
      | error e => rfl
      | ok path' => exact rename_ofTree t path path'
  · refine Prod.ext (asked_ofTree (fun t path => ?_) t here p) rfl
    rw [entries, FileTree.entries, node?_ofTree, children_ofTree]
    rcases t.node? path with _ | _ | _ <;> rfl

end Tree

end Strongbox.Disk
