/-
  Strongbox.Proofs.Storage.Within — storage in files, for programs that do more than use files.

  A step on the store of a world does to the store what it would do alone, and steps one after the other
  are the steps of both. So a directory whose file system is lifted to worlds performs each call as one
  step on the store.

  Proved:
  - `within_eq`: a call of a directory over a lifted file system is the lifted call.
  - `ensureRoot_within`: so is opening the root.
-/

import Strongbox.Storage.Directory

namespace Strongbox

variable {σ α β : Type}

/-- A program over the store of a world is lifted step by step. -/
theorem World.onStore_bind {p : StateM σ α} {f : α → StateM σ β} {g : α → StateM (World σ) β} (h : ∀ a, g a = onStore (f a)) :
    onStore p >>= g = (onStore (p >>= f) : StateM (World σ) β) := by
  obtain rfl : g = fun a => onStore (f a) := funext h
  rfl

namespace FileSystem

variable (fs : FileSystem (StateM σ))

/-- Refused for a directory that is there is not refused. -/
theorem isDirectory_within (p : FilePath) (e : OsError) :
    ((fs.within World.onStore).isDirectory p >>= fun there => if there then pure (.ok ()) else pure (.error e)) =
      (World.onStore (fs.isDirectory p >>= fun there => if there then pure (.ok ()) else pure (.error e)) :
        StateM (World σ) (Except OsError Unit)) := by
  refine World.onStore_bind fun there => ?_
  cases there <;> rfl

theorem makeDirectories_within (depth : Nat) (p : FilePath) :
    (fs.within World.onStore).makeDirectories depth p = World.onStore (fs.makeDirectories depth p) := by
  induction depth generalizing p with
  | zero => rfl
  | succ depth ih =>
    unfold makeDirectories
    split
    · rfl
    · refine World.onStore_bind fun made => ?_
      cases made with
      | ok => rfl
      | error e =>
        cases e with
        | notFound =>
          dsimp only
          rw [ih]
          refine World.onStore_bind fun above => ?_
          cases above with
          | error e => rfl
          | ok =>
            refine World.onStore_bind fun again => ?_
            cases again with
            | ok => rfl
            | error e => exact fs.isDirectory_within p e
        | _ => exact fs.isDirectory_within p _

theorem ensureDirectory_within (p : FilePath) :
    (fs.within World.onStore).ensureDirectory p = World.onStore (fs.ensureDirectory p) :=
  fs.makeDirectories_within _ p

end FileSystem

namespace Directory

variable (fs : FileSystem (StateM σ)) (root : FilePath) (key : String)

theorem get_within : Directory.get (fs.within World.onStore) root key = World.onStore (Directory.get fs root key) := by
  refine World.onStore_bind fun read => ?_
  cases read with
  | ok value => rfl
  | error e => cases e <;> rfl

theorem makePrivate_within (directory : FilePath) :
    makePrivate (fs.within World.onStore) directory = World.onStore (makePrivate fs directory) := by
  unfold makePrivate
  rw [fs.ensureDirectory_within]
  refine World.onStore_bind fun made => ?_
  cases made <;> rfl

theorem makeWay_within (directory : FilePath) :
    makeWay (fs.within World.onStore) directory = World.onStore (makeWay fs directory) := by
  refine World.onStore_bind fun there => ?_
  cases there with
  | true => exact fs.ensureDirectory_within directory
  | false => exact makePrivate_within fs directory

theorem writeAtomic_within (value : Bytes) :
    writeAtomic (fs.within World.onStore) root key value = World.onStore (writeAtomic fs root key value) := by
  unfold writeAtomic
  dsimp only
  rw [makeWay_within]
  refine World.onStore_bind fun made => ?_
  cases made with
  | error e => rfl
  | ok =>
    refine World.onStore_bind fun written => ?_
    cases written with
    | error e => rfl
    | ok =>
      refine World.onStore_bind fun closed => ?_
      cases closed <;> rfl

theorem retried_within {p : StateM (World σ) (Except OsError Unit)} {q : StateM σ (Except OsError Unit)} (h : p = World.onStore q)
    (again : Nat) : retried p again = World.onStore (retried q again) := by
  subst h
  induction again with
  | zero => rfl
  | succ again ih =>
    refine World.onStore_bind fun result => ?_
    cases result with
    | ok => rfl
    | error e =>
      cases e with
      | notFound => exact ih
      | _ => rfl

theorem put_within (value : Bytes) :
    Directory.put (fs.within World.onStore) root key value = World.onStore (Directory.put fs root key value) :=
  retried_within (writeAtomic_within fs root key value) _

theorem prune_within (segments : List String) :
    Directory.prune (fs.within World.onStore) root segments = World.onStore (Directory.prune fs root segments) := by
  induction segments with
  | nil => rfl
  | cons segment above ih =>
    refine World.onStore_bind fun removed => ?_
    cases removed with
    | ok => exact ih
    | error e => rfl

theorem delete_within : Directory.delete (fs.within World.onStore) root key = World.onStore (Directory.delete fs root key) := by
  refine World.onStore_bind fun removed => ?_
  cases removed with
  | ok =>
    dsimp only
    rw [prune_within]
    rfl
  | error e => cases e <;> rfl

theorem list_within (segments : List String) :
    Directory.list (fs.within World.onStore) root segments = World.onStore (Directory.list fs root segments) := by
  refine World.onStore_bind fun entries => ?_
  cases entries with
  | ok entries => rfl
  | error e => cases e <;> rfl

theorem checked_within {p : StateM (World σ) (Except OsError α)} {q : StateM σ (Except OsError α)} (h : p = World.onStore q) :
    checked key p = World.onStore (checked key q) := by
  subst h
  unfold checked
  split <;> rfl

/-- A call over a lifted file system is the lifted call. -/
theorem within_eq (c : Call) : Directory.perform (fs.within World.onStore) root c = World.onStore (Directory.perform fs root c) := by
  cases c with
  | get key => exact checked_within key (get_within fs root key)
  | put key value => exact checked_within key (put_within fs root key value)
  | delete key => exact checked_within key (delete_within fs root key)
  | list directory =>
    by_cases hall : directory = ""
    · subst hall
      show Directory.list (fs.within World.onStore) root [] >>= _ = _
      rw [list_within]
      rfl
    · simp only [Directory.perform]
      exact checked_within _ (list_within fs root _)

theorem ensureRoot_within : Directory.ensureRoot (fs.within World.onStore) root = World.onStore (Directory.ensureRoot fs root) := by
  refine World.onStore_bind fun there => ?_
  cases there with
  | true => rfl
  | false => exact makePrivate_within fs root

end Directory

end Strongbox
