import Mathlib
import DLSM.Compaction.Input
import DLSM.Lib.SelectionSort

/-! The version set of `db/version_set.cc`: a `Version` holds the files of each level and
`in_progress`, the files of each level that are under compaction; `VersionSet::LogAndApply`
builds the next version from the current one and a `VersionEdit` with
`VersionSet::Builder::Apply` and `SaveTo`, and then computes the compaction scores with
`VersionSet::Finalize`.  `UnderCompaction` is a flag of the shared file object, so it is kept
once for the whole version set, as the set of the identities, number and creator node, of the
files that carry it.  The scores are `double`s in the source and rationals here. -/

namespace DLSM

variable {K V : Type} [LinearOrder K]

/-- `config::kNumLevels`. -/
def kNumLevels : Nat := 6

/-- `config::kL0_CompactionTrigger`. -/
def kL0CompactionTrigger : Nat := 1

/-- `config::max_mega_bytes_for_level_base`. -/
def maxMegaBytesForLevelBase : Nat := 256

/-- The number and the creator node of a file, which name it in `RemoveFile` and `MaybeAddFile`. -/
def RemoteMemTableMetaData.fileId (f : RemoteMemTableMetaData K V) : Nat × Nat :=
  (f.number, f.creatorNodeId)

/-- `VersionEdit`: the files it removes, as `(level, number, node id)`, and the files it adds,
with their levels. -/
structure VersionEdit (K V : Type) where
  deletedFiles : List (Nat × Nat × Nat)
  newFiles : List (Nat × RemoteMemTableMetaData K V)
  deriving DecidableEq, Repr

/-- `Version`: `levels_` and `in_progress`, one list for each of the `kNumLevels` levels. -/
structure Version (K V : Type) where
  levels : List (List (RemoteMemTableMetaData K V))
  inProgress : List (List (RemoteMemTableMetaData K V))
  deriving DecidableEq, Repr

/-- The version the version set starts from, with no file. -/
def Version.empty : Version K V :=
  ⟨List.replicate kNumLevels [], List.replicate kNumLevels []⟩

/-- `levels_[level]`. -/
def Version.files (v : Version K V) (level : Nat) : List (RemoteMemTableMetaData K V) :=
  v.levels.getD level []

/-- `BySmallestKey`: by smallest key, ties broken by file number. -/
def bySmallestKey (f1 f2 : RemoteMemTableMetaData K V) : Bool :=
  decide (f1.smallest < f2.smallest ∨ (f1.smallest = f2.smallest ∧ f1.number < f2.number))

/-- `FileSet::insert` on the set of added files, ordered by `BySmallestKey`: a file equal under
the order to one already there is not added. -/
def insertAdded (f : RemoteMemTableMetaData K V) :
    List (RemoteMemTableMetaData K V) → List (RemoteMemTableMetaData K V)
  | [] => [f]
  | g :: gs =>
    if bySmallestKey f g then f :: g :: gs
    else if bySmallestKey g f then g :: insertAdded f gs
    else g :: gs

/-- The builder's state for one level: `deleted_files`, as `(number, node id)` pairs, and
`added_files`. -/
structure LevelState (K V : Type) where
  deletedFiles : List (Nat × Nat)
  addedFiles : List (RemoteMemTableMetaData K V)
  deriving DecidableEq, Repr

/-- `Builder::Apply`: the deletions first, then each new file, which takes its number off the
level's deletions (the source erases while it iterates over the matching range; all matching
entries go here) and joins the level's added files. -/
def builderApply (edit : VersionEdit K V) : List (LevelState K V) :=
  (List.range kNumLevels).map fun level =>
    let deleted := (edit.deletedFiles.filter fun d => d.1 = level).map (·.2)
    edit.newFiles.foldl (fun (st : LevelState K V) (l, f) =>
        if l = level then ⟨st.deletedFiles.filter (· ≠ f.fileId), insertAdded f st.addedFiles⟩
        else st)
      ⟨deleted, []⟩

/-- `Builder::MaybeAddFile` over a run of files: those not deleted go to the level, and those of
them with `UnderCompaction` set also to `in_progress`. -/
def maybeAddFiles (deleted : List (Nat × Nat)) (underCompaction : List (Nat × Nat))
    (fs : List (RemoteMemTableMetaData K V)) :
    List (RemoteMemTableMetaData K V) × List (RemoteMemTableMetaData K V) :=
  let kept := fs.filter fun f => !deleted.contains f.fileId
  (kept, kept.filter fun f => underCompaction.contains f.fileId)

/-- `Builder::SaveTo` for one level: each added file in order clears its `UnderCompaction` and
comes after the base files not above it (`std::upper_bound`); the remaining base files follow.
It returns the level's files, its `in_progress` and the flags after it. -/
def saveLevel (deleted : List (Nat × Nat)) :
    List (Nat × Nat) → List (RemoteMemTableMetaData K V) → List (RemoteMemTableMetaData K V) →
      List (RemoteMemTableMetaData K V) × List (RemoteMemTableMetaData K V) × List (Nat × Nat)
  | flags, base, [] => ((maybeAddFiles deleted flags base).1,
      (maybeAddFiles deleted flags base).2, flags)
  | flags, base, a :: added =>
    let flags' := flags.filter (· ≠ a.fileId)
    let before := base.takeWhile fun b => !bySmallestKey a b
    let rest := saveLevel deleted flags' (base.dropWhile fun b => !bySmallestKey a b) added
    ((maybeAddFiles deleted flags' (before ++ [a])).1 ++ rest.1,
      (maybeAddFiles deleted flags' (before ++ [a])).2 ++ rest.2.1, rest.2.2)

/-- `Builder::SaveTo` over all levels, from level 0 up, on the base version `base`. -/
def saveTo (base : Version K V) (builder : List (LevelState K V))
    (flags : List (Nat × Nat)) : Version K V × List (Nat × Nat) :=
  let step := fun (acc : Version K V × List (Nat × Nat)) (level : Nat) =>
    let st := builder.getD level ⟨[], []⟩
    let r := saveLevel st.deletedFiles acc.2 (base.files level) st.addedFiles
    (⟨acc.1.levels ++ [r.1], acc.1.inProgress ++ [r.2.1]⟩, r.2.2)
  (List.range kNumLevels).foldl step (⟨[], []⟩, flags)

/-- What `FindFile` and `ForEachOverlapping` require of a level above 0: each file's largest key
below the next file's smallest. -/
def Version.LevelDisjoint (v : Version K V) (level : Nat) : Prop :=
  (v.files level).IsChain fun f g => f.largest < g.smallest

instance (v : Version K V) (level : Nat) : Decidable (v.LevelDisjoint level) :=
  inferInstanceAs (Decidable (List.IsChain _ _))

/-- `TotalFileSize`. -/
def totalFileSize (files : List (RemoteMemTableMetaData K V)) : Nat :=
  (files.map (·.fileSize)).sum

/-- `a - b` as the source computes it, in 64-bit unsigned arithmetic. -/
def sub64 (a b : Nat) : Nat := (((a : Int) - b) % 2 ^ 64).toNat

/-- `MaxBytesForLevel`: 256 MB for levels 0 and 1, ten times more for each level above. -/
def maxBytesForLevel (level : Nat) : Nat :=
  maxMegaBytesForLevelBase * 1048576 * 10 ^ (level - 1)

/-- The score `Finalize` gives a level: level 0 counts files not under compaction against
`kL0_CompactionTrigger`, the others their bytes not under compaction against
`MaxBytesForLevel`. -/
def levelScore (v : Version K V) (level : Nat) : ℚ :=
  if level = 0 then
    (sub64 (v.files 0).length (v.inProgress.getD 0 []).length : ℚ) / kL0CompactionTrigger
  else
    (sub64 (totalFileSize (v.files level)) (totalFileSize (v.inProgress.getD level [])) : ℚ) /
      maxBytesForLevel level

/-- One pass of the sort at the end of `Finalize`: position `i` is swapped with every later
position whose score is higher. -/
def sortPass (scores : List (ℚ × Nat)) (i : Nat) : List (ℚ × Nat) :=
  (List.range' (i + 1) (kNumLevels - 2 - i)).foldl (fun a j =>
      if (a.getD i (0, 0)).1 < (a.getD j (0, 0)).1 then
        (a.set i (a.getD j (0, 0))).set j (a.getD i (0, 0))
      else a)
    scores

/-- `compaction_score_` and `compaction_level_` after `Finalize`, as `(score, level)` pairs for
levels `0` to `kNumLevels - 2`, highest score first. -/
def Version.finalize (v : Version K V) : List (ℚ × Nat) :=
  (List.range (kNumLevels - 2)).foldl sortPass
    ((List.range (kNumLevels - 1)).map fun level => (levelScore v level, level))

section Finalize

omit [LinearOrder K]

/-- The sort at the end of `Finalize` is the selection sort of the five `(score, level)` pairs by
score. -/
theorem Version.finalize_eq (v : Version K V) :
    v.finalize = SelectionSort.sort Prod.fst (0, 0) (kNumLevels - 1)
      ((List.range (kNumLevels - 1)).map fun level => (levelScore v level, level)) := rfl

theorem Version.finalize_perm (v : Version K V) :
    v.finalize.Perm ((List.range (kNumLevels - 1)).map fun level => (levelScore v level, level)) := by
  rw [finalize_eq]
  exact SelectionSort.sort_perm (by simp)

/-- `Finalize` leaves the scores highest first. -/
theorem Version.finalize_pairwise (v : Version K V) : v.finalize.Pairwise fun x y => y.1 ≤ x.1 := by
  rw [finalize_eq]
  exact SelectionSort.sort_pairwise (by simp)

end Finalize

/-- `VersionSet::LogAndApply`: the version `SaveTo` builds from `current` and the builder after
`Apply(edit)`, and the flags after it. -/
def logAndApply (current : Version K V) (flags : List (Nat × Nat)) (edit : VersionEdit K V) :
    Version K V × List (Nat × Nat) :=
  saveTo current (builderApply edit) flags

end DLSM
