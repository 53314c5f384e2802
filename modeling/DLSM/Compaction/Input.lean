import DLSM.Format.Key

/-! The inputs of a compaction: the table metadata of `db/version_edit.h`, the `Compaction` of
`db/version_set.h` with its two input levels, and the iterator `VersionSet::MakeInputIterator`
builds over them.  An iterator over a sorted run is the list of entries from its position on:
`Seek(t)` drops the entries before `t` and `Next()` drops one more. -/

namespace DLSM

/-- `RemoteMemTableMetaData`, with the fields the version set and the compactions read.  The
table that its chunk maps point to is kept as its list of entries; the chunk maps themselves, the
reference to the table cache and `allowed_seeks` play no part here. -/
structure RemoteMemTableMetaData (K V : Type) where
  level : Nat
  number : Nat
  creatorNodeId : Nat
  fileSize : Nat
  smallest : InternalKey K
  largest : InternalKey K
  entries : List (Entry K V)
  deriving DecidableEq, Repr

/-- `Compaction`: the level it starts from and `inputs_[0]`, `inputs_[1]`, the files it reads
from that level and the next. -/
structure Compaction (K V : Type) where
  level : Nat
  inputs0 : List (RemoteMemTableMetaData K V)
  inputs1 : List (RemoteMemTableMetaData K V)
  deriving DecidableEq, Repr

namespace Compaction

variable {K V : Type} [LinearOrder K]

/-- Two sorted runs merged: before each entry of the first, the entries of the second that are
strictly smaller, so that on a tie the first run's entry comes first. -/
def mergeRuns : List (Entry K V) → List (Entry K V) → List (Entry K V)
  | [], ys => ys
  | x :: xs, ys => ys.takeWhile (fun y => decide (y.key < x.key)) ++
      x :: mergeRuns xs (ys.dropWhile fun y => decide (y.key < x.key))

/-- `NewMergingIterator` over children yielding these runs: `FindSmallest` takes the smallest
current key, the earliest child on a tie. -/
def mergingIterator (children : List (List (Entry K V))) : List (Entry K V) :=
  children.foldr mergeRuns []

theorem mergeRuns_perm : ∀ xs ys : List (Entry K V), (mergeRuns xs ys).Perm (xs ++ ys)
  | [], ys => List.Perm.refl ys
  | x :: xs, ys => by
    let p := fun y : Entry K V => decide (y.key < x.key)
    calc List.Perm (ys.takeWhile p ++ x :: mergeRuns xs (ys.dropWhile p))
          (ys.takeWhile p ++ x :: (xs ++ ys.dropWhile p)) :=
          ((mergeRuns_perm xs _).cons x).append_left _
      List.Perm _ (x :: (xs ++ ys.dropWhile p) ++ ys.takeWhile p) := List.perm_append_comm
      _ = x :: (xs ++ (ys.dropWhile p ++ ys.takeWhile p)) := by simp
      List.Perm _ (x :: (xs ++ (ys.takeWhile p ++ ys.dropWhile p))) :=
          (List.perm_append_comm.append_left xs).cons x
      _ = x :: xs ++ ys := by rw [List.takeWhile_append_dropWhile]; rfl

/-- The merging iterator yields the entries of its children, each once. -/
theorem mem_mergingIterator {e : Entry K V} {children : List (List (Entry K V))} :
    e ∈ mergingIterator children ↔ ∃ c ∈ children, e ∈ c := by
  induction children with
  | nil => simp [mergingIterator]
  | cons c cs ih =>
    rw [mergingIterator, List.foldr_cons, (mergeRuns_perm c _).mem_iff, List.mem_append,
      ← mergingIterator, ih]
    simp

/-- `VersionSet::MakeInputIterator` (and `MakeInputIteratorMemoryServer`, which builds the same
iterator): one child per level-0 input file, one concatenating child per other level. -/
def makeInputIterator (c : Compaction K V) : List (Entry K V) :=
  let level (which : Nat) (files : List (RemoteMemTableMetaData K V)) :=
    if files.isEmpty then []
    else if c.level + which = 0 then files.map (·.entries)
    else [files.flatMap (·.entries)]
  mergingIterator (level 0 c.inputs0 ++ level 1 c.inputs1)

omit [LinearOrder K] in
/-- Whichever way a level's files become children, the children hold the entries of the files. -/
theorem mem_children_iff {e : Entry K V} (files : List (RemoteMemTableMetaData K V)) (b : Prop)
    [Decidable b] :
    (∃ ch ∈ (if files.isEmpty then [] else if b then files.map (·.entries)
      else [files.flatMap (·.entries)]), e ∈ ch) ↔ ∃ f ∈ files, e ∈ f.entries := by
  by_cases he : files.isEmpty
  · simp [List.isEmpty_iff.mp he]
  · by_cases hb : b <;> simp [he, hb]

/-- The input iterator yields the entries of the input files of both levels. -/
theorem mem_makeInputIterator {e : Entry K V} {c : Compaction K V} :
    e ∈ makeInputIterator c ↔ ∃ f ∈ c.inputs0 ++ c.inputs1, e ∈ f.entries := by
  rw [makeInputIterator, mem_mergingIterator]
  simp only [List.mem_append, or_and_right, exists_or]
  rw [mem_children_iff, mem_children_iff]

end Compaction

section Iterator

variable {K V : Type} [LinearOrder K]

/-- `Iterator::Seek(target)` on a sorted run: the first entry at or after `target` and those
after it. -/
def seek (target : InternalKey K) (run : List (Entry K V)) : List (Entry K V) :=
  run.dropWhile fun e => decide (e.key < target)

theorem seek_sublist (target : InternalKey K) (run : List (Entry K V)) :
    List.Sublist (seek target run) run :=
  List.dropWhile_sublist _

end Iterator

end DLSM
