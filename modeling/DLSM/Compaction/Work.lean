import DLSM.Compaction.Loop

/-! The compaction entry points built on the loop: `DBImpl::DoCompactionWork`,
`DBImpl::ProcessKeyValueCompaction` for one subcompaction range, their memory-node versions, and
`FlushJob::BuildTable`; then `Compaction::GenSubcompactionBoundaries` and the two ways
`DoCompactionWorkWithSubcompaction` groups its boundaries into ranges.  The options the grouping
reads, `MaxSubcompaction` and `max_file_size`, are parameters, as are the builder's `FileSize()`
and `MaxOutputFileSize()`. -/

set_option linter.unusedSectionVars false

namespace DLSM.Compaction

variable {K V : Type} [LinearOrder K]

section Entry

variable (fileSize : List (Entry K V) → Nat) (maxOutputFileSize : Nat)

/-- `DBImpl::DoCompactionWork`: from `SeekToFirst` to the end of the input, with rule (A). -/
def doCompactionWork (smallestSnapshot : Nat) (input : List (Entry K V)) :
    List (CompactionOutput K V) :=
  finish (loop (snapshotRule smallestSnapshot) fileSize maxOutputFileSize none LoopState.init input)

/-- Where `DBImpl::ProcessKeyValueCompaction` starts: `SeekToFirst` without a `start`, else
`Seek(InternalKey(start, kMaxSequenceNumber, kValueTypeForSeek))` and then an unconditional
`Next()`, since the range is `(start, end]`. -/
def computeSideStart (start : Option K) (input : List (Entry K V)) : List (Entry K V) :=
  match start with
  | none => input
  | some s => (seek (InternalKey.mk' s kMaxSequenceNumber kValueTypeForSeek) input).tail

/-- `DBImpl::ProcessKeyValueCompaction` for the range `(start, end]`. -/
def processKeyValueCompaction (smallestSnapshot : Nat) (start stop : Option K)
    (input : List (Entry K V)) : List (CompactionOutput K V) :=
  finish (loop (snapshotRule smallestSnapshot) fileSize maxOutputFileSize stop LoopState.init
    (computeSideStart start input))

/-- `Memory_Node_Keeper::DoCompactionWork`: the whole input, keeping the first entry of each user
key. -/
def memoryNodeDoCompactionWork (input : List (Entry K V)) : List (CompactionOutput K V) :=
  finish (loop firstEntryRule fileSize maxOutputFileSize none LoopState.init input)

/-- Where `Memory_Node_Keeper::ProcessKeyValueCompaction` starts: it seeks to
`InternalKey(start, 0, kValueTypeForSeek)` before the unconditional `Next()`. -/
def memoryNodeStart (start : Option K) (input : List (Entry K V)) : List (Entry K V) :=
  match start with
  | none => input
  | some s => (seek (InternalKey.mk' s 0 kValueTypeForSeek) input).tail

/-- `Memory_Node_Keeper::ProcessKeyValueCompaction` for the range `(start, end]`. -/
def memoryNodeProcessKeyValueCompaction (start stop : Option K) (input : List (Entry K V)) :
    List (CompactionOutput K V) :=
  finish (loop firstEntryRule fileSize maxOutputFileSize stop LoopState.init
    (memoryNodeStart start input))

end Entry

/-- The loop of `FlushJob::BuildTable`: the first entry of each user key goes to the builder, and
a key that does not parse ends the flush with an `IOError`. -/
def buildTableLoop : DropState K → List (Entry K V) → Except String (List (Entry K V))
  | _, [] => .ok []
  | st, e :: rest =>
    match parseInternalKey e.key with
    | none => .error "Corrupt key value detected\n"
    | some _ => do
      let tail ← buildTableLoop (firstEntryRule st e.key).2 rest
      .ok ((if (firstEntryRule st e.key).1 then [] else [e]) ++ tail)

/-- `FlushJob::BuildTable` over the merged iterator of the picked memtables: no table for an
empty input, else one whose `smallest` is the first key and `largest` the last. -/
def buildTable (input : List (Entry K V)) : Except String (Option (CompactionOutput K V)) :=
  match input with
  | [] => .ok none
  | first :: rest => do
    let entries ← buildTableLoop DropState.init input
    .ok (some ⟨first.key, ((first :: rest).getLast (List.cons_ne_nil _ _)).key, entries⟩)

/-- `Compaction::GenSubcompactionBoundaries`: the user keys of the smallest keys of the level+1
inputs after the first, and the sizes of all of them. -/
def genSubcompactionBoundaries (c : Compaction K V) : List K × List Nat :=
  match c.inputs1 with
  | [] => ([], [])
  | f :: rest => (rest.map (·.smallest.userKey), f.fileSize :: rest.map (·.fileSize))

/-- A subcompaction's range `(start, end]`, `none` standing for `nullptr`. -/
structure SubcompactionRange (K : Type) where
  start : Option K
  stop : Option K
  deriving DecidableEq, Repr

/-- The first grouping of `DoCompactionWorkWithSubcompaction`, when there are at most
`MaxSubcompaction` boundaries: one range between each two consecutive boundaries. -/
def rangesEach (bounds : List K) : List (SubcompactionRange K) :=
  (List.range (bounds.length + 1)).map fun i =>
    ⟨if i = 0 then none else bounds[i - 1]?, if i = bounds.length then none else bounds[i]?⟩

/-- The inner `while` of the second grouping: from index `i`, with `counter` big files counted,
it takes the next file while the counter is below `files_per_subcompaction` or the next file is
small, and returns the index it stops at.  It is bounded by the number of boundaries. -/
def groupEnd (sizes : List Nat) (n smallLimit perRange : Nat) : Nat → Nat → Nat → Nat
  | 0, i, _ => i
  | fuel + 1, i, counter =>
    if i ≠ n ∧ (counter < perRange ∨ sizes.getD (i + 1) 0 ≤ smallLimit) then
      groupEnd sizes n smallLimit perRange fuel (i + 1)
        (if smallLimit ≤ sizes.getD (i + 1) 0 then counter + 1 else counter)
    else i

/-- The second grouping, when there are more boundaries than `MaxSubcompaction`: each range
starts at the boundary where the previous one ended and takes files up to `groupEnd`.  A file is
small when its size is at most `max_file_size / 4`. -/
def rangesGrouped (maxSubcompaction maxFileSize : Nat) (bounds : List K) (sizes : List Nat) :
    List (SubcompactionRange K) :=
  let n := bounds.length
  let smallLimit := maxFileSize / 4
  let smallFiles := (sizes.filter fun s => decide (s ≤ smallLimit)).length
  -- `int big_files_num = boundaries->size() - small_files.size()`, divided toward zero
  let bigFiles : Int := (n : Int) - smallFiles
  let perRange : Nat := (bigFiles.tdiv maxSubcompaction + 1).toNat
  let rec go : Nat → Nat → List (SubcompactionRange K)
    | 0, _ => []
    | fuel + 1, i =>
      let counter := if sizes.getD i 0 ≤ smallLimit then 0 else 1
      let j := groupEnd sizes n smallLimit perRange n i counter
      ⟨if i = 0 then none else bounds[i - 1]?, if j = n then none else bounds[j]?⟩ ::
        if j + 1 ≤ n then go fuel (j + 1) else []
  go (n + 1) 0

/-- The ranges `DoCompactionWorkWithSubcompaction` hands to its subcompactions. -/
def subcompactionRanges (maxSubcompaction maxFileSize : Nat) (c : Compaction K V) :
    List (SubcompactionRange K) :=
  let (bounds, sizes) := genSubcompactionBoundaries c
  if bounds.length ≤ maxSubcompaction then rangesEach bounds
  else rangesGrouped maxSubcompaction maxFileSize bounds sizes

section Sub

variable (fileSize : List (Entry K V) → Nat) (maxOutputFileSize : Nat)
  (maxSubcompaction maxFileSize : Nat)

/-- `DBImpl::DoCompactionWorkWithSubcompaction`: the outputs of each range's
`ProcessKeyValueCompaction`, in the order `InstallCompactionResults` adds them. -/
def doCompactionWorkWithSubcompaction (smallestSnapshot : Nat) (c : Compaction K V) :
    List (CompactionOutput K V) :=
  (subcompactionRanges maxSubcompaction maxFileSize c).flatMap fun r =>
    processKeyValueCompaction fileSize maxOutputFileSize smallestSnapshot r.start r.stop
      (Compaction.makeInputIterator c)

/-- `Memory_Node_Keeper::DoCompactionWorkWithSubcompaction`. -/
def memoryNodeDoCompactionWorkWithSubcompaction (c : Compaction K V) :
    List (CompactionOutput K V) :=
  (subcompactionRanges maxSubcompaction maxFileSize c).flatMap fun r =>
    memoryNodeProcessKeyValueCompaction fileSize maxOutputFileSize r.start r.stop
      (Compaction.makeInputIterator c)

end Sub

end DLSM.Compaction
