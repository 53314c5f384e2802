import DLSM.Compaction.Input

/-! The loop shared by `DBImpl::DoCompactionWork` and `DBImpl::ProcessKeyValueCompaction`, by
their memory-node versions in `memory_node/memory_node_keeper.cpp`, and by `FlushJob::BuildTable`:
each entry of the input iterator goes through a drop rule, a kept entry goes to the open output
builder, and the builder is finished once its `FileSize()` reaches `MaxOutputFileSize()`.  The
builder's `FileSize()` is a parameter: it is the offset that `TableBuilder_ComputeSide` has
written, which depends on the block layout, and nothing proved here depends on its values.  The
shutdown flag and a failing `OpenCompactionOutputFile` are not modelled: both only stop the loop
early. -/

set_option linter.unusedSectionVars false

namespace DLSM.Compaction

variable {K V : Type} [LinearOrder K]

/-- The state of a drop rule: `current_user_key`, which is `none` when `has_current_user_key` is
false, and `last_sequence_for_key`. -/
structure DropState (K : Type) where
  currentUserKey : Option K
  lastSequenceForKey : Nat
  deriving DecidableEq, Repr

/-- The state before the first entry, and after an entry that does not parse. -/
def DropState.init : DropState K := ⟨none, kMaxSequenceNumber⟩

/-- Rule (A) of `DBImpl::DoCompactionWork`: an entry is dropped when the entry before it has the
same user key and a sequence number at most `smallest_snapshot`.  An entry that does not parse is
kept and resets the state. -/
def snapshotRule (smallestSnapshot : Nat) (st : DropState K) (key : InternalKey K) :
    Bool × DropState K :=
  match parseInternalKey key with
  | none => (false, DropState.init)
  | some ikey =>
    -- a new user key starts with `last_sequence_for_key = kMaxSequenceNumber`
    let last := if st.currentUserKey = some ikey.userKey then st.lastSequenceForKey
      else kMaxSequenceNumber
    (decide (last ≤ smallestSnapshot), ⟨some ikey.userKey, ikey.sequence⟩)

/-- The rule of `Memory_Node_Keeper::DoCompactionWork` and of `FlushJob::BuildTable`: every
entry after the first of its user key is dropped, with no snapshot consulted. -/
def firstEntryRule (st : DropState K) (key : InternalKey K) : Bool × DropState K :=
  match parseInternalKey key with
  | none => (false, DropState.init)
  | some ikey => (decide (st.currentUserKey = some ikey.userKey),
      { st with currentUserKey := some ikey.userKey })

/-- A finished output file: the `smallest` and `largest` that `CompactionOutput` records, and
the entries its builder was given. -/
structure CompactionOutput (K V : Type) where
  smallest : InternalKey K
  largest : InternalKey K
  entries : List (Entry K V)
  deriving DecidableEq, Repr

/-- The state of the loop: the drop rule's state, the open builder (`none` for `nullptr`) with
the `smallest` it was opened at and its entries, the finished outputs, and `key`, the last key
read. -/
structure LoopState (K V : Type) where
  drop : DropState K
  builder : Option (InternalKey K × List (Entry K V))
  outputs : List (CompactionOutput K V)
  key : Option (InternalKey K)
  deriving DecidableEq, Repr

/-- The state at the start of each of the loops. -/
def LoopState.init : LoopState K V := ⟨DropState.init, none, [], none⟩

/-- The entries given to builders so far: those of the finished outputs, then the open one's. -/
def LoopState.written (st : LoopState K V) : List (Entry K V) :=
  st.outputs.flatMap (·.entries) ++ (st.builder.map (·.2)).getD []

section Loop

variable (rule : DropState K → InternalKey K → Bool × DropState K)
  (fileSize : List (Entry K V) → Nat) (maxOutputFileSize : Nat)

/-- `builder->Add(key, value)`, opening the builder first if needed (its `smallest` is the first
key it is given), then `FinishCompactionOutputFile` when `FileSize()` has reached
`MaxOutputFileSize()`, with `largest` the key just added. -/
def addEntry (st : LoopState K V) (e : Entry K V) : LoopState K V :=
  let opened := st.builder.getD (e.key, [])
  if maxOutputFileSize ≤ fileSize (opened.2 ++ [e]) then
    { st with builder := none, outputs := st.outputs ++ [⟨opened.1, e.key, opened.2 ++ [e]⟩] }
  else { st with builder := some (opened.1, opened.2 ++ [e]) }

/-- One pass of the loop body over the entry `e`, before the check against `end`. -/
def loopStep (st : LoopState K V) (e : Entry K V) : LoopState K V :=
  let st' : LoopState K V := { st with drop := (rule st.drop e.key).2, key := some e.key }
  if (rule st.drop e.key).1 then st' else addEntry fileSize maxOutputFileSize st' e

/-- `while (input->Valid())`, breaking after an entry whose user key is at least `end`
(`stopAt`, `none` for `nullptr`). -/
def loop (stopAt : Option K) : LoopState K V → List (Entry K V) → LoopState K V
  | st, [] => st
  | st, e :: rest =>
    if stopAt.any fun stop => decide (stop ≤ e.key.userKey) then
      loopStep rule fileSize maxOutputFileSize st e
    else loop stopAt (loopStep rule fileSize maxOutputFileSize st e) rest

end Loop

/-- After the loop, the open builder is finished with `largest` the last key read. -/
def finish (st : LoopState K V) : List (CompactionOutput K V) :=
  match st.builder with
  | none => st.outputs
  | some (small, es) => st.outputs ++ [⟨small, st.key.getD small, es⟩]

/-- The entries the loop reads: all of them, or up to and including the first whose user key is
at least `stopAt`. -/
def takeThrough (stopAt : Option K) : List (Entry K V) → List (Entry K V)
  | [] => []
  | e :: rest =>
    if stopAt.any fun stop => decide (stop ≤ e.key.userKey) then [e]
    else e :: takeThrough stopAt rest

/-- The entries a drop rule keeps, from the state `st` on. -/
def kept (rule : DropState K → InternalKey K → Bool × DropState K) (st : DropState K) :
    List (Entry K V) → List (Entry K V)
  | [] => []
  | e :: rest => (if (rule st e.key).1 then [] else [e]) ++ kept rule (rule st e.key).2 rest

section Spec

variable (rule : DropState K → InternalKey K → Bool × DropState K)
  (fileSize : List (Entry K V) → Nat) (maxOutputFileSize : Nat)

@[simp] theorem written_addEntry (st : LoopState K V) (e : Entry K V) :
    (addEntry fileSize maxOutputFileSize st e).written = st.written ++ [e] := by
  unfold addEntry LoopState.written
  cases hb : st.builder with
  | none => by_cases h : maxOutputFileSize ≤ fileSize [e] <;> simp [h]
  | some b => by_cases h : maxOutputFileSize ≤ fileSize (b.2 ++ [e]) <;> simp [h]

@[simp] theorem drop_addEntry (st : LoopState K V) (e : Entry K V) :
    (addEntry fileSize maxOutputFileSize st e).drop = st.drop := by
  unfold addEntry
  dsimp only
  split <;> rfl

@[simp] theorem drop_loopStep (st : LoopState K V) (e : Entry K V) :
    (loopStep rule fileSize maxOutputFileSize st e).drop = (rule st.drop e.key).2 := by
  unfold loopStep
  split
  · rfl
  · rw [drop_addEntry]

theorem written_loopStep (st : LoopState K V) (e : Entry K V) :
    (loopStep rule fileSize maxOutputFileSize st e).written =
      st.written ++ (if (rule st.drop e.key).1 then [] else [e]) := by
  unfold loopStep
  split
  · simp [LoopState.written, *]
  · rw [written_addEntry]
    simp [LoopState.written, *]

@[simp] theorem finish_entries (st : LoopState K V) :
    (finish st).flatMap (·.entries) = st.written := by
  unfold finish LoopState.written
  cases st.builder <;> simp

/-- Output files take nothing away and add nothing: the entries of all the outputs, in order,
are the entries that the drop rule keeps among those the loop reads. -/
theorem written_loop (stopAt : Option K) (st : LoopState K V) (input : List (Entry K V)) :
    (loop rule fileSize maxOutputFileSize stopAt st input).written =
      st.written ++ kept rule st.drop (takeThrough stopAt input) := by
  induction input generalizing st with
  | nil => simp [loop, takeThrough, kept]
  | cons e rest ih =>
    unfold loop takeThrough
    split
    · simp [written_loopStep, kept]
    · rw [ih, written_loopStep, drop_loopStep]
      simp [kept]

end Spec

end DLSM.Compaction
