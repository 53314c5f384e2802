import Mathlib
import DLSM.Compaction.Input

/-! Memtables as `db/memtable.h` and `db/memtable_list.cc` keep them.  A memtable owns a range of
sequence numbers, `[first_seq, largest_seq_supposed]`, fixed when it is created; the writers whose
sequence number falls in the range insert into it, and `seq_count` counts the finished inserts.
A full table may be flushed once `seq_count` reaches `MEMTABLE_SEQ_SIZE`.  Memtables are named by
an identity, the object a pointer points to; they are never freed here, so a stale pointer reads
the fields the table last had.  `MemTableList` is `memlist_`, newest first, with the flush state
of each table. -/

set_option linter.unusedSectionVars false

namespace DLSM

variable {K V : Type} [LinearOrder K]

/-- `MEMTABLE_SEQ_SIZE`: the number of sequence numbers each memtable owns. -/
def memtableSeqSize : Nat := 153846

/-- `MemTable::FlushStateEnum`. -/
inductive FlushState where
  | flushNotRequested
  | flushRequested
  | flushProcessing
  | flushFinished
  deriving DecidableEq, Repr

/-- A `MemTable` with the fields the write and flush paths read; `sstable` is the table its flush
wrote. -/
structure MemTable (K V : Type) where
  firstSeq : Nat
  largestSeqSupposed : Nat
  entries : List (Entry K V)
  seqCount : Nat
  ableToFlush : Bool
  fullTableFlush : Bool
  flushState : FlushState
  sstable : Option (RemoteMemTableMetaData K V)
  deriving DecidableEq, Repr

namespace MemTable

/-- A new memtable owning `[first, largest]`, as `PickupTableToWrite` and `WaitforAllbgtasks` set
it up with `SetFirstSeq` and `SetLargestSeq`. -/
def create (first largest : Nat) : MemTable K V :=
  ⟨first, largest, [], 0, false, true, .flushNotRequested, none⟩

/-- The range check of `PickupTableToWrite` and of the assertion in `DBImpl::Write`. -/
def owns (m : MemTable K V) (seq : Nat) : Bool :=
  decide (m.firstSeq ≤ seq ∧ seq ≤ m.largestSeqSupposed)

/-- `MemTable::Getlargest_seq`: the range's end less the inserts still missing, computed from the
count of finished inserts, in 64-bit unsigned arithmetic. -/
def getLargestSeq (m : MemTable K V) : Nat :=
  (((m.largestSeqSupposed : Int) - memtableSeqSize + m.seqCount) % 2 ^ 64).toNat

/-- `MemTable::Add`: the skiplist keeps its entries sorted by internal key. -/
def add (m : MemTable K V) (e : Entry K V) : MemTable K V :=
  { m with entries := m.entries.orderedInsert (fun a b => a.key ≤ b.key) e }

/-- `MemTable::increase_seq_count(1)`, which lets a full table be flushed at
`MEMTABLE_SEQ_SIZE`. -/
def increaseSeqCount (m : MemTable K V) : MemTable K V :=
  { m with seqCount := m.seqCount + 1,
           ableToFlush := m.ableToFlush || decide (memtableSeqSize ≤ m.seqCount + 1) }

@[simp] theorem firstSeq_add (m : MemTable K V) (e : Entry K V) :
    (m.add e).firstSeq = m.firstSeq := rfl

@[simp] theorem largestSeqSupposed_add (m : MemTable K V) (e : Entry K V) :
    (m.add e).largestSeqSupposed = m.largestSeqSupposed := rfl

@[simp] theorem seqCount_add (m : MemTable K V) (e : Entry K V) :
    (m.add e).seqCount = m.seqCount := rfl

@[simp] theorem firstSeq_increaseSeqCount (m : MemTable K V) :
    m.increaseSeqCount.firstSeq = m.firstSeq := rfl

@[simp] theorem largestSeqSupposed_increaseSeqCount (m : MemTable K V) :
    m.increaseSeqCount.largestSeqSupposed = m.largestSeqSupposed := rfl

@[simp] theorem seqCount_increaseSeqCount (m : MemTable K V) :
    m.increaseSeqCount.seqCount = m.seqCount + 1 := rfl

end MemTable

end DLSM
