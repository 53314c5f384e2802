import DLSM.DB.MemTable
import DLSM.Version.Pick

/-! The state of a `DBImpl` on the compute node, as the write, flush and compaction threads share
it: the sequence counter of the version set, every memtable by identity with `mem_` and
`memlist_`, the writer threads inside `DBImpl::Write`, the flush jobs between
`PickMemtablesToFlush` and `TryInstallMemtableFlushResults`, the version set with its file counter,
the compactions picked and not yet installed, and the live snapshots. -/

set_option linter.unusedSectionVars false

namespace DLSM

variable {K V : Type} [LinearOrder K]

/-- `config::Immutable_StopWritesTrigger`. -/
def immutableStopWritesTrigger : Nat := 15

/-- `config::kL0_SlowdownWritesTrigger`. -/
def kL0SlowdownWritesTrigger : Nat := 16

/-- `config::kL0_StopWritesTrigger`. -/
def kL0StopWritesTrigger : Nat := 32

/-- Where a writer thread is in `DBImpl::Write`: sequence number assigned; in the first loop of
`PickupTableToWrite`, whose condition is `seq_num > mem_r->Getlargest_seq_supposed()`; in its
second loop; returned with the table to write; inserted, before `increase_seq_count`; or past a
`nullptr` that the second loop dereferences when no immutable table owns the number. -/
inductive WriterPhase where
  | assigned
  | switching
  | searching
  | picked
  | inserted
  | failed
  deriving DecidableEq, Repr

/-- A writer thread: its sequence number, the one entry of its batch, its local `mem_r` (a memtable
identity), whether it already slept in the slowdown branch, and its phase. -/
structure Writer (K V : Type) where
  seq : Nat
  entry : Entry K V
  memR : Nat
  delayed : Bool
  phase : WriterPhase
  deriving DecidableEq, Repr

/-- Where a flush job is: its memtables picked by `PickMemtablesToFlush`, or its table written by
`WriteLevel0Table`. -/
inductive FlushPhase where
  | picked
  | written
  deriving DecidableEq, Repr

/-- A `FlushJob`: the identities of its memtables (`mem_vec`), its phase and the table it wrote. -/
structure FlushJob (K V : Type) where
  memVec : List Nat
  phase : FlushPhase
  sst : Option (RemoteMemTableMetaData K V)
  deriving DecidableEq, Repr

/-- The shared state of `DBImpl`. -/
structure DBState (K V : Type) where
  lastSequence : Nat
  memtables : List (MemTable K V)
  mem : Nat
  imm : List Nat
  writers : List (Writer K V)
  flushJobs : List (FlushJob K V)
  versions : VersionSet K V
  nextFileNumber : Nat
  pending : List (Compaction K V)
  snapshots : List Nat
  deriving DecidableEq, Repr

/-- The options the background threads read, and the two node identities that name the files:
the compute node writes flushed tables and its own compaction outputs, the memory node the
outputs of near-data compactions. -/
structure DBOptions where
  nearDataCompaction : Bool
  usesubcompaction : Bool
  maxSubcompaction : Nat
  maxFileSize : Nat
  computeNodeId : Nat
  memoryNodeId : Nat
  deriving DecidableEq, Repr

/-- `Options`' defaults: `near_data_compaction`, `usesubcompaction`, `MaxSubcompaction = 12` and
`max_file_size = 64 MB`, on compute node 1 and memory node 0. -/
def DBOptions.default : DBOptions := ⟨true, true, 12, 64 * 1024 * 1024, 1, 0⟩

namespace DBState

/-- A freshly opened empty database: `DB::Open` creates the memtable owning
`[0, MEMTABLE_SEQ_SIZE - 1]`, and file number 2 went to the log. -/
def init : DBState K V :=
  ⟨0, [MemTable.create 0 (memtableSeqSize - 1)], 0, [], [], [], ⟨Version.empty, []⟩, 3, [], []⟩

/-- The memtable with identity `id`. -/
def table (s : DBState K V) (id : Nat) : MemTable K V :=
  s.memtables.getD id (MemTable.create 0 0)

/-- The state with memtable `id` replaced by `f` of it. -/
def modifyTable (s : DBState K V) (id : Nat) (f : MemTable K V → MemTable K V) : DBState K V :=
  { s with memtables := s.memtables.modify id f }

/-- `versions_->NumLevelFiles(0)`. -/
def level0Files (s : DBState K V) : Nat := (s.versions.current.files 0).length

/-- The writers of `PickupTableToWrite` wait while there are too many immutable tables or
level-0 files. -/
def stalled (s : DBState K V) : Bool :=
  decide (immutableStopWritesTrigger ≤ s.imm.length ∨ kL0StopWritesTrigger ≤ s.level0Files)

/-- `MemTableListVersion::PickMemtablesSeqBelong`: the first table of `memlist_` owning `seq`. -/
def pickMemtablesSeqBelong (s : DBState K V) (seq : Nat) : Option Nat :=
  s.imm.find? fun id => (s.table id).owns seq

/-- `smallest_snapshot` of `DoCompactionWork`: the oldest live snapshot, else `LastSequence()`. -/
def smallestSnapshot (s : DBState K V) : Nat :=
  match s.snapshots with
  | [] => s.lastSequence
  | x :: xs => xs.foldl min x

/-- No file is an input of two compactions picked and not yet installed. -/
def PendingDisjoint (s : DBState K V) : Prop :=
  s.pending.Pairwise fun c d =>
    ∀ f ∈ c.inputs0 ++ c.inputs1, ∀ g ∈ d.inputs0 ++ d.inputs1, f.fileId ≠ g.fileId

instance (s : DBState K V) : Decidable s.PendingDisjoint :=
  inferInstanceAs (Decidable (List.Pairwise _ _))

theorem table_of_length_le (s : DBState K V) {id : Nat} (h : s.memtables.length ≤ id) :
    s.table id = MemTable.create 0 0 :=
  List.getD_eq_default _ _ h

@[simp] theorem writers_modifyTable (s : DBState K V) (id : Nat) (f : MemTable K V → MemTable K V) :
    (s.modifyTable id f).writers = s.writers := rfl

@[simp] theorem lastSequence_modifyTable (s : DBState K V) (id : Nat)
    (f : MemTable K V → MemTable K V) : (s.modifyTable id f).lastSequence = s.lastSequence := rfl

@[simp] theorem mem_modifyTable (s : DBState K V) (id : Nat) (f : MemTable K V → MemTable K V) :
    (s.modifyTable id f).mem = s.mem := rfl

@[simp] theorem imm_modifyTable (s : DBState K V) (id : Nat) (f : MemTable K V → MemTable K V) :
    (s.modifyTable id f).imm = s.imm := rfl

@[simp] theorem flushJobs_modifyTable (s : DBState K V) (id : Nat)
    (f : MemTable K V → MemTable K V) : (s.modifyTable id f).flushJobs = s.flushJobs := rfl

@[simp] theorem length_memtables_modifyTable (s : DBState K V) (id : Nat)
    (f : MemTable K V → MemTable K V) :
    (s.modifyTable id f).memtables.length = s.memtables.length := by
  simp [modifyTable]

@[simp] theorem table_modifyTable_self (s : DBState K V) (id : Nat) (f : MemTable K V → MemTable K V)
    (h : id < s.memtables.length) : (s.modifyTable id f).table id = f (s.table id) := by
  simp [modifyTable, table, List.getD_eq_getElem?_getD, h]

@[simp] theorem table_modifyTable_ne (s : DBState K V) {id id' : Nat}
    (f : MemTable K V → MemTable K V) (h : id ≠ id') :
    (s.modifyTable id f).table id' = s.table id' := by
  simp [modifyTable, table, List.getD_eq_getElem?_getD, h]

end DBState

end DLSM
