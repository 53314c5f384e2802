import Mathlib
import DLSM.DB.State

/-! `DBImpl::Write` as its writer threads run it, one atomic step at a time: the sequence number
from `AssignSequnceNumbers`, the loads of `mem_` and the locked sections of
`DBImpl::PickupTableToWrite`, `InsertInto` and `increase_seq_count`; and the memtable switch of
`DBImpl::WaitforAllbgtasks(true)`.  A step that is not enabled, such as a writer in the wrong
phase, gives `none`.  `PickupTableToWrite` switches the memtable under the lock when the writer's
number is past the current table's range, the new table owning the next `MEMTABLE_SEQ_SIZE`
numbers; `WaitforAllbgtasks(true)` starts the new range after `Getlargest_seq()`. -/

set_option linter.unusedSectionVars false

namespace DLSM

variable {K V : Type} [LinearOrder K]

namespace DBState

/-- The writer at index `i` replaced by `f` of it. -/
def modifyWriter (s : DBState K V) (i : Nat) (f : Writer K V → Writer K V) : DBState K V :=
  { s with writers := s.writers.modify i f }

@[simp] theorem writers_modifyWriter (s : DBState K V) (i : Nat) (f : Writer K V → Writer K V) :
    (s.modifyWriter i f).writers = s.writers.modify i f := rfl

@[simp] theorem memtables_modifyWriter (s : DBState K V) (i : Nat) (f : Writer K V → Writer K V) :
    (s.modifyWriter i f).memtables = s.memtables := rfl

@[simp] theorem table_modifyWriter (s : DBState K V) (i : Nat) (f : Writer K V → Writer K V)
    (id : Nat) : (s.modifyWriter i f).table id = s.table id := rfl

@[simp] theorem mem_modifyWriter (s : DBState K V) (i : Nat) (f : Writer K V → Writer K V) :
    (s.modifyWriter i f).mem = s.mem := rfl

@[simp] theorem imm_modifyWriter (s : DBState K V) (i : Nat) (f : Writer K V → Writer K V) :
    (s.modifyWriter i f).imm = s.imm := rfl

@[simp] theorem lastSequence_modifyWriter (s : DBState K V) (i : Nat)
    (f : Writer K V → Writer K V) : (s.modifyWriter i f).lastSequence = s.lastSequence := rfl

@[simp] theorem flushJobs_modifyWriter (s : DBState K V) (i : Nat) (f : Writer K V → Writer K V) :
    (s.modifyWriter i f).flushJobs = s.flushJobs := rfl

/-- `DBImpl::Write` of a batch of one `Put` or `Delete`: `AssignSequnceNumbers(1)` returns
`last_sequence_` and adds one to it. -/
def write (s : DBState K V) (key : K) (type : ValueType) (value : V) : DBState K V :=
  { s with
    lastSequence := s.lastSequence + 1
    writers := s.writers ++
      [⟨s.lastSequence, ⟨.mk' key s.lastSequence type, value⟩, 0, false, .assigned⟩] }

/-- `mem_r = mem_.load()` at the start of `PickupTableToWrite`. -/
def loadMem (s : DBState K V) (i : Nat) : Option (DBState K V) := do
  let w ← s.writers[i]?
  guard (w.phase = .assigned)
  pure (s.modifyWriter i fun w => { w with memR := s.mem, phase := .switching })

theorem loadMem_eq_some {s s' : DBState K V} {i : Nat} (h : s.loadMem i = some s') :
    ∃ w, s.writers[i]? = some w ∧ w.phase = .assigned ∧
      s' = s.modifyWriter i fun w => { w with memR := s.mem, phase := .switching } := by
  simp only [loadMem, Option.bind_eq_bind, Option.bind_eq_some_iff, Option.guard_eq_some',
    Option.pure_def, Option.some.injEq] at h
  obtain ⟨w, hw, -, hp, rfl⟩ := h
  exact ⟨w, hw, hp, rfl⟩

/-- The first loop's condition fails: the number is within the range of `mem_r`. -/
def leaveSwitchLoop (s : DBState K V) (i : Nat) : Option (DBState K V) := do
  let w ← s.writers[i]?
  guard (w.phase = .switching ∧ w.seq ≤ (s.table w.memR).largestSeqSupposed)
  pure (s.modifyWriter i fun w => { w with phase := .searching })

theorem leaveSwitchLoop_eq_some {s s' : DBState K V} {i : Nat} (h : s.leaveSwitchLoop i = some s') :
    ∃ w, s.writers[i]? = some w ∧ w.phase = .switching ∧
      w.seq ≤ (s.table w.memR).largestSeqSupposed ∧
      s' = s.modifyWriter i fun w => { w with phase := .searching } := by
  simp only [leaveSwitchLoop, Option.bind_eq_bind, Option.bind_eq_some_iff, Option.guard_eq_some',
    Option.pure_def, Option.some.injEq] at h
  obtain ⟨w, hw, -, ⟨hp, hle⟩, rfl⟩ := h
  exact ⟨w, hw, hp, hle, rfl⟩

/-- The stall branch: the writer waits on `write_stall_cv`, reloading `mem_r` each time it wakes. -/
def stallReload (s : DBState K V) (i : Nat) : Option (DBState K V) := do
  let w ← s.writers[i]?
  guard (w.phase = .switching ∧ (s.table w.memR).largestSeqSupposed < w.seq ∧ s.stalled)
  pure (s.modifyWriter i fun w => { w with memR := s.mem })

theorem stallReload_eq_some {s s' : DBState K V} {i : Nat} (h : s.stallReload i = some s') :
    ∃ w, s.writers[i]? = some w ∧ w.phase = .switching ∧
      (s.table w.memR).largestSeqSupposed < w.seq ∧ s.stalled ∧
      s' = s.modifyWriter i fun w => { w with memR := s.mem } := by
  simp only [stallReload, Option.bind_eq_bind, Option.bind_eq_some_iff, Option.guard_eq_some',
    Option.pure_def, Option.some.injEq] at h
  obtain ⟨w, hw, -, ⟨hp, hlt, hst⟩, rfl⟩ := h
  exact ⟨w, hw, hp, hlt, hst, rfl⟩

/-- The slowdown branch: one sleep for the writer, then `mem_r = mem_.load()`. -/
def slowdownReload (s : DBState K V) (i : Nat) : Option (DBState K V) := do
  let w ← s.writers[i]?
  guard (w.phase = .switching ∧ (s.table w.memR).largestSeqSupposed < w.seq ∧ !s.stalled ∧
    kL0SlowdownWritesTrigger < s.level0Files ∧ !w.delayed)
  pure (s.modifyWriter i fun w => { w with memR := s.mem, delayed := true })

theorem slowdownReload_eq_some {s s' : DBState K V} {i : Nat} (h : s.slowdownReload i = some s') :
    ∃ w, s.writers[i]? = some w ∧ w.phase = .switching ∧
      (s.table w.memR).largestSeqSupposed < w.seq ∧ !s.stalled ∧
      kL0SlowdownWritesTrigger < s.level0Files ∧ !w.delayed ∧
      s' = s.modifyWriter i fun w => { w with memR := s.mem, delayed := true } := by
  simp only [slowdownReload, Option.bind_eq_bind, Option.bind_eq_some_iff, Option.guard_eq_some',
    Option.pure_def, Option.some.injEq] at h
  obtain ⟨w, hw, -, ⟨hp, hlt, hst, hl0, hd⟩, rfl⟩ := h
  exact ⟨w, hw, hp, hlt, hst, hl0, hd, rfl⟩

/-- The memtable switch: the current table goes to the front of `memlist_` with its flush
requested, and a new table owning the next `MEMTABLE_SEQ_SIZE` numbers becomes `mem_`; its
identity is the next free one. -/
def switchMemtable (s : DBState K V) (first largest : Nat) (fullTableFlush : Bool) :
    DBState K V :=
  let old := s.mem
  let s' := s.modifyTable old fun m =>
    { m with flushState := .flushRequested, fullTableFlush := m.fullTableFlush && fullTableFlush }
  { s' with
    memtables := s'.memtables ++ [MemTable.create first largest]
    mem := s'.memtables.length
    imm := old :: s'.imm }

@[simp] theorem writers_switchMemtable (s : DBState K V) (first largest : Nat) (full : Bool) :
    (s.switchMemtable first largest full).writers = s.writers := rfl

@[simp] theorem lastSequence_switchMemtable (s : DBState K V) (first largest : Nat) (full : Bool) :
    (s.switchMemtable first largest full).lastSequence = s.lastSequence := rfl

@[simp] theorem flushJobs_switchMemtable (s : DBState K V) (first largest : Nat) (full : Bool) :
    (s.switchMemtable first largest full).flushJobs = s.flushJobs := rfl

@[simp] theorem mem_switchMemtable (s : DBState K V) (first largest : Nat) (full : Bool) :
    (s.switchMemtable first largest full).mem = s.memtables.length := by
  simp [switchMemtable]

@[simp] theorem imm_switchMemtable (s : DBState K V) (first largest : Nat) (full : Bool) :
    (s.switchMemtable first largest full).imm = s.mem :: s.imm := rfl

@[simp] theorem length_memtables_switchMemtable (s : DBState K V) (first largest : Nat)
    (full : Bool) :
    (s.switchMemtable first largest full).memtables.length = s.memtables.length + 1 := by
  simp [switchMemtable, modifyTable]

/-- After a switch the new table is the one past the old list; every other table is the old one,
with `mem_`'s flush requested. -/
theorem table_switchMemtable (s : DBState K V) (first largest : Nat) (full : Bool) (id : Nat) :
    (s.switchMemtable first largest full).table id =
      if id = s.memtables.length then MemTable.create first largest
      else (s.modifyTable s.mem fun m =>
        { m with flushState := .flushRequested, fullTableFlush := m.fullTableFlush && full }).table
          id := by
  simp only [switchMemtable, table, modifyTable, List.getD_eq_getElem?_getD, List.getElem?_append,
    List.length_modify]
  split_ifs with h1 h2 h2
  · omega
  · rfl
  · simp [h2]
  · rw [List.getElem?_eq_none (l := [_]) (by simp; omega), List.getElem?_eq_none (by simp; omega)]

/-- The locked branch of the first loop: `mem_r` reloaded, and the switch made when the counts
allow it and the number is still past the range; otherwise `mem_r = mem_.load()`. -/
def lockedSwitch (s : DBState K V) (i : Nat) : Option (DBState K V) := do
  let w ← s.writers[i]?
  guard (w.phase = .switching ∧ (s.table w.memR).largestSeqSupposed < w.seq ∧ !s.stalled ∧
    !(kL0SlowdownWritesTrigger < s.level0Files ∧ !w.delayed))
  let m := s.table s.mem
  if s.imm.length ≤ immutableStopWritesTrigger ∧ s.level0Files ≤ kL0StopWritesTrigger ∧
      m.largestSeqSupposed < w.seq then
    let s' := s.switchMemtable (m.largestSeqSupposed + 1) (m.largestSeqSupposed + memtableSeqSize)
      true
    pure (s'.modifyWriter i fun w => { w with memR := s'.mem, phase := .picked })
  else pure (s.modifyWriter i fun w => { w with memR := s.mem })

theorem lockedSwitch_eq_some {s s' : DBState K V} {i : Nat} (h : s.lockedSwitch i = some s') :
    ∃ w, s.writers[i]? = some w ∧ w.phase = .switching ∧
      (s.table w.memR).largestSeqSupposed < w.seq ∧ !s.stalled ∧
      !(kL0SlowdownWritesTrigger < s.level0Files ∧ !w.delayed) ∧
      ((s.imm.length ≤ immutableStopWritesTrigger ∧ s.level0Files ≤ kL0StopWritesTrigger ∧
          (s.table s.mem).largestSeqSupposed < w.seq) ∧
        s' = (s.switchMemtable ((s.table s.mem).largestSeqSupposed + 1)
            ((s.table s.mem).largestSeqSupposed + memtableSeqSize) true).modifyWriter i
          (fun w => { w with memR := s.memtables.length, phase := .picked }) ∨
       ¬(s.imm.length ≤ immutableStopWritesTrigger ∧ s.level0Files ≤ kL0StopWritesTrigger ∧
          (s.table s.mem).largestSeqSupposed < w.seq) ∧
        s' = s.modifyWriter i fun w => { w with memR := s.mem }) := by
  simp only [lockedSwitch, Option.bind_eq_bind, Option.bind_eq_some_iff, Option.guard_eq_some',
    Option.pure_def] at h
  obtain ⟨w, hw, -, ⟨hp, hlt, hst, hsl⟩, h⟩ := h
  refine ⟨w, hw, hp, hlt, hst, hsl, ?_⟩
  split_ifs at h with hc
  · exact .inl ⟨hc, by simpa using h.symm⟩
  · exact .inr ⟨hc, (Option.some.inj h).symm⟩

/-- The second loop: `mem_r` when it owns the number, else the table of `memlist_` that does,
under the lock; with no such table `mem_r` becomes `nullptr`. -/
def searchTable (s : DBState K V) (i : Nat) : Option (DBState K V) := do
  let w ← s.writers[i]?
  guard (w.phase = .searching)
  if (s.table w.memR).owns w.seq then pure (s.modifyWriter i fun w => { w with phase := .picked })
  else
    match s.pickMemtablesSeqBelong w.seq with
    | some id => pure (s.modifyWriter i fun w => { w with memR := id, phase := .picked })
    | none => pure (s.modifyWriter i fun w => { w with phase := .failed })

theorem searchTable_eq_some {s s' : DBState K V} {i : Nat} (h : s.searchTable i = some s') :
    ∃ w, s.writers[i]? = some w ∧ w.phase = .searching ∧
      ((s.table w.memR).owns w.seq ∧ s' = s.modifyWriter i (fun w => { w with phase := .picked }) ∨
       (s.table w.memR).owns w.seq = false ∧ (∃ id, s.pickMemtablesSeqBelong w.seq = some id ∧
          s' = s.modifyWriter i (fun w => { w with memR := id, phase := .picked })) ∨
       (s.table w.memR).owns w.seq = false ∧ s.pickMemtablesSeqBelong w.seq = none ∧
          s' = s.modifyWriter i (fun w => { w with phase := .failed })) := by
  simp only [searchTable, Option.bind_eq_bind, Option.bind_eq_some_iff, Option.guard_eq_some',
    Option.pure_def] at h
  obtain ⟨w, hw, -, hp, h⟩ := h
  refine ⟨w, hw, hp, ?_⟩
  split_ifs at h with hown
  · exact .inl ⟨hown, (Option.some.inj h).symm⟩
  · simp only [Bool.not_eq_true] at hown
    split at h
    · next id hid => exact .inr (.inl ⟨hown, id, hid, (Option.some.inj h).symm⟩)
    · next hnone => exact .inr (.inr ⟨hown, hnone, (Option.some.inj h).symm⟩)

/-- `WriteBatchInternal::InsertInto(updates, mem)`. -/
def insertInto (s : DBState K V) (i : Nat) : Option (DBState K V) := do
  let w ← s.writers[i]?
  guard (w.phase = .picked)
  pure ((s.modifyTable w.memR fun m => m.add w.entry).modifyWriter i fun w =>
    { w with phase := .inserted })

theorem insertInto_eq_some {s s' : DBState K V} {i : Nat} (h : s.insertInto i = some s') :
    ∃ w, s.writers[i]? = some w ∧ w.phase = .picked ∧
      s' = (s.modifyTable w.memR fun m => m.add w.entry).modifyWriter i
        fun w => { w with phase := .inserted } := by
  simp only [insertInto, Option.bind_eq_bind, Option.bind_eq_some_iff, Option.guard_eq_some',
    Option.pure_def, Option.some.injEq] at h
  obtain ⟨w, hw, -, hp, rfl⟩ := h
  exact ⟨w, hw, hp, rfl⟩

/-- `mem->increase_seq_count(1)`, the end of the write. -/
def increaseSeqCount (s : DBState K V) (i : Nat) : Option (DBState K V) := do
  let w ← s.writers[i]?
  guard (w.phase = .inserted)
  pure { s.modifyTable w.memR MemTable.increaseSeqCount with writers := s.writers.eraseIdx i }

theorem increaseSeqCount_eq_some {s s' : DBState K V} {i : Nat}
    (h : s.increaseSeqCount i = some s') :
    ∃ w, s.writers[i]? = some w ∧ w.phase = .inserted ∧
      s' = { s.modifyTable w.memR MemTable.increaseSeqCount with
        writers := s.writers.eraseIdx i } := by
  simp only [increaseSeqCount, Option.bind_eq_bind, Option.bind_eq_some_iff,
    Option.guard_eq_some', Option.pure_def, Option.some.injEq] at h
  obtain ⟨w, hw, -, hp, rfl⟩ := h
  exact ⟨w, hw, hp, rfl⟩

/-- The locked section of `WaitforAllbgtasks(true)`: a non-empty `mem_` is marked for a non-full
flush and replaced by a table starting after `Getlargest_seq()`, in 64-bit arithmetic. -/
def clearMem (s : DBState K V) : DBState K V :=
  let m := s.table s.mem
  if m.entries.isEmpty then s
  else s.switchMemtable ((m.getLargestSeq + 1) % 2 ^ 64)
    ((m.getLargestSeq + memtableSeqSize) % 2 ^ 64) false

end DBState

end DLSM
