import DLSM.DB.Write
import DLSM.Compaction.Work

/-! The flush of immutable memtables, `DBImpl::CompactMemTable`, in its three steps.
`MemTableList::PickMemtablesToFlush` takes, under `FlushPickMTX`, the oldest table whose flush
is requested (one table, `config::MaxImmuNumPerFlush`).  `FlushJob::Waitforpendingwriter` then
waits until a full table has all its inserts, and `DBImpl::WriteLevel0Table` draws the file
number with `NewFileNumber()` and writes the table with `FlushJob::BuildTable`.
`DBImpl::TryInstallMemtableFlushResults` marks the tables flushed and, when the oldest table of
`memlist_` is flushed, installs the tables of every flushed table from the oldest on, in one
`LogAndApply`.  A flush whose `BuildTable` writes no table installs nothing here; on memtables,
whose keys all parse and which are never empty when flushed, that does not happen. -/

set_option linter.unusedSectionVars false

namespace DLSM

variable {K V : Type} [LinearOrder K]

namespace DBState

/-- `PickMemtablesToFlush`: from the oldest end of `memlist_`, the first table whose flush is
requested, set to `FLUSH_PROCESSING` as the job's only table. -/
def pickMemtablesToFlush (s : DBState K V) : Option (DBState K V) := do
  let id ← s.imm.reverse.find? fun id => (s.table id).flushState = .flushRequested
  pure { s.modifyTable id (fun m => { m with flushState := .flushProcessing }) with
    flushJobs := s.flushJobs ++ [⟨[id], .picked, none⟩] }

theorem pickMemtablesToFlush_eq_some {s s' : DBState K V} (h : s.pickMemtablesToFlush = some s') :
    ∃ id ∈ s.imm, (s.table id).flushState = .flushRequested ∧
      s' = { s.modifyTable id (fun m => { m with flushState := .flushProcessing }) with
        flushJobs := s.flushJobs ++ [⟨[id], .picked, none⟩] } := by
  simp only [pickMemtablesToFlush, Option.bind_eq_bind, Option.bind_eq_some_iff, Option.pure_def,
    Option.some.injEq] at h
  obtain ⟨id, hid, rfl⟩ := h
  have hreq := List.find?_some hid
  simp only [decide_eq_true_eq] at hreq
  exact ⟨id, List.mem_reverse.mp (List.mem_of_find?_eq_some hid), hreq, rfl⟩

/-- The level-0 table `BuildTable` writes from the job's memtables, numbered `number`. -/
def flushTable (fileSize : List (Entry K V) → Nat) (nodeId number : Nat)
    (tables : List (MemTable K V)) : Option (RemoteMemTableMetaData K V) :=
  match Compaction.buildTable (Compaction.mergingIterator (tables.map (·.entries))) with
  | .ok (some out) => some ⟨0, number, nodeId, fileSize out.entries, out.smallest, out.largest,
      out.entries⟩
  | _ => none

/-- `Waitforpendingwriter` returns, then `WriteLevel0Table` draws a file number and builds. -/
def writeLevel0Table (fileSize : List (Entry K V) → Nat) (nodeId : Nat) (s : DBState K V)
    (j : Nat) : Option (DBState K V) := do
  let job ← s.flushJobs[j]?
  guard (job.phase = .picked ∧
    job.memVec.all fun id => !(s.table id).fullTableFlush || (s.table id).ableToFlush)
  let sst := flushTable fileSize nodeId s.nextFileNumber (job.memVec.map s.table)
  pure { s with
    nextFileNumber := s.nextFileNumber + 1
    flushJobs := s.flushJobs.modify j fun job => { job with phase := .written, sst := sst } }

theorem writeLevel0Table_eq_some {fileSize : List (Entry K V) → Nat} {nodeId : Nat}
    {s s' : DBState K V} {j : Nat} (h : s.writeLevel0Table fileSize nodeId j = some s') :
    ∃ job, s.flushJobs[j]? = some job ∧ job.phase = .picked ∧
      (∀ id ∈ job.memVec, (s.table id).fullTableFlush = true → (s.table id).ableToFlush = true) ∧
      s' = { s with
        nextFileNumber := s.nextFileNumber + 1
        flushJobs := s.flushJobs.modify j fun jb => { jb with
          phase := .written
          sst := flushTable fileSize nodeId s.nextFileNumber (job.memVec.map s.table) } } := by
  simp only [writeLevel0Table, Option.bind_eq_bind, Option.bind_eq_some_iff,
    Option.guard_eq_some', Option.pure_def, Option.some.injEq] at h
  obtain ⟨job, hjob, -, ⟨hp, hall⟩, rfl⟩ := h
  refine ⟨job, hjob, hp, fun id hid hfull => ?_, rfl⟩
  have := List.all_eq_true.mp hall id hid
  simpa [hfull] using this

/-- The job's tables marked flushed, each holding the job's table. -/
def markFlushed (s : DBState K V) (job : FlushJob K V) : DBState K V :=
  job.memVec.foldl (fun s id =>
    s.modifyTable id fun m => { m with flushState := .flushFinished, sstable := job.sst }) s

/-- Marking tables flushed changes the tables only: each of `ids` that exists is marked. -/
private theorem foldl_markFlushed (sst : Option (RemoteMemTableMetaData K V)) :
    ∀ (ids : List Nat) (s : DBState K V),
      let s' := ids.foldl (fun s id =>
        s.modifyTable id fun m => { m with flushState := .flushFinished, sstable := sst }) s
      s' = { s with memtables := s'.memtables } ∧
      s'.memtables.length = s.memtables.length ∧
      ∀ t, s'.table t = if t ∈ ids ∧ t < s.memtables.length then
        { s.table t with flushState := .flushFinished, sstable := sst } else s.table t
  | [], s => ⟨rfl, rfl, fun t => by simp⟩
  | id :: ids, s => by
    obtain ⟨heq, hlen, htab⟩ := foldl_markFlushed sst ids
      (s.modifyTable id fun m => { m with flushState := .flushFinished, sstable := sst })
    simp only [List.foldl_cons] at heq hlen htab ⊢
    refine ⟨heq.trans rfl, by simpa using hlen, fun t => ?_⟩
    rw [htab t, length_memtables_modifyTable]
    by_cases ht : t = id
    · subst ht
      by_cases hlt : t < s.memtables.length
      · simp [hlt, table_modifyTable_self _ _ _ hlt]
      · simp [hlt, table_of_length_le _ (Nat.le_of_not_lt hlt),
          table_of_length_le (s.modifyTable t _) (by simpa using Nat.le_of_not_lt hlt)]
    · simp [ht, table_modifyTable_ne _ _ (Ne.symm ht)]

theorem markFlushed_eq (s : DBState K V) (job : FlushJob K V) :
    s.markFlushed job = { s with memtables := (s.markFlushed job).memtables } :=
  (foldl_markFlushed job.sst job.memVec s).1

@[simp] theorem length_memtables_markFlushed (s : DBState K V) (job : FlushJob K V) :
    (s.markFlushed job).memtables.length = s.memtables.length :=
  (foldl_markFlushed job.sst job.memVec s).2.1

theorem table_markFlushed (s : DBState K V) (job : FlushJob K V) (t : Nat) :
    (s.markFlushed job).table t = if t ∈ job.memVec ∧ t < s.memtables.length then
      { s.table t with flushState := .flushFinished, sstable := job.sst } else s.table t :=
  (foldl_markFlushed job.sst job.memVec s).2.2 t

/-- `TryInstallMemtableFlushResults`: the job's tables marked flushed; then, when the oldest table
of `memlist_` is flushed, the flushed tables from the oldest on are taken off the list and their
tables added to level 0, oldest first, in one `LogAndApply`. -/
def tryInstallMemtableFlushResults (s : DBState K V) (j : Nat) : Option (DBState K V) := do
  let job ← s.flushJobs[j]?
  guard (job.phase = .written)
  let s := { s.markFlushed job with flushJobs := s.flushJobs.eraseIdx j }
  let batch := s.imm.reverse.takeWhile fun id => (s.table id).flushState = .flushFinished
  let edit : VersionEdit K V := ⟨[], (batch.filterMap fun id => (s.table id).sstable).map (0, ·)⟩
  let (current, flags) := logAndApply s.versions.current s.versions.underCompaction edit
  if batch.isEmpty then pure s
  else pure { s with
    imm := s.imm.take (s.imm.length - batch.length)
    versions := ⟨current, flags⟩ }

theorem tryInstallMemtableFlushResults_eq_some {s s' : DBState K V} {j : Nat}
    (h : s.tryInstallMemtableFlushResults j = some s') :
    ∃ job, s.flushJobs[j]? = some job ∧ job.phase = .written ∧ ∃ vs,
      s' = { s.markFlushed job with
        flushJobs := s.flushJobs.eraseIdx j
        imm := (s.markFlushed job).imm.take ((s.markFlushed job).imm.length -
          ((s.markFlushed job).imm.reverse.takeWhile fun id =>
            ((s.markFlushed job).table id).flushState = .flushFinished).length)
        versions := vs } := by
  simp only [tryInstallMemtableFlushResults, Option.bind_eq_bind, Option.bind_eq_some_iff,
    Option.guard_eq_some', Option.pure_def] at h
  obtain ⟨job, hjob, -, hp, h⟩ := h
  refine ⟨job, hjob, hp, ?_⟩
  split_ifs at h with hb
  · refine ⟨(s.markFlushed job).versions, ?_⟩
    have hb' : ((s.markFlushed job).imm.reverse.takeWhile fun id =>
        ((s.markFlushed job).table id).flushState = .flushFinished) = [] := List.isEmpty_iff.mp hb
    rw [hb', List.length_nil, Nat.sub_zero, List.take_length]
    exact (Option.some.inj h).symm
  · exact ⟨_, (Option.some.inj h).symm⟩

end DBState

end DLSM
