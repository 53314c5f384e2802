import DLSM.DB.Read

/-! The steps of every thread of a `DBImpl` as one action type, the step function over the
shared state, and runs from a freshly opened database.  Any interleaving of the threads is a list
of actions; an action that is not enabled stops the run. -/

namespace DLSM

variable {K V : Type} [LinearOrder K]

/-- One atomic step of one thread.  Writer steps name the writer by its index among the writers
in flight, flush steps the flush job by its index, `installCompaction` the pending compaction. -/
inductive Action (K V : Type) where
  | write (key : K) (type : ValueType) (value : V)
  | loadMem (i : Nat)
  | leaveSwitchLoop (i : Nat)
  | stallReload (i : Nat)
  | slowdownReload (i : Nat)
  | lockedSwitch (i : Nat)
  | searchTable (i : Nat)
  | insertInto (i : Nat)
  | increaseSeqCount (i : Nat)
  | clearMem
  | pickMemtablesToFlush
  | writeLevel0Table (j : Nat)
  | tryInstallMemtableFlushResults (j : Nat)
  | pickCompaction (rand : Nat → Nat)
  | installCompaction (i : Nat)
  | getSnapshot
  | releaseSnapshot (i : Nat)

namespace DBState

/-- One step, under the options `opts` and the builders' `FileSize()`. -/
def step (opts : DBOptions) (fileSize : List (Entry K V) → Nat) (s : DBState K V) :
    Action K V → Option (DBState K V)
  | .write key type value => some (s.write key type value)
  | .loadMem i => s.loadMem i
  | .leaveSwitchLoop i => s.leaveSwitchLoop i
  | .stallReload i => s.stallReload i
  | .slowdownReload i => s.slowdownReload i
  | .lockedSwitch i => s.lockedSwitch i
  | .searchTable i => s.searchTable i
  | .insertInto i => s.insertInto i
  | .increaseSeqCount i => s.increaseSeqCount i
  | .clearMem => some s.clearMem
  | .pickMemtablesToFlush => s.pickMemtablesToFlush
  | .writeLevel0Table j => s.writeLevel0Table fileSize opts.computeNodeId j
  | .tryInstallMemtableFlushResults j => s.tryInstallMemtableFlushResults j
  | .pickCompaction rand => s.pickCompaction rand
  | .installCompaction i => s.installCompaction opts fileSize i
  | .getSnapshot => some s.getSnapshot
  | .releaseSnapshot i => s.releaseSnapshot i

/-- The state after the actions `as`, when each is enabled in turn. -/
def run (opts : DBOptions) (fileSize : List (Entry K V) → Nat) (s : DBState K V) :
    List (Action K V) → Option (DBState K V)
  | [] => some s
  | a :: as => (s.step opts fileSize a).bind fun s' => run opts fileSize s' as

theorem run_append (opts : DBOptions) (fileSize : List (Entry K V) → Nat) (s : DBState K V)
    (as bs : List (Action K V)) :
    s.run opts fileSize (as ++ bs) = (s.run opts fileSize as).bind fun s' => s'.run opts fileSize bs := by
  induction as generalizing s with
  | nil => rfl
  | cons a as ih =>
    simp only [List.cons_append, run]
    cases s.step opts fileSize a with
    | none => rfl
    | some s' => exact ih s'

end DBState

/-- A state some interleaving reaches from a freshly opened database. -/
def Reachable (opts : DBOptions) (fileSize : List (Entry K V) → Nat) (s : DBState K V) : Prop :=
  ∃ as, DBState.init.run opts fileSize as = some s

/-- A `Put` run alone by one writer, from `Write` to `increase_seq_count`, when no other writer
is in flight and the key's number is in the range of `mem_`. -/
def soloPut (key : K) (value : V) : List (Action K V) :=
  [.write key .kTypeValue value, .loadMem 0, .leaveSwitchLoop 0, .searchTable 0, .insertInto 0,
    .increaseSeqCount 0]

/-- `WaitforAllbgtasks(true)` with no other thread running: the switch, and the flush of the
table switched out by the calling thread's `ForceCompactMemTable`. -/
def soloClearMem : List (Action K V) :=
  [.clearMem, .pickMemtablesToFlush, .writeLevel0Table 0, .tryInstallMemtableFlushResults 0]

/-- `FileSize()` of a builder given entries whose values stand for their lengths in bytes. -/
def valueBytes (es : List (Entry K Nat)) : Nat := (es.map (·.value)).sum

/-- Two threads in `WaitforAllbgtasks(true)`, after a `Put` each: the second flush draws its file
number first, so the older memtable's table gets the larger number.  Level 0 then holds a file
with a larger number and older entries, and `Version::Get`, newest number first, returns the
older value. -/
theorem level0_number_order_inverts_recency :
    ∃ s ∈ (DBState.init : DBState Bytes Nat).run DBOptions.default valueBytes
        (soloPut [1] 10 ++ [.clearMem] ++ soloPut [1] 20 ++
          [.clearMem, .pickMemtablesToFlush, .pickMemtablesToFlush, .writeLevel0Table 1,
            .writeLevel0Table 0, .tryInstallMemtableFlushResults 1,
            .tryInstallMemtableFlushResults 0]),
      (s.versions.current.files 0).map (fun f => (f.number, f.entries)) =
        [(3, [⟨.mk' [1] 1 .kTypeValue, 20⟩]), (4, [⟨.mk' [1] 0 .kTypeValue, 10⟩])] ∧
      s.get [1] s.lastSequence = some ⟨.mk' [1] 0 .kTypeValue, 10⟩ := by
  decide +kernel

/-- A snapshot taken after `[9]` and `[1]` were written at 0 and 1 is 2, and reads `[1]` at 1.  A
flush of the memtable that holds `[1]` at 1 and at 3 (`BuildTable`), or a near-data compaction of
the two level-0 tables that hold them (`Memory_Node_Keeper::DoCompactionWork`), keeps only the
version at 3, and the snapshot, still live, then finds nothing for `[1]`. -/
theorem snapshot_read_lost_by_flush_and_memory_node_compaction :
    (∃ s ∈ (DBState.init : DBState Bytes Nat).run DBOptions.default valueBytes
        (soloPut [9] 1 ++ soloPut [1] 1 ++ [.getSnapshot] ++ soloPut [9] 2 ++ soloPut [1] 2),
      s.snapshots = [2] ∧ s.get [1] 2 = some ⟨.mk' [1] 1 .kTypeValue, 1⟩ ∧
      ∃ s' ∈ s.run DBOptions.default valueBytes soloClearMem,
        s'.snapshots = [2] ∧ s'.get [1] 2 = none) ∧
    (∃ s ∈ (DBState.init : DBState Bytes Nat).run DBOptions.default valueBytes
        (soloPut [9] 1 ++ soloPut [1] 1 ++ soloClearMem ++ [.getSnapshot] ++ soloPut [9] 2 ++
          soloPut [1] 2 ++ soloClearMem),
      s.snapshots = [2] ∧ s.get [1] 2 = some ⟨.mk' [1] 1 .kTypeValue, 1⟩ ∧
      ∃ s' ∈ s.run DBOptions.default valueBytes [.pickCompaction fun _ => 0, .installCompaction 0],
        s'.snapshots = [2] ∧ s'.get [1] 2 = none) := by
  decide +kernel

/-- The options of a compute node that compacts on its own: `near_data_compaction` off. -/
def computeSideOptions : DBOptions := { DBOptions.default with nearDataCompaction := false }

/-- Two flushed versions of one key, each of 300 MB, under a snapshot at 0, on the compute node:
the first compaction merges the two level-0 files and cuts its output after each version, into
files 5 and 6 of level 1; the next pick starts at index 1 and takes file 6, the one after starts
at index 0 and takes file 5. -/
def sharedNeighbourTrace : List (Action Bytes Nat) :=
  [.getSnapshot] ++ soloPut [1] (300 * 1048576) ++ soloClearMem ++ soloPut [1] (300 * 1048576) ++
    soloClearMem ++ [.pickCompaction fun _ => 0, .installCompaction 0, .pickCompaction fun _ => 1,
      .pickCompaction fun _ => 0]

end DLSM
