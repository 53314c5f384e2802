import DLSM.DB.Flush

/-! The compaction thread of `DBImpl::BackgroundCompaction`, built with `NEARDATACOMPACTION`, in
two steps: `VersionSet::PickCompaction`, and the installation of what the compaction produced.
A compaction with one input file and none on the next level is a trivial move: the file is
removed from its level and added one level down.  Any other runs on the memory node when
`near_data_compaction` is set, else on the compute node with `DoCompactionWork`, each with its
subcompaction variant when there are at least four level-0 inputs and more than one on the next
level; the outputs, numbered from `NewFileNumber()`, replace the inputs in one `LogAndApply`.  A
compaction runs as one step at its installation, with the snapshots live then.  Snapshots are
taken and released by `GetSnapshot` and `ReleaseSnapshot`. -/

set_option linter.unusedSectionVars false

namespace DLSM

variable {K V : Type} [LinearOrder K]

namespace DBState

/-- `VersionSet::PickCompaction`, when it returns a compaction. -/
def pickCompaction (s : DBState K V) (rand : Nat → Nat) : Option (DBState K V) :=
  match DLSM.pickCompaction s.versions rand with
  | (some c, versions) => some { s with versions := versions, pending := s.pending ++ [c] }
  | (none, _) => none

theorem pickCompaction_eq_some {s s' : DBState K V} {rand : Nat → Nat}
    (h : s.pickCompaction rand = some s') :
    ∃ c, (DLSM.pickCompaction s.versions rand).1 = some c ∧
      s' = { s with
        versions := (DLSM.pickCompaction s.versions rand).2
        pending := s.pending ++ [c] } := by
  unfold pickCompaction at h
  split at h
  · next c vs hc => exact ⟨c, by rw [hc], by rw [hc]; exact (Option.some.inj h).symm⟩
  · cases h

/-- `Compaction::IsTrivialMove`; `grandparents_` is never filled on this path, so their size is
no obstacle. -/
def isTrivialMove (c : Compaction K V) : Bool :=
  c.inputs0.length = 1 && c.inputs1.isEmpty

/-- The output files of a compaction: the entries the builders were given, from the level below
the compaction's, numbered from `number`. -/
def outputFiles (fileSize : List (Entry K V) → Nat) (nodeId level number : Nat)
    (outputs : List (Compaction.CompactionOutput K V)) : List (RemoteMemTableMetaData K V) :=
  (outputs.zipIdx number).map fun (out, n) =>
    ⟨level + 1, n, nodeId, fileSize out.entries, out.smallest, out.largest, out.entries⟩

/-- What the compaction `c` writes: on the memory node without snapshots, else on the compute node
with `smallest_snapshot`, and with subcompactions when there are enough inputs. -/
def compactionOutputs (opts : DBOptions) (fileSize : List (Entry K V) → Nat) (s : DBState K V)
    (c : Compaction K V) : List (Compaction.CompactionOutput K V) :=
  let sub := opts.usesubcompaction && decide (4 ≤ c.inputs0.length) && decide (1 < c.inputs1.length)
  if opts.nearDataCompaction then
    if sub then
      Compaction.memoryNodeDoCompactionWorkWithSubcompaction fileSize opts.maxFileSize
        opts.maxSubcompaction opts.maxFileSize c
    else Compaction.memoryNodeDoCompactionWork fileSize opts.maxFileSize (Compaction.makeInputIterator c)
  else if sub then
    Compaction.doCompactionWorkWithSubcompaction fileSize opts.maxFileSize opts.maxSubcompaction
      opts.maxFileSize s.smallestSnapshot c
  else
    Compaction.doCompactionWork fileSize opts.maxFileSize s.smallestSnapshot
      (Compaction.makeInputIterator c)

/-- `Compaction::AddInputDeletions`. -/
def inputDeletions (c : Compaction K V) : List (Nat × Nat × Nat) :=
  c.inputs0.map (fun f => (c.level, f.number, f.creatorNodeId)) ++
    c.inputs1.map fun f => (c.level + 1, f.number, f.creatorNodeId)

/-- The installation of the pending compaction at index `i`: a trivial move, or the outputs of
the compaction replacing its inputs. -/
def installCompaction (opts : DBOptions) (fileSize : List (Entry K V) → Nat) (s : DBState K V)
    (i : Nat) : Option (DBState K V) := do
  let c ← s.pending[i]?
  let s' := { s with pending := s.pending.eraseIdx i }
  match c.inputs0, isTrivialMove c with
  | [f], true =>
    let edit : VersionEdit K V :=
      ⟨[(c.level, f.number, f.creatorNodeId)], [(c.level + 1, { f with level := c.level + 1 })]⟩
    let (current, flags) := logAndApply s.versions.current s.versions.underCompaction edit
    -- the near-data build clears the moved file's flag after `LogAndApply`
    pure { s' with versions := ⟨current, flags.filter (· ≠ f.fileId)⟩ }
  | _, _ =>
    let nodeId := if opts.nearDataCompaction then opts.memoryNodeId else opts.computeNodeId
    let files := outputFiles fileSize nodeId c.level s.nextFileNumber
      (compactionOutputs opts fileSize s c)
    let edit : VersionEdit K V := ⟨inputDeletions c, files.map (c.level + 1, ·)⟩
    let (current, flags) := logAndApply s.versions.current s.versions.underCompaction edit
    pure { s' with versions := ⟨current, flags⟩, nextFileNumber := s.nextFileNumber + files.length }

/-- Installing a compaction changes the version set, the pending list and the file counter only. -/
theorem installCompaction_eq_some {opts : DBOptions} {fileSize : List (Entry K V) → Nat}
    {s s' : DBState K V} {i : Nat} (h : s.installCompaction opts fileSize i = some s') :
    ∃ c vs n, s.pending[i]? = some c ∧
      s' = { s with pending := s.pending.eraseIdx i, versions := vs, nextFileNumber := n } := by
  simp only [installCompaction, Option.bind_eq_bind, Option.bind_eq_some_iff] at h
  obtain ⟨c, hc, h⟩ := h
  split at h
  · exact ⟨c, _, _, hc, (Option.some.inj h).symm⟩
  · exact ⟨c, _, _, hc, (Option.some.inj h).symm⟩

/-- `DBImpl::GetSnapshot`: a snapshot at `LastSequence()`. -/
def getSnapshot (s : DBState K V) : DBState K V :=
  { s with snapshots := s.snapshots ++ [s.lastSequence] }

/-- `DBImpl::ReleaseSnapshot` of the snapshot at index `i`. -/
def releaseSnapshot (s : DBState K V) (i : Nat) : Option (DBState K V) := do
  let _ ← s.snapshots[i]?
  pure { s with snapshots := s.snapshots.eraseIdx i }

theorem releaseSnapshot_eq_some {s s' : DBState K V} {i : Nat} (h : s.releaseSnapshot i = some s') :
    ∃ x, s.snapshots[i]? = some x ∧ s' = { s with snapshots := s.snapshots.eraseIdx i } := by
  simp only [releaseSnapshot, Option.bind_eq_bind, Option.bind_eq_some_iff, Option.pure_def,
    Option.some.injEq] at h
  obtain ⟨x, hx, rfl⟩ := h
  exact ⟨x, hx, rfl⟩

end DBState

end DLSM
