import Mathlib
import DLSM.DB.Step
import DLSM.Lib.List

/-! How `DBImpl::Write` routes a sequence number to a memtable, over any interleaving of writer
threads with the table switch of `PickupTableToWrite`, the flush threads and the compaction
threads.  Without the switch of `WaitforAllbgtasks(true)`, the `t`-th memtable ever created owns
the numbers from `t * MEMTABLE_SEQ_SIZE` to `(t + 1) * MEMTABLE_SEQ_SIZE - 1`, `mem_` and
`memlist_` hold the tables from the oldest unflushed one up to the newest, and `seq_count` is the
number of writers that have returned with a number of the table's range.  A full table is flushed
only once `seq_count` reaches `MEMTABLE_SEQ_SIZE`, so only when every number of its range has been
written into it.  The switch of `PickupTableToWrite` gives the writer the new table only if its
number is at most `MEMTABLE_SEQ_SIZE` past the old range, which holds while at most
`MEMTABLE_SEQ_SIZE` writers are in flight. -/

set_option linter.unusedSectionVars false

namespace DLSM

variable {K V : Type} [LinearOrder K]

namespace DBState

/-- A number that `AssignSequnceNumbers` handed out and whose writer has returned from `Write`. -/
def Finished (s : DBState K V) (q : Nat) : Prop :=
  q < s.lastSequence ∧ q ∉ s.writers.map (·.seq)

instance (s : DBState K V) (q : Nat) : Decidable (s.Finished q) :=
  inferInstanceAs (Decidable (_ ∧ _))

/-- The finished numbers of the range of the `t`-th memtable. -/
def finishedIn (s : DBState K V) (t : Nat) : Finset Nat :=
  (Finset.Ico (t * memtableSeqSize) ((t + 1) * memtableSeqSize)).filter s.Finished

theorem finished_congr {s s' : DBState K V} (hl : s'.lastSequence = s.lastSequence)
    (hw : s'.writers.map (·.seq) = s.writers.map (·.seq)) (q : Nat) :
    s'.Finished q ↔ s.Finished q := by
  rw [Finished, Finished, hl, hw]

theorem finishedIn_congr {s s' : DBState K V} (hl : s'.lastSequence = s.lastSequence)
    (hw : s'.writers.map (·.seq) = s.writers.map (·.seq)) (t : Nat) :
    s'.finishedIn t = s.finishedIn t :=
  Finset.filter_congr fun q _ => finished_congr hl hw q

theorem card_finishedIn_le (s : DBState K V) (t : Nat) :
    (s.finishedIn t).card ≤ memtableSeqSize := by
  have h := Finset.card_filter_le (Finset.Ico (t * memtableSeqSize) ((t + 1) * memtableSeqSize))
    s.Finished
  rw [Nat.card_Ico] at h
  rw [finishedIn]
  have : (t + 1) * memtableSeqSize - t * memtableSeqSize = memtableSeqSize := by
    rw [Nat.succ_mul, Nat.add_sub_cancel_left]
  omega

/-- A writer that returns from `Write` finishes its number and no other. -/
theorem finished_retire {s s' : DBState K V} {i : Nat} {w : Writer K V}
    (hnodup : (s.writers.map (·.seq)).Nodup) (hw : s.writers[i]? = some w)
    (hlt : w.seq < s.lastSequence) (hwr : s'.writers = s.writers.eraseIdx i)
    (hls : s'.lastSequence = s.lastSequence) (q : Nat) :
    s'.Finished q ↔ s.Finished q ∨ q = w.seq := by
  have hmem := List.mem_map_eraseIdx_iff hnodup hw (y := q)
  simp only [Finished, hwr, hls] at hmem ⊢
  constructor
  · rintro ⟨hq, hnot⟩
    by_cases hqw : q = w.seq
    · exact .inr hqw
    · exact .inl ⟨hq, fun hin => hnot (hmem.mpr ⟨hqw, hin⟩)⟩
  · rintro (⟨hq, hnot⟩ | rfl)
    · exact ⟨hq, fun hin => hnot (hmem.mp hin).2⟩
    · exact ⟨hlt, fun hin => (hmem.mp hin).1 rfl⟩

/-- When the number `p` of range `t₀` becomes finished, only that range gains it. -/
theorem finishedIn_insert {s s' : DBState K V} {p t₀ : Nat}
    (hfin : ∀ q, s'.Finished q ↔ s.Finished q ∨ q = p) (hdiv : p / memtableSeqSize = t₀)
    (t : Nat) :
    s'.finishedIn t = if t = t₀ then insert p (s.finishedIn t) else s.finishedIn t := by
  ext q
  have hq := hfin q
  split_ifs with ht
  · subst ht
    simp only [finishedIn, Finset.mem_filter, Finset.mem_insert, Finset.mem_Ico, hq]
    constructor
    · rintro ⟨hr, hf | rfl⟩
      · exact .inr ⟨hr, hf⟩
      · exact .inl rfl
    · rintro (rfl | ⟨hr, hf⟩)
      · exact ⟨by simp only [memtableSeqSize] at hdiv ⊢; omega, .inr rfl⟩
      · exact ⟨hr, .inl hf⟩
  · simp only [finishedIn, Finset.mem_filter, Finset.mem_Ico, hq]
    constructor
    · rintro ⟨hr, hf | rfl⟩
      · exact ⟨hr, hf⟩
      · exact absurd hdiv (by simp only [memtableSeqSize] at hr ⊢; omega)
    · rintro ⟨hr, hf⟩
      exact ⟨hr, .inl hf⟩

/-- A table range with `MEMTABLE_SEQ_SIZE` finished numbers has all of its numbers finished. -/
theorem finished_of_card_finishedIn {s : DBState K V} {t : Nat}
    (h : memtableSeqSize ≤ (s.finishedIn t).card) {q : Nat} (hlo : t * memtableSeqSize ≤ q)
    (hhi : q < (t + 1) * memtableSeqSize) : s.Finished q := by
  have hcard : (s.finishedIn t).card =
      (Finset.Ico (t * memtableSeqSize) ((t + 1) * memtableSeqSize)).card := by
    rw [Nat.card_Ico, Nat.succ_mul, Nat.add_sub_cancel_left]
    exact le_antisymm (card_finishedIn_le s t) h
  exact Finset.filter_card_eq hcard q (Finset.mem_Ico.mpr ⟨hlo, hhi⟩)

end DBState

open DBState

/-- What a writer in flight knows of the table it holds, phase by phase: the table exists, its
entry carries its number, it never dereferences `nullptr`, past the first loop its number is
within the table's upper bound, once picked the table owns the number, and once inserted the
table holds the entry. -/
structure WriterInv (s : DBState K V) (w : Writer K V) : Prop where
  memR_lt : w.memR < s.memtables.length
  key : w.entry.key.sequence = w.seq
  not_failed : w.phase ≠ .failed
  searching : w.phase = .searching → w.seq ≤ (s.table w.memR).largestSeqSupposed
  owns : w.phase = .picked ∨ w.phase = .inserted → (s.table w.memR).owns w.seq = true
  inserted : w.phase = .inserted → w.entry ∈ (s.table w.memR).entries

/-- `s'` keeps every table of `s` with its range and its flush flags, and at least its entries. -/
structure TablesGrow (s s' : DBState K V) : Prop where
  length : s.memtables.length ≤ s'.memtables.length
  firstSeq : ∀ t < s.memtables.length, (s'.table t).firstSeq = (s.table t).firstSeq
  largestSeqSupposed : ∀ t < s.memtables.length,
    (s'.table t).largestSeqSupposed = (s.table t).largestSeqSupposed
  entries : ∀ t, (s.table t).entries ⊆ (s'.table t).entries

theorem TablesGrow.of_memtables_eq {s s' : DBState K V} (h : s'.memtables = s.memtables) :
    TablesGrow s s' := by
  have ht : ∀ t, s'.table t = s.table t := fun t => by rw [table, table, h]
  exact ⟨by rw [h], fun t _ => by rw [ht], fun t _ => by rw [ht],
    fun t => by rw [ht]; exact List.Subset.refl _⟩

theorem WriterInv.grow {s s' : DBState K V} {w : Writer K V} (h : WriterInv s w)
    (hg : TablesGrow s s') : WriterInv s' w where
  memR_lt := Nat.lt_of_lt_of_le h.memR_lt hg.length
  key := h.key
  not_failed := h.not_failed
  searching hp := hg.largestSeqSupposed _ h.memR_lt ▸ h.searching hp
  owns hp := by
    have := h.owns hp
    simpa [MemTable.owns, hg.firstSeq _ h.memR_lt, hg.largestSeqSupposed _ h.memR_lt] using this
  inserted hp := hg.entries _ (h.inserted hp)

theorem WriterInv.of_switching {s : DBState K V} {w : Writer K V} (hm : w.memR < s.memtables.length)
    (hk : w.entry.key.sequence = w.seq) (hp : w.phase = .switching) : WriterInv s w :=
  ⟨hm, hk, by simp [hp], by simp [hp], by simp [hp], by simp [hp]⟩

/-- `m'` is `m` with the same range, count and flush flags, and at least its entries: what an
insert or a change of flush state does to a memtable. -/
structure MemTable.Keeps (m m' : MemTable K V) : Prop where
  firstSeq : m'.firstSeq = m.firstSeq
  largestSeqSupposed : m'.largestSeqSupposed = m.largestSeqSupposed
  seqCount : m'.seqCount = m.seqCount
  ableToFlush : m'.ableToFlush = m.ableToFlush
  fullTableFlush : m'.fullTableFlush = m.fullTableFlush
  entries : m.entries ⊆ m'.entries

theorem MemTable.Keeps.refl (m : MemTable K V) : m.Keeps m :=
  ⟨rfl, rfl, rfl, rfl, rfl, List.Subset.refl _⟩

theorem MemTable.keeps_add (m : MemTable K V) (e : Entry K V) : m.Keeps (m.add e) :=
  ⟨rfl, rfl, rfl, rfl, rfl, fun _ hx => by simp [MemTable.add, hx]⟩

theorem keeps_modifyTable (s : DBState K V) (id : Nat) {f : MemTable K V → MemTable K V}
    (hf : ∀ m : MemTable K V, m.Keeps (f m)) (t : Nat) : (s.table t).Keeps ((s.modifyTable id f).table t) := by
  by_cases ht : id = t ∧ t < s.memtables.length
  · obtain ⟨rfl, hlt⟩ := ht
    rw [table_modifyTable_self _ _ _ hlt]
    exact hf _
  · by_cases hid : id = t
    · subst hid
      have hle : s.memtables.length ≤ id := by omega
      rw [table_of_length_le _ hle, table_of_length_le _ (by simpa using hle)]
      exact .refl _
    · rw [table_modifyTable_ne _ _ hid]
      exact .refl _

theorem TablesGrow.of_keeps {s s' : DBState K V} (hlen : s.memtables.length ≤ s'.memtables.length)
    (hk : ∀ t, (s.table t).Keeps (s'.table t)) : TablesGrow s s' :=
  ⟨hlen, fun t _ => (hk t).firstSeq, fun t _ => (hk t).largestSeqSupposed, fun t => (hk t).entries⟩

/-- The invariant of the write and flush paths. -/
structure RoutingInv (s : DBState K V) : Prop where
  range : ∀ t < s.memtables.length, (s.table t).firstSeq = t * memtableSeqSize ∧
    (s.table t).largestSeqSupposed + 1 = (t + 1) * memtableSeqSize
  full : ∀ t, (s.table t).fullTableFlush = true
  mem : s.mem + 1 = s.memtables.length
  imm : ∃ k ≤ s.mem, s.imm = (List.range' k (s.mem - k)).reverse ∧
    ∀ t < k, (s.table t).ableToFlush = true
  seq_lt : ∀ w ∈ s.writers, w.seq < s.lastSequence
  nodup : (s.writers.map (·.seq)).Nodup
  writer : ∀ w ∈ s.writers, WriterInv s w
  finished_lt : ∀ q, s.Finished q → q < s.memtables.length * memtableSeqSize
  count : ∀ t, (s.table t).seqCount = (s.finishedIn t).card
  able : ∀ t, (s.table t).ableToFlush = decide (memtableSeqSize ≤ (s.table t).seqCount)
  flushed : ∀ t, (s.table t).flushState = .flushFinished → (s.table t).ableToFlush = true
  written : ∀ job ∈ s.flushJobs, job.phase = .written →
    ∀ id ∈ job.memVec, (s.table id).ableToFlush = true
  stored : ∀ q, s.Finished q →
    ∃ e ∈ (s.table (q / memtableSeqSize)).entries, e.key.sequence = q

namespace RoutingInv

variable {s : DBState K V}

theorem init : RoutingInv (DBState.init : DBState K V) := by
  have hfin : ∀ q, ¬(DBState.init : DBState K V).Finished q := fun q h => by
    simp [Finished, DBState.init] at h
  have hempty : ∀ t, (DBState.init : DBState K V).finishedIn t = ∅ := fun t =>
    Finset.filter_false_of_mem fun q _ => hfin q
  have htab : ∀ t, (DBState.init : DBState K V).table t =
      if t = 0 then MemTable.create 0 (memtableSeqSize - 1) else MemTable.create 0 0 := by
    intro t
    cases t <;> simp [table, DBState.init]
  refine ⟨fun t ht => ?_, fun t => ?_, rfl, ⟨0, le_rfl, rfl, fun t ht => absurd ht (by omega)⟩,
    fun w hw => by simp [DBState.init] at hw, by simp [DBState.init],
    fun w hw => by simp [DBState.init] at hw, fun q hq => absurd hq (hfin q), fun t => ?_,
    fun t => ?_, fun t => ?_, fun job hj => by simp [DBState.init] at hj,
    fun q hq => absurd hq (hfin q)⟩
  · have ht0 : t = 0 := by simpa [DBState.init] using ht
    subst ht0
    simp [htab, MemTable.create, memtableSeqSize]
  · rw [htab]; split <;> rfl
  · rw [hempty, htab]; split <;> rfl
  · rw [htab]; split <;> simp [MemTable.create, memtableSeqSize]
  · rw [htab]; split <;> simp [MemTable.create]

theorem writerAt (h : RoutingInv s) {i : Nat} {w : Writer K V} (hw : s.writers[i]? = some w) :
    WriterInv s w :=
  h.writer w (List.mem_of_getElem? hw)

/-- The table of index `t` owns exactly the numbers whose quotient by `MEMTABLE_SEQ_SIZE` is
`t`. -/
theorem owns_iff (h : RoutingInv s) {t : Nat} (ht : t < s.memtables.length) (q : Nat) :
    (s.table t).owns q = true ↔ q / memtableSeqSize = t := by
  obtain ⟨hf, hl⟩ := h.range t ht
  simp only [MemTable.owns, decide_eq_true_eq, hf]
  simp only [memtableSeqSize] at hl ⊢
  omega

/-- A table whose flush may start has every number of its range finished. -/
theorem finished_of_able (h : RoutingInv s) {t : Nat} (ha : (s.table t).ableToFlush = true)
    {q : Nat} (hq : q / memtableSeqSize = t) : s.Finished q := by
  have hc : memtableSeqSize ≤ (s.finishedIn t).card := by
    have := h.able t
    rw [ha, h.count t] at this
    exact of_decide_eq_true this.symm
  exact finished_of_card_finishedIn hc (by simp only [memtableSeqSize] at hq ⊢; omega)
    (by simp only [memtableSeqSize] at hq ⊢; omega)

/-- Every number past the tables' ranges and already handed out is held by a writer in flight, so
the counter is at most that many numbers past the newest range. -/
theorem lastSequence_le (h : RoutingInv s) :
    s.lastSequence ≤ s.memtables.length * memtableSeqSize + s.writers.length := by
  have hsub : Finset.Ico (s.memtables.length * memtableSeqSize) s.lastSequence ⊆
      (s.writers.map (·.seq)).toFinset := by
    intro q hq
    obtain ⟨hlo, hhi⟩ := Finset.mem_Ico.mp hq
    rw [List.mem_toFinset]
    by_contra hnot
    exact absurd (h.finished_lt q ⟨hhi, hnot⟩) (by omega)
  have hcard := Finset.card_le_card hsub
  rw [Nat.card_Ico, List.toFinset_card_of_nodup h.nodup, List.length_map] at hcard
  omega

/-- A step that keeps every table's range, count and flush flags, and touches neither `mem_`,
`memlist_`, the writers nor the counter, keeps the invariant once the flushed tables and the
written jobs still have their flush allowed. -/
theorem of_keeps {s' : DBState K V} (h : RoutingInv s)
    (hlen : s'.memtables.length = s.memtables.length) (hk : ∀ t, (s.table t).Keeps (s'.table t))
    (hmem : s'.mem = s.mem) (himm : s'.imm = s.imm) (hw : s'.writers = s.writers)
    (hl : s'.lastSequence = s.lastSequence)
    (hfl : ∀ t, (s'.table t).flushState = .flushFinished → (s'.table t).ableToFlush = true)
    (hjobs : ∀ job ∈ s'.flushJobs, job.phase = .written →
      ∀ id ∈ job.memVec, (s'.table id).ableToFlush = true) : RoutingInv s' := by
  have hfin : ∀ q, s'.Finished q ↔ s.Finished q := finished_congr hl (by rw [hw])
  have hfinIn : ∀ t, s'.finishedIn t = s.finishedIn t := finishedIn_congr hl (by rw [hw])
  obtain ⟨k, hk0, himm0, hable0⟩ := h.imm
  refine ⟨fun t ht => ?_, fun t => ?_, by rw [hmem, hlen]; exact h.mem,
    ⟨k, by rw [hmem]; exact hk0, by rw [himm, hmem]; exact himm0,
      fun t ht => by rw [(hk t).ableToFlush]; exact hable0 t ht⟩,
    fun w hw' => by rw [hl]; exact h.seq_lt w (hw ▸ hw'), by rw [hw]; exact h.nodup,
    fun w hw' => (h.writer w (hw ▸ hw')).grow (.of_keeps hlen.ge hk),
    fun q hq => by rw [hlen]; exact h.finished_lt q ((hfin q).mp hq),
    fun t => by rw [(hk t).seqCount, hfinIn]; exact h.count t,
    fun t => by rw [(hk t).ableToFlush, (hk t).seqCount]; exact h.able t, hfl, hjobs,
    fun q hq => ?_⟩
  · rw [hlen] at ht
    rw [(hk t).firstSeq, (hk t).largestSeqSupposed]
    exact h.range t ht
  · rw [(hk t).fullTableFlush]; exact h.full t
  · obtain ⟨e, he, hseq⟩ := h.stored q ((hfin q).mp hq)
    exact ⟨e, (hk _).entries he, hseq⟩

/-- A change of one memtable that keeps its range, its count and its flush flags, and that never
marks it flushed. -/
theorem modifyTable (h : RoutingInv s) (id : Nat) {f : MemTable K V → MemTable K V}
    (hf : ∀ m : MemTable K V, m.Keeps (f m))
    (hfs : ∀ m, (f m).flushState = .flushFinished → m.flushState = .flushFinished) :
    RoutingInv (s.modifyTable id f) := by
  have hk := keeps_modifyTable s id hf
  refine h.of_keeps (by simp) hk rfl rfl rfl rfl (fun t hft => ?_) (fun job hj hp i hi => ?_)
  · rw [(hk t).ableToFlush]
    refine h.flushed t ?_
    by_cases ht : id = t ∧ t < s.memtables.length
    · obtain ⟨rfl, hlt⟩ := ht
      rw [table_modifyTable_self _ _ _ hlt] at hft
      exact hfs _ hft
    · by_cases hid : id = t
      · subst hid
        have hle : s.memtables.length ≤ id := by omega
        rwa [table_of_length_le _ (by simpa using hle), ← table_of_length_le _ hle] at hft
      · rwa [table_modifyTable_ne _ _ hid] at hft
  · rw [(hk i).ableToFlush]
    exact h.written job hj hp i hi

/-- Only the version set, the pending compactions, the file counter and the snapshots change. -/
theorem frame (h : RoutingInv s) (vs : VersionSet K V) (n : Nat) (p : List (Compaction K V))
    (sn : List Nat) :
    RoutingInv { s with versions := vs, nextFileNumber := n, pending := p, snapshots := sn } :=
  h.of_keeps rfl (fun _ => .refl _) rfl rfl rfl rfl h.flushed h.written

theorem write (h : RoutingInv s) (key : K) (type : ValueType) (value : V) :
    RoutingInv (s.write key type value) := by
  have hfin : ∀ q, (s.write key type value).Finished q ↔ s.Finished q := by
    intro q
    simp only [Finished, DBState.write, List.map_append, List.map_singleton, List.mem_append,
      List.mem_singleton, not_or]
    constructor
    · rintro ⟨hq, hnot, hne⟩
      exact ⟨by omega, hnot⟩
    · rintro ⟨hq, hnot⟩
      exact ⟨by omega, hnot, by omega⟩
  have hfinIn : ∀ t, (s.write key type value).finishedIn t = s.finishedIn t := fun t =>
    Finset.filter_congr fun q _ => hfin q
  have hgrow : TablesGrow s (s.write key type value) := .of_memtables_eq rfl
  refine ⟨h.range, h.full, h.mem, h.imm, fun w hw => ?_, ?_, fun w hw => ?_,
    fun q hq => h.finished_lt q ((hfin q).mp hq), fun t => by rw [hfinIn]; exact h.count t,
    h.able, h.flushed, h.written, fun q hq => h.stored q ((hfin q).mp hq)⟩
  · simp only [DBState.write, List.mem_append, List.mem_singleton] at hw
    rcases hw with hw | rfl
    · exact Nat.lt_succ_of_lt (h.seq_lt w hw)
    · exact Nat.lt_succ_self _
  · simp only [DBState.write, List.map_append, List.map_singleton]
    refine List.nodup_append.mpr ⟨h.nodup, List.nodup_singleton _, fun a ha b hb => ?_⟩
    obtain ⟨w, hw, rfl⟩ := List.mem_map.mp ha
    rw [List.mem_singleton.mp hb]
    exact Nat.ne_of_lt (h.seq_lt w hw)
  · simp only [DBState.write, List.mem_append, List.mem_singleton] at hw
    rcases hw with hw | rfl
    · exact (h.writer w hw).grow hgrow
    · exact ⟨by show 0 < s.memtables.length; have := h.mem; omega, by simp, by simp, by simp,
        by simp, by simp⟩

/-- A step of one writer that keeps its number and its entry, given what the writer knows after
it. -/
theorem modifyWriter (h : RoutingInv s) {i : Nat} {w : Writer K V} (hw : s.writers[i]? = some w)
    {f : Writer K V → Writer K V} (hseq : ∀ w, (f w).seq = w.seq) (hf : WriterInv s (f w)) :
    RoutingInv (s.modifyWriter i f) := by
  have hmap : (s.modifyWriter i f).writers.map (·.seq) = s.writers.map (·.seq) := by
    rw [writers_modifyWriter]
    exact List.map_modify_of_eq hseq i s.writers
  have hfin : ∀ q, (s.modifyWriter i f).Finished q ↔ s.Finished q := finished_congr rfl hmap
  have hfinIn : ∀ t, (s.modifyWriter i f).finishedIn t = s.finishedIn t := finishedIn_congr rfl hmap
  have hgrow : TablesGrow s (s.modifyWriter i f) := .of_memtables_eq rfl
  have hcases : ∀ w' ∈ (s.modifyWriter i f).writers, w' ∈ s.writers ∨ w' = f w := by
    intro w' hw'
    rcases List.mem_modify hw' with hw' | ⟨b, hb, rfl⟩
    · exact .inl hw'
    · rw [hw] at hb
      cases hb
      exact .inr rfl
  refine ⟨h.range, h.full, h.mem, h.imm, fun w' hw' => ?_, by rw [hmap]; exact h.nodup,
    fun w' hw' => ?_, fun q hq => h.finished_lt q ((hfin q).mp hq),
    fun t => by rw [hfinIn]; exact h.count t, h.able, h.flushed, h.written,
    fun q hq => h.stored q ((hfin q).mp hq)⟩
  · rcases hcases w' hw' with hw' | rfl
    · exact h.seq_lt w' hw'
    · rw [hseq]; exact h.seq_lt w (List.mem_of_getElem? hw)
  · rcases hcases w' hw' with hw' | rfl
    · exact (h.writer w' hw').grow hgrow
    · exact hf.grow hgrow

/-- A writer step that reloads `mem_r = mem_.load()` and leaves the writer in the first loop. -/
theorem reloadMem (h : RoutingInv s) {i : Nat} {w : Writer K V} (hw : s.writers[i]? = some w)
    {f : Writer K V → Writer K V} (hseq : ∀ w, (f w).seq = w.seq) (hmem : (f w).memR = s.mem)
    (hentry : (f w).entry = w.entry) (hp : (f w).phase = .switching) :
    RoutingInv (s.modifyWriter i f) := by
  have hlt : (f w).memR < s.memtables.length := by
    rw [hmem]
    have := h.mem
    omega
  have hkey : (f w).entry.key.sequence = (f w).seq := by
    rw [hentry, hseq]
    exact (h.writerAt hw).key
  exact h.modifyWriter hw hseq (.of_switching hlt hkey hp)

/-- `mem_` and `memlist_` together are the tables from the oldest unflushed one up to the newest,
newest first. -/
theorem mem_cons_imm (h : RoutingInv s) : ∃ k ≤ s.mem,
    s.mem :: s.imm = (List.range' k (s.mem + 1 - k)).reverse ∧
    ∀ t < k, (s.table t).ableToFlush = true := by
  obtain ⟨k, hk0, himm0, hable0⟩ := h.imm
  refine ⟨k, hk0, ?_, hable0⟩
  rw [himm0, show s.mem + 1 - k = (s.mem - k) + 1 by omega, List.range'_concat,
    List.reverse_append, List.reverse_singleton, List.singleton_append]
  congr 1
  omega

/-- The switch of `PickupTableToWrite`: the new table takes the next range, and `mem_` joins the
front of `memlist_`. -/
theorem switch (h : RoutingInv s) :
    RoutingInv (s.switchMemtable ((s.table s.mem).largestSeqSupposed + 1)
      ((s.table s.mem).largestSeqSupposed + memtableSeqSize) true) := by
  have hmem := h.mem
  have hL := (h.range s.mem (by omega)).2
  have hfinlt := h.finished_lt
  rw [hmem] at hL
  set L := (s.table s.mem).largestSeqSupposed
  set n := s.memtables.length
  set s' := s.switchMemtable (L + 1) (L + memtableSeqSize) true
  -- the old tables keep everything the invariant reads but `mem_`'s flush state
  have hold : ∀ t, t ≠ n → (s.table t).Keeps (s'.table t) ∧
      ((s'.table t).flushState = .flushFinished → (s.table t).flushState = .flushFinished) := by
    intro t ht
    rw [table_switchMemtable, if_neg ht]
    by_cases htm : t = s.mem
    · subst htm
      rw [table_modifyTable_self _ _ _ (by omega)]
      exact ⟨⟨rfl, rfl, rfl, rfl, by simp, List.Subset.refl _⟩, by simp⟩
    · rw [table_modifyTable_ne _ _ (Ne.symm htm)]
      exact ⟨.refl _, id⟩
  have hnew : s'.table n = MemTable.create (L + 1) (L + memtableSeqSize) := by
    rw [table_switchMemtable, if_pos rfl]
  have hdefault : s.table n = MemTable.create 0 0 := table_of_length_le s le_rfl
  have hfin : ∀ q, s'.Finished q ↔ s.Finished q := finished_congr rfl rfl
  have hfinIn : ∀ t, s'.finishedIn t = s.finishedIn t := finishedIn_congr rfl rfl
  have hlen : s'.memtables.length = n + 1 := length_memtables_switchMemtable _ _ _ _
  have hgrow : TablesGrow s s' := by
    refine ⟨by omega, fun t ht => ((hold t (by omega)).1).firstSeq,
      fun t ht => ((hold t (by omega)).1).largestSeqSupposed, fun t => ?_⟩
    by_cases ht : t = n
    · subst ht; rw [hdefault]; exact List.nil_subset _
    · exact ((hold t ht).1).entries
  obtain ⟨k, hk0, hlive, hable0⟩ := h.mem_cons_imm
  refine ⟨fun t ht => ?_, fun t => ?_, by simp [s', hlen, n], ⟨k, ?_, ?_, fun t ht => ?_⟩,
    h.seq_lt, h.nodup, fun w hw => (h.writer w hw).grow hgrow,
    fun q hq => ?_, fun t => ?_, fun t => ?_, fun t => ?_, fun job hj hp id hid => ?_,
    fun q hq => ?_⟩
  · -- the new table owns the range right after the old newest one
    by_cases htn : t = n
    · subst htn
      rw [hnew]
      simp only [MemTable.create, Nat.succ_mul]
      omega
    · rw [((hold t htn).1).firstSeq, ((hold t htn).1).largestSeqSupposed]
      exact h.range t (by omega)
  · by_cases htn : t = n
    · subst htn; rw [hnew]; rfl
    · rw [((hold t htn).1).fullTableFlush]; exact h.full t
  · simp [s']; omega
  · simp only [s', imm_switchMemtable, mem_switchMemtable]
    rw [hlive]
    have := h.mem
    congr 2
    omega
  · rw [((hold t (by omega)).1).ableToFlush]; exact hable0 t ht
  · rw [hlen]; have := hfinlt q ((hfin q).mp hq); rw [Nat.succ_mul]; omega
  · by_cases htn : t = n
    · subst htn; rw [hnew, hfinIn, ← h.count, hdefault]; rfl
    · rw [((hold t htn).1).seqCount, hfinIn]; exact h.count t
  · by_cases htn : t = n
    · subst htn; rw [hnew]; simp [MemTable.create, memtableSeqSize]
    · rw [((hold t htn).1).ableToFlush, ((hold t htn).1).seqCount]; exact h.able t
  · by_cases htn : t = n
    · subst htn; rw [hnew]; simp [MemTable.create]
    · intro hft
      rw [((hold t htn).1).ableToFlush]
      exact h.flushed t ((hold t htn).2 hft)
  · have := h.written job hj hp id hid
    by_cases htn : id = n
    · subst htn; rw [hdefault] at this; cases this
    · rw [((hold id htn).1).ableToFlush]; exact this
  · obtain ⟨e, he, hseq⟩ := h.stored q ((hfin q).mp hq)
    have hq := hfinlt q ((hfin q).mp hq)
    have hne : q / memtableSeqSize ≠ n := by simp only [memtableSeqSize] at hq ⊢; omega
    exact ⟨e, ((hold _ hne).1).entries he, hseq⟩

/-- `increase_seq_count`: the writer's number becomes finished and is counted by the table that
owns it, which holds its entry. -/
theorem increaseSeqCount (h : RoutingInv s) {i : Nat} {w : Writer K V}
    (hw : s.writers[i]? = some w) (hp : w.phase = .inserted) :
    RoutingInv { s.modifyTable w.memR MemTable.increaseSeqCount with
      writers := s.writers.eraseIdx i } := by
  generalize hs' : { s.modifyTable w.memR MemTable.increaseSeqCount with
    writers := s.writers.eraseIdx i } = s'
  have hlen : s'.memtables.length = s.memtables.length := by rw [← hs']; simp
  have hwr : s'.writers = s.writers.eraseIdx i := by rw [← hs']
  have hls : s'.lastSequence = s.lastSequence := by rw [← hs']; rfl
  have hmem : s'.mem = s.mem := by rw [← hs']; rfl
  have hwm : w ∈ s.writers := List.mem_of_getElem? hw
  have hwi := h.writer w hwm
  have hlt := h.seq_lt w hwm
  have hmr := hwi.memR_lt
  have hdiv : w.seq / memtableSeqSize = w.memR := (h.owns_iff hmr w.seq).mp (hwi.owns (.inr hp))
  have hheld : w.seq ∉ s.finishedIn w.memR := fun hm =>
    (Finset.mem_filter.mp hm).2.2 (List.mem_map_of_mem hwm)
  -- the finished numbers gain exactly the writer's, in the range of its table
  have hfin : ∀ q, s'.Finished q ↔ s.Finished q ∨ q = w.seq :=
    finished_retire h.nodup hw hlt hwr hls
  have hfinIn := finishedIn_insert hfin hdiv
  have htab : ∀ t, s'.table t =
      if t = w.memR then (s.table t).increaseSeqCount else s.table t := by
    intro t
    rw [← hs']
    split_ifs with ht
    · subst ht; exact table_modifyTable_self _ _ _ hmr
    · exact table_modifyTable_ne _ _ (Ne.symm ht)
  have hable : ∀ t, (s.table t).ableToFlush = true → (s'.table t).ableToFlush = true := by
    intro t ha
    rw [htab]
    split_ifs
    · simp [MemTable.increaseSeqCount, ha]
    · exact ha
  have hgrow : TablesGrow s s' := by
    refine ⟨hlen.ge, fun t _ => ?_, fun t _ => ?_, fun t => ?_⟩ <;> rw [htab] <;> split_ifs <;>
      first | rfl | exact List.Subset.refl _
  obtain ⟨k, hk0, himm0, hable0⟩ := h.imm
  refine ⟨fun t ht => ?_, fun t => ?_, by rw [hmem, hlen]; exact h.mem,
    ⟨k, by rw [hmem]; exact hk0, by rw [← hs']; exact himm0, fun t ht => hable t (hable0 t ht)⟩,
    fun w' hw' => hls ▸ h.seq_lt w' (List.mem_of_mem_eraseIdx (hwr ▸ hw')),
    hwr ▸ h.nodup.sublist ((List.eraseIdx_sublist _ _).map _),
    fun w' hw' => (h.writer w' (List.mem_of_mem_eraseIdx (hwr ▸ hw'))).grow hgrow,
    fun q hq => ?_, fun t => ?_, fun t => ?_, fun t hft => ?_,
    fun job hj hp id hid => hable id (h.written job (by rw [← hs'] at hj; exact hj) hp id hid),
    fun q hq => ?_⟩
  · rw [hlen] at ht
    rw [hgrow.firstSeq t ht, hgrow.largestSeqSupposed t ht]
    exact h.range t ht
  · rw [htab]; split_ifs <;> exact h.full t
  · rw [hlen]
    rcases (hfin q).mp hq with hq | rfl
    · exact h.finished_lt q hq
    · simp only [memtableSeqSize] at hdiv hmr ⊢; omega
  · rw [htab, hfinIn]
    split_ifs with ht
    · subst ht
      rw [Finset.card_insert_of_notMem hheld, ← h.count]
      rfl
    · exact h.count t
  · have ha := h.able t
    rw [htab]
    split_ifs
    · simp only [MemTable.increaseSeqCount, ha]
      by_cases hc : memtableSeqSize ≤ (s.table t).seqCount
      · simp [hc, Nat.le_succ_of_le hc]
      · simp [hc]
    · exact ha
  · rw [htab] at hft ⊢
    split_ifs at hft ⊢
    · simp only [MemTable.increaseSeqCount] at hft ⊢
      simp [h.flushed t hft]
    · exact h.flushed t hft
  · rcases (hfin q).mp hq with hq | rfl
    · obtain ⟨e, he, hseq⟩ := h.stored q hq
      refine ⟨e, ?_, hseq⟩
      rw [htab]; split_ifs <;> exact he
    · refine ⟨w.entry, ?_, hwi.key⟩
      rw [hdiv, htab, if_pos rfl]
      exact hwi.inserted hp

/-- `TryInstallMemtableFlushResults` marks the job's tables flushed: each had its flush allowed
when the job wrote its table. -/
theorem markFlushed (h : RoutingInv s) {j : Nat} {job : FlushJob K V}
    (hjob : s.flushJobs[j]? = some job) (hp : job.phase = .written) :
    RoutingInv { s.markFlushed job with flushJobs := s.flushJobs.eraseIdx j } := by
  have heq := markFlushed_eq s job
  have hjm : job ∈ s.flushJobs := List.mem_of_getElem? hjob
  have htab := table_markFlushed s job
  have hk : ∀ t, (s.table t).Keeps ((s.markFlushed job).table t) := by
    intro t
    rw [htab]
    split_ifs
    · exact ⟨rfl, rfl, rfl, rfl, rfl, List.Subset.refl _⟩
    · exact .refl _
  have hmem : (s.markFlushed job).mem = s.mem := by rw [heq]
  have himm : (s.markFlushed job).imm = s.imm := by rw [heq]
  have hw : (s.markFlushed job).writers = s.writers := by rw [heq]
  have hl : (s.markFlushed job).lastSequence = s.lastSequence := by rw [heq]
  refine h.of_keeps (length_memtables_markFlushed s job) hk hmem himm hw hl
    (fun t hft => ?_) (fun job' hj hp' id hid => ?_)
  · show ((s.markFlushed job).table t).ableToFlush = true
    have hft' : ((s.markFlushed job).table t).flushState = .flushFinished := hft
    rw [htab] at hft' ⊢
    split_ifs at hft' ⊢ with ht
    · exact h.written job hjm hp t ht.1
    · exact h.flushed t hft'
  · show ((s.markFlushed job).table id).ableToFlush = true
    rw [(hk id).ableToFlush]
    exact h.written job' (List.mem_of_mem_eraseIdx hj) hp' id hid

/-- The install of `TryInstallMemtableFlushResults`: the flushed tables at the old end of
`memlist_` leave it, and the oldest table left is the first one not flushed. -/
theorem installFlushed (h : RoutingInv s) (vs : VersionSet K V) :
    RoutingInv { s with
      imm := s.imm.take (s.imm.length - (s.imm.reverse.takeWhile fun id =>
        (s.table id).flushState = .flushFinished).length)
      versions := vs } := by
  obtain ⟨k, hk0, himm0, hable0⟩ := h.imm
  set P := fun id => decide ((s.table id).flushState = .flushFinished)
  have hrev : s.imm.reverse = List.range' k (s.mem - k) := by rw [himm0, List.reverse_reverse]
  -- the flushed prefix of the old end is a range of its own
  obtain ⟨b, hb, hbatch, hrest⟩ := List.range'_eq_append_iff.mp
    ((List.takeWhile_append_dropWhile (p := P) (l := List.range' k (s.mem - k))).symm)
  have himm' : s.imm.take (s.imm.length - (s.imm.reverse.takeWhile P).length) =
      (List.range' (k + b) (s.mem - (k + b))).reverse := by
    rw [hrev, hbatch, List.length_range', himm0, List.length_reverse, List.length_range']
    conv => lhs; rw [← List.takeWhile_append_dropWhile (p := P) (l := List.range' k (s.mem - k))]
    rw [hbatch, hrest, List.reverse_append, List.take_left' (by simp), Nat.mul_one, Nat.sub_sub]
  refine ⟨h.range, h.full, h.mem, ⟨k + b, show k + b ≤ s.mem by omega, himm', fun t ht => ?_⟩,
    h.seq_lt, h.nodup,
    fun w hw => (h.writer w hw).grow (.of_memtables_eq rfl), h.finished_lt, h.count, h.able,
    h.flushed, h.written, h.stored⟩
  by_cases htk : t < k
  · exact hable0 t htk
  · have hmem : t ∈ List.takeWhile P (List.range' k (s.mem - k)) := by
      rw [hbatch, List.mem_range'_1]; omega
    have hPt : P t = true := List.mem_takeWhile_imp hmem
    exact h.flushed t (of_decide_eq_true hPt)

/-- A new flush job, before its table is written. -/
theorem addJob (h : RoutingInv s) {job : FlushJob K V} (hp : job.phase = .picked) :
    RoutingInv { s with flushJobs := s.flushJobs ++ [job] } := by
  refine h.of_keeps rfl (fun _ => .refl _) rfl rfl rfl rfl h.flushed fun job' hj hp' => ?_
  rcases List.mem_append.mp hj with hj | hj
  · exact h.written job' hj hp'
  · rw [List.mem_singleton.mp hj, hp] at hp'
    cases hp'

/-- `WriteLevel0Table` runs only once `Waitforpendingwriter` let it: every table of the job has
its flush allowed. -/
theorem writeLevel0Table (h : RoutingInv s) {fileSize : List (Entry K V) → Nat} {nodeId j : Nat}
    {s' : DBState K V} (hstep : s.writeLevel0Table fileSize nodeId j = some s') : RoutingInv s' := by
  obtain ⟨job, hjob, -, hall, rfl⟩ := writeLevel0Table_eq_some hstep
  refine h.of_keeps rfl (fun _ => .refl _) rfl rfl rfl rfl h.flushed fun job' hj hp id hid => ?_
  rcases List.mem_modify hj with hj | ⟨b, hb, rfl⟩
  · exact h.written job' hj hp id hid
  · rw [hjob] at hb
    cases hb
    exact hall id hid (h.full id)

/-- A writer whose number is not in `mem_r`'s range, after the first loop, finds the table that
owns it in `memlist_`: the table is not flushed, since the number is not finished. -/
theorem pickMemtablesSeqBelong_isSome (h : RoutingInv s) {w : Writer K V} (hw : w ∈ s.writers)
    (hp : w.phase = .searching) (hown : (s.table w.memR).owns w.seq = false) :
    ∃ id, s.pickMemtablesSeqBelong w.seq = some id := by
  have hwi := h.writer w hw
  have hle := hwi.searching hp
  have hmr := hwi.memR_lt
  obtain ⟨hf, hl⟩ := h.range w.memR hmr
  have hbelow : w.seq < w.memR * memtableSeqSize := by
    simp only [MemTable.owns, hf, decide_eq_false_iff_not, not_and, not_le] at hown
    by_contra hge
    exact absurd (hown (by omega)) (by omega)
  obtain ⟨k, hk0, himm0, hable0⟩ := h.imm
  have hmem := h.mem
  set t := w.seq / memtableSeqSize
  have ht : t < w.memR := by simp only [t, memtableSeqSize] at hbelow ⊢; omega
  -- a table older than `memlist_`'s oldest was flushed, so all its numbers are finished
  have hkt : k ≤ t := by
    by_contra hlt
    have hfin := h.finished_of_able (hable0 t (by omega)) (q := w.seq) rfl
    exact hfin.2 (List.mem_map_of_mem hw)
  have htimm : t ∈ s.imm := by
    rw [himm0, List.mem_reverse, List.mem_range'_1]; omega
  have howns : (s.table t).owns w.seq = true := (h.owns_iff (by omega) w.seq).mpr rfl
  cases hfind : s.pickMemtablesSeqBelong w.seq with
  | some id => exact ⟨id, rfl⟩
  | none => exact absurd howns (List.find?_eq_none.mp hfind t htimm)

/-- Every step but the switch of `WaitforAllbgtasks(true)` keeps the invariant, while at most
`MEMTABLE_SEQ_SIZE` writers are in flight after it. -/
theorem step (h : RoutingInv s) {opts : DBOptions} {fileSize : List (Entry K V) → Nat}
    {a : Action K V} {s' : DBState K V} (ha : a ≠ .clearMem)
    (hstep : s.step opts fileSize a = some s') (hbound : s'.writers.length ≤ memtableSeqSize) :
    RoutingInv s' := by
  have hmem := h.mem
  cases a with
  | write key type value =>
    obtain rfl := Option.some.inj hstep
    exact h.write key type value
  | loadMem i =>
    obtain ⟨w, hw, -, rfl⟩ := loadMem_eq_some hstep
    exact h.reloadMem hw (fun _ => rfl) rfl rfl rfl
  | leaveSwitchLoop i =>
    obtain ⟨w, hw, -, hle, rfl⟩ := leaveSwitchLoop_eq_some hstep
    have hwi := h.writerAt hw
    exact h.modifyWriter hw (fun _ => rfl)
      ⟨hwi.memR_lt, hwi.key, by simp, fun _ => hle, by simp, by simp⟩
  | stallReload i =>
    obtain ⟨w, hw, hp, -, -, rfl⟩ := stallReload_eq_some hstep
    exact h.reloadMem hw (fun _ => rfl) rfl rfl hp
  | slowdownReload i =>
    obtain ⟨w, hw, hp, -, -, -, -, rfl⟩ := slowdownReload_eq_some hstep
    exact h.reloadMem hw (fun _ => rfl) rfl rfl hp
  | lockedSwitch i =>
    obtain ⟨w, hw, hp, -, -, -, ⟨⟨-, -, hgt⟩, rfl⟩ | ⟨-, rfl⟩⟩ := lockedSwitch_eq_some hstep
    · -- the writer takes the new table, which owns its number while few writers are in flight
      have hwi := h.writerAt hw
      have hls := h.lastSequence_le
      have hlt := h.seq_lt w (List.mem_of_getElem? hw)
      have hL := (h.range s.mem (by omega)).2
      rw [hmem] at hL
      have hlen : s.writers.length ≤ memtableSeqSize := by simpa using hbound
      refine h.switch.modifyWriter (by simpa using hw) (fun _ => rfl)
        ⟨by simp, hwi.key, by simp, by simp, fun _ => ?_, by simp⟩
      rw [table_switchMemtable, if_pos rfl]
      apply decide_eq_true
      simp only [MemTable.create, memtableSeqSize] at hL hlen hls ⊢
      omega
    · exact h.reloadMem hw (fun _ => rfl) rfl rfl hp
  | searchTable i =>
    obtain ⟨w, hw, hp, ⟨hown, rfl⟩ | ⟨hown, id, hid, rfl⟩ | ⟨hown, hnone, rfl⟩⟩ :=
      searchTable_eq_some hstep
    · have hwi := h.writerAt hw
      exact h.modifyWriter hw (fun _ => rfl)
        ⟨hwi.memR_lt, hwi.key, by simp, by simp, fun _ => hown, by simp⟩
    · -- the table found in `memlist_` is one of the live ones, and owns the number
      have hwi := h.writerAt hw
      obtain ⟨k, hk0, himm0, -⟩ := h.imm
      have hidm : id ∈ s.imm := List.mem_of_find?_eq_some hid
      have howns : (s.table id).owns w.seq = true :=
        List.find?_some (p := fun id => (s.table id).owns w.seq) hid
      rw [himm0, List.mem_reverse, List.mem_range'_1] at hidm
      exact h.modifyWriter hw (fun _ => rfl)
        ⟨by simp; omega, hwi.key, by simp, by simp, fun _ => howns, by simp⟩
    · obtain ⟨id, hid⟩ := h.pickMemtablesSeqBelong_isSome (List.mem_of_getElem? hw) hp hown
      rw [hid] at hnone
      cases hnone
  | insertInto i =>
    obtain ⟨w, hw, hp, rfl⟩ := insertInto_eq_some hstep
    have hwi := h.writerAt hw
    have hmr := hwi.memR_lt
    refine (h.modifyTable w.memR (fun m => m.keeps_add w.entry) fun _ => id).modifyWriter
      (by simpa using hw) (fun _ => rfl)
      ⟨by simpa using hmr, hwi.key, by simp, by simp, fun _ => ?_, fun _ => ?_⟩
    · simpa [table_modifyTable_self _ _ _ hmr, MemTable.owns] using hwi.owns (.inl hp)
    · simp [table_modifyTable_self _ _ _ hmr, MemTable.add]
  | increaseSeqCount i =>
    obtain ⟨w, hw, hp, rfl⟩ := increaseSeqCount_eq_some hstep
    exact h.increaseSeqCount hw hp
  | clearMem => exact absurd rfl ha
  | pickMemtablesToFlush =>
    obtain ⟨id, -, -, rfl⟩ := pickMemtablesToFlush_eq_some hstep
    exact (h.modifyTable id (f := fun m => { m with flushState := .flushProcessing })
      (fun m => ⟨rfl, rfl, rfl, rfl, rfl, List.Subset.refl _⟩) fun _ hfs => by cases hfs).addJob rfl
  | writeLevel0Table j => exact h.writeLevel0Table hstep
  | tryInstallMemtableFlushResults j =>
    obtain ⟨job, hjob, hp, vs, rfl⟩ := tryInstallMemtableFlushResults_eq_some hstep
    have h1 := h.markFlushed hjob hp
    generalize s.markFlushed job = m at h1 ⊢
    exact h1.installFlushed vs
  | pickCompaction rand =>
    -- the step equation, so that elaboration never evaluates the pick itself
    simp only [DBState.step] at hstep
    obtain ⟨c, -, rfl⟩ := pickCompaction_eq_some hstep
    exact h.frame _ s.nextFileNumber _ s.snapshots
  | installCompaction i =>
    simp only [DBState.step] at hstep
    obtain ⟨c, vs, n, -, rfl⟩ := installCompaction_eq_some hstep
    exact h.frame vs n _ s.snapshots
  | getSnapshot =>
    obtain rfl := Option.some.inj hstep
    exact h.frame s.versions s.nextFileNumber s.pending _
  | releaseSnapshot i =>
    obtain ⟨x, -, rfl⟩ := releaseSnapshot_eq_some hstep
    exact h.frame s.versions s.nextFileNumber s.pending _

end RoutingInv

/-- The states some interleaving reaches from a freshly opened database without the switch of
`WaitforAllbgtasks(true)`, with at most `MEMTABLE_SEQ_SIZE` writers in flight in each. -/
inductive WriteReachable (opts : DBOptions) (fileSize : List (Entry K V) → Nat) :
    DBState K V → Prop
  | init : WriteReachable opts fileSize DBState.init
  | step {s s' : DBState K V} {a : Action K V} : WriteReachable opts fileSize s →
      a ≠ .clearMem → s.step opts fileSize a = some s' → s'.writers.length ≤ memtableSeqSize →
      WriteReachable opts fileSize s'

theorem RoutingInv.reachable {opts : DBOptions} {fileSize : List (Entry K V) → Nat}
    {s : DBState K V} (h : WriteReachable opts fileSize s) : RoutingInv s := by
  induction h with
  | init => exact .init
  | step _ ha hstep hbound ih => exact ih.step ha hstep hbound

/-- What the write path relies on: the ranges of `mem_` and `memlist_` are disjoint and together
one interval, no writer dereferences `nullptr` and each inserts into a table owning its number,
every finished number has its entry in the table that owns it, and a flush job writes its table
only once every number of its tables' ranges is finished and held there. -/
structure RoutesWrites (opts : DBOptions) (fileSize : List (Entry K V) → Nat) (s : DBState K V) :
    Prop where
  disjoint : (s.mem :: s.imm).Pairwise fun t t' =>
    ∀ q, ¬((s.table t).owns q = true ∧ (s.table t').owns q = true)
  contiguous : ∃ lo hi, ∀ q, (∃ t ∈ s.mem :: s.imm, (s.table t).owns q = true) ↔ lo ≤ q ∧ q ≤ hi
  writers : ∀ w ∈ s.writers, w.phase ≠ .failed ∧
    (w.phase = .picked ∨ w.phase = .inserted → (s.table w.memR).owns w.seq = true)
  stored : ∀ q, s.Finished q →
    ∃ t, (s.table t).owns q = true ∧ ∃ e ∈ (s.table t).entries, e.key.sequence = q
  flushReady : ∀ j s', s.step opts fileSize (.writeLevel0Table j) = some s' →
    ∀ job, s.flushJobs[j]? = some job → ∀ id ∈ job.memVec, ∀ q, (s.table id).owns q = true →
      s.Finished q ∧ ∃ e ∈ (s.table id).entries, e.key.sequence = q

namespace RoutingInv

variable {s : DBState K V}

theorem live_lt (h : RoutingInv s) {t : Nat} (ht : t ∈ s.mem :: s.imm) :
    t < s.memtables.length := by
  obtain ⟨k, hk0, hlive, -⟩ := h.mem_cons_imm
  have hmem := h.mem
  rw [hlive, List.mem_reverse, List.mem_range'_1] at ht
  omega

theorem live_disjoint (h : RoutingInv s) : (s.mem :: s.imm).Pairwise fun t t' =>
    ∀ q, ¬((s.table t).owns q = true ∧ (s.table t').owns q = true) := by
  obtain ⟨k, -, hlive, -⟩ := h.mem_cons_imm
  have hnd : (s.mem :: s.imm).Nodup := by rw [hlive]; exact List.nodup_reverse.mpr List.nodup_range'
  refine hnd.imp_of_mem fun {t t'} ht ht' hne q ⟨h1, h2⟩ => hne ?_
  rw [h.owns_iff (h.live_lt ht)] at h1
  rw [h.owns_iff (h.live_lt ht')] at h2
  rw [← h1, ← h2]

theorem live_interval (h : RoutingInv s) : ∃ lo hi, ∀ q,
    (∃ t ∈ s.mem :: s.imm, (s.table t).owns q = true) ↔ lo ≤ q ∧ q ≤ hi := by
  obtain ⟨k, hk0, hlive, -⟩ := h.mem_cons_imm
  refine ⟨k * memtableSeqSize, (s.mem + 1) * memtableSeqSize - 1, fun q => ⟨?_, ?_⟩⟩
  · rintro ⟨t, ht, howns⟩
    have hq := (h.owns_iff (h.live_lt ht) q).mp howns
    rw [hlive, List.mem_reverse, List.mem_range'_1] at ht
    simp only [memtableSeqSize] at hq ⊢
    omega
  · rintro ⟨hlo, hhi⟩
    have ht : q / memtableSeqSize ∈ s.mem :: s.imm := by
      rw [hlive, List.mem_reverse, List.mem_range'_1]
      simp only [memtableSeqSize] at hlo hhi ⊢
      omega
    exact ⟨_, ht, (h.owns_iff (h.live_lt ht) q).mpr rfl⟩

/-- `WriteLevel0Table` hands `BuildTable` a table only once every number of its range is finished
and its entry is in the table. -/
theorem writeLevel0Table_ready (h : RoutingInv s) {fileSize : List (Entry K V) → Nat}
    {nodeId j : Nat} {s' : DBState K V} (hstep : s.writeLevel0Table fileSize nodeId j = some s')
    {job : FlushJob K V} (hjob : s.flushJobs[j]? = some job) {id : Nat} (hid : id ∈ job.memVec)
    {q : Nat} (howns : (s.table id).owns q = true) :
    s.Finished q ∧ ∃ e ∈ (s.table id).entries, e.key.sequence = q := by
  obtain ⟨job', hjob', -, hall, -⟩ := writeLevel0Table_eq_some hstep
  rw [hjob] at hjob'
  cases hjob'
  have ha := hall id hid (h.full id)
  have hlt : id < s.memtables.length := by
    by_contra hge
    rw [table_of_length_le _ (by omega)] at ha
    cases ha
  have hq := (h.owns_iff hlt q).mp howns
  have hfin := h.finished_of_able ha hq
  obtain ⟨e, he, hseq⟩ := h.stored q hfin
  exact ⟨hfin, e, hq ▸ he, hseq⟩

theorem routesWrites (h : RoutingInv s) (opts : DBOptions) (fileSize : List (Entry K V) → Nat) :
    RoutesWrites opts fileSize s where
  disjoint := h.live_disjoint
  contiguous := h.live_interval
  writers w hw := ⟨(h.writer w hw).not_failed, (h.writer w hw).owns⟩
  stored q hq := by
    have hlt : q / memtableSeqSize < s.memtables.length := by
      have := h.finished_lt q hq
      simp only [memtableSeqSize] at this ⊢
      omega
    exact ⟨_, (h.owns_iff hlt q).mpr rfl, h.stored q hq⟩
  flushReady j s' hstep job hjob id hid q howns := h.writeLevel0Table_ready hstep hjob hid howns

end RoutingInv

end DLSM
