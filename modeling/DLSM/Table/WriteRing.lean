import Mathlib
import DLSM.Lib.Ring

/-! The write buffers of `TableBuilder_ComputeSide`.  `FlushData` sends the data block written
so far from a buffer of `local_data_mr` by an RDMA write, and moves the data block to another
buffer.  The buffers with a write outstanding run from `data_inuse_start` to `data_inuse_end`,
wrapping at the end of `local_data_mr`; a call polls some completions, which moves the start
past the oldest writes, then posts a write of the next buffer, which moves the end.  When the
buffers run out, a new one is inserted at the start, shifting the start, and the end too when
the start is `0`.  `Finish` waits for the writes from the start to the end, one for the index
block and one for the filter block.

`Inv` holds from the first call on, whatever the number of completions each call polls: the
writes outstanding are the buffers from the start to the end, never all of them, so the buffer
the data block moves to has no write outstanding, and `Finish` waits for every write. -/

namespace DLSM

/-- The fields of `TableBuilder_ComputeSide::Rep` that `FlushData` keeps for its buffers:
`local_data_mr`, a buffer by the number of its slot, `data_inuse_start` and `data_inuse_end`;
with, as ghost state, the buffers of the RDMA writes posted and not yet polled, oldest first,
in the order the queue pair completes them. -/
structure WriteRing where
  localDataMr : List Nat
  dataInuseStart : Int
  dataInuseEnd : Int
  outstanding : List Nat
  deriving Repr, DecidableEq

namespace WriteRing

/-- The constructor of `Rep`: two buffers, and both indices `-1`. -/
def init : WriteRing := ⟨[0, 1], -1, -1, []⟩

/-- `FlushData`, with `try_poll_completions` returning `pollNum`.  The first call writes buffer
`0`.  A later one moves the start past the writes polled, the end to the next buffer, and writes
that buffer; when the start is then right after the end, a new buffer is inserted at the start
and the start moved past it.  A new slot is numbered by the count of buffers, which no buffer
has. -/
def flushData (r : WriteRing) (pollNum : Nat) : WriteRing :=
  if r.dataInuseStart = -1 then
    { r with dataInuseStart := 0, dataInuseEnd := 0,
             outstanding := r.outstanding ++ (r.localDataMr[0]?).toList }
  else
    let n : Int := r.localDataMr.length
    let start := r.dataInuseStart + pollNum
    let start := if start ≥ n then start - n else start
    let end_ := if r.dataInuseEnd = n - 1 then 0 else r.dataInuseEnd + 1
    let outstanding := r.outstanding.drop pollNum ++ (r.localDataMr[end_.toNat]?).toList
    if start - end_ = 1 ∨ end_ - start = n - 1 then
      let end_ := if start = 0 then end_ + 1 else end_
      ⟨r.localDataMr.insertIdx start.toNat r.localDataMr.length, start + 1, end_, outstanding⟩
    else ⟨r.localDataMr, start, end_, outstanding⟩

example : (init.flushData 0).flushData 0 = ⟨[2, 0, 1], 1, 2, [0, 1]⟩ := by decide

/-- `next_buffer_index`: the buffer after the end, which the data block moves to. -/
def nextBufferIndex (r : WriteRing) : Int :=
  if r.dataInuseEnd = r.localDataMr.length - 1 then 0 else r.dataInuseEnd + 1

/-- `num_of_poll` of `Finish`: the writes from the start to the end, with one more for the index
block, two with a filter block. -/
def numOfPoll (r : WriteRing) (hasFilter : Bool) : Int :=
  let numOfPoll :=
    if r.dataInuseEnd - r.dataInuseStart + 1 ≥ 0 then r.dataInuseEnd - r.dataInuseStart + 1
    else r.localDataMr.length - r.dataInuseStart + r.dataInuseEnd + 1
  if hasFilter then numOfPoll + 2 else numOfPoll + 1

/-- The number of buffers from the start to the end, wrapping at the end of the ring. -/
def inuseCount (r : WriteRing) : Nat :=
  if r.dataInuseStart ≤ r.dataInuseEnd then (r.dataInuseEnd - r.dataInuseStart).toNat + 1
  else (r.localDataMr.length - r.dataInuseStart + r.dataInuseEnd).toNat + 1

/-- The buffers from the start to the end, wrapping at the end of the ring. -/
def inuse (r : WriteRing) : List Nat :=
  Ring.span r.localDataMr r.dataInuseStart.toNat r.inuseCount

section Count

variable {l : List Nat} {start end_ : Int} {outstanding : List Nat}

/-- The end is the last of the buffers counted from the start. -/
theorem end_eq_of_le (hS : 0 ≤ start) (hS' : start < l.length) (hE : 0 ≤ end_)
    (hE' : end_ < l.length) :
    end_.toNat = (start.toNat + (⟨l, start, end_, outstanding⟩ : WriteRing).inuseCount - 1) %
      l.length := by
  unfold inuseCount
  dsimp only
  split_ifs with h
  · rw [Nat.mod_eq_of_lt (by omega)]
    omega
  · rw [Nat.mod_eq_sub_mod (by omega), Nat.mod_eq_of_lt (by omega)]
    omega

/-- `count` buffers from the start, at most the ring, whose last is the end, are the buffers
counted from the start to the end. -/
theorem inuseCount_eq {count : Nat} (hS : 0 ≤ start) (hS' : start < l.length) (hE : 0 ≤ end_)
    (hc : 1 ≤ count) (hcn : count ≤ l.length)
    (hend : end_.toNat = (start.toNat + count - 1) % l.length) :
    (⟨l, start, end_, outstanding⟩ : WriteRing).inuseCount = count := by
  unfold inuseCount
  dsimp only
  by_cases hw : start.toNat + count - 1 < l.length
  · rw [Nat.mod_eq_of_lt hw] at hend
    rw [if_pos (by omega)]
    omega
  · rw [Nat.mod_eq_sub_mod (by omega), Nat.mod_eq_of_lt (by omega)] at hend
    rw [if_neg (by omega)]
    omega

/-- The test of `FlushData` for a ring whose buffers all have a write outstanding: the start
right after the end, or the whole ring from the start to the end. -/
theorem full_iff (hS : 0 ≤ start) (hE : 0 ≤ end_) (hS' : start < l.length)
    (hE' : end_ < l.length) :
    (start - end_ = 1 ∨ end_ - start = l.length - 1) ↔
      (⟨l, start, end_, outstanding⟩ : WriteRing).inuseCount = l.length := by
  unfold inuseCount
  dsimp only
  split_ifs <;> omega

end Count

/-- The ring from the first `FlushData` on: distinct buffers, numbered below their count, both
indices on the ring, and the writes outstanding the buffers from the start to the end, which
are not all of them. -/
structure Inv (r : WriteRing) : Prop where
  nodup : r.localDataMr.Nodup
  lt_length : ∀ x ∈ r.localDataMr, x < r.localDataMr.length
  start_nonneg : 0 ≤ r.dataInuseStart
  start_lt : r.dataInuseStart < r.localDataMr.length
  end_nonneg : 0 ≤ r.dataInuseEnd
  end_lt : r.dataInuseEnd < r.localDataMr.length
  not_full : r.inuseCount < r.localDataMr.length
  outstanding_eq : r.outstanding = r.inuse

/-- The states `FlushData` reaches from the constructor, each later call polling at most the
writes outstanding (`try_poll_completions` also polls at most five, which nothing here
needs). -/
inductive Flushed : WriteRing → Prop
  | first : Flushed (init.flushData 0)
  | next {r : WriteRing} (pollNum : Nat) :
      Flushed r → pollNum ≤ r.outstanding.length → Flushed (r.flushData pollNum)

theorem Inv.ne_nil {r : WriteRing} (h : r.Inv) : r.localDataMr ≠ [] := by
  intro hnil
  have hlt := h.start_lt
  have hnn := h.start_nonneg
  rw [hnil, List.length_nil] at hlt
  omega

theorem one_le_inuseCount (r : WriteRing) : 1 ≤ r.inuseCount := by
  unfold inuseCount
  split_ifs <;> exact Nat.le_add_left 1 _

theorem Inv.length_outstanding {r : WriteRing} (h : r.Inv) :
    r.outstanding.length = r.inuseCount := by
  rw [h.outstanding_eq, inuse, Ring.length_span h.ne_nil]

/-- The first `FlushData` writes buffer `0`. -/
theorem inv_flushData_init (pollNum : Nat) : (init.flushData pollNum).Inv := by
  rw [show init.flushData pollNum = ⟨[0, 1], 0, 0, [0]⟩ from rfl]
  exact ⟨by decide, by decide, by decide, by decide, by decide, by decide, by decide, rfl⟩

/-- One `FlushData` after the first, polling at most the writes outstanding, keeps `Inv`. -/
theorem Inv.flushData {r : WriteRing} (h : r.Inv) {pollNum : Nat}
    (hpoll : pollNum ≤ r.outstanding.length) : (r.flushData pollNum).Inv := by
  obtain ⟨l, start, end_, outstanding⟩ := r
  obtain ⟨hnd, hlt, hS, hS', hE, hE', hnf, hout⟩ := h
  dsimp only at hnd hlt hS hS' hE hE' hnf hout hpoll
  have hne : l ≠ [] := by
    rintro rfl
    simp at hS'
    omega
  -- `count` buffers from the start to the end have a write outstanding
  set count := (⟨l, start, end_, outstanding⟩ : WriteRing).inuseCount with hcount
  have hc1 : 1 ≤ count := one_le_inuseCount _
  have hend : end_.toNat = (start.toNat + count - 1) % l.length := end_eq_of_le hS hS' hE hE'
  have hlen : outstanding.length = count := by
    rw [hout, inuse, Ring.length_span hne]
  unfold WriteRing.flushData
  rw [if_neg (by dsimp only; omega)]
  dsimp only
  -- the start past the writes polled, and the end on the next buffer
  set start₁ : Int := if start + pollNum ≥ l.length then start + pollNum - l.length
    else start + pollNum with hstart₁
  set end₁ : Int := if end_ = l.length - 1 then 0 else end_ + 1 with hend₁
  have hS₁ : 0 ≤ start₁ ∧ start₁ < l.length := by
    rw [hstart₁]
    split_ifs <;> omega
  have hE₁ : 0 ≤ end₁ ∧ end₁ < l.length := by
    rw [hend₁]
    split_ifs <;> omega
  have hstart₁mod : start₁.toNat = (start.toNat + pollNum) % l.length := by
    rw [hstart₁]
    split_ifs with hw
    · rw [Nat.mod_eq_sub_mod (by omega), Nat.mod_eq_of_lt (by omega)]
      omega
    · rw [Nat.mod_eq_of_lt (by omega)]
      omega
  have hend₁mod : end₁.toNat = (start₁.toNat + (count - pollNum + 1) - 1) % l.length := by
    have hnext : end₁.toNat = (end_.toNat + 1) % l.length := by
      rw [hend₁]
      split_ifs with hw
      · rw [show end_.toNat + 1 = l.length by omega, Nat.mod_self]
        rfl
      · rw [Nat.mod_eq_of_lt (by omega)]
        omega
    rw [show start₁.toNat + (count - pollNum + 1) - 1 = start₁.toNat + (count - pollNum) by omega,
      hnext, hend, hstart₁mod, Nat.mod_add_mod, Nat.mod_add_mod,
      show start.toNat + count - 1 + 1 = start.toNat + pollNum + (count - pollNum) by omega]
  -- the writes outstanding: those not polled, and the one just posted
  have hout₁ : outstanding.drop pollNum ++ (l[end₁.toNat]?).toList =
      Ring.span l start₁.toNat (count - pollNum + 1) := by
    rw [hout, inuse, Ring.drop_span hne _ (by omega), ← Ring.span_mod, ← hstart₁mod,
      Ring.span_succ, show start₁.toNat + (count - pollNum) = start₁.toNat + (count - pollNum + 1) - 1
        by omega, ← hend₁mod]
  have hcount₁ : (⟨l, start₁, end₁, outstanding.drop pollNum ++ (l[end₁.toNat]?).toList⟩ :
      WriteRing).inuseCount = count - pollNum + 1 :=
    inuseCount_eq hS₁.1 hS₁.2 hE₁.1 (by omega) (by omega) hend₁mod
  by_cases hfull : start₁ - end₁ = 1 ∨ end₁ - start₁ = l.length - 1
  · -- every buffer has a write outstanding: a new one at the start, the start past it
    have hall : count - pollNum + 1 = l.length := by
      rw [← hcount₁]
      exact (full_iff hS₁.1 hE₁.1 hS₁.2 hE₁.2).mp hfull
    have hlen' : (l.insertIdx start₁.toNat l.length).length = l.length + 1 := by
      rw [List.length_insertIdx, if_pos (by omega)]
    have hcount₂ : (⟨l.insertIdx start₁.toNat l.length, start₁ + 1,
        if start₁ = 0 then end₁ + 1 else end₁, outstanding.drop pollNum ++ (l[end₁.toNat]?).toList⟩ :
        WriteRing).inuseCount = l.length := by
      unfold inuseCount
      dsimp only
      rw [hlen']
      split_ifs <;> omega
    rw [if_pos hfull]
    refine ⟨?_, ?_, ?_, ?_, ?_, ?_, ?_, ?_⟩ <;> dsimp only
    · rw [(List.perm_insertIdx _ l (by omega)).nodup_iff, List.nodup_cons]
      exact ⟨fun hmem => Nat.lt_irrefl _ (hlt _ hmem), hnd⟩
    · intro x hx
      rw [List.mem_insertIdx (by omega)] at hx
      rw [hlen']
      rcases hx with rfl | hx
      · omega
      · have := hlt x hx
        omega
    · omega
    · rw [hlen']
      omega
    · split_ifs <;> omega
    · rw [hlen']
      split_ifs <;> omega
    · rw [hcount₂, hlen']
      omega
    · rw [inuse, hcount₂, hout₁, hall.symm, show (start₁ + 1).toNat = start₁.toNat + 1 by omega]
      rw [hall]
      exact (Ring.span_insertIdx (by omega) _ (Nat.le_refl _)).symm
  · -- a buffer is left without a write: the ring as it was
    rw [if_neg hfull]
    refine ⟨hnd, hlt, hS₁.1, hS₁.2, hE₁.1, hE₁.2, ?_, ?_⟩
    · have hne' : (⟨l, start₁, end₁, outstanding.drop pollNum ++ (l[end₁.toNat]?).toList⟩ :
          WriteRing).inuseCount ≠ l.length :=
        fun heq => hfull ((full_iff hS₁.1 hE₁.1 hS₁.2 hE₁.2).mpr heq)
      have hcn : count < l.length := hnf
      rw [hcount₁] at hne' ⊢
      dsimp only
      omega
    · rw [inuse, hcount₁, hout₁]

/-- Every state `FlushData` reaches keeps `Inv`. -/
theorem Flushed.inv {r : WriteRing} (h : r.Flushed) : r.Inv := by
  induction h with
  | first => exact inv_flushData_init 0
  | next pollNum _ hpoll ih => exact ih.flushData hpoll

/-- The buffer the data block moves to is on the ring, and has no write outstanding. -/
theorem Inv.next_not_mem {r : WriteRing} (h : r.Inv) :
    ∃ b, r.localDataMr[r.nextBufferIndex.toNat]? = some b ∧ b ∉ r.outstanding := by
  obtain ⟨l, start, end_, outstanding⟩ := r
  obtain ⟨hnd, -, hS, hS', hE, hE', hnf, hout⟩ := h
  dsimp only at hnd hS hS' hE hE' hnf hout ⊢
  set count := (⟨l, start, end_, outstanding⟩ : WriteRing).inuseCount with hcount
  have hc1 : 1 ≤ count := one_le_inuseCount _
  have hend : end_.toNat = (start.toNat + count - 1) % l.length := end_eq_of_le hS hS' hE hE'
  -- the buffer after the end is the one after the `count` buffers from the start
  have hnext : (nextBufferIndex ⟨l, start, end_, outstanding⟩).toNat =
      (start.toNat + count) % l.length := by
    rw [show start.toNat + count = start.toNat + count - 1 + 1 by omega, ← Nat.mod_add_mod, ← hend]
    unfold nextBufferIndex
    dsimp only
    split_ifs with hw
    · rw [show end_.toNat + 1 = l.length by omega, Nat.mod_self]
      rfl
    · rw [Nat.mod_eq_of_lt (by omega)]
      omega
  rw [hnext, List.getElem?_eq_getElem (Nat.mod_lt _ (by omega))]
  refine ⟨_, rfl, ?_⟩
  rw [hout, inuse]
  exact Ring.get_not_mem_span hnd hnf

/-- `num_of_poll` counts the writes outstanding: from the start to the end, which never wraps
all the way round. -/
theorem Inv.numOfPoll_eq {r : WriteRing} (h : r.Inv) (hasFilter : Bool) :
    r.numOfPoll hasFilter = r.outstanding.length + if hasFilter then 2 else 1 := by
  have hnf := h.not_full
  have hS := h.start_nonneg
  have hS' := h.start_lt
  have hE := h.end_nonneg
  have hE' := h.end_lt
  rw [h.outstanding_eq, inuse, Ring.length_span h.ne_nil]
  unfold numOfPoll inuseCount at *
  dsimp only
  split_ifs at hnf ⊢ <;> omega

/-- The write buffers over every run of `FlushData` calls, each polling at most the writes
outstanding: the buffer the data block moves to has no RDMA write outstanding; the writes
outstanding are the buffers from `data_inuse_start` to `data_inuse_end` around the ring, never
all of `local_data_mr`; and `num_of_poll` of `Finish` is their number, with one for the index
block and one more with a filter block. -/
theorem writeRing_flushed_inv {r : WriteRing} (h : r.Flushed) (hasFilter : Bool) :
    (∃ b, r.localDataMr[r.nextBufferIndex.toNat]? = some b ∧ b ∉ r.outstanding) ∧
      r.outstanding = r.inuse ∧ r.outstanding.length < r.localDataMr.length ∧
      r.numOfPoll hasFilter = r.outstanding.length + if hasFilter then 2 else 1 := by
  have hinv := h.inv
  refine ⟨hinv.next_not_mem, hinv.outstanding_eq, ?_, hinv.numOfPoll_eq hasFilter⟩
  rw [hinv.length_outstanding]
  exact hinv.not_full

/-- Two calls: the second write filled the ring of two, and a buffer was inserted before the
start. -/
theorem writeRing_flushed_inv_two_calls :
    (∃ b, ((init.flushData 0).flushData 0).localDataMr[
        ((init.flushData 0).flushData 0).nextBufferIndex.toNat]? = some b ∧
        b ∉ ((init.flushData 0).flushData 0).outstanding) ∧
      ((init.flushData 0).flushData 0).outstanding = ((init.flushData 0).flushData 0).inuse ∧
      ((init.flushData 0).flushData 0).outstanding.length <
        ((init.flushData 0).flushData 0).localDataMr.length ∧
      ((init.flushData 0).flushData 0).numOfPoll true =
        ((init.flushData 0).flushData 0).outstanding.length + if true then 2 else 1 :=
  writeRing_flushed_inv (.next 0 .first (by decide)) true

end WriteRing

end DLSM
