import DLSM.Compaction.Work

/-! What a read sees in a run of entries, and which entries rule (A) may drop.  A read of user key
`k` at sequence `r` returns the first entry of `k` with a sequence number at most `r`: in a run
sorted by internal key that is the newest one, value or deletion.  Rule (A) only drops an entry
whose predecessor has the same user key and a sequence number at most `smallest_snapshot`, so for
every read at or above `smallest_snapshot` the entry it sees survives, as long as
`smallest_snapshot` is below `kMaxSequenceNumber`, the value the rule starts each user key
with. -/

set_option linter.unusedSectionVars false

namespace DLSM.Compaction

variable {K V : Type} [LinearOrder K]

/-- The entry a read of `k` at sequence `r` finds in `run`. -/
def newestEntry (k : K) (r : Nat) (run : List (Entry K V)) : Option (Entry K V) :=
  run.find? fun e => decide (e.key.userKey = k ∧ e.key.sequence ≤ r)

@[simp] theorem takeThrough_none (input : List (Entry K V)) : takeThrough none input = input := by
  induction input with
  | nil => rfl
  | cons e rest ih => simp [takeThrough, ih]

@[simp] theorem written_init : (LoopState.init : LoopState K V).written = [] := rfl

theorem kept_sublist (rule : DropState K → InternalKey K → Bool × DropState K)
    (st : DropState K) (input : List (Entry K V)) : List.Sublist (kept rule st input) input := by
  induction input generalizing st with
  | nil => exact List.Sublist.slnil
  | cons e rest ih =>
    unfold kept
    split
    · exact (ih _).cons e
    · exact (ih _).cons_cons e

/-- The entries `doCompactionWork` hands to its builders are those rule (A) keeps. -/
theorem doCompactionWork_entries (fileSize : List (Entry K V) → Nat) (maxOutputFileSize S : Nat)
    (input : List (Entry K V)) :
    (doCompactionWork fileSize maxOutputFileSize S input).flatMap (·.entries) =
      kept (snapshotRule S) DropState.init input := by
  rw [doCompactionWork, finish_entries, written_loop, written_init, takeThrough_none,
    List.nil_append]
  rfl

/-- What a compaction that keeps every read at or above `S` hands its builders: a subsequence of
its input, strictly increasing, in which every such read finds what it finds in the input, and
from which only entries behind an earlier entry of their user key at most `S` are missing. -/
structure PreservesReads (S : Nat) (input out : List (Entry K V)) : Prop where
  sublist : List.Sublist out input
  sorted : out.Pairwise fun a b => a.key < b.key
  reads : ∀ k r, S ≤ r → newestEntry k r out = newestEntry k r input
  hidden : ∀ e ∈ input, e ∉ out → ∃ p ∈ input, p.key < e.key ∧
    p.key.userKey = e.key.userKey ∧ p.key.sequence ≤ S

section SnapshotRule

variable {S : Nat}

/-- Rule (A) drops an entry only after an entry of the same user key with a sequence number at
most `smallest_snapshot`. -/
theorem snapshotRule_drop {st : DropState K} {key : InternalKey K}
    (h : (snapshotRule S st key).1 = true) (hS : S < kMaxSequenceNumber) :
    st.currentUserKey = some key.userKey ∧ st.lastSequenceForKey ≤ S := by
  unfold snapshotRule at h
  split at h
  · cases h
  · rename_i ikey hp
    obtain ⟨hu, -⟩ := parseInternalKey_eq_some hp
    simp only [decide_eq_true_eq] at h
    split at h
    · exact ⟨hu ▸ ‹_›, h⟩
    · omega

/-- After an entry, the state of rule (A) remembers that entry's user key and sequence number, or
nothing when it did not parse. -/
theorem snapshotRule_state (st : DropState K) (key : InternalKey K) :
    (snapshotRule S st key).2 = DropState.init ∨
      (snapshotRule S st key).2 = ⟨some key.userKey, key.sequence⟩ := by
  unfold snapshotRule
  split
  · exact .inl rfl
  · rename_i ikey hp
    obtain ⟨hu, hs⟩ := parseInternalKey_eq_some hp
    exact .inr (by rw [hu, hs])

theorem newestEntry_cons_of_visible {k : K} {r : Nat} {e : Entry K V} (run : List (Entry K V))
    (hv : e.key.userKey = k ∧ e.key.sequence ≤ r) : newestEntry k r (e :: run) = some e := by
  simp [newestEntry, hv]

theorem newestEntry_cons_of_not_visible {k : K} {r : Nat} {e : Entry K V} (run : List (Entry K V))
    (hv : ¬(e.key.userKey = k ∧ e.key.sequence ≤ r)) :
    newestEntry k r (e :: run) = newestEntry k r run := by
  simp [newestEntry, hv]

/-- The entry a read at `r ≥ S` finds is never dropped, as long as the state has not just seen an
entry of `k` that the read would find. -/
theorem newestEntry_kept (hS : S < kMaxSequenceNumber) {k : K} {r : Nat} (hr : S ≤ r)
    (st : DropState K) (hst : st.currentUserKey = some k → r < st.lastSequenceForKey)
    (input : List (Entry K V)) :
    newestEntry k r (kept (snapshotRule S) st input) = newestEntry k r input := by
  induction input generalizing st with
  | nil => rfl
  | cons e rest ih =>
    unfold kept
    by_cases hv : e.key.userKey = k ∧ e.key.sequence ≤ r
    · -- the read finds `e`, which rule (A) keeps: a drop would need `last ≤ S ≤ r`
      have hkeep : (snapshotRule S st e.key).1 = false := by
        by_contra hd
        obtain ⟨hcur, hlast⟩ := snapshotRule_drop (Bool.not_eq_false _ ▸ hd) hS
        have := hst (hv.1 ▸ hcur)
        omega
      rw [hkeep, if_neg Bool.false_ne_true, List.singleton_append,
        newestEntry_cons_of_visible _ hv, newestEntry_cons_of_visible _ hv]
    · -- the read passes over `e`, and the state after it hides nothing the read finds
      have hnext : (snapshotRule S st e.key).2.currentUserKey = some k →
          r < (snapshotRule S st e.key).2.lastSequenceForKey := by
        intro hk
        rcases snapshotRule_state (S := S) st e.key with h | h <;> rw [h] at hk ⊢
        · cases hk
        · simp only [Option.some.injEq] at hk
          exact Nat.lt_of_not_le fun hle => hv ⟨hk, hle⟩
      rw [newestEntry_cons_of_not_visible _ hv, ← ih _ hnext]
      split
      · rfl
      · exact newestEntry_cons_of_not_visible _ hv

/-- Every entry rule (A) drops follows an entry of the same user key, earlier in the run, with a
sequence number at most `S`.  `pre` holds the entries already read; the state only remembers
one of them. -/
theorem kept_hidden (hS : S < kMaxSequenceNumber) (pre : List (Entry K V)) (st : DropState K)
    (input : List (Entry K V)) (hsorted : (pre ++ input).Pairwise fun a b => a.key < b.key)
    (hst : ∀ u, st.currentUserKey = some u → ∃ p ∈ pre, p.key.userKey = u ∧
      p.key.sequence = st.lastSequenceForKey) :
    ∀ e ∈ input, e ∉ kept (snapshotRule S) st input → ∃ p ∈ pre ++ input, p.key < e.key ∧
      p.key.userKey = e.key.userKey ∧ p.key.sequence ≤ S := by
  induction input generalizing pre st with
  | nil => intro e he; cases he
  | cons x rest ih =>
    intro e he hout
    unfold kept at hout
    rcases List.mem_cons.mp he with rfl | he
    · -- `e` itself was dropped: the state names an earlier entry of its user key
      have hd : (snapshotRule S st e.key).1 = true := by
        by_contra hd
        rw [if_neg hd] at hout
        exact hout (List.mem_cons_self ..)
      obtain ⟨hcur, hlast⟩ := snapshotRule_drop hd hS
      obtain ⟨p, hp, hpu, hps⟩ := hst _ hcur
      have hlt : p.key < e.key :=
        (List.pairwise_append.mp hsorted).2.2 p hp e (List.mem_cons_self ..)
      exact ⟨p, List.mem_append_left _ hp, hlt, hpu, hps ▸ hlast⟩
    · have hrest : e ∉ kept (snapshotRule S) (snapshotRule S st x.key).2 rest := fun h =>
        hout (List.mem_append_right _ h)
      have hsorted' : (pre ++ [x] ++ rest).Pairwise fun a b => a.key < b.key := by
        simpa using hsorted
      have hst' : ∀ u, (snapshotRule S st x.key).2.currentUserKey = some u →
          ∃ p ∈ pre ++ [x], p.key.userKey = u ∧
            p.key.sequence = (snapshotRule S st x.key).2.lastSequenceForKey := by
        intro u hu
        rcases snapshotRule_state (S := S) st x.key with h | h <;> rw [h] at hu ⊢
        · cases hu
        · simp only [Option.some.injEq] at hu
          exact ⟨x, by simp, hu, rfl⟩
      obtain ⟨p, hp, h⟩ := ih (pre ++ [x]) _ hsorted' hst' e he hrest
      exact ⟨p, by simpa using hp, h⟩

theorem newestEntry_append (k : K) (r : Nat) (a b : List (Entry K V)) :
    newestEntry k r (a ++ b) = (newestEntry k r a).or (newestEntry k r b) :=
  List.find?_append

/-- Rule (A) started afresh on each part of a sorted run, as each subcompaction does on its range,
keeps every read at or above `S`; a single part is `DoCompactionWork` itself. -/
theorem kept_parts_preserves_reads (hS : S < kMaxSequenceNumber)
    (parts : List (List (Entry K V)))
    (hsorted : parts.flatten.Pairwise fun a b => a.key < b.key) :
    PreservesReads S parts.flatten (parts.flatMap (kept (snapshotRule S) DropState.init)) := by
  induction parts with
  | nil => exact ⟨List.Sublist.slnil, List.Pairwise.nil, fun _ _ _ => rfl, fun _ h => by cases h⟩
  | cons part parts ih =>
    simp only [List.flatten_cons, List.flatMap_cons] at hsorted ⊢
    have hpart := (List.pairwise_append.mp hsorted).1
    have hrest := ih (List.pairwise_append.mp hsorted).2.1
    have hsub := (kept_sublist (snapshotRule S) DropState.init part).append hrest.sublist
    refine ⟨hsub, hsorted.sublist hsub, ?_, ?_⟩
    · intro k r hr
      rw [newestEntry_append, newestEntry_append, hrest.reads k r hr,
        newestEntry_kept hS hr _ (fun h => by cases h) part]
    · intro e he hne
      rcases List.mem_append.mp he with he | he
      · -- dropped inside its own range: the entry that hides it is in the same range
        obtain ⟨p, hp, h⟩ := kept_hidden hS [] DropState.init part (by simpa using hpart)
          (fun _ h => by cases h) e he fun h => hne (List.mem_append_left _ h)
        exact ⟨p, List.mem_append_left _ (by simpa using hp), h⟩
      · obtain ⟨p, hp, h⟩ := hrest.hidden e he fun h => hne (List.mem_append_right _ h)
        exact ⟨p, List.mem_append_right _ hp, h⟩

end SnapshotRule

end DLSM.Compaction
