import DLSM.Compaction.Reads
import DLSM.Lib.List

/-! How `DoCompactionWorkWithSubcompaction` cuts its input into ranges.  Both groupings hand out a
chain of ranges `(start, end]` in which each range starts where the one before it ended.  On the
compute node a range with a `start` seeks to `start` at `kMaxSequenceNumber`, which is the first
entry of user key `start`, and steps over it; the range before it stopped right after that same
entry.  So when the boundaries strictly increase and each is the user key of some input entry,
the ranges read every entry exactly once, and their outputs keep every read that
`DoCompactionWork` keeps.  Two equal boundaries break this: the range between them reads the
entry after the first entry of the boundary key, and so does the range after it. -/

set_option linter.unusedSectionVars false

namespace DLSM.Compaction

variable {K V : Type} [LinearOrder K]

/-- Consecutive ranges through the boundaries `bs`, the first starting at `start`. -/
def rangeChain : Option K → List K → List (SubcompactionRange K)
  | start, [] => [⟨start, none⟩]
  | start, b :: bs => ⟨start, some b⟩ :: rangeChain (some b) bs

theorem length_rangeChain (start : Option K) (bs : List K) :
    (rangeChain start bs).length = bs.length + 1 := by
  induction bs generalizing start with
  | nil => rfl
  | cons b bs ih => simp [rangeChain, ih]

theorem getElem_rangeChain (start : Option K) (bs : List K) (i : Nat)
    (hi : i < (rangeChain start bs).length) :
    (rangeChain start bs)[i] =
      ⟨if i = 0 then start else bs[i - 1]?, if i = bs.length then none else bs[i]?⟩ := by
  induction bs generalizing start i with
  | nil =>
    have : i = 0 := by simpa [rangeChain] using hi
    subst this
    rfl
  | cons b bs ih =>
    cases i with
    | zero => simp [rangeChain]
    | succ j =>
      simp only [rangeChain, List.getElem_cons_succ]
      rw [ih]
      cases j with
      | zero => cases bs <;> simp
      | succ j => simp

/-- The first grouping is the chain through all the boundaries. -/
theorem rangesEach_eq_rangeChain (bounds : List K) : rangesEach bounds = rangeChain none bounds := by
  apply List.ext_getElem
  · simp [rangesEach, length_rangeChain]
  · intro i h1 h2
    rw [getElem_rangeChain]
    simp [rangesEach]

theorem mem_genSubcompactionBoundaries {c : Compaction K V} {b : K}
    (hb : b ∈ (genSubcompactionBoundaries c).1) : ∃ f ∈ c.inputs1, f.smallest.userKey = b := by
  unfold genSubcompactionBoundaries at hb
  split at hb
  · cases hb
  · rename_i f rest h
    obtain ⟨g, hg, rfl⟩ := List.mem_map.mp hb
    exact ⟨g, h ▸ List.mem_cons_of_mem _ hg, rfl⟩

theorem groupEnd_bounds (sizes : List Nat) (n smallLimit perRange : Nat) :
    ∀ fuel i counter, i ≤ n →
      i ≤ groupEnd sizes n smallLimit perRange fuel i counter ∧
        groupEnd sizes n smallLimit perRange fuel i counter ≤ n
  | 0, i, _, hi => ⟨le_refl i, hi⟩
  | fuel + 1, i, counter, hi => by
    unfold groupEnd
    split
    · rename_i h
      have hi' : i + 1 ≤ n := Nat.lt_of_le_of_ne hi h.1
      have := groupEnd_bounds sizes n smallLimit perRange fuel (i + 1)
        (if smallLimit ≤ sizes.getD (i + 1) 0 then counter + 1 else counter) hi'
      exact ⟨by omega, this.2⟩
    · exact ⟨le_refl i, hi⟩

/-- From index `i` on, the second grouping is a chain through some of the boundaries after
`i`: each range ends at the boundary where it stopped and the next range starts there. -/
theorem rangesGrouped_go_eq_rangeChain (bounds : List K) (sizes : List Nat)
    (smallLimit perRange : Nat) :
    ∀ fuel i, i ≤ bounds.length → bounds.length - i < fuel →
      ∃ bs, List.Sublist bs (bounds.drop i) ∧
        rangesGrouped.go bounds sizes bounds.length smallLimit perRange fuel i =
          rangeChain (if i = 0 then none else bounds[i - 1]?) bs
  | 0, _, _, hfuel => absurd hfuel (Nat.not_lt_zero _)
  | fuel + 1, i, hi, hfuel => by
    rw [rangesGrouped.go]
    generalize hj : groupEnd _ _ _ _ _ i _ = j
    have hij := groupEnd_bounds sizes bounds.length smallLimit perRange bounds.length i
      (if sizes.getD i 0 ≤ smallLimit then 0 else 1) hi
    rw [hj] at hij
    by_cases hjn : j = bounds.length
    · -- the range runs to the end of the input
      refine ⟨[], List.nil_sublist _, ?_⟩
      simp [hjn, rangeChain]
    · -- the range ends at `bounds[j]`, where the rest of the chain starts
      have hjlt : j < bounds.length := Nat.lt_of_le_of_ne hij.2 hjn
      obtain ⟨bs, hbs, hgo⟩ := rangesGrouped_go_eq_rangeChain bounds sizes smallLimit perRange
        fuel (j + 1) hjlt (by omega)
      refine ⟨bounds[j] :: bs, ?_, ?_⟩
      · have hdrop : bounds.drop j = bounds[j] :: bounds.drop (j + 1) :=
          (List.drop_eq_getElem_cons hjlt)
        have : List.Sublist (bounds[j] :: bs) (bounds.drop j) := hdrop ▸ hbs.cons_cons _
        exact this.trans (List.drop_sublist_drop_left bounds hij.1)
      · simp only [hjn, if_false, Nat.succ_le_of_lt hjlt, if_true, hgo, Nat.add_sub_cancel,
          Nat.add_one_ne_zero, List.getElem?_eq_getElem hjlt, rangeChain]

/-- Both groupings of `DoCompactionWorkWithSubcompaction` hand out a chain of ranges through a
subsequence of the boundaries, starting with `nullptr`. -/
theorem subcompactionRanges_eq_rangeChain (maxSubcompaction maxFileSize : Nat)
    (c : Compaction K V) :
    ∃ bs, List.Sublist bs (genSubcompactionBoundaries c).1 ∧
      subcompactionRanges maxSubcompaction maxFileSize c = rangeChain none bs := by
  unfold subcompactionRanges
  generalize genSubcompactionBoundaries c = p
  obtain ⟨bounds, sizes⟩ := p
  dsimp only
  split
  · exact ⟨_, List.Sublist.refl _, rangesEach_eq_rangeChain _⟩
  · obtain ⟨bs, hbs, hgo⟩ := rangesGrouped_go_eq_rangeChain bounds sizes _ _ _ 0
      (Nat.zero_le _) (Nat.lt_succ_of_le (Nat.sub_le _ _))
    exact ⟨bs, by simpa using hbs, by simpa [rangesGrouped] using hgo⟩

/-- The entries `ProcessKeyValueCompaction` reads for the range `r`. -/
def rangeEntries (r : SubcompactionRange K) (input : List (Entry K V)) : List (Entry K V) :=
  takeThrough r.stop (computeSideStart r.start input)

theorem processKeyValueCompaction_entries (fileSize : List (Entry K V) → Nat)
    (maxOutputFileSize S : Nat) (r : SubcompactionRange K) (input : List (Entry K V)) :
    (processKeyValueCompaction fileSize maxOutputFileSize S r.start r.stop input).flatMap
      (·.entries) = kept (snapshotRule S) DropState.init (rangeEntries r input) := by
  rw [processKeyValueCompaction, finish_entries, written_loop, written_init, List.nil_append]
  rfl

/-- Every key of `run` is one `InternalKey` encodes: a sequence number at most
`kMaxSequenceNumber` and a valid type, so its tag is at most the compute side's seek tag. -/
def TagsBounded (run : List (Entry K V)) : Prop :=
  ∀ e ∈ run, e.key.tag ≤ packSequenceAndType kMaxSequenceNumber kValueTypeForSeek

instance (run : List (Entry K V)) : Decidable (TagsBounded run) :=
  inferInstanceAs (Decidable (∀ e ∈ run, _))

/-- On such a run, the compute side's seek to `b` is the first entry of user key at least `b`. -/
theorem seek_eq_dropWhile {run : List (Entry K V)} (htag : TagsBounded run) (b : K) :
    seek (InternalKey.mk' b kMaxSequenceNumber kValueTypeForSeek) run =
      run.dropWhile fun e => decide (e.key.userKey < b) := by
  apply List.dropWhile_congr_mem
  intro e he
  have h := htag e he
  simp only [decide_eq_decide, InternalKey.lt_iff, InternalKey.userKey_mk']
  constructor
  · rintro (h' | ⟨-, h'⟩)
    · exact h'
    · exact absurd h' (by simpa [InternalKey.mk'] using h)
  · exact .inl

theorem takeThrough_append_of_lt {b : K} {xs : List (Entry K V)} (d : Entry K V)
    (rest : List (Entry K V)) (hxs : ∀ x ∈ xs, x.key.userKey < b) (hd : b ≤ d.key.userKey) :
    takeThrough (some b) (xs ++ d :: rest) = xs ++ [d] := by
  induction xs with
  | nil => simp [takeThrough, hd]
  | cons x xs ih =>
    have hx := hxs x (List.mem_cons_self ..)
    simp only [List.cons_append, takeThrough, Option.any_some, decide_eq_true_eq,
      not_le.mpr hx, if_false]
    rw [ih fun y hy => hxs y (List.mem_cons_of_mem _ hy)]

section Partition

variable {input : List (Entry K V)} (hsorted : input.Pairwise fun a b => a.key < b.key)
  (htag : TagsBounded input)
include hsorted htag

theorem userKey_sorted : input.Pairwise fun a b => a.key.userKey ≤ b.key.userKey :=
  hsorted.imp fun h => InternalKey.userKey_le_of_le h.le

/-- Before a boundary `b` above its own start, a range reads entries below `b` and then the same
entries the seek to `b` finds. -/
theorem computeSideStart_split {start : Option K} {b : K} (hb : ∀ s ∈ start, s < b)
    (hocc : ∀ s ∈ start, ∃ e ∈ input, e.key.userKey = s) :
    ∃ xs, computeSideStart start input = xs ++ input.dropWhile (fun e => decide (e.key.userKey < b)) ∧
      ∀ x ∈ xs, x.key.userKey < b := by
  cases start with
  | none =>
    refine ⟨input.takeWhile fun e => decide (e.key.userKey < b), ?_, ?_⟩
    · exact List.takeWhile_append_dropWhile.symm
    · intro x hx
      simpa using List.mem_takeWhile_imp hx
  | some s =>
    have hsb := hb s rfl
    obtain ⟨y, hy, hys⟩ := hocc s rfl
    obtain ⟨d, rest, hdrop, hds⟩ :=
      List.dropWhile_eq_cons_of_sorted (fun e : Entry K V => e.key.userKey)
        (userKey_sorted hsorted htag) hy hys
    have hsplit : input = input.takeWhile (fun e => decide (e.key.userKey < s)) ++ [d] ++ rest := by
      rw [List.append_assoc, List.singleton_append, ← hdrop, List.takeWhile_append_dropWhile]
    have hbelow : ∀ x ∈ input.takeWhile (fun e => decide (e.key.userKey < s)) ++ [d],
        decide (x.key.userKey < b) = true := by
      intro x hx
      rcases List.mem_append.mp hx with hx | hx
      · have := List.mem_takeWhile_imp hx
        simp only [decide_eq_true_eq] at this ⊢
        exact lt_trans this hsb
      · rw [List.mem_singleton.mp hx, hds]
        simpa using hsb
    refine ⟨rest.takeWhile fun e => decide (e.key.userKey < b), ?_, ?_⟩
    · rw [computeSideStart, seek_eq_dropWhile htag, hdrop, List.tail_cons, hsplit,
        List.dropWhile_append_of_pos hbelow, List.takeWhile_append_dropWhile]
    · intro x hx
      simpa using List.mem_takeWhile_imp hx

/-- The ranges of a chain through strictly increasing boundaries, each the user key of an input
entry, read every entry from their first start on exactly once, in order. -/
theorem rangeChain_entries (bs : List K) (start : Option K) (hbs : bs.Pairwise (· < ·))
    (hstart : ∀ s ∈ start, ∀ b ∈ bs, s < b) (hsocc : ∀ s ∈ start, ∃ e ∈ input, e.key.userKey = s)
    (hocc : ∀ b ∈ bs, ∃ e ∈ input, e.key.userKey = b) :
    (rangeChain start bs).flatMap (rangeEntries · input) = computeSideStart start input := by
  induction bs generalizing start with
  | nil => simp [rangeChain, rangeEntries]
  | cons b bs ih =>
    obtain ⟨xs, hcs, hxs⟩ := computeSideStart_split hsorted htag
      (fun s hs => hstart s hs b (List.mem_cons_self ..)) hsocc
    obtain ⟨y, hy, hyb⟩ := hocc b (List.mem_cons_self ..)
    obtain ⟨d, rest, hdrop, hdb⟩ :=
      List.dropWhile_eq_cons_of_sorted (fun e : Entry K V => e.key.userKey)
        (userKey_sorted hsorted htag) hy hyb
    -- the next range starts right after `d`, the first entry of user key `b`
    have hnext : computeSideStart (some b) input = rest := by
      rw [computeSideStart, seek_eq_dropWhile htag, hdrop, List.tail_cons]
    have htail := ih (some b) (List.pairwise_cons.mp hbs).2
      (fun s hs c hc => by cases hs; exact (List.pairwise_cons.mp hbs).1 c hc)
      (fun s hs => by cases hs; exact ⟨y, hy, hyb⟩)
      (fun c hc => hocc c (List.mem_cons_of_mem _ hc))
    rw [rangeChain, List.flatMap_cons, htail, hnext, rangeEntries, hcs, hdrop,
      takeThrough_append_of_lt d rest hxs (le_of_eq hdb.symm)]
    simp

/-- Subcompactions over a chain through strictly increasing boundaries, each the user key of an
input entry, keep every read at or above `S`, as `DoCompactionWork` does on the whole input. -/
theorem rangeChain_preserves_reads (fileSize : List (Entry K V) → Nat) (maxOutputFileSize : Nat)
    {S : Nat} (hS : S < kMaxSequenceNumber) (bs : List K) (hbs : bs.Pairwise (· < ·))
    (hocc : ∀ b ∈ bs, ∃ e ∈ input, e.key.userKey = b) :
    PreservesReads S input ((rangeChain none bs).flatMap fun r =>
      (processKeyValueCompaction fileSize maxOutputFileSize S r.start r.stop input).flatMap
        (·.entries)) := by
  -- the ranges cut the input into consecutive parts, one for each subcompaction
  have hparts : ((rangeChain none bs).map (rangeEntries · input)).flatten = input := by
    rw [← List.flatMap_def, rangeChain_entries hsorted htag bs none hbs (fun _ h => by cases h)
      (fun _ h => by cases h) hocc]
    rfl
  have h := kept_parts_preserves_reads hS ((rangeChain none bs).map (rangeEntries · input))
    (by rw [hparts]; exact hsorted)
  rw [hparts, List.flatMap_map] at h
  simpa only [processKeyValueCompaction_entries] using h

end Partition

/-- When the boundaries strictly increase, `DoCompactionWorkWithSubcompaction` keeps every read at
or above `S`, under either grouping.  Each boundary is the smallest user key of a level+1 input,
one of the keys the input iterator yields. -/
theorem doCompactionWorkWithSubcompaction_preserves_reads (fileSize : List (Entry K V) → Nat)
    (maxOutputFileSize maxSubcompaction maxFileSize : Nat) {S : Nat}
    (hS : S < kMaxSequenceNumber) (c : Compaction K V)
    (hsorted : (Compaction.makeInputIterator c).Pairwise fun a b => a.key < b.key)
    (htag : TagsBounded (Compaction.makeInputIterator c))
    (hsmallest : ∀ f ∈ c.inputs1, ∃ e ∈ f.entries, e.key = f.smallest)
    (hbounds : (genSubcompactionBoundaries c).1.Pairwise (· < ·)) :
    PreservesReads S (Compaction.makeInputIterator c)
      ((doCompactionWorkWithSubcompaction fileSize maxOutputFileSize maxSubcompaction maxFileSize
        S c).flatMap (·.entries)) := by
  obtain ⟨bs, hsub, hranges⟩ := subcompactionRanges_eq_rangeChain maxSubcompaction maxFileSize c
  have hocc : ∀ b ∈ bs, ∃ e ∈ Compaction.makeInputIterator c, e.key.userKey = b := by
    intro b hb
    obtain ⟨f, hf, rfl⟩ := mem_genSubcompactionBoundaries (hsub.subset hb)
    obtain ⟨e, he, hek⟩ := hsmallest f hf
    exact ⟨e, mem_makeInputIterator.mpr ⟨f, List.mem_append_right _ hf, he⟩,
      by rw [hek]⟩
  rw [doCompactionWorkWithSubcompaction, hranges, List.flatMap_assoc]
  exact rangeChain_preserves_reads hsorted htag fileSize maxOutputFileSize hS bs
    (hbounds.sublist hsub) hocc

/-- A level-0 file over two level-1 files, the second starting at user key `[2]`: one boundary. -/
def splitCompaction : Compaction Bytes Bytes :=
  ⟨0,
    [⟨0, 10, 1, 100, .mk' [1] 10 .kTypeValue, .mk' [3] 11 .kTypeValue,
        [⟨.mk' [1] 10 .kTypeValue, [0]⟩, ⟨.mk' [3] 11 .kTypeValue, [0]⟩]⟩],
    [⟨1, 5, 1, 100, .mk' [1] 1 .kTypeValue, .mk' [1] 1 .kTypeValue,
        [⟨.mk' [1] 1 .kTypeValue, [0]⟩]⟩,
      ⟨1, 6, 1, 100, .mk' [2] 2 .kTypeValue, .mk' [2] 2 .kTypeValue,
        [⟨.mk' [2] 2 .kTypeValue, [0]⟩]⟩]⟩

theorem doCompactionWorkWithSubcompaction_preserves_reads_split :
    30 < kMaxSequenceNumber ∧
      (Compaction.makeInputIterator splitCompaction).Pairwise (fun a b => a.key < b.key) ∧
      TagsBounded (Compaction.makeInputIterator splitCompaction) ∧
      (∀ f ∈ splitCompaction.inputs1, ∃ e ∈ f.entries, e.key = f.smallest) ∧
      (genSubcompactionBoundaries splitCompaction).1.Pairwise (· < ·) ∧
      PreservesReads 30 (Compaction.makeInputIterator splitCompaction)
        ((doCompactionWorkWithSubcompaction (fun _ => 0) (64 * 1024 * 1024) 12
          (64 * 1024 * 1024) 30 splitCompaction).flatMap (·.entries)) :=
  ⟨by decide, by decide, by decide, by decide, by decide,
    doCompactionWorkWithSubcompaction_preserves_reads (fun _ => 0) (64 * 1024 * 1024) 12
      (64 * 1024 * 1024) (by decide) splitCompaction (by decide) (by decide) (by decide)
      (by decide)⟩

/-- A level-0 compaction of four files into three level-1 files, the last two cut between the
versions of user key `[2]`: both have smallest user key `[2]`. -/
def repeatedBoundaryCompaction : Compaction Bytes Bytes :=
  ⟨0,
    [⟨0, 10, 1, 100, .mk' [1] 20 .kTypeValue, .mk' [1] 20 .kTypeValue,
        [⟨.mk' [1] 20 .kTypeValue, [0]⟩]⟩,
      ⟨0, 11, 1, 100, .mk' [3] 21 .kTypeValue, .mk' [3] 21 .kTypeValue,
        [⟨.mk' [3] 21 .kTypeValue, [0]⟩]⟩,
      ⟨0, 12, 1, 100, .mk' [4] 22 .kTypeValue, .mk' [4] 22 .kTypeValue,
        [⟨.mk' [4] 22 .kTypeValue, [0]⟩]⟩,
      ⟨0, 13, 1, 100, .mk' [5] 23 .kTypeValue, .mk' [5] 23 .kTypeValue,
        [⟨.mk' [5] 23 .kTypeValue, [0]⟩]⟩],
    [⟨1, 5, 1, 100, .mk' [1] 1 .kTypeValue, .mk' [1] 1 .kTypeValue,
        [⟨.mk' [1] 1 .kTypeValue, [0]⟩]⟩,
      ⟨1, 6, 1, 100, .mk' [2] 5 .kTypeValue, .mk' [2] 5 .kTypeValue,
        [⟨.mk' [2] 5 .kTypeValue, [0]⟩]⟩,
      ⟨1, 7, 1, 100, .mk' [2] 4 .kTypeValue, .mk' [3] 2 .kTypeValue,
        [⟨.mk' [2] 4 .kTypeValue, [0]⟩, ⟨.mk' [3] 2 .kTypeValue, [0]⟩]⟩]⟩

/-- With the boundaries `[2], [2]` the middle range `([2], [2]]` reads `[2]@4`, the entry after
the first one of `[2]`, and so does the last range: the entry is written twice and the outputs
do not increase, where `DoCompactionWork` writes each kept entry once. -/
theorem doCompactionWorkWithSubcompaction_repeats_boundary_entry :
    (genSubcompactionBoundaries repeatedBoundaryCompaction).1 = [[2], [2]] ∧
      (doCompactionWorkWithSubcompaction (fun _ => 0) (64 * 1024 * 1024) 12 (64 * 1024 * 1024) 30
          repeatedBoundaryCompaction).flatMap (·.entries) =
        [⟨.mk' [1] 20 .kTypeValue, [0]⟩, ⟨.mk' [2] 5 .kTypeValue, [0]⟩,
          ⟨.mk' [2] 4 .kTypeValue, [0]⟩, ⟨.mk' [2] 4 .kTypeValue, [0]⟩,
          ⟨.mk' [3] 21 .kTypeValue, [0]⟩, ⟨.mk' [4] 22 .kTypeValue, [0]⟩,
          ⟨.mk' [5] 23 .kTypeValue, [0]⟩] ∧
      ¬((doCompactionWorkWithSubcompaction (fun _ => 0) (64 * 1024 * 1024) 12 (64 * 1024 * 1024)
          30 repeatedBoundaryCompaction).flatMap (·.entries)).Pairwise (fun a b => a.key < b.key) ∧
      (doCompactionWork (fun _ => 0) (64 * 1024 * 1024) 30
          (Compaction.makeInputIterator repeatedBoundaryCompaction)).flatMap (·.entries) =
        [⟨.mk' [1] 20 .kTypeValue, [0]⟩, ⟨.mk' [2] 5 .kTypeValue, [0]⟩,
          ⟨.mk' [3] 21 .kTypeValue, [0]⟩, ⟨.mk' [4] 22 .kTypeValue, [0]⟩,
          ⟨.mk' [5] 23 .kTypeValue, [0]⟩] := by
  decide

end DLSM.Compaction
