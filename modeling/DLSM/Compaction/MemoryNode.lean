import DLSM.Compaction.Subcompaction

/-! The rule of the memory node and of `FlushJob::BuildTable`, which keeps the first entry of each
user key.  On a sorted input whose keys all parse this is the newest entry of each user key, once
each, so a read at the newest sequence sees what it saw before; a read at a snapshot below that
does not, since no snapshot is consulted.  A memory-node subcompaction enters its range at
`InternalKey(start, 0, kValueTypeForSeek)`, past every version of `start`, and then steps over
the first entry of the next user key, which no range writes. -/

set_option linter.unusedSectionVars false

namespace DLSM.Compaction

variable {K V : Type} [LinearOrder K]

/-- Every key of `run` parses: a type byte that is a deletion or a value. -/
def AllParse (run : List (Entry K V)) : Prop :=
  ∀ e ∈ run, (parseInternalKey e.key).isSome

instance (run : List (Entry K V)) : Decidable (AllParse run) :=
  inferInstanceAs (Decidable (∀ e ∈ run, _))

/-- What the memory node promises of its output: a subsequence of the input with one entry per
user key, in increasing order, and for each user key the first, so newest, entry of the input. -/
structure KeepsNewest (input out : List (Entry K V)) : Prop where
  sublist : List.Sublist out input
  sorted : out.Pairwise fun a b => a.key.userKey < b.key.userKey
  newest : ∀ k, out.find? (fun e => decide (e.key.userKey = k)) =
    input.find? fun e => decide (e.key.userKey = k)

theorem firstEntryRule_of_parse {st : DropState K} {key : InternalKey K}
    (h : (parseInternalKey key).isSome) :
    firstEntryRule st key = (decide (st.currentUserKey = some key.userKey),
      { st with currentUserKey := some key.userKey }) := by
  obtain ⟨ikey, hk⟩ := Option.isSome_iff_exists.mp h
  rw [firstEntryRule, hk]
  dsimp only
  rw [(parseInternalKey_eq_some hk).1]

theorem kept_firstEntryRule_find (st : DropState K) (input : List (Entry K V))
    (hparse : AllParse input) (k : K) (hst : st.currentUserKey ≠ some k) :
    (kept firstEntryRule st input).find? (fun e => decide (e.key.userKey = k)) =
      input.find? fun e => decide (e.key.userKey = k) := by
  induction input generalizing st with
  | nil => rfl
  | cons e rest ih =>
    have hrest : AllParse rest := fun x hx => hparse x (List.mem_cons_of_mem _ hx)
    rw [kept, firstEntryRule_of_parse (hparse e (List.mem_cons_self ..))]
    by_cases hek : e.key.userKey = k
    · simp [hst, hek]
    · have hne : some e.key.userKey ≠ some k := by simpa using hek
      have := ih { st with currentUserKey := some e.key.userKey } hrest hne
      split <;> simp [hek, this]

theorem kept_firstEntryRule_sorted (st : DropState K) (input : List (Entry K V))
    (hparse : AllParse input) (hsorted : input.Pairwise fun a b => a.key.userKey ≤ b.key.userKey)
    (hst : ∀ u, st.currentUserKey = some u → ∀ e ∈ input, u ≤ e.key.userKey) :
    (kept firstEntryRule st input).Pairwise (fun a b => a.key.userKey < b.key.userKey) ∧
      ∀ u, st.currentUserKey = some u → ∀ e ∈ kept firstEntryRule st input, u < e.key.userKey := by
  induction input generalizing st with
  | nil => exact ⟨List.Pairwise.nil, fun _ _ _ h => by cases h⟩
  | cons e rest ih =>
    obtain ⟨hle, hsorted'⟩ := List.pairwise_cons.mp hsorted
    have hrest : AllParse rest := fun x hx => hparse x (List.mem_cons_of_mem _ hx)
    obtain ⟨hpair, habove⟩ := ih { st with currentUserKey := some e.key.userKey } hrest hsorted'
      (fun u hu x hx => by cases hu; exact hle x hx)
    rw [kept, firstEntryRule_of_parse (hparse e (List.mem_cons_self ..))]
    by_cases hcur : st.currentUserKey = some e.key.userKey
    · refine ⟨by simpa [hcur] using hpair, fun u hu x hx => ?_⟩
      rw [hcur, Option.some.injEq] at hu
      exact hu ▸ habove _ rfl x (by simpa [hcur] using hx)
    · simp only [hcur, decide_false, Bool.false_eq_true, if_false, List.singleton_append]
      refine ⟨List.pairwise_cons.mpr ⟨habove _ rfl, hpair⟩, fun u hu x hx => ?_⟩
      have hue : u < e.key.userKey :=
        lt_of_le_of_ne (hst u hu e (List.mem_cons_self ..)) fun h => hcur (h ▸ hu)
      rcases List.mem_cons.mp hx with rfl | hx
      · exact hue
      · exact lt_trans hue (habove _ rfl x hx)

theorem kept_firstEntryRule_keeps_newest (input : List (Entry K V)) (hparse : AllParse input)
    (hsorted : input.Pairwise fun a b => a.key < b.key) :
    KeepsNewest input (kept firstEntryRule DropState.init input) where
  sublist := kept_sublist _ _ _
  sorted := (kept_firstEntryRule_sorted DropState.init input hparse
    (hsorted.imp fun h => InternalKey.userKey_le_of_le h.le) (fun _ h => by cases h)).1
  newest k := kept_firstEntryRule_find DropState.init input hparse k (fun h => by cases h)

theorem memoryNodeDoCompactionWork_entries (fileSize : List (Entry K V) → Nat)
    (maxOutputFileSize : Nat) (input : List (Entry K V)) :
    (memoryNodeDoCompactionWork fileSize maxOutputFileSize input).flatMap (·.entries) =
      kept firstEntryRule DropState.init input := by
  rw [memoryNodeDoCompactionWork, finish_entries, written_loop, written_init, takeThrough_none,
    List.nil_append]
  rfl

/-- `Memory_Node_Keeper::DoCompactionWork` writes the newest entry of each user key, once. -/
theorem memoryNodeDoCompactionWork_keeps_newest (fileSize : List (Entry K V) → Nat)
    (maxOutputFileSize : Nat) (input : List (Entry K V)) (hparse : AllParse input)
    (hsorted : input.Pairwise fun a b => a.key < b.key) :
    KeepsNewest input
      ((memoryNodeDoCompactionWork fileSize maxOutputFileSize input).flatMap (·.entries)) := by
  rw [memoryNodeDoCompactionWork_entries]
  exact kept_firstEntryRule_keeps_newest input hparse hsorted

theorem memoryNodeDoCompactionWork_keeps_newest_two_versions :
    AllParse [(⟨.mk' [1] 2 .kTypeValue, 20⟩ : Entry Bytes Nat), ⟨.mk' [1] 1 .kTypeValue, 10⟩,
        ⟨.mk' [2] 3 .kTypeValue, 30⟩] ∧
      [(⟨.mk' [1] 2 .kTypeValue, 20⟩ : Entry Bytes Nat), ⟨.mk' [1] 1 .kTypeValue, 10⟩,
        ⟨.mk' [2] 3 .kTypeValue, 30⟩].Pairwise (fun a b => a.key < b.key) ∧
      KeepsNewest [(⟨.mk' [1] 2 .kTypeValue, 20⟩ : Entry Bytes Nat), ⟨.mk' [1] 1 .kTypeValue, 10⟩,
          ⟨.mk' [2] 3 .kTypeValue, 30⟩]
        ((memoryNodeDoCompactionWork (fun _ => 0) (64 * 1024 * 1024)
          [⟨.mk' [1] 2 .kTypeValue, 20⟩, ⟨.mk' [1] 1 .kTypeValue, 10⟩,
            ⟨.mk' [2] 3 .kTypeValue, 30⟩]).flatMap (·.entries)) :=
  ⟨by decide, by decide,
    memoryNodeDoCompactionWork_keeps_newest (fun _ => 0) (64 * 1024 * 1024) _ (by decide)
      (by decide)⟩

theorem buildTableLoop_eq_kept (st : DropState K) (input : List (Entry K V))
    (hparse : AllParse input) : buildTableLoop st input = .ok (kept firstEntryRule st input) := by
  induction input generalizing st with
  | nil => rfl
  | cons e rest ih =>
    obtain ⟨ikey, hk⟩ := Option.isSome_iff_exists.mp (hparse e (List.mem_cons_self ..))
    rw [buildTableLoop, hk]
    simp only [ih _ fun x hx => hparse x (List.mem_cons_of_mem _ hx), kept]
    rfl

/-- `FlushJob::BuildTable` on a memtable whose keys all parse writes one table, from the first key
to the last, holding the newest entry of each user key. -/
theorem buildTable_keeps_newest (first : Entry K V) (rest : List (Entry K V))
    (hparse : AllParse (first :: rest))
    (hsorted : (first :: rest).Pairwise fun a b => a.key < b.key) :
    ∃ out, buildTable (first :: rest) =
        .ok (some ⟨first.key, ((first :: rest).getLast (List.cons_ne_nil _ _)).key, out⟩) ∧
      KeepsNewest (first :: rest) out := by
  refine ⟨_, ?_, kept_firstEntryRule_keeps_newest _ hparse hsorted⟩
  rw [buildTable, buildTableLoop_eq_kept _ _ hparse]
  rfl

theorem buildTable_keeps_newest_two_versions :
    AllParse [(⟨.mk' [1] 2 .kTypeValue, 20⟩ : Entry Bytes Nat), ⟨.mk' [1] 1 .kTypeValue, 10⟩] ∧
      [(⟨.mk' [1] 2 .kTypeValue, 20⟩ : Entry Bytes Nat), ⟨.mk' [1] 1 .kTypeValue, 10⟩].Pairwise
        (fun a b => a.key < b.key) ∧
      ∃ out, buildTable [(⟨.mk' [1] 2 .kTypeValue, 20⟩ : Entry Bytes Nat),
          ⟨.mk' [1] 1 .kTypeValue, 10⟩] =
          .ok (some ⟨.mk' [1] 2 .kTypeValue, ([(⟨.mk' [1] 2 .kTypeValue, 20⟩ : Entry Bytes Nat),
            ⟨.mk' [1] 1 .kTypeValue, 10⟩].getLast (List.cons_ne_nil _ _)).key, out⟩) ∧
        KeepsNewest [(⟨.mk' [1] 2 .kTypeValue, 20⟩ : Entry Bytes Nat),
          ⟨.mk' [1] 1 .kTypeValue, 10⟩] out :=
  ⟨by decide, by decide, buildTable_keeps_newest _ _ (by decide) (by decide)⟩

/-- A level-0 compaction of four files into two level-1 files, the second starting at user
key `[2]`. -/
def skippedBoundaryCompaction : Compaction Bytes Bytes :=
  ⟨0,
    [⟨0, 10, 1, 100, .mk' [1] 10 .kTypeValue, .mk' [1] 10 .kTypeValue,
        [⟨.mk' [1] 10 .kTypeValue, [0]⟩]⟩,
      ⟨0, 11, 1, 100, .mk' [3] 11 .kTypeValue, .mk' [3] 11 .kTypeValue,
        [⟨.mk' [3] 11 .kTypeValue, [0]⟩]⟩,
      ⟨0, 12, 1, 100, .mk' [4] 12 .kTypeValue, .mk' [4] 12 .kTypeValue,
        [⟨.mk' [4] 12 .kTypeValue, [0]⟩]⟩,
      ⟨0, 13, 1, 100, .mk' [5] 13 .kTypeValue, .mk' [5] 13 .kTypeValue,
        [⟨.mk' [5] 13 .kTypeValue, [0]⟩]⟩],
    [⟨1, 5, 1, 100, .mk' [1] 1 .kTypeValue, .mk' [1] 1 .kTypeValue,
        [⟨.mk' [1] 1 .kTypeValue, [0]⟩]⟩,
      ⟨1, 6, 1, 100, .mk' [2] 2 .kTypeValue, .mk' [2] 2 .kTypeValue,
        [⟨.mk' [2] 2 .kTypeValue, [0]⟩]⟩]⟩

/-- The first range ends after `[2]@2`; the second seeks to `[2]@0`, lands on `[3]@11` and steps
over it, so user key `[3]` is in no output, where `DoCompactionWork` of the memory node keeps it. -/
theorem memoryNodeDoCompactionWorkWithSubcompaction_loses_entry :
    (genSubcompactionBoundaries skippedBoundaryCompaction).1 = [[2]] ∧
      (memoryNodeDoCompactionWorkWithSubcompaction (fun _ => 0) (64 * 1024 * 1024) 12
          (64 * 1024 * 1024) skippedBoundaryCompaction).flatMap (·.entries) =
        [⟨.mk' [1] 10 .kTypeValue, [0]⟩, ⟨.mk' [2] 2 .kTypeValue, [0]⟩,
          ⟨.mk' [4] 12 .kTypeValue, [0]⟩, ⟨.mk' [5] 13 .kTypeValue, [0]⟩] ∧
      (memoryNodeDoCompactionWork (fun _ => 0) (64 * 1024 * 1024)
          (Compaction.makeInputIterator skippedBoundaryCompaction)).flatMap (·.entries) =
        [⟨.mk' [1] 10 .kTypeValue, [0]⟩, ⟨.mk' [2] 2 .kTypeValue, [0]⟩,
          ⟨.mk' [3] 11 .kTypeValue, [0]⟩, ⟨.mk' [4] 12 .kTypeValue, [0]⟩,
          ⟨.mk' [5] 13 .kTypeValue, [0]⟩] := by
  decide

end DLSM.Compaction
