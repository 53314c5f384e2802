import DLSM.Table.Block

/-! The laws of the keys the table builders put in the index block.  Under the bytewise user
comparator `InternalKeyComparator::FindShortestSeparator` of `start < limit` stays at or after
`start` and before `limit`, and `FindShortSuccessor` of a key stays at or after it; neither makes
the encoded key longer, since a user key is replaced only by a shorter one before the eight-byte
tag.  `InternalKeyComparator::Compare` is a total order: by user key ascending, then by tag, the
packed sequence number and type, descending. -/

namespace DLSM

namespace InternalKeyComparator

theorem length_userKey_findShortestSeparator_le (start limit : InternalKey Bytes) :
    (findShortestSeparator start limit).userKey.length ≤ start.userKey.length := by
  unfold findShortestSeparator
  dsimp only
  split_ifs with h
  · exact h.1.le
  · exact le_rfl

theorem length_userKey_findShortSuccessor_le (key : InternalKey Bytes) :
    (findShortSuccessor key).userKey.length ≤ key.userKey.length := by
  unfold findShortSuccessor
  dsimp only
  split_ifs with h
  · exact h.1.le
  · exact le_rfl

end InternalKeyComparator

section Compare

variable {K : Type} [LinearOrder K] (a b c : InternalKey K)

theorem internalKeyCompare_self : internalKeyCompare a a = .eq := by
  rw [internalKeyCompare_eq_compare, Std.compare_self]

theorem internalKeyCompare_swap : (internalKeyCompare a b).swap = internalKeyCompare b a := by
  rw [internalKeyCompare_eq_compare, internalKeyCompare_eq_compare, Std.OrientedOrd.eq_swap,
    Ordering.swap_swap]

theorem internalKeyCompare_ne_gt_iff : internalKeyCompare a b ≠ .gt ↔ a ≤ b := by
  rw [internalKeyCompare_eq_compare, compare_le_iff_le]

theorem internalKeyCompare_lt_iff :
    internalKeyCompare a b = .lt ↔ a.userKey < b.userKey ∨ a.userKey = b.userKey ∧ b.tag < a.tag := by
  rw [internalKeyCompare_eq_compare, compare_lt_iff_lt, InternalKey.lt_iff]

theorem internalKeyCompare_trans (hab : internalKeyCompare a b ≠ .gt)
    (hbc : internalKeyCompare b c ≠ .gt) : internalKeyCompare a c ≠ .gt := by
  rw [internalKeyCompare_ne_gt_iff] at hab hbc ⊢
  exact hab.trans hbc

end Compare

/-- The separator and successor laws of the index keys, and the order of
`InternalKeyComparator::Compare`, under the bytewise user comparator.  A separator of
`start < limit` is at or after `start`, before `limit`, and no longer than `start` once encoded;
a successor of a key is at or after it and no longer.  `Compare` is a total preorder, equal only
on equal keys, that orders by user key ascending and then by tag descending. -/
theorem internalKeyComparator_laws :
    (∀ start limit : InternalKey Bytes, internalKeyCompare start limit = .lt →
      internalKeyCompare start (InternalKeyComparator.findShortestSeparator start limit) ≠ .gt ∧
        internalKeyCompare (InternalKeyComparator.findShortestSeparator start limit) limit = .lt ∧
        (InternalKeyComparator.findShortestSeparator start limit).encode.length ≤
          start.encode.length) ∧
    (∀ key : InternalKey Bytes,
      internalKeyCompare key (InternalKeyComparator.findShortSuccessor key) ≠ .gt ∧
        (InternalKeyComparator.findShortSuccessor key).encode.length ≤ key.encode.length) ∧
    (∀ a b c : InternalKey Bytes,
      internalKeyCompare a a = .eq ∧
        (internalKeyCompare a b).swap = internalKeyCompare b a ∧
        (internalKeyCompare a b = .eq ↔ a = b) ∧
        (internalKeyCompare a b ≠ .gt → internalKeyCompare b c ≠ .gt →
          internalKeyCompare a c ≠ .gt) ∧
        (internalKeyCompare a b = .lt ↔
          a.userKey < b.userKey ∨ a.userKey = b.userKey ∧ b.tag < a.tag)) := by
  refine ⟨fun start limit h => ?_, fun key => ?_, fun a b c => ?_⟩
  · rw [internalKeyCompare_eq_compare, compare_lt_iff_lt] at h
    obtain ⟨hlt, -⟩ := InternalKeyComparator.findShortestSeparator_lt h
    refine ⟨(internalKeyCompare_ne_gt_iff _ _).2
        (InternalKeyComparator.le_findShortestSeparator start limit), ?_, ?_⟩
    · rw [internalKeyCompare_eq_compare, compare_lt_iff_lt]
      exact hlt
    · simpa using InternalKeyComparator.length_userKey_findShortestSeparator_le start limit
  · refine ⟨(internalKeyCompare_ne_gt_iff _ _).2
        (InternalKeyComparator.le_findShortSuccessor key).1, ?_⟩
    simpa using InternalKeyComparator.length_userKey_findShortSuccessor_le key
  · refine ⟨internalKeyCompare_self a, internalKeyCompare_swap a b, ?_,
      internalKeyCompare_trans a b c, internalKeyCompare_lt_iff a b⟩
    rw [internalKeyCompare_eq_compare, compare_eq_iff_eq]

/-- `[1, 2, 3]` before `[1, 5]`: the separator is `[1, 3]` with the seek tag, two bytes shorter
once encoded. -/
theorem internalKeyComparator_laws_separator :
    internalKeyCompare (InternalKey.mk' ([1, 2, 3] : Bytes) 5 .kTypeValue)
        (InternalKey.mk' ([1, 5] : Bytes) 3 .kTypeValue) = .lt ∧
      InternalKeyComparator.findShortestSeparator (InternalKey.mk' ([1, 2, 3] : Bytes) 5 .kTypeValue)
          (InternalKey.mk' ([1, 5] : Bytes) 3 .kTypeValue) =
        ⟨[1, 3], InternalKeyComparator.shortenedTag⟩ ∧
      internalKeyCompare (InternalKey.mk' ([1, 2, 3] : Bytes) 5 .kTypeValue)
          ⟨[1, 3], InternalKeyComparator.shortenedTag⟩ ≠ .gt := by
  have hlt : internalKeyCompare (InternalKey.mk' ([1, 2, 3] : Bytes) 5 .kTypeValue)
      (InternalKey.mk' ([1, 5] : Bytes) 3 .kTypeValue) = .lt := by decide
  have hsep : InternalKeyComparator.findShortestSeparator
      (InternalKey.mk' ([1, 2, 3] : Bytes) 5 .kTypeValue)
      (InternalKey.mk' ([1, 5] : Bytes) 3 .kTypeValue) =
        ⟨[1, 3], InternalKeyComparator.shortenedTag⟩ := by
    decide
  refine ⟨hlt, hsep, ?_⟩
  have h := (internalKeyComparator_laws.1 _ _ hlt).1
  rwa [hsep] at h

end DLSM
