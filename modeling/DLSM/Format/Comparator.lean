import DLSM.Format.Key

/-! The key shortening of index blocks.  `BytewiseComparatorImpl::FindShortestSeparator` and
`FindShortSuccessor` (util/comparator.cc) shorten a byte string, and `InternalKeyComparator`'s
versions (db/dbformat.cc) apply them to the user key and keep the result, with the tag
`PackSequenceAndType(kMaxSequenceNumber, kValueTypeForSeek)`, only when it is physically shorter
and logically larger.  A separator of `start < limit` is then at or after `start` and before
`limit`, and a successor of a key at or after it; when the user key is not shortened the key
itself is kept. -/

namespace DLSM

namespace BytewiseComparator

/-- The loop of `FindShortestSeparator` that counts the bytes of the common prefix. -/
def diffIndex : Bytes → Bytes → Nat
  | a :: as, b :: bs => if a = b then diffIndex as bs + 1 else 0
  | _, _ => 0

/-- `BytewiseComparatorImpl::FindShortestSeparator`: unless one string is a prefix of the other,
the first byte of `start` that differs from `limit` is incremented and `start` cut after it,
when the byte stays below that of `limit`. -/
def findShortestSeparator (start limit : Bytes) : Bytes :=
  let diffIndex := diffIndex start limit
  if min start.length limit.length ≤ diffIndex then start
  else
    let diffByte := start.getD diffIndex 0
    if diffByte < 255 ∧ diffByte.val + 1 < (limit.getD diffIndex 0).val then
      (start.set diffIndex (diffByte + 1)).take (diffIndex + 1)
    else start

/-- `BytewiseComparatorImpl::FindShortSuccessor`: the first byte that is not `0xff` incremented,
and the string cut after it; a run of `0xff` is left alone. -/
def findShortSuccessor : Bytes → Bytes
  | [] => []
  | b :: bs => if b ≠ 255 then [b + 1] else b :: findShortSuccessor bs

theorem take_diffIndex : ∀ start limit : Bytes,
    start.take (diffIndex start limit) = limit.take (diffIndex start limit)
  | a :: as, b :: bs => by
    by_cases h : a = b
    · simp [diffIndex, h, take_diffIndex as bs]
    · simp [diffIndex, h]
  | [], _ => by simp [diffIndex]
  | _ :: _, [] => by simp [diffIndex]

/-- A separator that is not `start` itself is before `limit`: it agrees with `limit` up to the
first differing byte and is smaller there. -/
theorem findShortestSeparator_eq_or_lt (start limit : Bytes) :
    findShortestSeparator start limit = start ∨ findShortestSeparator start limit < limit := by
  unfold findShortestSeparator
  dsimp only
  split_ifs with hmin hbyte
  · exact .inl rfl
  · right
    obtain ⟨-, hlt⟩ := hbyte
    set d := diffIndex start limit
    have hs : d < start.length := by omega
    have hl : d < limit.length := by omega
    -- the separator is the common prefix and one byte, below the byte of `limit` there
    have hsep : (start.set d (start.getD d 0 + 1)).take (d + 1) =
        limit.take d ++ [start.getD d 0 + 1] := by
      rw [List.take_add_one, List.take_set_of_le (Nat.le_refl d), take_diffIndex,
        List.getElem?_set_self hs]
      rfl
    have hlimit : limit = limit.take d ++ limit[d] :: limit.drop (d + 1) := by
      rw [← List.drop_eq_getElem_cons hl, List.take_append_drop]
    have hbyte : start.getD d 0 + 1 < limit[d] := by
      have hlim : limit.getD d 0 = limit[d] := by simp [List.getD_eq_getElem?_getD, hl]
      rw [hlim] at hlt
      rw [Fin.lt_def, Fin.val_add_one_of_lt' (by omega)]
      exact hlt
    calc (start.set d (start.getD d 0 + 1)).take (d + 1)
        _ = limit.take d ++ [start.getD d 0 + 1] := hsep
        _ < limit.take d ++ limit[d] :: limit.drop (d + 1) :=
          List.Lex.append_left _ (List.Lex.rel hbyte) _
        _ = limit := hlimit.symm
  · exact .inl rfl

end BytewiseComparator

namespace InternalKeyComparator

/-- The tag a shortened index key gets: `PackSequenceAndType(kMaxSequenceNumber,
kValueTypeForSeek)`, before every entry of its user key. -/
def shortenedTag : Nat := packSequenceAndType kMaxSequenceNumber kValueTypeForSeek

/-- `InternalKeyComparator::FindShortestSeparator`. -/
def findShortestSeparator (start limit : InternalKey Bytes) : InternalKey Bytes :=
  let tmp := BytewiseComparator.findShortestSeparator start.userKey limit.userKey
  if tmp.length < start.userKey.length ∧ start.userKey < tmp then ⟨tmp, shortenedTag⟩
  else start

/-- `InternalKeyComparator::FindShortSuccessor`. -/
def findShortSuccessor (key : InternalKey Bytes) : InternalKey Bytes :=
  let tmp := BytewiseComparator.findShortSuccessor key.userKey
  if tmp.length < key.userKey.length ∧ key.userKey < tmp then ⟨tmp, shortenedTag⟩
  else key

theorem le_findShortestSeparator (start limit : InternalKey Bytes) :
    start ≤ findShortestSeparator start limit := by
  unfold findShortestSeparator
  dsimp only
  split_ifs with h
  · exact (InternalKey.lt_iff.mpr (.inl h.2)).le
  · exact le_rfl

/-- The separator of `start < limit` is before `limit`, and it is `start` or has a user key
before that of `limit`. -/
theorem findShortestSeparator_lt {start limit : InternalKey Bytes} (h : start < limit) :
    findShortestSeparator start limit < limit ∧
      (findShortestSeparator start limit = start ∨
        (findShortestSeparator start limit).userKey < limit.userKey) := by
  unfold findShortestSeparator
  dsimp only
  split_ifs with hs
  · have hne : BytewiseComparator.findShortestSeparator start.userKey limit.userKey ≠
        start.userKey := fun he => by rw [he] at hs; exact lt_irrefl _ hs.1
    have hlt := (BytewiseComparator.findShortestSeparator_eq_or_lt start.userKey
      limit.userKey).resolve_left hne
    exact ⟨InternalKey.lt_iff.mpr (.inl hlt), .inr hlt⟩
  · exact ⟨h, .inl rfl⟩

/-- The successor of a key is at or after it, and it is the key or has a larger user key. -/
theorem le_findShortSuccessor (key : InternalKey Bytes) :
    key ≤ findShortSuccessor key ∧
      (findShortSuccessor key = key ∨ key.userKey < (findShortSuccessor key).userKey) := by
  unfold findShortSuccessor
  dsimp only
  split_ifs with h
  · exact ⟨(InternalKey.lt_iff.mpr (.inl h.2)).le, .inr h.2⟩
  · exact ⟨le_rfl, .inl rfl⟩

/-- A one-byte user key below `0xff` is not shortened: its successor is one byte long too, so
the key stays the last index key of its table. -/
example : findShortSuccessor (InternalKey.mk' [1] 1 .kTypeValue) =
    InternalKey.mk' [1] 1 .kTypeValue := by decide

end InternalKeyComparator

end DLSM
