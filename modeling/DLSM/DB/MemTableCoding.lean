import Mathlib
import DLSM.Format.Coding
import DLSM.Lib.Index
import DLSM.Lib.SortedList

/-! The memtable's bytes (db/memtable.cc, db/dbformat.cc).  `MemTable::Add` writes an entry as
one buffer: the internal key's length as a varint32, the user key, the fixed-64 tag
`(s << 8) | type`, and the value after its varint32 length.  `LookupKey` writes a seek key the
same way, with the tag `PackSequenceAndType(s, kValueTypeForSeek)`.  The skip list orders its
entries by `KeyComparator`, `InternalKeyComparator` on the internal keys the buffers start with;
it stands here for its level-0 list, strictly increasing under that order, and `Seek` for the
search of that list for the first entry at or after the target.  The user comparator is the
default `BytewiseComparator`.  Lengths are cast to 32 bits where `EncodeVarint32`'s parameter
casts them, and tags are 64-bit values.

For adds with distinct sequence numbers up to `kMaxSequenceNumber`, of keys and values whose
lengths the casts keep, `Get` at a snapshot up to `kMaxSequenceNumber` reports the newest add of
the key that the snapshot sees, and the iterator reads back what each add wrote. -/

namespace DLSM

section SeekKey

variable {K : Type} [LinearOrder K]

/-- An entry of user key `u` lies at or after the seek key of `k` at snapshot `r` exactly when
`u` is after `k`, or is `k` and the entry's sequence number is at most `r`. -/
theorem InternalKey.seekKey_le_mk'_iff {k u : K} {r s : Nat} {t : ValueType} :
    InternalKey.mk' k r kValueTypeForSeek ≤ InternalKey.mk' u s t ↔ k < u ∨ k = u ∧ s ≤ r := by
  have htag : (InternalKey.mk' u s t).tag ≤ packSequenceAndType r kValueTypeForSeek ↔ s ≤ r := by
    cases t <;> simp only [InternalKey.mk', packSequenceAndType, kValueTypeForSeek,
      ValueType.toByte] <;> omega
  rw [InternalKey.mk'_le_iff, InternalKey.userKey_mk', htag]

/-- Of two entries of one user key, the one with the larger sequence number comes first. -/
theorem InternalKey.mk'_lt_mk'_of_lt {u : K} {s s' : Nat} {t t' : ValueType} (h : s' < s) :
    InternalKey.mk' u s t < InternalKey.mk' u s' t' := by
  refine InternalKey.lt_iff.2 (.inr ⟨rfl, ?_⟩)
  cases t <;> cases t' <;> simp only [InternalKey.mk', packSequenceAndType, ValueType.toByte] <;>
    omega

end SeekKey

namespace Wire

open ByteCoding

/-! ### The source's functions -/

/-- `PackSequenceAndType(s, type)`, and the tag `(s << 8) | type` of `MemTable::Add`, in
`uint64_t`: the shift drops the bits above 64. -/
def packedTag (s : Nat) (type : ValueType) : UInt64 := UInt64.ofNat (packSequenceAndType s type)

/-- The buffer `MemTable::Add` writes for `(s, type, key, value)`. -/
def encodeEntry (s : Nat) (type : ValueType) (key value : Bytes) : Bytes :=
  putVarint32 (UInt32.ofNat (key.length + 8)) ++ key ++ putFixed64 (packedTag s type) ++
    putVarint32 (UInt32.ofNat value.length) ++ value

/-- `ExtractUserKey`, and the tag `DecodeFixed64` reads from the last eight bytes of an internal
key.  `ExtractUserKey` asserts eight bytes or more, which every key compared here has. -/
def decodeInternalKey (ik : Bytes) : InternalKey Bytes :=
  ⟨ik.take (ik.length - 8), LittleEndian.decode (ik.drop (ik.length - 8))⟩

/-- The internal key `GetLengthPrefixedSlice` finds at the start of an entry or of a lookup key;
every buffer decoded here is written whole, so the read does not fail on it. -/
def entryKey (entry : Bytes) : InternalKey Bytes :=
  decodeInternalKey ((getLengthPrefixedSlice entry).elim [] Prod.fst)

/-- `MemTable::KeyComparator`: `InternalKeyComparator::Compare` on the internal keys.  The
second operator, which `FindGreaterOrEqual` calls with a target decoded once, agrees with it. -/
def keyComparator (a b : Bytes) : Ordering := internalKeyCompare (entryKey a) (entryKey b)

/-- `InlineSkipList<KeyComparator>`, by its level-0 list: the entries strictly increasing under
the comparator. -/
structure Table where
  entries : List Bytes
  sorted : SortedList.Sorted entryKey entries

/-- `InlineSkipList::Insert`: an entry that compares equal to one in the list is not added. -/
def Table.insert (t : Table) (entry : Bytes) : Table :=
  ⟨SortedList.insert entryKey entry t.entries, SortedList.insert_sorted entry t.sorted⟩

/-- `Iterator::Seek` through `FindGreaterOrEqual`: the first entry that the comparator does not
put before the target. -/
def Table.seek (t : Table) (target : Bytes) : Option Bytes :=
  t.entries.find? fun e => keyComparator e target != .lt

/-- A `MemTable` by its skip list `table_`. -/
structure MemTable where
  table : Table

/-- A new `MemTable`, with an empty skip list. -/
def MemTable.empty : MemTable := ⟨⟨[], List.Pairwise.nil⟩⟩

/-- `MemTable::Add`: the entry's buffer, inserted by `InsertConcurrently`, whose result `Add`
does not look at. -/
def MemTable.add (m : MemTable) (s : Nat) (type : ValueType) (key value : Bytes) : MemTable :=
  ⟨m.table.insert (encodeEntry s type key value)⟩

/-- A `LookupKey`: its bytes from `start_` to `end_`, and `kstart_` as an offset into them. -/
structure LookupKey where
  bytes : Bytes
  kstart : Nat

/-- `LookupKey::LookupKey(user_key, s)`. -/
def LookupKey.make (userKey : Bytes) (s : Nat) : LookupKey :=
  let lengthBytes := putVarint32 (UInt32.ofNat (userKey.length + 8))
  ⟨lengthBytes ++ userKey ++ putFixed64 (packedTag s kValueTypeForSeek), lengthBytes.length⟩

/-- `LookupKey::memtable_key()`: all of its bytes. -/
def LookupKey.memtableKey (k : LookupKey) : Bytes := k.bytes

/-- `LookupKey::user_key()`: from `kstart_` to eight bytes before `end_`. -/
def LookupKey.userKey (k : LookupKey) : Bytes :=
  (k.bytes.drop k.kstart).take (k.bytes.length - k.kstart - 8)

/-- What `MemTable::Get` reports: `true` with the value in `*value`, `true` with `*s` set to
`NotFound`, or `false`. -/
inductive GetResult where
  | value (v : Bytes)
  | notFound
  | absent
  deriving DecidableEq, Repr

/-- `Slice(p, n)` over a buffer that holds `n` bytes at `p`; `none` for one past its end. -/
def slice (p : Bytes) (n : Nat) : Option Bytes := if n ≤ p.length then some (p.take n) else none

/-- The body of `MemTable::Get` on the entry the seek landed on: its user key against the lookup
key's, and then the type byte of its tag.  `key_length - 8` is 32-bit arithmetic, and
`BytewiseComparator::Compare` is `0` exactly on equal bytes.  `none` marks a read past the
entry's end, which no entry `Add` writes has. -/
def checkEntry (entry userKey : Bytes) : Option GetResult :=
  match getVarint32Ptr entry with
  | none => none
  | some (n, keyPtr) =>
    let keyLength := UInt32.ofNat n
    match slice keyPtr (keyLength - 8).toNat with
    | none => none
    | some ukey =>
      if ukey = userKey then
        match LittleEndian.read 8 (keyPtr.drop (keyLength.toNat - 8)) with
        | none => none
        | some (tag, _) =>
          match tag % 256 with
          | 1 => (getLengthPrefixedSlice (keyPtr.drop keyLength.toNat)).map fun p => .value p.1
          | 0 => some .notFound
          | _ => some .absent
      else some .absent

/-- `MemTable::Get`: the seek for the lookup key's `memtable_key()`, then the check of the entry
it lands on. -/
def MemTable.get (m : MemTable) (key : LookupKey) : Option GetResult :=
  match m.table.seek key.memtableKey with
  | some entry => checkEntry entry key.userKey
  | none => some .absent

/-- `MemTableIterator::key()`: the internal key at the start of the entry. -/
def iterKey (entry : Bytes) : Option Bytes := (getLengthPrefixedSlice entry).map Prod.fst

/-- `MemTableIterator::value()`: the length-prefixed slice after the key. -/
def iterValue (entry : Bytes) : Option Bytes :=
  match getLengthPrefixedSlice entry with
  | some (_, rest) => (getLengthPrefixedSlice rest).map Prod.fst
  | none => none

/-! ### The calls and what a lookup should report -/

/-- A call `MemTable::Add(seq, type, key, value)`. -/
structure AddCall where
  seq : Nat
  type : ValueType
  key : Bytes
  value : Bytes
  deriving DecidableEq, Repr

/-- The buffer the call writes. -/
def AddCall.entry (a : AddCall) : Bytes := encodeEntry a.seq a.type a.key a.value

/-- A call whose sequence number `PackSequenceAndType` accepts, and whose key and value have
lengths the casts to 32 bits keep. -/
structure AddCall.Valid (a : AddCall) : Prop where
  seq_le : a.seq ≤ kMaxSequenceNumber
  key_lt : a.key.length + 8 < 2 ^ 32
  value_lt : a.value.length < 2 ^ 32

instance (a : AddCall) : Decidable a.Valid :=
  decidable_of_iff (a.seq ≤ kMaxSequenceNumber ∧ a.key.length + 8 < 2 ^ 32 ∧
      a.value.length < 2 ^ 32)
    ⟨fun ⟨h1, h2, h3⟩ => ⟨h1, h2, h3⟩, fun ⟨h1, h2, h3⟩ => ⟨h1, h2, h3⟩⟩

/-- One call made on the memtable. -/
def MemTable.addCall (m : MemTable) (a : AddCall) : MemTable := m.add a.seq a.type a.key a.value

/-- The memtable after the calls, in order, from a new one. -/
def MemTable.ofAdds (adds : List AddCall) : MemTable := adds.foldl MemTable.addCall MemTable.empty

/-- `a` is the call of user key `k` with the largest sequence number at most `r`. -/
structure NewestVisible (adds : List AddCall) (k : Bytes) (r : Nat) (a : AddCall) : Prop where
  mem : a ∈ adds
  key : a.key = k
  visible : a.seq ≤ r
  newest : ∀ b ∈ adds, b.key = k → b.seq ≤ r → b.seq ≤ a.seq

/-- What `Get` should report for an entry of type `type` and value `v`. -/
def GetResult.ofType : ValueType → Bytes → GetResult
  | .kTypeValue, v => .value v
  | .kTypeDeletion, _ => .notFound

/-! ### The buffers -/

section Buffers

variable {s : Nat} {type : ValueType} {key value : Bytes}

theorem toNat_packedTag (hs : s ≤ kMaxSequenceNumber) (type : ValueType) :
    (packedTag s type).toNat = packSequenceAndType s type := by
  have h : packSequenceAndType s type < 2 ^ 64 := by
    cases type <;> simp only [packSequenceAndType, ValueType.toByte, kMaxSequenceNumber] at hs ⊢ <;>
      omega
  rw [packedTag, UInt64.toNat_ofNat', Nat.mod_eq_of_lt h]

theorem length_append_putFixed64 (key : Bytes) (tag : UInt64) :
    (key ++ putFixed64 tag).length = key.length + 8 := by
  rw [List.length_append, length_putFixed64]

theorem decodeInternalKey_append_putFixed64 (key : Bytes) (tag : UInt64) :
    decodeInternalKey (key ++ putFixed64 tag) = ⟨key, tag.toNat⟩ := by
  have hlen : (key ++ putFixed64 tag).length - 8 = key.length := by
    rw [length_append_putFixed64, Nat.add_sub_cancel]
  rw [decodeInternalKey, hlen, List.take_left' rfl, List.drop_left' rfl, putFixed64,
    LittleEndian.decode_encode, Nat.mod_eq_of_lt (show tag.toNat < 256 ^ 8 from tag.toNat_lt)]

/-- An entry is its internal key and then its value, each length-prefixed: `Add` casts the
lengths as `PutLengthPrefixedSlice` does. -/
theorem encodeEntry_eq (s : Nat) (type : ValueType) (key value : Bytes) :
    encodeEntry s type key value =
      putLengthPrefixedSlice (key ++ putFixed64 (packedTag s type)) ++
        putLengthPrefixedSlice value := by
  simp only [encodeEntry, putLengthPrefixedSlice, length_append_putFixed64, List.append_assoc]

theorem getLengthPrefixedSlice_encodeEntry (hk : key.length + 8 < 2 ^ 32) (value : Bytes) :
    getLengthPrefixedSlice (encodeEntry s type key value) =
      some (key ++ putFixed64 (packedTag s type), putLengthPrefixedSlice value) := by
  rw [encodeEntry_eq, getLengthPrefixedSlice_putLengthPrefixedSlice
    (by rwa [length_append_putFixed64])]

theorem entryKey_encodeEntry (hs : s ≤ kMaxSequenceNumber) (hk : key.length + 8 < 2 ^ 32)
    (value : Bytes) : entryKey (encodeEntry s type key value) = InternalKey.mk' key s type := by
  rw [entryKey, getLengthPrefixedSlice_encodeEntry hk, Option.elim_some,
    decodeInternalKey_append_putFixed64, toNat_packedTag hs]
  rfl

theorem iterKey_encodeEntry (hk : key.length + 8 < 2 ^ 32) (value : Bytes) :
    iterKey (encodeEntry s type key value) = some (key ++ putFixed64 (packedTag s type)) := by
  rw [iterKey, getLengthPrefixedSlice_encodeEntry hk, Option.map_some]

theorem iterValue_encodeEntry (hk : key.length + 8 < 2 ^ 32) (hv : value.length < 2 ^ 32) :
    iterValue (encodeEntry s type key value) = some value := by
  have hval := getLengthPrefixedSlice_putLengthPrefixedSlice hv []
  rw [List.append_nil] at hval
  rw [iterValue, getLengthPrefixedSlice_encodeEntry hk]
  simp only [hval, Option.map_some]

/-- The type byte of a tag. -/
theorem packSequenceAndType_mod (s : Nat) (type : ValueType) :
    packSequenceAndType s type % 256 = type.toByte := by
  cases type <;> simp only [packSequenceAndType, ValueType.toByte] <;> omega

/-- `Get`'s check of an entry `Add` wrote: an entry of another user key is not the key's, and an
entry of the key reports its value or its deletion. -/
theorem checkEntry_encodeEntry (hs : s ≤ kMaxSequenceNumber) (hk : key.length + 8 < 2 ^ 32)
    (hv : value.length < 2 ^ 32) (userKey : Bytes) :
    checkEntry (encodeEntry s type key value) userKey =
      some (if key = userKey then .ofType type value else .absent) := by
  set tag := packedTag s type
  have hlen : (UInt32.ofNat (key.length + 8)).toNat = key.length + 8 := by
    rw [UInt32.toNat_ofNat', Nat.mod_eq_of_lt hk]
  have hsub : (UInt32.ofNat (key.length + 8) - 8).toNat = key.length := by
    rw [UInt32.toNat_sub, hlen]
    simp only [UInt32.reduceToNat]
    omega
  -- the entry after its length: the user key, the tag and the length-prefixed value
  have hptr : getVarint32Ptr (encodeEntry s type key value) =
      some (key.length + 8, key ++ (putFixed64 tag ++ putLengthPrefixedSlice value)) := by
    rw [encodeEntry_eq, putLengthPrefixedSlice, List.append_assoc, List.append_assoc,
      getVarint32Ptr_putVarint32, length_append_putFixed64]
    exact congrArg (fun n => some (n, _)) hlen
  have hslice : slice (key ++ (putFixed64 tag ++ putLengthPrefixedSlice value)) key.length =
      some key := by
    rw [slice, if_pos (by simp), List.take_left' rfl]
  have htag : LittleEndian.read 8 ((key ++ (putFixed64 tag ++ putLengthPrefixedSlice value)).drop
      (key.length + 8 - 8)) = some (packSequenceAndType s type, putLengthPrefixedSlice value) := by
    rw [Nat.add_sub_cancel, List.drop_left' rfl, putFixed64, LittleEndian.read_encode_append,
      Nat.mod_eq_of_lt (show tag.toNat < 256 ^ 8 from tag.toNat_lt), toNat_packedTag hs]
  have hval : getLengthPrefixedSlice ((key ++ (putFixed64 tag ++ putLengthPrefixedSlice value)).drop
      (key.length + 8)) = some (value, []) := by
    have hdrop : (key ++ (putFixed64 tag ++ putLengthPrefixedSlice value)).drop (key.length + 8) =
        putLengthPrefixedSlice value ++ [] := by
      rw [← List.append_assoc, List.drop_left' (length_append_putFixed64 key tag), List.append_nil]
    rw [hdrop, getLengthPrefixedSlice_putLengthPrefixedSlice hv]
  simp only [checkEntry, hptr, hlen, hsub, hslice]
  by_cases hkey : key = userKey
  · simp only [if_pos hkey, htag, packSequenceAndType_mod]
    cases type
    · rfl
    · simp only [ValueType.toByte, hval, Option.map_some, GetResult.ofType]
  · rw [if_neg hkey, if_neg hkey]

theorem memtableKey_make (userKey : Bytes) (s : Nat) :
    (LookupKey.make userKey s).memtableKey =
      putLengthPrefixedSlice (userKey ++ putFixed64 (packedTag s kValueTypeForSeek)) ++ [] := by
  simp only [LookupKey.make, LookupKey.memtableKey, putLengthPrefixedSlice,
    length_append_putFixed64, List.append_assoc, List.append_nil]

theorem entryKey_memtableKey {userKey : Bytes} (hk : userKey.length + 8 < 2 ^ 32)
    (hs : s ≤ kMaxSequenceNumber) :
    entryKey (LookupKey.make userKey s).memtableKey =
      InternalKey.mk' userKey s kValueTypeForSeek := by
  rw [entryKey, memtableKey_make, getLengthPrefixedSlice_putLengthPrefixedSlice
    (by rwa [length_append_putFixed64]), Option.elim_some, decodeInternalKey_append_putFixed64,
    toNat_packedTag hs]
  rfl

@[simp] theorem userKey_make (userKey : Bytes) (s : Nat) :
    (LookupKey.make userKey s).userKey = userKey := by
  simp [LookupKey.make, LookupKey.userKey]

end Buffers

/-! ### The skip list -/

/-- The comparator does not put `a` before `b` exactly when `a`'s key is at or after `b`'s. -/
theorem keyComparator_ne_lt (a b : Bytes) :
    (keyComparator a b != .lt) = decide (entryKey b ≤ entryKey a) := by
  rw [keyComparator, internalKeyCompare_eq_compare]
  by_cases h : entryKey a < entryKey b
  · simp [compare_lt_iff_lt.2 h, not_le.2 h]
  · have hne : compare (entryKey a) (entryKey b) ≠ .lt := fun hc => h (compare_lt_iff_lt.1 hc)
    simp [hne, not_lt.1 h]

/-- `Seek` is the search of the list for the first entry at or after the target. -/
theorem Table.seek_eq (t : Table) (target : Bytes) :
    t.seek target = Index.seek entryKey t.entries (entryKey target) := by
  simp only [Table.seek, Index.seek, keyComparator_ne_lt]

theorem Table.insert_perm (t : Table) {entry : Bytes}
    (h : ∀ e ∈ t.entries, entryKey e ≠ entryKey entry) :
    (t.insert entry).entries.Perm (entry :: t.entries) :=
  SortedList.insert_perm h

@[simp] theorem entries_empty : MemTable.empty.table.entries = [] := rfl

/-! ### A run of adds -/

section Run

variable {adds : List AddCall}

theorem entryKey_entry {a : AddCall} (ha : a.Valid) :
    entryKey a.entry = InternalKey.mk' a.key a.seq a.type :=
  entryKey_encodeEntry ha.seq_le ha.key_lt a.value

/-- The run lemma: while no two keys agree, each add puts its entry in the list and keeps the
others. -/
theorem entries_foldl_perm (adds : List AddCall) (m : MemTable)
    (h : ((m.table.entries ++ adds.map AddCall.entry).map entryKey).Nodup) :
    (adds.foldl MemTable.addCall m).table.entries.Perm
      (m.table.entries ++ adds.map AddCall.entry) := by
  induction adds generalizing m with
  | nil => simp
  | cons a adds ih =>
    rw [List.map_cons, List.map_append, List.map_cons] at h
    -- the new entry's key is none of the table's, so the insert adds it
    have hnew : ∀ e ∈ m.table.entries, entryKey e ≠ entryKey a.entry := fun e he =>
      (List.nodup_append.1 h).2.2 _ (List.mem_map_of_mem he) _ List.mem_cons_self
    have hperm : ((m.addCall a).table.entries ++ adds.map AddCall.entry).Perm
        (m.table.entries ++ (a :: adds).map AddCall.entry) := by
      rw [List.map_cons]
      exact ((Table.insert_perm m.table hnew).append_right _).trans List.perm_middle.symm
    have hnodup : (((m.addCall a).table.entries ++ adds.map AddCall.entry).map entryKey).Nodup := by
      rw [(hperm.map entryKey).nodup_iff, List.map_append, List.map_cons]
      exact h
    rw [List.foldl_cons]
    exact (ih (m.addCall a) hnodup).trans hperm

/-- Distinct sequence numbers make distinct keys, so the table holds every add's entry once. -/
theorem entries_ofAdds_perm (hvalid : ∀ a ∈ adds, a.Valid) (hseq : (adds.map AddCall.seq).Nodup) :
    (MemTable.ofAdds adds).table.entries.Perm (adds.map AddCall.entry) := by
  have hkeys : (adds.map AddCall.entry).map entryKey =
      adds.map fun a => InternalKey.mk' a.key a.seq a.type := by
    rw [List.map_map]
    exact List.map_congr_left fun a ha => entryKey_entry (hvalid a ha)
  have hnodup : ((adds.map AddCall.entry).map entryKey).Nodup := by
    rw [hkeys]
    -- the keys' sequence numbers are the adds' own
    refine List.Nodup.of_map InternalKey.sequence ?_
    simpa [List.map_map, Function.comp_def] using hseq
  rw [MemTable.ofAdds]
  simpa using entries_foldl_perm adds MemTable.empty (by simpa using hnodup)

theorem mem_entries_ofAdds (hvalid : ∀ a ∈ adds, a.Valid) (hseq : (adds.map AddCall.seq).Nodup)
    {e : Bytes} : e ∈ (MemTable.ofAdds adds).table.entries ↔ ∃ a ∈ adds, a.entry = e := by
  rw [(entries_ofAdds_perm hvalid hseq).mem_iff, List.mem_map]

section Get

variable (hvalid : ∀ a ∈ adds, a.Valid) (hseq : (adds.map AddCall.seq).Nodup) {k : Bytes}
  {r : Nat} (hk : k.length + 8 < 2 ^ 32) (hr : r ≤ kMaxSequenceNumber)
include hvalid hseq hk hr

/-- The seek lands on the newest visible add's entry: it is at or after the seek key, and so is
no entry before it. -/
theorem seek_ofAdds_of_newestVisible {a : AddCall} (ha : NewestVisible adds k r a) :
    (MemTable.ofAdds adds).table.seek (LookupKey.make k r).memtableKey = some a.entry := by
  have hva := hvalid a ha.mem
  rw [Table.seek_eq, entryKey_memtableKey hk hr]
  refine Index.seek_eq_some_of_least (MemTable.ofAdds adds).table.sorted
    ((mem_entries_ofAdds hvalid hseq).2 ⟨a, ha.mem, rfl⟩) ?_ ?_
  · rw [entryKey_entry hva, InternalKey.seekKey_le_mk'_iff]
    exact .inr ⟨ha.key.symm, ha.visible⟩
  · intro y hy hle
    obtain ⟨b, hb, rfl⟩ := (mem_entries_ofAdds hvalid hseq).1 hy
    rw [entryKey_entry (hvalid b hb)] at hle ⊢
    rw [entryKey_entry hva]
    rcases InternalKey.seekKey_le_mk'_iff.1 hle with hlt | ⟨hkb, hbr⟩
    · -- an entry of a later user key
      exact (InternalKey.lt_iff.2 (.inl (ha.key ▸ hlt))).le
    · -- an entry of `k` visible at `r`: `a` itself, or older
      have hab : a.key = b.key := ha.key.trans hkb
      rcases (ha.newest b hb hkb.symm hbr).lt_or_eq with hlt | heq
      · rw [hab]
        exact (InternalKey.mk'_lt_mk'_of_lt hlt).le
      · obtain rfl : b = a := List.inj_on_of_nodup_map hseq hb ha.mem heq
        exact le_rfl

theorem get_ofAdds_of_newestVisible {a : AddCall} (ha : NewestVisible adds k r a) :
    (MemTable.ofAdds adds).get (.make k r) = some (.ofType a.type a.value) := by
  have hva := hvalid a ha.mem
  rw [MemTable.get, seek_ofAdds_of_newestVisible hvalid hseq hk hr ha, userKey_make]
  simp only [AddCall.entry, checkEntry_encodeEntry hva.seq_le hva.key_lt hva.value_lt,
    if_pos ha.key]

/-- With no add of `k` visible at `r`, the seek lands past `k`'s entries, or nowhere. -/
theorem get_ofAdds_of_not_visible (hnone : ∀ a ∈ adds, a.key = k → r < a.seq) :
    (MemTable.ofAdds adds).get (.make k r) = some .absent := by
  rw [MemTable.get, userKey_make]
  cases hs : (MemTable.ofAdds adds).table.seek (LookupKey.make k r).memtableKey with
  | none => rfl
  | some y =>
    rw [Table.seek_eq] at hs
    obtain ⟨hy, hle⟩ := Index.mem_of_seek_eq_some hs
    obtain ⟨b, hb, rfl⟩ := (mem_entries_ofAdds hvalid hseq).1 hy
    have hvb := hvalid b hb
    rw [entryKey_memtableKey hk hr, entryKey_entry hvb, InternalKey.seekKey_le_mk'_iff] at hle
    have hne : b.key ≠ k := by
      intro hbk
      rcases hle with hlt | ⟨-, hbr⟩
      · exact lt_irrefl k (hbk ▸ hlt)
      · exact absurd (hnone b hb hbk) (not_lt.2 hbr)
    simp only [AddCall.entry, checkEntry_encodeEntry hvb.seq_le hvb.key_lt hvb.value_lt,
      if_neg hne]

end Get

/-- `MemTable::Get(LookupKey(k, r))` after adds with distinct sequence numbers: the newest add of
`k` at or below `r` decides it, and without one it reports `false`; and the iterator's
`key()` and `value()` read back, once each, the internal key and the value of every add. -/
theorem memTable_get_lookupKey (adds : List AddCall) (hvalid : ∀ a ∈ adds, a.Valid)
    (hseq : (adds.map AddCall.seq).Nodup) :
    (∀ k r, k.length + 8 < 2 ^ 32 → r ≤ kMaxSequenceNumber →
      (∀ a, NewestVisible adds k r a →
        (MemTable.ofAdds adds).get (.make k r) = some (.ofType a.type a.value)) ∧
      ((∀ a ∈ adds, a.key = k → r < a.seq) →
        (MemTable.ofAdds adds).get (.make k r) = some .absent)) ∧
    ((MemTable.ofAdds adds).table.entries.map fun e => (iterKey e, iterValue e)).Perm
      (adds.map fun a => (some (a.key ++ putFixed64 (packedTag a.seq a.type)), some a.value)) := by
  refine ⟨fun k r hk hr => ⟨fun a ha => get_ofAdds_of_newestVisible hvalid hseq hk hr ha,
    get_ofAdds_of_not_visible hvalid hseq hk hr⟩, ?_⟩
  have h := (entries_ofAdds_perm hvalid hseq).map fun e => (iterKey e, iterValue e)
  rw [List.map_map] at h
  refine h.trans (List.Perm.of_eq (List.map_congr_left fun a ha => ?_))
  have hva := hvalid a ha
  simp only [Function.comp_apply, AddCall.entry, iterKey_encodeEntry hva.key_lt,
    iterValue_encodeEntry hva.key_lt hva.value_lt]

theorem memTable_get_lookupKey_three_adds :
    let adds : List AddCall :=
      [⟨1, .kTypeValue, [1], [7]⟩, ⟨2, .kTypeDeletion, [1], []⟩, ⟨3, .kTypeValue, [2], [8]⟩]
    (∀ a ∈ adds, a.Valid) ∧ (adds.map AddCall.seq).Nodup ∧
    (∀ k r, k.length + 8 < 2 ^ 32 → r ≤ kMaxSequenceNumber →
      (∀ a, NewestVisible adds k r a →
        (MemTable.ofAdds adds).get (.make k r) = some (.ofType a.type a.value)) ∧
      ((∀ a ∈ adds, a.key = k → r < a.seq) →
        (MemTable.ofAdds adds).get (.make k r) = some .absent)) ∧
    ((MemTable.ofAdds adds).table.entries.map fun e => (iterKey e, iterValue e)).Perm
      (adds.map fun a => (some (a.key ++ putFixed64 (packedTag a.seq a.type)), some a.value)) :=
  ⟨by decide, by decide, memTable_get_lookupKey _ (by decide) (by decide)⟩

/-- A snapshot past `kMaxSequenceNumber`, which `PackSequenceAndType` asserts against: the shift
drops its high bits, the seek key's tag becomes that of sequence 0, and `Get` at `2 ^ 56` misses
the value written at sequence 1. -/
theorem memTable_get_misses_past_kMaxSequenceNumber :
    NewestVisible [⟨1, .kTypeValue, [0], [7]⟩] [0] (2 ^ 56) ⟨1, .kTypeValue, [0], [7]⟩ ∧
      (MemTable.ofAdds [⟨1, .kTypeValue, [0], [7]⟩]).get (.make [0] (2 ^ 56)) = some .absent :=
  ⟨⟨List.mem_singleton_self _, rfl, by decide, by simp⟩, by decide +kernel⟩

end Run

end Wire

end DLSM
