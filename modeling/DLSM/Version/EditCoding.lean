import DLSM.Version.TableCoding

/-! The wire form of a `VersionEdit`, `VersionEdit::EncodeTo` and `DecodeFrom` of
`db/version_edit.cc`, by which the memory node sends the compute node the edit of a compaction.

The code is a sequence of records, each a varint tag and the fields it sets: the comparator name
and the four numbers when they are present, each compaction pointer, each deleted file as
level, number and a raw node-id byte, and each new file as its level and its table's metadata.
`DecodeFrom` calls `Clear()` and then reads records until the input ends or a record fails, and
calls `exit(0)` once it has read more than `100000` records.

`Clear()` resets every field but `compact_pointers_`, so a decoded edit keeps the compaction
pointers its object held before (`decodeFrom_keeps_compactPointers`).  Apart from that, decoding
the code of an edit gives the edit back (`decodeFrom_encodeTo`), up to the fields the code does
not carry: a number whose presence flag is off, and the shared fields of a table's chunks. -/

namespace DLSM

namespace Wire

/-- `Tag`: the record kinds and their numbers on the wire. -/
inductive Tag
  | kComparator
  | kLogNumber
  | kNextFileNumber
  | kLastSequence
  | kCompactPointer
  | kDeletedFile
  | kNewFile
  | kPrevLogNumber
  deriving DecidableEq, Repr

def Tag.code : Tag → UInt32
  | .kComparator => 1
  | .kLogNumber => 2
  | .kNextFileNumber => 3
  | .kLastSequence => 4
  | .kCompactPointer => 5
  | .kDeletedFile => 6
  | .kNewFile => 7
  | .kPrevLogNumber => 9

/-- The `case` labels of the `switch` in `DecodeFrom`; any other number is `default`. -/
def Tag.ofCode? (tag : UInt32) : Option Tag :=
  match tag.toNat with
  | 1 => some .kComparator
  | 2 => some .kLogNumber
  | 3 => some .kNextFileNumber
  | 4 => some .kLastSequence
  | 5 => some .kCompactPointer
  | 6 => some .kDeletedFile
  | 7 => some .kNewFile
  | 9 => some .kPrevLogNumber
  | _ => none

@[simp] theorem Tag.ofCode?_code (t : Tag) : Tag.ofCode? t.code = some t := by
  cases t <;> rfl

/-- A deleted file's key in `DeletedFileSet`: the tuple order, level first. -/
def deletedKey (t : Nat × UInt64 × UInt8) : Nat ×ₗ (Nat ×ₗ Nat) :=
  toLex (t.1, toLex (t.2.1.toNat, t.2.2.toNat))

/-- `DeletedFileSet`, a `std::set` of `(level, number, node id)`. -/
structure DeletedFileSet where
  entries : List (Nat × UInt64 × UInt8)
  sorted : SortedList.Sorted deletedKey entries
  deriving DecidableEq

def DeletedFileSet.empty : DeletedFileSet := ⟨[], List.Pairwise.nil⟩

/-- `insert`, which keeps the set as it is when the file is in it. -/
def DeletedFileSet.insert (t : Nat × UInt64 × UInt8) (s : DeletedFileSet) : DeletedFileSet :=
  ⟨SortedList.insert deletedKey t s.entries, SortedList.insert_sorted t s.sorted⟩

theorem DeletedFileSet.ext {s s' : DeletedFileSet} (h : s.entries = s'.entries) : s = s' := by
  cases s; cases s'; cases h; rfl

/-- The fields of a `VersionEdit` that `EncodeTo` and `DecodeFrom` read and write. -/
structure VersionEdit where
  comparator : Bytes
  logNumber : UInt64
  prevLogNumber : UInt64
  nextFileNumber : UInt64
  lastSequence : UInt64
  hasComparator : Bool
  hasLogNumber : Bool
  hasPrevLogNumber : Bool
  hasNextFileNumber : Bool
  hasLastSequence : Bool
  compactPointers : List (Nat × Bytes)
  deletedFiles : DeletedFileSet
  newFiles : List (Nat × RemoteMemTableMetaData)
  deriving DecidableEq

namespace VersionEdit

/-- `Clear()`: every field but `compact_pointers_` back to its default. -/
def clear (e : VersionEdit) : VersionEdit :=
  { e with
    comparator := [], logNumber := 0, prevLogNumber := 0, lastSequence := 0, nextFileNumber := 0,
    hasComparator := false, hasLogNumber := false, hasPrevLogNumber := false,
    hasNextFileNumber := false, hasLastSequence := false,
    deletedFiles := .empty, newFiles := [] }

/-- A new `VersionEdit`, whose constructor calls `Clear()`. -/
def empty : VersionEdit :=
  ⟨[], 0, 0, 0, 0, false, false, false, false, false, [], .empty, []⟩

/-- `SetFileNumbers`: the new files numbered from `fileNumberEnd` on, in order. -/
def setFileNumbers (fileNumberEnd : UInt64) (e : VersionEdit) : VersionEdit :=
  { e with newFiles := e.newFiles.mapIdx fun i p => (p.1, { p.2 with number := fileNumberEnd + UInt64.ofNat i }) }

end VersionEdit

/-- The records of the present one of the comparator name and the four numbers. -/
def encodeOptional (present : Bool) (record : Bytes) : Bytes := if present then record else []

/-- The loop of `EncodeTo` over the compaction pointers. -/
def encodeCompactPointers : List (Nat × Bytes) → Bytes
  | [] => []
  | (level, key) :: cps =>
    putVarint32 Tag.kCompactPointer.code ++ putVarint32 level.toUInt32 ++ putLengthPrefixedSlice key ++
      encodeCompactPointers cps

/-- The loop of `EncodeTo` over the deleted files: the node id as its raw byte. -/
def encodeDeletedFiles : List (Nat × UInt64 × UInt8) → Bytes
  | [] => []
  | (level, number, nodeId) :: ds =>
    putVarint32 Tag.kDeletedFile.code ++ putVarint32 level.toUInt32 ++ putVarint64 number ++
      [byteOf nodeId] ++ encodeDeletedFiles ds

/-- The loop of `EncodeTo` over the new files. -/
def encodeNewFiles : List (Nat × RemoteMemTableMetaData) → Option Bytes
  | [] => some []
  | (level, f) :: fs => do
    let b ← f.encodeTo
    let bs ← encodeNewFiles fs
    pure (putVarint32 Tag.kNewFile.code ++ putVarint32 level.toUInt32 ++ b ++ bs)

/-- `VersionEdit::EncodeTo`. -/
def VersionEdit.encodeTo (e : VersionEdit) : Option Bytes := do
  let files ← encodeNewFiles e.newFiles
  pure (encodeOptional e.hasComparator
      (putVarint32 Tag.kComparator.code ++ putLengthPrefixedSlice e.comparator) ++
    encodeOptional e.hasLogNumber (putVarint32 Tag.kLogNumber.code ++ putVarint64 e.logNumber) ++
    encodeOptional e.hasPrevLogNumber
      (putVarint32 Tag.kPrevLogNumber.code ++ putVarint64 e.prevLogNumber) ++
    encodeOptional e.hasNextFileNumber
      (putVarint32 Tag.kNextFileNumber.code ++ putVarint64 e.nextFileNumber) ++
    encodeOptional e.hasLastSequence
      (putVarint32 Tag.kLastSequence.code ++ putVarint64 e.lastSequence) ++
    encodeCompactPointers e.compactPointers ++ encodeDeletedFiles e.deletedFiles.entries ++ files)

/-- `GetLevel`: a varint below `kNumLevels`. -/
def getLevel (input : Bytes) : Option (Nat × Bytes) :=
  match getVarint32 input with
  | some (v, input) => if v.toNat < kNumLevels then some (v.toNat, input) else none
  | none => none

/-- `GetInternalKey`: a length-prefixed slice, which `InternalKey::DecodeFrom` takes when it is
not empty. -/
def getInternalKey (input : Bytes) : Option (Bytes × Bytes) :=
  match getLengthPrefixedSlice input with
  | some (str, input) => if str.isEmpty then none else some (str, input)
  | none => none

/-- What one round of the loop of `DecodeFrom` does after its tag: it parses the record,
leaving the rest of the input and the edit with the record's fields set; or it fails with the
message `msg`, leaving the edit as it was; or it reads past the end of the input. -/
inductive RecordResult
  | parsed (rest : Bytes) (e : VersionEdit)
  | failed (msg : String)
  | undefined

/-- The `switch` of `DecodeFrom` on one record. -/
def decodeRecord (tag : UInt32) (input : Bytes) (e : VersionEdit) : RecordResult :=
  match Tag.ofCode? tag with
  | some .kComparator =>
    match getLengthPrefixedSlice input with
    | some (str, input) => .parsed input { e with comparator := str, hasComparator := true }
    | none => .failed "comparator name"
  | some .kLogNumber =>
    match getVarint64 input with
    | some (n, input) => .parsed input { e with logNumber := n, hasLogNumber := true }
    | none => .failed "log number"
  | some .kPrevLogNumber =>
    match getVarint64 input with
    | some (n, input) => .parsed input { e with prevLogNumber := n, hasPrevLogNumber := true }
    | none => .failed "previous log number"
  | some .kNextFileNumber =>
    match getVarint64 input with
    | some (n, input) => .parsed input { e with nextFileNumber := n, hasNextFileNumber := true }
    | none => .failed "next file number"
  | some .kLastSequence =>
    match getVarint64 input with
    | some (n, input) => .parsed input { e with lastSequence := n, hasLastSequence := true }
    | none => .failed "last sequence number"
  | some .kCompactPointer =>
    match getLevel input with
    | some (level, input) =>
      match getInternalKey input with
      | some (key, input) => .parsed input { e with compactPointers := e.compactPointers ++ [(level, key)] }
      | none => .failed "compaction pointer"
    | none => .failed "compaction pointer"
  | some .kDeletedFile =>
    match getLevel input with
    | some (level, input) =>
      match getVarint64 input with
      | some (number, input) =>
        -- the node id is copied from the input without a check that a byte is left
        match getByte input with
        | some (nodeId, input) =>
          .parsed input { e with deletedFiles := e.deletedFiles.insert (level, number, nodeId) }
        | none => .undefined
      | none => .failed "deleted file"
    | none => .failed "deleted file"
  | some .kNewFile =>
    match getLevel input with
    | some (level, input) =>
      match RemoteMemTableMetaData.decodeFrom input with
      | some (f, input) => .parsed input { e with newFiles := e.newFiles ++ [(level, f)] }
      | none => .undefined
    | none => .failed "new-file entry"
  | none => .failed "unknown tag"

/-- The `Status` that `DecodeFrom` returns. -/
inductive Status
  | ok
  | corruption (context msg : String)
  deriving DecidableEq, Repr

/-- How `DecodeFrom` ends: it returns a status with the edit as decoded so far, or calls
`exit(0)`, or reads past the end of its input. -/
inductive DecodeOutcome
  | returned (status : Status) (e : VersionEdit)
  | exited
  | undefined
  deriving DecidableEq

/-- The loop of `DecodeFrom`, with `left` more records before the counter passes `100000`.
A round that reads a tag handles its record, counts it and calls `exit(0)` when the count passes
the bound, whether or not the record failed. -/
def decodeRecords (left : Nat) (input : Bytes) (e : VersionEdit) : DecodeOutcome :=
  match getVarint32 input with
  | none =>
    if input.isEmpty then .returned .ok e else .returned (.corruption "VersionEdit" "invalid tag") e
  | some (tag, rest) =>
    match decodeRecord tag rest e with
    | .undefined => .undefined
    | .failed msg =>
      match left with
      | 0 => .exited
      | _ + 1 => .returned (.corruption "VersionEdit" msg) e
    | .parsed rest e' =>
      match left with
      | 0 => .exited
      | left + 1 => decodeRecords left rest e'

/-- `VersionEdit::DecodeFrom` on the edit object `d`. -/
def VersionEdit.decodeFrom (d : VersionEdit) (src : Bytes) : DecodeOutcome :=
  decodeRecords 100000 src d.clear

/-! ### Decoding record by record -/

theorem getLevel_putVarint32 {level : Nat} (h : level < kNumLevels) (rest : Bytes) :
    getLevel (putVarint32 level.toUInt32 ++ rest) = some (level, rest) := by
  have hlt : level < 2 ^ 32 := lt_of_lt_of_le h (by decide)
  have hv : level.toUInt32.toNat = level := by
    show (UInt32.ofNat level).toNat = level
    rw [UInt32.toNat_ofNat', Nat.mod_eq_of_lt hlt]
  simp [getLevel, hv, h]

theorem getInternalKey_putLengthPrefixedSlice {key : Bytes} (hne : key ≠ [])
    (hlt : key.length < 2 ^ 32) (rest : Bytes) :
    getInternalKey (putLengthPrefixedSlice key ++ rest) = some (key, rest) := by
  simp [getInternalKey, getLengthPrefixedSlice_putLengthPrefixedSlice hlt, List.isEmpty_iff, hne]

/-- A round of the loop that parses its record goes on with the next, one count lower. -/
theorem decodeRecords_parsed {left : Nat} {t : Tag} {input rest : Bytes} {e e' : VersionEdit}
    (h : decodeRecord t.code input e = .parsed rest e') :
    decodeRecords (left + 1) (putVarint32 t.code ++ input) e = decodeRecords left rest e' := by
  rw [decodeRecords, getVarint32_putVarint32]
  simp only [h]

/-- At the end of the input the loop returns `OK`. -/
theorem decodeRecords_nil (left : Nat) (e : VersionEdit) :
    decodeRecords left [] e = .returned .ok e := by
  rw [decodeRecords]
  rfl

theorem decodeRecord_comparator {name : Bytes} (h : name.length < 2 ^ 32) (rest : Bytes)
    (e : VersionEdit) :
    decodeRecord Tag.kComparator.code (putLengthPrefixedSlice name ++ rest) e =
      .parsed rest { e with comparator := name, hasComparator := true } := by
  simp [decodeRecord, getLengthPrefixedSlice_putLengthPrefixedSlice h]

theorem decodeRecord_logNumber (n : UInt64) (rest : Bytes) (e : VersionEdit) :
    decodeRecord Tag.kLogNumber.code (putVarint64 n ++ rest) e =
      .parsed rest { e with logNumber := n, hasLogNumber := true } := by
  simp [decodeRecord]

theorem decodeRecord_prevLogNumber (n : UInt64) (rest : Bytes) (e : VersionEdit) :
    decodeRecord Tag.kPrevLogNumber.code (putVarint64 n ++ rest) e =
      .parsed rest { e with prevLogNumber := n, hasPrevLogNumber := true } := by
  simp [decodeRecord]

theorem decodeRecord_nextFileNumber (n : UInt64) (rest : Bytes) (e : VersionEdit) :
    decodeRecord Tag.kNextFileNumber.code (putVarint64 n ++ rest) e =
      .parsed rest { e with nextFileNumber := n, hasNextFileNumber := true } := by
  simp [decodeRecord]

theorem decodeRecord_lastSequence (n : UInt64) (rest : Bytes) (e : VersionEdit) :
    decodeRecord Tag.kLastSequence.code (putVarint64 n ++ rest) e =
      .parsed rest { e with lastSequence := n, hasLastSequence := true } := by
  simp [decodeRecord]

theorem decodeRecord_compactPointer {level : Nat} {key : Bytes} (hl : level < kNumLevels)
    (hne : key ≠ []) (hlt : key.length < 2 ^ 32) (rest : Bytes) (e : VersionEdit) :
    decodeRecord Tag.kCompactPointer.code
        (putVarint32 level.toUInt32 ++ (putLengthPrefixedSlice key ++ rest)) e =
      .parsed rest { e with compactPointers := e.compactPointers ++ [(level, key)] } := by
  simp [decodeRecord, getLevel_putVarint32 hl, getInternalKey_putLengthPrefixedSlice hne hlt]

theorem decodeRecord_deletedFile {level : Nat} (hl : level < kNumLevels) (number : UInt64)
    (nodeId : UInt8) (rest : Bytes) (e : VersionEdit) :
    decodeRecord Tag.kDeletedFile.code
        (putVarint32 level.toUInt32 ++ (putVarint64 number ++ (byteOf nodeId :: rest))) e =
      .parsed rest { e with deletedFiles := e.deletedFiles.insert (level, number, nodeId) } := by
  simp [decodeRecord, getLevel_putVarint32 hl, getByte]

theorem decodeRecord_newFile {level : Nat} (hl : level < kNumLevels) {f : RemoteMemTableMetaData}
    {b : Bytes} (hb : f.encodeTo = some b) (hf : f.Encodable) (rest : Bytes) (e : VersionEdit) :
    decodeRecord Tag.kNewFile.code (putVarint32 level.toUInt32 ++ (b ++ rest)) e =
      .parsed rest { e with newFiles := e.newFiles ++ [(level, f.shareFirst)] } := by
  simp [decodeRecord, getLevel_putVarint32 hl, RemoteMemTableMetaData.decodeFrom_encodeTo hb hf]

/-! ### Decoding the code of an edit -/

theorem decodeRecords_encodeOptional {b : Bool} {t : Tag} {input rest : Bytes} {e e' : VersionEdit}
    (h : decodeRecord t.code (input ++ rest) e = .parsed rest e') (left : Nat) :
    decodeRecords (left + b.toNat) (encodeOptional b (putVarint32 t.code ++ input) ++ rest) e =
      decodeRecords left rest (if b then e' else e) := by
  cases b with
  | false => rfl
  | true =>
    rw [encodeOptional, if_pos rfl, if_pos rfl, Bool.toNat_true, List.append_assoc]
    exact decodeRecords_parsed h

theorem decodeRecords_encodeCompactPointers (rest : Bytes) :
    ∀ (cps : List (Nat × Bytes)) (left : Nat) (e : VersionEdit),
      (∀ p ∈ cps, p.1 < kNumLevels ∧ p.2 ≠ [] ∧ p.2.length < 2 ^ 32) →
      decodeRecords (left + cps.length) (encodeCompactPointers cps ++ rest) e =
        decodeRecords left rest { e with compactPointers := e.compactPointers ++ cps }
  | [], left, e, _ => by simp [encodeCompactPointers]
  | (level, key) :: cps, left, e, h => by
    obtain ⟨hl, hne, hlt⟩ := h (level, key) List.mem_cons_self
    rw [List.length_cons, ← Nat.add_assoc, encodeCompactPointers]
    simp only [List.append_assoc]
    rw [decodeRecords_parsed (decodeRecord_compactPointer hl hne hlt _ e),
      decodeRecords_encodeCompactPointers rest cps left _
        fun p hp => h p (List.mem_cons_of_mem _ hp)]
    simp

theorem decodeRecords_encodeDeletedFiles (rest : Bytes) :
    ∀ (ds : List (Nat × UInt64 × UInt8)) (left : Nat) (e : VersionEdit)
      (hs : SortedList.Sorted deletedKey (e.deletedFiles.entries ++ ds)),
      (∀ t ∈ ds, t.1 < kNumLevels) →
      decodeRecords (left + ds.length) (encodeDeletedFiles ds ++ rest) e =
        decodeRecords left rest { e with deletedFiles := ⟨e.deletedFiles.entries ++ ds, hs⟩ }
  | [], left, e, hs, _ => by simp [encodeDeletedFiles]
  | (level, number, nodeId) :: ds, left, e, hs, h => by
    -- the next file goes after those inserted so far
    have hins : (e.deletedFiles.insert (level, number, nodeId)).entries =
        e.deletedFiles.entries ++ [(level, number, nodeId)] :=
      SortedList.insert_append_cons hs
    have hs' : SortedList.Sorted deletedKey
        ((e.deletedFiles.insert (level, number, nodeId)).entries ++ ds) := by
      rw [hins, List.append_assoc]
      exact hs
    rw [List.length_cons, ← Nat.add_assoc, encodeDeletedFiles]
    simp only [List.append_assoc, List.cons_append, List.nil_append]
    rw [decodeRecords_parsed (decodeRecord_deletedFile (h _ List.mem_cons_self) number nodeId _ e),
      decodeRecords_encodeDeletedFiles rest ds left _ hs' fun t ht => h t (List.mem_cons_of_mem _ ht)]
    congr 2
    exact DeletedFileSet.ext (by simp [hins])

theorem encodeNewFiles_cons {level : Nat} {f : RemoteMemTableMetaData}
    {fs : List (Nat × RemoteMemTableMetaData)} {bytes : Bytes}
    (h : encodeNewFiles ((level, f) :: fs) = some bytes) :
    ∃ b bs, f.encodeTo = some b ∧ encodeNewFiles fs = some bs ∧
      bytes = putVarint32 Tag.kNewFile.code ++ putVarint32 level.toUInt32 ++ b ++ bs := by
  simp only [encodeNewFiles, Option.bind_eq_bind, Option.bind_eq_some_iff, Option.pure_def,
    Option.some.injEq] at h
  obtain ⟨b, hb, bs, hbs, rfl⟩ := h
  exact ⟨b, bs, hb, hbs, rfl⟩

theorem encodeNewFiles_isSome {fs : List (Nat × RemoteMemTableMetaData)}
    (h : ∀ p ∈ fs, p.2.remoteDataMrs.entries ≠ []) : ∃ bytes, encodeNewFiles fs = some bytes := by
  induction fs with
  | nil => exact ⟨[], rfl⟩
  | cons p fs ih =>
    obtain ⟨b, hb⟩ := RemoteMemTableMetaData.encodeTo_isSome (h p List.mem_cons_self)
    obtain ⟨bs, hbs⟩ := ih fun q hq => h q (List.mem_cons_of_mem p hq)
    exact ⟨putVarint32 Tag.kNewFile.code ++ putVarint32 p.1.toUInt32 ++ b ++ bs,
      by simp [encodeNewFiles, hb, hbs]⟩

theorem decodeRecords_encodeNewFiles (rest : Bytes) :
    ∀ (fs : List (Nat × RemoteMemTableMetaData)) (bytes : Bytes) (left : Nat) (e : VersionEdit),
      encodeNewFiles fs = some bytes → (∀ p ∈ fs, p.1 < kNumLevels ∧ p.2.Encodable) →
      decodeRecords (left + fs.length) (bytes ++ rest) e =
        decodeRecords left rest
          { e with newFiles := e.newFiles ++ fs.map fun p => (p.1, p.2.shareFirst) }
  | [], bytes, left, e, hb, _ => by
    cases hb
    simp
  | (level, f) :: fs, bytes, left, e, hb, h => by
    obtain ⟨b, bs, hf, hbs, rfl⟩ := encodeNewFiles_cons hb
    obtain ⟨hl, hfe⟩ := h (level, f) List.mem_cons_self
    rw [List.length_cons, ← Nat.add_assoc]
    simp only [List.append_assoc]
    rw [decodeRecords_parsed (decodeRecord_newFile hl hf hfe _ e),
      decodeRecords_encodeNewFiles rest fs bs left _ hbs fun p hp => h p (List.mem_cons_of_mem _ hp)]
    simp

/-- The loop over the deleted files of a set, into an edit with none yet. -/
theorem decodeRecords_encodeDeletedFiles_of_empty (rest : Bytes) (s : DeletedFileSet) (left : Nat)
    {e : VersionEdit} (hempty : e.deletedFiles = .empty) (h : ∀ t ∈ s.entries, t.1 < kNumLevels) :
    decodeRecords (left + s.entries.length) (encodeDeletedFiles s.entries ++ rest) e =
      decodeRecords left rest { e with deletedFiles := s } := by
  have hs : SortedList.Sorted deletedKey (e.deletedFiles.entries ++ s.entries) := by
    rw [hempty]
    exact s.sorted
  rw [decodeRecords_encodeDeletedFiles rest s.entries left e hs h]
  congr 2
  exact DeletedFileSet.ext (by simp [hempty, DeletedFileSet.empty])

namespace VersionEdit

/-- What the code of an edit carries: the name and the numbers whose flags are on, the others at
their defaults, and each new table with its chunks' shared fields those of its first data
chunk. -/
def carried (e : VersionEdit) : VersionEdit :=
  { e with
    comparator := if e.hasComparator then e.comparator else []
    logNumber := if e.hasLogNumber then e.logNumber else 0
    prevLogNumber := if e.hasPrevLogNumber then e.prevLogNumber else 0
    nextFileNumber := if e.hasNextFileNumber then e.nextFileNumber else 0
    lastSequence := if e.hasLastSequence then e.lastSequence else 0
    newFiles := e.newFiles.map fun p => (p.1, p.2.shareFirst) }

/-- The number of records in the code of an edit. -/
def records (e : VersionEdit) : Nat :=
  e.hasComparator.toNat + e.hasLogNumber.toNat + e.hasPrevLogNumber.toNat +
    e.hasNextFileNumber.toNat + e.hasLastSequence.toNat + e.compactPointers.length +
    e.deletedFiles.entries.length + e.newFiles.length

/-- What the decoder needs of an edit: a comparator name and compaction-pointer keys whose
lengths fit 32 bits, keys that are not empty, levels below `kNumLevels`, new tables with a first
data chunk that decode, and no more records than the loop reads before it exits. -/
structure Encodable (e : VersionEdit) : Prop where
  comparator_lt : e.comparator.length < 2 ^ 32
  compactPointers : ∀ p ∈ e.compactPointers, p.1 < kNumLevels ∧ p.2 ≠ [] ∧ p.2.length < 2 ^ 32
  deletedFiles : ∀ t ∈ e.deletedFiles.entries, t.1 < kNumLevels
  newFiles : ∀ p ∈ e.newFiles, p.1 < kNumLevels ∧ p.2.remoteDataMrs.entries ≠ [] ∧ p.2.Encodable
  records_le : e.records ≤ 100000

end VersionEdit

/-- The round trip of an edit: decoding its code into any edit object `d` returns `OK` with the
edit the code carries, and with `d`'s compaction pointers before its own. -/
theorem versionEdit_decodeFrom_encodeTo (e : VersionEdit) (he : e.Encodable) (d : VersionEdit) :
    ∃ bytes, e.encodeTo = some bytes ∧
      d.decodeFrom bytes =
        .returned .ok { e.carried with compactPointers := d.compactPointers ++ e.compactPointers } := by
  obtain ⟨files, hfiles⟩ := encodeNewFiles_isSome fun p hp => (he.newFiles p hp).2.1
  rw [VersionEdit.encodeTo, hfiles]
  refine ⟨_, rfl, ?_⟩
  have hcount : 100000 = 100000 - e.records + e.newFiles.length + e.deletedFiles.entries.length +
      e.compactPointers.length + e.hasLastSequence.toNat + e.hasNextFileNumber.toNat +
      e.hasPrevLogNumber.toNat + e.hasLogNumber.toNat + e.hasComparator.toNat := by
    have := he.records_le
    simp only [VersionEdit.records] at this ⊢
    omega
  rw [VersionEdit.decodeFrom, hcount, ← List.append_nil files]
  simp only [List.append_assoc]
  -- one record after another, in the order `EncodeTo` writes them
  rw [decodeRecords_encodeOptional (decodeRecord_comparator he.comparator_lt _ _),
    decodeRecords_encodeOptional (decodeRecord_logNumber _ _ _),
    decodeRecords_encodeOptional (decodeRecord_prevLogNumber _ _ _),
    decodeRecords_encodeOptional (decodeRecord_nextFileNumber _ _ _),
    decodeRecords_encodeOptional (decodeRecord_lastSequence _ _ _),
    decodeRecords_encodeCompactPointers _ _ _ _ he.compactPointers,
    decodeRecords_encodeDeletedFiles_of_empty _ _ _ ?empty he.deletedFiles,
    decodeRecords_encodeNewFiles _ _ _ _ _ hfiles fun p hp => ⟨(he.newFiles p hp).1, (he.newFiles p hp).2.2⟩,
    decodeRecords_nil]
  case empty => split_ifs <;> rfl
  -- the fields the records set, one case for each choice of the present numbers
  congr 1
  obtain ⟨_, _, _, _, _, hc, hl, hpl, hnf, hls, _, _, _⟩ := e
  cases hc <;> cases hl <;> cases hpl <;> cases hnf <;> cases hls <;> rfl

theorem versionEdit_decodeFrom_encodeTo_one_file :
    let e : VersionEdit :=
      { VersionEdit.empty with
        logNumber := 3, hasLogNumber := true,
        compactPointers := [(1, [9, 9, 9, 9, 9, 9, 9, 9])],
        deletedFiles := ⟨[(1, 5, 1)], by decide⟩,
        newFiles := [(2, oneChunkTable)] }
    e.Encodable ∧ ∃ bytes, e.encodeTo = some bytes ∧
      VersionEdit.empty.decodeFrom bytes = .returned .ok
        { e.carried with compactPointers := VersionEdit.empty.compactPointers ++ e.compactPointers } :=
  have he : VersionEdit.Encodable
      { VersionEdit.empty with
        logNumber := 3, hasLogNumber := true,
        compactPointers := [(1, [9, 9, 9, 9, 9, 9, 9, 9])],
        deletedFiles := ⟨[(1, 5, 1)], by decide⟩,
        newFiles := [(2, oneChunkTable)] } :=
    ⟨by decide, by decide, by decide, fun p hp => by
      rw [List.mem_singleton] at hp
      subst hp
      exact ⟨by decide, by decide, oneChunkTable_encodable⟩, by decide⟩
  ⟨he, versionEdit_decodeFrom_encodeTo _ he _⟩

/-- `SetFileNumbers(x)` numbers the new files `x, x + 1, …` in their order, whatever they are:
two edits with as many new files get the same numbers. -/
theorem numbers_setFileNumbers (x : UInt64) (e : VersionEdit) :
    (e.setFileNumbers x).newFiles.map (·.2.number) =
      (List.range e.newFiles.length).map fun i => x + UInt64.ofNat i := by
  apply List.ext_getElem
  · simp [VersionEdit.setFileNumbers]
  · intro i h1 h2
    simp [VersionEdit.setFileNumbers]

end Wire

end DLSM
