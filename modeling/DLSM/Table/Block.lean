import DLSM.Format.Coding
import DLSM.Table.Builder

/-! `BlockBuilder`, which encodes the data blocks of a table.  An entry is written as the number
of key bytes it shares with the previous key, the number of the others and the value's length
(three varints), then the unshared key bytes and the value; every `block_restart_interval`
entries a restart point shares nothing, and its offset goes to the restart array that `Finish`
appends with its length.  `CurrentSizeEstimate` is the size `Finish` will give.

Both table builders finish the data block before an entry when its estimate with the entry's
key, value and a slack reaches `block_size`, and then add the entry to the empty block whatever
its size.  The compute side's slack covers the most an entry can add, so there every data block
fits `block_size` exactly when every entry fits in a block of its own; the memory side's slack
omits the three `uint32_t` and is enough only while the varints of the lengths are short.  The
local buffer `ReadDataBlock` reads a block into is a `DataChunk` chunk of the default
`block_size`. -/

namespace DLSM

/-- The loop of `BlockBuilder::Add` that counts the bytes `key` shares with `last_key_`. -/
def sharedPrefixLength : Bytes → Bytes → Nat
  | a :: as, b :: bs => if a = b then sharedPrefixLength as bs + 1 else 0
  | _, _ => 0

theorem sharedPrefixLength_le_right : ∀ a b : Bytes, sharedPrefixLength a b ≤ b.length
  | _ :: as, _ :: bs => by
    simp only [sharedPrefixLength, List.length_cons]
    have := sharedPrefixLength_le_right as bs
    split_ifs <;> omega
  | [], _ => by simp [sharedPrefixLength]
  | _ :: _, [] => by simp [sharedPrefixLength]

/-- The fields of `BlockBuilder` that the block written depends on. -/
structure BlockBuilder where
  buffer : Bytes
  restarts : List Nat
  counter : Nat
  lastKey : Bytes
  deriving DecidableEq, Repr

namespace BlockBuilder

/-- The builder as constructed, and as `Reset_Forward` leaves it: one restart point, at 0. -/
def empty : BlockBuilder := ⟨[], [0], 0, []⟩

/-- `CurrentSizeEstimate`: the buffer, the restart array and its length. -/
def currentSizeEstimate (b : BlockBuilder) : Nat :=
  b.buffer.length + b.restarts.length * 4 + 4

/-- `Finish`: the restart array and its length after the entries. -/
def finish (b : BlockBuilder) : Bytes :=
  b.buffer ++ (b.restarts.map fun r => putFixed32 (UInt32.ofNat r)).flatten ++
    putFixed32 (UInt32.ofNat b.restarts.length)

/-- The end of `Add`, once `shared` is known: the three lengths, the unshared key bytes and the
value to the buffer, and the key to `last_key_`. -/
def appendEntry (b : BlockBuilder) (shared : Nat) (key value : Bytes) : BlockBuilder :=
  ⟨b.buffer ++ putVarint32 (UInt32.ofNat shared) ++ putVarint32 (UInt32.ofNat (key.length - shared)) ++
      putVarint32 (UInt32.ofNat value.length) ++ key.drop shared ++ value,
    b.restarts, b.counter + 1, b.lastKey.take shared ++ key.drop shared⟩

/-- `Add`: below the restart interval the key shares its prefix with the last key; otherwise a
restart point at the end of the buffer, where it shares nothing. -/
def add (blockRestartInterval : Nat) (b : BlockBuilder) (key value : Bytes) : BlockBuilder :=
  if b.counter < blockRestartInterval then
    b.appendEntry (sharedPrefixLength b.lastKey key) key value
  else { b with restarts := b.restarts ++ [b.buffer.length], counter := 0 }.appendEntry 0 key value

theorem length_finish (b : BlockBuilder) : b.finish.length = b.currentSizeEstimate := by
  simp [finish, currentSizeEstimate, List.length_flatten, Function.comp_def]
  omega

theorem currentSizeEstimate_appendEntry (b : BlockBuilder) (shared : Nat) (key value : Bytes) :
    (b.appendEntry shared key value).currentSizeEstimate =
      b.currentSizeEstimate + (putVarint32 (UInt32.ofNat shared)).length +
        (putVarint32 (UInt32.ofNat (key.length - shared))).length +
        (putVarint32 (UInt32.ofNat value.length)).length + (key.length - shared) + value.length := by
  simp only [appendEntry, currentSizeEstimate, List.length_append, List.length_drop]
  omega

/-- An entry adds at most its key and value, fifteen bytes of lengths and a restart point. -/
theorem currentSizeEstimate_add_le (ri : Nat) (b : BlockBuilder) (key value : Bytes) :
    (b.add ri key value).currentSizeEstimate ≤
      b.currentSizeEstimate + key.length + value.length + 19 := by
  have h1 := length_putVarint32_le
  unfold add
  split_ifs
  · rw [currentSizeEstimate_appendEntry]
    have := h1 (UInt32.ofNat (sharedPrefixLength b.lastKey key))
    have := h1 (UInt32.ofNat (key.length - sharedPrefixLength b.lastKey key))
    have := h1 (UInt32.ofNat value.length)
    omega
  · rw [currentSizeEstimate_appendEntry]
    have := h1 (UInt32.ofNat (key.length - 0))
    have := h1 (UInt32.ofNat value.length)
    simp only [currentSizeEstimate, List.length_append, List.length_singleton] at *
    have : (putVarint32 (UInt32.ofNat 0)).length = 1 := length_putVarint32_of_lt (by decide)
    omega

/-- With a key and a value shorter than `2 ^ 14`, each length takes at most two bytes, and the
entry adds at most nine bytes beside them. -/
theorem currentSizeEstimate_add_le_of_lt (ri : Nat) (b : BlockBuilder) {key value : Bytes}
    (hk : key.length < 2 ^ 14) (hv : value.length < 2 ^ 14) :
    (b.add ri key value).currentSizeEstimate ≤
      b.currentSizeEstimate + key.length + value.length + 9 := by
  have h2 : ∀ n < 2 ^ 14, (putVarint32 (UInt32.ofNat n)).length ≤ 2 := fun n hn =>
    length_putVarint32_le_two (by rw [UInt32.toNat_ofNat', Nat.mod_eq_of_lt (by omega)]; exact hn)
  have hs := sharedPrefixLength_le_right b.lastKey key
  unfold add
  split_ifs
  · rw [currentSizeEstimate_appendEntry]
    have := h2 (sharedPrefixLength b.lastKey key) (by omega)
    have := h2 (key.length - sharedPrefixLength b.lastKey key) (by omega)
    have := h2 value.length hv
    omega
  · rw [currentSizeEstimate_appendEntry]
    have := h2 (key.length - 0) (by omega)
    have := h2 value.length hv
    simp only [currentSizeEstimate, List.length_append, List.length_singleton] at *
    have : (putVarint32 (UInt32.ofNat 0)).length = 1 := length_putVarint32_of_lt (by decide)
    omega

end BlockBuilder

/-- The bytes of an internal key as the table builders pass it to a block: the user key, then
the tag in eight bytes. -/
def InternalKey.encode (k : InternalKey Bytes) : Bytes := k.userKey ++ putFixed64 (UInt64.ofNat k.tag)

@[simp] theorem InternalKey.length_encode (k : InternalKey Bytes) :
    k.encode.length = k.userKey.length + 8 := by
  simp [InternalKey.encode]

/-- The data block that holds the entries `es`: `Add` of each encoded key and value, from the
state `Reset_Forward` leaves. -/
def dataBlockBuilder (blockRestartInterval : Nat) (es : List (Entry Bytes Bytes)) : BlockBuilder :=
  es.foldl (fun b e => b.add blockRestartInterval e.key.encode e.value) BlockBuilder.empty

/-- The contents `FinishDataBlock` writes for the data block of `es`; `handle.size()` is their
length, and the block trailer follows them. -/
def dataBlockContents (blockRestartInterval : Nat) (es : List (Entry Bytes Bytes)) : Bytes :=
  (dataBlockBuilder blockRestartInterval es).finish

/-- The options of a table of byte values whose data blocks `BlockBuilder` encodes. -/
def TableOptions.ofBlockBuilder (blockSize blockRestartInterval : Nat)
    (filterPolicy : Option FilterPolicy) : TableOptions Bytes :=
  ⟨blockSize, fun es => (dataBlockBuilder blockRestartInterval es).currentSizeEstimate, List.length,
    filterPolicy⟩

/-- `Options::block_size` by default, the chunk size `Options::Options` registers for the
`DataChunk` pool: the size of the local buffer that `ReadDataBlock` reads a block into. -/
def dataChunkSize : Nat := 8 * 1024

/-- A data block with its trailer fits `size` bytes. -/
def DataBlockFits (blockRestartInterval size : Nat) (es : List (Entry Bytes Bytes)) : Prop :=
  (dataBlockContents blockRestartInterval es).length + kBlockTrailerSize ≤ size

instance (ri size : Nat) (es : List (Entry Bytes Bytes)) : Decidable (DataBlockFits ri size es) :=
  inferInstanceAs (Decidable (_ ≤ _))

section Fit

variable {ri B : Nat}

theorem dataBlockBuilder_append (ri : Nat) (es : List (Entry Bytes Bytes)) (e : Entry Bytes Bytes) :
    dataBlockBuilder ri (es ++ [e]) = (dataBlockBuilder ri es).add ri e.key.encode e.value := by
  simp [dataBlockBuilder, List.foldl_append]

theorem dataBlockFits_iff {es : List (Entry Bytes Bytes)} :
    DataBlockFits ri B es ↔ (dataBlockBuilder ri es).currentSizeEstimate + kBlockTrailerSize ≤ B := by
  rw [DataBlockFits, dataBlockContents, BlockBuilder.length_finish]

/-- An entry whose key, value and nineteen bytes more fit in the room the block leaves keeps the
block inside `B`. -/
theorem dataBlockFits_append {es : List (Entry Bytes Bytes)} {e : Entry Bytes Bytes}
    (h : (dataBlockBuilder ri es).currentSizeEstimate + e.key.encode.length + e.value.length + 19 +
      kBlockTrailerSize ≤ B) : DataBlockFits ri B (es ++ [e]) := by
  rw [dataBlockFits_iff, dataBlockBuilder_append]
  have := BlockBuilder.currentSizeEstimate_add_le ri (dataBlockBuilder ri es) e.key.encode e.value
  omega

/-- The same with nine bytes more, for a key and a value shorter than `2 ^ 14`. -/
theorem dataBlockFits_append_of_lt {es : List (Entry Bytes Bytes)} {e : Entry Bytes Bytes}
    (hk : e.key.encode.length < 2 ^ 14) (hv : e.value.length < 2 ^ 14)
    (h : (dataBlockBuilder ri es).currentSizeEstimate + e.key.encode.length + e.value.length + 9 +
      kBlockTrailerSize ≤ B) : DataBlockFits ri B (es ++ [e]) := by
  rw [dataBlockFits_iff, dataBlockBuilder_append]
  have := BlockBuilder.currentSizeEstimate_add_le_of_lt ri (dataBlockBuilder ri es) hk hv
  omega

end Fit

namespace TableBuilder

variable {ri B : Nat} {r : TableBuilder Bytes}

@[simp] theorem blocks_addIndexEntry (key : InternalKey Bytes) :
    (r.addIndexEntry key).blocks = r.blocks := rfl

@[simp] theorem dataBlock_addIndexEntry (key : InternalKey Bytes) :
    (r.addIndexEntry key).dataBlock = r.dataBlock := rfl

@[simp] theorem blocks_appendEntry (o : TableOptions Bytes) (e : Entry Bytes Bytes) :
    (r.appendEntry o e).blocks = r.blocks := rfl

@[simp] theorem dataBlock_appendEntry (o : TableOptions Bytes) (e : Entry Bytes Bytes) :
    (r.appendEntry o e).dataBlock = r.dataBlock ++ [e] := rfl

@[simp] theorem dataBlock_updateFunctionBLock : r.updateFunctionBLock.dataBlock = [] := by
  unfold updateFunctionBLock
  split_ifs with hd
  · simpa using hd
  · rfl

/-- Every finished data block fits `B`, and so does the open one once it holds an entry. -/
structure BlocksFit (ri B : Nat) (r : TableBuilder Bytes) : Prop where
  blocks : ∀ blk ∈ r.blocks, DataBlockFits ri B blk
  dataBlock : r.dataBlock ≠ [] → DataBlockFits ri B r.dataBlock

theorem blocksFit_init : BlocksFit ri B (init : TableBuilder Bytes) where
  blocks := by simp [init]
  dataBlock := by simp [init]

theorem BlocksFit.updateFunctionBLock (h : BlocksFit ri B r) :
    BlocksFit ri B r.updateFunctionBLock := by
  unfold TableBuilder.updateFunctionBLock
  split_ifs with hd
  · exact h
  · refine ⟨fun blk hblk => ?_, fun hne => absurd rfl hne⟩
    rcases List.mem_append.mp hblk with hblk | hblk
    · exact h.blocks blk hblk
    · rw [List.mem_singleton.mp hblk]
      exact h.dataBlock (by simpa using hd)

/-- The end of either `Add`: indexing the last block and appending the entry keep the finished
blocks, and the data block with the entry is the one to fit. -/
theorem BlocksFit.indexAndAppend (h : BlocksFit ri B r) (o : TableOptions Bytes)
    (key : InternalKey Bytes) {e : Entry Bytes Bytes} (he : DataBlockFits ri B (r.dataBlock ++ [e])) :
    BlocksFit ri B ((if r.pendingIndexFilterEntry then r.addIndexEntry key else r).appendEntry o e) := by
  constructor
  · split_ifs <;> simpa using h.blocks
  · split_ifs <;> simpa using he

/-- `TableBuilder_ComputeSide::Add` keeps every data block inside `B` when the entry fits in a
block of its own: after the size test either the data block is empty, or it leaves room for the
entry and the slack, which covers the most the entry can add. -/
theorem BlocksFit.add (h : BlocksFit ri B r) (fp : Option FilterPolicy) {e : Entry Bytes Bytes}
    (he : DataBlockFits ri B [e]) : BlocksFit ri B (r.add (.ofBlockBuilder B ri fp) e) := by
  unfold TableBuilder.add
  dsimp only
  apply BlocksFit.indexAndAppend
  · split_ifs
    · exact h.updateFunctionBLock
    · exact h
  · split_ifs with hcut
    · simpa using he
    · apply dataBlockFits_append
      simp only [TableOptions.ofBlockBuilder, InternalKey.length_encode, kBlockTrailerSize] at hcut ⊢
      omega

/-- `TableBuilder_Memoryside::Add` does the same while `B` is at most `2 ^ 14`: below it a key
and a value that leave room in a block are shorter than `2 ^ 14`, their lengths take two bytes
each, and the smaller slack is enough. -/
theorem BlocksFit.addMemoryside (h : BlocksFit ri B r) (hB : B ≤ 2 ^ 14) (fp : Option FilterPolicy)
    {e : Entry Bytes Bytes} (he : DataBlockFits ri B [e]) :
    BlocksFit ri B (r.addMemoryside (.ofBlockBuilder B ri fp) e) := by
  unfold TableBuilder.addMemoryside
  dsimp only
  apply BlocksFit.indexAndAppend
  · split_ifs
    · exact h.updateFunctionBLock
    · exact h
  · split_ifs with hcut
    · simpa using he
    · simp only [TableOptions.ofBlockBuilder, kBlockTrailerSize] at hcut
      have hk : e.key.encode.length < 2 ^ 14 := by rw [InternalKey.length_encode]; omega
      apply dataBlockFits_append_of_lt hk (by omega)
      simp only [InternalKey.length_encode, kBlockTrailerSize]
      omega

/-- A run of `Add`s of entries that each fit in a block of their own keeps `BlocksFit`. -/
theorem BlocksFit.foldl {step : TableBuilder Bytes → Entry Bytes Bytes → TableBuilder Bytes}
    (hstep : ∀ r e, BlocksFit ri B r → DataBlockFits ri B [e] → BlocksFit ri B (step r e)) :
    ∀ (es : List (Entry Bytes Bytes)) (r : TableBuilder Bytes), (∀ e ∈ es, DataBlockFits ri B [e]) →
      BlocksFit ri B r → BlocksFit ri B (es.foldl step r)
  | [], _, _, h => h
  | e :: es, r, hes, h =>
    BlocksFit.foldl hstep es (step r e) (fun x hx => hes x (List.mem_cons_of_mem e hx))
      (hstep r e h (hes e List.mem_cons_self))

/-- `Finish` finishes the data block, so every block of the table fits. -/
theorem BlocksFit.finish (h : BlocksFit ri B r) : ∀ blk ∈ r.finish.blocks, DataBlockFits ri B blk := by
  have h1 := h.updateFunctionBLock
  unfold TableBuilder.finish
  dsimp only
  split_ifs
  · simpa using h1.blocks
  · exact h1.blocks

end TableBuilder

/-- Every data block either table builder writes fits `B`, for every restart interval and every
input in which each entry fits in a data block of its own; on the memory side for `B` up to the
`DataChunk` size.  Neither needs the input sorted. -/
theorem tableBuilders_dataBlocks_fit (B ri : Nat) (fp : Option FilterPolicy)
    (es : List (Entry Bytes Bytes)) (hfit : ∀ e ∈ es, DataBlockFits ri B [e]) :
    (∀ blk ∈ (Table.build (.ofBlockBuilder B ri fp) es).blocks, DataBlockFits ri B blk) ∧
      (B ≤ dataChunkSize →
        ∀ blk ∈ (Table.buildMemoryside (.ofBlockBuilder B ri fp) es).blocks, DataBlockFits ri B blk) := by
  refine ⟨?_, fun hB => ?_⟩
  · exact (TableBuilder.BlocksFit.foldl (fun r _ h he => h.add fp he) es _ hfit
      TableBuilder.blocksFit_init).finish
  · have hB' : B ≤ 2 ^ 14 := hB.trans (by decide)
    exact (TableBuilder.BlocksFit.foldl (fun r _ h he => h.addMemoryside hB' fp he) es _ hfit
      TableBuilder.blocksFit_init).finish

/-- Three small entries under a block size of 64 bytes. -/
def smallEntries : List (Entry Bytes Bytes) :=
  [⟨.mk' [1] 1 .kTypeValue, [7, 7]⟩, ⟨.mk' [2] 2 .kTypeValue, [8]⟩, ⟨.mk' [2, 1] 3 .kTypeDeletion, []⟩]

theorem tableBuilders_dataBlocks_fit_small :
    (∀ e ∈ smallEntries, DataBlockFits 1 64 [e]) ∧
      (∀ blk ∈ (Table.build (.ofBlockBuilder 64 1 none) smallEntries).blocks, DataBlockFits 1 64 blk) ∧
        (64 ≤ dataChunkSize → ∀ blk ∈ (Table.buildMemoryside (.ofBlockBuilder 64 1 none) smallEntries).blocks,
          DataBlockFits 1 64 blk) :=
  ⟨by decide, tableBuilders_dataBlocks_fit 64 1 none smallEntries (by decide)⟩

/-- A table of one entry has one data block, whatever the options. -/
theorem Table.blocks_build_singleton {V : Type} (o : TableOptions V) (e : Entry Bytes V) :
    (Table.build o [e]).blocks = [[e]] := by
  simp only [Table.build, List.foldl_cons, List.foldl_nil, TableBuilder.add, TableBuilder.finish]
  split_ifs <;> simp_all [TableBuilder.init, TableBuilder.updateFunctionBLock,
    TableBuilder.appendEntry, TableBuilder.addIndexEntry]

/-- An entry whose value is as long as a `DataChunk` chunk. -/
def chunkValueEntry : Entry Bytes Bytes := ⟨.mk' [1] 1 .kTypeValue, List.replicate dataChunkSize 0⟩

theorem dataBlock_overruns_dataChunk :
    (Table.build (.ofBlockBuilder dataChunkSize 1 none) [chunkValueEntry]).blocks = [[chunkValueEntry]] ∧
      (dataBlockContents 1 [chunkValueEntry]).length + kBlockTrailerSize = dataChunkSize + 26 := by
  refine ⟨Table.blocks_build_singleton _ _, ?_⟩
  have hv : (putVarint32 (UInt32.ofNat dataChunkSize)).length = 2 := by decide
  simp only [dataBlockContents, dataBlockBuilder, List.foldl_cons, List.foldl_nil,
    BlockBuilder.length_finish, BlockBuilder.add, BlockBuilder.empty, if_pos Nat.zero_lt_one,
    BlockBuilder.currentSizeEstimate_appendEntry, chunkValueEntry, List.length_replicate,
    InternalKey.length_encode, sharedPrefixLength, hv]
  decide

end DLSM
