import DLSM.Format.Coding
import DLSM.Lib.SortedList
import DLSM.Version.Edit

/-! The wire form of a table's metadata, `RemoteMemTableMetaData::EncodeTo` and `DecodeFrom` of
`db/version_edit.cc`, and of a compaction's inputs, `Compaction::EncodeTo` and `DecodeFrom` of
`db/version_set.cc`: what the compute node and the memory node send each other.

A table's metadata here holds the fields the two functions read and write: its level, number,
creator and shard node ids, size, smallest and largest key (the `rep_` of each `InternalKey`) and
the three maps from offset to the RDMA region of each data, index and filter chunk.  `EncodeTo`
writes the context, protection domain and handle once, from the first data chunk, and then each
chunk's own address, length and keys; `DecodeFrom` gives every chunk of all three maps the ones
written.  So decoding gives the table back with every chunk's shared fields replaced by the first
data chunk's (`shareFirst`), which is the table itself when its chunks share them.

`EncodeTo` reads the first data chunk whatever the map holds: on an empty map that read is
undefined, `none` here.  `DecodeFrom` checks none of its reads: a read past the end of the input
leaves a field unset, which is `none` here too, and so is a chunk count that overflows the loop's
`int` counter.  The `assert`s are left out, as in a release build. -/

namespace DLSM

namespace Wire

/-- The fields of an `ibv_mr` the codes carry, pointers as the 64-bit values they are cast to. -/
structure IbvMr where
  context : UInt64
  pd : UInt64
  addr : UInt64
  length : UInt64
  handle : UInt32
  lkey : UInt32
  rkey : UInt32
  deriving DecidableEq, Repr

/-- A chunk's key in its map, its offset. -/
def offsetKey (c : UInt32 × IbvMr) : Nat := c.1.toNat

/-- `std::map<uint32_t, ibv_mr*>`: the chunks by strictly increasing offset. -/
structure ChunkMap where
  entries : List (UInt32 × IbvMr)
  sorted : SortedList.Sorted offsetKey entries
  deriving DecidableEq

namespace ChunkMap

def empty : ChunkMap := ⟨[], List.Pairwise.nil⟩

/-- `insert`, which keeps the chunk already at the offset. -/
def insert (c : UInt32 × IbvMr) (m : ChunkMap) : ChunkMap :=
  ⟨SortedList.insert offsetKey c m.entries, SortedList.insert_sorted c m.sorted⟩

def size (m : ChunkMap) : Nat := m.entries.length

theorem ext {m m' : ChunkMap} (h : m.entries = m'.entries) : m = m' := by
  cases m; cases m'; cases h; rfl

end ChunkMap

/-- The fields of a `RemoteMemTableMetaData` that `EncodeTo` and `DecodeFrom` carry. -/
structure RemoteMemTableMetaData where
  level : UInt64
  number : UInt64
  creatorNodeId : UInt8
  shardTargetNodeId : UInt8
  fileSize : UInt64
  smallest : Bytes
  largest : Bytes
  remoteDataMrs : ChunkMap
  remoteDataindexMrs : ChunkMap
  remoteFilterMrs : ChunkMap
  deriving DecidableEq

/-- The byte of a `uint8_t`, as `append` of its address copies it. -/
def byteOf (x : UInt8) : Fin 256 := x.toFin

/-- `mr_serialization`: a chunk's own fields. -/
def mrSerialization (mr : IbvMr) : Bytes :=
  putFixed64 mr.addr ++ putFixed64 mr.length ++ putFixed32 mr.lkey ++ putFixed32 mr.rkey

/-- The loop of `EncodeTo` over one map: each chunk's offset and then its own fields. -/
def encodeChunks : List (UInt32 × IbvMr) → Bytes
  | [] => []
  | (offset, mr) :: cs => putFixed32 offset ++ mrSerialization mr ++ encodeChunks cs

/-- `RemoteMemTableMetaData::EncodeTo`. -/
def RemoteMemTableMetaData.encodeTo (f : RemoteMemTableMetaData) : Option Bytes :=
  match f.remoteDataMrs.entries with
  | [] => none
  | (_, first) :: _ => some (
      putFixed64 f.level ++ putFixed64 f.number ++ [byteOf f.creatorNodeId] ++
      [byteOf f.shardTargetNodeId] ++ putFixed64 f.fileSize ++
      putLengthPrefixedSlice f.smallest ++ putLengthPrefixedSlice f.largest ++
      putFixed64 (UInt64.ofNat f.remoteDataMrs.size) ++
      putFixed64 (UInt64.ofNat f.remoteDataindexMrs.size) ++
      putFixed64 (UInt64.ofNat f.remoteFilterMrs.size) ++
      putFixed64 first.context ++ putFixed64 first.pd ++ putFixed32 first.handle ++
      encodeChunks f.remoteDataMrs.entries ++ encodeChunks f.remoteDataindexMrs.entries ++
      encodeChunks f.remoteFilterMrs.entries)

/-- A `memcpy` of one byte and `remove_prefix(1)`. -/
def getByte : Bytes → Option (UInt8 × Bytes)
  | [] => none
  | b :: bs => some (UInt8.ofFin b, bs)

/-- The loop of `DecodeFrom` over one map: `n` rounds, each reading an offset and a chunk's own
fields and inserting the chunk, with the shared fields read before, into the map. -/
def decodeChunks (context pd : UInt64) (handle : UInt32) :
    Nat → ChunkMap → Bytes → Option (ChunkMap × Bytes)
  | 0, m, src => some (m, src)
  | n + 1, m, src => do
    let (offset, src) ← getFixed32 src
    let (addr, src) ← getFixed64 src
    let (length, src) ← getFixed64 src
    let (lkey, src) ← getFixed32 src
    let (rkey, src) ← getFixed32 src
    decodeChunks context pd handle n (m.insert (offset, ⟨context, pd, addr, length, handle, lkey, rkey⟩)) src

/-- A loop of `DecodeFrom` from an empty map, with its `int` counter: a count past `INT_MAX`
overflows it. -/
def decodeChunkMap (context pd : UInt64) (handle : UInt32) (num : UInt64) (src : Bytes) :
    Option (ChunkMap × Bytes) :=
  if num.toNat < 2 ^ 31 then decodeChunks context pd handle num.toNat .empty src else none

/-- `RemoteMemTableMetaData::DecodeFrom`, which advances its `Slice&` argument. -/
def RemoteMemTableMetaData.decodeFrom (src : Bytes) : Option (RemoteMemTableMetaData × Bytes) := do
  let (level, src) ← getFixed64 src
  let (number, src) ← getFixed64 src
  let (creatorNodeId, src) ← getByte src
  let (shardTargetNodeId, src) ← getByte src
  let (fileSize, src) ← getFixed64 src
  let (smallest, src) ← getLengthPrefixedSlice src
  let (largest, src) ← getLengthPrefixedSlice src
  let (dataNum, src) ← getFixed64 src
  let (dataindexNum, src) ← getFixed64 src
  let (filterNum, src) ← getFixed64 src
  let (context, src) ← getFixed64 src
  let (pd, src) ← getFixed64 src
  let (handle, src) ← getFixed32 src
  let (remoteDataMrs, src) ← decodeChunkMap context pd handle dataNum src
  let (remoteDataindexMrs, src) ← decodeChunkMap context pd handle dataindexNum src
  let (remoteFilterMrs, src) ← decodeChunkMap context pd handle filterNum src
  some (⟨level, number, creatorNodeId, shardTargetNodeId, fileSize, smallest, largest,
    remoteDataMrs, remoteDataindexMrs, remoteFilterMrs⟩, src)

/-! ### What decoding gives back -/

/-- A chunk with the shared fields of another. -/
def shareChunk (context pd : UInt64) (handle : UInt32) (c : UInt32 × IbvMr) : UInt32 × IbvMr :=
  (c.1, { c.2 with context, pd, handle })

def ChunkMap.share (context pd : UInt64) (handle : UInt32) (m : ChunkMap) : ChunkMap :=
  ⟨m.entries.map (shareChunk context pd handle), List.pairwise_map.2 (m.sorted.imp id)⟩

/-- The table with every chunk's shared fields those of its first data chunk: what decoding
its code gives back. -/
def RemoteMemTableMetaData.shareFirst (f : RemoteMemTableMetaData) : RemoteMemTableMetaData :=
  match f.remoteDataMrs.entries with
  | [] => f
  | (_, first) :: _ =>
    { f with
      remoteDataMrs := f.remoteDataMrs.share first.context first.pd first.handle
      remoteDataindexMrs := f.remoteDataindexMrs.share first.context first.pd first.handle
      remoteFilterMrs := f.remoteFilterMrs.share first.context first.pd first.handle }

/-- Every chunk of the table's three maps has the context, pd and handle of its first data
chunk. -/
def RemoteMemTableMetaData.SharesFirst (f : RemoteMemTableMetaData) : Prop :=
  ∀ first ∈ f.remoteDataMrs.entries.head?,
    ∀ c ∈ f.remoteDataMrs.entries ++ f.remoteDataindexMrs.entries ++ f.remoteFilterMrs.entries,
      shareChunk first.2.context first.2.pd first.2.handle c = c

/-- What the decoder needs of a table beyond a first data chunk: keys short enough for their
32-bit length and chunk counts within the loops' `int` counters. -/
structure RemoteMemTableMetaData.Encodable (f : RemoteMemTableMetaData) : Prop where
  smallest_lt : f.smallest.length < 2 ^ 32
  largest_lt : f.largest.length < 2 ^ 32
  data_lt : f.remoteDataMrs.size < 2 ^ 31
  dataindex_lt : f.remoteDataindexMrs.size < 2 ^ 31
  filter_lt : f.remoteFilterMrs.size < 2 ^ 31

theorem bind_getByte_cons {β : Type} (b : Fin 256) (bs : Bytes) (k : UInt8 × Bytes → Option β) :
    getByte (b :: bs) >>= k = k (UInt8.ofFin b, bs) :=
  rfl

@[simp] theorem ofFin_byteOf (x : UInt8) : UInt8.ofFin (byteOf x) = x := UInt8.ofFin_toFin x

theorem ChunkMap.share_of_forall {context pd : UInt64} {handle : UInt32} {m : ChunkMap}
    (h : ∀ c ∈ m.entries, shareChunk context pd handle c = c) : m.share context pd handle = m :=
  ChunkMap.ext ((List.map_congr_left h).trans (List.map_id _))

theorem RemoteMemTableMetaData.shareFirst_of_cons {f : RemoteMemTableMetaData} {o : UInt32}
    {first : IbvMr} {cs : List (UInt32 × IbvMr)} (h : f.remoteDataMrs.entries = (o, first) :: cs) :
    f.shareFirst =
      { f with
        remoteDataMrs := f.remoteDataMrs.share first.context first.pd first.handle
        remoteDataindexMrs := f.remoteDataindexMrs.share first.context first.pd first.handle
        remoteFilterMrs := f.remoteFilterMrs.share first.context first.pd first.handle } := by
  unfold RemoteMemTableMetaData.shareFirst
  rw [h]

theorem RemoteMemTableMetaData.shareFirst_eq {f : RemoteMemTableMetaData} (h : f.SharesFirst) :
    f.shareFirst = f := by
  unfold RemoteMemTableMetaData.shareFirst
  split
  · rfl
  · rename_i o first cs hfirst
    have hall := h (o, first) (by simp [hfirst])
    cases f
    simp only at hfirst hall ⊢
    congr 1 <;> apply ChunkMap.share_of_forall <;> intro c hc <;> apply hall <;> simp [hc]

/-- The loop over one map reads back the chunks of `encodeChunks`, inserted after the chunks
already in the map. -/
theorem decodeChunks_encodeChunks (context pd : UInt64) (handle : UInt32) (rest : Bytes) :
    ∀ (cs : List (UInt32 × IbvMr)) (m : ChunkMap), SortedList.Sorted offsetKey (m.entries ++ cs) →
      ∃ m', decodeChunks context pd handle cs.length m (encodeChunks cs ++ rest) = some (m', rest) ∧
        m'.entries = m.entries ++ cs.map (shareChunk context pd handle) := by
  intro cs
  induction cs with
  | nil => intro m _; exact ⟨m, rfl, by simp⟩
  | cons c cs ih =>
    intro m hsorted
    obtain ⟨offset, mr⟩ := c
    -- the next chunk goes after those inserted so far
    have hins : (m.insert (shareChunk context pd handle (offset, mr))).entries =
        m.entries ++ [shareChunk context pd handle (offset, mr)] :=
      SortedList.insert_of_forall_lt fun y hy =>
        (List.pairwise_append.1 hsorted).2.2 y hy (offset, mr) List.mem_cons_self
    have hsorted' : SortedList.Sorted offsetKey
        ((m.insert (shareChunk context pd handle (offset, mr))).entries ++ cs) := by
      rw [hins, List.append_assoc]
      exact SortedList.Sorted.of_map_eq (by simp [shareChunk, offsetKey]) hsorted
    obtain ⟨m', hdec, hentries⟩ := ih _ hsorted'
    refine ⟨m', ?_, by rw [hentries, hins]; simp⟩
    simp only [List.length_cons, encodeChunks, mrSerialization, List.append_assoc]
    simp only [decodeChunks, ↓bind_getFixed32_putFixed32, ↓bind_getFixed64_putFixed64]
    exact hdec

theorem decodeChunkMap_encodeChunks {context pd : UInt64} {handle : UInt32} {m : ChunkMap}
    (hm : m.size < 2 ^ 31) (rest : Bytes) :
    decodeChunkMap context pd handle (UInt64.ofNat m.size) (encodeChunks m.entries ++ rest) =
      some (m.share context pd handle, rest) := by
  have hnum : (UInt64.ofNat m.size).toNat = m.size := by
    rw [UInt64.toNat_ofNat', Nat.mod_eq_of_lt (by omega)]
  obtain ⟨m', hdec, hentries⟩ :=
    decodeChunks_encodeChunks context pd handle rest m.entries .empty m.sorted
  rw [decodeChunkMap, hnum, if_pos hm, ChunkMap.size, hdec]
  congr
  exact ChunkMap.ext hentries

theorem bind_decodeChunkMap {β : Type} {context pd : UInt64} {handle : UInt32} {m : ChunkMap}
    (hm : m.size < 2 ^ 31) (rest : Bytes) (k : ChunkMap × Bytes → Option β) :
    decodeChunkMap context pd handle (UInt64.ofNat m.size) (encodeChunks m.entries ++ rest) >>= k =
      k (m.share context pd handle, rest) :=
  ByteCoding.bind_of_eq_some (decodeChunkMap_encodeChunks hm rest) k

/-- The round trip of a table's metadata: decoding its code gives back the table with every
chunk's shared fields those of its first data chunk, and the rest of the input after it. -/
theorem RemoteMemTableMetaData.decodeFrom_encodeTo {f : RemoteMemTableMetaData} {bytes : Bytes}
    (henc : f.encodeTo = some bytes) (hf : f.Encodable) (rest : Bytes) :
    RemoteMemTableMetaData.decodeFrom (bytes ++ rest) = some (f.shareFirst, rest) := by
  unfold RemoteMemTableMetaData.encodeTo at henc
  split at henc
  · cases henc
  · rename_i o first cs hfirst
    rw [← Option.some.inj henc, shareFirst_of_cons hfirst]
    simp only [List.append_assoc, List.cons_append, List.nil_append]
    -- each field in turn, before the rest of the decoder is visited
    simp only [decodeFrom, ↓bind_getFixed64_putFixed64, ↓bind_getFixed32_putFixed32,
      ↓bind_getByte_cons, ofFin_byteOf, ↓bind_getLengthPrefixedSlice hf.smallest_lt,
      ↓bind_getLengthPrefixedSlice hf.largest_lt, ↓bind_decodeChunkMap hf.data_lt,
      ↓bind_decodeChunkMap hf.dataindex_lt, ↓bind_decodeChunkMap hf.filter_lt]

theorem RemoteMemTableMetaData.encodeTo_isSome {f : RemoteMemTableMetaData}
    (h : f.remoteDataMrs.entries ≠ []) : ∃ bytes, f.encodeTo = some bytes := by
  unfold RemoteMemTableMetaData.encodeTo
  split
  · contradiction
  · exact ⟨_, rfl⟩

/-! ### Compactions -/

/-- The fields of a `Compaction` that `EncodeTo` and `DecodeFrom` carry: its level and its two
lists of input tables. -/
structure Compaction where
  level : Nat
  inputs0 : List RemoteMemTableMetaData
  inputs1 : List RemoteMemTableMetaData
  deriving DecidableEq

/-- The loop of `Compaction::EncodeTo` over one input list. -/
def encodeFiles : List RemoteMemTableMetaData → Option Bytes
  | [] => some []
  | f :: fs => do
    let b ← f.encodeTo
    let bs ← encodeFiles fs
    pure (b ++ bs)

/-- `Compaction::EncodeTo`: the level cast to 16 bits, then each input list's length cast to 32
bits and its tables. -/
def Compaction.encodeTo (c : Compaction) : Option Bytes := do
  let files0 ← encodeFiles c.inputs0
  let files1 ← encodeFiles c.inputs1
  pure (putFixed16 (UInt16.ofNat c.level) ++ putFixed32 (UInt32.ofNat c.inputs0.length) ++ files0 ++
    putFixed32 (UInt32.ofNat c.inputs1.length) ++ files1)

/-- The loop of `Compaction::DecodeFrom` over one input list: `n` tables, one after another. -/
def decodeFiles : Nat → Bytes → Option (List RemoteMemTableMetaData × Bytes)
  | 0, src => some ([], src)
  | n + 1, src => do
    let (f, src) ← RemoteMemTableMetaData.decodeFrom src
    let (fs, src) ← decodeFiles n src
    pure (f :: fs, src)

/-- `Compaction::DecodeFrom` into `c`, whose input lists it appends to.  A `GetFixed16` or
`GetFixed32` that fails leaves its variable at the `0` it starts from. -/
def Compaction.decodeFrom (c : Compaction) (src : Bytes) : Option Compaction := do
  let (level, input) := (getFixed16 src).getD (0, src)
  let (firstLevelLen, input) := (getFixed32 input).getD (0, input)
  let (files0, input) ← decodeFiles firstLevelLen.toNat input
  let (secondLevelLen, input) := (getFixed32 input).getD (0, input)
  let (files1, _) ← decodeFiles secondLevelLen.toNat input
  pure { c with level := level.toNat, inputs0 := c.inputs0 ++ files0, inputs1 := c.inputs1 ++ files1 }

/-- What the decoder needs of a compaction: a level that fits its 16 bits, input lists whose
lengths fit 32 bits, and input tables that have a first data chunk and decode. -/
structure Compaction.Encodable (c : Compaction) : Prop where
  level_lt : c.level < 2 ^ 16
  inputs0_lt : c.inputs0.length < 2 ^ 32
  inputs1_lt : c.inputs1.length < 2 ^ 32
  data_ne : ∀ f ∈ c.inputs0 ++ c.inputs1, f.remoteDataMrs.entries ≠ []
  files : ∀ f ∈ c.inputs0 ++ c.inputs1, f.Encodable

theorem encodeFiles_cons {f : RemoteMemTableMetaData} {fs : List RemoteMemTableMetaData}
    {bytes : Bytes} (h : encodeFiles (f :: fs) = some bytes) :
    ∃ b bs, f.encodeTo = some b ∧ encodeFiles fs = some bs ∧ bytes = b ++ bs := by
  simp only [encodeFiles, Option.bind_eq_bind, Option.bind_eq_some_iff, Option.pure_def,
    Option.some.injEq] at h
  obtain ⟨b, hb, bs, hbs, rfl⟩ := h
  exact ⟨b, bs, hb, hbs, rfl⟩

theorem encodeFiles_isSome {fs : List RemoteMemTableMetaData}
    (h : ∀ f ∈ fs, f.remoteDataMrs.entries ≠ []) : ∃ bytes, encodeFiles fs = some bytes := by
  induction fs with
  | nil => exact ⟨[], rfl⟩
  | cons f fs ih =>
    obtain ⟨b, hb⟩ := RemoteMemTableMetaData.encodeTo_isSome (h f List.mem_cons_self)
    obtain ⟨bs, hbs⟩ := ih fun g hg => h g (List.mem_cons_of_mem f hg)
    exact ⟨b ++ bs, by simp [encodeFiles, hb, hbs]⟩

/-- The loop over one input list reads back the tables of `encodeFiles`. -/
theorem decodeFiles_encodeFiles (rest : Bytes) :
    ∀ {fs : List RemoteMemTableMetaData} {bytes : Bytes}, encodeFiles fs = some bytes →
      (∀ f ∈ fs, f.Encodable) →
      decodeFiles fs.length (bytes ++ rest) = some (fs.map RemoteMemTableMetaData.shareFirst, rest)
  | [], bytes, h, _ => by
    cases h
    rfl
  | f :: fs, bytes, h, hf => by
    obtain ⟨b, bs, hb, hbs, rfl⟩ := encodeFiles_cons h
    have hfs := decodeFiles_encodeFiles rest hbs fun g hg => hf g (List.mem_cons_of_mem f hg)
    rw [List.append_assoc, List.length_cons, decodeFiles,
      ByteCoding.bind_of_eq_some (f.decodeFrom_encodeTo hb (hf f List.mem_cons_self) _)]
    simp only
    rw [ByteCoding.bind_of_eq_some hfs]
    rfl

theorem decodeFrom_encodeTo_of_encodable {c : Compaction} (hc : c.Encodable) (c0 : Compaction) :
    ∃ bytes, c.encodeTo = some bytes ∧
      c0.decodeFrom bytes = some ⟨c.level, c0.inputs0 ++ c.inputs0.map RemoteMemTableMetaData.shareFirst,
        c0.inputs1 ++ c.inputs1.map RemoteMemTableMetaData.shareFirst⟩ := by
  obtain ⟨files0, h0⟩ := encodeFiles_isSome fun f hf => hc.data_ne f (List.mem_append_left _ hf)
  obtain ⟨files1, h1⟩ := encodeFiles_isSome fun f hf => hc.data_ne f (List.mem_append_right _ hf)
  have hd0 := decodeFiles_encodeFiles (putFixed32 (UInt32.ofNat c.inputs1.length) ++ files1) h0
    fun f hf => hc.files f (List.mem_append_left _ hf)
  have hd1 := decodeFiles_encodeFiles [] h1 fun f hf => hc.files f (List.mem_append_right _ hf)
  rw [List.append_nil] at hd1
  have hlevel : (UInt16.ofNat c.level).toNat = c.level := by
    rw [UInt16.toNat_ofNat', Nat.mod_eq_of_lt hc.level_lt]
  have hlen0 : (UInt32.ofNat c.inputs0.length).toNat = c.inputs0.length := by
    rw [UInt32.toNat_ofNat', Nat.mod_eq_of_lt hc.inputs0_lt]
  have hlen1 : (UInt32.ofNat c.inputs1.length).toNat = c.inputs1.length := by
    rw [UInt32.toNat_ofNat', Nat.mod_eq_of_lt hc.inputs1_lt]
  refine ⟨putFixed16 (UInt16.ofNat c.level) ++ putFixed32 (UInt32.ofNat c.inputs0.length) ++ files0 ++
    putFixed32 (UInt32.ofNat c.inputs1.length) ++ files1, by simp [Compaction.encodeTo, h0, h1], ?_⟩
  simp only [Compaction.decodeFrom, List.append_assoc, getFixed16_putFixed16, getFixed32_putFixed32,
    Option.getD_some, hlevel, hlen0, hlen1, hd0, hd1, Option.bind_eq_bind, Option.bind_some,
    Option.pure_def]

/-- A table with one chunk in each map, at offset `0`. -/
def oneChunkTable : RemoteMemTableMetaData :=
  let chunks : ChunkMap := ⟨[(0, ⟨1, 2, 4096, 64, 3, 5, 6⟩)], by decide⟩
  ⟨1, 7, 1, 0, 64, [1, 2, 3], [4, 5, 6], chunks, chunks, chunks⟩

theorem oneChunkTable_encodable : oneChunkTable.Encodable := by
  constructor <;> decide

end Wire

end DLSM
