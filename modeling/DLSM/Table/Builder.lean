import DLSM.Format.Comparator
import DLSM.Lib.Index

/-! `TableBuilder_ComputeSide`, which writes a table of the compute node, and the table that
`Table::Open` reads back.  `Add` finishes the data block when the estimate of its size with the
new entry reaches `block_size` (`UpdateFunctionBLock`).  The index entry of a finished block is
added with the next key, under `FindShortestSeparator` of the block's last key and that key, and
`Finish` adds the last one under `FindShortSuccessor` of the last key.  The filter gets every
user key.  The byte encoding of blocks (prefix compression, restart points, trailers), the local
buffers with the RDMA writes of `FlushData`, and the chunk map of `Find_Remote_MR` are not
modelled: a block handle is the block's number, and the table read back is the one written.

Over a strictly increasing input the builder keeps `Builds`: the blocks indexed so far and the
entries not yet indexed make up the input, and every index key separates its block from the
later ones. -/

namespace DLSM

variable {V : Type}

/-- A filter policy: the filter `CreateFilter` builds from the keys, probed by `KeyMayMatch`.
A filter has no false negatives. -/
structure FilterPolicy where
  keyMayMatch : List Bytes → Bytes → Bool
  keyMayMatch_of_mem : ∀ keys key, key ∈ keys → keyMayMatch keys key = true

/-- The options a table is built and read under. -/
structure TableOptions (V : Type) where
  blockSize : Nat
  /-- `BlockBuilder::CurrentSizeEstimate` of a data block that holds these entries, which
  depends on `block_restart_interval` and the encoding. -/
  sizeEstimate : List (Entry Bytes V) → Nat
  valueSize : V → Nat
  filterPolicy : Option FilterPolicy

/-- `kBlockTrailerSize`: the type byte and the checksum after a block. -/
def kBlockTrailerSize : Nat := 5

/-- A table as `Finish` writes it: the data blocks, numbered by their handles, the entries of the
index block with the handles of their blocks, and the keys of the filter block. -/
structure Table (V : Type) where
  blocks : List (List (Entry Bytes V))
  index : List (InternalKey Bytes × Nat)
  filterKeys : List Bytes
  deriving Repr

/-- The fields of `TableBuilder_ComputeSide::Rep` that the table written depends on. -/
structure TableBuilder (V : Type) where
  /-- The data blocks `FinishDataBlock` has finished. -/
  blocks : List (List (Entry Bytes V))
  dataBlock : List (Entry Bytes V)
  index : List (InternalKey Bytes × Nat)
  filterKeys : List Bytes
  lastKey : InternalKey Bytes
  pendingIndexFilterEntry : Bool
  deriving Repr

namespace TableBuilder

/-- The builder as constructed: nothing added, `last_key` empty. -/
def init : TableBuilder V := ⟨[], [], [], [], ⟨[], 0⟩, false⟩

/-- `UpdateFunctionBLock`: a non-empty data block is finished, and its index entry is due. -/
def updateFunctionBLock (r : TableBuilder V) : TableBuilder V :=
  if r.dataBlock.isEmpty then r
  else { r with
    blocks := r.blocks ++ [r.dataBlock]
    dataBlock := []
    pendingIndexFilterEntry := true }

/-- The index entry of the last finished block, `pending_data_handle`, under `key`. -/
def addIndexEntry (r : TableBuilder V) (key : InternalKey Bytes) : TableBuilder V :=
  { r with
    index := r.index ++ [(key, r.blocks.length - 1)]
    pendingIndexFilterEntry := false }

/-- The end of `Add`: the user key to the filter, and the entry to the data block. -/
def appendEntry (o : TableOptions V) (r : TableBuilder V) (e : Entry Bytes V) :
    TableBuilder V :=
  { r with
    filterKeys := if o.filterPolicy.isSome then r.filterKeys ++ [e.key.userKey] else r.filterKeys
    lastKey := e.key
    dataBlock := r.dataBlock ++ [e] }

/-- `TableBuilder_ComputeSide::Add`.  An encoded key is the user key and its eight-byte tag; the
size test adds a `size_t`, three `uint32_t` and the block trailer. -/
def add (o : TableOptions V) (r : TableBuilder V) (e : Entry Bytes V) : TableBuilder V :=
  let r := if o.blockSize ≤ o.sizeEstimate r.dataBlock + (e.key.userKey.length + 8) +
      o.valueSize e.value + 8 + 3 * 4 + kBlockTrailerSize then r.updateFunctionBLock else r
  let r := if r.pendingIndexFilterEntry then
      r.addIndexEntry (InternalKeyComparator.findShortestSeparator r.lastKey e.key)
    else r
  r.appendEntry o e

/-- `TableBuilder_Memoryside::Add`, which builds the tables of a compaction on the memory node: as
`TableBuilder_ComputeSide::Add`, but the size test adds only a `size_t` and the block trailer. -/
def addMemoryside (o : TableOptions V) (r : TableBuilder V) (e : Entry Bytes V) : TableBuilder V :=
  let r := if o.blockSize ≤ o.sizeEstimate r.dataBlock + (e.key.userKey.length + 8) +
      o.valueSize e.value + 8 + kBlockTrailerSize then r.updateFunctionBLock else r
  let r := if r.pendingIndexFilterEntry then
      r.addIndexEntry (InternalKeyComparator.findShortestSeparator r.lastKey e.key)
    else r
  r.appendEntry o e

/-- `TableBuilder_ComputeSide::Finish`: the last data block finished and indexed. -/
def finish (r : TableBuilder V) : Table V :=
  let r := r.updateFunctionBLock
  let r := if r.pendingIndexFilterEntry then
      r.addIndexEntry (InternalKeyComparator.findShortSuccessor r.lastKey)
    else r
  ⟨r.blocks, r.index, r.filterKeys⟩

/-- The indexed blocks, each under its index key. -/
def pairs (r : TableBuilder V) : List (InternalKey Bytes × List (Entry Bytes V)) :=
  r.index.map fun p => (p.1, r.blocks.getD p.2 [])

/-- The entries added whose block has no index entry yet. -/
def unindexed (r : TableBuilder V) : List (Entry Bytes V) :=
  (r.blocks.drop r.index.length).flatten ++ r.dataBlock

end TableBuilder

/-- The table `BuildTable` writes from `es`: every entry added, then `Finish`. -/
def Table.build (o : TableOptions V) (es : List (Entry Bytes V)) : Table V :=
  (es.foldl (TableBuilder.add o) TableBuilder.init).finish

/-- The table `TableBuilder_Memoryside` writes from `es`: every entry added, then `Finish`, which
finishes and indexes the last data block as the compute side does. -/
def Table.buildMemoryside (o : TableOptions V) (es : List (Entry Bytes V)) : Table V :=
  (es.foldl (TableBuilder.addMemoryside o) TableBuilder.init).finish

/-- The blocks of a table, each under its index key. -/
def Table.pairs (t : Table V) : List (InternalKey Bytes × List (Entry Bytes V)) :=
  t.index.map fun p => (p.1, t.blocks.getD p.2 [])

/-- `Table::NewIterator`: the two-level iterator over the index block, each entry's block read by
`BlockReader` from its handle. -/
def Table.newIterator (t : Table V) : List (Entry Bytes V) :=
  (t.index.map fun p => t.blocks.getD p.2 []).flatten

theorem Table.newIterator_eq_entries (t : Table V) :
    t.newIterator = Index.entries t.pairs := by
  simp [Table.newIterator, Index.entries, Table.pairs, Function.comp_def]

/-- An index key is the key of an entry of its block, or its user key is before those of a later
block `q`: a lookup key at or before it with the user key of an entry of `q` is at or before an
entry of its block. -/
def Tight (p q : InternalKey Bytes × List (Entry Bytes V)) : Prop :=
  (∃ x ∈ p.2, x.key = p.1) ∨ ∀ y ∈ q.2, p.1.userKey < y.key.userKey

/-- What the builder keeps after the entries `es`, under the options `o`. -/
structure TableBuilder.Builds (o : TableOptions V) (es : List (Entry Bytes V))
    (r : TableBuilder V) : Prop where
  entries : Index.entries r.pairs ++ r.unindexed = es
  handles : r.index.map Prod.snd = List.range r.index.length
  length_blocks : r.blocks.length = r.index.length + if r.pendingIndexFilterEntry then 1 else 0
  pending : r.pendingIndexFilterEntry = true → r.dataBlock = []
  nonempty : ∀ b ∈ r.blocks, b ≠ []
  lastKey : ∀ e ∈ es.getLast?, r.lastKey = e.key
  le_lastKey : ∀ x ∈ es, x.key ≤ r.lastKey
  lastKey_mem : r.unindexed ≠ [] → ∃ x ∈ r.unindexed, x.key = r.lastKey
  filterKeys : r.filterKeys = if o.filterPolicy.isSome then es.map (·.key.userKey) else []
  separated : Index.Separated Entry.key r.pairs
  tight : r.pairs.Pairwise Tight
  sep_lt : ∀ p ∈ r.pairs, ∀ x ∈ r.unindexed, p.1 < x.key
  tight_unindexed : ∀ p ∈ r.pairs,
    (∃ x ∈ p.2, x.key = p.1) ∨ ∀ x ∈ r.unindexed, p.1.userKey < x.key.userKey
  unindexed_ne : r.index ≠ [] → r.unindexed ≠ []

/-- What a table built from `es` is: its iterator yields `es`, its index keys separate the
blocks, and the last index key is the successor of the last key, at or after every other. -/
structure Table.Holds (o : TableOptions V) (es : List (Entry Bytes V)) (t : Table V) : Prop where
  entries : Index.entries t.pairs = es
  separated : Index.Separated Entry.key t.pairs
  tight : t.pairs.Pairwise Tight
  lastIndex : ∀ e ∈ es.getLast?,
    (∃ p ∈ t.index, p.1 = InternalKeyComparator.findShortSuccessor e.key) ∧
      ∀ p ∈ t.index, p.1 ≤ InternalKeyComparator.findShortSuccessor e.key
  filterKeys : t.filterKeys = if o.filterPolicy.isSome then es.map (·.key.userKey) else []

namespace TableBuilder

variable {o : TableOptions V} {es : List (Entry Bytes V)} {r : TableBuilder V}

theorem builds_init : Builds o [] (init : TableBuilder V) where
  entries := rfl
  handles := rfl
  length_blocks := rfl
  pending := nofun
  nonempty := by simp [init]
  lastKey := by simp
  le_lastKey := by simp
  lastKey_mem := by simp [init, unindexed]
  filterKeys := by simp [init]
  separated := Index.separated_nil
  tight := List.Pairwise.nil
  sep_lt := by simp [init, pairs]
  tight_unindexed := by simp [init, pairs]
  unindexed_ne := by simp [init]

theorem Builds.handle_lt (h : Builds o es r) {p : InternalKey Bytes × Nat} (hp : p ∈ r.index) :
    p.2 < r.blocks.length := by
  have hmem : p.2 ∈ r.index.map Prod.snd := List.mem_map_of_mem hp
  rw [h.handles, List.mem_range] at hmem
  have := h.length_blocks
  omega

theorem Builds.not_pending (h : Builds o es r) (hd : ¬r.dataBlock.isEmpty = true) :
    r.pendingIndexFilterEntry = false := by
  cases hq : r.pendingIndexFilterEntry
  · rfl
  · exact absurd (h.pending hq) (by simpa using hd)

/-- Finishing a block moves no entry between the indexed blocks and the rest. -/
theorem Builds.updateFunctionBLock_eq (h : Builds o es r) :
    r.updateFunctionBLock.pairs = r.pairs ∧ r.updateFunctionBLock.unindexed = r.unindexed := by
  unfold updateFunctionBLock
  split_ifs with hd
  · exact ⟨rfl, rfl⟩
  · -- with no index entry due every finished block is indexed
    have hlen : r.blocks.length = r.index.length := by
      simpa [h.not_pending hd] using h.length_blocks
    have hdrop : r.blocks.drop r.index.length = [] := List.drop_eq_nil_of_le (by omega)
    refine ⟨?_, ?_⟩
    · simp only [pairs]
      refine List.map_congr_left fun p hmem => ?_
      simp [List.getD_eq_getElem?_getD, List.getElem?_append_left (h.handle_lt hmem)]
    · simp [unindexed, List.drop_append_of_le_length (le_of_eq hlen.symm), hdrop]

theorem Builds.updateFunctionBLock (h : Builds o es r) : Builds o es r.updateFunctionBLock := by
  obtain ⟨hpairs, hun⟩ := h.updateFunctionBLock_eq
  unfold TableBuilder.updateFunctionBLock at hpairs hun ⊢
  split_ifs with hd
  · exact h
  · rw [if_neg hd] at hpairs hun
    refine
      { entries := by rw [hpairs, hun]; exact h.entries
        handles := h.handles
        length_blocks := by simpa [h.not_pending hd] using h.length_blocks
        pending := fun _ => rfl
        nonempty := fun b hb => ?_
        lastKey := h.lastKey
        le_lastKey := h.le_lastKey
        lastKey_mem := by rw [hun]; exact h.lastKey_mem
        filterKeys := h.filterKeys
        separated := by rw [hpairs]; exact h.separated
        tight := by rw [hpairs]; exact h.tight
        sep_lt := by rw [hpairs, hun]; exact h.sep_lt
        tight_unindexed := by rw [hpairs, hun]; exact h.tight_unindexed
        unindexed_ne := by rw [hun]; exact h.unindexed_ne }
    rcases List.mem_append.mp hb with hb | hb
    · exact h.nonempty b hb
    · rw [List.mem_singleton.mp hb]
      simpa using hd

/-- With an index entry due, the unindexed entries are the last finished block, and indexing it
under `key` appends it to the indexed blocks. -/
theorem Builds.addIndexEntry_eq (h : Builds o es r) (hp : r.pendingIndexFilterEntry = true)
    (key : InternalKey Bytes) :
    (r.addIndexEntry key).pairs = r.pairs ++ [(key, r.unindexed)] ∧
      (r.addIndexEntry key).unindexed = [] ∧ r.unindexed ≠ [] := by
  have hlen : r.blocks.length = r.index.length + 1 := by simpa [hp] using h.length_blocks
  have hi : r.index.length < r.blocks.length := by omega
  have hdrop : r.blocks.drop r.index.length = [r.blocks[r.index.length]] := by
    rw [List.drop_eq_getElem_cons hi, List.drop_eq_nil_of_le (by omega)]
  have hun : r.unindexed = r.blocks[r.index.length] := by
    simp [unindexed, hdrop, h.pending hp]
  refine ⟨?_, ?_, ?_⟩
  · simp only [pairs, addIndexEntry, List.map_append, List.map_cons, List.map_nil, hun]
    rw [show r.blocks.length - 1 = r.index.length by omega, List.getD_eq_getElem?_getD,
      List.getElem?_eq_getElem hi, Option.getD_some]
  · have hdrop' : r.blocks.drop (r.index.length + 1) = [] := List.drop_eq_nil_of_le (by omega)
    simp [unindexed, addIndexEntry, hdrop', h.pending hp]
  · rw [hun]
    exact h.nonempty _ (List.getElem_mem hi)

theorem Builds.mem_of_mem_unindexed (h : Builds o es r) {x : Entry Bytes V}
    (hx : x ∈ r.unindexed) : x ∈ es := by
  rw [← h.entries]
  exact List.mem_append_right _ hx

/-- An index key is before the key of a new entry, and it is the key of an entry of its block or
its user key is before the new entry's: the unindexed entries are after it, and the new entry is
after them. -/
theorem Builds.index_lt_of_lt (h : Builds o es r) {e : Entry Bytes V}
    (he : ∀ x ∈ es, x.key < e.key) {p : InternalKey Bytes × List (Entry Bytes V)}
    (hp : p ∈ r.pairs) (hne : r.unindexed ≠ []) :
    p.1 < e.key ∧ ((∃ x ∈ p.2, x.key = p.1) ∨ p.1.userKey < e.key.userKey) := by
  obtain ⟨x, hx⟩ := List.exists_mem_of_ne_nil _ hne
  have hxe : x.key < e.key := he x (h.mem_of_mem_unindexed hx)
  refine ⟨(h.sep_lt p hp x hx).trans hxe, ?_⟩
  rcases h.tight_unindexed p hp with hin | hlt
  · exact .inl hin
  · exact .inr ((hlt x hx).trans_le (InternalKey.userKey_le_of_le hxe.le))

theorem le_of_lt_append {e : Entry Bytes V} (he : ∀ x ∈ es, x.key < e.key) :
    ∀ x ∈ es ++ [e], x.key ≤ e.key := by
  intro x hx
  rcases List.mem_append.mp hx with hx | hx
  · exact (he x hx).le
  · rw [List.mem_singleton.mp hx]

@[simp] theorem pairs_appendEntry (e : Entry Bytes V) : (r.appendEntry o e).pairs = r.pairs := rfl

@[simp] theorem unindexed_appendEntry (e : Entry Bytes V) :
    (r.appendEntry o e).unindexed = r.unindexed ++ [e] := by
  simp [unindexed, appendEntry]

theorem Builds.filterKeys_appendEntry (h : Builds o es r) (e : Entry Bytes V) :
    (r.appendEntry o e).filterKeys =
      if o.filterPolicy.isSome then (es ++ [e]).map (·.key.userKey) else [] := by
  cases hf : o.filterPolicy.isSome <;> simp [appendEntry, h.filterKeys, hf]

/-- `Add` of an entry after an index entry is due: the last finished block is indexed under the
separator of the last key and the new one, and the new entry starts the data block. -/
theorem Builds.indexAndAppend_of_pending (h : Builds o es r) {e : Entry Bytes V}
    (he : ∀ x ∈ es, x.key < e.key) (hp : r.pendingIndexFilterEntry = true) :
    Builds o (es ++ [e]) ((r.addIndexEntry
      (InternalKeyComparator.findShortestSeparator r.lastKey e.key)).appendEntry o e) := by
  set sep := InternalKeyComparator.findShortestSeparator r.lastKey e.key
  obtain ⟨hpairs, hun, hne⟩ := h.addIndexEntry_eq hp sep
  have hlen : r.blocks.length = r.index.length + 1 := by simpa [hp] using h.length_blocks
  obtain ⟨y, hy, hykey⟩ := h.lastKey_mem hne
  have hlast : r.lastKey < e.key := hykey ▸ he y (h.mem_of_mem_unindexed hy)
  obtain ⟨hsep_lt, hsep⟩ := InternalKeyComparator.findShortestSeparator_lt hlast
  have hle : ∀ x ∈ r.unindexed, x.key ≤ sep := fun x hx =>
    (h.le_lastKey x (h.mem_of_mem_unindexed hx)).trans
      (InternalKeyComparator.le_findShortestSeparator _ _)
  exact
    { entries := by
        rw [pairs_appendEntry, unindexed_appendEntry, hpairs, hun, ← h.entries]
        simp
      handles := by
        simp only [appendEntry, addIndexEntry, List.map_append, h.handles, List.length_append,
          List.length_singleton, List.range_succ, List.map_cons, List.map_nil]
        rw [hlen, Nat.add_sub_cancel]
      length_blocks := by simp [appendEntry, addIndexEntry, hlen]
      pending := by simp [appendEntry, addIndexEntry]
      nonempty := h.nonempty
      lastKey := by simp [appendEntry]
      le_lastKey := le_of_lt_append he
      lastKey_mem := fun _ => ⟨e, by simp [hun], rfl⟩
      filterKeys := h.filterKeys_appendEntry e
      separated := by
        rw [pairs_appendEntry, hpairs]
        exact h.separated.snoc hle h.sep_lt
      tight := by
        rw [pairs_appendEntry, hpairs]
        refine List.pairwise_append.mpr ⟨h.tight, List.pairwise_singleton _ _, ?_⟩
        intro p hp q hq
        rw [List.mem_singleton.mp hq]
        exact h.tight_unindexed p hp
      sep_lt := by
        rw [pairs_appendEntry, unindexed_appendEntry, hpairs, hun]
        intro p hp x hx
        simp only [List.nil_append, List.mem_singleton] at hx
        subst hx
        rcases List.mem_append.mp hp with hp | hp
        · exact (h.index_lt_of_lt he hp hne).1
        · rw [List.mem_singleton.mp hp]
          exact hsep_lt
      tight_unindexed := by
        rw [pairs_appendEntry, unindexed_appendEntry, hpairs, hun]
        intro p hp
        rcases List.mem_append.mp hp with hp | hp
        · rcases (h.index_lt_of_lt he hp hne).2 with hin | hlt
          · exact .inl hin
          · exact .inr fun x hx => by simpa [List.mem_singleton.mp hx] using hlt
        · rw [List.mem_singleton.mp hp]
          rcases hsep with heq | hlt
          · -- the separator is the last key, the key of the block's last entry
            exact .inl ⟨y, hy, hykey.trans heq.symm⟩
          · exact .inr fun x hx => by simpa [List.mem_singleton.mp hx] using hlt
      unindexed_ne := fun _ => by simp [hun] }

/-- `Add` of an entry to the open data block, with no index entry due. -/
theorem Builds.append_of_not_pending (h : Builds o es r) {e : Entry Bytes V}
    (he : ∀ x ∈ es, x.key < e.key) (hp : r.pendingIndexFilterEntry = false) :
    Builds o (es ++ [e]) (r.appendEntry o e) := by
  -- an index key exists only with an entry after it
  have hne : r.pairs ≠ [] → r.unindexed ≠ [] := fun hpr =>
    h.unindexed_ne fun hi => hpr (by simp [pairs, hi])
  exact
    { entries := by rw [pairs_appendEntry, unindexed_appendEntry, ← List.append_assoc, h.entries]
      handles := h.handles
      length_blocks := h.length_blocks
      pending := by simp [appendEntry, hp]
      nonempty := h.nonempty
      lastKey := by simp [appendEntry]
      le_lastKey := le_of_lt_append he
      lastKey_mem := fun _ => ⟨e, by simp, rfl⟩
      filterKeys := h.filterKeys_appendEntry e
      separated := h.separated
      tight := h.tight
      sep_lt := by
        rw [pairs_appendEntry, unindexed_appendEntry]
        intro p hp x hx
        rcases List.mem_append.mp hx with hx | hx
        · exact h.sep_lt p hp x hx
        · rw [List.mem_singleton.mp hx]
          exact (h.index_lt_of_lt he hp (hne (List.ne_nil_of_mem hp))).1
      tight_unindexed := by
        rw [pairs_appendEntry, unindexed_appendEntry]
        intro p hp
        rcases h.tight_unindexed p hp with hin | hlt
        · exact .inl hin
        · refine .inr fun x hx => ?_
          rcases List.mem_append.mp hx with hx | hx
          · exact hlt x hx
          · rw [List.mem_singleton.mp hx]
            obtain ⟨y, hy⟩ := List.exists_mem_of_ne_nil _ (hne (List.ne_nil_of_mem hp))
            exact (hlt y hy).trans_le
              (InternalKey.userKey_le_of_le (he y (h.mem_of_mem_unindexed hy)).le)
      unindexed_ne := fun _ => by simp [unindexed_appendEntry] }

/-- One `Add` of an entry after all entries so far keeps `Builds`. -/
theorem Builds.add (h : Builds o es r) {e : Entry Bytes V} (he : ∀ x ∈ es, x.key < e.key) :
    Builds o (es ++ [e]) (r.add o e) := by
  -- whether or not the size test finishes the data block, the builder still `Builds`
  have step : ∀ r', Builds o es r' → Builds o (es ++ [e])
      ((if r'.pendingIndexFilterEntry = true then
          r'.addIndexEntry (InternalKeyComparator.findShortestSeparator r'.lastKey e.key)
        else r').appendEntry o e) := by
    intro r' h'
    cases hp : r'.pendingIndexFilterEntry
    · simpa using h'.append_of_not_pending he hp
    · simpa using h'.indexAndAppend_of_pending he hp
  unfold TableBuilder.add
  dsimp only
  apply step
  split_ifs
  · exact h.updateFunctionBLock
  · exact h

/-- `Finish` of a builder that `Builds` the entries `es` writes a table that holds them. -/
theorem Builds.finish (h : Builds o es r) : r.finish.Holds o es := by
  have h1 := h.updateFunctionBLock
  unfold TableBuilder.finish
  dsimp only
  split_ifs with hp
  · set r1 := r.updateFunctionBLock
    set succ := InternalKeyComparator.findShortSuccessor r1.lastKey
    obtain ⟨hpairs, hun, hne⟩ := h1.addIndexEntry_eq hp succ
    obtain ⟨y, hy⟩ := List.exists_mem_of_ne_nil _ hne
    have hle : ∀ x ∈ r1.unindexed, x.key ≤ succ := fun x hx =>
      (h1.le_lastKey x (h1.mem_of_mem_unindexed hx)).trans
        (InternalKeyComparator.le_findShortSuccessor _).1
    have htpairs : Table.pairs ⟨(r1.addIndexEntry succ).blocks, (r1.addIndexEntry succ).index,
        (r1.addIndexEntry succ).filterKeys⟩ = r1.pairs ++ [(succ, r1.unindexed)] := hpairs
    exact
      { entries := by rw [htpairs, ← h1.entries]; simp
        separated := by rw [htpairs]; exact h1.separated.snoc hle h1.sep_lt
        tight := by
          rw [htpairs]
          refine List.pairwise_append.mpr ⟨h1.tight, List.pairwise_singleton _ _, ?_⟩
          intro p hp q hq
          rw [List.mem_singleton.mp hq]
          exact h1.tight_unindexed p hp
        lastIndex := by
          intro e he
          rw [← h1.lastKey e he]
          refine ⟨⟨(succ, r1.blocks.length - 1), by simp [addIndexEntry], rfl⟩, ?_⟩
          intro p hp
          simp only [addIndexEntry, List.mem_append, List.mem_singleton] at hp
          rcases hp with hp | rfl
          · -- an earlier index key is before the entries of the last block
            have hpr : (p.1, r1.blocks.getD p.2 []) ∈ r1.pairs := List.mem_map_of_mem hp
            exact ((h1.sep_lt _ hpr y hy).trans_le (hle y hy)).le
          · exact le_rfl
        filterKeys := h1.filterKeys }
  · -- no block is left to index: the data block was empty and every block is indexed
    have hd : r.updateFunctionBLock.dataBlock = [] := by
      unfold TableBuilder.updateFunctionBLock at hp ⊢
      split_ifs at hp ⊢ with hd
      · simpa using hd
      · rfl
    have hlen : r.updateFunctionBLock.blocks.length = r.updateFunctionBLock.index.length := by
      simpa [hp] using h1.length_blocks
    have hun : r.updateFunctionBLock.unindexed = [] := by
      simp [unindexed, hd, List.drop_eq_nil_of_le (le_of_eq hlen)]
    have hi : r.updateFunctionBLock.index = [] := by
      by_contra hi
      exact h1.unindexed_ne hi hun
    have hes : es = [] := by
      rw [← h1.entries, hun]
      simp [pairs, hi]
    exact
      { entries := by rw [hes]; simp [Table.pairs, hi]
        separated := by simpa [Table.pairs, hi] using Index.separated_nil
        tight := by simp [Table.pairs, hi]
        lastIndex := by simp [hes]
        filterKeys := h1.filterKeys }

/-- The run of `Add` over a strictly increasing input: `Builds` holds after every prefix. -/
theorem builds_foldl : ∀ (rest es : List (Entry Bytes V)) (r : TableBuilder V), Builds o es r →
    (es ++ rest).Pairwise (fun x y => x.key < y.key) →
      Builds o (es ++ rest) (rest.foldl (add o) r)
  | [], es, r, h, _ => by simpa using h
  | e :: rest, es, r, h, hs => by
    have he : ∀ x ∈ es, x.key < e.key := fun x hx =>
      (List.pairwise_append.mp hs).2.2 x hx e (List.mem_cons_self ..)
    have hs' : ((es ++ [e]) ++ rest).Pairwise (fun x y => x.key < y.key) := by simpa using hs
    simpa using builds_foldl rest (es ++ [e]) (r.add o e) (h.add he) hs'

end TableBuilder

/-- A table built from a strictly increasing input holds it: its iterator yields the input and
its index keys separate its blocks. -/
theorem Table.build_holds (o : TableOptions V) {es : List (Entry Bytes V)}
    (hs : es.Pairwise fun x y => x.key < y.key) : (Table.build o es).Holds o es :=
  (TableBuilder.builds_foldl es [] TableBuilder.init TableBuilder.builds_init
    (by simpa using hs)).finish

end DLSM
