import DLSM.Lib.BitArray
import DLSM.Format.Coding
import DLSM.Table.Builder

/-! The full filter block of a table: `FullFilterBlockBuilder` over the FilterChunk buffer of
`TableBuilder_ComputeSide`, the legacy cache-local bloom filter of `util/bloom_impl.h` that it
writes (`LegacyLocalityBloomImpl<false>`), the block trailer of `FinishFilterBlock`, the bytes
`ReadFilterBlock` reads back, and `FullFilterBlockReader`.

The builder keeps the `BloomHash` of every key, but one that repeats the last.  `Finish` sizes
the filter in cache lines of 64 bytes, an odd number of them, sets `num_probes` bits in the
line `h % num_lines` of every hash, and writes `num_probes` and `num_lines` after the filter.
The reader takes both back from the last five bytes, and probes the same bits of the same line.
A write or a read outside the buffer, a signed overflow and a division by zero are undefined in
the source and `none` here, as is a call of `exit`. -/

namespace DLSM

open ByteCoding

/-! ### `Hash` -/

/-- `m` of `Hash`, MurmurHash1's multiplier. -/
def hashM : UInt32 := 0xc6a4a793

/-- `static_cast<uint32_t>(static_cast<int8_t>(b))`: a byte sign-extended to 32 bits, as the
tail of `Hash` reads it. -/
def signExtend (b : Fin 256) : UInt32 :=
  if b.val < 128 then UInt32.ofNat b.val else UInt32.ofNat (b.val + 0xffffff00)

/-- The loop of `Hash` over four bytes at a time, then its switch over the one to three bytes
left. -/
def hashLoop (h : UInt32) : Bytes → UInt32
  | b0 :: b1 :: b2 :: b3 :: rest =>
    let h := (h + UInt32.ofNat (LittleEndian.decode [b0, b1, b2, b3])) * hashM
    hashLoop (h ^^^ h >>> 16) rest
  | [b0, b1, b2] =>
    let h := (h + signExtend b2 <<< 16 + signExtend b1 <<< 8 + signExtend b0) * hashM
    h ^^^ h >>> 24
  | [b0, b1] =>
    let h := (h + signExtend b1 <<< 8 + signExtend b0) * hashM
    h ^^^ h >>> 24
  | [b0] =>
    let h := (h + signExtend b0) * hashM
    h ^^^ h >>> 24
  | [] => h

/-- `Hash(data, n, seed)`; `n * m` is a `size_t` product, of which the seed keeps 32 bits. -/
def hash (data : Bytes) (seed : UInt32) : UInt32 :=
  hashLoop (seed ^^^ UInt32.ofNat (data.length * hashM.toNat)) data

/-- `BloomHash`. -/
def bloomHash (key : Bytes) : UInt32 := hash key 0xbc9f1d34

/-! ### `LegacyLocalityBloomImpl<false>` -/

/-- `std::log2(CACHE_LINE_SIZE)`, with the 64-byte `CACHE_LINE_SIZE` of the x86 build (the RDMA
code flushes with the x86 `clflush`, so there is no other build). -/
def log2CacheLineSize : Nat := 6

/-- `CACHE_LINE_SIZE`. -/
def cacheLineSize : Nat := 2 ^ log2CacheLineSize

namespace LegacyBloomImpl

/-- `GetLine` without the extra rotates: `h % num_lines`, for `num_lines ≠ 0`. -/
def getLine (h numLines : UInt32) : UInt32 := h % numLines

/-- `delta` of `AddHash` and `HashMayMatchPrepared`: `h` rotated right by 17 bits. -/
def delta (h : UInt32) : UInt32 := h >>> 17 ||| h <<< 15

/-- `bitpos`: the low `log2_cache_line_bits` bits of `h`, a bit of the cache line. -/
def bitpos (log2CacheLineBytes : Nat) (h : UInt32) : Nat :=
  (h &&& UInt32.ofNat (1 <<< (log2CacheLineBytes + 3) - 1)).toNat

/-- The probe loop of `AddHash`, from the line at byte `off`: `data_at_offset[bitpos / 8] |=
1 << (bitpos % 8)` sets bit `8 * off + bitpos` of the memory, and `h` moves on by `delta`. -/
def addProbes (log2CacheLineBytes off : Nat) (delta : UInt32) :
    Nat → UInt32 → Bytes → Option Bytes
  | 0, _, data => some data
  | n + 1, h, data =>
    let i := 8 * off + bitpos log2CacheLineBytes h
    if i / 8 < data.length then
      addProbes log2CacheLineBytes off delta n (h + delta) (setBit data i)
    else none

/-- `AddHash(h, num_lines, num_probes, data, log2_cache_line_bytes)`. -/
def addHash (h numLines : UInt32) (numProbes : Nat) (data : Bytes) (log2CacheLineBytes : Nat) :
    Option Bytes :=
  addProbes log2CacheLineBytes (getLine h numLines <<< UInt32.ofNat log2CacheLineBytes).toNat
    (delta h) numProbes h data

/-- `PrepareHashMayMatch`: the byte offset of the line of `h` (the prefetches do nothing here). -/
def prepareHashMayMatch (h numLines : UInt32) (log2CacheLineBytes : Nat) : Nat :=
  (getLine h numLines <<< UInt32.ofNat log2CacheLineBytes).toNat

/-- The probe loop of `HashMayMatchPrepared`: `false` at the first probed bit that is clear. -/
def mayMatchProbes (log2CacheLineBytes off : Nat) (delta : UInt32) : Nat → UInt32 → Bytes → Bool
  | 0, _, _ => true
  | n + 1, h, data =>
    if testBit data (8 * off + bitpos log2CacheLineBytes h) then
      mayMatchProbes log2CacheLineBytes off delta n (h + delta) data
    else false

/-- `HashMayMatchPrepared(h, num_probes, data + byte_offset, log2_cache_line_bytes)`. -/
def hashMayMatchPrepared (h : UInt32) (numProbes : Nat) (data : Bytes)
    (byteOffset log2CacheLineBytes : Nat) : Bool :=
  mayMatchProbes log2CacheLineBytes byteOffset (delta h) numProbes h data

theorem bitpos_lt (log2CacheLineBytes : Nat) (h : UInt32) :
    bitpos log2CacheLineBytes h < 2 ^ (log2CacheLineBytes + 3) := by
  have hmask : (1 <<< (log2CacheLineBytes + 3) - 1) % 2 ^ 32 < 2 ^ (log2CacheLineBytes + 3) := by
    rw [Nat.shiftLeft_eq, Nat.one_mul]
    exact lt_of_le_of_lt (Nat.mod_le _ _) (Nat.sub_lt (Nat.two_pow_pos _) Nat.one_pos)
  rw [bitpos, UInt32.toNat_and, UInt32.toNat_ofNat']
  exact lt_of_le_of_lt Nat.and_le_right hmask

/-- A probe of the line at `off` is a bit of the bytes `off` to `off + 2 ^ log2CacheLineBytes`. -/
theorem div_eight_probe_lt (log2CacheLineBytes off : Nat) (h : UInt32) :
    (8 * off + bitpos log2CacheLineBytes h) / 8 < off + 2 ^ log2CacheLineBytes := by
  have hlt := bitpos_lt log2CacheLineBytes h
  rw [Nat.pow_add] at hlt
  omega

section Probes

variable {log2CacheLineBytes off : Nat} {delta : UInt32}

theorem length_addProbes : ∀ {n : Nat} {h : UInt32} {data data' : Bytes},
    addProbes log2CacheLineBytes off delta n h data = some data' → data'.length = data.length
  | 0, _, _, _, hrun => by cases hrun; rfl
  | n + 1, h, data, data', hrun => by
    rw [addProbes] at hrun
    split_ifs at hrun
    rw [length_addProbes hrun, length_setBit]

/-- The probes of a line find their bits in a memory that has every bit of the line the first
memory has. -/
theorem mayMatchProbes_mono {data data' : Bytes}
    (hle : ∀ j < 2 ^ (log2CacheLineBytes + 3),
      testBit data (8 * off + j) = true → testBit data' (8 * off + j) = true) :
    ∀ (n : Nat) (h : UInt32), mayMatchProbes log2CacheLineBytes off delta n h data = true →
      mayMatchProbes log2CacheLineBytes off delta n h data' = true
  | 0, _, _ => rfl
  | n + 1, h, hmay => by
    rw [mayMatchProbes] at hmay ⊢
    by_cases hbit : testBit data (8 * off + bitpos log2CacheLineBytes h) = true
    · rw [if_pos hbit] at hmay
      rw [if_pos (hle _ (bitpos_lt log2CacheLineBytes h) hbit)]
      exact mayMatchProbes_mono hle n (h + delta) hmay
    · rw [if_neg hbit] at hmay
      exact absurd hmay Bool.false_ne_true

/-- The probe loop of `AddHash` over a line that fits the memory succeeds, keeps every bit that
was set, and sets every bit the probe loop of `HashMayMatchPrepared` tests. -/
theorem addProbes_spec : ∀ (n : Nat) (h : UInt32) (data : Bytes),
    off + 2 ^ log2CacheLineBytes ≤ data.length →
      ∃ data', addProbes log2CacheLineBytes off delta n h data = some data' ∧
        (∀ i, testBit data i = true → testBit data' i = true) ∧
        mayMatchProbes log2CacheLineBytes off delta n h data' = true
  | 0, _, data, _ => ⟨data, rfl, fun _ hi => hi, rfl⟩
  | n + 1, h, data, hfit => by
    let i := 8 * off + bitpos log2CacheLineBytes h
    have hi : i / 8 < data.length :=
      lt_of_lt_of_le (div_eight_probe_lt log2CacheLineBytes off h) hfit
    obtain ⟨data', hrun, hkeep, hmay⟩ :=
      addProbes_spec n (h + delta) (setBit data i) (by rw [length_setBit]; exact hfit)
    refine ⟨data', ?_, fun j hj => hkeep j (testBit_setBit_of_testBit i hj), ?_⟩
    · rw [addProbes, if_pos hi]
      exact hrun
    · rw [mayMatchProbes, if_pos (hkeep i (testBit_setBit_self hi))]
      exact hmay

end Probes

/-- The line of `h` among `numLines` lines of 64 bytes starts at byte `h % numLines * 64`. -/
theorem prepareHashMayMatch_eq (h : UInt32) {numLines : UInt32} (hpos : 0 < numLines.toNat)
    (hlines : numLines.toNat * cacheLineSize ≤ 2 ^ 32) :
    prepareHashMayMatch h numLines log2CacheLineSize = h.toNat % numLines.toNat * cacheLineSize := by
  have hmod := Nat.mod_lt h.toNat hpos
  have hlt : h.toNat % numLines.toNat * cacheLineSize < 2 ^ 32 := by
    simp only [cacheLineSize, log2CacheLineSize] at hlines ⊢
    omega
  rw [prepareHashMayMatch, getLine, UInt32.toNat_shiftLeft, UInt32.toNat_mod, Nat.shiftLeft_eq]
  exact Nat.mod_eq_of_lt hlt

theorem addHash_eq (h numLines : UInt32) (numProbes : Nat) (data : Bytes) (log2CacheLineBytes : Nat) :
    addHash h numLines numProbes data log2CacheLineBytes =
      addProbes log2CacheLineBytes (prepareHashMayMatch h numLines log2CacheLineBytes) (delta h)
        numProbes h data := rfl

/-- The bits `KeyMayMatch` probes for the hash `h` in a filter of `numLines` lines are set in
`data`. -/
def Probed (numLines : UInt32) (numProbes : Nat) (data : Bytes) (h : UInt32) : Prop :=
  hashMayMatchPrepared h numProbes data (prepareHashMayMatch h numLines log2CacheLineSize)
    log2CacheLineSize = true

section Probed

variable {numLines : UInt32} {numProbes : Nat}

/-- A hash's probes stay set in a memory that has every bit of the filter the first one has. -/
theorem Probed.mono {data data' : Bytes} {h : UInt32} (hpos : 0 < numLines.toNat)
    (hlines : numLines.toNat * cacheLineSize ≤ 2 ^ 32)
    (hbits : ∀ i, i / 8 < numLines.toNat * cacheLineSize →
      testBit data i = true → testBit data' i = true)
    (hp : Probed numLines numProbes data h) : Probed numLines numProbes data' h := by
  refine mayMatchProbes_mono (fun j hj hb => hbits _ ?_ hb) numProbes h hp
  have hmod := Nat.mod_lt h.toNat hpos
  have hj' : j < 512 := hj
  rw [prepareHashMayMatch_eq h hpos hlines]
  simp only [cacheLineSize, log2CacheLineSize] at hlines ⊢
  omega

/-- The loop of `Finish` over the hashes, into `numLines` lines that fit the memory: it
succeeds, keeps every bit that was set, and sets the probed bits of every hash. -/
theorem foldlM_addHash_spec (hpos : 0 < numLines.toNat)
    (hlines : numLines.toNat * cacheLineSize ≤ 2 ^ 32) :
    ∀ (hs : List UInt32) (data : Bytes), numLines.toNat * cacheLineSize ≤ data.length →
      ∃ data', hs.foldlM (fun data h => addHash h numLines numProbes data log2CacheLineSize)
          data = some data' ∧
        data'.length = data.length ∧ (∀ i, testBit data i = true → testBit data' i = true) ∧
        ∀ h ∈ hs, Probed numLines numProbes data' h
  | [], data, _ => ⟨data, rfl, rfl, fun _ hi => hi, nofun⟩
  | h :: hs, data, hfit => by
    have hoff : prepareHashMayMatch h numLines log2CacheLineSize + 2 ^ log2CacheLineSize ≤
        data.length := by
      have hmod := Nat.mod_lt h.toNat hpos
      rw [prepareHashMayMatch_eq h hpos hlines]
      simp only [cacheLineSize, log2CacheLineSize] at hfit ⊢
      omega
    obtain ⟨data₁, hrun₁, hkeep₁, hmay₁⟩ :=
      @addProbes_spec log2CacheLineSize _ (delta h) numProbes h data hoff
    have hlen₁ := length_addProbes hrun₁
    obtain ⟨data', hrun, hlen, hkeep, hprobed⟩ :=
      foldlM_addHash_spec hpos hlines hs data₁ (by omega)
    refine ⟨data', ?_, by omega, fun i hi => hkeep i (hkeep₁ i hi), ?_⟩
    · rw [List.foldlM_cons, addHash_eq, bind_of_eq_some hrun₁]
      exact hrun
    · intro h' hh'
      rcases List.mem_cons.mp hh' with rfl | hmem
      · exact Probed.mono hpos hlines (fun i _ hi => hkeep i hi) hmay₁
      · exact hprobed h' hmem

/-- A run of `Finish`'s loop that succeeds leaves the memory's length as it was. -/
theorem length_foldlM_addHash : ∀ {hs : List UInt32} {data data' : Bytes},
    hs.foldlM (fun data h => addHash h numLines numProbes data log2CacheLineSize) data =
      some data' → data'.length = data.length
  | [], _, _, hrun => by cases hrun; rfl
  | h :: hs, data, data', hrun => by
    rw [List.foldlM_cons] at hrun
    cases hadd : addHash h numLines numProbes data log2CacheLineSize with
    | none => rw [hadd] at hrun; cases hrun
    | some data₁ =>
      rw [bind_of_eq_some hadd] at hrun
      rw [length_foldlM_addHash hrun, addHash_eq] at *
      exact length_addProbes hadd

end Probed

end LegacyBloomImpl

/-- `LegacyNoLocalityBloomImpl::ChooseNumProbes`: `bits_per_key * 0.69` rounded down, between
`1` and `30`.  The double product is taken as `bits_per_key * 69 / 100`; the two round to the
same integer below 100 bits a key, where none of them is a whole number, and from 45 bits on
both are clamped to `30`. -/
def chooseNumProbes (bitsPerKey : Nat) : Nat := min 30 (max 1 (bitsPerKey * 69 / 100))

theorem chooseNumProbes_pos (bitsPerKey : Nat) : 0 < chooseNumProbes bitsPerKey := by
  unfold chooseNumProbes
  omega

theorem chooseNumProbes_le (bitsPerKey : Nat) : chooseNumProbes bitsPerKey ≤ 30 := by
  unfold chooseNumProbes
  omega

/-- `FILTER_BLOCK`, the size of a FilterChunk slot, the buffer of a filter block. -/
def kFilterBlock : Nat := 2 * 1024 * 1024

/-! ### `FullFilterBlockBuilder` -/

/-- The fields of `FullFilterBlockBuilder` the filter depends on, with the bytes of the
FilterChunk buffer `local_mr` that `result` points into, and the size of `result`. -/
structure FullFilterBlockBuilder where
  mem : Bytes
  bitsPerKey : Nat
  numProbes : Nat
  hashEntries : List UInt32
  resultSize : Nat
  deriving Repr

namespace FullFilterBlockBuilder

/-- The constructor over the buffer, with `bloombits_per_key`. -/
def new (mem : Bytes) (bitsPerKey : Nat) : FullFilterBlockBuilder :=
  ⟨mem, bitsPerKey, chooseNumProbes bitsPerKey, [], 0⟩

/-- `AddKey`: the key's hash is kept unless it is the last one kept. -/
def addKey (b : FullFilterBlockBuilder) (key : Bytes) : FullFilterBlockBuilder :=
  let hash := bloomHash key
  if b.hashEntries.isEmpty || b.hashEntries.getLast? != some hash then
    { b with hashEntries := b.hashEntries ++ [hash] }
  else b

/-- `AddKey` keeps the key's hash, or finds it the last one kept. -/
theorem addKey_eq (b : FullFilterBlockBuilder) (key : Bytes) :
    ∃ e, b.addKey key = { b with hashEntries := b.hashEntries ++ e } ∧ e.length ≤ 1 ∧
      bloomHash key ∈ b.hashEntries ++ e := by
  unfold addKey
  dsimp only
  split_ifs with hnew
  · exact ⟨[bloomHash key], rfl, le_rfl, by simp⟩
  · -- not kept: the last hash kept is the key's
    simp only [Bool.or_eq_true, List.isEmpty_iff, bne_iff_ne, ne_eq, not_or, not_not] at hnew
    exact ⟨[], by cases b; simp, by simp, by simpa using List.mem_of_getLast? hnew.2⟩

/-- Fed the keys one by one, the builder keeps at most one hash a key, and the hash of every
key. -/
theorem foldl_addKey (keys : List Bytes) : ∀ b : FullFilterBlockBuilder,
    ∃ hs, keys.foldl addKey b = { b with hashEntries := b.hashEntries ++ hs } ∧
      hs.length ≤ keys.length ∧ ∀ u ∈ keys, bloomHash u ∈ b.hashEntries ++ hs := by
  induction keys with
  | nil => exact fun b => ⟨[], by cases b; simp, le_rfl, nofun⟩
  | cons key keys ih =>
    intro b
    obtain ⟨e, he, hlen, hkey⟩ := addKey_eq b key
    obtain ⟨hs, hfold, hlen', hkeys⟩ := ih (b.addKey key)
    rw [he] at hfold hkeys
    refine ⟨e ++ hs, ?_, ?_, ?_⟩
    · rw [List.foldl_cons, he, hfold]
      simp
    · simp only [List.length_append, List.length_cons]
      omega
    · intro u hu
      rcases List.mem_cons.mp hu with rfl | hu
      · rw [← List.append_assoc]
        exact List.mem_append_left hs hkey
      · simpa using hkeys u hu

/-- `GetTotalBitsForLocality`, in 32-bit arithmetic: the bits rounded up to an odd number of
cache lines. -/
def getTotalBitsForLocality (totalBits : UInt32) : UInt32 :=
  let numLines :=
    (totalBits + UInt32.ofNat (cacheLineSize * 8) - 1) / UInt32.ofNat (cacheLineSize * 8)
  let numLines := if numLines % 2 = 0 then numLines + 1 else numLines
  numLines * UInt32.ofNat (cacheLineSize * 8)

/-- `CalculateSpace(num_entry, &total_bits, &num_lines)`: the size of the filter with its five
bytes of metadata, then `total_bits` and `num_lines`.  `num_entry * bits_per_key_` is an `int`
product, undefined from `2 ^ 31` on. -/
def calculateSpace (b : FullFilterBlockBuilder) (numEntry : Nat) :
    Option (UInt32 × UInt32 × UInt32) :=
  if numEntry ≠ 0 then
    if numEntry * b.bitsPerKey < 2 ^ 31 then
      let totalBits := getTotalBitsForLocality (UInt32.ofNat (numEntry * b.bitsPerKey))
      some (totalBits / 8 + 5, totalBits, totalBits / UInt32.ofNat (cacheLineSize * 8))
    else none
  else some (5, 0, 0)

/-- `CACHE_LINE_SIZE * 8`, the bits of a cache line. -/
theorem ofNat_cacheLineBits : UInt32.ofNat (cacheLineSize * 8) = 512 := rfl

/-- Below `2 ^ 24 - 512` bits, `GetTotalBitsForLocality` makes one to 32767 lines of 512
bits. -/
theorem getTotalBitsForLocality_eq {bits : Nat} (hpos : 0 < bits) (hle : bits ≤ 2 ^ 24 - 512) :
    ∃ numLines, 0 < numLines ∧ numLines ≤ 32767 ∧
      (getTotalBitsForLocality (UInt32.ofNat bits)).toNat = numLines * 512 := by
  have hq : ((UInt32.ofNat bits + 512 - 1) / 512).toNat = (bits + 511) / 512 := by
    simp only [UInt32.toNat_div, UInt32.toNat_sub, UInt32.toNat_add, UInt32.toNat_ofNat',
      UInt32.toNat_ofNat, Nat.reducePow, Nat.reduceMod]
    omega
  unfold getTotalBitsForLocality
  dsimp only
  rw [ofNat_cacheLineBits]
  split_ifs with heven
  · -- an even count of lines is made odd
    have hev : (bits + 511) / 512 % 2 = 0 := by
      have h2 := congrArg UInt32.toNat heven
      rw [UInt32.toNat_mod, hq] at h2
      exact h2
    refine ⟨(bits + 511) / 512 + 1, by omega, by omega, ?_⟩
    simp only [UInt32.toNat_mul, UInt32.toNat_add, hq, UInt32.toNat_ofNat]
    omega
  · refine ⟨(bits + 511) / 512, by omega, by omega, ?_⟩
    simp only [UInt32.toNat_mul, hq, UInt32.toNat_ofNat]
    omega

/-- Under the bound, `CalculateSpace` gives a filter of at most 32767 lines, with at least one
when there are hashes. -/
theorem calculateSpace_spec (b : FullFilterBlockBuilder) {n : Nat}
    (hfit : n * b.bitsPerKey ≤ 2 ^ 24 - 512) (hbits : 0 < b.bitsPerKey) :
    ∃ numLines, (0 < n → 0 < numLines) ∧ numLines ≤ 32767 ∧
      b.calculateSpace n = some (UInt32.ofNat (numLines * 64 + 5), UInt32.ofNat (numLines * 512),
        UInt32.ofNat numLines) := by
  rcases Nat.eq_zero_or_pos n with rfl | hn
  · exact ⟨0, nofun, by omega, rfl⟩
  · have hpos : 0 < n * b.bitsPerKey := Nat.mul_pos hn hbits
    obtain ⟨numLines, hlpos, hlle, htotal⟩ := getTotalBitsForLocality_eq hpos hfit
    have htb : getTotalBitsForLocality (UInt32.ofNat (n * b.bitsPerKey)) =
        UInt32.ofNat (numLines * 512) :=
      UInt32.toNat_inj.mp (by rw [htotal, UInt32.toNat_ofNat']; omega)
    refine ⟨numLines, fun _ => hlpos, hlle, ?_⟩
    rw [calculateSpace, if_pos (by omega), if_pos (by omega)]
    dsimp only
    rw [htb, ofNat_cacheLineBits]
    congr 3
    · apply UInt32.toNat_inj.mp
      simp only [UInt32.toNat_add, UInt32.toNat_div, UInt32.toNat_ofNat', UInt32.toNat_ofNat,
        Nat.reducePow, Nat.reduceMod]
      omega
    · apply UInt32.toNat_inj.mp
      simp only [UInt32.toNat_div, UInt32.toNat_ofNat', UInt32.toNat_ofNat, Nat.reducePow,
        Nat.reduceMod]
      omega

/-- `Finish`: every hash into the filter when it has lines, then `num_probes_` and `num_lines`
in the five bytes after its `total_bits / 8`; `result` is the filter with that metadata. -/
def finish (b : FullFilterBlockBuilder) : Option FullFilterBlockBuilder := do
  let (_, totalBits, numLines) ← b.calculateSpace b.hashEntries.length
  let data ← if totalBits ≠ 0 ∧ numLines ≠ 0 then
      b.hashEntries.foldlM
        (fun data h => LegacyBloomImpl.addHash h numLines b.numProbes data log2CacheLineSize) b.mem
    else some b.mem
  let data ← storeAt data (totalBits.toNat / 8) [lowByte b.numProbes]
  let data ← storeAt data (totalBits.toNat / 8 + 1) (putFixed32 numLines)
  some { b with mem := data, hashEntries := [], resultSize := totalBits.toNat / 8 + 5 }

/-- `Finish` of `numLines` lines that fit the buffer with the metadata: the buffer then holds
the filter, with the probed bits of every hash set, then `num_probes_` and `num_lines`. -/
theorem finish_spec (b : FullFilterBlockBuilder) {numLines : Nat}
    (hcalc : b.calculateSpace b.hashEntries.length = some (UInt32.ofNat (numLines * 64 + 5),
      UInt32.ofNat (numLines * 512), UInt32.ofNat numLines))
    (hlines : b.hashEntries ≠ [] → 0 < numLines) (hsmall : numLines ≤ 32767)
    (hfit : numLines * 64 + 5 ≤ b.mem.length) :
    ∃ data, b.finish =
        some { b with mem := data, hashEntries := [], resultSize := numLines * 64 + 5 } ∧
      data.length = b.mem.length ∧
      data.take (numLines * 64 + 5) =
        data.take (numLines * 64) ++ lowByte b.numProbes :: putFixed32 (UInt32.ofNat numLines) ∧
      ∀ h ∈ b.hashEntries, LegacyBloomImpl.Probed (UInt32.ofNat numLines) b.numProbes data h := by
  have htoNat : (UInt32.ofNat numLines).toNat = numLines := by
    rw [UInt32.toNat_ofNat']
    omega
  have hbytes : (UInt32.ofNat (numLines * 512)).toNat / 8 = numLines * 64 := by
    rw [UInt32.toNat_ofNat']
    omega
  have hlines' : (UInt32.ofNat numLines).toNat * cacheLineSize ≤ 2 ^ 32 := by
    simp only [htoNat, cacheLineSize, log2CacheLineSize]
    omega
  -- the filter: every hash's probes in its line, or the buffer as it was when there are no lines
  obtain ⟨data₁, hrun₁, hlen₁, hprobed₁⟩ : ∃ data₁,
      (if UInt32.ofNat (numLines * 512) ≠ 0 ∧ UInt32.ofNat numLines ≠ 0 then
        b.hashEntries.foldlM (fun data h =>
          LegacyBloomImpl.addHash h (UInt32.ofNat numLines) b.numProbes data log2CacheLineSize) b.mem
      else some b.mem) = some data₁ ∧ data₁.length = b.mem.length ∧
      ∀ h ∈ b.hashEntries, LegacyBloomImpl.Probed (UInt32.ofNat numLines) b.numProbes data₁ h := by
    rcases Nat.eq_zero_or_pos numLines with h0 | hpos
    · have hnil : b.hashEntries = [] := by
        by_contra hne
        have := hlines hne
        omega
      refine ⟨b.mem, ?_, rfl, by simp [hnil]⟩
      rw [if_neg (by simp [h0])]
    · have hne : UInt32.ofNat numLines ≠ 0 := fun h => by
        have := congrArg UInt32.toNat h
        rw [htoNat] at this
        simp at this
        omega
      have hne' : UInt32.ofNat (numLines * 512) ≠ 0 := fun h => by
        have := congrArg UInt32.toNat h
        rw [UInt32.toNat_ofNat'] at this
        simp at this
        omega
      obtain ⟨data₁, hrun, hlen, -, hprobed⟩ :=
        @LegacyBloomImpl.foldlM_addHash_spec (UInt32.ofNat numLines) b.numProbes
          (by rw [htoNat]; exact hpos) hlines' b.hashEntries b.mem
          (by simp only [htoNat, cacheLineSize, log2CacheLineSize]; omega)
      exact ⟨data₁, by rw [if_pos ⟨hne', hne⟩]; exact hrun, hlen, hprobed⟩
  -- then `num_probes_` and `num_lines`, one store after the other
  obtain ⟨data₂, hst₂⟩ : ∃ data₂,
      storeAt data₁ (numLines * 64) [lowByte b.numProbes] = some data₂ :=
    ⟨_, storeAt_eq_some (by simp; omega)⟩
  obtain ⟨data₃, hst₃⟩ : ∃ data₃,
      storeAt data₂ (numLines * 64 + 1) (putFixed32 (UInt32.ofNat numLines)) = some data₃ :=
    ⟨_, storeAt_eq_some (by rw [length_storeAt hst₂]; simp; omega)⟩
  have hst := storeAt_storeAt hst₂ hst₃
  have htake := take_storeAt hst
  rw [show numLines * 64 + ([lowByte b.numProbes] ++ putFixed32 (UInt32.ofNat numLines)).length =
    numLines * 64 + 5 by simp] at htake
  have hfilter : data₃.take (numLines * 64) = data₁.take (numLines * 64) := by
    have h := congrArg (List.take (numLines * 64)) htake
    rw [List.take_take, Nat.min_eq_left (by omega), List.take_left' (by simp; omega)] at h
    exact h
  refine ⟨data₃, ?_, ?_, ?_, ?_⟩
  · rw [finish, hcalc, bind_of_eq_some rfl]
    dsimp only
    rw [hbytes]
    -- the continuation of the `if` stands in both of its branches
    split_ifs at hrun₁ ⊢ <;>
      rw [bind_of_eq_some hrun₁, bind_of_eq_some hst₂, bind_of_eq_some hst₃]
  · rw [length_storeAt hst₃, length_storeAt hst₂, hlen₁]
  · rw [htake, hfilter]
    rfl
  · intro h hh
    refine LegacyBloomImpl.Probed.mono (by rw [htoNat]; exact hlines (List.ne_nil_of_mem hh))
      hlines' (fun i hi hb => ?_) (hprobed₁ h hh)
    rw [testBit_storeAt_of_lt hst (by rw [htoNat] at hi; simpa [cacheLineSize, log2CacheLineSize] using hi)]
    exact hb

/-- `Finish` writes past the buffer when `num_probes_` falls after its end. -/
theorem finish_eq_none (b : FullFilterBlockBuilder) {space totalBits numLines : UInt32}
    (hcalc : b.calculateSpace b.hashEntries.length = some (space, totalBits, numLines))
    (hlt : b.mem.length < totalBits.toNat / 8 + 1) : b.finish = none := by
  rw [finish, hcalc, bind_of_eq_some rfl]
  dsimp only
  split_ifs with hlines
  · cases hrun : b.hashEntries.foldlM (fun data h =>
        LegacyBloomImpl.addHash h numLines b.numProbes data log2CacheLineSize) b.mem with
    | none => rfl
    | some data =>
      rw [bind_of_eq_some rfl,
        storeAt_eq_none (by simp [LegacyBloomImpl.length_foldlM_addHash hrun]; omega)]
      rfl
  · rw [bind_of_eq_some rfl, storeAt_eq_none (by simp; omega)]
    rfl

/-- `TableBuilder_ComputeSide::FinishFilterBlock` with `kNoCompression`: the filter finished and
the block trailer appended to `result` in the buffer, the type byte and the masked CRC, which is
not modelled (`crc` stands for it); with the size `FlushFilter` writes to the remote slot. -/
def finishFilterBlock (b : FullFilterBlockBuilder) (crc : UInt32) : Option (Bytes × Nat) := do
  let b ← b.finish
  let data ← storeAt b.mem b.resultSize (0 :: putFixed32 crc)
  some (data, b.resultSize + kBlockTrailerSize)

/-- `FinishFilterBlock` of a filter that fits the buffer with its metadata and the trailer: the
block sent holds the filter, with the probed bits of every hash set, `num_probes_`,
`num_lines`, and the trailer. -/
theorem finishFilterBlock_spec (b : FullFilterBlockBuilder) (crc : UInt32) {numLines : Nat}
    (hcalc : b.calculateSpace b.hashEntries.length = some (UInt32.ofNat (numLines * 64 + 5),
      UInt32.ofNat (numLines * 512), UInt32.ofNat numLines))
    (hlines : b.hashEntries ≠ [] → 0 < numLines) (hsmall : numLines ≤ 32767)
    (hfit : numLines * 64 + 10 ≤ b.mem.length) :
    ∃ data filter, b.finishFilterBlock crc = some (data, numLines * 64 + 10) ∧
      data.take (numLines * 64 + 10) = filter ++ lowByte b.numProbes ::
        putFixed32 (UInt32.ofNat numLines) ++ 0 :: putFixed32 crc ∧
      filter.length = numLines * 64 ∧
      ∀ h ∈ b.hashEntries, LegacyBloomImpl.Probed (UInt32.ofNat numLines) b.numProbes filter h := by
  obtain ⟨data, hfin, hlen, htake, hprobed⟩ := b.finish_spec hcalc hlines hsmall (by omega)
  obtain ⟨data', hst⟩ : ∃ data',
      storeAt data (numLines * 64 + 5) (0 :: putFixed32 crc) = some data' :=
    ⟨_, storeAt_eq_some (by simp; omega)⟩
  have htoNat : (UInt32.ofNat numLines).toNat = numLines := by
    rw [UInt32.toNat_ofNat']
    omega
  refine ⟨data', data.take (numLines * 64), ?_, ?_, by simp; omega, fun h hh => ?_⟩
  · rw [finishFilterBlock, bind_of_eq_some hfin]
    dsimp only
    rw [bind_of_eq_some hst]
    rfl
  · rw [show numLines * 64 + 10 = numLines * 64 + 5 + (0 :: putFixed32 crc).length by simp,
      take_storeAt hst, htake, List.append_assoc]
  · -- the filter is the buffer's first `numLines * 64` bytes
    refine LegacyBloomImpl.Probed.mono (by rw [htoNat]; exact hlines (List.ne_nil_of_mem hh))
      (by simp only [htoNat, cacheLineSize, log2CacheLineSize]; omega) (fun i hi hb => ?_)
      (hprobed h hh)
    rw [testBit_take (by simpa [htoNat, cacheLineSize, log2CacheLineSize] using hi)]
    exact hb

end FullFilterBlockBuilder

/-- `ReadFilterBlock` of the `remote_mr->length` bytes of a remote filter slot: the contents
before the trailer when its type byte is `kNoCompression`, else `bad block type`.  The checksum,
compared only under `verify_checksums`, is not modelled. -/
def readFilterBlock (block : Bytes) : Option Bytes :=
  let n := block.length - kBlockTrailerSize
  if (block.getD n 0).val = 0 then some (block.take n) else none

/-- A block with a `kNoCompression` trailer reads back as its contents. -/
theorem readFilterBlock_append (contents : Bytes) (crc : UInt32) :
    readFilterBlock (contents ++ 0 :: putFixed32 crc) = some contents := by
  have hn : (contents ++ 0 :: putFixed32 crc).length - kBlockTrailerSize = contents.length := by
    simp [kBlockTrailerSize]
  rw [readFilterBlock, hn, if_pos (by simp), List.take_left' rfl]

/-! ### `FullFilterBlockReader` -/

/-- `static_cast<int>` of a `char`: the byte as a signed value. -/
def signedByte (b : Fin 256) : Int := if b.val < 128 then b.val else b.val - 256

/-- `DecodeFixed32(data + p)`: the four bytes from `p` on, least significant first. -/
def decodeFixed32 (mem : Bytes) (p : Nat) : UInt32 :=
  UInt32.ofNat (LittleEndian.decode (range mem p (p + 4)))

/-- The fields of `FullFilterBlockReader` that `KeyMayMatch` reads. -/
structure FullFilterBlockReader where
  data : Bytes
  numProbes : Int
  numLines : UInt32
  log2CacheLineSize : Nat
  deriving Repr

theorem signedByte_lowByte {v : Nat} (h : v < 128) : signedByte (lowByte v) = v := by
  rw [signedByte, lowByte_of_lt (by omega), if_pos h]

theorem decodeFixed32_append (pre : Bytes) (v : UInt32) :
    decodeFixed32 (pre ++ putFixed32 v) pre.length = v := by
  have hrange := range_append pre (putFixed32 v)
  rw [List.length_append, length_putFixed32] at hrange
  -- the bound of the encoding is stated as a power of 256, the bound of the value as one of 2
  have hmod : v.toNat % 256 ^ 4 = v.toNat := Nat.mod_eq_of_lt (Nat.lt_of_lt_of_eq (UInt32.toNat_lt v) (by decide))
  rw [decodeFixed32, hrange, putFixed32, LittleEndian.decode_encode]
  exact (congrArg UInt32.ofNat hmod).trans (UInt32.ofNat_toNat)

namespace FullFilterBlockReader

/-- The constructor over `contents`; `none` where it calls `exit(1)`.  Contents of five bytes
or fewer are reported corrupt and read on; below five, the metadata reads fall outside them.
When `num_lines * CACHE_LINE_SIZE` is not the length of the filter but a multiple of `num_lines`
is, `log2_cache_line_size_` keeps its initial `0`. -/
def new (contents : Bytes) : Option FullFilterBlockReader :=
  let lenWithMeta := contents.length
  if lenWithMeta < 5 then none
  else
    let numProbes := signedByte (contents.getD (lenWithMeta - 5) 0)
    if numProbes < 1 then none
    else
      let len := lenWithMeta - 5
      let numLines := decodeFixed32 contents (lenWithMeta - 4)
      if numLines * UInt32.ofNat cacheLineSize = UInt32.ofNat len then
        some ⟨contents, numProbes, numLines, DLSM.log2CacheLineSize⟩
      else if numLines = 0 ∨ UInt32.ofNat len % numLines ≠ 0 then none
      else some ⟨contents, numProbes, numLines, 0⟩

/-- Over a filter of `numLines` lines of 64 bytes followed by `num_probes` and `num_lines`, the
constructor finds the common case: lines of `CACHE_LINE_SIZE`. -/
theorem new_eq (filter : Bytes) {numProbes numLines : Nat} (hprobes : 1 ≤ numProbes)
    (hprobes' : numProbes < 128) (hlen : filter.length = numLines * cacheLineSize)
    (hlines : numLines * cacheLineSize < 2 ^ 32) :
    new (filter ++ lowByte numProbes :: putFixed32 (UInt32.ofNat numLines)) =
      some ⟨filter ++ lowByte numProbes :: putFixed32 (UInt32.ofNat numLines), numProbes,
        UInt32.ofNat numLines, DLSM.log2CacheLineSize⟩ := by
  have hcontents : filter ++ lowByte numProbes :: putFixed32 (UInt32.ofNat numLines) =
      (filter ++ [lowByte numProbes]) ++ putFixed32 (UInt32.ofNat numLines) := by simp
  have hlenMeta : (filter ++ lowByte numProbes :: putFixed32 (UInt32.ofNat numLines)).length =
      filter.length + 5 := by simp
  have hprobe : (filter ++ lowByte numProbes :: putFixed32 (UInt32.ofNat numLines)).getD
      filter.length 0 = lowByte numProbes := by simp
  have hdecode : decodeFixed32 (filter ++ lowByte numProbes :: putFixed32 (UInt32.ofNat numLines))
      (filter.length + 1) = UInt32.ofNat numLines := by
    rw [hcontents, show filter.length + 1 = (filter ++ [lowByte numProbes]).length by simp,
      decodeFixed32_append]
  have hcommon : UInt32.ofNat numLines * UInt32.ofNat cacheLineSize = UInt32.ofNat filter.length := by
    apply UInt32.toNat_inj.mp
    simp only [UInt32.toNat_mul, UInt32.toNat_ofNat', hlen, cacheLineSize, DLSM.log2CacheLineSize,
      Nat.reducePow, Nat.reduceMod] at hlines ⊢
    rw [Nat.mod_eq_of_lt (by omega : numLines < 4294967296)]
  unfold new
  dsimp only
  rw [hlenMeta, if_neg (by omega), Nat.add_sub_cancel, hprobe, signedByte_lowByte hprobes',
    if_neg (by omega), show filter.length + 5 - 4 = filter.length + 1 by omega, hdecode,
    if_pos hcommon]

/-- `KeyMayMatch`; `none` on a filter of no lines, where `GetLine` divides by zero. -/
def keyMayMatch (r : FullFilterBlockReader) (key : Bytes) : Option Bool :=
  let hash := bloomHash key
  if r.numLines = 0 then none
  else
    let byteOffset := LegacyBloomImpl.prepareHashMayMatch hash r.numLines r.log2CacheLineSize
    some (LegacyBloomImpl.hashMayMatchPrepared hash r.numProbes.toNat r.data byteOffset
      r.log2CacheLineSize)

/-- `KeyMayMatch` of a key whose probed bits are set, over lines of the filter. -/
theorem keyMayMatch_of_probed (r : FullFilterBlockReader) (key : Bytes) (hlines : r.numLines ≠ 0)
    (hlog : r.log2CacheLineSize = DLSM.log2CacheLineSize)
    (hp : LegacyBloomImpl.Probed r.numLines r.numProbes.toNat r.data (bloomHash key)) :
    r.keyMayMatch key = some true := by
  unfold keyMayMatch
  rw [if_neg hlines, hlog]
  exact congrArg some hp

end FullFilterBlockReader

/-- The filter `Table::ReadFilter` reads back for a table whose builder fed `keys` to the
filter over the FilterChunk buffer `mem`: the block `FinishFilterBlock` left in the buffer, as
`FlushFilter` sends it and `ReadFilterBlock` reads it, under a new `FullFilterBlockReader`. -/
def readBackFilter (mem : Bytes) (bitsPerKey : Nat) (crc : UInt32) (keys : List Bytes) :
    Option FullFilterBlockReader := do
  let b := keys.foldl FullFilterBlockBuilder.addKey (FullFilterBlockBuilder.new mem bitsPerKey)
  let (block, size) ← b.finishFilterBlock crc
  let contents ← readFilterBlock (block.take size)
  FullFilterBlockReader.new contents

end DLSM
