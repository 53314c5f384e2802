import DLSM.Format.Coding
import DLSM.Lib.ByteRange

/-! The varint decoders of `util/coding` as the source declares them, over a memory and the
pointer range `[p, limit)`: `GetVarint32PtrFallback` and `GetVarint64Ptr` are the loop
`Varint.decodeAt` up to shift 28 or 63, and the inline `GetVarint32Ptr` first takes a byte
without its high bit as the whole value.  Each returns the value and the pointer past its last
byte, or `nullptr`.  Over the bytes of the range they are the decoders on lists that the rest of
the development uses, so the codes of `EncodeVarint32` and `EncodeVarint64` read back whole, the
pointer `VarintLength` bytes on; the fast path is the first round of the fallback loop; no
decoder reads a byte at or beyond `limit`; and each fails when the five, or ten, bytes its shifts
admit all continue the number. -/

namespace DLSM

open ByteCoding

/-- `VarintLength`: one byte, and one more for each seven bits above the first seven. -/
def varintLength (v : Nat) : Nat := if v ≥ 128 then varintLength (v >>> 7) + 1 else 1
termination_by v
decreasing_by rw [Nat.shiftRight_eq_div_pow]; omega

theorem length_encode_eq_varintLength (v : Nat) : (Varint.encode v).length = varintLength v := by
  induction v using Nat.strongRecOn with
  | ind v ih =>
    rw [varintLength]
    split_ifs with h
    · have hlt : v / 128 < v := by omega
      rw [Varint.encode_of_le h, List.length_cons, ih _ hlt, Nat.shiftRight_eq_div_pow]
    · rw [Varint.encode_of_lt (by omega), List.length_singleton]

@[simp] theorem length_encodeVarint32 (v : UInt32) :
    (encodeVarint32 v).length = varintLength v.toNat := by
  rw [encodeVarint32_eq, length_encode_eq_varintLength]

@[simp] theorem length_encodeVarint64 (v : Nat) :
    (encodeVarint64 v).length = varintLength v := by
  rw [encodeVarint64_eq, length_encode_eq_varintLength]

theorem getVarint64Ptr_encodeVarint64 (w : UInt64) (rest : Bytes) :
    getVarint64Ptr (encodeVarint64 w.toNat ++ rest) = some (w.toNat, rest) := by
  rw [getVarint64Ptr, encodeVarint64_eq]
  exact Varint.decode_encode w.toNat_lt (k := 10) (by decide) (w.toNat_lt.trans (by decide))
    (by decide) rest

theorem getVarint32PtrFallback_encodeVarint32 (v : UInt32) (rest : Bytes) :
    getVarint32PtrFallback (encodeVarint32 v ++ rest) = some (v.toNat, rest) := by
  rw [← getVarint32Ptr_eq]
  exact getVarint32Ptr_putVarint32 v rest

namespace Ptr

/-- `GetVarint32PtrFallback(p, limit, &value)`: the loop for a 32-bit value, shifts `0` to `28`. -/
def getVarint32PtrFallback (mem : Bytes) (p limit : Nat) : Option (Nat × Nat) :=
  Varint.decodeAt 32 28 mem limit 0 0 p

/-- `GetVarint64Ptr(p, limit, &value)`: the loop for a 64-bit value, shifts `0` to `63`. -/
def getVarint64Ptr (mem : Bytes) (p limit : Nat) : Option (Nat × Nat) :=
  Varint.decodeAt 64 63 mem limit 0 0 p

/-- `GetVarint32Ptr(p, limit, &value)`: a byte before `limit` without its high bit is the value,
else the fallback loop. -/
def getVarint32Ptr (mem : Bytes) (p limit : Nat) : Option (Nat × Nat) :=
  if p < limit ∧ (mem.getD p 0).val &&& 128 = 0 then some ((mem.getD p 0).val, p + 1)
  else getVarint32PtrFallback mem p limit

variable {mem : Bytes} {p limit : Nat}

/-- The fast path of `GetVarint32Ptr` is the first round of the fallback loop. -/
theorem getVarint32Ptr_eq_fallback (mem : Bytes) (p limit : Nat) :
    getVarint32Ptr mem p limit = getVarint32PtrFallback mem p limit := by
  unfold getVarint32Ptr
  split_ifs with h
  · have hlt : (mem.getD p 0).val < 2 ^ 32 := by omega
    rw [getVarint32PtrFallback, Varint.decodeAt, if_pos ⟨Nat.zero_le 28, h.1⟩,
      if_neg (not_not.2 h.2), Nat.shiftLeft_zero, Nat.zero_or, Nat.mod_eq_of_lt hlt]
  · rfl

theorem getVarint32PtrFallback_eq (hlimit : limit ≤ mem.length) (hp : p ≤ limit) :
    getVarint32PtrFallback mem p limit =
      (DLSM.getVarint32PtrFallback (range mem p limit)).map fun r => (r.1, limit - r.2.length) :=
  Varint.decodeAt_eq hlimit 0 0 p hp

theorem getVarint64Ptr_eq (hlimit : limit ≤ mem.length) (hp : p ≤ limit) :
    getVarint64Ptr mem p limit =
      (DLSM.getVarint64Ptr (range mem p limit)).map fun r => (r.1, limit - r.2.length) :=
  Varint.decodeAt_eq hlimit 0 0 p hp

/-- The code of `EncodeVarint32` at `p` reads back whole, `VarintLength` bytes on. -/
theorem getVarint32Ptr_encodeVarint32 (v : UInt32) (pre suffix : Bytes) :
    getVarint32Ptr (pre ++ encodeVarint32 v ++ suffix) pre.length
        (pre ++ encodeVarint32 v ++ suffix).length =
      some (v.toNat, pre.length + varintLength v.toNat) := by
  rw [List.append_assoc, getVarint32Ptr_eq_fallback,
    getVarint32PtrFallback_eq (Nat.le_refl _) (by simp), range_append,
    getVarint32PtrFallback_encodeVarint32]
  simp only [Option.map_some, List.length_append, length_encodeVarint32]
  congr 2
  omega

/-- The code of `EncodeVarint64` at `p` reads back whole, `VarintLength` bytes on. -/
theorem getVarint64Ptr_encodeVarint64 (w : UInt64) (pre suffix : Bytes) :
    getVarint64Ptr (pre ++ encodeVarint64 w.toNat ++ suffix) pre.length
        (pre ++ encodeVarint64 w.toNat ++ suffix).length =
      some (w.toNat, pre.length + varintLength w.toNat) := by
  rw [List.append_assoc, getVarint64Ptr_eq (Nat.le_refl _) (by simp), range_append,
    DLSM.getVarint64Ptr_encodeVarint64]
  simp only [Option.map_some, List.length_append, length_encodeVarint64]
  congr 2
  omega

section Bounds

variable {mem' : Bytes}

/-- The decoders read no byte at or beyond `limit`. -/
theorem getVarint32PtrFallback_congr (h : ∀ i < limit, mem.getD i 0 = mem'.getD i 0) :
    getVarint32PtrFallback mem p limit = getVarint32PtrFallback mem' p limit :=
  Varint.decodeAt_congr h 0 0 p

theorem getVarint64Ptr_congr (h : ∀ i < limit, mem.getD i 0 = mem'.getD i 0) :
    getVarint64Ptr mem p limit = getVarint64Ptr mem' p limit :=
  Varint.decodeAt_congr h 0 0 p

theorem getVarint32Ptr_congr (h : ∀ i < limit, mem.getD i 0 = mem'.getD i 0) :
    getVarint32Ptr mem p limit = getVarint32Ptr mem' p limit := by
  rw [getVarint32Ptr_eq_fallback, getVarint32Ptr_eq_fallback, getVarint32PtrFallback_congr h]

/-- With no byte that ends the number among the five after `p`, the 32-bit loop fails. -/
theorem getVarint32PtrFallback_eq_none
    (h : ∀ i < min (p + 5) limit, p ≤ i → (mem.getD i 0).val &&& 128 ≠ 0) :
    getVarint32PtrFallback mem p limit = none :=
  Varint.decodeAt_eq_none 0 0 p h

/-- With no byte that ends the number among the ten after `p`, the 64-bit loop fails. -/
theorem getVarint64Ptr_eq_none
    (h : ∀ i < min (p + 10) limit, p ≤ i → (mem.getD i 0).val &&& 128 ≠ 0) :
    getVarint64Ptr mem p limit = none :=
  Varint.decodeAt_eq_none 0 0 p h

/-- So does `GetVarint32Ptr`, whose fast path is that loop's first round. -/
theorem getVarint32Ptr_eq_none
    (h : ∀ i < min (p + 5) limit, p ≤ i → (mem.getD i 0).val &&& 128 ≠ 0) :
    getVarint32Ptr mem p limit = none := by
  rw [getVarint32Ptr_eq_fallback, getVarint32PtrFallback_eq_none h]

end Bounds

end Ptr

/-- The varint codec of `util/coding` over pointer ranges.  The codes of `EncodeVarint32` and
`EncodeVarint64` at `p`, whatever follows them, read back whole through `GetVarint32Ptr` and
`GetVarint64Ptr`, the pointer `VarintLength` bytes on.  The fast path of `GetVarint32Ptr` agrees
with `GetVarint32PtrFallback` everywhere.  No decoder reads a byte at or beyond `limit`, and each
returns `nullptr` when none of the first five, or ten, bytes of the range ends the number. -/
theorem getVarintPtr_codec :
    (∀ (v : UInt32) (pre suffix : Bytes),
      Ptr.getVarint32Ptr (pre ++ encodeVarint32 v ++ suffix) pre.length
          (pre ++ encodeVarint32 v ++ suffix).length =
        some (v.toNat, pre.length + varintLength v.toNat)) ∧
    (∀ (w : UInt64) (pre suffix : Bytes),
      Ptr.getVarint64Ptr (pre ++ encodeVarint64 w.toNat ++ suffix) pre.length
          (pre ++ encodeVarint64 w.toNat ++ suffix).length =
        some (w.toNat, pre.length + varintLength w.toNat)) ∧
    (∀ (mem : Bytes) (p limit : Nat),
      Ptr.getVarint32Ptr mem p limit = Ptr.getVarint32PtrFallback mem p limit) ∧
    (∀ (mem mem' : Bytes) (p limit : Nat), (∀ i < limit, mem.getD i 0 = mem'.getD i 0) →
      Ptr.getVarint32Ptr mem p limit = Ptr.getVarint32Ptr mem' p limit ∧
        Ptr.getVarint32PtrFallback mem p limit = Ptr.getVarint32PtrFallback mem' p limit ∧
        Ptr.getVarint64Ptr mem p limit = Ptr.getVarint64Ptr mem' p limit) ∧
    (∀ (mem : Bytes) (p limit : Nat),
      (∀ i < min (p + 5) limit, p ≤ i → (mem.getD i 0).val &&& 128 ≠ 0) →
        Ptr.getVarint32Ptr mem p limit = none ∧ Ptr.getVarint32PtrFallback mem p limit = none) ∧
    (∀ (mem : Bytes) (p limit : Nat),
      (∀ i < min (p + 10) limit, p ≤ i → (mem.getD i 0).val &&& 128 ≠ 0) →
        Ptr.getVarint64Ptr mem p limit = none) :=
  ⟨Ptr.getVarint32Ptr_encodeVarint32, Ptr.getVarint64Ptr_encodeVarint64,
    Ptr.getVarint32Ptr_eq_fallback,
    fun _ _ _ _ h => ⟨Ptr.getVarint32Ptr_congr h, Ptr.getVarint32PtrFallback_congr h,
      Ptr.getVarint64Ptr_congr h⟩,
    fun _ _ _ h => ⟨Ptr.getVarint32Ptr_eq_none h, Ptr.getVarint32PtrFallback_eq_none h⟩,
    fun _ _ _ h => Ptr.getVarint64Ptr_eq_none h⟩

/-- Five continuation bytes: `GetVarint32Ptr` gives `nullptr` though a sixth byte would end the
number. -/
theorem getVarintPtr_codec_five_continuations :
    Ptr.getVarint32Ptr [128, 128, 128, 128, 128, 1] 0 6 = none ∧
      Ptr.getVarint32PtrFallback [128, 128, 128, 128, 128, 1] 0 6 = none :=
  getVarintPtr_codec.2.2.2.2.1 _ 0 6 (by decide)

end DLSM
