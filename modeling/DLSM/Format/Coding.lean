import DLSM.Lib.ByteCoding
import DLSM.Format.Key

/-! The codes of `util/coding.h` and `util/coding.cc` over a byte string, on the little-endian
platforms the code runs on: `PutFixed16/32/64` write the value's bytes least significant first,
`EncodeVarint32` writes a 32-bit value in one to five base-128 bytes, one case per length, and
`EncodeVarint64` in a loop.  `GetVarint32PtrFallback` and `GetVarint64Ptr` are one loop that
ORs the payload into a 32- or a 64-bit accumulator, up to shift 28 or 63; `GetVarint32Ptr` first
tries the one-byte fast path.  A `Get` function's `Slice` argument is the input here, and its
update is the rest of the input it returns. -/

namespace DLSM

open ByteCoding

/-- `PutFixed16`. -/
def putFixed16 (value : UInt16) : Bytes := LittleEndian.encode 2 value.toNat

/-- `PutFixed32`. -/
def putFixed32 (value : UInt32) : Bytes := LittleEndian.encode 4 value.toNat

/-- `PutFixed64`. -/
def putFixed64 (value : UInt64) : Bytes := LittleEndian.encode 8 value.toNat

/-- `GetFixed16`: `false` on fewer than two bytes. -/
def getFixed16 (input : Bytes) : Option (UInt16 × Bytes) :=
  (LittleEndian.read 2 input).map fun (v, rest) => (UInt16.ofNat v, rest)

/-- `GetFixed32`: `false` on fewer than four bytes. -/
def getFixed32 (input : Bytes) : Option (UInt32 × Bytes) :=
  (LittleEndian.read 4 input).map fun (v, rest) => (UInt32.ofNat v, rest)

/-- `GetFixed64`: `false` on fewer than eight bytes. -/
def getFixed64 (input : Bytes) : Option (UInt64 × Bytes) :=
  (LittleEndian.read 8 input).map fun (v, rest) => (UInt64.ofNat v, rest)

/-- `EncodeVarint32`. -/
def encodeVarint32 (value : UInt32) : Bytes :=
  let v := value.toNat
  let B := 128
  if v < 2 ^ 7 then [lowByte v]
  else if v < 2 ^ 14 then [lowByte (v ||| B), lowByte (v >>> 7)]
  else if v < 2 ^ 21 then [lowByte (v ||| B), lowByte (v >>> 7 ||| B), lowByte (v >>> 14)]
  else if v < 2 ^ 28 then
    [lowByte (v ||| B), lowByte (v >>> 7 ||| B), lowByte (v >>> 14 ||| B), lowByte (v >>> 21)]
  else
    [lowByte (v ||| B), lowByte (v >>> 7 ||| B), lowByte (v >>> 14 ||| B),
      lowByte (v >>> 21 ||| B), lowByte (v >>> 28)]

/-- `EncodeVarint64`'s loop, on the value as a natural number. -/
def encodeVarint64 (v : Nat) : Bytes :=
  if v ≥ 128 then lowByte (v &&& 127 ||| 128) :: encodeVarint64 (v >>> 7) else [lowByte v]
termination_by v
decreasing_by rw [Nat.shiftRight_eq_div_pow]; omega

/-- `PutVarint32`. -/
def putVarint32 (v : UInt32) : Bytes := encodeVarint32 v

/-- `PutVarint64`. -/
def putVarint64 (v : UInt64) : Bytes := encodeVarint64 v.toNat

/-- `GetVarint32PtrFallback`: the loop for a 32-bit value, shifts `0` to `28`. -/
def getVarint32PtrFallback (p : Bytes) : Option (Nat × Bytes) := Varint.decode 32 28 0 0 p

/-- `GetVarint64Ptr`: the loop for a 64-bit value, shifts `0` to `63`. -/
def getVarint64Ptr (p : Bytes) : Option (Nat × Bytes) := Varint.decode 64 63 0 0 p

/-- `GetVarint32Ptr`: a byte without its high bit is the value, else the fallback loop. -/
def getVarint32Ptr (p : Bytes) : Option (Nat × Bytes) :=
  match p with
  | b :: bs => if b.val &&& 128 = 0 then some (b.val, bs) else getVarint32PtrFallback p
  | [] => getVarint32PtrFallback p

/-- `GetVarint32`. -/
def getVarint32 (input : Bytes) : Option (UInt32 × Bytes) :=
  (getVarint32Ptr input).map fun (v, rest) => (UInt32.ofNat v, rest)

/-- `GetVarint64`. -/
def getVarint64 (input : Bytes) : Option (UInt64 × Bytes) :=
  (getVarint64Ptr input).map fun (v, rest) => (UInt64.ofNat v, rest)

/-- `PutLengthPrefixedSlice`: the length, cast to 32 bits, then the bytes. -/
def putLengthPrefixedSlice (value : Bytes) : Bytes :=
  putVarint32 value.length.toUInt32 ++ value

/-- `GetLengthPrefixedSlice`: `false` when the length does not parse or the bytes run out. -/
def getLengthPrefixedSlice (input : Bytes) : Option (Bytes × Bytes) :=
  match getVarint32 input with
  | some (len, input) =>
    if input.length ≥ len.toNat then some (input.take len.toNat, input.drop len.toNat) else none
  | none => none

/-! ### The codes and the general ones -/

theorem lowByte_or_128 (x : Nat) : lowByte (x ||| 128) = ⟨x % 128 + 128, mod_128_add_128_lt x⟩ := by
  have hmod : (x ||| 128) % 256 = x % 256 ||| 128 := Nat.or_mod_two_pow (n := 8)
  have h := or_128_eq ⟨x % 256, Nat.mod_lt _ (by decide)⟩
  apply Fin.ext
  show (x ||| 128) % 256 = x % 128 + 128
  rw [hmod, h, Nat.mod_mod_of_dvd x (by decide)]

/-- A byte of `EncodeVarint32` that continues the value. -/
theorem encode_eq_or_128 {x : Nat} (h : 128 ≤ x) :
    Varint.encode x = lowByte (x ||| 128) :: Varint.encode (x >>> 7) := by
  rw [Varint.encode_of_le h, lowByte_or_128, Nat.shiftRight_eq_div_pow]

/-- The byte of `EncodeVarint32` that ends the value. -/
theorem encode_eq_lowByte {x : Nat} (h : x < 128) : Varint.encode x = [lowByte x] := by
  rw [Varint.encode_of_lt h, lowByte_of_lt (by omega)]

theorem encodeVarint32_eq (value : UInt32) : encodeVarint32 value = Varint.encode value.toNat := by
  have hv := value.toNat_lt
  have h7 : ∀ x : Nat, x >>> 7 >>> 7 = x >>> 14 := fun x => by
    rw [← Nat.shiftRight_add]
  have h14 : ∀ x : Nat, x >>> 14 >>> 7 = x >>> 21 := fun x => by
    rw [← Nat.shiftRight_add]
  have h21 : ∀ x : Nat, x >>> 21 >>> 7 = x >>> 28 := fun x => by
    rw [← Nat.shiftRight_add]
  simp only [encodeVarint32]
  -- one case per length of the code, each unfolding `Varint.encode` once per byte
  split_ifs with h1 h2 h3 h4
  · rw [encode_eq_lowByte h1]
  · rw [encode_eq_or_128 (by omega), encode_eq_lowByte (by omega)]
  · rw [encode_eq_or_128 (by omega), encode_eq_or_128 (by omega), h7,
      encode_eq_lowByte (by omega)]
  · rw [encode_eq_or_128 (by omega), encode_eq_or_128 (by omega), h7,
      encode_eq_or_128 (by omega), h14, encode_eq_lowByte (by omega)]
  · rw [encode_eq_or_128 (by omega), encode_eq_or_128 (by omega), h7,
      encode_eq_or_128 (by omega), h14, encode_eq_or_128 (by omega), h21,
      encode_eq_lowByte (by omega)]

example : putVarint32 300 = [172, 2] := by decide

@[simp] theorem length_putFixed32 (v : UInt32) : (putFixed32 v).length = 4 :=
  LittleEndian.length_encode 4 v.toNat

@[simp] theorem length_putFixed64 (v : UInt64) : (putFixed64 v).length = 8 :=
  LittleEndian.length_encode 8 v.toNat

/-- `EncodeVarint32` writes one to five bytes, one below `2 ^ 7` and at most two below `2 ^ 14`. -/
theorem length_putVarint32_le (v : UInt32) : (putVarint32 v).length ≤ 5 := by
  simp only [putVarint32, encodeVarint32]
  split_ifs <;> simp

theorem length_putVarint32_of_lt {v : UInt32} (h : v.toNat < 2 ^ 7) : (putVarint32 v).length = 1 := by
  simp only [putVarint32, encodeVarint32]
  split_ifs
  simp_all

theorem length_putVarint32_le_two {v : UInt32} (h : v.toNat < 2 ^ 14) :
    (putVarint32 v).length ≤ 2 := by
  simp only [putVarint32, encodeVarint32]
  split_ifs <;> simp_all

theorem encodeVarint64_eq (v : Nat) : encodeVarint64 v = Varint.encode v := by
  induction v using Nat.strongRecOn with
  | ind v ih =>
    rw [encodeVarint64]
    split_ifs with h
    · have hlt : v >>> 7 < v := by rw [Nat.shiftRight_eq_div_pow]; omega
      rw [ih _ hlt, and_127_eq, encode_eq_or_128 h, lowByte_or_128, lowByte_or_128]
      simp only [Nat.mod_mod]
    · rw [encode_eq_lowByte (by omega)]

/-- The fast path of `GetVarint32Ptr` is the first round of the fallback loop. -/
theorem getVarint32Ptr_eq (p : Bytes) : getVarint32Ptr p = getVarint32PtrFallback p := by
  cases p with
  | nil => rfl
  | cons b bs =>
    simp only [getVarint32Ptr]
    split_ifs with hb
    · have hlt : b.val < 2 ^ 32 := by omega
      have hbit : ¬(b.val &&& 128 ≠ 0) := not_not.2 hb
      rw [getVarint32PtrFallback, Varint.decode, if_pos (Nat.zero_le 28), if_neg hbit,
        Nat.shiftLeft_zero, Nat.zero_or, Nat.mod_eq_of_lt hlt]
    · rfl

/-! ### Round trips -/

@[simp] theorem getFixed16_putFixed16 (v : UInt16) (rest : Bytes) :
    getFixed16 (putFixed16 v ++ rest) = some (v, rest) := by
  rw [getFixed16, putFixed16, LittleEndian.read_encode_append,
    Nat.mod_eq_of_lt (show v.toNat < 256 ^ 2 from v.toNat_lt)]
  simp only [Option.map_some, UInt16.ofNat_toNat]

@[simp] theorem getFixed32_putFixed32 (v : UInt32) (rest : Bytes) :
    getFixed32 (putFixed32 v ++ rest) = some (v, rest) := by
  rw [getFixed32, putFixed32, LittleEndian.read_encode_append,
    Nat.mod_eq_of_lt (show v.toNat < 256 ^ 4 from v.toNat_lt)]
  simp only [Option.map_some, UInt32.ofNat_toNat]

@[simp] theorem getFixed64_putFixed64 (v : UInt64) (rest : Bytes) :
    getFixed64 (putFixed64 v ++ rest) = some (v, rest) := by
  rw [getFixed64, putFixed64, LittleEndian.read_encode_append,
    Nat.mod_eq_of_lt (show v.toNat < 256 ^ 8 from v.toNat_lt)]
  simp only [Option.map_some, UInt64.ofNat_toNat]

@[simp] theorem getVarint32Ptr_putVarint32 (v : UInt32) (rest : Bytes) :
    getVarint32Ptr (putVarint32 v ++ rest) = some (v.toNat, rest) := by
  have h : Varint.decode 32 28 0 0 (Varint.encode v.toNat ++ rest) = some (v.toNat, rest) :=
    Varint.decode_encode v.toNat_lt (k := 5) (by decide) (v.toNat_lt.trans (by decide))
      (by decide) rest
  rw [getVarint32Ptr_eq, getVarint32PtrFallback, putVarint32, encodeVarint32_eq, h]

@[simp] theorem getVarint32_putVarint32 (v : UInt32) (rest : Bytes) :
    getVarint32 (putVarint32 v ++ rest) = some (v, rest) := by
  rw [getVarint32, getVarint32Ptr_putVarint32]
  simp

@[simp] theorem getVarint64_putVarint64 (v : UInt64) (rest : Bytes) :
    getVarint64 (putVarint64 v ++ rest) = some (v, rest) := by
  have h : Varint.decode 64 63 0 0 (Varint.encode v.toNat ++ rest) = some (v.toNat, rest) :=
    Varint.decode_encode v.toNat_lt (k := 10) (by decide) (v.toNat_lt.trans (by decide))
      (by decide) rest
  rw [getVarint64, getVarint64Ptr, putVarint64, encodeVarint64_eq, h]
  simp

/-- A slice shorter than `2 ^ 32` bytes is read back; the cast of a longer one's length to 32
bits would lose it. -/
theorem getLengthPrefixedSlice_putLengthPrefixedSlice {value : Bytes}
    (h : value.length < 2 ^ 32) (rest : Bytes) :
    getLengthPrefixedSlice (putLengthPrefixedSlice value ++ rest) = some (value, rest) := by
  have hlen : value.length.toUInt32.toNat = value.length := by
    show (UInt32.ofNat value.length).toNat = value.length
    rw [UInt32.toNat_ofNat', Nat.mod_eq_of_lt h]
  rw [putLengthPrefixedSlice, List.append_assoc, getLengthPrefixedSlice, getVarint32_putVarint32]
  simp only [hlen, List.length_append, ge_iff_le, Nat.le_add_right, if_true,
    List.take_left', List.drop_left']

/-! The round trips under a bind.  As pre-rewrites (`↓`) they rewrite the steps of a decoder
that reads field after field in order, each before the rest of the decoder is visited. -/

theorem bind_getFixed16_putFixed16 {β : Type} (v : UInt16) (rest : Bytes)
    (k : UInt16 × Bytes → Option β) : getFixed16 (putFixed16 v ++ rest) >>= k = k (v, rest) :=
  bind_of_eq_some (getFixed16_putFixed16 v rest) k

theorem bind_getFixed32_putFixed32 {β : Type} (v : UInt32) (rest : Bytes)
    (k : UInt32 × Bytes → Option β) : getFixed32 (putFixed32 v ++ rest) >>= k = k (v, rest) :=
  bind_of_eq_some (getFixed32_putFixed32 v rest) k

theorem bind_getFixed64_putFixed64 {β : Type} (v : UInt64) (rest : Bytes)
    (k : UInt64 × Bytes → Option β) : getFixed64 (putFixed64 v ++ rest) >>= k = k (v, rest) :=
  bind_of_eq_some (getFixed64_putFixed64 v rest) k

theorem bind_getVarint32_putVarint32 {β : Type} (v : UInt32) (rest : Bytes)
    (k : UInt32 × Bytes → Option β) : getVarint32 (putVarint32 v ++ rest) >>= k = k (v, rest) :=
  bind_of_eq_some (getVarint32_putVarint32 v rest) k

theorem bind_getVarint64_putVarint64 {β : Type} (v : UInt64) (rest : Bytes)
    (k : UInt64 × Bytes → Option β) : getVarint64 (putVarint64 v ++ rest) >>= k = k (v, rest) :=
  bind_of_eq_some (getVarint64_putVarint64 v rest) k

theorem bind_getLengthPrefixedSlice {β : Type} {value : Bytes} (h : value.length < 2 ^ 32)
    (rest : Bytes) (k : Bytes × Bytes → Option β) :
    getLengthPrefixedSlice (putLengthPrefixedSlice value ++ rest) >>= k = k (value, rest) :=
  bind_of_eq_some (getLengthPrefixedSlice_putLengthPrefixedSlice h rest) k

end DLSM
