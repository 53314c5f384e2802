import Mathlib
import DLSM.Lib.ByteRange

/-! A memory of bytes read as an array of bits: bit `i` is bit `i % 8` of byte `i / 8`, which
`data[i / 8] |= 1 << (i % 8)` sets and `data[i / 8] & (1 << (i % 8))` tests.  A store of bytes
at `p` (a `memcpy` or a run of byte stores) fails past the end of the memory.  Setting a bit
keeps every bit that was set, and a store keeps every byte outside the bytes it writes. -/

namespace ByteCoding

/-- `data[i / 8] |= 1 << (i % 8)`. -/
def setBit (mem : List (Fin 256)) (i : Nat) : List (Fin 256) :=
  mem.modify (i / 8) fun b => lowByte (b.val ||| 1 <<< (i % 8))

/-- `(data[i / 8] & (1 << (i % 8))) != 0`; a byte past the end reads `0`. -/
def testBit (mem : List (Fin 256)) (i : Nat) : Bool :=
  (mem.getD (i / 8) 0).val &&& 1 <<< (i % 8) != 0

/-- The bytes `bs` stored from `p` on; `none` when they would run past the end. -/
def storeAt (mem : List (Fin 256)) (p : Nat) (bs : List (Fin 256)) : Option (List (Fin 256)) :=
  if p + bs.length ≤ mem.length then some (mem.take p ++ bs ++ mem.drop (p + bs.length))
  else none

theorem and_one_shiftLeft_ne_zero_iff (x k : Nat) : x &&& 1 <<< k ≠ 0 ↔ x.testBit k = true := by
  rw [Nat.shiftLeft_eq, Nat.one_mul, Nat.and_two_pow]
  cases x.testBit k <;> simp

theorem testBit_eq (mem : List (Fin 256)) (i : Nat) :
    testBit mem i = (mem.getD (i / 8) 0).val.testBit (i % 8) := by
  rw [testBit, Bool.eq_iff_iff, bne_iff_ne]
  exact and_one_shiftLeft_ne_zero_iff _ _

@[simp] theorem length_setBit (mem : List (Fin 256)) (i : Nat) :
    (setBit mem i).length = mem.length := by
  simp [setBit]

/-- OR-ing a bit of a byte keeps it below `256`. -/
theorem val_lowByte_or_shiftLeft (b : Fin 256) {k : Nat} (hk : k < 8) :
    (lowByte (b.val ||| 1 <<< k)).val = b.val ||| 2 ^ k := by
  have hlt : b.val ||| 2 ^ k < 2 ^ 8 :=
    Nat.or_lt_two_pow b.isLt (Nat.pow_lt_pow_right (by decide) hk)
  rw [val_lowByte, Nat.shiftLeft_eq, Nat.one_mul]
  exact Nat.mod_eq_of_lt hlt

/-- After `setBit mem j`, bit `i` is set when it was, or when it is bit `j` of the memory. -/
theorem testBit_setBit (mem : List (Fin 256)) (i j : Nat) :
    testBit (setBit mem j) i = (testBit mem i || decide (i = j) && decide (j / 8 < mem.length)) := by
  rw [testBit_eq, testBit_eq, setBit]
  simp only [List.getD_eq_getElem?_getD, List.getElem?_modify]
  by_cases hbyte : j / 8 = i / 8
  · -- the byte written: bit `i` of it is bit `i` before, or `i % 8 = j % 8`
    have hij : i = j ↔ j % 8 = i % 8 := by omega
    cases hget : mem[i / 8]? with
    | none =>
      have hlen : ¬j / 8 < mem.length := by
        rw [hbyte]
        exact fun h => by simp [List.getElem?_eq_getElem h] at hget
      simp [hlen]
    | some b =>
      have hlen : i / 8 < mem.length := (List.getElem?_eq_some_iff.mp hget).1
      have hbits := val_lowByte_or_shiftLeft b (Nat.mod_lt j (by decide))
      simp only [hbyte, ↓reduceIte, Option.map_eq_map, Option.map_some, Option.getD_some, hbits,
        Nat.testBit_or, Nat.testBit_two_pow, hlen, decide_true, Bool.and_true, hij]
  · -- another byte: bit `i` is unchanged, and `i ≠ j`
    have hij : i ≠ j := fun h => hbyte (h ▸ rfl)
    simp [if_neg hbyte, hij]

theorem testBit_setBit_self {mem : List (Fin 256)} {i : Nat} (h : i / 8 < mem.length) :
    testBit (setBit mem i) i = true := by
  simp [testBit_setBit, h]

theorem testBit_setBit_of_testBit {mem : List (Fin 256)} {i : Nat} (j : Nat)
    (h : testBit mem i = true) : testBit (setBit mem j) i = true := by
  simp [testBit_setBit, h]

theorem storeAt_eq_some {mem : List (Fin 256)} {p : Nat} {bs : List (Fin 256)}
    (h : p + bs.length ≤ mem.length) :
    storeAt mem p bs = some (mem.take p ++ bs ++ mem.drop (p + bs.length)) :=
  if_pos h

theorem storeAt_eq_none {mem : List (Fin 256)} {p : Nat} {bs : List (Fin 256)}
    (h : mem.length < p + bs.length) : storeAt mem p bs = none :=
  if_neg (by omega)

theorem length_storeAt {mem mem' : List (Fin 256)} {p : Nat} {bs : List (Fin 256)}
    (h : storeAt mem p bs = some mem') : mem'.length = mem.length := by
  unfold storeAt at h
  split_ifs at h with hfit
  cases h
  simp only [List.length_append, List.length_take, List.length_drop]
  omega

/-- The memory up to the end of a store is the memory before it and the bytes stored. -/
theorem take_storeAt {mem mem' : List (Fin 256)} {p : Nat} {bs : List (Fin 256)}
    (h : storeAt mem p bs = some mem') : mem'.take (p + bs.length) = mem.take p ++ bs := by
  unfold storeAt at h
  split_ifs at h with hfit
  cases h
  exact List.take_left' (by simp; omega)

/-- The memory after the end of a store is the memory before it. -/
theorem drop_storeAt {mem mem' : List (Fin 256)} {p : Nat} {bs : List (Fin 256)}
    (h : storeAt mem p bs = some mem') (k : Nat) :
    mem'.drop (p + bs.length + k) = mem.drop (p + bs.length + k) := by
  unfold storeAt at h
  split_ifs at h with hfit
  cases h
  have hlen : (mem.take p ++ bs).length = p + bs.length := by simp; omega
  rw [List.drop_append, hlen, List.drop_eq_nil_of_le (by omega), List.nil_append,
    List.drop_drop, show p + bs.length + k - (p + bs.length) = k by omega]

/-- Two stores, the second right after the first, are one store of both runs of bytes. -/
theorem storeAt_storeAt {mem m₁ m₂ : List (Fin 256)} {p : Nat} {bs cs : List (Fin 256)}
    (h₁ : storeAt mem p bs = some m₁) (h₂ : storeAt m₁ (p + bs.length) cs = some m₂) :
    storeAt mem p (bs ++ cs) = some m₂ := by
  have hlen := length_storeAt h₁
  unfold storeAt at h₂
  split_ifs at h₂ with hfit
  cases h₂
  rw [take_storeAt h₁, drop_storeAt h₁, storeAt_eq_some (by simp; omega)]
  simp [Nat.add_assoc]

/-- A store writes the bytes from `p` on and keeps every other byte. -/
theorem getD_storeAt {mem mem' : List (Fin 256)} {p : Nat} {bs : List (Fin 256)}
    (h : storeAt mem p bs = some mem') (i : Nat) :
    mem'.getD i 0 = if p ≤ i ∧ i < p + bs.length then bs.getD (i - p) 0 else mem.getD i 0 := by
  unfold storeAt at h
  split_ifs at h with hfit
  cases h
  simp only [List.getD_eq_getElem?_getD, List.append_assoc, List.getElem?_append,
    List.length_take, List.getElem?_take, List.getElem?_drop]
  split_ifs with h1 h2 h3 h4 <;> first | rfl | omega | (congr 2; omega)

theorem getD_storeAt_of_lt {mem mem' : List (Fin 256)} {p : Nat} {bs : List (Fin 256)}
    (h : storeAt mem p bs = some mem') {i : Nat} (hi : i < p) : mem'.getD i 0 = mem.getD i 0 := by
  rw [getD_storeAt h, if_neg (by omega)]

/-- A store from `p` on keeps every bit of the bytes below `p`. -/
theorem testBit_storeAt_of_lt {mem mem' : List (Fin 256)} {p : Nat} {bs : List (Fin 256)}
    (h : storeAt mem p bs = some mem') {i : Nat} (hi : i / 8 < p) : testBit mem' i = testBit mem i := by
  rw [testBit_eq, testBit_eq, getD_storeAt_of_lt h hi]

/-- A prefix of the memory keeps every bit of its bytes. -/
theorem testBit_take {mem : List (Fin 256)} {n i : Nat} (hi : i / 8 < n) :
    testBit (mem.take n) i = testBit mem i := by
  simp only [testBit_eq, List.getD_eq_getElem?_getD, List.getElem?_take, if_pos hi]

/-- Bytes after the memory leave the bits of its bytes as they are. -/
theorem testBit_append_of_lt {xs ys : List (Fin 256)} {i : Nat} (hi : i / 8 < xs.length) :
    testBit (xs ++ ys) i = testBit xs i := by
  simp only [testBit_eq, List.getD_eq_getElem?_getD, List.getElem?_append_left hi]

end ByteCoding
