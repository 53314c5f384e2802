import DLSM.Lib.ByteCoding

/-! A byte range `[p, limit)` of a memory, named as `const char* p, const char* limit` name it.
The varint loop over a range reads `*p` while `p < limit` and the shift admits another byte,
and gives the value with the pointer past its last byte.  It is the list loop `Varint.decode`
on the bytes of the range, the pointer being `limit` less the bytes left; it reads no byte at or
beyond `limit`, and it fails when the bytes the shifts admit all continue the number. -/

namespace ByteCoding

/-- The bytes of `[p, limit)` of `mem`. -/
def range (mem : List (Fin 256)) (p limit : Nat) : List (Fin 256) := (mem.take limit).drop p

theorem length_range {mem : List (Fin 256)} {p limit : Nat} (h : limit ≤ mem.length) :
    (range mem p limit).length = limit - p := by
  simp [range, h]

theorem range_eq_nil {mem : List (Fin 256)} {p limit : Nat} (h : limit ≤ p) :
    range mem p limit = [] := by
  simp [range]
  omega

theorem range_eq_cons {mem : List (Fin 256)} {p limit : Nat} (hp : p < limit)
    (h : limit ≤ mem.length) : range mem p limit = mem.getD p 0 :: range mem (p + 1) limit := by
  have hlt : p < (mem.take limit).length := by simp; omega
  rw [range, List.drop_eq_getElem_cons hlt, List.getElem_take, range]
  simp [List.getD_eq_getElem?_getD, show p < mem.length by omega]

/-- The bytes from `pre.length` on of `pre ++ bs`, to its end, are `bs`. -/
theorem range_append (pre bs : List (Fin 256)) :
    range (pre ++ bs) pre.length (pre ++ bs).length = bs := by
  rw [range, List.take_of_length_le (Nat.le_refl _), List.drop_left]

namespace Varint

/-- The reader's loop over `[p, limit)` of a memory, into an accumulator of `w` bits: while the
shift is at most `maxShift` and `p < limit`, a byte with its high bit set adds its payload and the
loop goes on at the next shift; a byte without ends the number, with the pointer after it. -/
def decodeAt (w maxShift : Nat) (mem : List (Fin 256)) (limit : Nat) (shift acc p : Nat) :
    Option (Nat × Nat) :=
  if shift ≤ maxShift ∧ p < limit then
    if (mem.getD p 0).val &&& 128 ≠ 0 then
      decodeAt w maxShift mem limit (shift + 7)
        (acc ||| ((mem.getD p 0).val &&& 127) <<< shift % 2 ^ w) (p + 1)
    else some (acc ||| (mem.getD p 0).val <<< shift % 2 ^ w, p + 1)
  else none
termination_by maxShift + 1 - shift

variable {w maxShift : Nat} {mem : List (Fin 256)} {limit : Nat}

/-- The loop over a range is the list loop on its bytes, the pointer `limit` less what is left. -/
theorem decodeAt_eq (hlimit : limit ≤ mem.length) :
    ∀ (shift acc p : Nat), p ≤ limit → decodeAt w maxShift mem limit shift acc p =
      (decode w maxShift shift acc (range mem p limit)).map fun r => (r.1, limit - r.2.length) := by
  intro shift acc p hp
  -- on the shifts left before `maxShift`, as the loop's termination measure
  induction shift, acc, p using decodeAt.induct w maxShift mem limit with
  | case1 shift acc p hc hbit ih =>
    rw [decodeAt, if_pos hc, if_pos hbit, range_eq_cons hc.2 hlimit, decode, if_pos hc.1,
      if_pos hbit]
    exact ih (by omega)
  | case2 shift acc p hc hbit =>
    rw [decodeAt, if_pos hc, if_neg hbit, range_eq_cons hc.2 hlimit, decode, if_pos hc.1,
      if_neg hbit, Option.map_some, length_range hlimit]
    congr 2
    omega
  | case3 shift acc p hc =>
    rw [decodeAt, if_neg hc]
    by_cases hpl : p < limit
    · rw [range_eq_cons hpl hlimit, decode, if_neg (by omega), Option.map_none]
    · rw [range_eq_nil (by omega), decode, Option.map_none]

/-- The loop reads no byte at or beyond `limit`. -/
theorem decodeAt_congr {mem' : List (Fin 256)}
    (h : ∀ i < limit, mem.getD i 0 = mem'.getD i 0) :
    ∀ (shift acc p : Nat),
      decodeAt w maxShift mem limit shift acc p = decodeAt w maxShift mem' limit shift acc p := by
  intro shift acc p
  induction shift, acc, p using decodeAt.induct w maxShift mem limit with
  | case1 shift acc p hc hbit ih =>
    have hb := h p hc.2
    rw [decodeAt, if_pos hc, if_pos hbit, ih]
    conv => rhs; rw [decodeAt, if_pos hc, ← hb, if_pos hbit]
  | case2 shift acc p hc hbit =>
    have hb := h p hc.2
    rw [decodeAt, if_pos hc, if_neg hbit]
    conv => rhs; rw [decodeAt, if_pos hc, ← hb, if_neg hbit]
  | case3 shift acc p hc =>
    rw [decodeAt, if_neg hc]
    conv => rhs; rw [decodeAt, if_neg hc]

/-- The loop fails when every byte of the range that the shifts from `shift` to `maxShift` admit
continues the number. -/
theorem decodeAt_eq_none :
    ∀ (shift acc p : Nat),
      (∀ i < min (p + (maxShift - shift) / 7 + 1) limit, p ≤ i →
        (mem.getD i 0).val &&& 128 ≠ 0) →
      decodeAt w maxShift mem limit shift acc p = none := by
  intro shift acc p hcont
  induction shift, acc, p using decodeAt.induct w maxShift mem limit with
  | case1 shift acc p hc hbit ih =>
    rw [decodeAt, if_pos hc, if_pos hbit]
    by_cases hs : shift + 7 ≤ maxShift
    · -- the bytes the next shifts admit are among those admitted from here
      exact ih fun i hlt hi => hcont i (by omega) (by omega)
    · rw [decodeAt, if_neg (by omega)]
  | case2 shift acc p hc hbit =>
    exact absurd (hcont p (by omega) (Nat.le_refl p)) hbit
  | case3 shift acc p hc => rw [decodeAt, if_neg hc]

end Varint

end ByteCoding
