import Mathlib

/-! Byte codes of natural numbers.  A fixed-width code writes a number's bytes least significant
first; a base-128 code ("varint") writes seven bits a byte, least significant first, with the
high bit of every byte but the last set.  A reader of the base-128 code ORs each byte's seven
payload bits into an accumulator of `w` bits at shifts `0, 7, 14, …`, and gives up once the
shift passes a limit.  The round trips are stated with any bytes after the code, so that codes
of consecutive fields compose. -/

namespace ByteCoding

/-- The bound of a byte is not zero: one named instance, which every byte literal and every
reduction into a byte uses. -/
@[instance] theorem neZero_byte : NeZero (256 : Nat) := ⟨by decide⟩

/-- A byte with its high bit set. -/
theorem mod_128_add_128_lt (v : Nat) : v % 128 + 128 < 256 := by omega

/-- The byte a store of a wider unsigned value into an `unsigned char` keeps: the low eight
bits. -/
def lowByte (x : Nat) : Fin 256 := Fin.ofNat 256 x

@[simp] theorem val_lowByte (x : Nat) : (lowByte x).val = x % 256 := Fin.val_ofNat 256 x

theorem lowByte_of_lt {x : Nat} (h : x < 256) : lowByte x = ⟨x, h⟩ :=
  Fin.ext (by simp [Nat.mod_eq_of_lt h])

/-- The OR of an accumulator below `2 ^ s` and a value shifted by `s` is their sum. -/
theorem or_mul_two_pow_eq_add {acc x s : Nat} (h : acc < 2 ^ s) :
    acc ||| x * 2 ^ s = acc + x * 2 ^ s := by
  rw [Nat.or_comm, Nat.mul_comm, ← Nat.two_pow_add_eq_or_of_lt h, Nat.add_comm]

theorem and_128_ne_zero_iff (b : Fin 256) : b.val &&& 128 ≠ 0 ↔ 128 ≤ b.val := by
  revert b
  decide +kernel

theorem or_128_eq (b : Fin 256) : b.val ||| 128 = b.val % 128 + 128 := by
  revert b
  decide +kernel

theorem and_127_eq (x : Nat) : x &&& 127 = x % 128 := Nat.and_two_pow_sub_one_eq_mod x 7

/-- A decoder's step that gives `some a` passes `a` to the rest of the decoder. -/
theorem bind_of_eq_some {α β : Type} {x : Option α} {a : α} (h : x = some a) (k : α → Option β) :
    x >>= k = k a := by
  rw [h]; rfl

namespace LittleEndian

/-- The low `n` bytes of `v`, least significant first. -/
def encode : Nat → Nat → List (Fin 256)
  | 0, _ => []
  | n + 1, v => lowByte v :: encode n (v / 256)

/-- The number that bytes stand for, least significant first. -/
def decode : List (Fin 256) → Nat
  | [] => 0
  | b :: bs => b.val + 256 * decode bs

@[simp] theorem length_encode (n v : Nat) : (encode n v).length = n := by
  induction n generalizing v with
  | zero => rfl
  | succ n ih => simp [encode, ih]

theorem decode_encode (n v : Nat) : decode (encode n v) = v % 256 ^ n := by
  induction n generalizing v with
  | zero => simp [encode, decode, Nat.mod_one]
  | succ n ih =>
    simp only [encode, decode, val_lowByte, ih]
    rw [Nat.pow_succ', Nat.mod_mul]

/-- Reading `n` bytes off the front of the input; `none` when fewer are left. -/
def read (n : Nat) (input : List (Fin 256)) : Option (Nat × List (Fin 256)) :=
  if input.length < n then none else some (decode (input.take n), input.drop n)

theorem read_encode_append (n v : Nat) (rest : List (Fin 256)) :
    read n (encode n v ++ rest) = some (v % 256 ^ n, rest) := by
  have hlen : ¬(encode n v ++ rest).length < n := by simp
  rw [read, if_neg hlen, List.take_left' (length_encode n v),
    List.drop_left' (length_encode n v), decode_encode]

end LittleEndian

namespace Varint

/-- The base-128 code of `v`. -/
def encode (v : Nat) : List (Fin 256) :=
  if h : v < 128 then [⟨v, by omega⟩] else ⟨v % 128 + 128, mod_128_add_128_lt v⟩ :: encode (v / 128)
termination_by v
decreasing_by omega

theorem encode_of_lt {v : Nat} (h : v < 128) : encode v = [⟨v, by omega⟩] := by
  rw [encode, dif_pos h]

theorem encode_of_le {v : Nat} (h : 128 ≤ v) :
    encode v = ⟨v % 128 + 128, mod_128_add_128_lt v⟩ :: encode (v / 128) := by
  rw [encode, dif_neg (by omega)]

/-- The reader's loop into an accumulator of `w` bits: a byte with its high bit set adds its
payload and asks for the next byte at the next shift; a byte without ends the number.  The loop
fails when the input ends or the shift passes `maxShift`. -/
def decode (w maxShift : Nat) (shift acc : Nat) : List (Fin 256) → Option (Nat × List (Fin 256))
  | [] => none
  | b :: bs =>
    if shift ≤ maxShift then
      if b.val &&& 128 ≠ 0 then
        decode w maxShift (shift + 7) (acc ||| (b.val &&& 127) <<< shift % 2 ^ w) bs
      else some (acc ||| b.val <<< shift % 2 ^ w, bs)
    else none

variable {w maxShift V : Nat}

/-- The byte that ends a number: the accumulator already holds the bits below `s`. -/
theorem decode_last {s : Nat} (hV : V < 2 ^ w) (hq : V / 2 ^ s < 128) (hs : s ≤ maxShift)
    (rest : List (Fin 256)) :
    decode w maxShift s (V % 2 ^ s) (encode (V / 2 ^ s) ++ rest) = some (V, rest) := by
  have hlow : V / 2 ^ s * 2 ^ s ≤ V := Nat.div_mul_le_self V (2 ^ s)
  have hbit : ¬((⟨V / 2 ^ s, by omega⟩ : Fin 256).val &&& 128 ≠ 0) := by
    rw [and_128_ne_zero_iff]; simpa using hq
  rw [encode_of_lt hq, List.singleton_append, decode, if_pos hs, if_neg hbit]
  simp only [Nat.shiftLeft_eq, Option.some.injEq, Prod.mk.injEq, and_true]
  rw [Nat.mod_eq_of_lt (show V / 2 ^ s * 2 ^ s < 2 ^ w by omega),
    or_mul_two_pow_eq_add (Nat.mod_lt _ (Nat.two_pow_pos s)), Nat.mul_comm]
  exact Nat.mod_add_div V (2 ^ s)

/-- A byte that continues a number: the accumulator gains the next seven bits. -/
theorem decode_next {s : Nat} (hV : V < 2 ^ w) (hq : 128 ≤ V / 2 ^ s) (hs : s ≤ maxShift)
    (rest : List (Fin 256)) :
    decode w maxShift s (V % 2 ^ s) (encode (V / 2 ^ s) ++ rest) =
      decode w maxShift (s + 7) (V % 2 ^ (s + 7)) (encode (V / 2 ^ (s + 7)) ++ rest) := by
  have hbit : (⟨V / 2 ^ s % 128 + 128, by omega⟩ : Fin 256).val &&& 128 ≠ 0 :=
    (and_128_ne_zero_iff _).2 (Nat.le_add_left _ _)
  have hpay : V / 2 ^ s % 128 * 2 ^ s ≤ V :=
    calc V / 2 ^ s % 128 * 2 ^ s ≤ V / 2 ^ s * 2 ^ s := Nat.mul_le_mul_right _ (Nat.mod_le _ _)
      _ ≤ V := Nat.div_mul_le_self V (2 ^ s)
  have hpow : 2 ^ (s + 7) = 2 ^ s * 128 := by rw [Nat.pow_add]
  have hacc : (V % 2 ^ s ||| ((V / 2 ^ s % 128 + 128) &&& 127) <<< s % 2 ^ w) = V % 2 ^ (s + 7) := by
    rw [and_127_eq, Nat.add_mod_right, Nat.mod_mod, Nat.shiftLeft_eq,
      Nat.mod_eq_of_lt (show V / 2 ^ s % 128 * 2 ^ s < 2 ^ w by omega),
      or_mul_two_pow_eq_add (Nat.mod_lt _ (Nat.two_pow_pos s)), hpow, Nat.mod_mul, Nat.mul_comm]
  rw [encode_of_le hq, List.cons_append, decode, if_pos hs, if_pos hbit]
  simp only
  rw [hacc, Nat.div_div_eq_div_mul, ← hpow]

/-- The round trip from shift `s`: a number of at most `k` more bytes, all at shifts the loop
admits, is read back whole with the rest of the input after it. -/
theorem decode_encode_from (hV : V < 2 ^ w) (rest : List (Fin 256)) :
    ∀ k s, 0 < k → V < 2 ^ (s + 7 * k) → s + 7 * k ≤ maxShift + 7 →
      decode w maxShift s (V % 2 ^ s) (encode (V / 2 ^ s) ++ rest) = some (V, rest) := by
  intro k
  -- induction on the bytes left, each continuation byte moving the shift up by seven
  induction k with
  | zero => intro s hk; omega
  | succ k ih =>
    intro s _ hlt hroom
    by_cases hq : V / 2 ^ s < 128
    · exact decode_last hV hq (by omega) rest
    · have hk : 0 < k := by
        rcases Nat.eq_zero_or_pos k with rfl | hk
        · have h7 : V < 128 * 2 ^ s := by simpa [Nat.pow_add, Nat.mul_comm] using hlt
          exact absurd ((Nat.div_lt_iff_lt_mul (Nat.two_pow_pos s)).2 h7) hq
        · exact hk
      rw [decode_next hV (by omega) (by omega) rest]
      exact ih (s + 7) hk (by rwa [show s + 7 + 7 * k = s + 7 * (k + 1) by omega]) (by omega)

/-- The round trip: a number of at most `k` bytes, all at shifts the loop admits, is read back
whole with the rest of the input after it. -/
theorem decode_encode {k : Nat} (hV : V < 2 ^ w) (hk : 0 < k) (hlt : V < 2 ^ (7 * k))
    (hroom : 7 * k ≤ maxShift + 7) (rest : List (Fin 256)) :
    decode w maxShift 0 0 (encode V ++ rest) = some (V, rest) := by
  have h := decode_encode_from hV rest k 0 hk (by simpa using hlt) (by simpa using hroom)
  rwa [Nat.pow_zero, Nat.mod_one, Nat.div_one] at h

end Varint

end ByteCoding
