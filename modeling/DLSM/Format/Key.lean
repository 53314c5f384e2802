import Mathlib
import DLSM.Lib.ByteCoding

/-! Internal keys of `db/dbformat.h`: a user key followed by the eight-byte tag that packs a
sequence number above a one-byte value type.  `InternalKeyComparator::Compare` orders them by
increasing user key and then by decreasing tag, so that for one user key the newest entry comes
first.  The user comparator is any total order on user keys; the default `BytewiseComparator` is
the lexicographic order on byte strings, `Bytes` with Mathlib's order on lists.  A key is kept
decoded: an encoded key shorter than eight bytes, which `ExtractUserKey` asserts away, has no
model. -/

namespace DLSM

/-- A byte string of a `Slice`; `BytewiseComparator` orders these lexicographically, bytes as
unsigned values and a proper prefix first. -/
abbrev Bytes := List (Fin 256)

/-- `kMaxSequenceNumber = (1 << 56) - 1`: eight bits are left below it for the value type.
Sequence numbers, `uint64_t` in the source, are natural numbers here. -/
def kMaxSequenceNumber : Nat := 2 ^ 56 - 1

/-- `ValueType`: the two kinds of entry. -/
inductive ValueType where
  | kTypeDeletion
  | kTypeValue
  deriving DecidableEq, Repr

/-- The byte a `ValueType` is stored as. -/
def ValueType.toByte : ValueType → Nat
  | .kTypeDeletion => 0
  | .kTypeValue => 1

/-- `kValueTypeForSeek`: the highest type, so that a seek key precedes every entry of its
sequence number. -/
def kValueTypeForSeek : ValueType := .kTypeValue

/-- `PackSequenceAndType(seq, t) = (seq << 8) | t`. -/
def packSequenceAndType (seq : Nat) (t : ValueType) : Nat := seq * 256 + t.toByte

/-- An internal key: the user key and the decoded fixed-64 tag after it. -/
structure InternalKey (K : Type) where
  userKey : K
  tag : Nat
  deriving DecidableEq, Repr

/-- `ParsedInternalKey`. -/
structure ParsedInternalKey (K : Type) where
  userKey : K
  sequence : Nat
  type : ValueType
  deriving DecidableEq, Repr

namespace InternalKey

variable {K : Type}

/-- `InternalKey(user_key, s, t)`, which appends `PackSequenceAndType(s, t)`. -/
def mk' (u : K) (s : Nat) (t : ValueType) : InternalKey K := ⟨u, packSequenceAndType s t⟩

/-- `tag >> 8`, the sequence number `ParseInternalKey` reads whether or not the type is valid. -/
def sequence (k : InternalKey K) : Nat := k.tag / 256

@[simp] theorem sequence_mk' (u : K) (s : Nat) (t : ValueType) :
    (mk' u s t).sequence = s := by
  show (s * 256 + t.toByte) / 256 = s
  cases t <;> simp only [ValueType.toByte] <;> omega

@[simp] theorem userKey_mk' (u : K) (s : Nat) (t : ValueType) :
    (mk' u s t).userKey = u := rfl

end InternalKey

/-- `ParseInternalKey`: it fails when the type byte is neither `kTypeDeletion` nor
`kTypeValue`. -/
def parseInternalKey {K : Type} (k : InternalKey K) : Option (ParsedInternalKey K) :=
  match k.tag % 256 with
  | 0 => some ⟨k.userKey, k.sequence, .kTypeDeletion⟩
  | 1 => some ⟨k.userKey, k.sequence, .kTypeValue⟩
  | _ => none

theorem parseInternalKey_eq_some {K : Type} {k : InternalKey K} {p : ParsedInternalKey K}
    (h : parseInternalKey k = some p) : p.userKey = k.userKey ∧ p.sequence = k.sequence := by
  unfold parseInternalKey at h
  split at h <;> cases h <;> exact ⟨rfl, rfl⟩

@[simp] theorem parseInternalKey_mk' {K : Type} (u : K) (s : Nat) (t : ValueType) :
    parseInternalKey (InternalKey.mk' u s t) = some ⟨u, s, t⟩ := by
  cases t
  · have hm : (s * 256 + 0) % 256 = 0 := by omega
    have hd : (s * 256 + 0) / 256 = s := by omega
    simp only [parseInternalKey, InternalKey.mk', packSequenceAndType, ValueType.toByte,
      InternalKey.sequence, hm, hd]
  · have hm : (s * 256 + 1) % 256 = 1 := by omega
    have hd : (s * 256 + 1) / 256 = s := by omega
    simp only [parseInternalKey, InternalKey.mk', packSequenceAndType, ValueType.toByte,
      InternalKey.sequence, hm, hd]

section Order

variable {K : Type} [LinearOrder K]

/-- `InternalKeyComparator::Compare`: the user comparator first, then the larger tag first. -/
def internalKeyCompare (a b : InternalKey K) : Ordering :=
  match compare a.userKey b.userKey with
  | .eq => compare b.tag a.tag
  | r => r

/-- The order of `internalKeyCompare`, as a point of a lexicographic product. -/
def InternalKey.lexKey (k : InternalKey K) : K ×ₗ Nat ᵒᵈ := toLex (k.userKey, OrderDual.toDual k.tag)

omit [LinearOrder K] in
theorem InternalKey.lexKey_injective : Function.Injective (InternalKey.lexKey (K := K)) := by
  rintro ⟨u, t⟩ ⟨u', t'⟩ h
  simp only [InternalKey.lexKey, EmbeddingLike.apply_eq_iff_eq, Prod.mk.injEq] at h
  obtain ⟨rfl, h⟩ := h
  simp only [InternalKey.mk.injEq, true_and]
  exact OrderDual.toDual_inj.mp h

instance : LinearOrder (InternalKey K) :=
  LinearOrder.lift' InternalKey.lexKey InternalKey.lexKey_injective

theorem InternalKey.lt_iff {a b : InternalKey K} :
    a < b ↔ a.userKey < b.userKey ∨ a.userKey = b.userKey ∧ b.tag < a.tag := by
  show a.lexKey < b.lexKey ↔ _
  simp only [InternalKey.lexKey, Prod.Lex.toLex_lt_toLex]
  rfl

theorem InternalKey.userKey_le_of_le {a b : InternalKey K} (h : a ≤ b) :
    a.userKey ≤ b.userKey := by
  rcases h.lt_or_eq with h | rfl
  · rcases InternalKey.lt_iff.mp h with h | ⟨h, -⟩
    · exact h.le
    · exact h.le
  · exact le_rfl

/-- The comparator of the source and the order of the model agree. -/
theorem internalKeyCompare_eq_compare (a b : InternalKey K) :
    internalKeyCompare a b = compare a b := by
  rcases lt_trichotomy a b with h | rfl | h
  · rw [compare_lt_iff_lt.mpr h]
    rcases InternalKey.lt_iff.mp h with h | ⟨h1, h2⟩
    · simp [internalKeyCompare, compare_lt_iff_lt.mpr h]
    · simp only [internalKeyCompare, h1, compare_eq_iff_eq.mpr rfl]
      exact compare_lt_iff_lt.mpr h2
  · simp [internalKeyCompare]
  · rw [compare_gt_iff_gt.mpr h]
    rcases InternalKey.lt_iff.mp h with h | ⟨h1, h2⟩
    · simp [internalKeyCompare, compare_gt_iff_gt.mpr h]
    · simp only [internalKeyCompare, h1, compare_eq_iff_eq.mpr rfl]
      exact compare_gt_iff_gt.mpr h2

/-- A key of user key `u` lies at or after the seek key `InternalKey(u, kMaxSequenceNumber,
kValueTypeForSeek)` exactly when its tag is at most that key's, which every sequence number up to
`kMaxSequenceNumber` ensures. -/
theorem InternalKey.mk'_le_iff {u : K} {s : Nat} {t : ValueType}
    {k : InternalKey K} :
    InternalKey.mk' u s t ≤ k ↔ u < k.userKey ∨ u = k.userKey ∧ k.tag ≤ packSequenceAndType s t := by
  rw [← not_lt, InternalKey.lt_iff]
  simp only [InternalKey.mk', not_or, not_and, not_lt]
  constructor
  · rintro ⟨h1, h2⟩
    rcases h1.lt_or_eq with h | h
    · exact .inl h
    · exact .inr ⟨h, h2 h.symm⟩
  · rintro (h | ⟨rfl, h⟩)
    · exact ⟨h.le, fun h' => absurd h (by rw [h']; exact lt_irrefl _)⟩
    · exact ⟨le_rfl, fun _ => h⟩

end Order

/-- An entry of a table or of a merged iterator: an internal key and its value. -/
structure Entry (K V : Type) where
  key : InternalKey K
  value : V
  deriving DecidableEq, Repr

end DLSM
