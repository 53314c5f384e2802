import Mathlib

/-! Lower-bound binary search over the half-open interval `[left, right)`, for a predicate that
holds on a prefix of the indices.  Each step looks at `mid = (left + right) / 2` and keeps
`[mid + 1, right)` when the predicate holds there and `[left, mid)` when it fails.  With fuel at
least the length of the interval the search returns the first index from `left` on at which the
predicate fails, or `right` when it holds on the whole interval. -/

namespace BinarySearch

variable (p : Nat → Bool)

/-- The search with `fuel` steps left. -/
def lowerBound : Nat → Nat → Nat → Nat
  | 0, _, right => right
  | fuel + 1, left, right =>
    if left < right then
      if p ((left + right) / 2) then lowerBound fuel ((left + right) / 2 + 1) right
      else lowerBound fuel left ((left + right) / 2)
    else right

/-- The predicate holds on a prefix of the indices: where it holds, it holds at every index
before. -/
def Prefix : Prop := ∀ i j, i ≤ j → p j = true → p i = true

/-- `r` splits `[left, right]`: the predicate holds from `left` up to `r` and fails from `r` up
to `right`. -/
structure Splits (left right r : Nat) : Prop where
  left_le : left ≤ r
  le_right : r ≤ right
  holds : ∀ i, left ≤ i → i < r → p i = true
  fails : ∀ i, r ≤ i → i < right → p i = false

variable {p}

theorem splits_self (left : Nat) : Splits p left left left :=
  ⟨Nat.le_refl _, Nat.le_refl _, fun _ h1 h2 => absurd h2 (by omega),
    fun _ h1 h2 => absurd h2 (by omega)⟩

/-- With enough fuel, the search splits its interval. -/
theorem lowerBound_splits (hp : Prefix p) :
    ∀ fuel left right, left ≤ right → right - left ≤ fuel →
      Splits p left right (lowerBound p fuel left right)
  | 0, left, right, hlr, hfuel => by
    obtain rfl : right = left := by omega
    exact splits_self _
  | fuel + 1, left, right, hlr, hfuel => by
    rw [lowerBound]
    split_ifs with hlt hmid
    · -- `p` holds at `mid`, so on all of `[left, mid]`
      have h := lowerBound_splits hp fuel ((left + right) / 2 + 1) right (by omega) (by omega)
      refine ⟨by have := h.left_le; omega, h.le_right, fun i hi1 hi2 => ?_, h.fails⟩
      by_cases hi : i ≤ (left + right) / 2
      · exact hp i _ hi hmid
      · exact h.holds i (by omega) hi2
    · -- `p` fails at `mid`, so on all of `[mid, right)`
      have h := lowerBound_splits hp fuel left ((left + right) / 2) (by omega) (by omega)
      refine ⟨h.left_le, by have := h.le_right; omega, h.holds, fun i hi1 hi2 => ?_⟩
      by_cases hi : i < (left + right) / 2
      · exact h.fails i hi1 hi
      · cases hpi : p i
        · rfl
        · exact absurd (hp _ i (by omega) hpi) hmid
    · obtain rfl : right = left := by omega
      exact splits_self _

end BinarySearch
