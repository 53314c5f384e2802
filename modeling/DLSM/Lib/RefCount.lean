import Mathlib

/-! The books of a reference-counted object under a protocol that frees it when the count
drops to zero.  Beside the count `refs` stand the number of `holders` that own a reference, the
frees `pending` (a holder took the count to zero and has not yet freed the object) and the
frees done, `reclaims`.  The books balance when the count is the number of holders and the
object is either live (held, no free pending, never freed) or dead (unheld, and freed once or
about to be).  Each operation of such a protocol keeps the books balanced; from balance follow
the safety facts: the count is never negative, an object is freed at most once, never while it
is held, and an object nobody holds or is about to free has been freed. -/

namespace RefCount

/-- The count matches the holders, and the object is live or dead. -/
structure Balanced (refs : Int) (holders pending reclaims : Nat) : Prop where
  refs_eq : refs = holders
  live_or_dead : (0 < holders ∧ pending = 0 ∧ reclaims = 0) ∨ (holders = 0 ∧ pending + reclaims = 1)

variable {r : Int} {k p c : Nat}

theorem Balanced.of_eq {r' : Int} {k' p' c' : Nat} (h : Balanced r k p c) (hr : r' = r)
    (hk : k' = k) (hp : p' = p) (hc : c' = c) : Balanced r' k' p' c' := by
  subst hr hk hp hc
  exact h

/-- A new object with its one reference. -/
theorem create : Balanced 1 1 0 0 := ⟨rfl, .inl ⟨Nat.one_pos, rfl, rfl⟩⟩

/-- A holder passes its reference on, or a reference moves between holders. -/
theorem Balanced.acquire (h : Balanced r k p c) (hk : 0 < k) : Balanced (r + 1) (k + 1) p c := by
  obtain ⟨hr, hl | hd⟩ := h
  · exact ⟨by rw [hr]; push_cast; rfl, .inl ⟨by omega, hl.2⟩⟩
  · omega

/-- A holder drops its reference, leaving `k'` holders; the one that drops the last is left to
free the object. -/
theorem Balanced.release {k' : Nat} (h : Balanced r k p c) (hk : k = k' + 1) :
    Balanced (r - 1) k' (if r = 1 then p + 1 else p) c := by
  obtain ⟨hr, hl | hd⟩ := h
  · refine ⟨by rw [hr]; omega, ?_⟩
    by_cases h1 : r = 1
    · rw [if_pos h1]
      exact .inr ⟨by omega, by omega⟩
    · rw [if_neg h1]
      exact .inl ⟨by omega, hl.2⟩
  · omega

/-- A pending free is carried out, leaving `p'` pending. -/
theorem Balanced.reclaim {p' : Nat} (h : Balanced r k p c) (hp : p = p' + 1) :
    Balanced r k p' (c + 1) := by
  obtain ⟨hr, hl | hd⟩ := h
  · omega
  · exact ⟨hr, .inr ⟨hd.1, by omega⟩⟩

theorem Balanced.refs_nonneg (h : Balanced r k p c) : 0 ≤ r := by
  rw [h.refs_eq]; exact Int.natCast_nonneg k

theorem Balanced.reclaims_le_one (h : Balanced r k p c) : c ≤ 1 := by
  rcases h.live_or_dead with hl | hd <;> omega

/-- While a free is pending, nobody holds the object, the count is zero, and it has not been
freed before. -/
theorem Balanced.of_pending (h : Balanced r k p c) (hp : 0 < p) : k = 0 ∧ r = 0 ∧ c = 0 := by
  have hr := h.refs_eq
  rcases h.live_or_dead with hl | hd <;> omega

/-- An object nobody holds or is about to free has been freed. -/
theorem Balanced.reclaimed (h : Balanced r k p c) (hk : k = 0) (hp : p = 0) : c = 1 := by
  rcases h.live_or_dead with hl | hd <;> omega

/-- The holders of an object counted over a family of threads: a change to one thread's
holdings changes the count by the same amount. -/
theorem sum_update_add {ι M : Type} [Fintype ι] [DecidableEq ι] [AddCommMonoid M] (f : ι → M)
    (i : ι) (b : M) : ∑ j, Function.update f i b j + f i = ∑ j, f j + b := by
  have hi := Finset.mem_univ i
  calc ∑ j, Function.update f i b j + f i
      = (∑ j ∈ Finset.univ.erase i, Function.update f i b j + Function.update f i b i) + f i := by
        rw [Finset.sum_erase_add _ _ hi]
    _ = (∑ j ∈ Finset.univ.erase i, f j + f i) + b := by
        rw [Finset.sum_update_of_notMem (Finset.notMem_erase i _), Function.update_self,
          add_right_comm]
    _ = ∑ j, f j + b := by rw [Finset.sum_erase_add _ _ hi]

end RefCount
