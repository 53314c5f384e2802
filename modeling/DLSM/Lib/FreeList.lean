import Mathlib

/-! Fixed-size slots of an address range and a free list of them.  Slot `i` of a range at `base`
cut in chunks of `c` bytes is `[base + i * c, base + i * c + c)`; below `len / c` it lies inside
the range, two slots of one range are disjoint, and the offset of a slot divided by `c` gives
its index back.  A free list of the slots below `n` is valid for the slots in use when it holds
each other slot below `n` once and nothing else; taking the last index off it and pushing back
an index in use keep it valid for the slots in use after. -/

namespace FreeList

/-- The free list `free` of the slots below `n` holds each slot not in use once, and nothing
else. -/
def Valid (free : List Nat) (n : Nat) (inUse : Nat → Prop) : Prop :=
  free.Nodup ∧ ∀ i, i ∈ free ↔ i < n ∧ ¬inUse i

theorem valid_range (n : Nat) : Valid (List.range n) n fun _ => False :=
  ⟨List.nodup_range, fun i => by simp⟩

theorem Valid.congr {free : List Nat} {n : Nat} {inUse inUse' : Nat → Prop}
    (h : Valid free n inUse) (h' : ∀ i < n, inUse i ↔ inUse' i) : Valid free n inUse' :=
  ⟨h.1, fun i => by
    rw [h.2 i]
    constructor
    · exact fun ⟨hi, hu⟩ => ⟨hi, fun hu' => hu ((h' i hi).mpr hu')⟩
    · exact fun ⟨hi, hu⟩ => ⟨hi, fun hu' => hu ((h' i hi).mp hu')⟩⟩

/-- Taking the last index off the list puts its slot in use. -/
theorem Valid.dropLast {free : List Nat} {n : Nat} {inUse : Nat → Prop} {i : Nat}
    (h : Valid free n inUse) (hlast : free.getLast? = some i) :
    Valid free.dropLast n fun j => inUse j ∨ j = i := by
  obtain ⟨ys, rfl⟩ : ∃ ys, free = ys ++ [i] := by
    rw [List.getLast?_eq_some_iff] at hlast
    exact hlast
  have hnd : ys.Nodup ∧ i ∉ ys := by
    have := h.1
    rw [List.nodup_append] at this
    exact ⟨this.1, fun hi => this.2.2 i hi i (List.mem_singleton_self i) rfl⟩
  refine ⟨by rw [List.dropLast_concat]; exact hnd.1, fun j => ?_⟩
  rw [List.dropLast_concat]
  have hj := h.2 j
  simp only [List.mem_append, List.mem_singleton] at hj
  constructor
  · intro hmem
    have := hj.mp (.inl hmem)
    exact ⟨this.1, fun hu => hu.elim this.2 (fun hji => hnd.2 (hji ▸ hmem))⟩
  · rintro ⟨hjn, hu⟩
    rcases hj.mpr ⟨hjn, fun hu' => hu (.inl hu')⟩ with hmem | rfl
    · exact hmem
    · exact absurd (.inr rfl) hu

/-- Pushing an index in use back frees its slot. -/
theorem Valid.push {free : List Nat} {n : Nat} {inUse : Nat → Prop} {i : Nat}
    (h : Valid free n inUse) (hi : i < n) (hu : inUse i) :
    Valid (free ++ [i]) n fun j => inUse j ∧ j ≠ i := by
  have hnot : i ∉ free := fun hmem => ((h.2 i).mp hmem).2 hu
  refine ⟨List.nodup_append.mpr ⟨h.1, List.nodup_singleton i, ?_⟩, fun j => ?_⟩
  · intro a ha b hb hab
    rw [List.mem_singleton] at hb
    subst hb hab
    exact hnot ha
  · rw [List.mem_append, List.mem_singleton, h.2 j]
    constructor
    · rintro (⟨hjn, hju⟩ | rfl)
      · exact ⟨hjn, fun ⟨hu', _⟩ => hju hu'⟩
      · exact ⟨hi, fun ⟨_, hne⟩ => hne rfl⟩
    · rintro ⟨hjn, hj⟩
      by_cases hji : j = i
      · exact .inr hji
      · exact .inl ⟨hjn, fun hu' => hj ⟨hu', hji⟩⟩

end FreeList

namespace Slots

/-- Slots of one range are at distinct addresses. -/
theorem slot_inj {base c i j : Nat} (hc : 0 < c) (h : base + i * c = base + j * c) : i = j :=
  Nat.eq_of_mul_eq_mul_right hc (Nat.add_left_cancel h)

/-- A slot below `len / c` lies inside the range. -/
theorem slot_add_le {base c i len : Nat} (hi : i < len / c) : base + i * c + c ≤ base + len := by
  have h := Nat.div_mul_le_self len c
  have h' : (i + 1) * c ≤ len / c * c := Nat.mul_le_mul_right c hi
  rw [Nat.add_mul, Nat.one_mul] at h'
  omega

/-- The offset of a slot in its range, divided by the slot size, is its index. -/
theorem slot_sub_div {base c i : Nat} (hc : 0 < c) : (base + i * c - base) / c = i := by
  rw [Nat.add_sub_cancel_left, Nat.mul_div_cancel i hc]

/-- Two distinct slots of one range do not overlap. -/
theorem slot_disjoint {base c i j : Nat} (hij : i ≠ j) :
    base + i * c + c ≤ base + j * c ∨ base + j * c + c ≤ base + i * c := by
  rcases Nat.lt_or_gt_of_ne hij with h | h
  · have : (i + 1) * c ≤ j * c := Nat.mul_le_mul_right c h
    rw [Nat.add_mul, Nat.one_mul] at this
    exact .inl (by omega)
  · have : (j + 1) * c ≤ i * c := Nat.mul_le_mul_right c h
    rw [Nat.add_mul, Nat.one_mul] at this
    exact .inr (by omega)

end Slots
