import Mathlib

/-! The cells of a ring over a list: `span l start count` walks `count` cells of `l` from index
`start` on, wrapping from the last cell to the first.  Dropping the oldest cells of a span moves
its start; one more cell is the one after its end; a cell inserted just before the start, with
the start moved past it, leaves the walk over the whole ring as it was; and over distinct cells
the cell after a span that is not the whole ring is not in it. -/

namespace Ring

variable {α : Type}

/-- The `count` cells of the ring `l` from index `start` on. -/
def span (l : List α) (start : Nat) : Nat → List α
  | 0 => []
  | count + 1 => span l start count ++ (l[(start + count) % l.length]?).toList

@[simp] theorem span_zero (l : List α) (start : Nat) : span l start 0 = [] := rfl

theorem span_succ (l : List α) (start count : Nat) :
    span l start (count + 1) = span l start count ++ (l[(start + count) % l.length]?).toList :=
  rfl

/-- One more cell of a ring that has cells is the cell after the span's end. -/
theorem span_succ_of_ne_nil {l : List α} (hl : l ≠ []) (start count : Nat) :
    span l start (count + 1) =
      span l start count ++ [l.get ⟨(start + count) % l.length, Nat.mod_lt _ (List.length_pos_of_ne_nil hl)⟩] := by
  rw [span_succ, List.getElem?_eq_getElem (Nat.mod_lt _ (List.length_pos_of_ne_nil hl))]
  rfl

theorem length_span {l : List α} (hl : l ≠ []) (start : Nat) :
    ∀ count, (span l start count).length = count
  | 0 => rfl
  | count + 1 => by rw [span_succ_of_ne_nil hl, List.length_append, length_span hl start count]; rfl

/-- A start past the end of the ring is its remainder. -/
theorem span_mod (l : List α) (start : Nat) :
    ∀ count, span l (start % l.length) count = span l start count
  | 0 => rfl
  | count + 1 => by
    rw [span_succ, span_succ, span_mod l start count, Nat.mod_add_mod]

/-- Dropping the `k` oldest cells of a span starts it `k` cells later. -/
theorem drop_span {l : List α} (hl : l ≠ []) (start : Nat) :
    ∀ {count k : Nat}, k ≤ count → (span l start count).drop k = span l (start + k) (count - k)
  | 0, k, hk => by rw [Nat.le_zero.mp hk]; rfl
  | count + 1, k, hk => by
    rcases Nat.lt_or_ge count k with hlt | hle
    · -- all cells dropped
      obtain rfl : k = count + 1 := by omega
      rw [List.drop_eq_nil_of_le (Nat.le_of_eq (length_span hl start _)), Nat.sub_self]
      rfl
    · rw [span_succ, List.drop_append_of_le_length (by rw [length_span hl]; exact hle),
        drop_span hl start hle, show count + 1 - k = count - k + 1 by omega, span_succ,
        show start + k + (count - k) = start + count by omega]

theorem mem_span_iff {l : List α} {start count : Nat} {x : α} :
    x ∈ span l start count ↔ ∃ i < count, l[(start + i) % l.length]? = some x := by
  induction count with
  | zero => simp
  | succ count ih =>
    rw [span_succ, List.mem_append, ih]
    constructor
    · rintro (⟨i, hi, hx⟩ | hx)
      · exact ⟨i, by omega, hx⟩
      · exact ⟨count, by omega, by simpa using hx⟩
    · rintro ⟨i, hi, hx⟩
      rcases Nat.lt_or_ge i count with hlt | hge
      · exact .inl ⟨i, hlt, hx⟩
      · obtain rfl : i = count := by omega
        exact .inr (by simpa using hx)

/-- A cell inserted at index `start`, with the walk started past it, leaves a walk of at most
the ring's length as it was. -/
theorem span_insertIdx {l : List α} {start : Nat} (hs : start < l.length) (x : α) :
    ∀ {count : Nat}, count ≤ l.length →
      span (l.insertIdx start x) (start + 1) count = span l start count
  | 0, _ => rfl
  | count + 1, hc => by
    rw [span_succ, span_succ, span_insertIdx hs x (by omega), List.length_insertIdx,
      if_pos (Nat.le_of_lt hs)]
    congr 2
    by_cases hwrap : start + count < l.length
    · -- a cell after the inserted one, one index further on
      rw [Nat.mod_eq_of_lt (show start + 1 + count < l.length + 1 by omega),
        Nat.mod_eq_of_lt hwrap, List.getElem?_insertIdx, if_neg (by omega), if_neg (by omega),
        show start + 1 + count - 1 = start + count by omega]
    · -- a cell past the end, wrapped to before the inserted one
      have hm : (start + 1 + count) % (l.length + 1) = start + count - l.length := by
        rw [Nat.mod_eq_sub_mod (by omega), Nat.mod_eq_of_lt (by omega)]
        omega
      have hm' : (start + count) % l.length = start + count - l.length := by
        rw [Nat.mod_eq_sub_mod (by omega), Nat.mod_eq_of_lt (by omega)]
      rw [hm, hm', List.getElem?_insertIdx, if_pos (by omega)]

/-- Over distinct cells, the cell after a span that is not the whole ring is not in it. -/
theorem get_not_mem_span {l : List α} (hnd : l.Nodup) {start count : Nat}
    (hcount : count < l.length) :
    l.get ⟨(start + count) % l.length, Nat.mod_lt _ (by omega)⟩ ∉ span l start count := by
  intro hmem
  obtain ⟨i, hi, hx⟩ := mem_span_iff.mp hmem
  have hlt : (start + i) % l.length < l.length := Nat.mod_lt _ (by omega)
  rw [List.getElem?_eq_getElem hlt, Option.some_inj, List.get_eq_getElem, hnd.getElem_inj_iff] at hx
  -- two cells fewer than the ring's length apart are at different indices
  have h0 := Nat.sub_mod_eq_zero_of_mod_eq hx.symm
  rw [show start + count - (start + i) = count - i by omega, Nat.mod_eq_of_lt (by omega)] at h0
  omega

end Ring
