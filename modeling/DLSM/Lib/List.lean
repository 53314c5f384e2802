import Mathlib

/-! Facts about lists that the core library states only for a single predicate or not at all:
prefixes cut by `dropWhile` under two predicates that agree on the list, the prefix of a list
sorted by a key up to the first element at or above a bound, what `modify` and `eraseIdx` do
to the members of a list and to its image under a map, how `findSome?` passes through `filter`
and `filterMap`, that insertion sort, being stable, commutes with `filter`, how far a run of
entries equal to one value reaches from an index, and the element at an index as the one between
the elements before and after it, counted from either end. -/

namespace List

variable {α β : Type}

theorem dropWhile_congr_mem {p q : α → Bool} :
    ∀ {l : List α}, (∀ x ∈ l, p x = q x) → l.dropWhile p = l.dropWhile q
  | [], _ => rfl
  | x :: xs, h => by
    have hx := h x (mem_cons_self ..)
    have hxs : ∀ y ∈ xs, p y = q y := fun y hy => h y (mem_cons_of_mem _ hy)
    simp only [dropWhile_cons, hx]
    split
    · exact dropWhile_congr_mem hxs
    · rfl

section Sorted

variable [LinearOrder β] (f : α → β)

/-- In a list sorted by `f` that holds an element of value `b`, the first element that is not
below `b` has value `b`. -/
theorem dropWhile_eq_cons_of_sorted {l : List α} (hl : l.Pairwise fun x y => f x ≤ f y) {b : β}
    {y : α} (hy : y ∈ l) (hyb : f y = b) :
    ∃ d rest, l.dropWhile (fun x => decide (f x < b)) = d :: rest ∧ f d = b := by
  induction l with
  | nil => cases hy
  | cons x xs ih =>
    rw [dropWhile_cons]
    split
    · rename_i hx
      rcases mem_cons.mp hy with rfl | hy
      · simp only [decide_eq_true_eq] at hx
        exact absurd hyb (ne_of_lt hx)
      · exact ih (pairwise_cons.mp hl).2 hy
    · rename_i hx
      refine ⟨x, xs, rfl, le_antisymm ?_ (by simpa using hx)⟩
      rcases mem_cons.mp hy with rfl | hy
      · exact hyb.le
      · exact hyb ▸ (pairwise_cons.mp hl).1 y hy

/-- In a list strictly increasing under `f`, the last element has the largest value. -/
theorem le_of_mem_getLast? {l : List α} (hl : l.Pairwise fun x y => f x < f y) {e x : α}
    (he : e ∈ l) (hx : x ∈ l.getLast?) : f e ≤ f x := by
  obtain ⟨ys, rfl⟩ := getLast?_eq_some_iff.mp hx
  rcases mem_append.mp he with h | h
  · exact ((pairwise_append.mp hl).2.2 e h x (mem_singleton_self x)).le
  · rw [mem_singleton.mp h]

/-- In a list strictly increasing under `f`, the first element has the smallest value. -/
theorem le_of_mem_head? {l : List α} (hl : l.Pairwise fun x y => f x < f y) {e x : α}
    (he : e ∈ l) (hx : x ∈ l.head?) : f x ≤ f e := by
  obtain ⟨ys, rfl⟩ := head?_eq_some_iff.mp hx
  rcases mem_cons.mp he with rfl | h
  · exact le_rfl
  · exact ((pairwise_cons.mp hl).1 e h).le

end Sorted

section Modify

variable {f : α → α} {i : Nat} {l : List α}

theorem mem_modify {a : α} (h : a ∈ l.modify i f) : a ∈ l ∨ ∃ b, l[i]? = some b ∧ a = f b := by
  by_cases hi : i < l.length
  · obtain ⟨l₁, b, l₂, rfl, hl, heq⟩ := exists_of_modify f hi
    rw [heq] at h
    have hb : (l₁ ++ b :: l₂)[i]? = some b := by
      rw [getElem?_append_right (by omega)]
      simp [hl]
    rcases mem_append.mp h with h | h
    · exact .inl (mem_append_left _ h)
    · rcases mem_cons.mp h with rfl | h
      · exact .inr ⟨b, hb, rfl⟩
      · exact .inl (mem_append_right _ (mem_cons_of_mem _ h))
  · rw [modify_eq_self (by omega)] at h
    exact .inl h

/-- A `modify` that keeps `g` of every element keeps the image under `g`. -/
theorem map_modify_of_eq {g : α → β} (hf : ∀ x, g (f x) = g x) :
    ∀ (i : Nat) (l : List α), (l.modify i f).map g = l.map g
  | _, [] => by simp
  | 0, x :: xs => by simp [hf]
  | i + 1, x :: xs => by simp [map_modify_of_eq hf i xs]

end Modify

/-- Erasing the element at `i` from a list whose image under `g` has no duplicates takes exactly
its image out of the image. -/
theorem mem_map_eraseIdx_iff [DecidableEq β] {g : α → β} {l : List α} {i : Nat} {b : α} (hl : (l.map g).Nodup)
    (hb : l[i]? = some b) {y : β} : y ∈ (l.eraseIdx i).map g ↔ y ≠ g b ∧ y ∈ l.map g := by
  have hi : i < l.length := by
    by_contra h
    rw [getElem?_eq_none (by omega)] at hb
    cases hb
  have hi' : i < (l.map g).length := by simpa using hi
  have hgb : (l.map g)[i] = g b := by
    simp [(getElem?_eq_some_iff.mp hb).2]
  rw [← eraseIdx_map, ← hl.erase_getElem i hi', hgb]
  exact hl.mem_erase_iff

section Search

variable {γ : Type}

/-- A filter by a stronger predicate, which drops a member that the weaker one keeps, is
shorter. -/
theorem length_filter_lt_length_filter {p q : α → Bool} :
    ∀ {l : List α}, (∀ x ∈ l, p x → q x) → ∀ {y : α}, y ∈ l → q y = true → p y = false →
      (l.filter p).length < (l.filter q).length
  | [], _, _, hy, _, _ => absurd hy List.not_mem_nil
  | x :: l, hpq, y, hy, hqy, hpy => by
    have hle : (l.filter p).length ≤ (l.filter q).length := by
      rw [← countP_eq_length_filter, ← countP_eq_length_filter]
      exact countP_mono_left fun z hz => hpq z (mem_cons_of_mem x hz)
    rcases mem_cons.mp hy with rfl | hy
    · simp [hqy, hpy]
      omega
    · have := length_filter_lt_length_filter (fun z hz => hpq z (mem_cons_of_mem x hz)) hy hqy hpy
      by_cases hpx : p x = true
      · simp [hpx, hpq x mem_cons_self hpx]
        omega
      · by_cases hqx : q x = true <;> simp [hpx, hqx] <;> omega

theorem findSome?_congr {f g : α → Option β} :
    ∀ {l : List α}, (∀ x ∈ l, f x = g x) → l.findSome? f = l.findSome? g
  | [], _ => rfl
  | x :: xs, h => by
    rw [findSome?_cons, findSome?_cons, h x mem_cons_self,
      findSome?_congr fun y hy => h y (mem_cons_of_mem _ hy)]

theorem findSome?_filterMap (f : α → Option β) (g : β → Option γ) :
    ∀ l : List α, (l.filterMap f).findSome? g = l.findSome? fun x => (f x).bind g
  | [] => rfl
  | x :: xs => by
    cases hx : f x with
    | none => simp [hx, findSome?_filterMap f g xs]
    | some y => simp [hx, findSome?_cons, findSome?_filterMap f g xs]

/-- A search may skip the elements a filter removes when it finds nothing in them. -/
theorem findSome?_filter_of_none {q : α → Bool} {f : α → Option β} :
    ∀ {l : List α}, (∀ x ∈ l, q x = false → f x = none) → (l.filter q).findSome? f = l.findSome? f
  | [], _ => rfl
  | x :: xs, h => by
    have ih := findSome?_filter_of_none fun y hy => h y (mem_cons_of_mem _ hy)
    cases hq : q x
    · simp [hq, h x mem_cons_self hq, ih]
    · simp [hq, findSome?_cons, ih]

end Search

section InsertionSort

variable (r : α → α → Prop) [DecidableRel r]

theorem orderedInsert_eq_cons {a : α} : ∀ {l : List α}, (∀ x ∈ l, r a x) → l.orderedInsert r a = a :: l
  | [], _ => rfl
  | b :: _, h => orderedInsert_cons_of_le r _ (h b mem_cons_self)

/-- Inserting into a sorted list and then filtering is filtering and then inserting, when the
inserted element is kept. -/
theorem orderedInsert_filter [IsTrans α r] (q : α → Bool) (a : α) :
    ∀ {l : List α}, l.Pairwise r →
      (l.orderedInsert r a).filter q = if q a then (l.filter q).orderedInsert r a else l.filter q
  | [], _ => by cases hq : q a <;> simp [hq]
  | b :: l, hl => by
    obtain ⟨hb, hl'⟩ := pairwise_cons.mp hl
    by_cases hab : r a b
    · -- `a` goes before `b`, and so before every element of the list
      rw [orderedInsert_cons_of_le r _ hab]
      cases hq : q a
      · simp [filter_cons, hq]
      · have hfront : ∀ x ∈ (b :: l).filter q, r a x := by
          intro x hx
          rcases mem_cons.mp (mem_of_mem_filter hx) with rfl | hx
          · exact hab
          · exact trans_of r hab (hb x hx)
        rw [filter_cons_of_pos hq, if_pos rfl, orderedInsert_eq_cons r hfront]
    · rw [orderedInsert_of_not_le r _ hab, filter_cons, orderedInsert_filter q a hl']
      cases hqb : q b <;> cases hqa : q a <;> simp [hqb, hab]

/-- Insertion sort is stable: sorting a filtered list is filtering the sorted list. -/
theorem insertionSort_filter [Std.Total r] [IsTrans α r] (q : α → Bool) :
    ∀ l : List α, (l.filter q).insertionSort r = (l.insertionSort r).filter q
  | [] => rfl
  | a :: l => by
    rw [insertionSort_cons, orderedInsert_filter r q a (pairwise_insertionSort r l), filter_cons]
    cases hq : q a <;> simp [insertionSort_filter q l]

end InsertionSort

section Run

variable [BEq α] [LawfulBEq α]

/-- A run of entries equal to `b` from index `r` stops before an index `m ≥ r` whose entry is
not `b`. -/
theorem add_length_takeWhile_drop_le {l : List α} {b : α} {r m : Nat} (hrm : r ≤ m)
    (hm : m < l.length) (hne : l[m] ≠ b) : r + ((l.drop r).takeWhile (· == b)).length ≤ m := by
  by_contra hlt
  have hi : m - r < ((l.drop r).takeWhile (· == b)).length := by omega
  have heq : ((l.drop r).takeWhile (· == b))[m - r] = l[m] := by
    rw [IsPrefix.getElem ( takeWhile_prefix _) hi, getElem_drop]
    congr 1
    omega
  have hb : (((l.drop r).takeWhile (· == b))[m - r] == b) = true :=
    mem_takeWhile_imp (p := (· == b)) (getElem_mem hi)
  exact hne (heq ▸ beq_iff_eq.mp hb)

/-- A run of entries equal to `b` from an index whose entry is `b` passes that index. -/
theorem lt_add_length_takeWhile_drop {l : List α} {b : α} {r : Nat} (hr : r < l.length)
    (heq : l[r] = b) : r < r + ((l.drop r).takeWhile (· == b)).length := by
  rw [drop_eq_getElem_cons hr, takeWhile_cons_of_pos (by simp [heq])]
  simp

end Run

section Index

variable {xs : List α}

/-- The element at `i` between those before it and those after it. -/
theorem take_append_getElem_cons_drop {i : Nat} (hi : i < xs.length) :
    xs.take i ++ xs[i] :: xs.drop (i + 1) = xs := by
  rw [← drop_eq_getElem_cons hi, take_append_drop]

/-- The last of the first `j` elements, counted from the end. -/
theorem getLast?_take_eq_getElem?_reverse {j : Nat} (hj : j ≤ xs.length) :
    (xs.take j).getLast? = xs.reverse[xs.length - j]? := by
  rw [getLast?_take]
  split_ifs with h0
  · subst h0
    simp
  · have hidx : xs.length - 1 - (xs.length - j) = j - 1 := by omega
    rw [getElem?_reverse (by omega), hidx, getElem?_eq_getElem (by omega), Option.some_or]

end Index

end List
