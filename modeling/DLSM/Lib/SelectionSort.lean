import Mathlib

/-! Selection sort by exchanges, the way array code writes it: the pass at position `i` exchanges
position `i` with each later position whose key is higher, so that afterwards position `i` holds
a highest key of the positions from `i` on, and the passes at `0, 1, …, n - 2` sort an array of
length `n` by key, highest first.  An exchange is the two writes `a[i] := a[j]; a[j] := old a[i]`,
with reads that default to `d`.  The sort is a permutation of its input, and after the passes at
`0` to `m - 1` each of the first `m` positions dominates every later one. -/

namespace SelectionSort

variable {α β : Type} [LinearOrder β] (key : α → β) (d : α)

/-- The exchange of positions `i` and `j` when the key at `j` is higher. -/
def exchange (i : Nat) (a : List α) (j : Nat) : List α :=
  if key (a.getD i d) < key (a.getD j d) then (a.set i (a.getD j d)).set j (a.getD i d) else a

/-- The pass at position `i` over the positions `js`. -/
def pass (i : Nat) (js : List Nat) (a : List α) : List α := js.foldl (exchange key d i) a

/-- The passes at `0` to `m - 1` on an array of length `n`, each over the positions after it. -/
def sortUpTo (n m : Nat) (a : List α) : List α :=
  (List.range m).foldl (fun a i => pass key d i (List.range' (i + 1) (n - 1 - i)) a) a

/-- Selection sort of an array of length `n`. -/
def sort (n : Nat) (a : List α) : List α := sortUpTo key d n (n - 1) a

/-- Each of the first `m` positions holds a key at least that of every later position. -/
def Dominates (m : Nat) (a : List α) : Prop :=
  ∀ k j, k < m → k < j → j < a.length → key (a.getD j d) ≤ key (a.getD k d)

variable {key d}

section Exchange

variable {i j : Nat} {a : List α}

theorem exchange_eq (hi : i < a.length) (hj : j < a.length) :
    exchange key d i a j = if key (a.getD i d) < key (a.getD j d) then a.swap i j else a := by
  rw [exchange, List.swap_eq_of_lt hi hj, ← List.getD_eq_getElem _ d hi, ← List.getD_eq_getElem _ d hj]

theorem getD_swap (hi : i < a.length) (hj : j < a.length) (p : Nat) :
    (a.swap i j).getD p d =
      if p = i then a.getD j d else if p = j then a.getD i d else a.getD p d := by
  by_cases hp : p < a.length
  · rw [List.getD_eq_getElem _ _ (by simpa using hp), List.getElem_swap]
    split_ifs <;> simp_all
  · have hpi : p ≠ i := by omega
    have hpj : p ≠ j := by omega
    simp [List.getD_eq_getElem?_getD, hpi, hpj, hp]

@[simp] theorem length_exchange (i j : Nat) (a : List α) :
    (exchange key d i a j).length = a.length := by
  unfold exchange
  split <;> simp

theorem exchange_perm (hi : i < a.length) (hj : j < a.length) :
    (exchange key d i a j).Perm a := by
  rw [exchange_eq hi hj]
  split
  · exact List.swap_perm a i j
  · exact List.Perm.refl a

theorem getD_exchange_of_ne (hi : i < a.length) (hj : j < a.length) {k : Nat} (hki : k ≠ i)
    (hkj : k ≠ j) : (exchange key d i a j).getD k d = a.getD k d := by
  rw [exchange_eq hi hj]
  split
  · rw [getD_swap hi hj, if_neg hki, if_neg hkj]
  · rfl

/-- The key at `i` never goes down. -/
theorem le_key_exchange (hi : i < a.length) (hj : j < a.length) :
    key (a.getD i d) ≤ key ((exchange key d i a j).getD i d) := by
  rw [exchange_eq hi hj]
  split_ifs with h
  · rw [getD_swap hi hj, if_pos rfl]
    exact h.le
  · exact le_rfl

/-- After the exchange, the key at `j` is at most the key at `i`. -/
theorem key_exchange_le (hi : i < a.length) (hj : j < a.length) :
    key ((exchange key d i a j).getD j d) ≤ key ((exchange key d i a j).getD i d) := by
  rw [exchange_eq hi hj]
  split_ifs with h
  · rw [getD_swap hi hj j, getD_swap hi hj i, if_pos rfl]
    by_cases hji : j = i
    · subst hji
      simp
    · rw [if_neg hji, if_pos rfl]
      exact h.le
  · exact not_lt.mp h

/-- Every value after the exchange was at the same position, at `i` or at `j`. -/
theorem getD_exchange_mem (key : α → β) (hi : i < a.length) (hj : j < a.length) (p : Nat) :
    (exchange key d i a j).getD p d = a.getD p d ∨ (exchange key d i a j).getD p d = a.getD i d ∨
      (exchange key d i a j).getD p d = a.getD j d := by
  rw [exchange_eq hi hj]
  split
  · rw [getD_swap hi hj]
    split_ifs <;> simp
  · exact .inl rfl

/-- An exchange of two positions at or after `m` keeps the first `m` positions dominant. -/
theorem dominates_exchange {m : Nat} (h : Dominates key d m a) (hi : i < a.length)
    (hj : j < a.length) (hmi : m ≤ i) (hmj : m ≤ j) : Dominates key d m (exchange key d i a j) := by
  intro k p hk hkp hp
  rw [length_exchange] at hp
  have hk' : (exchange key d i a j).getD k d = a.getD k d :=
    getD_exchange_of_ne hi hj (by omega) (by omega)
  rw [hk']
  rcases getD_exchange_mem key hi hj p with hv | hv | hv <;> rw [hv]
  · exact h k p hk hkp hp
  · exact h k i hk (by omega) hi
  · exact h k j hk (by omega) hj

end Exchange

section Pass

variable {i : Nat}

@[simp] theorem length_pass : ∀ (js : List Nat) (a : List α), (pass key d i js a).length = a.length
  | [], _ => rfl
  | j :: js, a => by
    rw [pass, List.foldl_cons, ← pass, length_pass js, length_exchange]

theorem pass_cons (j : Nat) (js : List Nat) (a : List α) :
    pass key d i (j :: js) a = pass key d i js (exchange key d i a j) := rfl

theorem pass_perm : ∀ {js : List Nat} {a : List α}, i < a.length → (∀ j ∈ js, j < a.length) →
    (pass key d i js a).Perm a
  | [], _, _, _ => List.Perm.refl _
  | j :: js, a, hi, hjs => by
    have hj := hjs j List.mem_cons_self
    rw [pass_cons]
    refine (pass_perm (by simpa using hi) fun j' hj' => ?_).trans (exchange_perm hi hj)
    simpa using hjs j' (List.mem_cons_of_mem _ hj')

theorem getD_pass_of_ne : ∀ {js : List Nat} {a : List α}, i < a.length →
    (∀ j ∈ js, j < a.length) → ∀ {k : Nat}, k ≠ i → k ∉ js →
      (pass key d i js a).getD k d = a.getD k d
  | [], _, _, _, _, _, _ => rfl
  | j :: js, a, hi, hjs, k, hki, hkjs => by
    have hj := hjs j List.mem_cons_self
    rw [pass_cons, getD_pass_of_ne (by simpa using hi)
      (fun j' hj' => by simpa using hjs j' (List.mem_cons_of_mem _ hj')) hki
      (fun h => hkjs (List.mem_cons_of_mem _ h))]
    exact getD_exchange_of_ne hi hj hki fun h => hkjs (h ▸ List.mem_cons_self)

theorem le_key_pass : ∀ {js : List Nat} {a : List α}, i < a.length → (∀ j ∈ js, j < a.length) →
    key (a.getD i d) ≤ key ((pass key d i js a).getD i d)
  | [], _, _, _ => le_rfl
  | j :: js, a, hi, hjs => by
    have hj := hjs j List.mem_cons_self
    rw [pass_cons]
    exact (le_key_exchange hi hj).trans
      (le_key_pass (by simpa using hi) fun j' hj' => by simpa using hjs j' (List.mem_cons_of_mem _ hj'))

/-- After the pass, each of its positions holds a key at most the key at `i`. -/
theorem key_pass_le : ∀ {js : List Nat} {a : List α}, i < a.length → (∀ j ∈ js, j < a.length) →
    ∀ j ∈ js, key ((pass key d i js a).getD j d) ≤ key ((pass key d i js a).getD i d)
  | [], _, _, _, _, hj => nomatch hj
  | j :: js, a, hi, hjs, j', hj' => by
    have hj := hjs j List.mem_cons_self
    have hi' : i < (exchange key d i a j).length := by simpa using hi
    have hjs' : ∀ j' ∈ js, j' < (exchange key d i a j).length := fun j' hj' => by
      simpa using hjs j' (List.mem_cons_of_mem _ hj')
    rw [pass_cons]
    by_cases hmem : j' ∈ js
    · exact key_pass_le hi' hjs' j' hmem
    · -- `j'` is the head and the rest of the pass leaves it alone, while the key at `i` only grows
      obtain rfl : j' = j := by simpa [hmem] using hj'
      by_cases hji : j' = i
      · rw [hji]
      · rw [getD_pass_of_ne hi' hjs' hji hmem]
        exact (key_exchange_le hi hj).trans (le_key_pass hi' hjs')

theorem dominates_pass {m : Nat} : ∀ {js : List Nat} {a : List α}, Dominates key d m a →
    i < a.length → (∀ j ∈ js, j < a.length) → m ≤ i → (∀ j ∈ js, m ≤ j) →
      Dominates key d m (pass key d i js a)
  | [], _, h, _, _, _, _ => h
  | j :: js, a, h, hi, hjs, hmi, hmjs => by
    have hj := hjs j List.mem_cons_self
    rw [pass_cons]
    exact dominates_pass (dominates_exchange h hi hj hmi (hmjs j List.mem_cons_self)) (by simpa using hi)
      (fun j' hj' => by simpa using hjs j' (List.mem_cons_of_mem _ hj')) hmi
      fun j' hj' => hmjs j' (List.mem_cons_of_mem _ hj')

end Pass

section Sorting

variable {n : Nat} {a : List α}

theorem sortUpTo_succ (m : Nat) :
    sortUpTo key d n (m + 1) a =
      pass key d m (List.range' (m + 1) (n - 1 - m)) (sortUpTo key d n m a) := by
  simp [sortUpTo, List.range_succ, List.foldl_append]

/-- The passes at `0` to `m - 1` permute the array and leave its first `m` positions dominant. -/
theorem sortUpTo_spec (ha : a.length = n) :
    ∀ m, m ≤ n - 1 → (sortUpTo key d n m a).Perm a ∧ Dominates key d m (sortUpTo key d n m a)
  | 0, _ => ⟨List.Perm.refl a, fun _ _ hk => absurd hk (Nat.not_lt_zero _)⟩
  | m + 1, hm => by
    obtain ⟨hperm, hdom⟩ := sortUpTo_spec ha m (by omega)
    have hlen : (sortUpTo key d n m a).length = n := hperm.length_eq.trans ha
    have hi : m < (sortUpTo key d n m a).length := by omega
    have hjs : ∀ j ∈ List.range' (m + 1) (n - 1 - m), j < (sortUpTo key d n m a).length := by
      intro j hj
      rw [List.mem_range'_1] at hj
      omega
    rw [sortUpTo_succ]
    refine ⟨(pass_perm hi hjs).trans hperm, fun k j hk hkj hj => ?_⟩
    rcases Nat.lt_succ_iff_lt_or_eq.mp hk with hk | rfl
    · -- an earlier position: the pass exchanges only positions from `m` on
      exact dominates_pass hdom hi hjs (Nat.le_refl m) (fun j hj => by rw [List.mem_range'_1] at hj; omega)
        k j hk hkj hj
    · -- position `m` itself: the pass has just put a highest key there
      rw [length_pass] at hj
      exact key_pass_le hi hjs j (List.mem_range'_1.mpr ⟨hkj, by omega⟩)

theorem sort_perm (ha : a.length = n) : (sort key d n a).Perm a :=
  (sortUpTo_spec ha (n - 1) (Nat.le_refl _)).1

theorem sort_pairwise (ha : a.length = n) : (sort key d n a).Pairwise fun x y => key y ≤ key x := by
  have hspec : (sortUpTo key d n (n - 1) a).Perm a ∧ Dominates key d (n - 1) (sortUpTo key d n (n - 1) a) :=
    sortUpTo_spec ha (n - 1) (Nat.le_refl _)
  obtain ⟨hperm, hdom⟩ := hspec
  have hlen : (sortUpTo key d n (n - 1) a).length = n := hperm.length_eq.trans ha
  rw [sort, List.pairwise_iff_getElem]
  intro k j hk hj hkj
  have := hdom k j (by omega) hkj hj
  rwa [List.getD_eq_getElem _ _ hk, List.getD_eq_getElem _ _ hj] at this

end Sorting

end SelectionSort
