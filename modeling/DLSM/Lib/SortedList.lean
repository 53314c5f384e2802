import Mathlib
import DLSM.Lib.List

/-! Lists sorted by strictly increasing keys, the representation of an ordered map or set.
Insertion keeps the element already there under the same key, as `insert` of an ordered map or
set does; an element above every key goes to the end, so inserting the elements of a sorted
list one after another, each above those before, rebuilds the list, and inserting elements under
new keys adds them all.  The merge of a loop of `std::upper_bound` places each element of a
second sorted list after the elements of the first whose keys are not above it; when the two
lists share no key, the merge is sorted. -/

namespace SortedList

variable {α κ : Type} [LinearOrder κ] (key : α → κ)

/-- Insertion of `x` unless its key is there already. -/
def insert (x : α) : List α → List α
  | [] => [x]
  | y :: ys =>
    if key x < key y then x :: y :: ys
    else if key y < key x then y :: insert x ys
    else y :: ys

/-- The keys strictly increase along the list. -/
def Sorted (xs : List α) : Prop := xs.Pairwise (fun a b => key a < key b)

instance : DecidablePred (Sorted key) :=
  fun xs => inferInstanceAs (Decidable (xs.Pairwise fun a b => key a < key b))

/-- The merge of `std::upper_bound` insertion: before each element of `ys`, in order, the
elements of `xs` whose keys are not above its key. -/
def mergeUpperBound (xs : List α) : List α → List α
  | [] => xs
  | y :: ys =>
    xs.takeWhile (fun x => !decide (key y < key x)) ++
      y :: mergeUpperBound (xs.dropWhile fun x => !decide (key y < key x)) ys

variable {key}

theorem mem_insert {x a : α} {ys : List α} (h : a ∈ insert key x ys) : a = x ∨ a ∈ ys := by
  induction ys with
  | nil => simpa [insert] using h
  | cons y ys ih =>
    simp only [insert] at h
    split_ifs at h with hxy hyx
    · simpa using h
    · rcases List.mem_cons.1 h with rfl | h
      · exact .inr List.mem_cons_self
      · exact (ih h).imp_right (List.mem_cons_of_mem y)
    · exact .inr h

theorem insert_sorted (x : α) {ys : List α} (h : Sorted key ys) : Sorted key (insert key x ys) := by
  induction ys with
  | nil => exact List.pairwise_singleton _ x
  | cons y ys ih =>
    obtain ⟨hy, hys⟩ := List.pairwise_cons.1 h
    simp only [insert]
    split_ifs with hxy hyx
    · exact List.pairwise_cons.2 ⟨fun b hb => by
        rcases List.mem_cons.1 hb with rfl | hb
        · exact hxy
        · exact hxy.trans (hy b hb), h⟩
    · refine List.pairwise_cons.2 ⟨fun b hb => ?_, ih hys⟩
      rcases mem_insert hb with rfl | hb
      · exact hyx
      · exact hy b hb
    · exact h

/-- An element above every key goes to the end. -/
theorem insert_of_forall_lt {x : α} {ys : List α} (h : ∀ y ∈ ys, key y < key x) :
    insert key x ys = ys ++ [x] := by
  induction ys with
  | nil => rfl
  | cons y ys ih =>
    have hyx := h y List.mem_cons_self
    rw [insert, if_neg (lt_asymm hyx), if_pos hyx,
      ih (fun b hb => h b (List.mem_cons_of_mem y hb)), List.cons_append]

/-- Inserting an element under a new key adds it and keeps every other element. -/
theorem insert_perm {x : α} {ys : List α} (h : ∀ y ∈ ys, key y ≠ key x) :
    (insert key x ys).Perm (x :: ys) := by
  induction ys with
  | nil => exact List.Perm.refl _
  | cons y ys ih =>
    have hne : key y ≠ key x := h y List.mem_cons_self
    simp only [insert]
    split_ifs with hxy hyx
    · exact List.Perm.refl _
    · -- `x` goes further in, past `y`
      have hrest := ih fun b hb => h b (List.mem_cons_of_mem y hb)
      exact (hrest.cons y).trans (List.Perm.swap x y ys)
    · exact absurd (le_antisymm (not_lt.1 hxy) (not_lt.1 hyx)) hne

/-- Insertion under a key a sorted list has already leaves the list as it is. -/
theorem insert_of_exists_key_eq {x : α} {ys : List α} (hs : Sorted key ys)
    (h : ∃ y ∈ ys, key y = key x) : insert key x ys = ys := by
  induction ys with
  | nil => simp at h
  | cons y ys ih =>
    obtain ⟨hy, hys⟩ := List.pairwise_cons.1 hs
    obtain ⟨z, hz, hzx⟩ := h
    simp only [insert]
    split_ifs with hxy hyx
    · -- `x` is below `y`, and so below every key of the list
      rcases List.mem_cons.1 hz with rfl | hz
      · exact absurd hzx (ne_of_gt hxy)
      · exact absurd hzx (ne_of_gt (hxy.trans (hy z hz)))
    · rcases List.mem_cons.1 hz with rfl | hz
      · exact absurd hzx (ne_of_lt hyx)
      · rw [ih hys ⟨z, hz, hzx⟩]
    · rfl

/-- Insertion commutes with a map that the keys factor through. -/
theorem map_insert {β : Type} (f : β → α) (x : β) (ys : List β) :
    (insert (fun b => key (f b)) x ys).map f = insert key (f x) (ys.map f) := by
  induction ys with
  | nil => rfl
  | cons y ys ih =>
    simp only [insert, List.map_cons]
    split_ifs <;> simp [ih]

/-- The keys of an insertion are the key inserted and the keys there before. -/
theorem exists_key_mem_insert {x : α} {ys : List α} {k : κ} :
    (∃ a ∈ insert key x ys, key a = k) ↔ key x = k ∨ ∃ a ∈ ys, key a = k := by
  induction ys with
  | nil => simp [insert]
  | cons y ys ih =>
    simp only [insert]
    split_ifs with hxy hyx
    · simp
    · simp only [List.mem_cons, exists_eq_or_imp, ih]
      tauto
    · -- `y` has the key of `x`
      have hyx' : key y = key x := le_antisymm (not_lt.1 hxy) (not_lt.1 hyx)
      simp only [List.mem_cons, exists_eq_or_imp, hyx']
      tauto

/-- The keys after inserting the images of `xs` in turn are the keys there before and those of
the images. -/
theorem exists_key_mem_foldl_insert {β : Type} (f : β → α) (xs : List β) (ys : List α) {k : κ} :
    (∃ a ∈ xs.foldl (fun A b => insert key (f b) A) ys, key a = k) ↔
      (∃ a ∈ ys, key a = k) ∨ ∃ b ∈ xs, key (f b) = k := by
  induction xs generalizing ys with
  | nil => simp
  | cons b xs ih =>
    rw [List.foldl_cons, ih, exists_key_mem_insert]
    simp only [List.mem_cons, exists_eq_or_imp]
    rw [or_assoc, or_left_comm]

/-- The run lemma of insertion: elements under keys new to the list and to each other are all
added. -/
theorem foldl_insert_perm {xs ys : List α} (h : ((ys ++ xs).map key).Nodup) :
    (xs.foldl (fun acc x => insert key x acc) ys).Perm (ys ++ xs) := by
  induction xs generalizing ys with
  | nil => simp
  | cons x xs ih =>
    rw [List.map_append, List.map_cons] at h
    have hnew : ∀ y ∈ ys, key y ≠ key x := fun y hy =>
      (List.nodup_append.1 h).2.2 _ (List.mem_map_of_mem hy) _ List.mem_cons_self
    have hperm : (insert key x ys ++ xs).Perm (ys ++ x :: xs) :=
      ((insert_perm hnew).append_right xs).trans List.perm_middle.symm
    have hnodup : ((insert key x ys ++ xs).map key).Nodup := by
      rw [(hperm.map key).nodup_iff, List.map_append, List.map_cons]
      exact h
    rw [List.foldl_cons]
    exact (ih hnodup).trans hperm

theorem foldl_insert_sorted (xs : List α) {ys : List α} (h : Sorted key ys) :
    Sorted key (xs.foldl (fun acc x => insert key x acc) ys) := by
  induction xs generalizing ys with
  | nil => exact h
  | cons x xs ih => exact ih (insert_sorted x h)

/-- Past the prefix of a sorted list whose keys are not above `k`, every key is above `k`. -/
theorem lt_of_mem_dropWhile {xs : List α} (hs : Sorted key xs) {k : κ} {x : α}
    (hx : x ∈ xs.dropWhile fun y => !decide (k < key y)) : k < key x := by
  induction xs with
  | nil => exact absurd hx List.not_mem_nil
  | cons y ys ih =>
    obtain ⟨hy, hys⟩ := List.pairwise_cons.1 hs
    rw [List.dropWhile_cons] at hx
    by_cases hky : k < key y
    · -- the prefix ends at `y`: everything from it on is above `k`
      rw [if_neg (by simpa using hky)] at hx
      rcases List.mem_cons.1 hx with rfl | hx
      · exact hky
      · exact hky.trans (hy x hx)
    · rw [if_pos (by simpa using hky)] at hx
      exact ih hys hx

/-- Keys tell the elements of a sorted list apart. -/
theorem Sorted.eq_of_key_eq {xs : List α} (hs : Sorted key xs) {x y : α} (hx : x ∈ xs)
    (hy : y ∈ xs) (h : key x = key y) : x = y := by
  induction xs with
  | nil => exact absurd hx List.not_mem_nil
  | cons z zs ih =>
    obtain ⟨hz, hzs⟩ := List.pairwise_cons.1 hs
    rcases List.mem_cons.1 hx with hxz | hx' <;> rcases List.mem_cons.1 hy with hyz | hy'
    · rw [hxz, hyz]
    · subst hxz
      exact absurd h (hz y hy').ne
    · subst hyz
      exact absurd h (hz x hx').ne'
    · exact ih hzs hx' hy'

/-- An element whose key is not above `k` stands in the prefix of such keys. -/
theorem mem_takeWhile_of_not_lt {xs : List α} (hs : Sorted key xs) {k : κ} {x : α}
    (hx : x ∈ xs) (hk : ¬k < key x) : x ∈ xs.takeWhile fun y => !decide (k < key y) := by
  induction xs with
  | nil => exact absurd hx List.not_mem_nil
  | cons y ys ih =>
    obtain ⟨hy, hys⟩ := List.pairwise_cons.1 hs
    rw [List.takeWhile_cons]
    by_cases hky : k < key y
    · -- `y` is above `k`, and so is everything after it
      rcases List.mem_cons.1 hx with rfl | hx
      · exact absurd hky hk
      · exact absurd (hky.trans (hy x hx)) hk
    · rw [if_pos (by simpa using hky)]
      rcases List.mem_cons.1 hx with rfl | hx
      · exact List.mem_cons_self
      · exact List.mem_cons_of_mem y (ih hys hx)

/-- The element before `std::upper_bound k`: the last of the prefix whose keys are not above `k`
is not above `k`, and its key is the greatest of those not above `k`. -/
theorem exists_getLast?_takeWhile {xs : List α} (hs : Sorted key xs) {k : κ} {x : α}
    (hx : x ∈ xs) (hk : ¬k < key x) :
    ∃ y, (xs.takeWhile fun y => !decide (k < key y)).getLast? = some y ∧ y ∈ xs ∧
      ¬k < key y ∧ key x ≤ key y := by
  have hmem := mem_takeWhile_of_not_lt hs hx hk
  cases hlast : (xs.takeWhile fun y => !decide (k < key y)).getLast? with
  | none =>
    rw [List.getLast?_eq_none_iff] at hlast
    rw [hlast] at hmem
    exact absurd hmem List.not_mem_nil
  | some y =>
    have hy := List.mem_of_getLast? hlast
    have hky : ¬k < key y := by simpa using List.mem_takeWhile_imp hy
    exact ⟨y, rfl, (List.takeWhile_sublist _).subset hy, hky,
      List.le_of_mem_getLast? key (hs.sublist (List.takeWhile_sublist _)) hmem hlast⟩

theorem mergeUpperBound_perm (xs ys : List α) : (mergeUpperBound key xs ys).Perm (xs ++ ys) := by
  induction ys generalizing xs with
  | nil => simp [mergeUpperBound]
  | cons y ys ih =>
    let p := fun x => !decide (key y < key x)
    calc (xs.takeWhile p ++ y :: mergeUpperBound key (xs.dropWhile p) ys).Perm
          (xs.takeWhile p ++ y :: (xs.dropWhile p ++ ys)) := ((ih _).cons y).append_left _
      _ = xs.takeWhile p ++ (y :: (xs.dropWhile p ++ ys)) := rfl
      List.Perm _ (xs.takeWhile p ++ (xs.dropWhile p ++ y :: ys)) :=
          List.perm_middle.symm.append_left _
      _ = xs ++ y :: ys := by rw [← List.append_assoc, List.takeWhile_append_dropWhile]

/-- The merge of two sorted lists with no key in common is sorted. -/
theorem mergeUpperBound_sorted {xs ys : List α} (hxs : Sorted key xs) (hys : Sorted key ys)
    (hd : ∀ x ∈ xs, ∀ y ∈ ys, key x ≠ key y) : Sorted key (mergeUpperBound key xs ys) := by
  induction ys generalizing xs with
  | nil => exact hxs
  | cons y ys ih =>
    obtain ⟨hy, hys'⟩ := List.pairwise_cons.1 hys
    let p := fun x => !decide (key y < key x)
    -- the elements of `xs` before `y` are below it, since no key is shared
    have hbefore : ∀ x ∈ xs.takeWhile p, key x < key y := fun x hx =>
      lt_of_le_of_ne (by simpa [p] using List.mem_takeWhile_imp hx)
        (hd x ((List.takeWhile_sublist p).subset hx) y List.mem_cons_self)
    -- and everything merged after `y` is above it
    have hafter : ∀ z ∈ mergeUpperBound key (xs.dropWhile p) ys, key y < key z := fun z hz => by
      rcases List.mem_append.1 ((mergeUpperBound_perm _ ys).subset hz) with hz | hz
      · exact lt_of_mem_dropWhile hxs hz
      · exact hy z hz
    have hrest : Sorted key (mergeUpperBound key (xs.dropWhile p) ys) :=
      ih (hxs.sublist (List.dropWhile_sublist p)) hys' fun x hx z hz =>
        hd x ((List.dropWhile_sublist p).subset hx) z (List.mem_cons_of_mem y hz)
    refine List.pairwise_append.2 ⟨hxs.sublist (List.takeWhile_sublist p),
      List.pairwise_cons.2 ⟨hafter, hrest⟩, fun x hx z hz => ?_⟩
    rcases List.mem_cons.1 hz with rfl | hz
    · exact hbefore x hx
    · exact (hbefore x hx).trans (hafter z hz)

/-- Sortedness depends on the keys alone. -/
theorem Sorted.of_map_eq {xs ys : List α} (h : xs.map key = ys.map key) (hs : Sorted key xs) :
    Sorted key ys := by
  have hkeys := List.pairwise_map.2 hs
  rw [h] at hkeys
  exact List.pairwise_map.1 hkeys

/-- Two sorted lists with the same elements are equal. -/
theorem Sorted.eq_of_mem_iff {xs ys : List α} (hxs : Sorted key xs) (hys : Sorted key ys)
    (h : ∀ a, a ∈ xs ↔ a ∈ ys) : xs = ys := by
  induction xs generalizing ys with
  | nil => exact (List.eq_nil_iff_forall_not_mem.2 fun a ha => by simpa using (h a).2 ha).symm
  | cons x xs ih =>
    cases ys with
    | nil => simpa using (h x).1 List.mem_cons_self
    | cons y ys =>
      obtain ⟨hx, hxs'⟩ := List.pairwise_cons.1 hxs
      obtain ⟨hy, hys'⟩ := List.pairwise_cons.1 hys
      -- the heads are the least elements of the two lists
      have hxy : x = y := by
        rcases List.mem_cons.1 ((h x).1 List.mem_cons_self) with hxy | hxy
        · exact hxy
        · rcases List.mem_cons.1 ((h y).2 List.mem_cons_self) with hyx | hyx
          · exact hyx.symm
          · exact absurd (hx y hyx) (lt_asymm (hy x hxy))
      subst hxy
      refine congrArg (x :: ·) (ih hxs' hys' fun a => ⟨fun ha => ?_, fun ha => ?_⟩)
      · rcases List.mem_cons.1 ((h a).1 (List.mem_cons_of_mem x ha)) with rfl | ha'
        · exact absurd (hx a ha) (lt_irrefl _)
        · exact ha'
      · rcases List.mem_cons.1 ((h a).2 (List.mem_cons_of_mem x ha)) with rfl | ha'
        · exact absurd (hy a ha) (lt_irrefl _)
        · exact ha'

/-- Inserting the next element of a sorted list after the elements before it. -/
theorem insert_append_cons {xs ys : List α} {x : α} (h : Sorted key (xs ++ x :: ys)) :
    insert key x xs = xs ++ [x] :=
  insert_of_forall_lt fun y hy => (List.pairwise_append.1 h).2.2 y hy x List.mem_cons_self

/-- In a sorted list the elements below an element's key are those before it. -/
theorem Sorted.filter_lt_of_append_cons {xs ys : List α} {x : α} (hs : Sorted key (xs ++ x :: ys)) :
    (xs ++ x :: ys).filter (fun y => key y < key x) = xs := by
  obtain ⟨-, hxys, hcross⟩ := List.pairwise_append.1 hs
  have hbefore : xs.filter (fun y => key y < key x) = xs :=
    List.filter_eq_self.2 fun y hy => by simpa using hcross y hy x List.mem_cons_self
  have hafter : ys.filter (fun y => key y < key x) = [] :=
    List.filter_eq_nil_iff.2 fun y hy => by simpa using ((List.pairwise_cons.1 hxys).1 y hy).le
  simp [List.filter_append, hbefore, hafter]

/-- The elements below a bound come before the others. -/
theorem Sorted.filter_lt_append_filter_le {xs : List α} (hs : Sorted key xs) (k : κ) :
    xs.filter (fun x => key x < k) ++ xs.filter (fun x => k ≤ key x) = xs := by
  induction xs with
  | nil => rfl
  | cons x xs ih =>
    obtain ⟨hx, hs'⟩ := List.pairwise_cons.1 hs
    by_cases hxk : key x < k
    · simp [hxk, ih hs']
    · have hall : ∀ y ∈ xs, k ≤ key y := fun y hy => (not_lt.1 hxk).trans (hx y hy).le
      have h1 : xs.filter (fun y => key y < k) = [] :=
        List.filter_eq_nil_iff.2 fun y hy => by simpa using hall y hy
      have h2 : xs.filter (fun y => k ≤ key y) = xs :=
        List.filter_eq_self.2 fun y hy => by simpa using hall y hy
      simp [hxk, not_lt.1 hxk, h1, h2]

/-- Under a key no element has, the elements not below it are those above it. -/
theorem filter_le_eq_filter_lt {x : α} {ys : List α} (h : ∀ y ∈ ys, key y ≠ key x) :
    ys.filter (fun y => key x ≤ key y) = ys.filter (fun y => key x < key y) :=
  List.filter_congr fun y hy => by
    simp [le_iff_lt_or_eq, (h y hy).symm]

/-- Inserting under a new key puts the element between the elements below its key and those
above it. -/
theorem insert_eq_filter_append {x : α} {ys : List α} (hs : Sorted key ys)
    (h : ∀ y ∈ ys, key y ≠ key x) :
    insert key x ys = ys.filter (fun y => key y < key x) ++ x :: ys.filter (fun y => key x < key y) := by
  induction ys with
  | nil => rfl
  | cons y ys ih =>
    obtain ⟨hy, hys⟩ := List.pairwise_cons.1 hs
    have hne : key y ≠ key x := h y List.mem_cons_self
    rcases lt_or_gt_of_ne hne with hyx | hxy
    · rw [insert, if_neg (lt_asymm hyx), if_pos hyx, ih hys fun z hz => h z (List.mem_cons_of_mem y hz)]
      simp [hyx, lt_asymm hyx]
    · -- every element after `y` is above `x` too
      have hall : ∀ z ∈ ys, key x < key z := fun z hz => hxy.trans (hy z hz)
      rw [insert, if_pos hxy, List.filter_cons_of_neg (by simpa using lt_asymm hxy),
        List.filter_eq_nil_iff.mpr fun z hz => by simpa using lt_asymm (hall z hz),
        List.filter_cons_of_pos (by simpa using hxy),
        List.filter_eq_self.mpr fun z hz => by simpa using hall z hz]
      rfl

/-- Keeping the elements of a predicate commutes with inserting under a new key. -/
theorem filter_insert {x : α} {ys : List α} (hs : Sorted key ys) (h : ∀ y ∈ ys, key y ≠ key x)
    (p : α → Bool) :
    (insert key x ys).filter p = if p x then insert key x (ys.filter p) else ys.filter p := by
  have hs' : Sorted key (ys.filter p) := hs.sublist List.filter_sublist
  have h' : ∀ y ∈ ys.filter p, key y ≠ key x := fun y hy => h y (List.mem_filter.1 hy).1
  rw [insert_eq_filter_append hs h]
  split_ifs with hp
  · rw [insert_eq_filter_append hs' h']
    simp [List.filter_append, hp, List.filter_filter, Bool.and_comm]
  · -- the elements of `ys` are those below the key and those above it
    have hsplit := hs.filter_lt_append_filter_le (key x)
    rw [filter_le_eq_filter_lt h] at hsplit
    conv => rhs; rw [← hsplit]
    simp [List.filter_append, hp]

section Cursor

/-! Where a cursor over a sorted list lands: the neighbours of a key on either side, and the last
element not above a key.  The first element not below a key is `Index.seek`. -/

variable (key)

/-- The first element whose key is above `k`. -/
def after (k : κ) (xs : List α) : Option α := xs.find? fun y => k < key y

/-- The last element whose key is below `k`. -/
def before (k : κ) (xs : List α) : Option α := (xs.filter fun y => key y < k).getLast?

/-- The last element whose key is not above `k`. -/
def atOrBefore (k : κ) (xs : List α) : Option α := (xs.filter fun y => key y ≤ k).getLast?

variable {key} {xs ys : List α} {x : α} {k : κ}

theorem Sorted.key_lt_of_mem_left (hs : Sorted key (xs ++ x :: ys)) {y : α} (hy : y ∈ xs) :
    key y < key x :=
  (List.pairwise_append.1 hs).2.2 y hy x List.mem_cons_self

theorem Sorted.key_lt_of_mem_right (hs : Sorted key (xs ++ x :: ys)) {y : α} (hy : y ∈ ys) :
    key x < key y :=
  (List.pairwise_cons.1 (List.pairwise_append.1 hs).2.1).1 y hy

/-- The elements not above `k` of a list whose first part is not above it and whose rest is. -/
theorem filter_le_append (hxs : ∀ y ∈ xs, key y ≤ k) (hys : ∀ y ∈ ys, k < key y) :
    (xs ++ ys).filter (fun y => key y ≤ k) = xs := by
  rw [List.filter_append, List.filter_eq_self.2 fun y hy => by simpa using hxs y hy,
    List.filter_eq_nil_iff.2 fun y hy => by simpa using hys y hy, List.append_nil]

/-- In a sorted list the element after an element's key is the next one. -/
theorem Sorted.after_of_append_cons (hs : Sorted key (xs ++ x :: ys)) :
    after key (key x) (xs ++ x :: ys) = ys.head? := by
  have hxs : xs.find? (fun y => key x < key y) = none :=
    List.find?_eq_none.2 fun y hy => by simpa using (hs.key_lt_of_mem_left hy).le
  rw [after, List.find?_append, hxs, Option.none_or, List.find?_cons_of_neg (by simp)]
  cases ys with
  | nil => rfl
  | cons y ys => exact List.find?_cons_of_pos (by simpa using hs.key_lt_of_mem_right List.mem_cons_self)

/-- In a sorted list the element before an element's key is the one before it. -/
theorem Sorted.before_of_append_cons (hs : Sorted key (xs ++ x :: ys)) :
    before key (key x) (xs ++ x :: ys) = xs.getLast? := by
  rw [before, hs.filter_lt_of_append_cons]

/-- In a sorted list the last element not above an element's key is that element. -/
theorem Sorted.atOrBefore_of_append_cons (hs : Sorted key (xs ++ x :: ys)) :
    atOrBefore key (key x) (xs ++ x :: ys) = some x := by
  have hsplit : xs ++ x :: ys = (xs ++ [x]) ++ ys := by simp
  rw [atOrBefore, hsplit, filter_le_append (fun y hy => ?_) fun y hy => hs.key_lt_of_mem_right hy,
    List.getLast?_concat]
  rcases List.mem_append.1 hy with hy | hy
  · exact (hs.key_lt_of_mem_left hy).le
  · rw [List.mem_singleton.1 hy]

/-- In a sorted list whose elements before `x` are below `k` and `x` above it, the last element
not above `k` is the one before `x`. -/
theorem Sorted.atOrBefore_of_lt (hs : Sorted key (xs ++ x :: ys)) (hxs : ∀ y ∈ xs, key y < k)
    (hkx : k < key x) : atOrBefore key k (xs ++ x :: ys) = xs.getLast? := by
  rw [atOrBefore, filter_le_append (fun y hy => (hxs y hy).le) fun y hy => ?_]
  rcases List.mem_cons.1 hy with rfl | hy
  · exact hkx
  · exact hkx.trans (hs.key_lt_of_mem_right hy)

/-- When every key is below `k`, the last element not above `k` is the last one. -/
theorem atOrBefore_of_forall_lt (h : ∀ y ∈ xs, key y < k) : atOrBefore key k xs = xs.getLast? := by
  rw [atOrBefore, List.filter_eq_self.2 fun y hy => by simpa using (h y hy).le]

/-- In a sorted list the element after the key of the element at `i` is the one at `i + 1`. -/
theorem Sorted.after_getElem {i : Nat} (hs : Sorted key xs) (hi : i < xs.length) :
    after key (key xs[i]) xs = xs[i + 1]? := by
  have hsplit := List.take_append_getElem_cons_drop hi
  have h := (show Sorted key (xs.take i ++ xs[i] :: xs.drop (i + 1)) by rwa [hsplit]).after_of_append_cons
  rwa [hsplit, List.head?_drop] at h

/-- In a sorted list the element before the key of the element at `i` is the last of those
before `i`. -/
theorem Sorted.before_getElem {i : Nat} (hs : Sorted key xs) (hi : i < xs.length) :
    before key (key xs[i]) xs = (xs.take i).getLast? := by
  have hsplit := List.take_append_getElem_cons_drop hi
  have h := (show Sorted key (xs.take i ++ xs[i] :: xs.drop (i + 1)) by rwa [hsplit]).before_of_append_cons
  rwa [hsplit] at h

section Map

variable {β : Type} (f : β → α) (xs : List β) (k : κ)

theorem after_map : after key k (xs.map f) = (after (fun b => key (f b)) k xs).map f := by
  simp only [after, List.find?_map]
  rfl

theorem before_map : before key k (xs.map f) = (before (fun b => key (f b)) k xs).map f := by
  simp only [before, List.filter_map, List.getLast?_map]
  rfl

theorem atOrBefore_map :
    atOrBefore key k (xs.map f) = (atOrBefore (fun b => key (f b)) k xs).map f := by
  simp only [atOrBefore, List.filter_map, List.getLast?_map]
  rfl

end Map

end Cursor

end SortedList
