import Mathlib

/-! The search of a two-level iterator: an index of separators, each naming a block of entries,
over a key order.  A seek for `k` looks up the first separator at or after `k` and searches only
that block for the first entry at or after `k`.  When every separator is at or after the keys of
its own block and before the keys of every later block, that block search agrees with a search of
all entries, except that it can miss an entry beyond the separator.  `List.find?` stands for the
seek of a sorted block, which finds the same first entry by binary search. -/

namespace Index

variable {α β : Type}

/-- The entries of the blocks of `index`, in index order. -/
def entries (index : List (α × List β)) : List β := (index.map Prod.snd).flatten

@[simp] theorem entries_nil : entries ([] : List (α × List β)) = [] := rfl

@[simp] theorem entries_cons (p : α × List β) (index : List (α × List β)) :
    entries (p :: index) = p.2 ++ entries index := rfl

@[simp] theorem entries_append (index index' : List (α × List β)) :
    entries (index ++ index') = entries index ++ entries index' := by
  simp [entries]

theorem mem_entries {index : List (α × List β)} {x : β} :
    x ∈ entries index ↔ ∃ p ∈ index, x ∈ p.2 := by
  simp only [entries, List.mem_flatten, List.mem_map]
  constructor
  · rintro ⟨_, ⟨p, hp, rfl⟩, hx⟩
    exact ⟨p, hp, hx⟩
  · rintro ⟨p, hp, hx⟩
    exact ⟨p.2, ⟨p, hp, rfl⟩, hx⟩

variable [LinearOrder α] (key : β → α)

/-- The first entry of `block` at or after `k`. -/
def seek (block : List β) (k : α) : Option β := block.find? fun x => decide (k ≤ key x)

/-- The first index entry whose separator is at or after `k`. -/
def seekIndex (index : List (α × List β)) (k : α) : Option (α × List β) :=
  index.find? fun p => decide (k ≤ p.1)

/-- Each separator is at or after every key of its block and before every key of each later
block. -/
structure Separated (index : List (α × List β)) : Prop where
  le_sep : ∀ p ∈ index, ∀ x ∈ p.2, key x ≤ p.1
  sep_lt : index.Pairwise fun p q => ∀ x ∈ q.2, p.1 < key x

variable {key}

theorem seek_append (b b' : List β) (k : α) :
    seek key (b ++ b') k = (seek key b k).or (seek key b' k) :=
  List.find?_append

theorem seek_eq_none {b : List β} {k : α} (h : ∀ x ∈ b, key x < k) : seek key b k = none :=
  List.find?_eq_none.mpr fun x hx => by simpa using h x hx

/-- What a seek finds is an entry of the block at or after `k`. -/
theorem mem_of_seek_eq_some {b : List β} {k : α} {x : β} (h : seek key b k = some x) :
    x ∈ b ∧ k ≤ key x :=
  ⟨List.mem_of_find?_eq_some h, by simpa using List.find?_some h⟩

/-- On a block of strictly increasing keys, the seek for `k` finds the entry whose key is the
least at or after `k`. -/
theorem seek_eq_some_of_least {b : List β} {k : α} {x : β}
    (hs : b.Pairwise fun y z => key y < key z) (hx : x ∈ b) (hkx : k ≤ key x)
    (hleast : ∀ y ∈ b, k ≤ key y → key x ≤ key y) : seek key b k = some x := by
  induction b with
  | nil => exact absurd hx List.not_mem_nil
  | cons y ys ih =>
    obtain ⟨hy, hys⟩ := List.pairwise_cons.1 hs
    by_cases hky : k ≤ key y
    · -- the seek stops at `y`, which can only be `x`: an `x` further in has a larger key
      have hxy : x = y := by
        rcases List.mem_cons.1 hx with rfl | hx'
        · rfl
        · exact absurd (hleast y List.mem_cons_self hky) (not_le.2 (hy x hx'))
      simp [seek, hky, hxy]
    · have hx' : x ∈ ys := by
        rcases List.mem_cons.1 hx with rfl | hx'
        · exact absurd hkx hky
        · exact hx'
      have hrest := ih hys hx' fun z hz => hleast z (List.mem_cons_of_mem y hz)
      simpa [seek, hky] using hrest

theorem separated_nil : Separated key ([] : List (α × List β)) :=
  ⟨by simp, List.Pairwise.nil⟩

theorem Separated.tail {p : α × List β} {index : List (α × List β)}
    (h : Separated key (p :: index)) : Separated key index :=
  ⟨fun q hq => h.le_sep q (List.mem_cons_of_mem _ hq), (List.pairwise_cons.mp h.sep_lt).2⟩

/-- A separated index stays separated when a block is appended whose keys are at or before its
separator and after every earlier separator. -/
theorem Separated.snoc {index : List (α × List β)} (h : Separated key index) {s : α}
    {b : List β} (hb : ∀ x ∈ b, key x ≤ s) (hlt : ∀ p ∈ index, ∀ x ∈ b, p.1 < key x) :
    Separated key (index ++ [(s, b)]) := by
  refine ⟨fun q hq => ?_, List.pairwise_append.mpr ⟨h.sep_lt, List.pairwise_singleton _ _, ?_⟩⟩
  · rcases List.mem_append.mp hq with hq | hq
    · exact h.le_sep q hq
    · rw [List.mem_singleton.mp hq]
      exact hb
  · intro p hp q hq
    rw [List.mem_singleton.mp hq]
    exact hlt p hp

/-- The block the index names for `k` decides the search of all entries: its first entry at or
after `k`, or else the first such entry of the blocks after it. -/
theorem Separated.seek_entries {index : List (α × List β)} (h : Separated key index) {k s : α}
    {b : List β} (hk : seekIndex index k = some (s, b)) :
    ∃ pre post, index = pre ++ (s, b) :: post ∧
      seek key (entries index) k = (seek key b k).or (seek key (entries post) k) := by
  induction index with
  | nil => simp [seekIndex] at hk
  | cons p index ih =>
    rw [entries_cons, seek_append]
    by_cases hp : k ≤ p.1
    · -- the separator of the head is at or after `k`: the head is the block
      have hpb : p = (s, b) := by simpa [seekIndex, hp] using hk
      subst hpb
      exact ⟨[], index, rfl, rfl⟩
    · -- every key of the head block is before `k`, so the search goes on after it
      have hk' : seekIndex index k = some (s, b) := by simpa [seekIndex, hp] using hk
      have hnone : seek key p.2 k = none :=
        seek_eq_none fun x hx => lt_of_le_of_lt (h.le_sep p (List.mem_cons_self ..) x hx)
          (lt_of_not_ge hp)
      obtain ⟨pre, post, rfl, hseek⟩ := ih h.tail hk'
      rw [hnone, Option.none_or]
      exact ⟨p :: pre, post, rfl, hseek⟩

end Index
