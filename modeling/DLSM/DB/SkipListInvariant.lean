import Mathlib
import DLSM.DB.SkipList
import DLSM.Lib.LinkedList
import DLSM.Lib.SortedList
import DLSM.Lib.List

/-! What an `InlineSkipList` holds.  `Holds s L` says the list of level 0 is the nodes `L`, in
strictly increasing key order, and the list of every level `l` is the nodes of `L` taller than
`l`, in the same order; so each level is a sublist of the one below.  Over such a list the link
out of `head_` or out of a node of a level is the first node of the level above it, and from
that the searches follow: `FindSpliceForLevel` from a node below a key reaches the last node
below the key and the first not below it, and `FindGreaterOrEqual` and `FindLessThan`, going
down from the top level, end at the first node not below the key and at the last node below
it. -/

namespace DLSM

namespace InlineSkipList

open LinkedList

variable {α κ : Type} [Inhabited α] (key : α → κ)

/-- The key of node `i` as `compare_` sees it. -/
def keyOf (s : InlineSkipList α) (i : Nat) : κ := key (s.node i).key

/-- The height of node `i`: its number of links. -/
def height (s : InlineSkipList α) (i : Nat) : Nat := (s.node i).next.length

/-- The nodes of `L` on the list of level `l`: those taller than `l`. -/
def levelNodes (s : InlineSkipList α) (L : List Nat) (l : Nat) : List Nat :=
  L.filter fun i => l < s.height i

/-- The links of level `l` as a next function on refs. -/
def nextRef (s : InlineSkipList α) (l : Nat) (r : Ref) : Option Ref := (s.getNext r l).map .node

/-- The list of level `l` is `ls`: from `head_` the links visit the nodes `ls`, then null. -/
def Links (s : InlineSkipList α) (l : Nat) (ls : List Nat) : Prop :=
  Seg (s.nextRef l) (some .head) (.head :: ls.map .node) none

/-- Where a `prev_` entry stands in the key order: `head_` below every key. -/
def prevKey (s : InlineSkipList α) : Ref → WithBot κ
  | .head => ⊥
  | .node i => ↑(s.keyOf key i)

/-- Where a `next_` entry stands in the key order: null above every key. -/
def nextKey (s : InlineSkipList α) : Option Nat → WithTop κ
  | none => ⊤
  | some i => ↑(s.keyOf key i)

/-- `head_`, or a node of `ls`. -/
def OnLevel (ls : List Nat) : Ref → Prop
  | .head => True
  | .node i => i ∈ ls

/-- Null, or a node of `ls`. -/
def OnLink (ls : List Nat) : Option Nat → Prop
  | none => True
  | some i => i ∈ ls

/-- The nodes of the list of `level`, from `head_` along its links, as an iterator walks them;
one round more than the arena has nodes. -/
def levelList (s : InlineSkipList α) (level : Nat) : Option (List Nat) :=
  go (s.nodes.length + 1) (s.getNext .head level)
where
  go : Nat → Option Nat → Option (List Nat)
    | _, none => some []
    | 0, some _ => none
    | fuel + 1, some n => (go fuel (s.getNext (.node n) level)).map (n :: ·)

variable {key}

section Frame

variable {s : InlineSkipList α} {r : Ref} {l : Nat} {v : Option Nat}

@[simp] theorem keyOf_setNext (i : Nat) : (s.setNext r l v).keyOf key i = s.keyOf key i := by
  simp [keyOf]

@[simp] theorem height_setNext (i : Nat) : (s.setNext r l v).height i = s.height i := by
  simp [height]

theorem levelNodes_setNext (L : List Nat) (l' : Nat) :
    (s.setNext r l v).levelNodes L l' = s.levelNodes L l' := by
  simp [levelNodes]

/-- Setting a link of level `l` leaves the lists of the other levels. -/
theorem links_setNext_of_ne {l' : Nat} (hl : l' ≠ l) {ls : List Nat} (h : s.Links l' ls) :
    (s.setNext r l v).Links l' ls := by
  refine Seg.congr h fun r' _ => ?_
  simp [nextRef, getNext_setNext, hl]

theorem levelNodes_sublist (L : List Nat) {l l' : Nat} (h : l ≤ l') :
    (s.levelNodes L l').Sublist (s.levelNodes L l) :=
  List.monotone_filter_right L fun i hi => by simp only [decide_eq_true_eq] at hi ⊢; omega

theorem OnLevel.of_subset {ls ls' : List Nat} (h : ls ⊆ ls') : ∀ {r : Ref}, OnLevel ls r →
    OnLevel ls' r
  | .head, _ => trivial
  | .node _, hr => h hr

theorem OnLink.of_subset {ls ls' : List Nat} (h : ls ⊆ ls') : ∀ {n : Option Nat}, OnLink ls n →
    OnLink ls' n
  | none, _ => trivial
  | some _, hn => h hn

/-- The walk from a link visits the nodes of a list that ends there. -/
theorem levelList_go_eq {ls : List Nat} : ∀ {o : Option Nat} {fuel : Nat},
    Seg (s.nextRef l) (o.map .node) (ls.map .node) none → ls.length < fuel →
      levelList.go s l fuel o = some ls := by
  induction ls with
  | nil =>
    intro o fuel h _
    obtain rfl : o = none := Option.map_eq_none_iff.mp (Seg.nil_iff.mp h)
    cases fuel <;> rfl
  | cons j ls ih =>
    intro o fuel h hfuel
    obtain ⟨ho, h'⟩ := Seg.cons_iff.mp h
    obtain rfl : o = some j := by
      cases o with
      | none => cases ho
      | some i => cases ho; rfl
    obtain ⟨fuel, rfl⟩ : ∃ f, fuel = f + 1 := ⟨fuel - 1, by simp at hfuel; omega⟩
    rw [levelList.go, ih h' (by simpa using hfuel)]
    rfl

/-- The walk of a level visits the list its links hold. -/
theorem Links.levelList_eq {ls : List Nat} (h : s.Links l ls) (hlen : ls.length ≤ s.nodes.length) :
    s.levelList l = some ls :=
  levelList_go_eq (Seg.cons_iff.mp h).2 (by omega)

theorem height_pos_lt_length {i : Nat} (h : 0 < s.height i) : i < s.nodes.length := by
  by_contra hi
  rw [height, node, List.getD_eq_getElem?_getD, List.getElem?_eq_none (not_lt.mp hi)] at h
  simp [default] at h

theorem getNext_eq_of_nextRef {r : Ref} {l : Nat} {o : Option Nat}
    (h : s.nextRef l r = o.map .node) : s.getNext r l = o :=
  Option.map_injective (fun _ _ e => Ref.node.inj e) h

/-- `head_`'s link of a level is the level's first node. -/
theorem Links.getNext_head {ls : List Nat} (h : s.Links l ls) : s.getNext .head l = ls.head? := by
  obtain ⟨-, h'⟩ := Seg.cons_iff.mp h
  apply getNext_eq_of_nextRef
  rw [h'.start_eq]
  cases ls <;> rfl

/-- The link of a node of a level is the node after it there. -/
theorem Links.getNext_node {A B : List Nat} {j : Nat} (h : s.Links l (A ++ j :: B)) :
    s.getNext (.node j) l = B.head? := by
  have h' : Seg (s.nextRef l) (some .head) ((.head :: A.map .node) ++ .node j :: B.map .node)
      none := by simpa [Links] using h
  obtain ⟨q, -, h2⟩ := Seg.split h'
  obtain ⟨-, h3⟩ := Seg.cons_iff.mp h2
  apply getNext_eq_of_nextRef
  rw [h3.start_eq]
  cases B <;> rfl

/-- The link out of the last node of a prefix of a level, or out of `head_` for the empty
prefix, is the first node after the prefix. -/
theorem Links.getNext_last {A C : List Nat} (h : s.Links l (A ++ C)) :
    s.getNext (A.getLast?.elim .head .node) l = C.head? := by
  rcases List.eq_nil_or_concat A with rfl | ⟨A', j, rfl⟩
  · exact h.getNext_head
  · rw [List.concat_eq_append] at h ⊢
    rw [List.getLast?_concat]
    exact Links.getNext_node (A := A') (by simpa using h)

end Frame

variable [LinearOrder κ]

variable (key) in
/-- The keys of `ls` strictly increase. -/
def SortedNodes (s : InlineSkipList α) (ls : List Nat) : Prop := SortedList.Sorted (s.keyOf key) ls

variable (key) in
/-- The skip list holds the nodes `L`: in strictly increasing key order at level 0, and at each
level `l` below `kMaxHeight_` the nodes of `L` taller than `l`; every node of `L` has a height
from 1 to `max_height_`, which is at most `kMaxHeight_`. -/
structure Holds (s : InlineSkipList α) (L : List Nat) : Prop where
  sorted : s.SortedNodes key L
  height_pos : ∀ i ∈ L, 0 < s.height i
  height_le : ∀ i ∈ L, s.height i ≤ s.maxHeight
  maxHeight_pos : 0 < s.maxHeight
  maxHeight_le : s.maxHeight ≤ s.head.length
  links : ∀ l < s.head.length, s.Links l (s.levelNodes L l)

variable (key) in
/-- The last node of `ls` below `k`, or `head_`. -/
def lastBelow (s : InlineSkipList α) (ls : List Nat) (k : κ) : Ref :=
  ((ls.filter fun i => s.keyOf key i < k).getLast?).elim .head .node

variable (key) in
/-- The first node of `ls` not below `k`, or null. -/
def firstAtOrAbove (s : InlineSkipList α) (ls : List Nat) (k : κ) : Option Nat :=
  ls.find? fun i => k ≤ s.keyOf key i

theorem sortedNodes_setNext {s : InlineSkipList α} {r : Ref} {l : Nat} {v : Option Nat}
    {ls : List Nat} : (s.setNext r l v).SortedNodes key ls ↔ s.SortedNodes key ls := by
  rw [SortedNodes, SortedNodes, show (s.setNext r l v).keyOf key = s.keyOf key from
    funext keyOf_setNext]

section Sorted

variable {s : InlineSkipList α} {ls : List Nat} {k : κ}

/-- `FindSpliceForLevel` from the last node of `A₁`, or from `head_`, over a level
`A₁ ++ A₂ ++ B` whose nodes `A₂` are below `k` and `B` are not: it passes `A₂` and stops before
`B`, at `after` too when that is not below `k`. -/
theorem findSpliceForLevel_split {l : Nat} {after : Option Nat}
    (hafter : ∀ n, after = some n → k ≤ s.keyOf key n) {B : List Nat}
    (hB : ∀ b ∈ B, k ≤ s.keyOf key b) :
    ∀ (A₂ A₁ : List Nat) (fuel : Nat), s.Links l (A₁ ++ A₂ ++ B) →
      (∀ a ∈ A₂, s.keyOf key a < k) → A₂.length < fuel →
      s.findSpliceForLevel key k after l fuel (A₁.getLast?.elim .head .node) =
        some ((A₁ ++ A₂).getLast?.elim .head .node, B.head?)
  | [], A₁, fuel + 1, h, _, _ => by
    have hnext := Links.getNext_last (C := B) (by simpa using h)
    rw [findSpliceForLevel, hnext]
    cases B with
    | nil => simp
    | cons b B =>
      -- the first node of `B` is not below `k`: the search stops before it
      have hb : s.keyIsAfterNode key k (some b) = false := by
        simpa [keyIsAfterNode, keyOf] using hB b List.mem_cons_self
      simp [hb]
  | a :: A₂, A₁, fuel + 1, h, hA, hfuel => by
    have hnext := Links.getNext_last (C := a :: (A₂ ++ B)) (by simpa using h)
    have ha : s.keyOf key a < k := hA a List.mem_cons_self
    have hna : some a ≠ after := fun e => absurd (hafter a e.symm) (not_le.mpr ha)
    have hka : s.keyIsAfterNode key k (some a) = true := by
      simpa [keyIsAfterNode, keyOf] using ha
    rw [findSpliceForLevel, hnext]
    simp only [List.head?_cons, hna, hka, false_or, Bool.true_eq_false, if_false]
    have := findSpliceForLevel_split hafter hB A₂ (A₁ ++ [a]) fuel (by simpa using h)
      (fun x hx => hA x (List.mem_cons_of_mem a hx)) (by simpa using hfuel)
    simpa using this

/-- A start on a level below `k` is the last node of a prefix of the level's nodes below
`k`, or `head_` for the empty prefix. -/
theorem exists_prefix_of_onLevel {ls : List Nat} {r : Ref} (hr : OnLevel ls r)
    (hrk : s.prevKey key r < ↑k) : ∃ A₁ A₂, ls.filter (fun i => s.keyOf key i < k) = A₁ ++ A₂ ∧
      r = A₁.getLast?.elim .head .node := by
  cases r with
  | head => exact ⟨[], _, rfl, rfl⟩
  | node j =>
    have hj : j ∈ ls.filter (fun i => s.keyOf key i < k) :=
      List.mem_filter.mpr ⟨hr, by simpa [prevKey] using hrk⟩
    obtain ⟨P, Q, hPQ⟩ := List.append_of_mem hj
    exact ⟨P ++ [j], Q, by simp [hPQ], by simp⟩

/-- `FindSpliceForLevel` over a sorted level, from `head_` or a node of the level below `k`, ends
at the last node below `k` and the first node not below it. -/
theorem findSpliceForLevel_eq {l : Nat} {ls : List Nat} (h : s.Links l ls)
    (hs : s.SortedNodes key ls) {after : Option Nat}
    (hafter : ∀ n, after = some n → k ≤ s.keyOf key n) {r : Ref} (hr : OnLevel ls r)
    (hrk : s.prevKey key r < ↑k) {fuel : Nat} (hfuel : ls.length < fuel) :
    s.findSpliceForLevel key k after l fuel r =
      some (s.lastBelow key ls k, s.firstAtOrAbove key ls k) := by
  obtain ⟨A₁, A₂, hA, rfl⟩ := exists_prefix_of_onLevel hr hrk
  have hsplit := hs.filter_lt_append_filter_le k
  rw [hA] at hsplit
  have hlen : A₂.length < fuel := by
    have := congrArg List.length hsplit
    simp only [List.length_append] at this
    omega
  have hmem : ∀ a ∈ A₂, s.keyOf key a < k := by
    intro a ha
    have : a ∈ ls.filter (fun i => s.keyOf key i < k) := by
      rw [hA]
      exact List.mem_append_right A₁ ha
    simpa using (List.mem_filter.mp this).2
  have hB : ∀ b ∈ ls.filter (fun i => k ≤ s.keyOf key i), k ≤ s.keyOf key b := fun b hb => by
    simpa using (List.mem_filter.mp hb).2
  rw [findSpliceForLevel_split hafter hB A₂ A₁ fuel (by rw [hsplit]; exact h) hmem hlen]
  simp [lastBelow, firstAtOrAbove, hA]

/-- The link out of a start on a sorted level below `k` is the first node after it: the rest
of the level's nodes below `k`, then those not below it. -/
theorem Links.getNext_split {l : Nat} {ls : List Nat} (h : s.Links l ls)
    (hs : s.SortedNodes key ls) {r : Ref} (hr : OnLevel ls r) (hrk : s.prevKey key r < ↑k) :
    ∃ A₁ A₂, ls.filter (fun i => s.keyOf key i < k) = A₁ ++ A₂ ∧
      r = A₁.getLast?.elim .head .node ∧
      s.getNext r l = (A₂ ++ ls.filter fun i => k ≤ s.keyOf key i).head? := by
  obtain ⟨A₁, A₂, hA, rfl⟩ := exists_prefix_of_onLevel hr hrk
  have hsplit := hs.filter_lt_append_filter_le k
  rw [hA] at hsplit
  refine ⟨A₁, A₂, hA, rfl, Links.getNext_last ?_⟩
  rw [← List.append_assoc, hsplit]
  exact h

/-- A node that the link out of a start leads to is on the level and above the start. -/
theorem Links.mem_of_getNext {l : Nat} {ls : List Nat} (h : s.Links l ls)
    (hs : s.SortedNodes key ls) {r : Ref} (hr : OnLevel ls r) (hrk : s.prevKey key r < ↑k)
    {n : Nat} (hn : s.getNext r l = some n) :
    n ∈ ls ∧ s.prevKey key r < ↑(s.keyOf key n) := by
  obtain ⟨A₁, A₂, hA, rfl, hnext⟩ := h.getNext_split hs hr hrk
  have hsplit := hs.filter_lt_append_filter_le k
  rw [hA, List.append_assoc] at hsplit
  have hmem : n ∈ A₂ ++ ls.filter fun i => k ≤ s.keyOf key i :=
    List.mem_of_mem_head? (hnext ▸ hn)
  refine ⟨hsplit ▸ List.mem_append_right A₁ hmem, ?_⟩
  rcases List.eq_nil_or_concat A₁ with rfl | ⟨A', j, rfl⟩
  · exact WithBot.bot_lt_coe _
  · -- the start is the last node of the prefix, before every node after it
    rw [List.concat_eq_append] at hsplit ⊢
    have hs' : s.SortedNodes key ((A' ++ [j]) ++ (A₂ ++ ls.filter fun i => k ≤ s.keyOf key i)) := by
      rw [hsplit]
      exact hs
    have hjn := (List.pairwise_append.mp hs').2.2 j (by simp) n hmem
    simpa [prevKey] using hjn

/-- Out of a start below `k`, a link to a node not below `k` leads to the first such node. -/
theorem Links.firstAtOrAbove_of_getNext {l : Nat} {ls : List Nat} (h : s.Links l ls)
    (hs : s.SortedNodes key ls) {r : Ref} (hr : OnLevel ls r) (hrk : s.prevKey key r < ↑k)
    {n : Nat} (hn : s.getNext r l = some n) (hkn : k ≤ s.keyOf key n) :
    s.firstAtOrAbove key ls k = some n := by
  obtain ⟨A₁, A₂, hA, -, hnext⟩ := h.getNext_split hs hr hrk
  rw [hn] at hnext
  cases A₂ with
  | nil => simpa [firstAtOrAbove] using hnext.symm
  | cons a A₂ =>
    -- a node left below `k` would come first
    have ha : a ∈ ls.filter (fun i => s.keyOf key i < k) := by simp [hA]
    obtain rfl : n = a := by simpa using hnext
    exact absurd (by simpa using (List.mem_filter.mp ha).2) (not_lt.mpr hkn)

/-- Out of a start below `k`, a null link means no node of the level is not below `k`. -/
theorem Links.firstAtOrAbove_of_getNext_none {l : Nat} {ls : List Nat} (h : s.Links l ls)
    (hs : s.SortedNodes key ls) {r : Ref} (hr : OnLevel ls r) (hrk : s.prevKey key r < ↑k)
    (hn : s.getNext r l = none) : s.firstAtOrAbove key ls k = none := by
  obtain ⟨A₁, A₂, -, -, hnext⟩ := h.getNext_split hs hr hrk
  rw [hn] at hnext
  have hnil := List.head?_eq_none_iff.mp hnext.symm
  rw [List.append_eq_nil_iff] at hnil
  rw [firstAtOrAbove, ← List.head?_filter, hnil.2]
  rfl

/-- A start below `k` whose link does not lead below `k` is the last node below `k`. -/
theorem Links.lastBelow_of_getNext {l : Nat} {ls : List Nat} (h : s.Links l ls)
    (hs : s.SortedNodes key ls) {r : Ref} (hr : OnLevel ls r) (hrk : s.prevKey key r < ↑k)
    (hn : ∀ n, s.getNext r l = some n → k ≤ s.keyOf key n) : s.lastBelow key ls k = r := by
  obtain ⟨A₁, A₂, hA, rfl, hnext⟩ := h.getNext_split hs hr hrk
  cases A₂ with
  | nil => simp [lastBelow, hA]
  | cons a A₂ =>
    have ha : a ∈ ls.filter (fun i => s.keyOf key i < k) := by simp [hA]
    exact absurd (by simpa using (List.mem_filter.mp ha).2) (not_lt.mpr (hn a (by simp [hnext])))

/-- On a sorted level a node with the key `k` is the first node not below `k`. -/
theorem SortedNodes.firstAtOrAbove_of_mem {ls : List Nat} (hs : s.SortedNodes key ls) {n : Nat}
    (hn : n ∈ ls) (hkn : s.keyOf key n = k) : s.firstAtOrAbove key ls k = some n := by
  obtain ⟨P, Q, rfl⟩ := List.append_of_mem hn
  have hP : ∀ i ∈ P, s.keyOf key i < k := fun i hi =>
    hkn ▸ (List.pairwise_append.mp hs).2.2 i hi n List.mem_cons_self
  have hnone : P.find? (fun i => k ≤ s.keyOf key i) = none :=
    List.find?_eq_none.mpr fun i hi => by simpa using hP i hi
  simp [firstAtOrAbove, List.find?_append, hnone, hkn]

theorem onLevel_lastBelow : OnLevel ls (s.lastBelow key ls k) := by
  unfold lastBelow
  cases h : (ls.filter fun i => s.keyOf key i < k).getLast? with
  | none => trivial
  | some j => exact (List.mem_filter.mp (List.mem_of_getLast? h)).1

theorem prevKey_lastBelow_lt : s.prevKey key (s.lastBelow key ls k) < ↑k := by
  unfold lastBelow
  cases h : (ls.filter fun i => s.keyOf key i < k).getLast? with
  | none => exact WithBot.bot_lt_coe k
  | some j => simpa [prevKey] using (List.mem_filter.mp (List.mem_of_getLast? h)).2

theorem onLink_firstAtOrAbove : OnLink ls (s.firstAtOrAbove key ls k) := by
  unfold firstAtOrAbove
  cases h : ls.find? (fun i => k ≤ s.keyOf key i) with
  | none => trivial
  | some j => exact List.mem_of_find?_eq_some h

theorem le_nextKey_firstAtOrAbove : (↑k : WithTop κ) ≤ s.nextKey key (s.firstAtOrAbove key ls k) := by
  unfold firstAtOrAbove
  cases h : ls.find? (fun i => k ≤ s.keyOf key i) with
  | none => exact le_top
  | some j => simpa [nextKey] using List.find?_some h

/-- A start on a sorted level below `k` is not above the last node below `k`. -/
theorem SortedNodes.prevKey_le_lastBelow (hs : s.SortedNodes key ls) {r : Ref}
    (hr : OnLevel ls r) (hrk : s.prevKey key r < ↑k) :
    s.prevKey key r ≤ s.prevKey key (s.lastBelow key ls k) := by
  cases r with
  | head => exact bot_le
  | node j =>
    have hj : j ∈ ls.filter fun i => s.keyOf key i < k :=
      List.mem_filter.mpr ⟨hr, by simpa [prevKey] using hrk⟩
    obtain ⟨z, hz⟩ := Option.isSome_iff_exists.mp
      (List.getLast?_isSome.mpr (List.ne_nil_of_mem hj))
    have hle := List.le_of_mem_getLast? (s.keyOf key) (hs.sublist List.filter_sublist) hj hz
    simpa [lastBelow, hz, prevKey] using hle

/-- A node of a sorted level not below `k`, or null, is not below the first node not below `k`. -/
theorem SortedNodes.firstAtOrAbove_le (hs : s.SortedNodes key ls) {n : Option Nat}
    (hn : OnLink ls n) (hkn : ↑k ≤ s.nextKey key n) :
    s.nextKey key (s.firstAtOrAbove key ls k) ≤ s.nextKey key n := by
  cases n with
  | none => exact le_top
  | some j =>
    have hj : j ∈ ls.filter fun i => k ≤ s.keyOf key i :=
      List.mem_filter.mpr ⟨hn, by simpa [nextKey] using hkn⟩
    obtain ⟨z, hz⟩ := Option.isSome_iff_exists.mp
      (List.isSome_head?.mpr (List.ne_nil_of_mem hj))
    have hle := List.le_of_mem_head? (s.keyOf key) (hs.sublist List.filter_sublist) hj hz
    rw [List.head?_filter] at hz
    simpa [firstAtOrAbove, hz, nextKey] using hle

/-- On a sorted level the link out of the last node below `k` is the first node not below it. -/
theorem Links.getNext_lastBelow {l : Nat} (h : s.Links l ls) (hs : s.SortedNodes key ls) :
    s.getNext (s.lastBelow key ls k) l = s.firstAtOrAbove key ls k := by
  have hsplit := hs.filter_lt_append_filter_le k
  rw [← hsplit] at h
  rw [lastBelow, h.getNext_last, List.head?_filter, firstAtOrAbove]

/-- A start below `k` on a sorted level whose link leads to null or to a node not below `k`
is the last node below `k`, and its link the first node not below it. -/
theorem Links.exact_of_getNext {l : Nat} (h : s.Links l ls) (hs : s.SortedNodes key ls)
    {p : Ref} {n : Option Nat} (hp : OnLevel ls p) (hpk : s.prevKey key p < ↑k)
    (hkn : ↑k ≤ s.nextKey key n) (ht : s.getNext p l = n) :
    s.lastBelow key ls k = p ∧ s.firstAtOrAbove key ls k = n := by
  have hlast : s.lastBelow key ls k = p := by
    refine h.lastBelow_of_getNext hs hp hpk fun n' hn' => ?_
    rw [ht] at hn'
    subst hn'
    simpa [nextKey] using hkn
  refine ⟨hlast, ?_⟩
  rw [← h.getNext_lastBelow hs, hlast, ht]

end Sorted

theorem OnLevel.mono {s : InlineSkipList α} {L : List Nat} {l l' : Nat} (hl : l' ≤ l) {r : Ref}
    (h : OnLevel (s.levelNodes L l) r) : OnLevel (s.levelNodes L l') r := by
  cases r with
  | head => trivial
  | node j =>
    simp only [OnLevel, levelNodes, List.mem_filter, decide_eq_true_eq] at h ⊢
    exact ⟨h.1, by omega⟩

section Holds

variable {s : InlineSkipList α} {L : List Nat}

theorem Holds.levelNodes_zero (hL : s.Holds key L) : s.levelNodes L 0 = L :=
  List.filter_eq_self.mpr fun i hi => by simpa using hL.height_pos i hi

theorem Holds.sorted_levelNodes (hL : s.Holds key L) (l : Nat) :
    s.SortedNodes key (s.levelNodes L l) :=
  hL.sorted.sublist List.filter_sublist

/-- The nodes of `L` are distinct nodes of the arena. -/
theorem Holds.length_le (hL : s.Holds key L) : L.length ≤ s.nodes.length := by
  have hnd : L.Nodup := hL.sorted.imp fun h => ne_of_lt h ∘ congrArg (s.keyOf key)
  have hsub : L ⊆ List.range s.nodes.length := fun i hi =>
    List.mem_range.mpr (height_pos_lt_length (hL.height_pos i hi))
  simpa using (List.subperm_of_subset hnd hsub).length_le

/-- A forward move to a node above the start leaves fewer nodes above the start. -/
theorem length_filter_above_lt {r : Ref} {n : Nat} (hn : n ∈ L)
    (hrn : s.prevKey key r < ↑(s.keyOf key n)) :
    (L.filter fun i => s.prevKey key (.node n) < ↑(s.keyOf key i)).length <
      (L.filter fun i => s.prevKey key r < ↑(s.keyOf key i)).length :=
  List.length_filter_lt_length_filter (fun _ _ h => by simpa using hrn.trans (of_decide_eq_true h))
    hn (by simpa using hrn) (by simp [prevKey])

variable {k : κ}

/-- The loop of `FindGreaterOrEqual` from a start on a level below `k`, with `last_bigger` null
or above `k`, and fuel for the nodes above the start and the levels below, returns the first
node of level 0 not below `k`. -/
theorem Holds.findGreaterOrEqualLoop_eq (hL : s.Holds key L) :
    ∀ (fuel : Nat) (x : Ref) (level : Nat) (lastBigger : Option Nat),
      level < s.head.length → OnLevel (s.levelNodes L level) x → s.prevKey key x < ↑k →
      (∀ b, lastBigger = some b → k < s.keyOf key b) →
      (L.filter fun i => s.prevKey key x < ↑(s.keyOf key i)).length + level < fuel →
      s.findGreaterOrEqualLoop key k fuel x level lastBigger = some (s.firstAtOrAbove key L k)
  | 0, _, _, _, _, _, _, _, hfuel => absurd hfuel (Nat.not_lt_zero _)
  | fuel + 1, x, level, lastBigger, hl, hx, hxk, hlb, hfuel => by
    have hLinks := hL.links level hl
    have hsorted := hL.sorted_levelNodes level
    -- a step down a level keeps the start on the list and below `k`
    have hdown : ∀ lb : Option Nat, 0 < level → (∀ b, lb = some b → k < s.keyOf key b) →
        s.findGreaterOrEqualLoop key k fuel x (level - 1) lb = some (s.firstAtOrAbove key L k) :=
      fun lb hpos hlb' => hL.findGreaterOrEqualLoop_eq fuel x (level - 1) lb (by omega)
        (hx.mono (by omega)) hxk hlb' (by omega)
    -- at level 0, the node after the start, when it is not below `k`, is the answer
    have hfirst : level = 0 → ∀ n, s.getNext x level = some n → k ≤ s.keyOf key n →
        some (some n) = some (s.firstAtOrAbove key L k) := by
      rintro rfl n hn hkn
      rw [← hL.levelNodes_zero, hLinks.firstAtOrAbove_of_getNext hsorted hx hxk hn hkn]
    rw [findGreaterOrEqualLoop]
    cases hn : s.getNext x level with
    | none =>
      by_cases h0 : level = 0
      · subst h0
        rw [if_pos rfl, ← hL.levelNodes_zero,
          hLinks.firstAtOrAbove_of_getNext_none hsorted hx hxk hn]
      · rw [if_neg h0]
        exact hdown none (by omega) (by simp)
    | some n =>
      obtain ⟨hnmem, hxn⟩ := hLinks.mem_of_getNext hsorted hx hxk hn
      dsimp only
      by_cases hnb : some n = lastBigger
      · -- `last_bigger` is above `k`, and is not compared again
        have hkn : k < s.keyOf key n := hlb n hnb.symm
        rw [if_pos hnb]
        by_cases h0 : level = 0
        · rw [if_pos h0]
          exact hfirst h0 n hn hkn.le
        · rw [if_neg h0]
          exact hdown (some n) (by omega) (by simpa using hkn)
      · rw [if_neg hnb]
        rcases lt_trichotomy (s.keyOf key n) k with hlt | heq | hgt
        · -- the next node is below `k`: move to it
          rw [show compare (key (s.node n).key) k = .lt from compare_lt_iff_lt.mpr hlt]
          have hnL : n ∈ L := (List.mem_filter.mp hnmem).1
          exact hL.findGreaterOrEqualLoop_eq fuel (.node n) level lastBigger hl hnmem
            (by simpa [prevKey] using hlt) hlb
            (by have := length_filter_above_lt hnL hxn; omega)
        · rw [show compare (key (s.node n).key) k = .eq from compare_eq_iff_eq.mpr heq,
            hL.sorted.firstAtOrAbove_of_mem (List.mem_filter.mp hnmem).1 heq]
        · rw [show compare (key (s.node n).key) k = .gt from compare_gt_iff_gt.mpr hgt]
          dsimp only
          by_cases h0 : level = 0
          · rw [if_pos h0]
            exact hfirst h0 n hn hgt.le
          · rw [if_neg h0]
            exact hdown (some n) (by omega) (by simpa using hgt)

/-- `FindGreaterOrEqual` returns the first node of level 0 not below `k`. -/
theorem Holds.findGreaterOrEqual_eq (hL : s.Holds key L) (k : κ) :
    s.findGreaterOrEqual key k = some (s.firstAtOrAbove key L k) :=
  hL.findGreaterOrEqualLoop_eq _ _ _ _ (by have := hL.maxHeight_le; have := hL.maxHeight_pos; omega)
    trivial (WithBot.bot_lt_coe k) (by simp)
    (by have := hL.length_le; have := List.length_filter_le (fun i => s.prevKey key Ref.head < ↑(s.keyOf key i)) L; omega)

/-- The loop of `FindLessThan` from a start on a level below `k`, with `last_not_after` null or
not below `k`, returns the last node of level 0 below `k`, or `head_`. -/
theorem Holds.findLessThanLoop_eq (hL : s.Holds key L) :
    ∀ (fuel : Nat) (x : Ref) (level : Nat) (lastNotAfter : Option Nat),
      level < s.head.length → OnLevel (s.levelNodes L level) x → s.prevKey key x < ↑k →
      (∀ b, lastNotAfter = some b → k ≤ s.keyOf key b) →
      (L.filter fun i => s.prevKey key x < ↑(s.keyOf key i)).length + level < fuel →
      s.findLessThanLoop key k fuel x level lastNotAfter = some (s.lastBelow key L k)
  | 0, _, _, _, _, _, _, _, hfuel => absurd hfuel (Nat.not_lt_zero _)
  | fuel + 1, x, level, lastNotAfter, hl, hx, hxk, hlna, hfuel => by
    have hLinks := hL.links level hl
    have hsorted := hL.sorted_levelNodes level
    have hdown : ∀ lna : Option Nat, 0 < level → (∀ b, lna = some b → k ≤ s.keyOf key b) →
        s.findLessThanLoop key k fuel x (level - 1) lna = some (s.lastBelow key L k) :=
      fun lna hpos hlna' => hL.findLessThanLoop_eq fuel x (level - 1) lna (by omega)
        (hx.mono (by omega)) hxk hlna' (by omega)
    -- at level 0 a start whose link does not lead below `k` is the answer
    have hlast : level = 0 → (∀ n, s.getNext x level = some n → k ≤ s.keyOf key n) →
        some x = some (s.lastBelow key L k) := by
      rintro rfl hn
      rw [← hL.levelNodes_zero, hLinks.lastBelow_of_getNext hsorted hx hxk hn]
    rw [findLessThanLoop]
    cases hn : s.getNext x level with
    | none =>
      dsimp only
      by_cases h0 : level = 0
      · rw [if_pos h0]
        exact hlast h0 (by simp [hn])
      · rw [if_neg h0]
        exact hdown none (by omega) (by simp)
    | some n =>
      obtain ⟨hnmem, hxn⟩ := hLinks.mem_of_getNext hsorted hx hxk hn
      dsimp only
      by_cases hmove : some n ≠ lastNotAfter ∧ s.keyIsAfterNode key k (some n) = true
      · -- the key is after the next node: move to it
        rw [if_pos hmove]
        have hlt : s.keyOf key n < k := by simpa [keyIsAfterNode, keyOf] using hmove.2
        exact hL.findLessThanLoop_eq fuel (.node n) level lastNotAfter hl hnmem
          (by simpa [prevKey] using hlt) hlna
          (by have := length_filter_above_lt (List.mem_filter.mp hnmem).1 hxn; omega)
      · rw [if_neg hmove]
        -- the next node is `last_not_after` or not below `k`
        have hkn : k ≤ s.keyOf key n := by
          by_cases hna : some n = lastNotAfter
          · exact hlna n hna.symm
          · have : s.keyIsAfterNode key k (some n) = false := by simpa [hna] using hmove
            simpa [keyIsAfterNode, keyOf] using this
        by_cases h0 : level = 0
        · rw [if_pos h0]
          exact hlast h0 (fun n' hn' => by rw [hn] at hn'; cases hn'; exact hkn)
        · rw [if_neg h0]
          exact hdown (some n) (by omega) (by simpa using hkn)

/-- `FindLessThan` returns the last node of level 0 below `k`, or `head_`. -/
theorem Holds.findLessThan_eq (hL : s.Holds key L) (k : κ) :
    s.findLessThan key k = some (s.lastBelow key L k) :=
  hL.findLessThanLoop_eq _ _ _ _ (by have := hL.maxHeight_le; have := hL.maxHeight_pos; omega)
    trivial (WithBot.bot_lt_coe k) (by simp)
    (by have := hL.length_le; have := List.length_filter_le (fun i => s.prevKey key Ref.head < ↑(s.keyOf key i)) L; omega)

end Holds

end InlineSkipList

end DLSM
