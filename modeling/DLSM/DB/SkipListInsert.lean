import Mathlib
import DLSM.DB.SkipListInvariant

/-! `Insert` keeps what an `InlineSkipList` holds.  A splice that `Insert` is handed, the list's
own `seq_splice_` or a caller's hint, is `SpliceOk`: its levels below `height_` are on their lists
and nest, and at `height_` it holds `head_` and null.  `Insert` first finds the levels from which
the splice brackets the new key (`validateSplice`, or all of them for a splice too short),
recomputes the levels below, and then has a splice that brackets the key at every level and is
exact below the recomputed height.  Linking the node level by level, each level searched again
where its entries are no longer neighbours, puts the node at its place in every list it is tall
enough for; at level 0 an exact splice finds a key that compares equal exactly when one is there.
The splice handed back keeps `SpliceOk` over the new lists, and so does every other splice, since
the lists only grow and keys never change. -/

namespace DLSM

namespace InlineSkipList

open LinkedList

namespace Splice

variable {sp : Splice} {i j : Nat}

theorem prevAt_setLevel (p : Ref) (n : Option Nat) (hi : i < sp.prev.length) :
    (sp.setLevel i p n).prevAt j = if j = i then p else sp.prevAt j := by
  simp only [prevAt, setLevel, List.getD_eq_getElem?_getD, List.getElem?_set]
  by_cases hji : j = i
  · simp [hji, hi]
  · simp [hji, Ne.symm hji]

theorem nextAt_setLevel (p : Ref) (n : Option Nat) (hi : i < sp.next.length) :
    (sp.setLevel i p n).nextAt j = if j = i then n else sp.nextAt j := by
  simp only [nextAt, setLevel, List.getD_eq_getElem?_getD, List.getElem?_set]
  by_cases hji : j = i
  · simp [hji, hi]
  · simp [hji, Ne.symm hji]

@[simp] theorem height_setLevel (p : Ref) (n : Option Nat) : (sp.setLevel i p n).height = sp.height :=
  rfl

@[simp] theorem length_prev_setLevel (p : Ref) (n : Option Nat) :
    (sp.setLevel i p n).prev.length = sp.prev.length := List.length_set

@[simp] theorem length_next_setLevel (p : Ref) (n : Option Nat) :
    (sp.setLevel i p n).next.length = sp.next.length := List.length_set

theorem prevAt_resize {H : Nat} (hH : H < sp.prev.length) :
    (sp.resize H).prevAt j = if j = H then .head else sp.prevAt j := by
  simp only [prevAt, resize, List.getD_eq_getElem?_getD, List.getElem?_set]
  by_cases hjH : j = H
  · simp [hjH, hH]
  · simp [hjH, Ne.symm hjH]

theorem nextAt_resize {H : Nat} (hH : H < sp.next.length) :
    (sp.resize H).nextAt j = if j = H then none else sp.nextAt j := by
  simp only [nextAt, resize, List.getD_eq_getElem?_getD, List.getElem?_set]
  by_cases hjH : j = H
  · simp [hjH, hH]
  · simp [hjH, Ne.symm hjH]

@[simp] theorem height_resize (H : Nat) : (sp.resize H).height = H := rfl

@[simp] theorem length_prev_resize (H : Nat) : (sp.resize H).prev.length = sp.prev.length :=
  List.length_set

@[simp] theorem length_next_resize (H : Nat) : (sp.resize H).next.length = sp.next.length :=
  List.length_set

theorem length_foldl_set {β : Type} (v : β) :
    ∀ (is : List Nat) (l : List β), (is.foldl (fun l i => l.set i v) l).length = l.length
  | [], _ => rfl
  | i :: is, l => by rw [List.foldl_cons, length_foldl_set v is, List.length_set]

/-- Setting the entries below `h` one by one sets each of them and leaves the rest. -/
theorem getD_foldl_set_range {β : Type} (v d : β) (l : List β) :
    ∀ h, h ≤ l.length →
      ((List.range h).foldl (fun l i => l.set i v) l).getD j d = if j < h then v else l.getD j d
  | 0, _ => by simp
  | h + 1, hh => by
    rw [List.range_succ, List.foldl_append, List.foldl_cons, List.foldl_nil,
      List.getD_eq_getElem?_getD, List.getElem?_set, length_foldl_set]
    by_cases hjh : j = h
    · subst hjh
      simp [show j < l.length by omega]
    · have ih := getD_foldl_set_range v d l h (by omega)
      rw [List.getD_eq_getElem?_getD] at ih
      rw [if_neg (Ne.symm hjh), ih]
      by_cases hj : j < h
      · simp [hj, show j < h + 1 by omega]
      · simp [hj, show ¬j < h + 1 by omega]

theorem prevAt_setPrevs {x h : Nat} (hh : h ≤ sp.prev.length) :
    (sp.setPrevs x h).prevAt j = if j < h then .node x else sp.prevAt j :=
  getD_foldl_set_range _ _ _ h hh

@[simp] theorem nextAt_setPrevs (x h : Nat) : (sp.setPrevs x h).nextAt j = sp.nextAt j := rfl

@[simp] theorem height_setPrevs (x h : Nat) : (sp.setPrevs x h).height = sp.height := rfl

@[simp] theorem length_prev_setPrevs (x h : Nat) : (sp.setPrevs x h).prev.length = sp.prev.length :=
  length_foldl_set _ _ _

@[simp] theorem length_next_setPrevs (x h : Nat) : (sp.setPrevs x h).next.length = sp.next.length :=
  rfl

end Splice

variable {α κ : Type} [Inhabited α] {key : α → κ}

section Frame

variable {s : InlineSkipList α} {r : Ref} {l : Nat} {v : Option Nat}

theorem keyOf_setNext_eq : (s.setNext r l v).keyOf key = s.keyOf key := funext keyOf_setNext

omit [Inhabited α] in
@[simp] theorem seqSplice_setNext : (s.setNext r l v).seqSplice = s.seqSplice := by
  cases r <;> rfl

@[simp] theorem prevKey_setNext (p : Ref) : (s.setNext r l v).prevKey key p = s.prevKey key p := by
  cases p <;> simp [prevKey]

@[simp] theorem nextKey_setNext (n : Option Nat) :
    (s.setNext r l v).nextKey key n = s.nextKey key n := by
  cases n <;> simp [nextKey]

variable [LinearOrder κ]

@[simp] theorem lastBelow_setNext (ls : List Nat) (k : κ) :
    (s.setNext r l v).lastBelow key ls k = s.lastBelow key ls k := by
  simp only [lastBelow, keyOf_setNext_eq]

@[simp] theorem firstAtOrAbove_setNext (ls : List Nat) (k : κ) :
    (s.setNext r l v).firstAtOrAbove key ls k = s.firstAtOrAbove key ls k := by
  simp only [firstAtOrAbove, keyOf_setNext_eq]

attribute [simp] levelNodes_setNext

end Frame

section SameNodes

/-- Two states with the same nodes, keys and heights, as many levels, the same `max_height_` and
the same `seq_splice_`: they differ at most in their links. -/
structure SameNodes (s s' : InlineSkipList α) : Prop where
  key_eq : ∀ i, (s'.node i).key = (s.node i).key
  height_eq : s'.height = s.height
  nodes_length : s'.nodes.length = s.nodes.length
  head_length : s'.head.length = s.head.length
  maxHeight_eq : s'.maxHeight = s.maxHeight
  seqSplice_eq : s'.seqSplice = s.seqSplice

namespace SameNodes

variable {s s' s'' : InlineSkipList α}

theorem refl (s : InlineSkipList α) : SameNodes s s := ⟨fun _ => rfl, rfl, rfl, rfl, rfl, rfl⟩

theorem trans (h : SameNodes s s') (h' : SameNodes s' s'') : SameNodes s s'' :=
  ⟨fun i => (h'.key_eq i).trans (h.key_eq i), h'.height_eq.trans h.height_eq,
    h'.nodes_length.trans h.nodes_length, h'.head_length.trans h.head_length,
    h'.maxHeight_eq.trans h.maxHeight_eq, h'.seqSplice_eq.trans h.seqSplice_eq⟩

theorem of_setNext (s : InlineSkipList α) (r : Ref) (l : Nat) (v : Option Nat) :
    SameNodes s (s.setNext r l v) :=
  ⟨key_node_setNext s r l v, funext fun i => height_setNext i, length_nodes_setNext s r l v,
    length_head_setNext s r l v, maxHeight_setNext s r l v, seqSplice_setNext⟩

theorem setNext (h : SameNodes s s') (r : Ref) (l : Nat) (v : Option Nat) :
    SameNodes s (s'.setNext r l v) :=
  h.trans (of_setNext s' r l v)

theorem linkAt (h : SameNodes s s') (x i : Nat) (p : Ref) (n : Option Nat) :
    SameNodes s (s'.linkAt x i p n) :=
  (h.setNext _ _ _).setNext _ _ _

theorem keyOf_eq (h : SameNodes s s') : s'.keyOf key = s.keyOf key :=
  funext fun i => congrArg key (h.key_eq i)

theorem levelNodes_eq (h : SameNodes s s') : s'.levelNodes = s.levelNodes := by
  funext L l
  simp only [levelNodes, h.height_eq]

theorem prevKey_eq (h : SameNodes s s') : s'.prevKey key = s.prevKey key := by
  funext p
  cases p <;> simp [prevKey, h.keyOf_eq]

theorem nextKey_eq (h : SameNodes s s') : s'.nextKey key = s.nextKey key := by
  funext n
  cases n <;> simp [nextKey, h.keyOf_eq]

theorem linkCount_eq (h : SameNodes s s') : s'.linkCount = s.linkCount := by
  funext r
  cases r with
  | head => exact h.head_length
  | node i => exact congrFun h.height_eq i

variable [LinearOrder κ]

theorem lastBelow_eq (h : SameNodes s s') : s'.lastBelow key = s.lastBelow key := by
  funext ls k
  simp only [lastBelow, h.keyOf_eq]

theorem firstAtOrAbove_eq (h : SameNodes s s') : s'.firstAtOrAbove key = s.firstAtOrAbove key := by
  funext ls k
  simp only [firstAtOrAbove, h.keyOf_eq]

theorem sortedNodes_iff (h : SameNodes s s') {ls : List Nat} :
    s'.SortedNodes key ls ↔ s.SortedNodes key ls := by
  rw [SortedNodes, SortedNodes, h.keyOf_eq]

theorem isDuplicate_eq (h : SameNodes s s') (k : κ) (sp : Splice) :
    s'.isDuplicate key k sp = s.isDuplicate key k sp := by
  simp only [isDuplicate, h.key_eq]

end SameNodes

end SameNodes

section Allocate

variable {s : InlineSkipList α} {a : α} {h : Nat} {L : List Nat}

omit [Inhabited α] in
@[simp] theorem head_allocateKey : (s.allocateKey a h).1.head = s.head := rfl

omit [Inhabited α] in
@[simp] theorem maxHeight_allocateKey : (s.allocateKey a h).1.maxHeight = s.maxHeight := rfl

omit [Inhabited α] in
@[simp] theorem length_nodes_allocateKey :
    (s.allocateKey a h).1.nodes.length = s.nodes.length + 1 := by
  simp [allocateKey]

omit [Inhabited α] in
@[simp] theorem seqSplice_allocateKey : (s.allocateKey a h).1.seqSplice = s.seqSplice := rfl

omit [Inhabited α] in
theorem snd_allocateKey : (s.allocateKey a h).2 = s.nodes.length := rfl

theorem node_allocateKey_of_lt {i : Nat} (hi : i < s.nodes.length) :
    (s.allocateKey a h).1.node i = s.node i := by
  simp [allocateKey, node, List.getD_eq_getElem?_getD, List.getElem?_append_left hi]

theorem node_allocateKey_self :
    (s.allocateKey a h).1.node s.nodes.length = ⟨a, List.replicate h none⟩ := by
  simp [allocateKey, node]

/-- The new node has no links yet: a link out of `head_` or out of an older node is as it was. -/
theorem getNext_allocateKey {r : Ref} (hr : ∀ i, r = .node i → i < s.nodes.length) (l : Nat) :
    (s.allocateKey a h).1.getNext r l = s.getNext r l := by
  cases r with
  | head => rfl
  | node i => simp only [getNext, node_allocateKey_of_lt (hr i rfl)]

/-- Allocating a node keeps a level made of older nodes. -/
theorem Links.allocateKey {l : Nat} {ls : List Nat} (hl : s.Links l ls)
    (hls : ∀ i ∈ ls, i < s.nodes.length) : (s.allocateKey a h).1.Links l ls := by
  refine Seg.congr hl fun r hr => ?_
  simp only [nextRef]
  rw [getNext_allocateKey]
  rintro i rfl
  simp only [List.mem_cons, List.mem_map, reduceCtorEq, Ref.node.injEq, false_or] at hr
  obtain ⟨j, hj, rfl⟩ := hr
  exact hls j hj

/-- Allocating a node that no list holds keeps what the skip list holds. -/
theorem Holds.allocateKey [LinearOrder κ] (hL : s.Holds key L) :
    (s.allocateKey a h).1.Holds key L := by
  have hlt : ∀ i ∈ L, i < s.nodes.length := fun i hi => height_pos_lt_length (hL.height_pos i hi)
  have hnode : ∀ i ∈ L, (s.allocateKey a h).1.node i = s.node i := fun i hi =>
    node_allocateKey_of_lt (hlt i hi)
  have hkey : ∀ i ∈ L, (s.allocateKey a h).1.keyOf key i = s.keyOf key i := fun i hi => by
    simp only [keyOf, hnode i hi]
  have hheight : ∀ i ∈ L, (s.allocateKey a h).1.height i = s.height i := fun i hi => by
    simp only [height, hnode i hi]
  have hlevel : ∀ l, (s.allocateKey a h).1.levelNodes L l = s.levelNodes L l := fun l =>
    List.filter_congr fun i hi => by rw [hheight i hi]
  refine ⟨?_, fun i hi => ?_, fun i hi => ?_, hL.maxHeight_pos, hL.maxHeight_le, fun l hl => ?_⟩
  · exact hL.sorted.imp_of_mem fun ha hb hab => by rwa [hkey _ ha, hkey _ hb]
  · rw [hheight i hi]
    exact hL.height_pos i hi
  · rw [hheight i hi]
    exact hL.height_le i hi
  · rw [hlevel]
    exact (hL.links l hl).allocateKey fun j hj => hlt j (List.mem_filter.mp hj).1

/-- Raising `max_height_` to a height `head_` has keeps what the skip list holds. -/
theorem Holds.setMaxHeight [LinearOrder κ] (hL : s.Holds key L) {m : Nat}
    (hm : s.maxHeight ≤ m) (hmh : m ≤ s.head.length) :
    ({ s with maxHeight := m } : InlineSkipList α).Holds key L :=
  ⟨hL.sorted, hL.height_pos, fun i hi => (hL.height_le i hi).trans hm,
    lt_of_lt_of_le hL.maxHeight_pos hm, hmh, hL.links⟩

end Allocate

variable [LinearOrder κ]

theorem OnLink.mono {s : InlineSkipList α} {L : List Nat} {l l' : Nat} (hl : l' ≤ l)
    {n : Option Nat} (h : OnLink (s.levelNodes L l) n) : OnLink (s.levelNodes L l') n :=
  OnLink.of_subset (levelNodes_sublist L hl).subset h

namespace Splice

theorem skipPrev_le {sp : Splice} {bad : Ref} {r H : Nat} (hrH : r ≤ H) (hH : H < sp.prev.length)
    (htop : sp.prevAt H ≠ bad) : sp.skipPrev bad r ≤ H :=
  List.add_length_takeWhile_drop_le hrH hH
    (by rwa [prevAt, List.getD_eq_getElem?_getD, List.getElem?_eq_getElem hH] at htop)

theorem lt_skipPrev {sp : Splice} {r : Nat} (hr : r < sp.prev.length) :
    r < sp.skipPrev (sp.prevAt r) r :=
  List.lt_add_length_takeWhile_drop hr
    (by rw [prevAt, List.getD_eq_getElem?_getD, List.getElem?_eq_getElem hr]; rfl)

theorem skipNext_le {sp : Splice} {bad : Option Nat} {r H : Nat} (hrH : r ≤ H)
    (hH : H < sp.next.length) (htop : sp.nextAt H ≠ bad) : sp.skipNext bad r ≤ H :=
  List.add_length_takeWhile_drop_le hrH hH
    (by rwa [nextAt, List.getD_eq_getElem?_getD, List.getElem?_eq_getElem hH] at htop)

theorem lt_skipNext {sp : Splice} {r : Nat} (hr : r < sp.next.length) :
    r < sp.skipNext (sp.nextAt r) r :=
  List.lt_add_length_takeWhile_drop hr
    (by rw [nextAt, List.getD_eq_getElem?_getD, List.getElem?_eq_getElem hr]; rfl)

end Splice

section Splices

variable (key) in
/-- Level `l` of a splice brackets `k` over the lists of `L`: `prev_[l]` is `head_` or a node of
the level below `k`, and `next_[l]` null or a node of the level not below `k`. -/
structure Brackets (s : InlineSkipList α) (L : List Nat) (k : κ) (sp : Splice) (l : Nat) :
    Prop where
  prev_on : OnLevel (s.levelNodes L l) (sp.prevAt l)
  next_on : OnLink (s.levelNodes L l) (sp.nextAt l)
  prev_lt : s.prevKey key (sp.prevAt l) < ↑k
  le_next : ↑k ≤ s.nextKey key (sp.nextAt l)

variable (key) in
/-- Level `l` of a splice is what `FindSpliceForLevel` finds for `k`: the last node of the level
below `k`, or `head_`, and the first node not below it, or null. -/
def Exact (s : InlineSkipList α) (L : List Nat) (k : κ) (sp : Splice) (l : Nat) : Prop :=
  sp.prevAt l = s.lastBelow key (s.levelNodes L l) k ∧
    sp.nextAt l = s.firstAtOrAbove key (s.levelNodes L l) k

variable (key) in
/-- The invariant of a splice between levels `l` and `l + 1`: `prev_[l + 1]` is not after
`prev_[l]`, and `next_[l + 1]` not before `next_[l]`. -/
def Nests (s : InlineSkipList α) (sp : Splice) (l : Nat) : Prop :=
  s.prevKey key (sp.prevAt (l + 1)) ≤ s.prevKey key (sp.prevAt l) ∧
    s.nextKey key (sp.nextAt l) ≤ s.nextKey key (sp.nextAt (l + 1))

variable (key) in
/-- From level `r` up to `H` a splice brackets `k` and nests, and at `H` it holds `head_` and
null: what `Insert` knows of its splice before the levels below `r` are recomputed. -/
structure BracketsFrom (s : InlineSkipList α) (L : List Nat) (k : κ) (sp : Splice) (r H : Nat) :
    Prop where
  prev_top : sp.prevAt H = .head
  next_top : sp.nextAt H = none
  brackets : ∀ l, r ≤ l → l ≤ H → s.Brackets key L k sp l
  nests : ∀ l, r ≤ l → l < H → s.Nests key sp l

variable (key) in
/-- A splice that `Insert` may be handed over the lists of `L`: arrays with an entry past every
level of `head_`, `height_` at most `max_height_`, `head_` and null at `height_`, and below it
entries on their levels that nest. -/
structure SpliceOk (s : InlineSkipList α) (L : List Nat) (sp : Splice) : Prop where
  prev_length : s.head.length < sp.prev.length
  next_length : s.head.length < sp.next.length
  height_le : sp.height ≤ s.maxHeight
  prev_top : sp.prevAt sp.height = .head
  next_top : sp.nextAt sp.height = none
  prev_on : ∀ l < sp.height, OnLevel (s.levelNodes L l) (sp.prevAt l)
  next_on : ∀ l < sp.height, OnLink (s.levelNodes L l) (sp.nextAt l)
  nests : ∀ l < sp.height, s.Nests key sp l

variable {s : InlineSkipList α} {L : List Nat} {k : κ} {sp : Splice} {l r H : Nat}

theorem brackets_of_top (hp : sp.prevAt l = .head) (hn : sp.nextAt l = none) :
    s.Brackets key L k sp l where
  prev_on := by rw [hp]; trivial
  next_on := by rw [hn]; trivial
  prev_lt := by rw [hp]; exact WithBot.bot_lt_coe k
  le_next := by rw [hn]; exact le_top

theorem Exact.brackets (he : s.Exact key L k sp l) : s.Brackets key L k sp l where
  prev_on := by rw [he.1]; exact onLevel_lastBelow
  next_on := by rw [he.2]; exact onLink_firstAtOrAbove
  prev_lt := by rw [he.1]; exact prevKey_lastBelow_lt
  le_next := by rw [he.2]; exact le_nextKey_firstAtOrAbove

/-- A level that brackets `k` and whose entries are neighbours is exact. -/
theorem Brackets.exact_of_getNext (hL : s.Holds key L) (hl : l < s.head.length)
    (hb : s.Brackets key L k sp l) (ht : s.getNext (sp.prevAt l) l = sp.nextAt l) :
    s.Exact key L k sp l := by
  obtain ⟨hp, hn⟩ := (hL.links l hl).exact_of_getNext (hL.sorted_levelNodes l) hb.prev_on
    hb.prev_lt hb.le_next ht
  exact ⟨hp.symm, hn.symm⟩

/-- An exact level nests under a level above it that brackets `k`. -/
theorem Exact.nests (hs : s.SortedNodes key (s.levelNodes L l)) (he : s.Exact key L k sp l)
    (hb : s.Brackets key L k sp (l + 1)) : s.Nests key sp l := by
  constructor
  · rw [he.1]
    exact hs.prevKey_le_lastBelow (hb.prev_on.mono (Nat.le_succ l)) hb.prev_lt
  · rw [he.2]
    exact hs.firstAtOrAbove_le (hb.next_on.mono (Nat.le_succ l)) hb.le_next

/-- Bracketing passes up a level where the splice nests. -/
theorem Brackets.succ (hb : s.Brackets key L k sp l) (hn : s.Nests key sp l)
    (hp : OnLevel (s.levelNodes L (l + 1)) (sp.prevAt (l + 1)))
    (hq : OnLink (s.levelNodes L (l + 1)) (sp.nextAt (l + 1))) :
    s.Brackets key L k sp (l + 1) :=
  ⟨hp, hq, lt_of_le_of_lt hn.1 hb.prev_lt, le_trans hb.le_next hn.2⟩

theorem Brackets.congr {sp' : Splice} (hb : s.Brackets key L k sp l)
    (hp : sp'.prevAt l = sp.prevAt l) (hn : sp'.nextAt l = sp.nextAt l) :
    s.Brackets key L k sp' l :=
  ⟨hp ▸ hb.prev_on, hn ▸ hb.next_on, hp ▸ hb.prev_lt, hn ▸ hb.le_next⟩

/-- What a splice brackets from `r` up depends only on its entries from `r` up. -/
theorem BracketsFrom.congr {sp' : Splice} (hf : s.BracketsFrom key L k sp r H) (hrH : r ≤ H)
    (hframe : ∀ l, r ≤ l → sp'.prevAt l = sp.prevAt l ∧ sp'.nextAt l = sp.nextAt l) :
    s.BracketsFrom key L k sp' r H where
  prev_top := (hframe H hrH).1.trans hf.prev_top
  next_top := (hframe H hrH).2.trans hf.next_top
  brackets l hrl hl := (hf.brackets l hrl hl).congr (hframe l hrl).1 (hframe l hrl).2
  nests l hrl hl := by
    have hn := hf.nests l hrl hl
    unfold Nests at hn ⊢
    rw [(hframe l hrl).1, (hframe l hrl).2, (hframe (l + 1) (by omega)).1,
      (hframe (l + 1) (by omega)).2]
    exact hn

/-- Exact levels below `r` complete a splice bracketing from `r` to one bracketing from 0. -/
theorem BracketsFrom.of_exact (hL : s.Holds key L) (hf : s.BracketsFrom key L k sp r H)
    (he : ∀ l < r, s.Exact key L k sp l) : s.BracketsFrom key L k sp 0 H := by
  have hb : ∀ l ≤ H, s.Brackets key L k sp l := fun l hl => by
    by_cases hlr : l < r
    · exact (he l hlr).brackets
    · exact hf.brackets l (by omega) hl
  refine ⟨hf.prev_top, hf.next_top, fun l _ hl => hb l hl, fun l _ hl => ?_⟩
  by_cases hlr : l < r
  · exact (he l hlr).nests (hL.sorted_levelNodes l) (hb (l + 1) hl)
  · exact hf.nests l (by omega) hl

namespace SpliceOk

theorem prev_on_le (hok : s.SpliceOk key L sp) (hl : l ≤ sp.height) :
    OnLevel (s.levelNodes L l) (sp.prevAt l) := by
  rcases Nat.lt_or_eq_of_le hl with hlt | rfl
  · exact hok.prev_on l hlt
  · rw [hok.prev_top]
    trivial

theorem next_on_le (hok : s.SpliceOk key L sp) (hl : l ≤ sp.height) :
    OnLink (s.levelNodes L l) (sp.nextAt l) := by
  rcases Nat.lt_or_eq_of_le hl with hlt | rfl
  · exact hok.next_on l hlt
  · rw [hok.next_top]
    trivial

/-- A splice that brackets `k` at level `r` brackets it from `r` up. -/
theorem bracketsFrom (hok : s.SpliceOk key L sp)
    (hb : s.Brackets key L k sp r) : s.BracketsFrom key L k sp r sp.height := by
  have hup : ∀ l, r ≤ l → l ≤ sp.height → s.Brackets key L k sp l := by
    intro l hrl hl
    induction l, hrl using Nat.le_induction with
    | base => exact hb
    | succ l hrl ih =>
      exact (ih (by omega)).succ (hok.nests l (by omega)) (hok.prev_on_le hl) (hok.next_on_le hl)
  exact ⟨hok.prev_top, hok.next_top, hup, fun l _ hl => hok.nests l hl⟩

end SpliceOk

theorem prevKey_lt_of_not_before {p : Ref} (h : ¬(p ≠ .head ∧ s.keyIsAfterRef key k p = false)) :
    s.prevKey key p < ↑k := by
  cases p with
  | head => exact WithBot.bot_lt_coe k
  | node i =>
    have : key (s.node i).key < k := by simpa [keyIsAfterRef, keyIsAfterNode] using h
    exact WithBot.coe_lt_coe.mpr this

theorem le_nextKey_of_not_after {n : Option Nat} (h : s.keyIsAfterNode key k n = false) :
    ↑k ≤ s.nextKey key n := by
  cases n with
  | none => exact le_top
  | some i =>
    have : ¬key (s.node i).key < k := by simpa [keyIsAfterNode] using h
    exact WithTop.coe_le_coe.mpr (not_lt.mp this)

theorem ne_none_of_after {n : Option Nat} (h : s.keyIsAfterNode key k n = true) : n ≠ none := by
  rintro rfl
  cases h

/-- The loop of `Insert` over a splice that is ok ends, within one round per level, at a level up
to `height_` where the splice brackets `k`, and whose entries are neighbours when it is below
`height_`. -/
theorem SpliceOk.validateSplice_spec (hok : s.SpliceOk key L sp)
    (hH : s.maxHeight ≤ s.head.length) (b : Bool) :
    ∀ (fuel r : Nat), r ≤ sp.height → sp.height - r < fuel →
      ∃ r', s.validateSplice key k sp sp.height b fuel r = some r' ∧ r' ≤ sp.height ∧
        s.Brackets key L k sp r' ∧
        (r' < sp.height → s.getNext (sp.prevAt r') r' = sp.nextAt r')
  | 0, _, _, hfuel => absurd hfuel (Nat.not_lt_zero _)
  | fuel + 1, r, hr, hfuel => by
    have hprev : sp.height < sp.prev.length := by
      have := hok.prev_length
      have := hok.height_le
      omega
    have hnext : sp.height < sp.next.length := by
      have := hok.next_length
      have := hok.height_le
      omega
    have htop : s.Brackets key L k sp sp.height := brackets_of_top hok.prev_top hok.next_top
    rw [validateSplice]
    by_cases hrH : r < sp.height
    · rw [if_pos hrH]
      by_cases hadj : s.getNext (sp.prevAt r) r ≠ sp.nextAt r
      · rw [if_pos hadj]
        exact hok.validateSplice_spec hH b fuel (r + 1) hrH (by omega)
      · rw [if_neg hadj]
        by_cases hbefore : sp.prevAt r ≠ .head ∧ s.keyIsAfterRef key k (sp.prevAt r) = false
        · rw [if_pos hbefore]
          cases b with
          | false => exact ⟨sp.height, rfl, le_refl _, htop, fun h => absurd h (lt_irrefl _)⟩
          | true =>
            -- the levels that share the entry found on the wrong side are passed over
            have hle : sp.skipPrev (sp.prevAt r) r ≤ sp.height :=
              Splice.skipPrev_le hr hprev (by rw [hok.prev_top]; exact hbefore.1.symm)
            have hlt : r < sp.skipPrev (sp.prevAt r) r := Splice.lt_skipPrev (by omega)
            exact hok.validateSplice_spec hH true fuel _ hle (by omega)
        · rw [if_neg hbefore]
          cases hafter : s.keyIsAfterNode key k (sp.nextAt r) with
          | true =>
            rw [if_pos rfl]
            cases b with
            | false => exact ⟨sp.height, rfl, le_refl _, htop, fun h => absurd h (lt_irrefl _)⟩
            | true =>
              have hle : sp.skipNext (sp.nextAt r) r ≤ sp.height :=
                Splice.skipNext_le hr hnext
                  (by rw [hok.next_top]; exact (ne_none_of_after hafter).symm)
              have hlt : r < sp.skipNext (sp.nextAt r) r := Splice.lt_skipNext (by omega)
              exact hok.validateSplice_spec hH true fuel _ hle (by omega)
          | false =>
            rw [if_neg (by simp)]
            exact ⟨r, rfl, hr, ⟨hok.prev_on r hrH, hok.next_on r hrH,
              prevKey_lt_of_not_before hbefore, le_nextKey_of_not_after hafter⟩,
              fun _ => not_not.mp hadj⟩
    · rw [if_neg hrH]
      exact ⟨r, rfl, hr, by rw [show r = sp.height by omega]; exact htop,
        fun h => absurd h hrH⟩

/-- `RecomputeSpliceLevels` from a level `r` that brackets `k` makes every level below `r` exact
and leaves the others. -/
theorem Holds.recomputeSpliceLevels_spec (hL : s.Holds key L) :
    ∀ (r : Nat) (sp : Splice), r ≤ s.head.length → r < sp.prev.length → r < sp.next.length →
      s.Brackets key L k sp r →
      ∃ sp', s.recomputeSpliceLevels key k r sp = some sp' ∧ sp'.height = sp.height ∧
        sp'.prev.length = sp.prev.length ∧ sp'.next.length = sp.next.length ∧
        (∀ l, r ≤ l → sp'.prevAt l = sp.prevAt l ∧ sp'.nextAt l = sp.nextAt l) ∧
        ∀ l < r, s.Exact key L k sp' l
  | 0, sp, _, _, _, _ =>
    ⟨sp, rfl, rfl, rfl, rfl, fun _ _ => ⟨rfl, rfl⟩, fun _ h => absurd h (Nat.not_lt_zero _)⟩
  | i + 1, sp, hr, hp, hn, hb => by
    have hafter : ∀ n, sp.nextAt (i + 1) = some n → k ≤ s.keyOf key n := fun n hn' => by
      have hle := hb.le_next
      rw [hn'] at hle
      exact WithTop.coe_le_coe.mp hle
    have hfuel : (s.levelNodes L i).length < s.nodes.length + 1 := by
      have := hL.length_le
      have := List.length_filter_le (fun j => decide (i < s.height j)) L
      simp only [levelNodes]
      omega
    rw [recomputeSpliceLevels, findSpliceForLevel_eq (hL.links i (by omega))
      (hL.sorted_levelNodes i) hafter (hb.prev_on.mono (Nat.le_succ i)) hb.prev_lt hfuel]
    -- level `i` now holds what its search found, and the levels below are recomputed from it
    have hexact : s.Exact key L k (sp.setLevel i (s.lastBelow key (s.levelNodes L i) k)
        (s.firstAtOrAbove key (s.levelNodes L i) k)) i :=
      ⟨by rw [Splice.prevAt_setLevel _ _ (by omega), if_pos rfl],
        by rw [Splice.nextAt_setLevel _ _ (by omega), if_pos rfl]⟩
    obtain ⟨sp', hrec, hheight, hprev, hnext, hframe, hex⟩ :=
      hL.recomputeSpliceLevels_spec i _ (by omega) (by simp; omega) (by simp; omega)
        hexact.brackets
    refine ⟨sp', hrec, hheight, by rw [hprev]; simp, by rw [hnext]; simp, fun l hl => ?_,
      fun l hl => ?_⟩
    · obtain ⟨h1, h2⟩ := hframe l (by omega)
      rw [h1, h2, Splice.prevAt_setLevel _ _ (by omega), Splice.nextAt_setLevel _ _ (by omega),
        if_neg (by omega), if_neg (by omega)]
      exact ⟨rfl, rfl⟩
    · rcases Nat.lt_succ_iff_lt_or_eq.mp hl with hl | rfl
      · exact hex l hl
      · obtain ⟨h1, h2⟩ := hframe l le_rfl
        exact ⟨h1.trans hexact.1, h2.trans hexact.2⟩

end Splices

section Prepare

variable (key) in
/-- The part of `Insert` before the links, with `max_height_` raised to `maxHeight`: the splice
reset at `maxHeight` when it is too short, or validated, and then recomputed below the recompute
height; the recompute height and the splice. -/
def prepareSplice (s : InlineSkipList α) (k : κ) (maxHeight : Nat) (sp : Splice)
    (allowPartialSpliceFix : Bool) : Option (Nat × Splice) := do
  let (recomputeHeight, sp) ← if sp.height < maxHeight then
      if maxHeight < sp.prev.length ∧ maxHeight < sp.next.length then
        pure (maxHeight, sp.resize maxHeight)
      else none
    else do
      let r ← s.validateSplice key k sp maxHeight allowPartialSpliceFix (maxHeight + 1) 0
      pure (r, sp)
  let sp ← if 0 < recomputeHeight then s.recomputeSpliceLevels key k recomputeHeight sp
    else pure sp
  pure (recomputeHeight, sp)

variable (key) in
/-- The part of `Insert` that links the node `x` of height `height`, by compare-and-swap or not,
and the splice it hands back. -/
def linkNode (useCAS : Bool) (s : InlineSkipList α) (k : κ) (x height recomputeHeight : Nat)
    (sp : Splice) : Option (Bool × InlineSkipList α × Splice) :=
  if useCAS then do
    let (ok, s, sp, valid) ← casLevels key k x (List.range height) s sp true
    if ok then pure (true, s, if valid then sp.setPrevs x height else ⟨0, sp.prev, sp.next⟩)
    else pure (false, s, sp)
  else do
    let (ok, s, sp) ← insertLevels key k x recomputeHeight (List.range height) s sp
    if ok then pure (true, s, sp.setPrevs x height) else pure (false, s, sp)

/-- `Insert` is its splice preparation, then its links. -/
theorem insert_eq (useCAS : Bool) (s : InlineSkipList α) (x : Nat) (sp : Splice) (b : Bool) :
    s.insert key useCAS x sp b =
      ({ s with maxHeight := max s.maxHeight (s.node x).next.length }.prepareSplice key
          (key (s.node x).key) (max s.maxHeight (s.node x).next.length) sp b).bind fun p =>
        { s with maxHeight := max s.maxHeight (s.node x).next.length }.linkNode key useCAS
          (key (s.node x).key) x (s.node x).next.length p.1 p.2 := by
  simp only [insert, prepareSplice, linkNode]
  by_cases hh : sp.height < max s.maxHeight (s.node x).next.length
  · by_cases hl : max s.maxHeight (s.node x).next.length < sp.prev.length ∧
        max s.maxHeight (s.node x).next.length < sp.next.length
    · simp only [hh, hl, if_true, and_self]
      by_cases h0 : 0 < max s.maxHeight (s.node x).next.length
      · simp [h0, Option.bind_assoc]
      · simp [h0]
    · simp only [hh, hl, if_true, if_false]
      rfl
  · simp only [hh, if_false]
    cases validateSplice key { s with maxHeight := max s.maxHeight (s.node x).next.length }
        (key (s.node x).key) sp (max s.maxHeight (s.node x).next.length) b
        (max s.maxHeight (s.node x).next.length + 1) 0 with
    | none => simp
    | some r =>
      by_cases h0 : 0 < r
      · simp [h0, Option.bind_assoc]
      · simp [h0]

variable {s : InlineSkipList α} {L : List Nat} {k : κ} {sp : Splice} {H : Nat}

variable (key) in
/-- The splice while `Insert` links a node: of height `H`, at most the number of levels, with
room past `H`, bracketing `k` at every level up to `H`, and exact below `e`. -/
structure Linking (s : InlineSkipList α) (L : List Nat) (k : κ) (sp : Splice) (H e : Nat) :
    Prop where
  height_eq : sp.height = H
  height_le : H ≤ s.head.length
  prev_length : H < sp.prev.length
  next_length : H < sp.next.length
  brackets : s.BracketsFrom key L k sp 0 H
  exact : ∀ l < e, s.Exact key L k sp l

theorem Linking.mono {e e' : Nat} (hlk : s.Linking key L k sp H e) (he : e' ≤ e) :
    s.Linking key L k sp H e' :=
  ⟨hlk.height_eq, hlk.height_le, hlk.prev_length, hlk.next_length, hlk.brackets,
    fun l hl => hlk.exact l (by omega)⟩

/-- A splice too short for `H` is reset to `head_` and null at `H`, and every level below is
recomputed: the recompute height is `H`, and the splice is exact below it. -/
theorem Holds.prepareSplice_resize (hL : s.Holds key L) (hH : s.maxHeight = H)
    (hlt : sp.height < H) (hp : H < sp.prev.length) (hn : H < sp.next.length) (b : Bool) :
    ∃ sp', s.prepareSplice key k H sp b = some (H, sp') ∧ s.Linking key L k sp' H (max H 1) ∧
      sp'.prev.length = sp.prev.length ∧ sp'.next.length = sp.next.length := by
  have hHl : H ≤ s.head.length := hH ▸ hL.maxHeight_le
  have hH0 : 0 < H := hH ▸ hL.maxHeight_pos
  have htop : s.Brackets key L k (sp.resize H) H :=
    brackets_of_top (by rw [Splice.prevAt_resize hp, if_pos rfl])
      (by rw [Splice.nextAt_resize hn, if_pos rfl])
  obtain ⟨sp', hrec, hheight, hprev, hnext, hframe, hex⟩ :=
    hL.recomputeSpliceLevels_spec H (sp.resize H) hHl (by simpa using hp) (by simpa using hn)
      htop
  have hfrom : s.BracketsFrom key L k sp' H H :=
    ⟨(hframe H le_rfl).1.trans (by rw [Splice.prevAt_resize hp, if_pos rfl]),
      (hframe H le_rfl).2.trans (by rw [Splice.nextAt_resize hn, if_pos rfl]),
      fun l h1 h2 => by
        obtain rfl : l = H := by omega
        exact htop.congr (hframe l h1).1 (hframe l h1).2,
      fun l h1 h2 => absurd h2 (by omega)⟩
  refine ⟨sp', ?_, ⟨by simpa using hheight, hHl, by simpa [hprev] using hp,
    by simpa [hnext] using hn, hfrom.of_exact hL hex, fun l hl => hex l (by omega)⟩,
    by simpa using hprev, by simpa using hnext⟩
  simp [prepareSplice, hlt, hp, hn, hH0, hrec]

/-- A splice too short for `H` with no entry at `H`: the reset writes past its arrays. -/
theorem prepareSplice_eq_none (hlt : sp.height < H) (hlen : sp.prev.length ≤ H) (b : Bool) :
    s.prepareSplice key k H sp b = none := by
  simp [prepareSplice, hlt, not_lt.2 hlen]

/-- A splice that is ok and not too short is validated, and recomputed below the level found:
the splice is exact below the recompute height and at level 0. -/
theorem Holds.prepareSplice_validate (hL : s.Holds key L) (hok : s.SpliceOk key L sp)
    (hH : s.maxHeight = H) (hge : ¬sp.height < H) (b : Bool) :
    ∃ rh sp', s.prepareSplice key k H sp b = some (rh, sp') ∧ rh ≤ H ∧
      s.Linking key L k sp' H (max rh 1) ∧
      sp'.prev.length = sp.prev.length ∧ sp'.next.length = sp.next.length := by
  have hHl : H ≤ s.head.length := hH ▸ hL.maxHeight_le
  have hp : H < sp.prev.length := by have := hok.prev_length; omega
  have hn : H < sp.next.length := by have := hok.next_length; omega
  have hheight : sp.height = H := le_antisymm (hH ▸ hok.height_le) (not_lt.mp hge)
  obtain ⟨r, hv, hrH, hbr, hadj⟩ :=
    hok.validateSplice_spec (hH ▸ hHl) b (H + 1) 0 (Nat.zero_le _) (by omega)
  rw [hheight] at hv hrH hadj
  have hfrom : s.BracketsFrom key L k sp r H := hheight ▸ hok.bracketsFrom hbr
  by_cases hr0 : 0 < r
  · obtain ⟨sp', hrec, hheight', hprev, hnext, hframe, hex⟩ :=
      hL.recomputeSpliceLevels_spec r sp (by omega) (by omega) (by omega) hbr
    refine ⟨r, sp', ?_, hrH, ⟨hheight'.trans hheight, hHl, by omega, by omega,
      (hfrom.congr hrH hframe).of_exact hL hex, fun l hl => hex l (by omega)⟩, hprev, hnext⟩
    simp [prepareSplice, hge, hv, hr0, hrec]
  · -- validated at level 0: its entries are neighbours there, so it is exact
    obtain rfl : r = 0 := by omega
    have hH0 : 0 < H := hH ▸ hL.maxHeight_pos
    have he : s.Exact key L k sp 0 := hbr.exact_of_getNext hL (lt_of_lt_of_le hH0 hHl) (hadj hH0)
    refine ⟨0, sp, ?_, Nat.zero_le _, ⟨hheight, hHl, hp, hn, hfrom, fun l hl => ?_⟩, rfl, rfl⟩
    · simp [prepareSplice, hge, hv]
    · obtain rfl : l = 0 := by omega
      exact he

/-- Before its links, `Insert` over a list that holds `L`, with `max_height_` raised to `H` and a
splice that is ok, has a recompute height up to `H` and a splice of height `H` that brackets `k`
at every level up to `H` and is exact below the recompute height and at level 0. -/
theorem Holds.prepareSplice_spec (hL : s.Holds key L) (hok : s.SpliceOk key L sp)
    (hH : s.maxHeight = H) (b : Bool) :
    ∃ rh sp', s.prepareSplice key k H sp b = some (rh, sp') ∧ rh ≤ H ∧
      s.Linking key L k sp' H (max rh 1) ∧
      sp'.prev.length = sp.prev.length ∧ sp'.next.length = sp.next.length := by
  by_cases hlt : sp.height < H
  · have hHl : H ≤ s.head.length := hH ▸ hL.maxHeight_le
    obtain ⟨sp', hprep, hlk, hprev, hnext⟩ := hL.prepareSplice_resize hH hlt
      (by have := hok.prev_length; omega) (by have := hok.next_length; omega) b
    exact ⟨H, sp', hprep, le_rfl, hlk, hprev, hnext⟩
  · exact hL.prepareSplice_validate hok hH hlt b

end Prepare

section Link

variable {s : InlineSkipList α} {L Lx : List Nat} {k : κ} {l i x : Nat}

theorem SortedNodes.nodup {ls : List Nat} (hs : s.SortedNodes key ls) : ls.Nodup :=
  hs.imp fun h => ne_of_lt h ∘ congrArg (s.keyOf key)

/-- The refs of a level, `head_` and then its nodes, split after a prefix `A` of the nodes at
the last node of `A`, or at `head_`. -/
theorem refs_split (A C : List Nat) : ∃ P : List Ref,
    Ref.head :: (A ++ C).map Ref.node = P ++ A.getLast?.elim .head .node :: C.map .node ∧
    ∀ x, Ref.head :: (A ++ x :: C).map Ref.node =
      P ++ A.getLast?.elim .head .node :: .node x :: C.map .node := by
  rcases List.eq_nil_or_concat A with rfl | ⟨A', j, rfl⟩
  · exact ⟨[], rfl, fun _ => rfl⟩
  · exact ⟨.head :: A'.map .node, by simp, fun _ => by simp⟩

/-- Linking `x` at level `l` after the nodes `A` of the level and before the rest `C` puts it
between them in the list of the level. -/
theorem Links.linkAt {A C : List Nat} (h : s.Links l (A ++ C)) (hnd : (A ++ C).Nodup)
    (hx : x ∉ A ++ C) (hxl : l < s.height x)
    (hpl : l < s.linkCount (A.getLast?.elim .head .node)) :
    (s.linkAt x l (A.getLast?.elim .head .node) C.head?).Links l (A ++ x :: C) := by
  obtain ⟨P, hP, hPx⟩ := refs_split A C
  have hseg : Seg (s.nextRef l) (some .head) (P ++ A.getLast?.elim .head .node :: C.map .node)
      none := by
    rw [← hP]
    exact h
  have hrefs : (P ++ A.getLast?.elim Ref.head Ref.node :: C.map Ref.node).Nodup := by
    rw [← hP]
    exact List.nodup_cons.mpr ⟨by simp, hnd.map fun _ _ => Ref.node.inj⟩
  have hxr : Ref.node x ∉ P ++ A.getLast?.elim .head .node :: C.map .node := by
    rw [← hP]
    simpa using hx
  have hax : A.getLast?.elim .head .node ≠ Ref.node x := by
    cases hA : A.getLast? with
    | none => simp
    | some j =>
      have hj : j ∈ A := List.mem_of_getLast? hA
      simp only [Option.elim, ne_eq, Ref.node.injEq]
      rintro rfl
      exact hx (List.mem_append_left C hj)
  have hnext : s.nextRef l (A.getLast?.elim .head .node) = C.head?.map .node := by
    simp only [nextRef, h.getNext_last]
  unfold Links
  rw [hPx]
  refine Seg.congr (Seg.insertAfter hseg hrefs hxr) fun r _ => ?_
  -- `x` takes the old next link of the node before it, which now links to `x`
  simp only [nextRef, InlineSkipList.linkAt, getNext_setNext, linkCount_setNext]
  by_cases hra : r = A.getLast?.elim .head .node
  · rw [hra, Function.update_self]
    simp [hpl]
  · rw [Function.update_of_ne hra]
    by_cases hrx : r = .node x
    · rw [hrx, Function.update_self]
      have hxl' : l < s.linkCount (.node x) := hxl
      simp [Ne.symm hax, hxl', h.getNext_last]
    · rw [Function.update_of_ne hrx]
      simp [hra, hrx, nextRef]

/-- The nodes of level `l` of `L` with `x` inserted under its key, which no node of `L` has: for
a level of `x`, `x` between the nodes below its key and those not below it. -/
theorem levelNodes_insert_of_lt (hs : s.SortedNodes key L)
    (hk : ∀ n ∈ L, s.keyOf key n ≠ s.keyOf key x) (hxl : l < s.height x) :
    s.levelNodes (SortedList.insert (s.keyOf key) x L) l =
      (s.levelNodes L l).filter (fun j => s.keyOf key j < s.keyOf key x) ++
        x :: (s.levelNodes L l).filter (fun j => s.keyOf key x ≤ s.keyOf key j) := by
  have hs' : s.SortedNodes key (s.levelNodes L l) := hs.sublist List.filter_sublist
  have hk' : ∀ n ∈ s.levelNodes L l, s.keyOf key n ≠ s.keyOf key x := fun n hn =>
    hk n (List.mem_filter.mp hn).1
  have hfilter : s.levelNodes (SortedList.insert (s.keyOf key) x L) l =
      SortedList.insert (s.keyOf key) x (s.levelNodes L l) := by
    unfold levelNodes
    rw [SortedList.filter_insert hs hk, if_pos (by simpa using hxl)]
  rw [hfilter, SortedList.insert_eq_filter_append hs' hk', SortedList.filter_le_eq_filter_lt hk']

/-- Above the levels of `x`, inserting it changes no level. -/
theorem levelNodes_insert_of_le (hs : s.SortedNodes key L)
    (hk : ∀ n ∈ L, s.keyOf key n ≠ s.keyOf key x) (hxl : s.height x ≤ l) :
    s.levelNodes (SortedList.insert (s.keyOf key) x L) l = s.levelNodes L l := by
  unfold levelNodes
  rw [SortedList.filter_insert hs hk, if_neg (by simpa using hxl)]

/-- The lists while `x` is linked in from level 0 up: each level below `i` holds the nodes of
`Lx` on it, every other level those of `L`. -/
def LinkedBelow (s : InlineSkipList α) (L Lx : List Nat) (i : Nat) : Prop :=
  ∀ l < s.head.length, s.Links l (s.levelNodes (if l < i then Lx else L) l)

/-- Linking `x` at level `i` between the last node of the level below `k` and the first not below
it carries the lists from `x` linked below `i` to `x` linked below `i + 1`. -/
theorem LinkedBelow.linkAt (hlb : s.LinkedBelow L Lx i) (hi : i < s.head.length)
    (hs : s.SortedNodes key (s.levelNodes L i)) (hx : x ∉ L) (hxi : i < s.height x)
    (hLx : s.levelNodes Lx i = (s.levelNodes L i).filter (fun j => s.keyOf key j < k) ++
      x :: (s.levelNodes L i).filter (fun j => k ≤ s.keyOf key j)) :
    (s.linkAt x i (s.lastBelow key (s.levelNodes L i) k)
      (s.firstAtOrAbove key (s.levelNodes L i) k)).LinkedBelow L Lx (i + 1) := by
  intro l hl
  simp only [InlineSkipList.linkAt, length_head_setNext] at hl
  simp only [InlineSkipList.linkAt, levelNodes_setNext]
  by_cases hli : l = i
  · subst hli
    rw [if_pos (Nat.lt_succ_self l), hLx]
    have hsplit := hs.filter_lt_append_filter_le k
    have hlinks : s.Links l (s.levelNodes L l) := by simpa using hlb l hl
    rw [← hsplit] at hlinks
    have hnd := hs.nodup
    rw [← hsplit] at hnd
    have hxs : x ∉ (s.levelNodes L l).filter (fun j => s.keyOf key j < k) ++
        (s.levelNodes L l).filter (fun j => k ≤ s.keyOf key j) := by
      rw [hsplit]
      exact fun h => hx (List.mem_filter.mp h).1
    -- the node before `x` is `head_` or a node of the level, which has a link there
    have hpl : l < s.linkCount
        (((s.levelNodes L l).filter fun j => s.keyOf key j < k).getLast?.elim .head .node) := by
      cases hA : ((s.levelNodes L l).filter fun j => s.keyOf key j < k).getLast? with
      | none => exact hl
      | some j =>
        have hj := (List.mem_filter.mp (List.mem_filter.mp (List.mem_of_getLast? hA)).1).2
        simpa [linkCount, height] using of_decide_eq_true hj
    have := hlinks.linkAt hnd hxs hxi hpl
    rwa [List.head?_filter] at this
  · have hif : (if l < i + 1 then Lx else L) = (if l < i then Lx else L) := by
      by_cases hlt : l < i
      · rw [if_pos hlt, if_pos (by omega)]
      · rw [if_neg hlt, if_neg (by omega)]
    rw [hif]
    exact links_setNext_of_ne hli (links_setNext_of_ne hli (hlb l hl))

end Link

section Levels

variable {s₀ s : InlineSkipList α} {L : List Nat} {k : κ} {sp : Splice} {l i H : Nat}

/-- On a state with the nodes of `s₀` whose level `l` still holds the nodes of `L`, a level of
the splice that brackets `k` and whose entries are neighbours is exact. -/
theorem Brackets.exact_of_links (hsame : SameNodes s₀ s) (hlinks : s.Links l (s₀.levelNodes L l))
    (hs : s₀.SortedNodes key (s₀.levelNodes L l)) (hb : s₀.Brackets key L k sp l)
    (ht : s.getNext (sp.prevAt l) l = sp.nextAt l) : s₀.Exact key L k sp l := by
  obtain ⟨hp, hn⟩ := hlinks.exact_of_getNext (hsame.sortedNodes_iff.mpr hs) hb.prev_on
    (by rw [hsame.prevKey_eq]; exact hb.prev_lt) (by rw [hsame.nextKey_eq]; exact hb.le_next) ht
  rw [hsame.lastBelow_eq] at hp
  rw [hsame.firstAtOrAbove_eq] at hn
  exact ⟨hp.symm, hn.symm⟩

/-- On such a state, the search of a level from a `prev_` entry that brackets `k` ends at the
last node of the level below `k` and the first not below it. -/
theorem Brackets.findSpliceForLevel_eq (hsame : SameNodes s₀ s) (hL : s₀.Holds key L)
    (hlinks : s.Links l (s₀.levelNodes L l)) (hb : s₀.Brackets key L k sp l) :
    s.findSpliceForLevel key k none l (s.nodes.length + 1) (sp.prevAt l) =
      some (s₀.lastBelow key (s₀.levelNodes L l) k, s₀.firstAtOrAbove key (s₀.levelNodes L l) k) := by
  have hfuel : (s₀.levelNodes L l).length < s.nodes.length + 1 := by
    have := hL.length_le
    have := List.length_filter_le (fun j => decide (l < s₀.height j)) L
    rw [hsame.nodes_length]
    simp only [levelNodes]
    omega
  rw [InlineSkipList.findSpliceForLevel_eq hlinks (hsame.sortedNodes_iff.mpr (hL.sorted_levelNodes l))
    (fun n hn => absurd hn (by simp)) hb.prev_on (by rw [hsame.prevKey_eq]; exact hb.prev_lt)
    hfuel, hsame.lastBelow_eq, hsame.firstAtOrAbove_eq]

/-- At an exact level 0 the duplicate checks find a node of `L` with the key `k` exactly when
there is one. -/
theorem Exact.isDuplicate_iff (hL : s.Holds key L) (he : s.Exact key L k sp 0) :
    s.isDuplicate key k sp = true ↔ ∃ n ∈ L, s.keyOf key n = k := by
  obtain ⟨hp, hn⟩ := he
  rw [hL.levelNodes_zero] at hp hn
  -- the entry before is below `k`: only the entry after can compare equal
  have hbefore : ∀ p, sp.prevAt 0 = .node p → s.keyOf key p < k := fun p hp' => by
    have : s.prevKey key (s.lastBelow key L k) < ↑k := prevKey_lastBelow_lt
    rw [← hp, hp'] at this
    exact WithBot.coe_lt_coe.mp this
  unfold isDuplicate
  cases hq : sp.nextAt 0 with
  | none =>
    have hnone : L.find? (fun i => k ≤ s.keyOf key i) = none := by
      rw [← firstAtOrAbove, ← hn, hq]
    have hno : ¬∃ n ∈ L, s.keyOf key n = k := by
      rintro ⟨n, hnL, hnk⟩
      have := List.find?_eq_none.mp hnone n hnL
      simp [hnk] at this
    cases hr : sp.prevAt 0 with
    | head => simpa using hno
    | node p =>
      have hp' : key (s.node p).key < k := hbefore p hr
      simpa [hp'] using hno
  | some n =>
    have hfind : L.find? (fun i => k ≤ s.keyOf key i) = some n := by
      rw [← firstAtOrAbove, ← hn, hq]
    have hkn : k ≤ s.keyOf key n := by simpa using List.find?_some hfind
    have hnL : n ∈ L := List.mem_of_find?_eq_some hfind
    constructor
    · intro hdup
      refine ⟨n, hnL, ?_⟩
      cases hr : sp.prevAt 0 with
      | head =>
        rw [hr] at hdup
        simp only [Bool.or_false, Bool.not_eq_true', decide_eq_false_iff_not, not_lt] at hdup
        exact le_antisymm hdup hkn
      | node p =>
        rw [hr] at hdup
        have hp' : key (s.node p).key < k := hbefore p hr
        simp only [hp', decide_true, Bool.not_true, Bool.or_false, Bool.not_eq_true',
          decide_eq_false_iff_not, not_lt] at hdup
        exact le_antisymm hdup hkn
    · rintro ⟨m, hmL, hmk⟩
      -- the first node not below `k` is the one with the key `k`
      have hmn : some m = some n := by
        rw [← hq, hn, firstAtOrAbove, ← firstAtOrAbove, hL.sorted.firstAtOrAbove_of_mem hmL hmk]
      cases Option.some.inj hmn
      simp [keyOf] at hmk
      simp [hmk]

/-- Replacing level `i` below `H` of a splice that brackets from 0 by exact entries keeps it
bracketing from 0, when the level below `i` is exact. -/
theorem BracketsFrom.setExact (hL : s.Holds key L) (hf : s.BracketsFrom key L k sp 0 H)
    (hi : i < H) (hbelow : ∀ j, j + 1 = i → s.Exact key L k sp j) {sp' : Splice}
    (he : s.Exact key L k sp' i)
    (hframe : ∀ l, l ≠ i → sp'.prevAt l = sp.prevAt l ∧ sp'.nextAt l = sp.nextAt l) :
    s.BracketsFrom key L k sp' 0 H := by
  have hb : ∀ l ≤ H, s.Brackets key L k sp' l := fun l hl => by
    by_cases hli : l = i
    · exact hli ▸ he.brackets
    · exact (hf.brackets l (Nat.zero_le l) hl).congr (hframe l hli).1 (hframe l hli).2
  refine ⟨(hframe H (by omega)).1.trans hf.prev_top, (hframe H (by omega)).2.trans hf.next_top,
    fun l _ hl => hb l hl, fun l _ hl => ?_⟩
  by_cases hli : l = i
  · subst hli
    exact he.nests (hL.sorted_levelNodes l) (hb (l + 1) hl)
  · by_cases hli' : l + 1 = i
    · -- the level below the new one is exact, and nests under it
      have he' : s.Exact key L k sp' l :=
        ⟨(hframe l hli).1.trans (hbelow l hli').1, (hframe l hli).2.trans (hbelow l hli').2⟩
      exact he'.nests (hL.sorted_levelNodes l) (hb (l + 1) hl)
    · have hn := hf.nests l (Nat.zero_le l) hl
      unfold Nests at hn ⊢
      rw [(hframe l hli).1, (hframe l hli).2, (hframe (l + 1) hli').1, (hframe (l + 1) hli').2]
      exact hn

/-- Level `i` searched again from its `prev_` entry: the splice found is exact at `i` and still
links. -/
theorem Linking.setLevel (hL : s₀.Holds key L) (hsame : SameNodes s₀ s)
    (hlinks : s.Links i (s₀.levelNodes L i)) {e : Nat} (hlk : s₀.Linking key L k sp H e)
    (hi : i < H) (hie : i ≤ e) :
    ∃ p n, s.findSpliceForLevel key k none i (s.nodes.length + 1) (sp.prevAt i) = some (p, n) ∧
      s₀.Linking key L k (sp.setLevel i p n) H (max e (i + 1)) := by
  have hb : s₀.Brackets key L k sp i := hlk.brackets.brackets i (Nat.zero_le i) hi.le
  have hpl : i < sp.prev.length := lt_trans hi hlk.prev_length
  have hnl : i < sp.next.length := lt_trans hi hlk.next_length
  refine ⟨_, _, hb.findSpliceForLevel_eq hsame hL hlinks, ?_⟩
  have he : s₀.Exact key L k (sp.setLevel i (s₀.lastBelow key (s₀.levelNodes L i) k)
      (s₀.firstAtOrAbove key (s₀.levelNodes L i) k)) i :=
    ⟨by rw [Splice.prevAt_setLevel _ _ hpl, if_pos rfl],
      by rw [Splice.nextAt_setLevel _ _ hnl, if_pos rfl]⟩
  have hframe : ∀ l, l ≠ i → (sp.setLevel i (s₀.lastBelow key (s₀.levelNodes L i) k)
      (s₀.firstAtOrAbove key (s₀.levelNodes L i) k)).prevAt l = sp.prevAt l ∧
      (sp.setLevel i (s₀.lastBelow key (s₀.levelNodes L i) k)
      (s₀.firstAtOrAbove key (s₀.levelNodes L i) k)).nextAt l = sp.nextAt l := fun l hl =>
    ⟨by rw [Splice.prevAt_setLevel _ _ hpl, if_neg hl],
      by rw [Splice.nextAt_setLevel _ _ hnl, if_neg hl]⟩
  refine ⟨by simpa using hlk.height_eq, hlk.height_le, by simpa using hlk.prev_length,
    by simpa using hlk.next_length,
    hlk.brackets.setExact hL hi (fun j hj => hlk.exact j (by omega)) he hframe, fun l hl => ?_⟩
  by_cases hli : l = i
  · exact hli ▸ he
  · have hle := hlk.exact l (by omega)
    exact ⟨(hframe l hli).1.trans hle.1, (hframe l hli).2.trans hle.2⟩

/-- Level `i` not searched again, because it was exact or its entries are neighbours: the
splice links, exact at `i` too. -/
theorem Linking.of_getNext (hL : s₀.Holds key L) (hsame : SameNodes s₀ s)
    (hlinks : s.Links i (s₀.levelNodes L i)) {e : Nat} (hlk : s₀.Linking key L k sp H e)
    (hi : i < H) (hie : i ≤ e) (hexact : i < e ∨ s.getNext (sp.prevAt i) i = sp.nextAt i) :
    s₀.Linking key L k sp H (max e (i + 1)) := by
  have he : s₀.Exact key L k sp i := by
    rcases hexact with hie | ht
    · exact hlk.exact i hie
    · exact (hlk.brackets.brackets i (Nat.zero_le i) hi.le).exact_of_links hsame hlinks
        (hL.sorted_levelNodes i) ht
  refine ⟨hlk.height_eq, hlk.height_le, hlk.prev_length, hlk.next_length, hlk.brackets,
    fun l hl => ?_⟩
  by_cases hli : l = i
  · exact hli ▸ he
  · by_cases hle : l < e
    · exact hlk.exact l hle
    · exact absurd hl (by omega)

end Levels

section InsertLevels

variable {s₀ s : InlineSkipList α} {L Lx : List Nat} {k : κ} {sp : Splice} {x h H rh i : Nat}

theorem Holds.linkedBelow_zero (hL : s₀.Holds key L) (Lx : List Nat) : s₀.LinkedBelow L Lx 0 :=
  fun l hl => by simpa using hL.links l hl

/-- With `x` linked below level `i`, the list of level `i` is still the one of `L`. -/
theorem LinkedBelow.links_self (hsame : SameNodes s₀ s) (hlb : s.LinkedBelow L Lx i)
    (hi : i < s₀.head.length) : s.Links i (s₀.levelNodes L i) := by
  have := hlb i (by rw [hsame.head_length]; exact hi)
  rwa [if_neg (lt_irrefl i), hsame.levelNodes_eq] at this

/-- Linking `x` at a level where the splice is exact for its key. -/
theorem LinkedBelow.linkAt_exact (hL : s₀.Holds key L) (hsame : SameNodes s₀ s)
    (hlb : s.LinkedBelow L (SortedList.insert (s₀.keyOf key) x L) i) (hi : i < s₀.head.length)
    (hxL : x ∉ L) (hxi : i < s₀.height x) (hnodup : ∀ m ∈ L, s₀.keyOf key m ≠ s₀.keyOf key x)
    (he : s₀.Exact key L (s₀.keyOf key x) sp i) :
    (s.linkAt x i (sp.prevAt i) (sp.nextAt i)).LinkedBelow L
      (SortedList.insert (s₀.keyOf key) x L) (i + 1) := by
  have hLx := levelNodes_insert_of_lt hL.sorted hnodup hxi
  have hlink := hlb.linkAt (k := s₀.keyOf key x) (by rw [hsame.head_length]; exact hi)
    (by rw [hsame.sortedNodes_iff, hsame.levelNodes_eq]; exact hL.sorted_levelNodes i) hxL
    (by rw [hsame.height_eq]; exact hxi) (by rw [hsame.levelNodes_eq, hsame.keyOf_eq]; exact hLx)
  rw [hsame.levelNodes_eq, hsame.lastBelow_eq, hsame.firstAtOrAbove_eq, ← he.1, ← he.2] at hlink
  exact hlink

/-- With no node of `L` under the key of `x`, the loop of `Insert<false>` links `x` at each of the
levels `i` to `i + n - 1` in turn, and leaves the splice exact there. -/
theorem insertLevels_spec (hL : s₀.Holds key L) (hxL : x ∉ L) (hxh : s₀.height x = h)
    (hnodup : ∀ m ∈ L, s₀.keyOf key m ≠ s₀.keyOf key x) (hhH : h ≤ H) :
    ∀ (n i : Nat) (s : InlineSkipList α) (sp : Splice), i + n ≤ h → SameNodes s₀ s →
      s.LinkedBelow L (SortedList.insert (s₀.keyOf key) x L) i →
      s₀.Linking key L (s₀.keyOf key x) sp H (max rh i) →
      ∃ s' sp', insertLevels key (s₀.keyOf key x) x rh (List.range' i n) s sp =
          some (true, s', sp') ∧ SameNodes s₀ s' ∧
        s'.LinkedBelow L (SortedList.insert (s₀.keyOf key) x L) (i + n) ∧
        s₀.Linking key L (s₀.keyOf key x) sp' H (max rh (i + n))
  | 0, i, s, sp, _, hsame, hlb, hlk => ⟨s, sp, rfl, hsame, hlb, hlk⟩
  | n + 1, i, s, sp, hin, hsame, hlb, hlk => by
    have hiH : i < H := by omega
    have hil : i < s₀.head.length := lt_of_lt_of_le hiH hlk.height_le
    have hlinks := hlb.links_self hsame hil
    -- the rest of the loop, once level `i` of the splice is exact
    have hcont : ∀ sp', s₀.Linking key L (s₀.keyOf key x) sp' H (max rh (i + 1)) →
        ∃ s' sp'', (if i = 0 ∧ s.isDuplicate key (s₀.keyOf key x) sp' = true then
            pure (false, s, sp')
          else insertLevels key (s₀.keyOf key x) x rh (List.range' (i + 1) n)
            (s.linkAt x i (sp'.prevAt i) (sp'.nextAt i)) sp') = some (true, s', sp'') ∧
          SameNodes s₀ s' ∧
          s'.LinkedBelow L (SortedList.insert (s₀.keyOf key) x L) (i + (n + 1)) ∧
          s₀.Linking key L (s₀.keyOf key x) sp'' H (max rh (i + (n + 1))) := by
      intro sp' hlk'
      have he : s₀.Exact key L (s₀.keyOf key x) sp' i := hlk'.exact i (by omega)
      have hnd : ¬(i = 0 ∧ s.isDuplicate key (s₀.keyOf key x) sp' = true) := by
        rintro ⟨rfl, hdup⟩
        rw [hsame.isDuplicate_eq, he.isDuplicate_iff hL] at hdup
        obtain ⟨m, hm, hmk⟩ := hdup
        exact hnodup m hm hmk
      rw [if_neg hnd]
      have := insertLevels_spec hL hxL hxh hnodup hhH n (i + 1) _ sp' (by omega)
        (hsame.linkAt x i _ _)
        (hlb.linkAt_exact hL hsame hil hxL (by omega) hnodup he) hlk'
      rwa [show i + 1 + n = i + (n + 1) by omega] at this
    rw [List.range'_succ, insertLevels]
    by_cases hc : rh ≤ i ∧ s.getNext (sp.prevAt i) i ≠ sp.nextAt i
    · obtain ⟨p, q, hfind, hlk'⟩ := hlk.setLevel hL hsame hlinks hiH (le_max_right _ _)
      rw [if_pos hc, hfind]
      rw [show max (max rh i) (i + 1) = max rh (i + 1) by omega] at hlk'
      exact hcont _ hlk'
    · rw [if_neg hc]
      have hlk' := hlk.of_getNext hL hsame hlinks hiH (le_max_right _ _) (by
        by_cases hri : rh ≤ i
        · exact .inr (by simpa [hri] using hc)
        · exact .inl (by omega))
      rw [show max (max rh i) (i + 1) = max rh (i + 1) by omega] at hlk'
      exact hcont sp hlk'

/-- With a node of `L` under the key `k`, the loop of `Insert<false>` stops at level 0 with
`false`, before any link. -/
theorem insertLevels_dup (hL : s₀.Holds key L) (hh : 0 < h) (hH : 0 < H)
    (hlk : s₀.Linking key L k sp H rh) (hdup : ∃ m ∈ L, s₀.keyOf key m = k) :
    ∃ sp', insertLevels key k x rh (List.range h) s₀ sp = some (false, s₀, sp') ∧
      s₀.Linking key L k sp' H (max rh 1) := by
  obtain ⟨h', rfl⟩ : ∃ h', h = h' + 1 := ⟨h - 1, by omega⟩
  have hlinks : s₀.Links 0 (s₀.levelNodes L 0) := hL.links 0 (by have := hlk.height_le; omega)
  have hcont : ∀ sp', s₀.Linking key L k sp' H (max rh 1) →
      (if 0 = 0 ∧ s₀.isDuplicate key k sp' = true then pure (false, s₀, sp')
        else insertLevels key k x rh (List.range' 1 h')
          (s₀.linkAt x 0 (sp'.prevAt 0) (sp'.nextAt 0)) sp') = some (false, s₀, sp') := by
    intro sp' hlk'
    rw [if_pos ⟨rfl, ((hlk'.exact 0 (by omega)).isDuplicate_iff hL).mpr hdup⟩]
    rfl
  rw [List.range_eq_range', List.range'_succ, insertLevels]
  by_cases hc : rh ≤ 0 ∧ s₀.getNext (sp.prevAt 0) 0 ≠ sp.nextAt 0
  · obtain ⟨p, q, hfind, hlk'⟩ :=
      hlk.setLevel hL (SameNodes.refl s₀) hlinks hH (Nat.zero_le _)
    rw [if_pos hc, hfind]
    exact ⟨_, hcont _ hlk', hlk'⟩
  · rw [if_neg hc]
    have hlk' := hlk.of_getNext hL (SameNodes.refl s₀) hlinks hH (Nat.zero_le _) (by
      by_cases hr0 : rh ≤ 0
      · exact .inr (by simpa [hr0] using hc)
      · exact .inl (by omega))
    exact ⟨sp, hcont sp hlk', hlk'⟩

end InsertLevels

section CasLevels

variable {s₀ s : InlineSkipList α} {L Lx : List Nat} {k : κ} {sp : Splice} {x h H rh i : Nat}

/-- Setting a link of a node that is not on a level leaves the list of that level. -/
theorem Links.setNext_of_not_mem {l l' : Nat} {ls : List Nat} (hl : s.Links l ls) (hx : x ∉ ls)
    (v : Option Nat) : (s.setNext (.node x) l' v).Links l ls := by
  refine Seg.congr hl fun r hr => ?_
  have hrx : r ≠ .node x := by
    rintro rfl
    simp only [List.mem_cons, reduceCtorEq, List.mem_map, Ref.node.injEq, false_or] at hr
    obtain ⟨j, hj, rfl⟩ := hr
    exact hx hj
  simp [nextRef, getNext_setNext, hrx]

/-- The compare-and-swap path sets the link of `x` before `x` is on the level: the lists stay. -/
theorem LinkedBelow.setNext_self (hlb : s.LinkedBelow L Lx i) (hxL : x ∉ L) (v : Option Nat) :
    (s.setNext (.node x) i v).LinkedBelow L Lx i := by
  intro l hl
  rw [length_head_setNext] at hl
  rw [levelNodes_setNext]
  by_cases hli : l = i
  · subst hli
    have hlink := hlb l hl
    rw [if_neg (lt_irrefl l)] at hlink ⊢
    exact hlink.setNext_of_not_mem (fun hx => hxL (List.mem_filter.mp hx).1) v
  · exact links_setNext_of_ne hli (hlb l hl)

/-- With no node of `L` under the key `k`, the duplicate checks of a splice that brackets `k` at
level 0 find none. -/
theorem Brackets.isDuplicate_eq_false (hb : s.Brackets key L k sp 0)
    (hnodup : ∀ m ∈ L, s.keyOf key m ≠ k) : s.isDuplicate key k sp = false := by
  have hnext := hb.le_next
  have hprev := hb.prev_lt
  have hon := hb.next_on
  unfold isDuplicate
  cases hq : sp.nextAt 0 with
  | none =>
    cases hr : sp.prevAt 0 with
    | head => rfl
    | node p =>
      rw [hr] at hprev
      have hp : key (s.node p).key < k := WithBot.coe_lt_coe.mp hprev
      simp [hp]
  | some n =>
    rw [hq] at hnext hon
    have hkn : k < s.keyOf key n :=
      lt_of_le_of_ne (WithTop.coe_le_coe.mp hnext) (hnodup n (List.mem_filter.mp hon).1).symm
    cases hr : sp.prevAt 0 with
    | head => simpa [keyOf] using hkn
    | node p =>
      rw [hr] at hprev
      have hp : key (s.node p).key < k := WithBot.coe_lt_coe.mp hprev
      simpa [hp, keyOf] using hkn

/-- One level of `Insert<true>` at a level where the splice is exact, with no duplicate found
there: the compare-and-swap succeeds at once and links `x`. -/
theorem casLevel_exact (hL : s₀.Holds key L) (hsame : SameNodes s₀ s)
    (hlinks : s.Links i (s₀.levelNodes L i)) (hxL : x ∉ L) (he : s₀.Exact key L k sp i)
    (hnd : ¬(i = 0 ∧ s.isDuplicate key k sp = true)) (fuel : Nat) (valid : Bool) :
    casLevel key k x i (fuel + 1) s sp valid =
      some (true, s.linkAt x i (sp.prevAt i) (sp.nextAt i), sp, valid) := by
  have hsame' := hsame.setNext (.node x) i (sp.nextAt i)
  have hlinks' : (s.setNext (.node x) i (sp.nextAt i)).Links i (s₀.levelNodes L i) :=
    hlinks.setNext_of_not_mem (fun hx => hxL (List.mem_filter.mp hx).1) _
  -- an exact level's entries are neighbours, so the compare-and-swap finds what it expects
  have hadj : (s.setNext (.node x) i (sp.nextAt i)).getNext (sp.prevAt i) i = sp.nextAt i := by
    have hnext := hlinks'.getNext_lastBelow (k := k)
      (hsame'.sortedNodes_iff.mpr (hL.sorted_levelNodes i))
    rw [hsame'.lastBelow_eq, hsame'.firstAtOrAbove_eq, ← he.1, ← he.2] at hnext
    exact hnext
  rw [casLevel, if_neg hnd]
  dsimp only
  rw [if_pos hadj]
  rfl

/-- One level of `Insert<true>` with no node of `L` under the key of `x`: within two rounds, the
second after the level is searched again from `prev_[i]`, `x` is linked at level `i`. -/
theorem casLevel_spec (hL : s₀.Holds key L) (hsame : SameNodes s₀ s)
    (hlb : s.LinkedBelow L (SortedList.insert (s₀.keyOf key) x L) i) (hxL : x ∉ L)
    (hxi : i < s₀.height x) (hnodup : ∀ m ∈ L, s₀.keyOf key m ≠ s₀.keyOf key x) {e : Nat}
    (hlk : s₀.Linking key L (s₀.keyOf key x) sp H e) (hi : i < H) (hie : i ≤ e) (fuel : Nat)
    (valid : Bool) :
    ∃ s' sp' valid', casLevel key (s₀.keyOf key x) x i (fuel + 2) s sp valid =
        some (true, s', sp', valid') ∧ SameNodes s₀ s' ∧
      s'.LinkedBelow L (SortedList.insert (s₀.keyOf key) x L) (i + 1) ∧
      s₀.Linking key L (s₀.keyOf key x) sp' H (max e (i + 1)) ∧
      sp'.prev.length = sp.prev.length ∧ sp'.next.length = sp.next.length := by
  have hil : i < s₀.head.length := lt_of_lt_of_le hi hlk.height_le
  -- no round finds a duplicate: every splice it sees brackets the key at level 0
  have hnd : ∀ (t : InlineSkipList α) (sp' : Splice), SameNodes s₀ t →
      s₀.Linking key L (s₀.keyOf key x) sp' H e → ¬(i = 0 ∧ t.isDuplicate key (s₀.keyOf key x) sp' = true) :=
    fun t sp' ht hlk' ⟨_, hdup⟩ => by
      rw [ht.isDuplicate_eq, (hlk'.brackets.brackets 0 le_rfl (Nat.zero_le H)).isDuplicate_eq_false
        fun m hm => hnodup m hm] at hdup
      cases hdup
  have hsame' := hsame.setNext (.node x) i (sp.nextAt i)
  have hlb' := hlb.setNext_self hxL (sp.nextAt i)
  have hlinks' := hlb'.links_self hsame' hil
  rw [casLevel, if_neg (hnd s sp hsame hlk)]
  dsimp only
  by_cases hadj : (s.setNext (.node x) i (sp.nextAt i)).getNext (sp.prevAt i) i = sp.nextAt i
  · -- the entries are neighbours: the compare-and-swap succeeds
    rw [if_pos hadj]
    have hlk' := hlk.of_getNext hL hsame' hlinks' hi hie (.inr hadj)
    exact ⟨_, sp, valid, rfl, hsame.linkAt x i _ _,
      hlb.linkAt_exact hL hsame hil hxL hxi hnodup (hlk'.exact i (by omega)), hlk', rfl, rfl⟩
  · -- it fails; the level is searched again, and the second round succeeds
    rw [if_neg hadj]
    obtain ⟨p, q, hfind, hlk'⟩ := hlk.setLevel hL hsame' hlinks' hi hie
    rw [hfind]
    have he := hlk'.exact i (by omega)
    have hlkE : s₀.Linking key L (s₀.keyOf key x) (sp.setLevel i p q) H e :=
      hlk'.mono (le_max_left _ _)
    exact ⟨_, _, _, casLevel_exact hL hsame' hlinks' hxL he (hnd _ _ hsame' hlkE) fuel _,
      hsame'.linkAt x i _ _, hlb'.linkAt_exact hL hsame' hil hxL hxi hnodup he, hlk',
      Splice.length_prev_setLevel .., Splice.length_next_setLevel ..⟩

/-- With no node of `L` under the key of `x`, the loop of `Insert<true>` links `x` at each of the
levels `i` to `i + n - 1` in turn. -/
theorem casLevels_spec (hL : s₀.Holds key L) (hxL : x ∉ L) (hxh : s₀.height x = h)
    (hnodup : ∀ m ∈ L, s₀.keyOf key m ≠ s₀.keyOf key x) (hhH : h ≤ H) :
    ∀ (n i : Nat) (s : InlineSkipList α) (sp : Splice) (valid : Bool), i + n ≤ h →
      SameNodes s₀ s → s.LinkedBelow L (SortedList.insert (s₀.keyOf key) x L) i →
      s₀.Linking key L (s₀.keyOf key x) sp H (max rh i) →
      ∃ s' sp' valid', casLevels key (s₀.keyOf key x) x (List.range' i n) s sp valid =
          some (true, s', sp', valid') ∧ SameNodes s₀ s' ∧
        s'.LinkedBelow L (SortedList.insert (s₀.keyOf key) x L) (i + n) ∧
        s₀.Linking key L (s₀.keyOf key x) sp' H (max rh (i + n)) ∧
        sp'.prev.length = sp.prev.length ∧ sp'.next.length = sp.next.length
  | 0, i, s, sp, valid, _, hsame, hlb, hlk => ⟨s, sp, valid, rfl, hsame, hlb, hlk, rfl, rfl⟩
  | n + 1, i, s, sp, valid, hin, hsame, hlb, hlk => by
    -- the arena holds `x`, so each level has two rounds of fuel
    have hxn : x < s₀.nodes.length := height_pos_lt_length (by omega)
    obtain ⟨f, hf⟩ : ∃ f, s.nodes.length + 1 = f + 2 :=
      ⟨s.nodes.length - 1, by rw [hsame.nodes_length]; omega⟩
    obtain ⟨s₁, sp₁, v₁, hcas, hsame₁, hlb₁, hlk₁, hp₁, hn₁⟩ := casLevel_spec hL hsame hlb hxL
      (by omega) hnodup hlk (by omega) (le_max_right _ _) f valid
    rw [show max (max rh i) (i + 1) = max rh (i + 1) by omega] at hlk₁
    obtain ⟨s', sp', v', hrest, hsame', hlb', hlk', hp', hn'⟩ :=
      casLevels_spec hL hxL hxh hnodup hhH n (i + 1) s₁ sp₁ v₁ (by omega) hsame₁ hlb₁ hlk₁
    rw [List.range'_succ, casLevels, hf, hcas]
    rw [show i + 1 + n = i + (n + 1) by omega] at hlb' hlk'
    exact ⟨s', sp', v', hrest, hsame', hlb', hlk', hp'.trans hp₁, hn'.trans hn₁⟩

/-- With a node of `L` under the key `k` and a splice exact at level 0, the loop of `Insert<true>`
stops at level 0 with `false`, before any link. -/
theorem casLevels_dup (hL : s₀.Holds key L) (hh : 0 < h) (he : s₀.Exact key L k sp 0)
    (hdup : ∃ m ∈ L, s₀.keyOf key m = k) (valid : Bool) :
    casLevels key k x (List.range h) s₀ sp valid = some (false, s₀, sp, valid) := by
  obtain ⟨h', rfl⟩ : ∃ h', h = h' + 1 := ⟨h - 1, by omega⟩
  rw [List.range_eq_range', List.range'_succ, casLevels, casLevel,
    if_pos ⟨rfl, (he.isDuplicate_iff hL).mpr hdup⟩]
  rfl

end CasLevels

section Extends

/-- `s'` over `L'` extends `s` over `L`: as many levels, `max_height_` not lower, the nodes of `L`
with their keys and heights, and all of them among `L'`. -/
structure Extends (s : InlineSkipList α) (L : List Nat) (s' : InlineSkipList α) (L' : List Nat) :
    Prop where
  head_length : s'.head.length = s.head.length
  maxHeight_le : s.maxHeight ≤ s'.maxHeight
  key_eq : ∀ i ∈ L, (s'.node i).key = (s.node i).key
  height_eq : ∀ i ∈ L, s'.height i = s.height i
  subset : L ⊆ L'

variable {s s' s'' : InlineSkipList α} {L L' L'' : List Nat} {sp : Splice}

namespace Extends

theorem trans (he : Extends s L s' L') (he' : Extends s' L' s'' L'') : Extends s L s'' L'' :=
  ⟨he'.head_length.trans he.head_length, he.maxHeight_le.trans he'.maxHeight_le,
    fun i hi => (he'.key_eq i (he.subset hi)).trans (he.key_eq i hi),
    fun i hi => (he'.height_eq i (he.subset hi)).trans (he.height_eq i hi),
    fun _ hi => he'.subset (he.subset hi)⟩

theorem of_sameNodes (hsame : SameNodes s s') (hL : L ⊆ L') : Extends s L s' L' :=
  ⟨hsame.head_length, hsame.maxHeight_eq.ge, fun i _ => hsame.key_eq i,
    fun i _ => congrFun hsame.height_eq i, hL⟩

theorem levelNodes_subset (he : Extends s L s' L') (l : Nat) :
    s.levelNodes L l ⊆ s'.levelNodes L' l := fun i hi => by
  obtain ⟨hiL, hil⟩ := List.mem_filter.mp hi
  exact List.mem_filter.mpr ⟨he.subset hiL, by rw [he.height_eq i hiL]; exact hil⟩

omit [LinearOrder κ] in
theorem prevKey_eq (he : Extends s L s' L') {l : Nat} {p : Ref}
    (hp : OnLevel (s.levelNodes L l) p) : s'.prevKey key p = s.prevKey key p := by
  cases p with
  | head => rfl
  | node i =>
    simp only [prevKey, keyOf, he.key_eq i (List.mem_filter.mp hp).1]

omit [LinearOrder κ] in
theorem nextKey_eq (he : Extends s L s' L') {l : Nat} {n : Option Nat}
    (hn : OnLink (s.levelNodes L l) n) : s'.nextKey key n = s.nextKey key n := by
  cases n with
  | none => rfl
  | some i =>
    simp only [nextKey, keyOf, he.key_eq i (List.mem_filter.mp hn).1]

end Extends

/-- A splice that is ok stays ok as the list grows: its entries keep their keys and stay on their
levels. -/
theorem SpliceOk.extend (hok : s.SpliceOk key L sp) (he : Extends s L s' L') :
    s'.SpliceOk key L' sp where
  prev_length := he.head_length ▸ hok.prev_length
  next_length := he.head_length ▸ hok.next_length
  height_le := hok.height_le.trans he.maxHeight_le
  prev_top := hok.prev_top
  next_top := hok.next_top
  prev_on l hl := OnLevel.of_subset (he.levelNodes_subset l) (hok.prev_on l hl)
  next_on l hl := OnLink.of_subset (he.levelNodes_subset l) (hok.next_on l hl)
  nests l hl := by
    have hn := hok.nests l hl
    unfold Nests at hn ⊢
    rw [he.prevKey_eq (hok.prev_on_le (l := l + 1) hl), he.prevKey_eq (hok.prev_on l hl),
      he.nextKey_eq (hok.next_on l hl), he.nextKey_eq (hok.next_on_le (l := l + 1) hl)]
    exact hn

end Extends

section Hints

variable {s s' : InlineSkipList α} {L L' : List Nat} {k : κ} {sp : Splice} {H : Nat}

variable (key) in
/-- A splice an insert may be handed: arrays with an entry past every level of `head_`, and
either `height_` 0, so that the insert resets it, or a splice that is ok.  A new splice is of the
first kind, and so is what `Insert<true>` hands back once a compare-and-swap has failed. -/
structure HintOk (s : InlineSkipList α) (L : List Nat) (sp : Splice) : Prop where
  prev_length : s.head.length < sp.prev.length
  next_length : s.head.length < sp.next.length
  fresh_or_ok : sp.height = 0 ∨ s.SpliceOk key L sp

theorem SpliceOk.hintOk (hok : s.SpliceOk key L sp) : s.HintOk key L sp :=
  ⟨hok.prev_length, hok.next_length, .inr hok⟩

theorem HintOk.extend (hok : s.HintOk key L sp) (he : Extends s L s' L') : s'.HintOk key L' sp :=
  ⟨he.head_length ▸ hok.prev_length, he.head_length ▸ hok.next_length,
    hok.fresh_or_ok.imp id fun h => h.extend he⟩

/-- `AllocateSplice`'s arrays have `kMaxHeight_ + 1` entries. -/
theorem hintOk_alloc : s.HintOk key L (Splice.alloc s.head.length) :=
  ⟨by simp [Splice.alloc], by simp [Splice.alloc], .inl rfl⟩

/-- The arrays `InsertConcurrently` puts on the stack have room for a list of fewer than
`kMaxPossibleHeight` levels. -/
theorem hintOk_onStack (h : s.head.length < kMaxPossibleHeight) : s.HintOk key L Splice.onStack :=
  ⟨by simpa [Splice.onStack] using h, by simpa [Splice.onStack] using h, .inl rfl⟩

/-- The first half of `Insert` from a hint: a splice of `height_` 0 is below `max_height_`, which
is positive, and is reset; one that is ok is validated. -/
theorem Holds.prepareSplice_hint (hL : s.Holds key L) (hok : s.HintOk key L sp)
    (hH : s.maxHeight = H) (b : Bool) :
    ∃ rh sp', s.prepareSplice key k H sp b = some (rh, sp') ∧
      s.Linking key L k sp' H (max rh 1) ∧
      sp'.prev.length = sp.prev.length ∧ sp'.next.length = sp.next.length := by
  rcases hok.fresh_or_ok with h0 | hok'
  · have hHl : H ≤ s.head.length := hH ▸ hL.maxHeight_le
    obtain ⟨sp', hprep, hlk, hp, hn⟩ := hL.prepareSplice_resize hH
      (by rw [h0]; exact hH ▸ hL.maxHeight_pos) (by have := hok.prev_length; omega)
      (by have := hok.next_length; omega) b
    exact ⟨H, sp', hprep, hlk, hp, hn⟩
  · obtain ⟨rh, sp', hprep, -, hlk, hp, hn⟩ := hL.prepareSplice_spec hok' hH b
    exact ⟨rh, sp', hprep, hlk, hp, hn⟩

end Hints

section Insert

variable {s₀ s : InlineSkipList α} {L : List Nat} {k : κ} {sp : Splice} {x h H rh : Nat}

theorem insertLevels_length (k : κ) (x rh : Nat) :
    ∀ (is : List Nat) (s : InlineSkipList α) (sp : Splice) {ok : Bool} {s' : InlineSkipList α}
      {sp' : Splice}, insertLevels key k x rh is s sp = some (ok, s', sp') →
      sp'.prev.length = sp.prev.length ∧ sp'.next.length = sp.next.length
  | [], s, sp, ok, s', sp', hrun => by
    simp only [insertLevels, Option.some.injEq, Prod.mk.injEq] at hrun
    obtain ⟨-, -, rfl⟩ := hrun
    exact ⟨rfl, rfl⟩
  | i :: is, s, sp, ok, s', sp', hrun => by
    rw [insertLevels] at hrun
    -- the levels after `i` start from the splice with level `i` searched again, or the same one
    have hrest : ∀ sp₁ : Splice, sp₁.prev.length = sp.prev.length →
        sp₁.next.length = sp.next.length →
        (if i = 0 ∧ s.isDuplicate key k sp₁ = true then pure (false, s, sp₁)
          else insertLevels key k x rh is (s.linkAt x i (sp₁.prevAt i) (sp₁.nextAt i)) sp₁) =
          some (ok, s', sp') →
        sp'.prev.length = sp.prev.length ∧ sp'.next.length = sp.next.length := by
      intro sp₁ h₁ h₂ hrun'
      split at hrun'
      · simp only [pure, Option.some.injEq, Prod.mk.injEq] at hrun'
        obtain ⟨-, -, rfl⟩ := hrun'
        exact ⟨h₁, h₂⟩
      · obtain ⟨h₃, h₄⟩ := insertLevels_length k x rh is _ sp₁ hrun'
        exact ⟨h₃.trans h₁, h₄.trans h₂⟩
    split at hrun
    · obtain ⟨⟨p, n⟩, -, hrun'⟩ := Option.bind_eq_some_iff.mp hrun
      exact hrest _ (by simp) (by simp) hrun'
    · exact hrest sp rfl rfl hrun

/-- A splice that links, of height `max_height_` and with room past every level, is ok. -/
theorem Linking.spliceOk {e : Nat} (hlk : s.Linking key L k sp H e) (hH : s.maxHeight = H)
    (hp : s.head.length < sp.prev.length) (hn : s.head.length < sp.next.length) :
    s.SpliceOk key L sp where
  prev_length := hp
  next_length := hn
  height_le := by rw [hlk.height_eq, hH]
  prev_top := by rw [hlk.height_eq]; exact hlk.brackets.prev_top
  next_top := by rw [hlk.height_eq]; exact hlk.brackets.next_top
  prev_on l hl :=
    (hlk.brackets.brackets l (Nat.zero_le l) (by rw [← hlk.height_eq]; exact hl.le)).prev_on
  next_on l hl :=
    (hlk.brackets.brackets l (Nat.zero_le l) (by rw [← hlk.height_eq]; exact hl.le)).next_on
  nests l hl := hlk.brackets.nests l (Nat.zero_le l) (by rw [← hlk.height_eq]; exact hl)

theorem mem_insert_self (hnodup : ∀ m ∈ L, s.keyOf key m ≠ s.keyOf key x) :
    x ∈ SortedList.insert (s.keyOf key) x L :=
  (SortedList.insert_perm hnodup).mem_iff.mpr List.mem_cons_self

theorem subset_insert (hnodup : ∀ m ∈ L, s.keyOf key m ≠ s.keyOf key x) :
    L ⊆ SortedList.insert (s.keyOf key) x L := fun _ hi =>
  (SortedList.insert_perm hnodup).mem_iff.mpr (List.mem_cons_of_mem x hi)

/-- With `x` linked at all its levels, the list holds `L` with `x` at its place. -/
theorem LinkedBelow.holds (hL : s₀.Holds key L) (hsame : SameNodes s₀ s) (hxh : s₀.height x = h)
    (hh : 0 < h) (hhm : h ≤ s₀.maxHeight) (hnodup : ∀ m ∈ L, s₀.keyOf key m ≠ s₀.keyOf key x)
    (hlb : s.LinkedBelow L (SortedList.insert (s₀.keyOf key) x L) h) :
    s.Holds key (SortedList.insert (s₀.keyOf key) x L) := by
  refine ⟨hsame.sortedNodes_iff.mpr (SortedList.insert_sorted x hL.sorted), fun i hi => ?_,
    fun i hi => ?_, hsame.maxHeight_eq ▸ hL.maxHeight_pos,
    hsame.maxHeight_eq ▸ hsame.head_length ▸ hL.maxHeight_le, fun l hl => ?_⟩
  · rw [hsame.height_eq]
    rcases SortedList.mem_insert hi with rfl | hi
    · omega
    · exact hL.height_pos i hi
  · rw [hsame.height_eq, hsame.maxHeight_eq]
    rcases SortedList.mem_insert hi with rfl | hi
    · omega
    · exact hL.height_le i hi
  · have hlink := hlb l hl
    by_cases hlh : l < h
    · rwa [if_pos hlh] at hlink
    · -- above the levels of `x` the list is `L`'s, which is the same level of the new nodes
      rw [if_neg hlh] at hlink
      rw [hsame.levelNodes_eq, levelNodes_insert_of_le hL.sorted hnodup (by omega)]
      rwa [hsame.levelNodes_eq] at hlink

/-- The splice handed back by a successful `Insert<false>`: `prev_` set to `x` below its height,
it is ok over the lists with `x`. -/
theorem Linking.spliceOk_setPrevs (hsame : SameNodes s₀ s)
    (hlk : s₀.Linking key L (s₀.keyOf key x) sp H h) (hH : s₀.maxHeight = H)
    (hxh : s₀.height x = h) (hhH : h ≤ H) (hnodup : ∀ m ∈ L, s₀.keyOf key m ≠ s₀.keyOf key x)
    (hp : s₀.head.length < sp.prev.length) (hn : s₀.head.length < sp.next.length) :
    s.SpliceOk key (SortedList.insert (s₀.keyOf key) x L) (sp.setPrevs x h) := by
  have hhp : h ≤ sp.prev.length := by have := hlk.prev_length; omega
  have hsub := subset_insert hnodup
  have hxl : ∀ l < h, OnLevel (s.levelNodes (SortedList.insert (s₀.keyOf key) x L) l)
      (.node x) := fun l hl => by
    rw [hsame.levelNodes_eq]
    exact List.mem_filter.mpr ⟨mem_insert_self hnodup, by rw [hxh]; simpa using hl⟩
  have hlev : ∀ l, s₀.levelNodes L l ⊆ s.levelNodes (SortedList.insert (s₀.keyOf key) x L) l :=
    (Extends.of_sameNodes hsame hsub).levelNodes_subset
  have hb : ∀ l ≤ H, s₀.Brackets key L (s₀.keyOf key x) sp l := fun l hl =>
    hlk.brackets.brackets l (Nat.zero_le l) hl
  refine ⟨by rw [hsame.head_length]; simpa using hp, by rw [hsame.head_length]; simpa using hn,
    by simp [hlk.height_eq, hsame.maxHeight_eq, hH], ?_, ?_, fun l hl => ?_, fun l hl => ?_,
    fun l hl => ?_⟩
  · rw [Splice.height_setPrevs, Splice.prevAt_setPrevs hhp, if_neg (by rw [hlk.height_eq]; omega),
      hlk.height_eq]
    exact hlk.brackets.prev_top
  · rw [Splice.height_setPrevs, Splice.nextAt_setPrevs, hlk.height_eq]
    exact hlk.brackets.next_top
  · rw [Splice.height_setPrevs, hlk.height_eq] at hl
    rw [Splice.prevAt_setPrevs hhp]
    split_ifs with hlh
    · exact hxl l hlh
    · exact OnLevel.of_subset (hlev l) (hb l hl.le).prev_on
  · rw [Splice.height_setPrevs, hlk.height_eq] at hl
    rw [Splice.nextAt_setPrevs]
    exact OnLink.of_subset (hlev l) (hb l hl.le).next_on
  · rw [Splice.height_setPrevs, hlk.height_eq] at hl
    have hn' := hlk.brackets.nests l (Nat.zero_le l) hl
    unfold Nests at hn' ⊢
    rw [Splice.prevAt_setPrevs hhp, Splice.prevAt_setPrevs hhp, Splice.nextAt_setPrevs,
      Splice.nextAt_setPrevs, hsame.prevKey_eq, hsame.nextKey_eq]
    refine ⟨?_, hn'.2⟩
    -- going up, `prev_` is `x` below its height, then the old entries, all before `x`'s key
    by_cases hl1 : l + 1 < h
    · rw [if_pos hl1, if_pos (by omega)]
    · rw [if_neg hl1]
      by_cases hl0 : l < h
      · rw [if_pos hl0]
        exact (hb (l + 1) (by omega)).prev_lt.le
      · rw [if_neg hl0]
        exact hn'.1

/-- The links of `Insert<false>` from a splice that links: `false` exactly when a node of `L`
has the key of `x`, with the list as it was and the splice still ok; otherwise `x` linked at
every level of it, and the splice handed back ok over the new lists. -/
theorem linkNode_false_spec (hL : s₀.Holds key L) (hxL : x ∉ L) (hxh : s₀.height x = h)
    (hh : 0 < h) (hhH : h ≤ H) (hH : s₀.maxHeight = H)
    (hlk : s₀.Linking key L (s₀.keyOf key x) sp H (max rh 1))
    (hp : s₀.head.length < sp.prev.length) (hn : s₀.head.length < sp.next.length) :
    ∃ ok s' sp', s₀.linkNode key false (s₀.keyOf key x) x h rh sp = some (ok, s', sp') ∧
      (ok = false ↔ ∃ m ∈ L, s₀.keyOf key m = s₀.keyOf key x) ∧
      (ok = false → s' = s₀ ∧ s₀.SpliceOk key L sp') ∧
      (ok = true → SameNodes s₀ s' ∧
        s'.LinkedBelow L (SortedList.insert (s₀.keyOf key) x L) h ∧
        s'.SpliceOk key (SortedList.insert (s₀.keyOf key) x L) sp') := by
  have hH0 : 0 < H := by omega
  by_cases hdup : ∃ m ∈ L, s₀.keyOf key m = s₀.keyOf key x
  · obtain ⟨sp', hloop, hlk'⟩ := insertLevels_dup (x := x) hL hh hH0
      (hlk.mono (le_max_left rh 1)) hdup
    obtain ⟨hlp, hln⟩ := insertLevels_length _ _ _ _ _ _ hloop
    refine ⟨false, s₀, sp', by simp [linkNode, hloop], iff_of_true rfl hdup,
      fun _ => ⟨rfl, hlk'.spliceOk hH (by omega) (by omega)⟩, fun h => absurd h (by simp)⟩
  · have hnodup : ∀ m ∈ L, s₀.keyOf key m ≠ s₀.keyOf key x := fun m hm hmk => hdup ⟨m, hm, hmk⟩
    obtain ⟨s', sp', hloop, hsame, hlb, hlk'⟩ := insertLevels_spec hL hxL hxh hnodup hhH h 0 s₀
      sp (by omega) (SameNodes.refl s₀) (hL.linkedBelow_zero _)
      (show s₀.Linking key L (s₀.keyOf key x) sp H (max rh 0) from
        (hlk.mono (le_max_left rh 1)).mono (by omega))
    rw [← List.range_eq_range'] at hloop
    rw [Nat.zero_add] at hlb hlk'
    obtain ⟨hlp, hln⟩ := insertLevels_length _ _ _ _ _ _ hloop
    have hlkh : s₀.Linking key L (s₀.keyOf key x) sp' H h := hlk'.mono (le_max_right _ _)
    refine ⟨true, s', sp'.setPrevs x h, by simp [linkNode, hloop],
      iff_of_false (by simp) hdup, fun h => absurd h (by simp), fun _ => ⟨hsame, hlb, ?_⟩⟩
    exact hlkh.spliceOk_setPrevs hsame hH hxh hhH hnodup (by omega) (by omega)

/-- The links of `Insert<true>` from a splice that links: `false` exactly when a node of `L` has
the key of `x`, with the list and the splice as they were; otherwise `x` linked at every level of
it, and handed back the splice the loop left with `x` below its height while it is still valid, or
with `height_` 0. -/
theorem linkNode_true_spec (hL : s₀.Holds key L) (hxL : x ∉ L) (hxh : s₀.height x = h)
    (hh : 0 < h) (hhH : h ≤ H) (hlk : s₀.Linking key L (s₀.keyOf key x) sp H (max rh 1)) :
    ∃ ok s' sp', s₀.linkNode key true (s₀.keyOf key x) x h rh sp = some (ok, s', sp') ∧
      (ok = false ↔ ∃ m ∈ L, s₀.keyOf key m = s₀.keyOf key x) ∧
      (ok = false → s' = s₀ ∧ sp' = sp) ∧
      (ok = true → SameNodes s₀ s' ∧
        s'.LinkedBelow L (SortedList.insert (s₀.keyOf key) x L) h ∧
        ∃ (valid : Bool) (sp₁ : Splice),
          sp' = (if valid then sp₁.setPrevs x h else ⟨0, sp₁.prev, sp₁.next⟩) ∧
          s₀.Linking key L (s₀.keyOf key x) sp₁ H h ∧
          sp₁.prev.length = sp.prev.length ∧ sp₁.next.length = sp.next.length) := by
  by_cases hdup : ∃ m ∈ L, s₀.keyOf key m = s₀.keyOf key x
  · have hloop := casLevels_dup (x := x) hL hh (hlk.exact 0 (by omega)) hdup true
    exact ⟨false, s₀, sp, by simp [linkNode, hloop], iff_of_true rfl hdup,
      fun _ => ⟨rfl, rfl⟩, fun h => absurd h (by simp)⟩
  · have hnodup : ∀ m ∈ L, s₀.keyOf key m ≠ s₀.keyOf key x := fun m hm hmk => hdup ⟨m, hm, hmk⟩
    obtain ⟨s', sp', v', hloop, hsame, hlb, hlk', hlp, hln⟩ := casLevels_spec hL hxL hxh hnodup
      hhH h 0 s₀ sp true (by omega) (SameNodes.refl s₀) (hL.linkedBelow_zero _)
      (show s₀.Linking key L (s₀.keyOf key x) sp H (max rh 0) from hlk.mono (by omega))
    rw [← List.range_eq_range'] at hloop
    rw [Nat.zero_add] at hlb hlk'
    exact ⟨true, s', _, by simp [linkNode, hloop], iff_of_false (by simp) hdup,
      fun h => absurd h (by simp),
      fun _ => ⟨hsame, hlb, v', sp', rfl, hlk'.mono (le_max_right _ _), hlp, hln⟩⟩

/-- What `Insert<true>` hands back after linking `x`, over the lists with `x`: a splice still
valid gets `x` below its height, as with `Insert<false>`, and one that is not goes back with
`height_` 0; either may be given to the next insert. -/
theorem Linking.hintOk_casResult (hsame : SameNodes s₀ s)
    (hlk : s₀.Linking key L (s₀.keyOf key x) sp H h) (hH : s₀.maxHeight = H)
    (hxh : s₀.height x = h) (hhH : h ≤ H) (hnodup : ∀ m ∈ L, s₀.keyOf key m ≠ s₀.keyOf key x)
    (hp : s₀.head.length < sp.prev.length) (hn : s₀.head.length < sp.next.length) (valid : Bool) :
    s.HintOk key (SortedList.insert (s₀.keyOf key) x L)
      (if valid then sp.setPrevs x h else ⟨0, sp.prev, sp.next⟩) := by
  cases valid with
  | false =>
    rw [if_neg Bool.false_ne_true]
    refine ⟨?_, ?_, .inl rfl⟩ <;> dsimp only <;> rw [hsame.head_length] <;> assumption
  | true =>
    rw [if_pos rfl]
    exact (hlk.spliceOk_setPrevs hsame hH hxh hhH hnodup hp hn).hintOk

/-- The links of either form of `Insert` from a splice that links, as both forms leave them. -/
theorem linkNode_spec (useCAS : Bool) (hL : s₀.Holds key L) (hxL : x ∉ L)
    (hxh : s₀.height x = h) (hh : 0 < h) (hhH : h ≤ H) (hH : s₀.maxHeight = H)
    (hlk : s₀.Linking key L (s₀.keyOf key x) sp H (max rh 1))
    (hp : s₀.head.length < sp.prev.length) (hn : s₀.head.length < sp.next.length) :
    ∃ ok s' sp', s₀.linkNode key useCAS (s₀.keyOf key x) x h rh sp = some (ok, s', sp') ∧
      (ok = false ↔ ∃ m ∈ L, s₀.keyOf key m = s₀.keyOf key x) ∧
      (ok = false → s' = s₀ ∧ s₀.HintOk key L sp') ∧
      (ok = true → SameNodes s₀ s' ∧
        s'.LinkedBelow L (SortedList.insert (s₀.keyOf key) x L) h ∧
        s'.HintOk key (SortedList.insert (s₀.keyOf key) x L) sp') := by
  cases useCAS with
  | false =>
    obtain ⟨ok, s', sp', hlink, hiff, hfalse, htrue⟩ :=
      linkNode_false_spec hL hxL hxh hh hhH hH hlk hp hn
    exact ⟨ok, s', sp', hlink, hiff, fun h => ⟨(hfalse h).1, (hfalse h).2.hintOk⟩,
      fun h => ⟨(htrue h).1, (htrue h).2.1, (htrue h).2.2.hintOk⟩⟩
  | true =>
    obtain ⟨ok, s', sp', hlink, hiff, hfalse, htrue⟩ := linkNode_true_spec hL hxL hxh hh hhH hlk
    refine ⟨ok, s', sp', hlink, hiff, fun h => ?_, fun h => ?_⟩
    · obtain ⟨rfl, rfl⟩ := hfalse h
      exact ⟨rfl, (hlk.spliceOk hH hp hn).hintOk⟩
    · obtain ⟨hsame, hlb, valid, sp₁, rfl, hlk₁, hlp, hln⟩ := htrue h
      have hnodup : ∀ m ∈ L, s₀.keyOf key m ≠ s₀.keyOf key x :=
        fun m hm hmk => absurd (hiff.mpr ⟨m, hm, hmk⟩) (by simp [h])
      exact ⟨hsame, hlb, hlk₁.hintOk_casResult hsame hH hxh hhH hnodup (by omega) (by omega) valid⟩

end Insert

section InsertNode

variable {s s' : InlineSkipList α} {L : List Nat} {sp : Splice} {a : α} {h : Nat}

/-- The list `Insert` links into after `AllocateKey`: the new node at the end of the arena, and
`max_height_` raised to its height. -/
def raised (s : InlineSkipList α) (a : α) (h : Nat) : InlineSkipList α :=
  { (s.allocateKey a h).1 with maxHeight := max s.maxHeight h }

theorem node_raised_of_lt {i : Nat} (hi : i < s.nodes.length) : (s.raised a h).node i = s.node i :=
  node_allocateKey_of_lt hi

theorem node_raised_self : (s.raised a h).node s.nodes.length = ⟨a, List.replicate h none⟩ :=
  node_allocateKey_self

theorem height_raised_self : (s.raised a h).height s.nodes.length = h := by
  simp [height, node_raised_self]

omit [Inhabited α] in
@[simp] theorem maxHeight_raised : (s.raised a h).maxHeight = max s.maxHeight h := rfl

omit [Inhabited α] in
@[simp] theorem head_raised : (s.raised a h).head = s.head := rfl

variable (a) in
theorem Holds.raised (hL : s.Holds key L) (hhl : h ≤ s.head.length) : (s.raised a h).Holds key L :=
  hL.allocateKey.setMaxHeight (le_max_left _ _) (max_le hL.maxHeight_le hhl)

theorem Holds.not_mem_length (hL : s.Holds key L) : s.nodes.length ∉ L := fun hx =>
  lt_irrefl _ (height_pos_lt_length (hL.height_pos _ hx))

theorem Holds.extends_raised (hL : s.Holds key L) : Extends s L (s.raised a h) L := by
  have hlt : ∀ i ∈ L, i < s.nodes.length := fun i hi => height_pos_lt_length (hL.height_pos i hi)
  exact ⟨rfl, le_max_left _ _, fun i hi => by rw [node_raised_of_lt (hlt i hi)],
    fun i hi => by simp only [height, node_raised_of_lt (hlt i hi)], fun _ hi => hi⟩

variable (key) in
/-- What an insert of the node `x` with the key `a` into `s`, which holds `L`, leaves in `s'`:
it returns `false` exactly when a node of `L` has a key comparing equal to `a`, and then `s'`
holds the nodes `L`; otherwise `s'` holds `L` with `x` at its place in key order.  Either way
`s'` extends `s`, and `x` has the key `a`. -/
structure Inserted (s : InlineSkipList α) (L : List Nat) (a : α) (x : Nat) (ok : Bool)
    (s' : InlineSkipList α) (L' : List Nat) : Prop where
  ok_iff : ok = false ↔ ∃ n ∈ L, s.keyOf key n = key a
  nodes_eq : L' = if ok then SortedList.insert (s'.keyOf key) x L else L
  holds : s'.Holds key L'
  ext : Extends s L s' L'
  key_x : (s'.node x).key = a

/-- The bookkeeping of an insert, once its links are known: `false` exactly for a key that is
there, with the raised list as it was; otherwise the node linked at every level of it. -/
theorem Holds.inserted_of_links (hL : s.Holds key L) (hhl : h ≤ s.head.length) (hh : 0 < h)
    {ok : Bool}
    (hiff : ok = false ↔ ∃ m ∈ L, (s.raised a h).keyOf key m =
      (s.raised a h).keyOf key s.nodes.length)
    (hfalse : ok = false → s' = s.raised a h)
    (htrue : ok = true → SameNodes (s.raised a h) s' ∧
      s'.LinkedBelow L (SortedList.insert ((s.raised a h).keyOf key) s.nodes.length L) h) :
    s.Inserted key L a s.nodes.length ok s'
      (if ok then SortedList.insert (s'.keyOf key) s.nodes.length L else L) := by
  have hlt : ∀ i ∈ L, i < s.nodes.length := fun i hi => height_pos_lt_length (hL.height_pos i hi)
  have hkey : ∀ m ∈ L, (s.raised a h).keyOf key m = s.keyOf key m := fun m hm => by
    simp only [keyOf, node_raised_of_lt (hlt m hm)]
  have hkx : (s.raised a h).keyOf key s.nodes.length = key a := by
    simp only [keyOf, node_raised_self]
  have hiff' : ok = false ↔ ∃ n ∈ L, s.keyOf key n = key a := by
    rw [hiff]
    exact exists_congr fun m => and_congr_right fun hm => by rw [hkey m hm, hkx]
  have hL₂ := hL.raised a hhl
  cases ok with
  | false =>
    obtain rfl := hfalse rfl
    exact ⟨hiff', rfl, hL₂, hL.extends_raised, by rw [node_raised_self]⟩
  | true =>
    obtain ⟨hsame, hlb⟩ := htrue rfl
    have hnodup : ∀ m ∈ L, (s.raised a h).keyOf key m ≠ (s.raised a h).keyOf key s.nodes.length :=
      fun m hm hmk => absurd (hiff.mpr ⟨m, hm, hmk⟩) (by simp)
    have hholds := hlb.holds hL₂ hsame height_raised_self hh (le_max_right _ _) hnodup
    rw [← hsame.keyOf_eq] at hholds
    refine ⟨hiff', rfl, hholds, hL.extends_raised.trans (Extends.of_sameNodes hsame ?_), ?_⟩
    · rw [hsame.keyOf_eq]
      exact subset_insert hnodup
    · rw [hsame.key_eq, node_raised_self]

/-- The links of an insert leave `seq_splice_` as it was. -/
theorem seqSplice_of_links {ok : Bool} (hfalse : ok = false → s' = s.raised a h)
    (htrue : ok = true → SameNodes (s.raised a h) s') : s'.seqSplice = s.seqSplice := by
  cases ok with
  | false => rw [hfalse rfl]; rfl
  | true => exact (htrue rfl).seqSplice_eq

/-- `Insert` of the node `AllocateKey` added is the splice preparation and the links on the list
with `max_height_` raised. -/
theorem insert_allocateKey_eq (useCAS : Bool) (sp : Splice) (b : Bool) :
    (s.allocateKey a h).1.insert key useCAS s.nodes.length sp b =
      ((s.raised a h).prepareSplice key ((s.raised a h).keyOf key s.nodes.length)
          (s.raised a h).maxHeight sp b).bind fun p =>
        (s.raised a h).linkNode key useCAS ((s.raised a h).keyOf key s.nodes.length)
          s.nodes.length h p.1 p.2 := by
  have hlen : ((s.allocateKey a h).1.node s.nodes.length).next.length = h := by
    rw [node_allocateKey_self, List.length_replicate]
  rw [insert_eq, hlen, maxHeight_allocateKey]
  rfl

/-- `Insert<UseCAS>` of a node allocated with the key `a` and a height from 1 to `kMaxHeight_`,
into a list that holds `L`, from a splice it may be given: it returns as `Inserted` says, and
hands back a splice the next insert may be given. -/
theorem Holds.insert_spec (hL : s.Holds key L) (hhint : s.HintOk key L sp) (hh : 0 < h)
    (hhl : h ≤ s.head.length) (useCAS b : Bool) :
    ∃ ok s' sp', (s.allocateKey a h).1.insert key useCAS s.nodes.length sp b =
        some (ok, s', sp') ∧
      s.Inserted key L a s.nodes.length ok s'
        (if ok then SortedList.insert (s'.keyOf key) s.nodes.length L else L) ∧
      s'.HintOk key (if ok then SortedList.insert (s'.keyOf key) s.nodes.length L else L) sp' ∧
      s'.seqSplice = s.seqSplice := by
  have hL₂ := hL.raised a hhl
  have hhint₂ : (s.raised a h).HintOk key L sp := hhint.extend hL.extends_raised
  obtain ⟨rh, sp₁, hprep, hlk, hlp, hln⟩ :=
    hL₂.prepareSplice_hint (k := (s.raised a h).keyOf key s.nodes.length) hhint₂ rfl b
  obtain ⟨ok, s', sp', hlink, hiff, hfalse, htrue⟩ := linkNode_spec useCAS hL₂ hL.not_mem_length
    height_raised_self hh (le_max_right _ _) rfl hlk (by rw [hlp]; exact hhint₂.prev_length)
    (by rw [hln]; exact hhint₂.next_length)
  refine ⟨ok, s', sp', ?_, hL.inserted_of_links hhl hh hiff (fun h => (hfalse h).1)
    (fun h => ⟨(htrue h).1, (htrue h).2.1⟩), ?_,
    seqSplice_of_links (fun h => (hfalse h).1) fun h => (htrue h).1⟩
  · rw [insert_allocateKey_eq, hprep]
    exact hlink
  · cases ok with
    | false =>
      obtain ⟨rfl, hhint'⟩ := hfalse rfl
      exact hhint'
    | true =>
      obtain ⟨hsame, -, hhint'⟩ := htrue rfl
      rw [if_pos rfl, hsame.keyOf_eq]
      exact hhint'

/-- `InsertConcurrently` of a node allocated with the key `a` and a height from 1 to
`kMaxHeight_`, into a list that holds `L`, while the raised `max_height_` is below
`kMaxPossibleHeight`: it returns as `Inserted` says. -/
theorem Holds.insertConcurrently_spec (hL : s.Holds key L) (hh : 0 < h)
    (hhl : h ≤ s.head.length) (hstack : max s.maxHeight h < kMaxPossibleHeight) :
    ∃ ok s', (s.allocateKey a h).1.insertConcurrently key s.nodes.length = some (ok, s') ∧
      s.Inserted key L a s.nodes.length ok s'
        (if ok then SortedList.insert (s'.keyOf key) s.nodes.length L else L) ∧
      s'.seqSplice = s.seqSplice := by
  have hL₂ := hL.raised a hhl
  -- the splice on the stack has `height_` 0, and an entry at the raised `max_height_`
  obtain ⟨sp₁, hprep, hlk, -, -⟩ :=
    hL₂.prepareSplice_resize (k := (s.raised a h).keyOf key s.nodes.length) rfl
      (show Splice.onStack.height < (s.raised a h).maxHeight from
        lt_of_lt_of_le hh (le_max_right _ _)) (by simpa [Splice.onStack] using hstack)
      (by simpa [Splice.onStack] using hstack) false
  obtain ⟨ok, s', sp', hlink, hiff, hfalse, htrue⟩ :=
    linkNode_true_spec hL₂ hL.not_mem_length height_raised_self hh (le_max_right _ _) hlk
  have hins : (s.allocateKey a h).1.insert key true s.nodes.length Splice.onStack false =
      some (ok, s', sp') := by
    rw [insert_allocateKey_eq, hprep]
    exact hlink
  exact ⟨ok, s', by simp [insertConcurrently, hins], hL.inserted_of_links hhl hh hiff
    (fun h => (hfalse h).1) (fun h => ⟨(htrue h).1, (htrue h).2.1⟩),
    seqSplice_of_links (fun h => (hfalse h).1) fun h => (htrue h).1⟩

/-- `InsertConcurrently` once the raised `max_height_` reaches `kMaxPossibleHeight`: the reset of
its splice on the stack writes `prev_[max_height]` past the end of the array. -/
theorem insertConcurrently_allocateKey_eq_none (hstack : kMaxPossibleHeight ≤ max s.maxHeight h) :
    (s.allocateKey a h).1.insertConcurrently key s.nodes.length = none := by
  have hpos : Splice.onStack.height < (s.raised a h).maxHeight := by
    simp only [kMaxPossibleHeight] at hstack
    simp only [Splice.onStack, maxHeight_raised]
    omega
  have hnone : (s.raised a h).prepareSplice key ((s.raised a h).keyOf key s.nodes.length)
      (s.raised a h).maxHeight Splice.onStack false = none :=
    prepareSplice_eq_none hpos (by simpa [Splice.onStack] using hstack) false
  rw [insertConcurrently, insert_allocateKey_eq, hnone]
  rfl

end InsertNode

end InlineSkipList

end DLSM
