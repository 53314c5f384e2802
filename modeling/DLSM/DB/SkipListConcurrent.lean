import Mathlib
import DLSM.DB.SkipListIterator

/-! Writers of `InsertConcurrently` (db/inlineskiplist.h) on one list, over every interleaving.
Each writer allocates its node with `AllocateKey`, raises `max_height_`, resets its splice on the
stack at `max_height`, recomputes it level by level from the top with `FindSpliceForLevel`, and
links its node from level 0 up, at each level with the duplicate checks,
`x->NoBarrier_SetNext(i, next_[i])` and `prev_[i]->CASNext(i, next_[i], x)`, searching the level
again from `prev_[i]` when the compare-and-swap fails.  A writer takes one step per access to
the list: a read of a link, the store of its own link, a compare-and-swap.  The allocation of the
node with its key written in, and the loop on `max_height_`, whose effect is one atomic maximum,
are one step each.  Accesses are sequentially consistent.

In every state of every interleaving, each level is a list from `head_` along its links of
strictly increasing keys, every node of a level is on the level below, and no two nodes of
level 0 compare equal.  A writer that returned `true` has its node on every level below its
height, and one that returned `false` found its key on level 0.  No writer meets undefined
behaviour when `kMaxHeight_` is below `kMaxPossibleHeight`.  Once every writer has returned,
the list holds the sorted set of the writers' keys exactly as the sequential inserts leave it. -/

namespace DLSM

namespace InlineSkipList

open LinkedList

namespace Concurrent

/-- Where a writer of `InsertConcurrently` stands between two of its accesses to the list. -/
inductive Pc where
  /-- `AllocateKey` at the height `RandomHeight` drew, and the key written in. -/
  | allocate
  /-- The loop on `max_height_`, for the node `x`. -/
  | raise (x : Nat)
  /-- `FindSpliceForLevel` at `level` from `before` with the hint `after`: for
  `RecomputeSpliceLevels` when `down`, or again after a failed compare-and-swap. -/
  | find (x level : Nat) (before : Ref) (after : Option Nat) (down : Bool) (sp : Splice)
  /-- The duplicate checks at level `i`, then `x->NoBarrier_SetNext(i, next_[i])`. -/
  | check (x i : Nat) (sp : Splice)
  /-- `prev_[i]->CASNext(i, next_[i], x)`. -/
  | cas (x i : Nat) (sp : Splice)
  /-- Returned `ok`. -/
  | done (x : Nat) (ok : Bool)
  deriving Repr

/-- A writer: the key it inserts, the height drawn for its node, and where it stands. -/
structure Thread (α : Type) where
  key : α
  height : Nat
  pc : Pc

/-- The node a writer has allocated. -/
def Pc.node : Pc → Option Nat
  | .allocate => none
  | .raise x | .find x .. | .check x .. | .cas x .. | .done x _ => some x

/-- Where `FindSpliceForLevel` goes with level `level` of the splice found: for
`RecomputeSpliceLevels`, down to the level below from `before` with `next` as the hint, or to
the checks of level 0; after a failed compare-and-swap, back to the checks of the level. -/
def Pc.found (x level : Nat) (before : Ref) (next : Option Nat) (down : Bool) (sp : Splice) : Pc :=
  if down then
    if level = 0 then .check x 0 (sp.setLevel level before next)
    else .find x (level - 1) before next true (sp.setLevel level before next)
  else .check x level (sp.setLevel level before next)

variable {α κ : Type} [Inhabited α] [LinearOrder κ]

variable (key : α → κ)

/-- One step of a writer on the list; `none` when it has returned, or at the store past the
splice arrays. -/
def Thread.step (s : InlineSkipList α) (t : Thread α) : Option (InlineSkipList α × Thread α) :=
  match t.pc with
  | .allocate =>
    some ((s.allocateKey t.key t.height).1,
      { t with pc := .raise (s.allocateKey t.key t.height).2 })
  | .raise x =>
    -- `max_height` is the larger of `max_height_` and the height, and the splice is reset there
    let H := max s.maxHeight t.height
    let sp := Splice.onStack.resize H
    if H < Splice.onStack.prev.length ∧ H < Splice.onStack.next.length then
      some ({ s with maxHeight := H },
        { t with pc := Pc.find x (H - 1) (sp.prevAt H) (sp.nextAt H) true sp })
    else none
  | .find x level before after down sp =>
    match s.getNext before level with
    | none => some (s, { t with pc := Pc.found x level before none down sp })
    | some n =>
      if some n = after ∨ s.keyIsAfterNode key (key t.key) (some n) = false then
        some (s, { t with pc := Pc.found x level before (some n) down sp })
      else some (s, { t with pc := .find x level (.node n) after down sp })
  | .check x i sp =>
    if i = 0 ∧ s.isDuplicate key (key t.key) sp = true then some (s, { t with pc := .done x false })
    else some (s.setNext (.node x) i (sp.nextAt i), { t with pc := .cas x i sp })
  | .cas x i sp =>
    if s.getNext (sp.prevAt i) i = sp.nextAt i then
      some (s.setNext (sp.prevAt i) i (some x),
        { t with pc := if i + 1 < t.height then .check x (i + 1) sp else .done x true })
    else some (s, { t with pc := .find x i (sp.prevAt i) none false sp })
  | .done _ _ => none

/-- The list and its `n` writers. -/
structure System (α : Type) (n : Nat) where
  list : InlineSkipList α
  threads : Fin n → Thread α

variable {n : Nat}

/-- A step of writer `t`. -/
def System.step (σ : System α n) (t : Fin n) : Option (System α n) :=
  (Thread.step key σ.list (σ.threads t)).map fun r => ⟨r.1, Function.update σ.threads t r.2⟩

/-- A new list of `kMaxHeight` levels, and writers of the keys and heights `writers`, none of
which has started. -/
def System.init (kMaxHeight : Nat) (writers : Fin n → α × Nat) : System α n :=
  ⟨new kMaxHeight, fun t => ⟨(writers t).1, (writers t).2, .allocate⟩⟩

section Invariant

variable {key}

variable (key) in
/-- The lists `lv` of the levels: each read from `head_` along its links, strictly increasing, on
the level below and taller than the level; `max_height_` from 1 to `kMaxHeight_` and not below
the height of a node of level 0. -/
structure Levels (s : InlineSkipList α) (lv : Nat → List Nat) : Prop where
  links : ∀ l < s.head.length, s.Links l (lv l)
  sorted : ∀ l, s.SortedNodes key (lv l)
  sub : ∀ l, lv (l + 1) ⊆ lv l
  height_lt : ∀ l, ∀ j ∈ lv l, l < s.height j
  height_le : ∀ j ∈ lv 0, s.height j ≤ s.maxHeight
  maxHeight_pos : 0 < s.maxHeight
  maxHeight_le : s.maxHeight ≤ s.head.length

variable (key) in
/-- Level `l` of a splice straddles `k` over the lists `lv`: `prev_[l]` is `head_` or a node of
the level below `k`, and `next_[l]` null or a node of the level not below `k`.  Unlike a splice of
the sequential inserts, the two need not be neighbours any more. -/
structure Straddles (s : InlineSkipList α) (lv : Nat → List Nat) (k : κ) (sp : Splice) (l : Nat) :
    Prop where
  prev_on : OnLevel (lv l) (sp.prevAt l)
  next_on : OnLink (lv l) (sp.nextAt l)
  prev_lt : s.prevKey key (sp.prevAt l) < ↑k
  le_next : ↑k ≤ s.nextKey key (sp.nextAt l)

/-- Node `x` is the writer's: allocated, with the writer's key `a` and height. -/
structure Owns (s : InlineSkipList α) (a : α) (height x : Nat) : Prop where
  lt : x < s.nodes.length
  key_eq : (s.node x).key = a
  height_eq : s.height x = height

/-- The splice on the stack: arrays of `kMaxPossibleHeight` entries. -/
def OnStack (sp : Splice) : Prop :=
  sp.prev.length = kMaxPossibleHeight ∧ sp.next.length = kMaxPossibleHeight

variable (key) in
/-- A writer that links its node `x` at level `i`: `x` is on the levels below `i` and on no
other, and the splice straddles its key from level `i` to the top of the node. -/
structure Climbs (s : InlineSkipList α) (lv : Nat → List Nat) (a : α) (height x i : Nat)
    (sp : Splice) : Prop where
  owns : Owns s a height x
  height_le : height ≤ s.maxHeight
  onStack : OnStack sp
  lt_height : i < height
  mem_iff : ∀ l, x ∈ lv l ↔ l < i
  straddles : ∀ l, i ≤ l → l < height → Straddles key s lv (key a) sp l

variable (key) in
/-- What a writer of the key `a` at `height` knows at each point of the protocol. -/
inductive Stands (s : InlineSkipList α) (lv : Nat → List Nat) (a : α) (height : Nat) : Pc → Prop
  | allocate : Stands s lv a height .allocate
  | raise {x : Nat} (owns : Owns s a height x) (not_mem : ∀ l, x ∉ lv l) :
      Stands s lv a height (.raise x)
  | find {x level : Nat} {before : Ref} {after : Option Nat} {down : Bool} {sp : Splice}
      (owns : Owns s a height x) (height_le : height ≤ s.maxHeight) (onStack : OnStack sp)
      (level_lt : level < s.head.length) (lt_height : down = false → level < height)
      (mem_iff : ∀ l, x ∈ lv l ↔ l < if down then 0 else level)
      (before_on : OnLevel (lv level) before)
      (before_lt : s.prevKey key before < ↑(key a))
      (after_on : OnLink (lv level) after)
      (le_after : ↑(key a) ≤ s.nextKey key after)
      (straddles : ∀ l, level < l → l < height → Straddles key s lv (key a) sp l) :
      Stands s lv a height (.find x level before after down sp)
  | check {x i : Nat} {sp : Splice} (climbs : Climbs key s lv a height x i sp) :
      Stands s lv a height (.check x i sp)
  | cas {x i : Nat} {sp : Splice} (climbs : Climbs key s lv a height x i sp)
      (next_eq : s.getNext (.node x) i = sp.nextAt i)
      (lt_next : i = 0 → ↑(key a) < s.nextKey key (sp.nextAt 0)) :
      Stands s lv a height (.cas x i sp)
  | linked {x : Nat} (owns : Owns s a height x) (mem_iff : ∀ l, x ∈ lv l ↔ l < height) :
      Stands s lv a height (.done x true)
  | duplicate {x : Nat} (owns : Owns s a height x) (not_mem : ∀ l, x ∉ lv l)
      (exists_key : ∃ j ∈ lv 0, s.keyOf key j = key a) : Stands s lv a height (.done x false)

variable (key) in
/-- The invariant of the system: the levels, what each writer knows, level 0 made of the
writers' nodes, distinct nodes for distinct writers, and `kMaxHeight_` below
`kMaxPossibleHeight`. -/
structure Inv (σ : System α n) (lv : Nat → List Nat) : Prop where
  levels : Levels key σ.list lv
  height_pos : ∀ t, 0 < (σ.threads t).height
  height_le : ∀ t, (σ.threads t).height ≤ σ.list.head.length
  stands : ∀ t, Stands key σ.list lv (σ.threads t).key (σ.threads t).height (σ.threads t).pc
  owned : ∀ j ∈ lv 0, ∃ t, (σ.threads t).pc.node = some j
  node_inj : ∀ t u x, (σ.threads t).pc.node = some x → (σ.threads u).pc.node = some x → t = u
  head_lt : σ.list.head.length < kMaxPossibleHeight

section Levels

variable {s : InlineSkipList α} {lv : Nat → List Nat} {l : Nat} {j : Nat}

theorem Levels.lt_length (hlv : Levels key s lv) (hj : j ∈ lv l) : j < s.nodes.length :=
  height_pos_lt_length (Nat.lt_of_le_of_lt (Nat.zero_le l) (hlv.height_lt l j hj))

theorem Levels.sub_of_le (hlv : Levels key s lv) {l l' : Nat} (hll' : l ≤ l') : lv l' ⊆ lv l := by
  induction l', hll' using Nat.le_induction with
  | base => exact List.Subset.refl _
  | succ m _ ih => exact fun j hj => ih (hlv.sub m hj)

theorem Levels.mem_zero (hlv : Levels key s lv) (hj : j ∈ lv l) : j ∈ lv 0 :=
  hlv.sub_of_le (Nat.zero_le l) hj

theorem Levels.length_le (hlv : Levels key s lv) (l : Nat) : (lv l).length ≤ s.nodes.length := by
  have hsub : lv l ⊆ List.range s.nodes.length := fun j hj => List.mem_range.2 (hlv.lt_length hj)
  simpa using (List.subperm_of_subset (hlv.sorted l).nodup hsub).length_le

theorem Levels.eq_of_keyOf_eq (hlv : Levels key s lv) {i : Nat} (hi : i ∈ lv 0) (hj : j ∈ lv 0)
    (hk : s.keyOf key i = s.keyOf key j) : i = j :=
  SortedList.Sorted.eq_of_key_eq (hlv.sorted 0) hi hj hk

end Levels

section Frame

variable {s s' : InlineSkipList α} {lv lv' : Nat → List Nat} {x : Option Nat} {k : κ} {sp : Splice}
  {l : Nat}

/-- What a step of the writer of `x` leaves of the list for the other writers: the nodes there
before keep their keys and heights, `head_` its levels, `max_height_` does not go down, each level
keeps its nodes and gains at most `x`, and a node's link changes only at `x` or on a level the
node is on. -/
structure Frame (s : InlineSkipList α) (lv : Nat → List Nat) (s' : InlineSkipList α)
    (lv' : Nat → List Nat) (x : Option Nat) : Prop where
  length_le : s.nodes.length ≤ s'.nodes.length
  key_eq : ∀ j < s.nodes.length, (s'.node j).key = (s.node j).key
  height_eq : ∀ j < s.nodes.length, s'.height j = s.height j
  head_length : s'.head.length = s.head.length
  maxHeight_le : s.maxHeight ≤ s'.maxHeight
  sub : ∀ l, lv l ⊆ lv' l
  new : ∀ l j, j ∈ lv' l → j ∈ lv l ∨ x = some j
  getNext : ∀ j l, s'.getNext (.node j) l ≠ s.getNext (.node j) l → x = some j ∨ j ∈ lv l

theorem Frame.refl (s : InlineSkipList α) (lv : Nat → List Nat) (x : Option Nat) :
    Frame s lv s lv x :=
  ⟨le_rfl, fun _ _ => rfl, fun _ _ => rfl, rfl, le_rfl, fun _ => List.Subset.refl _,
    fun _ _ hj => .inl hj, fun _ _ h => absurd rfl h⟩

theorem Frame.setNext_node {i : Nat} {y : Nat} (v : Option Nat) :
    Frame s lv (s.setNext (.node y) i v) lv (some y) where
  length_le := by simp
  key_eq _ _ := key_node_setNext ..
  height_eq _ _ := height_setNext ..
  head_length := length_head_setNext ..
  maxHeight_le := by simp
  sub _ := List.Subset.refl _
  new _ _ hj := .inl hj
  getNext j l h := by
    by_contra hne
    rw [not_or] at hne
    rw [getNext_setNext, if_neg fun hc => hne.1 (by rw [Ref.node.inj hc.1])] at h
    exact h rfl

omit [LinearOrder κ] in
theorem Frame.keyOf_eq (hf : Frame s lv s' lv' x) {j : Nat} (hj : j < s.nodes.length) :
    s'.keyOf key j = s.keyOf key j := by
  simp only [keyOf, hf.key_eq j hj]

theorem Frame.prevKey_eq (hf : Frame s lv s' lv' x) (hlv : Levels key s lv) {l : Nat} {p : Ref}
    (hp : OnLevel (lv l) p) : s'.prevKey key p = s.prevKey key p := by
  cases p with
  | head => rfl
  | node j => simp only [prevKey, hf.keyOf_eq (hlv.lt_length hp)]

theorem Frame.nextKey_eq (hf : Frame s lv s' lv' x) (hlv : Levels key s lv) {l : Nat}
    {o : Option Nat} (ho : OnLink (lv l) o) : s'.nextKey key o = s.nextKey key o := by
  cases o with
  | none => rfl
  | some j => simp only [nextKey, hf.keyOf_eq (hlv.lt_length ho)]

theorem Frame.owns (hf : Frame s lv s' lv' x) {a : α} {height y : Nat} (ho : Owns s a height y) :
    Owns s' a height y :=
  ⟨lt_of_lt_of_le ho.lt hf.length_le, (hf.key_eq y ho.lt).trans ho.key_eq,
    (hf.height_eq y ho.lt).trans ho.height_eq⟩

theorem Frame.mem_iff (hf : Frame s lv s' lv' x) {y : Nat} (hy : x ≠ some y) (l : Nat) :
    y ∈ lv' l ↔ y ∈ lv l :=
  ⟨fun h => (hf.new l y h).resolve_right hy, fun h => hf.sub l h⟩

theorem Straddles.frame (hst : Straddles key s lv k sp l) (hf : Frame s lv s' lv' x)
    (hlv : Levels key s lv) : Straddles key s' lv' k sp l :=
  ⟨hst.prev_on.of_subset (hf.sub l), hst.next_on.of_subset (hf.sub l),
    (hf.prevKey_eq hlv hst.prev_on).symm ▸ hst.prev_lt,
    (hf.nextKey_eq hlv hst.next_on).symm ▸ hst.le_next⟩

theorem Climbs.frame {a : α} {height y i : Nat} (hc : Climbs key s lv a height y i sp)
    (hf : Frame s lv s' lv' x) (hlv : Levels key s lv) (hmem : ∀ l, y ∈ lv' l ↔ y ∈ lv l) :
    Climbs key s' lv' a height y i sp :=
  ⟨hf.owns hc.owns, hc.height_le.trans hf.maxHeight_le, hc.onStack, hc.lt_height,
    fun l => (hmem l).trans (hc.mem_iff l), fun l hl hlh => (hc.straddles l hl hlh).frame hf hlv⟩

/-- What a writer knows survives a step of another writer. -/
theorem Stands.frame {a : α} {height : Nat} {pc : Pc} (h : Stands key s lv a height pc)
    (hf : Frame s lv s' lv' x) (hlv : Levels key s lv) (hne : ∀ y, pc.node = some y → x ≠ some y) :
    Stands key s' lv' a height pc := by
  cases h with
  | allocate => exact .allocate
  | raise owns not_mem =>
    exact .raise (hf.owns owns) fun l hl => not_mem l ((hf.mem_iff (hne _ rfl) l).1 hl)
  | find owns height_le onStack level_lt lt_height mem_iff before_on before_lt after_on le_after
      straddles =>
    refine .find (hf.owns owns) (height_le.trans hf.maxHeight_le) onStack
      (hf.head_length ▸ level_lt) lt_height (fun l => (hf.mem_iff (hne _ rfl) l).trans (mem_iff l))
      (before_on.of_subset (hf.sub _)) ((hf.prevKey_eq hlv before_on).symm ▸ before_lt)
      (after_on.of_subset (hf.sub _)) ((hf.nextKey_eq hlv after_on).symm ▸ le_after)
      fun l hl hlh => (straddles l hl hlh).frame hf hlv
  | check climbs => exact .check (climbs.frame hf hlv (hf.mem_iff (hne _ rfl)))
  | cas climbs next_eq lt_next =>
    refine .cas (climbs.frame hf hlv (hf.mem_iff (hne _ rfl))) ?_ fun h0 => ?_
    · -- the link of the writer's node at its level is not on a level the node is on
      by_contra hchg
      rcases hf.getNext _ _ (fun he => hchg (he.trans next_eq)) with hx | hmem
      · exact hne _ rfl hx
      · exact absurd ((climbs.mem_iff _).1 hmem) (lt_irrefl _)
    · have hon := (climbs.straddles 0 (h0 ▸ le_rfl) (h0 ▸ climbs.lt_height)).next_on
      rw [hf.nextKey_eq hlv hon]
      exact lt_next h0
  | linked owns mem_iff =>
    exact .linked (hf.owns owns) fun l => (hf.mem_iff (hne _ rfl) l).trans (mem_iff l)
  | duplicate owns not_mem exists_key =>
    obtain ⟨j, hj, hjk⟩ := exists_key
    exact .duplicate (hf.owns owns) (fun l hl => not_mem l ((hf.mem_iff (hne _ rfl) l).1 hl))
      ⟨j, hf.sub 0 hj, (hf.keyOf_eq (hlv.lt_length hj)).trans hjk⟩

end Frame

section Steps

variable {s : InlineSkipList α} {lv : Nat → List Nat} {a : α} {height : Nat} {k : κ}
  {sp : Splice} {l i x : Nat}

variable (key) in
/-- A step of a writer of the key `a` at `height` from `pc` to `pc'`, taking the list from `s`
to `s'` and the levels from `lv` to `lv'`: the levels stay levels, the other writers keep what
they know, and the writer knows what `pc'` says; its node stays, or is the one it allocates. -/
structure StepOk (s : InlineSkipList α) (lv : Nat → List Nat) (a : α) (height : Nat) (pc : Pc)
    (s' : InlineSkipList α) (lv' : Nat → List Nat) (pc' : Pc) : Prop where
  levels : Levels key s' lv'
  frame : Frame s lv s' lv' pc'.node
  stands : Stands key s' lv' a height pc'
  node_eq : pc'.node = pc.node ∨ pc.node = none ∧ pc'.node = some s.nodes.length

theorem onStack_resize (H : Nat) : OnStack (Splice.onStack.resize H) := by
  simp [OnStack, Splice.onStack]

theorem OnStack.setLevel (h : OnStack sp) (i : Nat) (p : Ref) (n : Option Nat) :
    OnStack (sp.setLevel i p n) := by
  simpa [OnStack] using h

theorem Levels.lt_linkCount (hlv : Levels key s lv) {p : Ref} (hp : OnLevel (lv l) p)
    (hl : l < s.head.length) : l < s.linkCount p := by
  cases p with
  | head => exact hl
  | node j => exact hlv.height_lt l j hp

omit [LinearOrder κ] in
theorem Owns.keyOf_eq (ho : Owns s a height x) : s.keyOf key x = key a := by
  rw [keyOf, ho.key_eq]

theorem Straddles.setLevel_ne (hst : Straddles key s lv k sp l) (hsp : OnStack sp)
    (hi : i < kMaxPossibleHeight) (hil : i ≠ l) (p : Ref) (n : Option Nat) :
    Straddles key s lv k (sp.setLevel i p n) l := by
  have hp : (sp.setLevel i p n).prevAt l = sp.prevAt l := by
    rw [Splice.prevAt_setLevel p n (by rw [hsp.1]; exact hi), if_neg (Ne.symm hil)]
  have hn : (sp.setLevel i p n).nextAt l = sp.nextAt l := by
    rw [Splice.nextAt_setLevel p n (by rw [hsp.2]; exact hi), if_neg (Ne.symm hil)]
  exact ⟨hp ▸ hst.prev_on, hn ▸ hst.next_on, hp ▸ hst.prev_lt, hn ▸ hst.le_next⟩

theorem straddles_setLevel (hsp : OnStack sp) (hi : i < kMaxPossibleHeight) {p : Ref}
    {n : Option Nat} (hp : OnLevel (lv i) p) (hn : OnLink (lv i) n) (hpk : s.prevKey key p < ↑k)
    (hkn : ↑k ≤ s.nextKey key n) : Straddles key s lv k (sp.setLevel i p n) i := by
  have hp' : (sp.setLevel i p n).prevAt i = p := by
    rw [Splice.prevAt_setLevel p n (by rw [hsp.1]; exact hi), if_pos rfl]
  have hn' : (sp.setLevel i p n).nextAt i = n := by
    rw [Splice.nextAt_setLevel p n (by rw [hsp.2]; exact hi), if_pos rfl]
  refine ⟨?_, ?_, ?_, ?_⟩
  · rw [hp']; exact hp
  · rw [hn']; exact hn
  · rw [hp']; exact hpk
  · rw [hn']; exact hkn

section Allocate

theorem Levels.allocateKey (hlv : Levels key s lv) (b : α) (h : Nat) :
    Levels key (s.allocateKey b h).1 lv := by
  have hnode : ∀ l, ∀ j ∈ lv l, (s.allocateKey b h).1.node j = s.node j := fun l j hj =>
    node_allocateKey_of_lt (hlv.lt_length hj)
  refine ⟨fun l hl => (hlv.links l hl).allocateKey fun j hj => hlv.lt_length hj, fun l => ?_,
    hlv.sub, fun l j hj => ?_, fun j hj => ?_, hlv.maxHeight_pos, hlv.maxHeight_le⟩
  · exact List.Pairwise.imp_of_mem (fun ha hb hab => by
      simpa only [keyOf, hnode l _ ha, hnode l _ hb] using hab) (hlv.sorted l)
  · simpa only [InlineSkipList.height, hnode l j hj] using hlv.height_lt l j hj
  · simpa only [InlineSkipList.height, hnode 0 j hj, maxHeight_allocateKey] using hlv.height_le j hj

omit [LinearOrder κ] in
theorem frame_allocateKey (b : α) (h : Nat) :
    Frame s lv (s.allocateKey b h).1 lv (some s.nodes.length) where
  length_le := by simp
  key_eq j hj := by rw [node_allocateKey_of_lt hj]
  height_eq j hj := by simp only [InlineSkipList.height, node_allocateKey_of_lt hj]
  head_length := rfl
  maxHeight_le := le_rfl
  sub _ := List.Subset.refl _
  new _ _ hj := .inl hj
  getNext j l hne := by
    rcases lt_trichotomy j s.nodes.length with hj | rfl | hj
    · exact absurd (getNext_allocateKey (fun i hi => Ref.node.inj hi ▸ hj) l) hne
    · exact .inl rfl
    · -- past the arena both nodes are the default one
      have hold : s.nodes[j]? = none := List.getElem?_eq_none (by omega)
      have hnew : (s.nodes ++ [(⟨b, List.replicate h none⟩ : Node α)])[j]? = none :=
        List.getElem?_eq_none (by simp; omega)
      refine absurd ?_ hne
      simp [getNext, node, allocateKey, List.getD_eq_getElem?_getD, hold, hnew]

theorem stepOk_allocate (hlv : Levels key s lv) :
    StepOk key s lv a height .allocate (s.allocateKey a height).1 lv (.raise s.nodes.length) where
  levels := hlv.allocateKey a height
  frame := frame_allocateKey a height
  stands := .raise ⟨by simp, by simp [node_allocateKey_self],
    by simp [InlineSkipList.height, node_allocateKey_self]⟩
    fun l hl => lt_irrefl _ (hlv.lt_length hl)
  node_eq := .inr ⟨rfl, rfl⟩

end Allocate

section Raise

variable {H : Nat}

theorem Levels.setMaxHeight (hlv : Levels key s lv) (hle : s.maxHeight ≤ H)
    (hH : H ≤ s.head.length) : Levels key { s with maxHeight := H } lv :=
  ⟨hlv.links, hlv.sorted, hlv.sub, hlv.height_lt, fun j hj => (hlv.height_le j hj).trans hle,
    lt_of_lt_of_le hlv.maxHeight_pos hle, hH⟩

omit [LinearOrder κ] in
theorem frame_setMaxHeight (hle : s.maxHeight ≤ H) (x : Option Nat) :
    Frame s lv { s with maxHeight := H } lv x :=
  ⟨le_rfl, fun _ _ => rfl, fun _ _ => rfl, rfl, hle, fun _ => List.Subset.refl _,
    fun _ _ hj => .inl hj, fun _ _ h => absurd rfl h⟩

/-- The loop on `max_height_` and the reset of the splice at `max_height`: the search starts at
the top level from `head_`. -/
theorem stepOk_raise (hlv : Levels key s lv) (hs : Stands key s lv a height (.raise x))
    (hpos : 0 < height) (hle : height ≤ s.head.length) (hH : H = max s.maxHeight height)
    (hH32 : H < kMaxPossibleHeight) :
    StepOk key s lv a height (.raise x) { s with maxHeight := H } lv
      (.find x (H - 1) ((Splice.onStack.resize H).prevAt H) ((Splice.onStack.resize H).nextAt H)
        true (Splice.onStack.resize H)) := by
  cases hs with
  | raise owns not_mem =>
  have hHle : H ≤ s.head.length := hH ▸ max_le hlv.maxHeight_le hle
  have hmax : s.maxHeight ≤ H := hH ▸ le_max_left _ _
  have hprev : (Splice.onStack.resize H).prevAt H = .head := by
    rw [Splice.prevAt_resize (by simpa [Splice.onStack] using hH32), if_pos rfl]
  have hnext : (Splice.onStack.resize H).nextAt H = none := by
    rw [Splice.nextAt_resize (by simpa [Splice.onStack] using hH32), if_pos rfl]
  refine ⟨hlv.setMaxHeight hmax hHle, frame_setMaxHeight hmax _, ?_, .inl rfl⟩
  rw [hprev, hnext]
  exact .find ⟨owns.lt, owns.key_eq, owns.height_eq⟩ (hH ▸ le_max_right _ _) (onStack_resize H)
    (by dsimp only; omega) (fun h => absurd h (by simp))
    (fun l => by simpa using not_mem l) trivial (WithBot.bot_lt_coe _) trivial le_top
    fun l hl hlh => absurd hlh (by omega)

end Raise

section Find

theorem Pc.node_found (x level : Nat) (before : Ref) (next : Option Nat) (down : Bool)
    (sp : Splice) : (Pc.found x level before next down sp).node = some x := by
  unfold Pc.found
  split_ifs <;> rfl

theorem straddles_setLevel_of_le (hsp : OnStack sp) (hi : l < kMaxPossibleHeight) {p : Ref}
    {n : Option Nat} (hp : OnLevel (lv l) p) (hn : OnLink (lv l) n) (hpk : s.prevKey key p < ↑k)
    (hkn : ↑k ≤ s.nextKey key n)
    (hst : ∀ l', l < l' → l' < height → Straddles key s lv k sp l') :
    ∀ l', l ≤ l' → l' < height → Straddles key s lv k (sp.setLevel l p n) l' := by
  intro l' hl hlh
  rcases hl.eq_or_lt with rfl | hlt
  · exact straddles_setLevel hsp hi hp hn hpk hkn
  · exact (hst l' hlt hlh).setLevel_ne hsp hi (ne_of_lt hlt) p n

/-- Where `FindSpliceForLevel` stops, at `before` with `next` not below the key, the writer
knows the splice straddles the key from the level up: it goes down, to the checks of level 0, or
back to those of its level. -/
theorem Stands.found (hlv : Levels key s lv)
    (hs : Stands key s lv a height (.find x l before after down sp)) (hpos : 0 < height)
    (hhead : s.head.length < kMaxPossibleHeight) {next : Option Nat} (hon : OnLink (lv l) next)
    (hle : ↑(key a) ≤ s.nextKey key next) :
    Stands key s lv a height (Pc.found x l before next down sp) := by
  cases hs with
  | find owns height_le onStack level_lt lt_height mem_iff before_on before_lt _ _ straddles =>
  have hst := straddles_setLevel_of_le onStack (level_lt.trans hhead) before_on hon before_lt hle
    straddles
  have hsp := onStack.setLevel l before next
  cases down with
  | false => exact .check ⟨owns, height_le, hsp, lt_height rfl, mem_iff, hst⟩
  | true =>
    rw [Pc.found, if_pos rfl]
    split_ifs with h0
    · subst h0
      exact .check ⟨owns, height_le, hsp, hpos, mem_iff, hst⟩
    · -- down a level: the nodes of a level are on the level below
      have hsub : lv l ⊆ lv (l - 1) := by
        have h := hlv.sub (l - 1)
        rwa [Nat.sub_add_cancel (Nat.pos_of_ne_zero h0)] at h
      exact .find owns height_le hsp (by omega) (fun h => absurd h (by simp)) mem_iff
        (before_on.of_subset hsub) before_lt (hon.of_subset hsub) hle
        fun l' hl hlh => hst l' (by omega) hlh

end Find

variable (key) in
/-- The step of the writer of `a` at `height` from `pc` is enabled, and what it leaves is what
`StepOk` says, over some new lists of the levels. -/
def Advances (s : InlineSkipList α) (lv : Nat → List Nat) (a : α) (height : Nat) (pc : Pc) :
    Prop :=
  ∃ s' lv' pc', Thread.step key s ⟨a, height, pc⟩ = some (s', ⟨a, height, pc'⟩) ∧
    StepOk key s lv a height pc s' lv' pc'

theorem stepOk_read (hlv : Levels key s lv) {pc pc' : Pc} (hs : Stands key s lv a height pc')
    (hnode : pc'.node = pc.node) : StepOk key s lv a height pc s lv pc' :=
  ⟨hlv, Frame.refl s lv _, hs, .inl hnode⟩

theorem advances_allocate (hlv : Levels key s lv) : Advances key s lv a height .allocate :=
  ⟨_, _, _, rfl, stepOk_allocate hlv⟩

theorem advances_raise (hlv : Levels key s lv) (hs : Stands key s lv a height (.raise x))
    (hpos : 0 < height) (hle : height ≤ s.head.length)
    (hhead : s.head.length < kMaxPossibleHeight) : Advances key s lv a height (.raise x) := by
  have hH : max s.maxHeight height < kMaxPossibleHeight :=
    lt_of_le_of_lt (max_le hlv.maxHeight_le hle) hhead
  refine ⟨_, _, _, ?_, stepOk_raise hlv hs hpos hle rfl hH⟩
  simp [Thread.step, Splice.onStack, hH]

/-- One read of `FindSpliceForLevel`: the level's next node is on the level above `before`; the
search stops before it, or passes it when its key is below the writer's. -/
theorem advances_find (hlv : Levels key s lv)
    (hs : Stands key s lv a height (.find x l before after down sp)) (hpos : 0 < height)
    (hhead : s.head.length < kMaxPossibleHeight) :
    Advances key s lv a height (.find x l before after down sp) := by
  have hs₀ := hs
  cases hs with
  | find owns height_le onStack level_lt lt_height mem_iff before_on before_lt after_on le_after
      straddles =>
  cases hn : s.getNext before l with
  | none =>
    exact ⟨s, lv, _, by simp [Thread.step, hn],
      stepOk_read hlv
        (hs₀.found hlv hpos hhead (show OnLink (lv l) none from trivial) le_top) (Pc.node_found ..)⟩
  | some n =>
    obtain ⟨hmem, -⟩ :=
      (hlv.links l level_lt).mem_of_getNext (hlv.sorted l) before_on before_lt hn
    by_cases hstop : some n = after ∨ s.keyIsAfterNode key (key a) (some n) = false
    · have hle : ↑(key a) ≤ s.nextKey key (some n) := by
        rcases hstop with h | h
        · rw [h]
          exact le_after
        · exact le_nextKey_of_not_after h
      exact ⟨s, lv, _, by simp [Thread.step, hn, hstop],
        stepOk_read hlv
          (hs₀.found hlv hpos hhead (show OnLink (lv l) (some n) from hmem) hle) (Pc.node_found ..)⟩
    · -- past `n`, whose key is below the writer's
      have hnk : s.prevKey key (.node n) < ↑(key a) := by
        rw [not_or] at hstop
        have h : key (s.node n).key < key a := by simpa [keyIsAfterNode] using hstop.2
        exact WithBot.coe_lt_coe.mpr h
      refine ⟨s, lv, .find x l (.node n) after down sp, by simp [Thread.step, hn, hstop],
        stepOk_read hlv ?_ rfl⟩
      exact .find owns height_le onStack level_lt lt_height mem_iff
        (show OnLevel (lv l) (.node n) from hmem) hnk after_on le_after straddles

section Check

/-- Over a splice that straddles `k` at level 0, the duplicate checks find none exactly when the
node after the splice is above `k`. -/
theorem Straddles.isDuplicate_eq_false_iff (hst : Straddles key s lv k sp 0) :
    s.isDuplicate key k sp = false ↔ ↑k < s.nextKey key (sp.nextAt 0) := by
  have hprev := hst.prev_lt
  unfold isDuplicate
  cases hr : sp.prevAt 0 with
  | head => cases sp.nextAt 0 <;> simp [nextKey, keyOf]
  | node p =>
    rw [hr] at hprev
    have hp : key (s.node p).key < k := WithBot.coe_lt_coe.mp hprev
    cases sp.nextAt 0 <;> simp [hp, nextKey, keyOf]

/-- A duplicate found over a splice that straddles `k` at level 0 is a node of level 0 under
`k`: the node after the splice. -/
theorem Straddles.exists_key_of_isDuplicate (hst : Straddles key s lv k sp 0)
    (h : s.isDuplicate key k sp = true) : ∃ j ∈ lv 0, s.keyOf key j = k := by
  have hnot : ¬(↑k < s.nextKey key (sp.nextAt 0)) := by
    simp [← hst.isDuplicate_eq_false_iff, h]
  have heq := le_antisymm (not_lt.mp hnot) hst.le_next
  have hon := hst.next_on
  cases hq : sp.nextAt 0 with
  | none => simp [hq, nextKey] at heq
  | some j =>
    rw [hq] at heq hon
    exact ⟨j, hon, WithTop.coe_eq_coe.mp heq⟩

theorem Levels.setNext_of_not_mem (hlv : Levels key s lv) (hx : x ∉ lv i) (v : Option Nat) :
    Levels key (s.setNext (.node x) i v) lv where
  links l hl := by
    rw [length_head_setNext] at hl
    by_cases hli : l = i
    · subst hli
      exact (hlv.links l hl).setNext_of_not_mem hx v
    · exact links_setNext_of_ne hli (hlv.links l hl)
  sorted l := sortedNodes_setNext.mpr (hlv.sorted l)
  sub := hlv.sub
  height_lt l j hj := by simpa using hlv.height_lt l j hj
  height_le j hj := by simpa using hlv.height_le j hj
  maxHeight_pos := by simpa using hlv.maxHeight_pos
  maxHeight_le := by simpa using hlv.maxHeight_le

/-- The duplicate checks, and `x->NoBarrier_SetNext(i, next_[i])` when they find none. -/
theorem advances_check (hlv : Levels key s lv) (hs : Stands key s lv a height (.check x i sp)) :
    Advances key s lv a height (.check x i sp) := by
  cases hs with
  | check climbs =>
  have hst := climbs.straddles i le_rfl climbs.lt_height
  by_cases hdup : i = 0 ∧ s.isDuplicate key (key a) sp = true
  · -- a node of level 0 has the key: the writer returns `false`
    obtain ⟨rfl, hdup⟩ := hdup
    refine ⟨s, lv, .done x false, by simp [Thread.step, hdup], stepOk_read hlv ?_ rfl⟩
    exact .duplicate climbs.owns (fun l hl => by simpa using (climbs.mem_iff l).1 hl)
      (hst.exists_key_of_isDuplicate hdup)
  · have hx : x ∉ lv i := fun hx => lt_irrefl i ((climbs.mem_iff i).1 hx)
    have hxi : i < s.linkCount (.node x) := by
      rw [show s.linkCount (.node x) = s.height x from rfl, climbs.owns.height_eq]
      exact climbs.lt_height
    refine ⟨s.setNext (.node x) i (sp.nextAt i), lv, .cas x i sp, by simp [Thread.step, hdup],
      hlv.setNext_of_not_mem hx _,
      Frame.setNext_node _, .cas (climbs.frame (Frame.setNext_node _) hlv fun _ => Iff.rfl) ?_ ?_,
      .inl rfl⟩
    · simp [getNext_setNext, hxi]
    · -- past the checks, the node after the splice is above the key
      rintro rfl
      rw [(SameNodes.of_setNext s _ _ _).nextKey_eq]
      have hfalse : s.isDuplicate key (key a) sp = false := by simpa using hdup
      exact hst.isDuplicate_eq_false_iff.mp hfalse

end Check

section Cas

theorem Climbs.lt_head (hlv : Levels key s lv) (hc : Climbs key s lv a height x i sp) :
    i < s.head.length :=
  lt_of_lt_of_le hc.lt_height (hc.height_le.trans hlv.maxHeight_le)

/-- Once `x` links to `n` at level `l`, storing `x` in the link of `p` there is the sequential
link of `x` between `p` and `n`. -/
theorem setNext_eq_linkAt {p : Ref} {n : Option Nat} (hxn : s.getNext (.node x) l = n) (r : Ref)
    (l' : Nat) : (s.setNext p l (some x)).getNext r l' = (s.linkAt x l p n).getNext r l' := by
  simp only [InlineSkipList.linkAt, getNext_setNext, linkCount_setNext]
  by_cases hrp : r = p ∧ l' = l ∧ l < s.linkCount p
  · rw [if_pos hrp, if_pos hrp]
  · rw [if_neg hrp, if_neg hrp]
    by_cases hrx : r = .node x ∧ l' = l ∧ l < s.linkCount (.node x)
    · rw [if_pos hrx]
      obtain ⟨rfl, rfl, -⟩ := hrx
      exact hxn
    · rw [if_neg hrx]

/-- The compare-and-swap of the link of `p` at level `l` from `n` to `x`, where `p` is `head_`
or a node of the level below the key of `x`, `n` is above that key, and `x`, not on the level,
already links to `n`: no node of the level has the key of `x`, and the level holds `x` at its
place. -/
theorem Links.cas {ls : List Nat} (h : s.Links l ls) (hs : s.SortedNodes key ls) {p : Ref}
    (hp : OnLevel ls p) (hpx : s.prevKey key p < ↑(s.keyOf key x)) {n : Option Nat}
    (hn : s.getNext p l = n) (hxn : ↑(s.keyOf key x) < s.nextKey key n) (hx : x ∉ ls)
    (hxl : l < s.height x) (hpl : l < s.linkCount p) (hxnext : s.getNext (.node x) l = n) :
    (∀ m ∈ ls, s.keyOf key m ≠ s.keyOf key x) ∧
      (s.setNext p l (some x)).Links l (SortedList.insert (s.keyOf key) x ls) := by
  obtain ⟨A₁, A₂, hA, rfl, hnext⟩ := h.getNext_split hs hp hpx
  set C := ls.filter fun i => s.keyOf key x ≤ s.keyOf key i with hC
  -- the compare-and-swap saw `n` after `p`: no node below the key is left between them
  have hA₂ : A₂ = [] := by
    cases A₂ with
    | nil => rfl
    | cons b A₂ =>
      have hb : s.keyOf key b < s.keyOf key x := by
        have hb : b ∈ ls.filter (fun i => s.keyOf key i < s.keyOf key x) := by simp [hA]
        simpa using (List.mem_filter.mp hb).2
      rw [hn] at hnext
      rw [hnext, List.cons_append, List.head?_cons, nextKey, WithTop.coe_lt_coe] at hxn
      exact absurd hb (lt_asymm hxn)
  subst hA₂
  rw [List.append_nil] at hA
  have hCn : C.head? = n := by rw [← hn, hnext, List.nil_append]
  have hsplit : A₁ ++ C = ls := by
    rw [← hA]
    exact hs.filter_lt_append_filter_le _
  -- the nodes not below the key are above it, from `n` on
  have hCgt : ∀ m ∈ C, s.keyOf key x < s.keyOf key m := by
    intro m hm
    cases hc : C.head? with
    | none =>
      rw [List.head?_eq_none_iff.mp hc] at hm
      simp at hm
    | some c =>
      have hcm := List.le_of_mem_head? (s.keyOf key) (hs.sublist List.filter_sublist) hm hc
      rw [← hCn, hc] at hxn
      exact lt_of_lt_of_le (WithTop.coe_lt_coe.mp hxn) hcm
  have hne : ∀ m ∈ ls, s.keyOf key m ≠ s.keyOf key x := by
    intro m hm
    rw [← hsplit] at hm
    rcases List.mem_append.mp hm with hm | hm
    · have hm' : m ∈ ls.filter (fun i => s.keyOf key i < s.keyOf key x) := by
        rw [hA]
        exact hm
      exact ne_of_lt (by simpa using (List.mem_filter.mp hm').2)
    · exact ne_of_gt (hCgt m hm)
  refine ⟨hne, ?_⟩
  have hins : SortedList.insert (s.keyOf key) x ls = A₁ ++ x :: C := by
    rw [SortedList.insert_eq_filter_append hs hne, hA, hC, SortedList.filter_le_eq_filter_lt hne]
  have h' : s.Links l (A₁ ++ C) := by
    rw [hsplit]
    exact h
  have hlink := h'.linkAt (by rw [hsplit]; exact hs.nodup) (by rw [hsplit]; exact hx) hxl hpl
  rw [hins]
  refine Seg.congr hlink fun r _ => ?_
  simp only [nextRef]
  rw [setNext_eq_linkAt hxnext, hCn]

variable (key) in
/-- The lists of the levels once `x` is linked at level `i`: `x` at its place in level `i`. -/
def insertLevel (s : InlineSkipList α) (lv : Nat → List Nat) (i x : Nat) : Nat → List Nat :=
  Function.update lv i (SortedList.insert (s.keyOf key) x (lv i))

theorem mem_insertLevel (hne : ∀ m ∈ lv i, s.keyOf key m ≠ s.keyOf key x) (l j : Nat) :
    j ∈ insertLevel key s lv i x l ↔ j ∈ lv l ∨ l = i ∧ j = x := by
  unfold insertLevel
  by_cases hli : l = i
  · subst hli
    rw [Function.update_self]
    constructor
    · intro hj
      rcases SortedList.mem_insert hj with rfl | hj
      · exact .inr ⟨rfl, rfl⟩
      · exact .inl hj
    · rintro (hj | ⟨-, rfl⟩)
      · exact subset_insert hne hj
      · exact mem_insert_self hne
  · rw [Function.update_of_ne hli]
    simp [hli]

/-- What the list is past the level-0 checks of a climbing writer: the node after the splice at
level `i` is above the writer's key.  At level 0 the checks said so; above it a node under the
key would be the writer's own, which is only on the levels below `i`. -/
theorem Climbs.lt_nextKey (hlv : Levels key s lv) (hc : Climbs key s lv a height x i sp)
    (h0 : i = 0 → ↑(key a) < s.nextKey key (sp.nextAt 0)) :
    ↑(key a) < s.nextKey key (sp.nextAt i) := by
  rcases Nat.eq_zero_or_pos i with rfl | hi
  · exact h0 rfl
  · have hst := hc.straddles i le_rfl hc.lt_height
    refine lt_of_le_of_ne hst.le_next fun heq => ?_
    have hon := hst.next_on
    cases hq : sp.nextAt i with
    | none =>
      rw [hq] at heq
      exact WithTop.coe_ne_top heq
    | some j =>
      rw [hq] at heq hon
      have hjx : j = x := hlv.eq_of_keyOf_eq (hlv.mem_zero hon) ((hc.mem_iff 0).2 hi)
        ((WithTop.coe_eq_coe.mp heq).symm.trans hc.owns.keyOf_eq.symm)
      exact lt_irrefl i ((hc.mem_iff i).1 (hjx ▸ hon))

theorem Levels.cas (hlv : Levels key s lv) (hc : Climbs key s lv a height x i sp) {p : Ref}
    (hne : ∀ m ∈ lv i, s.keyOf key m ≠ s.keyOf key x)
    (hlinks : (s.setNext p i (some x)).Links i (SortedList.insert (s.keyOf key) x (lv i))) :
    Levels key (s.setNext p i (some x)) (insertLevel key s lv i x) where
  links l hl := by
    rw [length_head_setNext] at hl
    unfold insertLevel
    by_cases hli : l = i
    · subst hli
      rw [Function.update_self]
      exact hlinks
    · rw [Function.update_of_ne hli]
      exact links_setNext_of_ne hli (hlv.links l hl)
  sorted l := by
    unfold insertLevel
    by_cases hli : l = i
    · subst hli
      rw [Function.update_self]
      exact sortedNodes_setNext.mpr (SortedList.insert_sorted x (hlv.sorted l))
    · rw [Function.update_of_ne hli]
      exact sortedNodes_setNext.mpr (hlv.sorted l)
  sub l j hj := by
    rw [mem_insertLevel hne] at hj ⊢
    rcases hj with hj | ⟨rfl, rfl⟩
    · exact .inl (hlv.sub l hj)
    · -- `x` is already on the levels below `i`
      exact .inl ((hc.mem_iff l).2 (Nat.lt_succ_self l))
  height_lt l j hj := by
    rw [mem_insertLevel hne] at hj
    rw [height_setNext]
    rcases hj with hj | ⟨rfl, rfl⟩
    · exact hlv.height_lt l j hj
    · exact hc.owns.height_eq ▸ hc.lt_height
  height_le j hj := by
    rw [mem_insertLevel hne] at hj
    rw [height_setNext, maxHeight_setNext]
    rcases hj with hj | ⟨-, rfl⟩
    · exact hlv.height_le j hj
    · exact hc.owns.height_eq ▸ hc.height_le
  maxHeight_pos := by simpa using hlv.maxHeight_pos
  maxHeight_le := by simpa using hlv.maxHeight_le

/-- The compare-and-swap is a step of the writer of `x`: it adds only `x`, and changes only the
link of `p`, a node of the level. -/
theorem frame_cas {p : Ref} (hp : OnLevel (lv i) p)
    (hne : ∀ m ∈ lv i, s.keyOf key m ≠ s.keyOf key x) :
    Frame s lv (s.setNext p i (some x)) (insertLevel key s lv i x) (some x) where
  length_le := by simp
  key_eq _ _ := key_node_setNext ..
  height_eq _ _ := height_setNext ..
  head_length := length_head_setNext ..
  maxHeight_le := by simp
  sub l j hj := (mem_insertLevel hne l j).2 (.inl hj)
  new l j hj := by
    rcases (mem_insertLevel hne l j).1 hj with hj | ⟨-, rfl⟩
    · exact .inl hj
    · exact .inr rfl
  getNext j l h := by
    rw [getNext_setNext] at h
    split_ifs at h with hjp
    · obtain ⟨rfl, rfl, -⟩ := hjp
      exact .inr hp
    · exact absurd rfl h

/-- The compare-and-swap that succeeds: `x` is on level `i` at its place, and the writer goes on
to the next level or, at the top of its node, returns `true`. -/
theorem stepOk_cas (hlv : Levels key s lv) (hc : Climbs key s lv a height x i sp)
    (hnext : s.getNext (.node x) i = sp.nextAt i)
    (hlt0 : i = 0 → ↑(key a) < s.nextKey key (sp.nextAt 0))
    (hcas : s.getNext (sp.prevAt i) i = sp.nextAt i) :
    StepOk key s lv a height (.cas x i sp) (s.setNext (sp.prevAt i) i (some x))
      (insertLevel key s lv i x) (if i + 1 < height then .check x (i + 1) sp else .done x true) := by
  have hst := hc.straddles i le_rfl hc.lt_height
  have hi := hc.lt_head hlv
  have hx : x ∉ lv i := fun hx => lt_irrefl i ((hc.mem_iff i).1 hx)
  have hxl : i < s.height x := hc.owns.height_eq ▸ hc.lt_height
  obtain ⟨hne, hlinks⟩ := Links.cas (hlv.links i hi) (hlv.sorted i) hst.prev_on
    (hc.owns.keyOf_eq ▸ hst.prev_lt) hcas (hc.owns.keyOf_eq ▸ hc.lt_nextKey hlv hlt0) hx hxl
    (hlv.lt_linkCount hst.prev_on hi) hnext
  have hf := frame_cas hst.prev_on hne
  have hmem : ∀ l, x ∈ insertLevel key s lv i x l ↔ l < i + 1 := fun l => by
    rw [mem_insertLevel hne, hc.mem_iff]
    omega
  have hnode :
      (if i + 1 < height then Pc.check x (i + 1) sp else .done x true).node = some x := by
    split_ifs <;> rfl
  refine ⟨hlv.cas hc hne hlinks, hnode ▸ hf, ?_, .inl hnode⟩
  split_ifs with hh
  · exact .check ⟨hf.owns hc.owns, by simpa using hc.height_le, hc.onStack, hh, hmem,
      fun l hl hlh => (hc.straddles l (by omega) hlh).frame hf hlv⟩
  · -- the top level of the node: it is on every level below its height
    exact .linked (hf.owns hc.owns) fun l => by
      rw [hmem]
      have := hc.lt_height
      omega

/-- `prev_[i]->CASNext(i, next_[i], x)`: when it fails the writer searches level `i` again from
`prev_[i]`. -/
theorem advances_cas (hlv : Levels key s lv) (hs : Stands key s lv a height (.cas x i sp)) :
    Advances key s lv a height (.cas x i sp) := by
  cases hs with
  | cas climbs next_eq lt_next =>
  by_cases hcas : s.getNext (sp.prevAt i) i = sp.nextAt i
  · exact ⟨_, _, _, by simp [Thread.step, hcas], stepOk_cas hlv climbs next_eq lt_next hcas⟩
  · have hst := climbs.straddles i le_rfl climbs.lt_height
    refine ⟨s, lv, .find x i (sp.prevAt i) none false sp, by simp [Thread.step, hcas],
      stepOk_read hlv ?_ rfl⟩
    exact .find climbs.owns climbs.height_le climbs.onStack (climbs.lt_head hlv)
      (fun _ => climbs.lt_height)
      climbs.mem_iff hst.prev_on hst.prev_lt trivial le_top
      fun l hl hlh => climbs.straddles l hl.le hlh

end Cas

/-- Every writer that has not returned can take its step, and the step keeps what `StepOk`
says: no step of a writer is undefined behaviour while `kMaxHeight_` is below
`kMaxPossibleHeight`. -/
theorem Stands.advances (hlv : Levels key s lv) {pc : Pc} (hs : Stands key s lv a height pc)
    (hpos : 0 < height) (hle : height ≤ s.head.length)
    (hhead : s.head.length < kMaxPossibleHeight) (hpc : ∀ y ok, pc ≠ .done y ok) :
    Advances key s lv a height pc := by
  cases pc with
  | allocate => exact advances_allocate hlv
  | raise => exact advances_raise hlv hs hpos hle hhead
  | find => exact advances_find hlv hs hpos hhead
  | check => exact advances_check hlv hs
  | cas => exact advances_cas hlv hs
  | done y ok => exact absurd rfl (hpc y ok)

theorem Stands.owns {pc : Pc} (hs : Stands key s lv a height pc) {y : Nat}
    (hy : pc.node = some y) : Owns s a height y := by
  cases hs with
  | allocate => cases hy
  | raise owns _ =>
    cases hy
    exact owns
  | find owns _ _ _ _ _ _ _ _ _ _ =>
    cases hy
    exact owns
  | check climbs =>
    cases hy
    exact climbs.owns
  | cas climbs _ _ =>
    cases hy
    exact climbs.owns
  | linked owns _ =>
    cases hy
    exact owns
  | duplicate owns _ _ =>
    cases hy
    exact owns

end Steps

section System

variable {σ σ' : System α n} {lv : Nat → List Nat}

theorem Inv.advances (hinv : Inv key σ lv) (t : Fin n)
    (hpc : ∀ y ok, (σ.threads t).pc ≠ .done y ok) :
    Advances key σ.list lv (σ.threads t).key (σ.threads t).height (σ.threads t).pc :=
  (hinv.stands t).advances hinv.levels (hinv.height_pos t) (hinv.height_le t) hinv.head_lt hpc

theorem System.step_eq_none_of_done {t : Fin n} {y : Nat} {ok : Bool}
    (hdone : (σ.threads t).pc = .done y ok) : System.step key σ t = none := by
  simp [System.step, Thread.step, hdone]

/-- A step of a writer from a state of the invariant: the writer had not returned, keeps its key
and height, and its step keeps what `StepOk` says. -/
theorem Inv.step_eq (hinv : Inv key σ lv) {t : Fin n} (h : System.step key σ t = some σ') :
    ∃ s' lv' pc', σ' = ⟨s', Function.update σ.threads t
        ⟨(σ.threads t).key, (σ.threads t).height, pc'⟩⟩ ∧
      StepOk key σ.list lv (σ.threads t).key (σ.threads t).height (σ.threads t).pc s' lv' pc' := by
  have hpc : ∀ y ok, (σ.threads t).pc ≠ .done y ok := fun y ok hdone => by
    rw [System.step_eq_none_of_done hdone] at h
    cases h
  obtain ⟨s', lv', pc', hstep, hok⟩ := hinv.advances t hpc
  have hstep' : Thread.step key σ.list (σ.threads t) = some (s', ⟨_, _, pc'⟩) := hstep
  rw [System.step, hstep', Option.map_some] at h
  exact ⟨s', lv', pc', (Option.some.inj h).symm, hok⟩

/-- The node a writer allocates in a step is no other writer's. -/
theorem Inv.fresh (hinv : Inv key σ lv) {t u : Fin n} {s' : InlineSkipList α} {lv' : Nat → List Nat}
    {pc' : Pc}
    (hok : StepOk key σ.list lv (σ.threads t).key (σ.threads t).height (σ.threads t).pc s' lv' pc')
    (hu : u ≠ t) {y : Nat} (hy : (σ.threads u).pc.node = some y) : pc'.node ≠ some y := by
  intro hy'
  rcases hok.node_eq with heq | ⟨-, hnew⟩
  · exact hu (hinv.node_inj u t y hy (heq ▸ hy'))
  · -- the new node is past the arena, where no writer's node is
    have hlt := ((hinv.stands u).owns hy).lt
    rw [hnew] at hy'
    rw [← Option.some.inj hy'] at hlt
    exact lt_irrefl _ hlt

section Update

variable (T : Fin n → Thread α) (t : Fin n) (pc' : Pc) (u : Fin n)

omit [Inhabited α] in
/-- A step of a writer changes where it stands, and no writer's key or height. -/
@[simp] theorem key_update_pc :
    (Function.update T t ⟨(T t).key, (T t).height, pc'⟩ u).key = (T u).key := by
  by_cases hu : u = t
  · subst hu
    rw [Function.update_self]
  · rw [Function.update_of_ne hu]

omit [Inhabited α] in
@[simp] theorem height_update_pc :
    (Function.update T t ⟨(T t).key, (T t).height, pc'⟩ u).height = (T u).height := by
  by_cases hu : u = t
  · subst hu
    rw [Function.update_self]
  · rw [Function.update_of_ne hu]

end Update

theorem Inv.update (hinv : Inv key σ lv) {t : Fin n} {s' : InlineSkipList α}
    {lv' : Nat → List Nat} {pc' : Pc}
    (hok :
      StepOk key σ.list lv (σ.threads t).key (σ.threads t).height (σ.threads t).pc s' lv' pc') :
    Inv key ⟨s', Function.update σ.threads t ⟨(σ.threads t).key, (σ.threads t).height, pc'⟩⟩ lv'
    where
  levels := hok.levels
  height_pos u := by
    rw [height_update_pc]
    exact hinv.height_pos u
  height_le u := by
    rw [height_update_pc, hok.frame.head_length]
    exact hinv.height_le u
  stands u := by
    dsimp only
    by_cases hu : u = t
    · subst hu
      rw [Function.update_self]
      exact hok.stands
    · -- another writer's knowledge survives the step
      rw [Function.update_of_ne hu]
      exact (hinv.stands u).frame hok.frame hinv.levels fun y hy => hinv.fresh hok hu hy
  owned j hj := by
    dsimp only
    rcases hok.frame.new 0 j hj with hj | hj
    · obtain ⟨u, hu⟩ := hinv.owned j hj
      by_cases hut : u = t
      · subst hut
        refine ⟨u, ?_⟩
        rw [Function.update_self]
        rcases hok.node_eq with heq | ⟨hnone, -⟩
        · exact heq.trans hu
        · rw [hnone] at hu
          cases hu
      · exact ⟨u, by rw [Function.update_of_ne hut]; exact hu⟩
    · exact ⟨t, by rw [Function.update_self]; exact hj⟩
  node_inj u v y hu hv := by
    dsimp only at hu hv
    by_cases hut : u = t <;> by_cases hvt : v = t
    · exact hut.trans hvt.symm
    · subst hut
      rw [Function.update_self] at hu
      rw [Function.update_of_ne hvt] at hv
      exact absurd hu (hinv.fresh hok hvt hv)
    · subst hvt
      rw [Function.update_of_ne hut] at hu
      rw [Function.update_self] at hv
      exact absurd hv (hinv.fresh hok hut hu)
    · rw [Function.update_of_ne hut] at hu
      rw [Function.update_of_ne hvt] at hv
      exact hinv.node_inj u v y hu hv
  head_lt := hok.frame.head_length ▸ hinv.head_lt

variable {kMaxHeight : Nat} {writers : Fin n → α × Nat}

variable (key) in
/-- A state of a run of the writers `writers` on a new list of `kMaxHeight` levels: the invariant
over some lists of the levels, the writers' keys and heights as drawn, and the levels of
`head_`. -/
structure Reached (kMaxHeight : Nat) (writers : Fin n → α × Nat) (σ : System α n) : Prop where
  inv : ∃ lv, Inv key σ lv
  key_eq : ∀ t, (σ.threads t).key = (writers t).1
  height_eq : ∀ t, (σ.threads t).height = (writers t).2
  head_length : σ.list.head.length = kMaxHeight

theorem reached_init (h0 : 0 < kMaxHeight) (h32 : kMaxHeight < kMaxPossibleHeight)
    (hw : ∀ t, 0 < (writers t).2 ∧ (writers t).2 ≤ kMaxHeight) :
    Reached key kMaxHeight writers (System.init kMaxHeight writers) := by
  have hnew := (holds_new h0 : (new kMaxHeight : InlineSkipList α).Holds key [])
  have hhead : (new kMaxHeight : InlineSkipList α).head.length = kMaxHeight := by simp [new]
  refine ⟨⟨fun _ => [], ?_⟩, fun _ => rfl, fun _ => rfl, hhead⟩
  refine ⟨⟨fun l hl => hnew.links l hl, fun _ => List.Pairwise.nil, fun _ => List.Subset.refl _,
    fun _ _ hj => absurd hj List.not_mem_nil, fun _ hj => absurd hj List.not_mem_nil,
    hnew.maxHeight_pos, hnew.maxHeight_le⟩, fun t => (hw t).1, fun t => ?_, fun _ => .allocate,
    fun _ hj => absurd hj List.not_mem_nil, fun _ _ _ hx _ => by simp [System.init, Pc.node] at hx,
    ?_⟩
  · rw [System.init, hhead]
    exact (hw t).2
  · rw [System.init, hhead]
    exact h32

theorem Reached.step (hr : Reached key kMaxHeight writers σ) {t : Fin n}
    (h : System.step key σ t = some σ') : Reached key kMaxHeight writers σ' := by
  obtain ⟨lv, hinv⟩ := hr.inv
  obtain ⟨s', lv', pc', rfl, hok⟩ := hinv.step_eq h
  exact ⟨⟨lv', hinv.update hok⟩, fun u => (key_update_pc _ t pc' u).trans (hr.key_eq u),
    fun u => (height_update_pc _ t pc' u).trans (hr.height_eq u),
    hok.frame.head_length.trans hr.head_length⟩

/-- The run lemma: every state of every interleaving from the new list is reached. -/
theorem Reached.of_reachable (h0 : 0 < kMaxHeight) (h32 : kMaxHeight < kMaxPossibleHeight)
    (hw : ∀ t, 0 < (writers t).2 ∧ (writers t).2 ≤ kMaxHeight)
    (hσ : Run.Reachable (System.step key) (System.init kMaxHeight writers) σ) :
    Reached key kMaxHeight writers σ :=
  Run.Reachable.invariant (reached_init h0 h32 hw) (fun _ _ _ hr h => hr.step h) hσ

/-- A writer that returned has its node on level 0 exactly when it returned `true`, and either
way a node of level 0 has its key. -/
theorem Inv.done_iff (hinv : Inv key σ lv) {t : Fin n} {x : Nat} {ok : Bool}
    (ht : (σ.threads t).pc = .done x ok) :
    (ok = true ↔ x ∈ lv 0) ∧ ∃ j ∈ lv 0, σ.list.keyOf key j = key (σ.threads t).key := by
  have hs := hinv.stands t
  rw [ht] at hs
  cases hs with
  | linked owns mem_iff =>
    have hx : x ∈ lv 0 := (mem_iff 0).2 (hinv.height_pos t)
    exact ⟨iff_of_true rfl hx, x, hx, owns.keyOf_eq⟩
  | duplicate _ not_mem exists_key =>
    exact ⟨iff_of_false Bool.false_ne_true (not_mem 0), exists_key⟩

section Quiescent

variable (hdone : ∀ t, ∃ x ok, (σ.threads t).pc = .done x ok)
include hdone

/-- Once every writer has returned, a node of level 0 is on exactly the levels below its
height: its writer returned `true`. -/
theorem Inv.mem_iff_of_done (hinv : Inv key σ lv) {j : Nat} (hj : j ∈ lv 0) (l : Nat) :
    j ∈ lv l ↔ l < σ.list.height j := by
  obtain ⟨t, ht⟩ := hinv.owned j hj
  obtain ⟨x, ok, hpc⟩ := hdone t
  have hs := hinv.stands t
  rw [hpc] at hs ht
  cases ht
  cases hs with
  | linked owns mem_iff => rw [mem_iff, owns.height_eq]
  | duplicate _ not_mem _ => exact absurd hj (not_mem 0)

/-- Once every writer has returned, the list holds level 0. -/
theorem Inv.holds_of_done (hinv : Inv key σ lv) : σ.list.Holds key (lv 0) := by
  have hlv := hinv.levels
  -- every level is the nodes of level 0 taller than it
  have hlevel : ∀ l, lv l = σ.list.levelNodes (lv 0) l := fun l =>
    SortedList.Sorted.eq_of_mem_iff (hlv.sorted l) ((hlv.sorted 0).sublist List.filter_sublist)
      fun j => by
        rw [levelNodes, List.mem_filter, decide_eq_true_iff]
        exact ⟨fun hj => ⟨hlv.mem_zero hj, hlv.height_lt l j hj⟩,
          fun hj => (hinv.mem_iff_of_done hdone hj.1 l).2 hj.2⟩
  exact ⟨hlv.sorted 0, fun j hj => hlv.height_lt 0 j hj, hlv.height_le, hlv.maxHeight_pos,
    hlv.maxHeight_le, fun l hl => hlevel l ▸ hlv.links l hl⟩

theorem Inv.exists_key_iff (hinv : Inv key σ lv) (hr : Reached key kMaxHeight writers σ) (k : κ) :
    (∃ j ∈ lv 0, σ.list.keyOf key j = k) ↔ ∃ t, key (writers t).1 = k := by
  constructor
  · rintro ⟨j, hj, rfl⟩
    obtain ⟨t, ht⟩ := hinv.owned j hj
    exact ⟨t, by rw [← hr.key_eq, ((hinv.stands t).owns ht).keyOf_eq]⟩
  · rintro ⟨t, rfl⟩
    obtain ⟨x, ok, ht⟩ := hdone t
    rw [← hr.key_eq]
    exact (hinv.done_iff ht).2

end Quiescent

section Solo

/-! A writer run alone, from any state of a run: each of its loops ends, and it returns. -/

variable (key) in
/-- The nodes of the arena above `before` and below `k`: those a search from `before` toward `k`
may still pass. -/
def ahead (s : InlineSkipList α) (k : κ) (before : Ref) : Nat :=
  ((List.range s.nodes.length).filter fun j =>
    s.prevKey key before < ↑(s.keyOf key j) ∧ s.keyOf key j < k).length

theorem ahead_lt {s : InlineSkipList α} {k : κ} {before : Ref} {m : Nat}
    (hm : m < s.nodes.length) (hbm : s.prevKey key before < ↑(s.keyOf key m))
    (hmk : s.keyOf key m < k) : ahead key s k (.node m) < ahead key s k before := by
  unfold ahead
  refine List.length_filter_lt_length_filter (fun j _ hj => ?_) (List.mem_range.2 hm) ?_ ?_
  · simp only [decide_eq_true_eq] at hj ⊢
    rw [prevKey] at hj
    exact ⟨lt_trans hbm hj.1, hj.2⟩
  · simp only [decide_eq_true_eq]
    exact ⟨hbm, hmk⟩
  · simp [prevKey]

variable {t : Fin n} {x i : Nat} {sp : Splice}

theorem System.step_of_thread {s' : InlineSkipList α} {pc' : Pc}
    (h : Thread.step key σ.list (σ.threads t) = some (s', { σ.threads t with pc := pc' })) :
    System.step key σ t = some ⟨s', Function.update σ.threads t { σ.threads t with pc := pc' }⟩ := by
  rw [System.step, h, Option.map_some]

/-- Writer `t` has passed level `i` with its node `x`: it returned, or it stands at the checks of
the level above. -/
def Passed (σ : System α n) (t : Fin n) (x i : Nat) : Prop :=
  (∃ ok, (σ.threads t).pc = .done x ok) ∨ ∃ sp, (σ.threads t).pc = .check x (i + 1) sp

theorem Reached.climbs (hr : Reached key kMaxHeight writers σ)
    (hpc : (σ.threads t).pc = .check x i sp ∨ (σ.threads t).pc = .cas x i sp) :
    ∃ lv, Climbs key σ.list lv (σ.threads t).key (σ.threads t).height x i sp := by
  obtain ⟨lv, hinv⟩ := hr.inv
  have hs := hinv.stands t
  rcases hpc with hpc | hpc <;> rw [hpc] at hs
  · cases hs with
    | check climbs => exact ⟨lv, climbs⟩
  · cases hs with
    | cas climbs _ _ => exact ⟨lv, climbs⟩

/-- Past the checks, the store of the writer's own link leaves the link out of `prev_[i]`: that
node is on level `i`, which the writer's node is not on yet. -/
theorem Climbs.getNext_prev_setNext {s : InlineSkipList α} {lv : Nat → List Nat} {a : α}
    {height : Nat} (hc : Climbs key s lv a height x i sp) (v : Option Nat) :
    (s.setNext (.node x) i v).getNext (sp.prevAt i) i = s.getNext (sp.prevAt i) i := by
  have hne : sp.prevAt i ≠ .node x := by
    intro h
    have hon := (hc.straddles i le_rfl hc.lt_height).prev_on
    rw [h] at hon
    exact lt_irrefl i ((hc.mem_iff i).1 hon)
  rw [getNext_setNext, if_neg fun h => hne h.1]

/-- Alone, a search along a level stops, at a node `before'` and the link out of it, and leaves
the list as it was. -/
theorem Reached.solo_find {l : Nat} {after : Option Nat} {down : Bool} :
    ∀ {σ : System α n} {before : Ref}, Reached key kMaxHeight writers σ →
      (σ.threads t).pc = .find x l before after down sp →
      ∃ σ' before', Run.Repeats (System.step key) t σ σ' ∧ σ'.list = σ.list ∧
        (σ'.threads t).pc = Pc.found x l before' (σ.list.getNext before' l) down sp := by
  -- strong induction on the nodes the search may still pass
  suffices h : ∀ c {σ : System α n} {before : Ref}, Reached key kMaxHeight writers σ →
      (σ.threads t).pc = .find x l before after down sp →
      ahead key σ.list (key (σ.threads t).key) before = c →
      ∃ σ' before', Run.Repeats (System.step key) t σ σ' ∧ σ'.list = σ.list ∧
        (σ'.threads t).pc = Pc.found x l before' (σ.list.getNext before' l) down sp by
    intro σ before hr hpc
    exact h _ hr hpc rfl
  intro c
  induction c using Nat.strong_induction_on with
  | _ c ih =>
  intro σ before hr hpc hc
  obtain ⟨lv, hinv⟩ := hr.inv
  have hs := hinv.stands t
  rw [hpc] at hs
  cases hs with
  | find _ _ _ level_lt _ _ before_on before_lt _ _ _ =>
  -- the step that stops, at a null link or at a node that ends the search
  have hstop : ∀ o, σ.list.getNext before l = o →
      Thread.step key σ.list (σ.threads t) =
        some (σ.list, { σ.threads t with pc := Pc.found x l before o down sp }) →
      ∃ σ' before', Run.Repeats (System.step key) t σ σ' ∧ σ'.list = σ.list ∧
        (σ'.threads t).pc = Pc.found x l before' (σ.list.getNext before' l) down sp :=
    fun o ho h => ⟨_, before, .single (System.step_of_thread h), rfl, by simp [ho]⟩
  cases hn : σ.list.getNext before l with
  | none => exact hstop none hn (by simp [Thread.step, hpc, hn])
  | some m =>
    by_cases hend : some m = after ∨
        σ.list.keyIsAfterNode key (key (σ.threads t).key) (some m) = false
    · exact hstop (some m) hn (by simp [Thread.step, hpc, hn, hend])
    · -- one node on, nearer the key
      obtain ⟨hmem, hlt⟩ :=
        (hinv.levels.links l level_lt).mem_of_getNext (hinv.levels.sorted l) before_on before_lt hn
      have hmk : σ.list.keyOf key m < key (σ.threads t).key := by
        rw [not_or] at hend
        simpa [keyIsAfterNode, keyOf] using hend.2
      have hstep := System.step_of_thread (show Thread.step key σ.list (σ.threads t) =
        some (σ.list, { σ.threads t with pc := .find x l (.node m) after down sp }) by
          simp [Thread.step, hpc, hn, hend])
      have hlt' : ahead key σ.list (key (σ.threads t).key) (.node m) < c :=
        hc ▸ ahead_lt (hinv.levels.lt_length hmem) hlt hmk
      obtain ⟨σ', before', hrun, hlist, hpc'⟩ := @ih _ hlt' _ (.node m) (hr.step hstep)
        (by simp) (by simp)
      exact ⟨σ', before', (Run.Repeats.single hstep).trans hrun, hlist, hpc'⟩


end Solo

end System

end Invariant

section Reachable

variable {n kMaxHeight : Nat} {writers : Fin n → α × Nat} {σ : System α n}

/-- In every state of every interleaving of the writers on a new list, each level below
`kMaxHeight_`, read from `head_` along its links, is a list of strictly increasing keys, every
node of a level is on the level below, a writer that returned `true` has its node under its key
on every level below its height, and one that returned `false` found a node of level 0 under its
key. -/
theorem System.linked_of_reachable (h0 : 0 < kMaxHeight) (h32 : kMaxHeight < kMaxPossibleHeight)
    (hw : ∀ t, 0 < (writers t).2 ∧ (writers t).2 ≤ kMaxHeight)
    (hσ : Run.Reachable (System.step key) (System.init kMaxHeight writers) σ) :
    ∃ lv : Nat → List Nat,
      (∀ l < kMaxHeight, σ.list.levelList l = some (lv l)) ∧
      (∀ l, SortedList.Sorted (σ.list.keyOf key) (lv l)) ∧
      (∀ l, lv (l + 1) ⊆ lv l) ∧
      (∀ t x, (σ.threads t).pc = .done x true →
        σ.list.keyOf key x = key (writers t).1 ∧ ∀ l < (writers t).2, x ∈ lv l) ∧
      ∀ t x, (σ.threads t).pc = .done x false →
        ∃ j ∈ lv 0, σ.list.keyOf key j = key (writers t).1 := by
  have hr := Reached.of_reachable h0 h32 hw hσ
  obtain ⟨lv, hinv⟩ := hr.inv
  refine ⟨lv, fun l hl => ?_, hinv.levels.sorted, hinv.levels.sub, fun t x hx => ?_,
    fun t x hx => ?_⟩
  · -- the walk of a level reads the list its links hold
    have hl' : l < σ.list.head.length := hr.head_length ▸ hl
    exact (hinv.levels.links l hl').levelList_eq (hinv.levels.length_le l)
  · have hs := hinv.stands t
    rw [hx, hr.key_eq, hr.height_eq] at hs
    cases hs with
    | linked owns mem_iff => exact ⟨owns.keyOf_eq, fun l hl => (mem_iff l).2 hl⟩
  · rw [← hr.key_eq]
    exact (hinv.done_iff hx).2

/-- Two writers of the key 5 at heights 1 and 2 on a list of 2 levels, their steps alternating:
the compare-and-swap of the second fails, and it finds the first one's node. -/
theorem linked_of_reachable_two_writers :
    ∃ σ, Run.run (System.step id) (System.init 2 fun t : Fin 2 => ((5 : Nat), t.val + 1))
        [0, 1, 0, 1, 0, 1, 0, 1, 0, 1, 1, 1, 1] = some σ ∧
      ∃ lv : Nat → List Nat,
        (∀ l < 2, σ.list.levelList l = some (lv l)) ∧
        (∀ l, SortedList.Sorted (σ.list.keyOf id) (lv l)) ∧
        (∀ l, lv (l + 1) ⊆ lv l) ∧
        (∀ t x, (σ.threads t).pc = .done x true →
          σ.list.keyOf id x = 5 ∧ ∀ l < t.val + 1, x ∈ lv l) ∧
        ∀ t x, (σ.threads t).pc = .done x false → ∃ j ∈ lv 0, σ.list.keyOf id j = 5 := by
  refine ⟨_, rfl, System.linked_of_reachable id (by decide) (by decide) (by decide)
    (show Run.Reachable _ (System.init 2 fun t : Fin 2 => ((5 : Nat), t.val + 1)) _ from
      ⟨[0, 1, 0, 1, 0, 1, 0, 1, 0, 1, 1, 1, 1], rfl⟩)⟩

/-- No writer is stuck in any state of any interleaving: a writer can take a step exactly when
it has not returned, so none meets the undefined behaviour of a store past its splice. -/
theorem System.step_iff_of_reachable (h0 : 0 < kMaxHeight) (h32 : kMaxHeight < kMaxPossibleHeight)
    (hw : ∀ t, 0 < (writers t).2 ∧ (writers t).2 ≤ kMaxHeight)
    (hσ : Run.Reachable (System.step key) (System.init kMaxHeight writers) σ)
    (t : Fin n) :
    (∃ σ', System.step key σ t = some σ') ↔ ∀ x ok, (σ.threads t).pc ≠ .done x ok := by
  obtain ⟨lv, hinv⟩ := (Reached.of_reachable h0 h32 hw hσ).inv
  constructor
  · rintro ⟨σ', h⟩ x ok hdone
    rw [System.step_eq_none_of_done hdone] at h
    cases h
  · intro hpc
    obtain ⟨s', lv', pc', hstep, -⟩ := hinv.advances t hpc
    have hstep' : Thread.step key σ.list (σ.threads t) = some (s', ⟨_, _, pc'⟩) := hstep
    exact ⟨_, by rw [System.step, hstep', Option.map_some]⟩

/-- The second writer, searching level 0 again after its failed compare-and-swap, can step. -/
theorem step_iff_of_reachable_retry :
    ∃ σ, Run.run (System.step id) (System.init 2 fun t : Fin 2 => ((5 : Nat), t.val + 1))
        [0, 1, 0, 1, 0, 1, 0, 1, 0, 1, 1] = some σ ∧
      (σ.threads 1).pc = .find 1 0 .head none false
        (((Splice.onStack.resize 2).setLevel 1 .head none).setLevel 0 .head none) ∧
      ((∃ σ', System.step id σ 1 = some σ') ↔ ∀ x ok, (σ.threads 1).pc ≠ .done x ok) := by
  refine ⟨_, rfl, rfl, System.step_iff_of_reachable id (by decide) (by decide) (by decide)
    (show Run.Reachable _ (System.init 2 fun t : Fin 2 => ((5 : Nat), t.val + 1)) _ from
      ⟨[0, 1, 0, 1, 0, 1, 0, 1, 0, 1, 1], rfl⟩) 1⟩

/-- Of the writers of equal keys, at most one returns `true`, in every state of every
interleaving: two that do have linked the same node of level 0. -/
theorem System.eq_of_inserted (h0 : 0 < kMaxHeight) (h32 : kMaxHeight < kMaxPossibleHeight)
    (hw : ∀ t, 0 < (writers t).2 ∧ (writers t).2 ≤ kMaxHeight)
    (hσ : Run.Reachable (System.step key) (System.init kMaxHeight writers) σ)
    {t u : Fin n} {x y : Nat} (ht : (σ.threads t).pc = .done x true)
    (hu : (σ.threads u).pc = .done y true) (hk : key (writers t).1 = key (writers u).1) :
    t = u := by
  have hr := Reached.of_reachable h0 h32 hw hσ
  obtain ⟨lv, hinv⟩ := hr.inv
  have hst := hinv.stands t
  have hsu := hinv.stands u
  rw [ht] at hst
  rw [hu] at hsu
  cases hst with
  | linked owns_t mem_t =>
  cases hsu with
  | linked owns_u mem_u =>
  -- both nodes are on level 0 under one key, so they are one node, of one writer
  have hx : x ∈ lv 0 := (mem_t 0).2 (hinv.height_pos t)
  have hy : y ∈ lv 0 := (mem_u 0).2 (hinv.height_pos u)
  have hxy : x = y := hinv.levels.eq_of_keyOf_eq hx hy (by
    rw [owns_t.keyOf_eq, owns_u.keyOf_eq, hr.key_eq, hr.key_eq]
    exact hk)
  exact hinv.node_inj t u x (by rw [ht]; rfl) (by rw [hu, hxy]; rfl)

theorem eq_of_inserted_two_writers :
    ∃ σ, Run.run (System.step id) (System.init 2 fun t : Fin 2 => ((5 : Nat), t.val + 1))
        [0, 1, 0, 1, 0, 1, 0, 1, 0, 1, 1, 1, 1] = some σ ∧
      (σ.threads 0).pc = .done 0 true ∧ (0 : Fin 2) = 0 := by
  refine ⟨_, rfl, rfl, System.eq_of_inserted id (by decide) (by decide) (by decide)
    (show Run.Reachable _ (System.init 2 fun t : Fin 2 => ((5 : Nat), t.val + 1)) _ from
      ⟨[0, 1, 0, 1, 0, 1, 0, 1, 0, 1, 1, 1, 1], rfl⟩) rfl rfl rfl⟩

/-- Once every writer has returned, the list holds a sorted list of nodes, a writer's node is on
it exactly when the writer returned `true`, and level 0 reads one writer's entry for each key:
the keys, in order, of the sequential inserts of the writers' entries. -/
theorem System.quiescent_of_reachable (h0 : 0 < kMaxHeight) (h32 : kMaxHeight < kMaxPossibleHeight)
    (hw : ∀ t, 0 < (writers t).2 ∧ (writers t).2 ≤ kMaxHeight)
    (hσ : Run.Reachable (System.step key) (System.init kMaxHeight writers) σ)
    (hdone : ∀ t, ∃ x ok, (σ.threads t).pc = .done x ok) :
    ∃ L, σ.list.Holds key L ∧
      (∀ t x ok, (σ.threads t).pc = .done x ok → (ok = true ↔ x ∈ L)) ∧
      ∃ ks, σ.list.keys = some ks ∧ (∀ b ∈ ks, ∃ t, (writers t).1 = b) ∧
        ks.map key = ((List.ofFn fun t => (writers t).1).foldl
          (fun A b => SortedList.insert key b A) []).map key := by
  have hr := Reached.of_reachable h0 h32 hw hσ
  obtain ⟨lv, hinv⟩ := hr.inv
  have hL := hinv.holds_of_done hdone
  refine ⟨lv 0, hL, fun t x ok ht => (hinv.done_iff ht).1, _, hL.keys_eq, ?_, ?_⟩
  · -- each entry on the list is that of the writer whose node holds it
    intro b hb
    obtain ⟨j, hj, rfl⟩ := List.mem_map.1 hb
    obtain ⟨t, ht⟩ := hinv.owned j hj
    exact ⟨t, by rw [((hinv.stands t).owns ht).key_eq, hr.key_eq]⟩
  · -- two sorted lists of keys with the same members
    rw [List.map_map]
    refine SortedList.Sorted.eq_of_mem_iff
      (show SortedList.Sorted id ((lv 0).map (σ.list.keyOf key)) from
        List.pairwise_map.2 (hinv.levels.sorted 0))
      (show SortedList.Sorted id _ from
        List.pairwise_map.2 (SortedList.foldl_insert_sorted _ List.Pairwise.nil)) fun k => ?_
    have hfold := @SortedList.exists_key_mem_foldl_insert α κ _ key α id
      (List.ofFn fun t => (writers t).1) [] k
    simp only [List.mem_map, List.not_mem_nil, false_and, exists_false, false_or, id,
      List.mem_ofFn, exists_exists_eq_and] at hfold ⊢
    rw [hfold]
    exact hinv.exists_key_iff hdone hr k

theorem quiescent_of_reachable_two_writers :
    ∃ σ, Run.run (System.step id) (System.init 2 fun t : Fin 2 => ((5 : Nat), t.val + 1))
        [0, 1, 0, 1, 0, 1, 0, 1, 0, 1, 1, 1, 1] = some σ ∧
      (σ.threads 0).pc = .done 0 true ∧ (σ.threads 1).pc = .done 1 false ∧
      ∃ L, σ.list.Holds id L ∧
        (∀ t x ok, (σ.threads t).pc = .done x ok → (ok = true ↔ x ∈ L)) ∧
        ∃ ks, σ.list.keys = some ks ∧ (∀ b ∈ ks, ∃ _ : Fin 2, 5 = b) ∧
          ks.map id = ((List.ofFn fun _ : Fin 2 => 5).foldl
            (fun A b => SortedList.insert id b A) []).map id := by
  refine ⟨_, rfl, rfl, rfl, System.quiescent_of_reachable id (by decide) (by decide) (by decide)
    (show Run.Reachable _ (System.init 2 fun t : Fin 2 => ((5 : Nat), t.val + 1)) _ from
      ⟨[0, 1, 0, 1, 0, 1, 0, 1, 0, 1, 1, 1, 1], rfl⟩) fun t => ?_⟩
  fin_cases t
  · exact ⟨0, true, rfl⟩
  · exact ⟨1, false, rfl⟩

/-- The asserts of `FindSpliceForLevel` and of the loop of `Insert<true>` hold in every state of
every interleaving: the node a search stands at is `head_` or below the key, and below the node
its link leads to; past the duplicate checks, `prev_[i]` is `head_` or below the key, and
`next_[i]` null or above it. -/
theorem System.asserts_of_reachable (h0 : 0 < kMaxHeight) (h32 : kMaxHeight < kMaxPossibleHeight)
    (hw : ∀ t, 0 < (writers t).2 ∧ (writers t).2 ≤ kMaxHeight)
    (hσ : Run.Reachable (System.step key) (System.init kMaxHeight writers) σ) (t : Fin n) :
    (∀ x l before after down sp, (σ.threads t).pc = .find x l before after down sp →
      σ.list.prevKey key before < ↑(key (writers t).1) ∧
        ∀ m, σ.list.getNext before l = some m →
          σ.list.prevKey key before < ↑(σ.list.keyOf key m)) ∧
    ∀ x i sp, (σ.threads t).pc = .check x i sp →
      (i = 0 → σ.list.isDuplicate key (key (writers t).1) sp = false) →
        σ.list.prevKey key (sp.prevAt i) < ↑(key (writers t).1) ∧
          ↑(key (writers t).1) < σ.list.nextKey key (sp.nextAt i) := by
  have hr := Reached.of_reachable h0 h32 hw hσ
  obtain ⟨lv, hinv⟩ := hr.inv
  have hs := hinv.stands t
  rw [hr.key_eq] at hs
  refine ⟨fun x l before after down sp hpc => ?_, fun x i sp hpc hdup => ?_⟩
  · rw [hpc] at hs
    cases hs with
    | find _ _ _ level_lt _ _ before_on before_lt _ _ _ =>
    exact ⟨before_lt, fun m hm =>
      ((hinv.levels.links l level_lt).mem_of_getNext (hinv.levels.sorted l) before_on before_lt
        hm).2⟩
  · rw [hpc] at hs
    cases hs with
    | check climbs =>
    have hst := climbs.straddles i le_rfl climbs.lt_height
    refine ⟨hst.prev_lt, climbs.lt_nextKey hinv.levels fun hi => ?_⟩
    subst hi
    exact hst.isDuplicate_eq_false_iff.mp (hdup rfl)

theorem asserts_of_reachable_retry :
    ∃ σ, Run.run (System.step id) (System.init 2 fun t : Fin 2 => ((5 : Nat), t.val + 1))
        [0, 1, 0, 1, 0, 1, 0, 1, 0, 1, 1] = some σ ∧
      (σ.threads 1).pc = .find 1 0 .head none false
        (((Splice.onStack.resize 2).setLevel 1 .head none).setLevel 0 .head none) ∧
      (∀ x l before after down sp, (σ.threads 1).pc = .find x l before after down sp →
        σ.list.prevKey id before < ↑(5 : Nat) ∧
          ∀ m, σ.list.getNext before l = some m → σ.list.prevKey id before < ↑(σ.list.keyOf id m)) ∧
      ∀ x i sp, (σ.threads 1).pc = .check x i sp →
        (i = 0 → σ.list.isDuplicate id 5 sp = false) →
          σ.list.prevKey id (sp.prevAt i) < ↑(5 : Nat) ∧
            ↑(5 : Nat) < σ.list.nextKey id (sp.nextAt i) := by
  refine ⟨_, rfl, rfl, System.asserts_of_reachable id (by decide) (by decide) (by decide)
    (show Run.Reachable _ (System.init 2 fun t : Fin 2 => ((5 : Nat), t.val + 1)) _ from
      ⟨[0, 1, 0, 1, 0, 1, 0, 1, 0, 1, 1], rfl⟩) 1⟩

end Reachable

end Concurrent

end InlineSkipList

end DLSM
