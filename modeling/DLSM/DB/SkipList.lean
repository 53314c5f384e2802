import Mathlib

/-! `InlineSkipList`, the skip list of a memtable.  Nodes live in an arena: each has a key and
`height` next links, `next_[i]` in the list of level `i`, and the head node has `kMaxHeight_`
of them.  A `Splice` caches, level by level, the nodes a key was last found between; `Insert`
checks how much of a cached splice still brackets the new key, recomputes the levels below,
checks at level 0 for a key that compares equal, and links the node in from level 0 up.  The
sequential form sets each link; the concurrent form sets it by compare-and-swap and searches
again when that fails.

A pointer is an arena index: `Option Nat` for a `Node*` that may be null, `Ref` for one that may
be `head_`.  The keys are compared through `key` under a linear order, as `compare_` compares
them.  Each loop that follows links runs on fuel, one round more than the arena has nodes, and
gives `none` when it runs out; so does a write past a splice's arrays.  Links that the source
leaves uninitialised until they are written are null here. -/

namespace DLSM

namespace InlineSkipList

/-- `kMaxPossibleHeight`: the size of the splice arrays `InsertConcurrently` puts on the
stack. -/
def kMaxPossibleHeight : Nat := 32

/-- A node: its key, and its links `next_[0]` to `next_[height - 1]`. -/
structure Node (α : Type) where
  key : α
  next : List (Option Nat)
  deriving DecidableEq, Repr

instance {α : Type} [Inhabited α] : Inhabited (Node α) := ⟨⟨default, []⟩⟩

/-- A `Node*` a search stands on: `head_`, or a node of the arena. -/
inductive Ref where
  | head
  | node (i : Nat)
  deriving DecidableEq, Repr

/-- `Splice`: `height_`, and the arrays `prev_` and `next_`. -/
structure Splice where
  height : Nat
  prev : List Ref
  next : List (Option Nat)
  deriving DecidableEq, Repr

namespace Splice

def prevAt (sp : Splice) (i : Nat) : Ref := sp.prev.getD i .head

def nextAt (sp : Splice) (i : Nat) : Option Nat := sp.next.getD i none

/-- `prev_[i]` and `next_[i]` set to `p` and `n`. -/
def setLevel (sp : Splice) (i : Nat) (p : Ref) (n : Option Nat) : Splice :=
  { sp with prev := sp.prev.set i p, next := sp.next.set i n }

/-- `AllocateSplice`: arrays of `kMaxHeight_ + 1` entries, and `height_` 0. -/
def alloc (kMaxHeight : Nat) : Splice :=
  ⟨0, List.replicate (kMaxHeight + 1) .head, List.replicate (kMaxHeight + 1) none⟩

/-- The splice `InsertConcurrently` declares: arrays of `kMaxPossibleHeight` entries. -/
def onStack : Splice :=
  ⟨0, List.replicate kMaxPossibleHeight .head, List.replicate kMaxPossibleHeight none⟩

/-- `while (splice->prev_[r] == bad) ++r`. -/
def skipPrev (sp : Splice) (bad : Ref) (r : Nat) : Nat :=
  r + ((sp.prev.drop r).takeWhile (· == bad)).length

/-- `while (splice->next_[r] == bad) ++r`. -/
def skipNext (sp : Splice) (bad : Option Nat) (r : Nat) : Nat :=
  r + ((sp.next.drop r).takeWhile (· == bad)).length

/-- A splice of a smaller `height_` set to `max_height`: `prev_[max_height]` the head and
`next_[max_height]` null. -/
def resize (sp : Splice) (maxHeight : Nat) : Splice :=
  ⟨maxHeight, sp.prev.set maxHeight .head, sp.next.set maxHeight none⟩

/-- The end of a successful `Insert` with a valid splice: `prev_[i] = x` below `height`. -/
def setPrevs (sp : Splice) (x height : Nat) : Splice :=
  { sp with prev := (List.range height).foldl (fun prev i => prev.set i (.node x)) sp.prev }

end Splice

end InlineSkipList

open InlineSkipList

/-- The fields of `InlineSkipList` that its lists depend on: the links of `head_`, one for
each of the `kMaxHeight_` levels, the arena's nodes by index, `max_height_`, and
`seq_splice_`. -/
structure InlineSkipList (α : Type) where
  head : List (Option Nat)
  nodes : List (Node α)
  maxHeight : Nat
  seqSplice : Splice
  deriving DecidableEq, Repr

namespace InlineSkipList

variable {α κ : Type} [Inhabited α] [LinearOrder κ] (key : α → κ)

/-- The constructor with `max_height` levels: `head_`'s links null, `max_height_` 1. -/
def new (maxHeight : Nat) : InlineSkipList α :=
  ⟨List.replicate maxHeight none, [], 1, Splice.alloc maxHeight⟩

/-- The node at an arena index. -/
def node (s : InlineSkipList α) (i : Nat) : Node α := s.nodes.getD i default

/-- `Next(level)` of a node or of `head_`. -/
def getNext (s : InlineSkipList α) : Ref → Nat → Option Nat
  | .head, level => s.head.getD level none
  | .node i, level => (s.node i).next.getD level none

/-- `SetNext(level, x)` of a node or of `head_`. -/
def setNext (s : InlineSkipList α) : Ref → Nat → Option Nat → InlineSkipList α
  | .head, level, x => { s with head := s.head.set level x }
  | .node i, level, x =>
    { s with nodes := s.nodes.modify i fun n => { n with next := n.next.set level x } }

/-- How many links a node or `head_` has: its height, or `kMaxHeight_`. -/
def linkCount (s : InlineSkipList α) : Ref → Nat
  | .head => s.head.length
  | .node i => (s.node i).next.length

theorem node_setNext (s : InlineSkipList α) (r : Ref) (l : Nat) (v : Option Nat) (j : Nat) :
    (s.setNext r l v).node j =
      if r = .node j then { s.node j with next := (s.node j).next.set l v } else s.node j := by
  cases r with
  | head => simp [setNext, node]
  | node i =>
    simp only [setNext, node, List.getD_eq_getElem?_getD, List.getElem?_modify, Ref.node.injEq]
    by_cases hij : i = j
    · subst hij
      cases s.nodes[i]? <;> simp [default]
    · simp [hij]

@[simp] theorem key_node_setNext (s : InlineSkipList α) (r : Ref) (l : Nat) (v : Option Nat)
    (j : Nat) : ((s.setNext r l v).node j).key = (s.node j).key := by
  rw [node_setNext]
  split_ifs <;> rfl

@[simp] theorem length_next_node_setNext (s : InlineSkipList α) (r : Ref) (l : Nat)
    (v : Option Nat) (j : Nat) :
    ((s.setNext r l v).node j).next.length = (s.node j).next.length := by
  rw [node_setNext]
  split_ifs <;> simp

omit [Inhabited α] in
@[simp] theorem length_nodes_setNext (s : InlineSkipList α) (r : Ref) (l : Nat) (v : Option Nat) :
    (s.setNext r l v).nodes.length = s.nodes.length := by
  cases r <;> simp [setNext]

omit [Inhabited α] in
@[simp] theorem length_head_setNext (s : InlineSkipList α) (r : Ref) (l : Nat) (v : Option Nat) :
    (s.setNext r l v).head.length = s.head.length := by
  cases r <;> simp [setNext]

omit [Inhabited α] in
@[simp] theorem maxHeight_setNext (s : InlineSkipList α) (r : Ref) (l : Nat) (v : Option Nat) :
    (s.setNext r l v).maxHeight = s.maxHeight := by
  cases r <;> rfl

@[simp] theorem linkCount_setNext (s : InlineSkipList α) (r : Ref) (l : Nat) (v : Option Nat)
    (r' : Ref) : (s.setNext r l v).linkCount r' = s.linkCount r' := by
  cases r' <;> simp [linkCount]

/-- A link is set only where the node has one; every other link stays. -/
theorem getNext_setNext (s : InlineSkipList α) (r : Ref) (l : Nat) (v : Option Nat) (r' : Ref)
    (l' : Nat) : (s.setNext r l v).getNext r' l' =
      if r' = r ∧ l' = l ∧ l < s.linkCount r then v else s.getNext r' l' := by
  cases r with
  | head =>
    cases r' with
    | head =>
      simp only [setNext, getNext, linkCount, List.getD_eq_getElem?_getD, List.getElem?_set]
      by_cases hl : l = l'
      · subst hl
        by_cases hlt : l < s.head.length <;> simp [hlt]
      · simp [hl, Ne.symm hl]
    | node j => simp [setNext, getNext, node]
  | node i =>
    cases r' with
    | head => simp [setNext, getNext]
    | node j =>
      simp only [getNext, node_setNext, linkCount, Ref.node.injEq]
      by_cases hij : i = j
      · subst hij
        simp only [if_true, true_and, List.getD_eq_getElem?_getD, List.getElem?_set]
        by_cases hl : l = l'
        · subst hl
          by_cases hlt : l < (s.node i).next.length <;> simp [hlt]
        · simp [hl, Ne.symm hl]
      · simp [hij, Ne.symm hij]

/-- `KeyIsAfterNode`: the node is not null, and its key is below `k`. -/
def keyIsAfterNode (s : InlineSkipList α) (k : κ) : Option Nat → Bool
  | none => false
  | some n => decide (key (s.node n).key < k)

/-- `KeyIsAfterNode` of a `prev_` entry, which `Insert` asks only of one that is not
`head_`. -/
def keyIsAfterRef (s : InlineSkipList α) (k : κ) : Ref → Bool
  | .head => false
  | .node i => s.keyIsAfterNode key k (some i)

/-- `AllocateKey` with the height `RandomHeight` drew, the key filled in by the caller: a node
that no list holds yet. -/
def allocateKey (s : InlineSkipList α) (k : α) (height : Nat) : InlineSkipList α × Nat :=
  ({ s with nodes := s.nodes ++ [⟨k, List.replicate height none⟩] }, s.nodes.length)

/-- `FindSpliceForLevel`: from `before`, along `level`, until the next node is `after` or not
below `k`; the node reached and its next. -/
def findSpliceForLevel (s : InlineSkipList α) (k : κ) (after : Option Nat) (level : Nat) :
    Nat → Ref → Option (Ref × Option Nat)
  | 0, _ => none
  | fuel + 1, before =>
    match s.getNext before level with
    | none => some (before, none)
    | some n =>
      if some n = after ∨ s.keyIsAfterNode key k (some n) = false then some (before, some n)
      else findSpliceForLevel s k after level fuel (.node n)

/-- `RecomputeSpliceLevels`: levels `r - 1` down to 0, each from the level above it. -/
def recomputeSpliceLevels (s : InlineSkipList α) (k : κ) : Nat → Splice → Option Splice
  | 0, sp => some sp
  | i + 1, sp => do
    let (p, n) ← s.findSpliceForLevel key k (sp.nextAt (i + 1)) i (s.nodes.length + 1)
      (sp.prevAt (i + 1))
    recomputeSpliceLevels s k i (sp.setLevel i p n)

/-- The loop of `Insert` over a splice of the right height: from level `r` up, the first level
whose splice entries are still neighbours and bracket `k`; with the partial fix, the levels
that share an entry found on the wrong side are passed over, and without it a level on the
wrong side sends every level to be recomputed. -/
def validateSplice (s : InlineSkipList α) (k : κ) (sp : Splice) (maxHeight : Nat)
    (allowPartialSpliceFix : Bool) : Nat → Nat → Option Nat
  | 0, _ => none
  | fuel + 1, r =>
    if r < maxHeight then
      if s.getNext (sp.prevAt r) r ≠ sp.nextAt r then
        validateSplice s k sp maxHeight allowPartialSpliceFix fuel (r + 1)
      else if sp.prevAt r ≠ .head ∧ s.keyIsAfterRef key k (sp.prevAt r) = false then
        -- the key is before the splice
        if allowPartialSpliceFix then
          validateSplice s k sp maxHeight allowPartialSpliceFix fuel (sp.skipPrev (sp.prevAt r) r)
        else some maxHeight
      else if s.keyIsAfterNode key k (sp.nextAt r) then
        -- the key is after the splice
        if allowPartialSpliceFix then
          validateSplice s k sp maxHeight allowPartialSpliceFix fuel (sp.skipNext (sp.nextAt r) r)
        else some maxHeight
      else some r
    else some r

/-- The two checks at level 0 for a key that compares equal to `kx`: the node after the splice
is not above it, or the node before it is not below. -/
def isDuplicate (s : InlineSkipList α) (kx : κ) (sp : Splice) : Bool :=
  (match sp.nextAt 0 with
    | some n => !decide (kx < key (s.node n).key)
    | none => false) ||
  (match sp.prevAt 0 with
    | .node p => !decide (key (s.node p).key < kx)
    | .head => false)

/-- The sequential link of `x` at level `i`: `x` takes `next`, and `prev` links to `x`. -/
def linkAt (s : InlineSkipList α) (x i : Nat) (prev : Ref) (next : Option Nat) :
    InlineSkipList α :=
  (s.setNext (.node x) i next).setNext prev i (some x)

/-- The loop of `Insert<false>` over the levels of `x`: a level at or above the recomputed
ones whose splice entries are no longer neighbours is searched again from its `prev_`; at
level 0 a key that compares equal ends the insert with `false`; then `x` is linked in. -/
def insertLevels (k : κ) (x recomputeHeight : Nat) :
    List Nat → InlineSkipList α → Splice → Option (Bool × InlineSkipList α × Splice)
  | [], s, sp => some (true, s, sp)
  | i :: is, s, sp => do
    let sp ← if recomputeHeight ≤ i ∧ s.getNext (sp.prevAt i) i ≠ sp.nextAt i then do
        let (p, n) ← s.findSpliceForLevel key k none i (s.nodes.length + 1) (sp.prevAt i)
        pure (sp.setLevel i p n)
      else pure sp
    if i = 0 ∧ s.isDuplicate key k sp = true then pure (false, s, sp)
    else insertLevels k x recomputeHeight is (s.linkAt x i (sp.prevAt i) (sp.nextAt i)) sp

/-- One level of `Insert<true>`: the duplicate checks at level 0, then `x` takes `next_[i]` and
the compare-and-swap of `prev_[i]`'s link from `next_[i]` to `x`; when it fails, the level is
searched again from `prev_[i]`, and above level 0 the splice is no longer valid.  The flags are
whether the insert goes on and whether the splice is still valid. -/
def casLevel (k : κ) (x i : Nat) :
    Nat → InlineSkipList α → Splice → Bool → Option (Bool × InlineSkipList α × Splice × Bool)
  | 0, _, _, _ => none
  | fuel + 1, s, sp, valid =>
    if i = 0 ∧ s.isDuplicate key k sp = true then some (false, s, sp, valid)
    else
      let s := s.setNext (.node x) i (sp.nextAt i)
      if s.getNext (sp.prevAt i) i = sp.nextAt i then
        some (true, s.setNext (sp.prevAt i) i (some x), sp, valid)
      else do
        let (p, n) ← s.findSpliceForLevel key k none i (s.nodes.length + 1) (sp.prevAt i)
        casLevel k x i fuel s (sp.setLevel i p n) (if 0 < i then false else valid)

/-- The loop of `Insert<true>` over the levels of `x`. -/
def casLevels (k : κ) (x : Nat) :
    List Nat → InlineSkipList α → Splice → Bool → Option (Bool × InlineSkipList α × Splice × Bool)
  | [], s, sp, valid => some (true, s, sp, valid)
  | i :: is, s, sp, valid => do
    let (ok, s, sp, valid) ← casLevel key k x i (s.nodes.length + 1) s sp valid
    if ok then casLevels k x is s sp valid else pure (false, s, sp, valid)

/-- `Insert<UseCAS>(key, splice, allow_partial_splice_fix)` of the node `x`: the returned flag,
the list, and the splice. -/
def insert (useCAS : Bool) (s : InlineSkipList α) (x : Nat) (sp : Splice)
    (allowPartialSpliceFix : Bool) : Option (Bool × InlineSkipList α × Splice) := do
  let k := key (s.node x).key
  let height := (s.node x).next.length
  -- the compare-and-swap loop on `max_height_`, with no other writer
  let maxHeight := max s.maxHeight height
  let s := { s with maxHeight := maxHeight }
  let (recomputeHeight, sp) ← if sp.height < maxHeight then
      -- a splice too short for `max_height_`, reset to the head and null there; an index past
      -- its arrays is undefined behaviour
      if maxHeight < sp.prev.length ∧ maxHeight < sp.next.length then
        pure (maxHeight, sp.resize maxHeight)
      else none
    else do
      let r ← s.validateSplice key k sp maxHeight allowPartialSpliceFix (maxHeight + 1) 0
      pure (r, sp)
  let sp ← if 0 < recomputeHeight then s.recomputeSpliceLevels key k recomputeHeight sp
    else pure sp
  if useCAS then do
    let (ok, s, sp, valid) ← casLevels key k x (List.range height) s sp true
    if ok then pure (true, s, if valid then sp.setPrevs x height else ⟨0, sp.prev, sp.next⟩)
    else pure (false, s, sp)
  else do
    let (ok, s, sp) ← insertLevels key k x recomputeHeight (List.range height) s sp
    if ok then pure (true, s, sp.setPrevs x height) else pure (false, s, sp)

/-- `Insert`: with `seq_splice_`, and no partial fix. -/
def insertSeq (s : InlineSkipList α) (x : Nat) : Option (Bool × InlineSkipList α) := do
  let (ok, s', sp) ← s.insert key false x s.seqSplice false
  pure (ok, { s' with seqSplice := sp })

/-- `InsertWithHint`: the caller's splice, or a new one when the hint is null, with the partial
fix; the splice goes back to the caller as the hint. -/
def insertWithHint (s : InlineSkipList α) (x : Nat) (hint : Option Splice) :
    Option (Bool × InlineSkipList α × Splice) :=
  s.insert key false x (hint.getD (Splice.alloc s.head.length)) true

/-- `InsertWithHintConcurrently`: the caller's splice, or a new one from `AllocateSpliceOnHeap`,
of the same size, when the hint is null, with the partial fix; the splice goes back to the caller
as the hint. -/
def insertWithHintConcurrently (s : InlineSkipList α) (x : Nat) (hint : Option Splice) :
    Option (Bool × InlineSkipList α × Splice) :=
  s.insert key true x (hint.getD (Splice.alloc s.head.length)) true

/-- `InsertConcurrently`: a splice on the stack, with no partial fix. -/
def insertConcurrently (s : InlineSkipList α) (x : Nat) : Option (Bool × InlineSkipList α) := do
  let (ok, s', _) ← s.insert key true x Splice.onStack false
  pure (ok, s')

/-- The loop of `FindGreaterOrEqual`: along a level while the next node is below `k`, down a
level when it is above (remembered as `last_bigger`, which is not compared again), and out at
a node equal to `k` or at level 0. -/
def findGreaterOrEqualLoop (s : InlineSkipList α) (k : κ) :
    Nat → Ref → Nat → Option Nat → Option (Option Nat)
  | 0, _, _, _ => none
  | fuel + 1, x, level, lastBigger =>
    match s.getNext x level with
    | none =>
      if level = 0 then some none else findGreaterOrEqualLoop s k fuel x (level - 1) none
    | some n =>
      if some n = lastBigger then
        if level = 0 then some (some n)
        else findGreaterOrEqualLoop s k fuel x (level - 1) (some n)
      else
        match compare (key (s.node n).key) k with
        | .eq => some (some n)
        | .lt => findGreaterOrEqualLoop s k fuel (.node n) level lastBigger
        | .gt =>
          if level = 0 then some (some n)
          else findGreaterOrEqualLoop s k fuel x (level - 1) (some n)

/-- `FindGreaterOrEqual`: the first node not below `k`, or null. -/
def findGreaterOrEqual (s : InlineSkipList α) (k : κ) : Option (Option Nat) :=
  s.findGreaterOrEqualLoop key k (s.nodes.length + s.maxHeight + 1) .head (s.maxHeight - 1) none

/-- The loop of `FindLessThan` from `head_` to level 0, without the `prev` array: along a level
while the key is after the next node (not `last_not_after`), down a level otherwise. -/
def findLessThanLoop (s : InlineSkipList α) (k : κ) :
    Nat → Ref → Nat → Option Nat → Option Ref
  | 0, _, _, _ => none
  | fuel + 1, x, level, lastNotAfter =>
    match s.getNext x level with
    | some n =>
      if some n ≠ lastNotAfter ∧ s.keyIsAfterNode key k (some n) = true then
        findLessThanLoop s k fuel (.node n) level lastNotAfter
      else if level = 0 then some x
      else findLessThanLoop s k fuel x (level - 1) (some n)
    | none => if level = 0 then some x else findLessThanLoop s k fuel x (level - 1) none

/-- `FindLessThan(key)`: the last node below `k`, or `head_`. -/
def findLessThan (s : InlineSkipList α) (k : κ) : Option Ref :=
  s.findLessThanLoop key k (s.nodes.length + s.maxHeight + 1) .head (s.maxHeight - 1) none

/-- The loop of `FindLast`: along a level to its last node, then down a level, until the last
node of level 0. -/
def findLastLoop (s : InlineSkipList α) : Nat → Ref → Nat → Option Ref
  | 0, _, _ => none
  | fuel + 1, x, level =>
    match s.getNext x level with
    | none => if level = 0 then some x else findLastLoop s fuel x (level - 1)
    | some n => findLastLoop s fuel (.node n) level

/-- `FindLast`: the last node of level 0, or `head_`. -/
def findLast (s : InlineSkipList α) : Option Ref :=
  s.findLastLoop (s.nodes.length + s.maxHeight + 1) .head (s.maxHeight - 1)

/-- `Contains(key)`: `FindGreaterOrEqual` lands on a node whose key compares equal. -/
def contains (s : InlineSkipList α) (k : κ) : Option Bool :=
  (s.findGreaterOrEqual key k).map fun
    | some n => decide (key (s.node n).key = k)
    | none => false

namespace Iterator

/-- `node_` after it is compared with `head_`, as `Prev` and `SeekToLast` do: null for
`head_`. -/
def ofRef : Ref → Option Nat
  | .head => none
  | .node i => some i

/-- `Iterator::Next`, which asserts `Valid()`. -/
def next (s : InlineSkipList α) : Option Nat → Option (Option Nat)
  | none => none
  | some n => some (s.getNext (.node n) 0)

/-- `Iterator::Prev`, which asserts `Valid()`: the last node below the key of `node_`, by
`FindLessThan`. -/
def prev (s : InlineSkipList α) : Option Nat → Option (Option Nat)
  | none => none
  | some n => (s.findLessThan key (key (s.node n).key)).map ofRef

/-- `Iterator::Seek(target)`. -/
def seek (s : InlineSkipList α) (target : α) : Option (Option Nat) :=
  s.findGreaterOrEqual key (key target)

/-- `Iterator::SeekToFirst`. -/
def seekToFirst (s : InlineSkipList α) : Option Nat := s.getNext .head 0

/-- `Iterator::SeekToLast`. -/
def seekToLast (s : InlineSkipList α) : Option (Option Nat) := s.findLast.map ofRef

/-- The loop of `SeekForPrev`: `Prev` while `node_` is valid and `target` is below its key. -/
def prevWhileAfter (s : InlineSkipList α) (target : κ) : Nat → Option Nat → Option (Option Nat)
  | 0, _ => none
  | _ + 1, none => some none
  | fuel + 1, some n =>
    if target < key (s.node n).key then
      (prev key s (some n)).bind (prevWhileAfter s target fuel)
    else some (some n)

/-- `Iterator::SeekForPrev(target)`: `Seek`, `SeekToLast` when that is not valid, then back
while the key is after `target`. -/
def seekForPrev (s : InlineSkipList α) (target : α) : Option (Option Nat) := do
  let node ← seek key s target
  let node ← if node.isSome then pure node else seekToLast s
  prevWhileAfter key s (key target) (s.nodes.length + 1) node

end Iterator

end InlineSkipList

namespace InlineSkipList.Iterator

variable {α : Type} [Inhabited α]

/-- `Iterator::key`, which asserts `Valid()`: the key of `node_`. -/
def key (s : InlineSkipList α) : Option Nat → Option α := Option.map fun i => (s.node i).key

end InlineSkipList.Iterator

end DLSM
