import Mathlib
import DLSM.DB.SkipListRun

/-! The read side of `InlineSkipList` (db/inlineskiplist.h): `FindLast`, `Contains`, and the moves
of `InlineSkipList::Iterator`, which `MemTableIterator` forwards to.  A cursor over a sorted list
says what the moves are for: `Next` and `Prev` go to the neighbours of the current key, `Seek` to
the first element not below its target, `SeekForPrev` to the last not above it.  On a list that
holds its nodes `L`, each move of the iterator is that cursor's move over `L`, whatever searches
from `head_` it makes on the way (`Prev` by `FindLessThan`, `SeekToLast` by `FindLast`, which
follows the links as `FindLessThan` of a key above every key does).  So over every state a run
of inserts reaches, every sequence of moves of a new iterator reads the entries the cursor over
the sorted set reads: a forward scan visits the set in increasing order, a backward scan in
decreasing order, and `Contains` answers membership of the keys inserted. -/

namespace DLSM

namespace InlineSkipList

namespace Iterator

/-- The methods of `Iterator` that set `node_`. -/
inductive Move (α : Type) where
  | next
  | prev
  | seek (target : α)
  | seekForPrev (target : α)
  | seekToFirst
  | seekToLast
  deriving Repr

section Cursor

variable {α β γ κ : Type} [LinearOrder κ] (ek : β → κ) (tk : α → κ)

/-- The cursor over the sorted list `E`, by the keys `ek` of its elements and the keys `tk` of
targets: what a move does to the element `e` it is at.  `Next` and `Prev` need an element. -/
def Move.spec (E : List β) (e : Option β) : Move α → Option (Option β)
  | .next => e.map fun b => SortedList.after ek (ek b) E
  | .prev => e.map fun b => SortedList.before ek (ek b) E
  | .seek target => some (Index.seek ek E (tk target))
  | .seekForPrev target => some (SortedList.atOrBefore ek (tk target) E)
  | .seekToFirst => some E.head?
  | .seekToLast => some E.getLast?

variable {ek tk}

theorem Move.mem_of_spec {E : List β} {e : Option β} {m : Move α} {e' : Option β}
    (h : Move.spec ek tk E e m = some e') : ∀ b, e' = some b → b ∈ E := by
  rintro b rfl
  cases m with
  | next =>
    obtain ⟨a, -, ha⟩ := Option.map_eq_some_iff.1 h
    exact List.mem_of_find?_eq_some ha
  | prev =>
    obtain ⟨a, -, ha⟩ := Option.map_eq_some_iff.1 h
    exact (List.mem_filter.1 (List.mem_of_getLast? ha)).1
  | seek target => exact (Index.mem_of_seek_eq_some (Option.some.inj h)).1
  | seekForPrev target => exact (List.mem_filter.1 (List.mem_of_getLast? (Option.some.inj h))).1
  | seekToFirst => exact List.mem_of_mem_head? (Option.some.inj h)
  | seekToLast => exact List.mem_of_getLast? (Option.some.inj h)

/-- A cursor commutes with a map of its elements that their keys factor through. -/
theorem Move.spec_map (g : γ → κ) (f : β → γ) (E : List β) (e : Option β) (m : Move α) :
    (Move.spec (fun b => g (f b)) tk E e m).map (Option.map f) =
      Move.spec g tk (E.map f) (e.map f) m := by
  cases m with
  | next => cases e <;> simp [Move.spec, SortedList.after_map]
  | prev => cases e <;> simp [Move.spec, SortedList.before_map]
  | seek target => simp [Move.spec, Index.seek, List.find?_map]
  | seekForPrev target => simp [Move.spec, SortedList.atOrBefore_map]
  | seekToFirst => simp [Move.spec]
  | seekToLast => simp [Move.spec, List.getLast?_map]

theorem Move.run_map (g : γ → κ) (f : β → γ) (E : List β) (moves : List (Move α)) (e : Option β) :
    (Run.run (Move.spec (fun b => g (f b)) tk E) e moves).map (Option.map f) =
      Run.run (Move.spec g tk (E.map f)) (e.map f) moves :=
  Run.map_run (Option.map f) (I := fun _ => True) (fun e m _ => Move.spec_map g f E e m)
    (fun _ _ _ _ _ => trivial) moves trivial

/-- A forward scan of a sorted list: from the first element, `i` moves `Next` land on the
element at `i`, and the move past the last element on null. -/
theorem Move.run_seekToFirst_next {E : List β} (hs : SortedList.Sorted ek E) (e : Option β) :
    ∀ i ≤ E.length,
      Run.run (Move.spec ek tk E) e (.seekToFirst :: List.replicate i .next) = some E[i]?
  | 0, _ => by simp [Run.run, Move.spec, List.head?_eq_getElem?]
  | i + 1, hi => by
    have hlt : i < E.length := by omega
    rw [List.replicate_succ', ← List.cons_append, Run.run_append,
      Move.run_seekToFirst_next hs e i hlt.le, List.getElem?_eq_getElem hlt]
    simp [Run.run, Move.spec, hs.after_getElem hlt]

/-- A backward scan of a sorted list: from the last element, `i` moves `Prev` land on the
element at `i` from the end, and the move past the first element on null. -/
theorem Move.run_seekToLast_prev {E : List β} (hs : SortedList.Sorted ek E) (e : Option β) :
    ∀ i ≤ E.length,
      Run.run (Move.spec ek tk E) e (.seekToLast :: List.replicate i .prev) = some E.reverse[i]?
  | 0, _ => by simp [Run.run, Move.spec, ← List.head?_eq_getElem?]
  | i + 1, hi => by
    have hlt : i < E.length := by omega
    have hj : E.length - 1 - i < E.length := by omega
    rw [List.replicate_succ', ← List.cons_append, Run.run_append,
      Move.run_seekToLast_prev hs e i hlt.le, List.getElem?_reverse hlt, List.getElem?_eq_getElem hj]
    -- `Prev` from the element at `j` lands on the last of the `j` before it
    have hprev := hs.before_getElem hj
    rw [List.getLast?_take_eq_getElem?_reverse hj.le, show E.length - (E.length - 1 - i) = i + 1 by omega]
      at hprev
    simp [Run.run, Move.spec, hprev]

end Cursor

end Iterator

variable {α κ : Type} [Inhabited α] [LinearOrder κ] {key : α → κ}

variable (key) in
/-- One move of an iterator at `node_`. -/
def Iterator.move (s : InlineSkipList α) (node : Option Nat) : Iterator.Move α → Option (Option Nat)
  | .next => Iterator.next s node
  | .prev => Iterator.prev key s node
  | .seek target => Iterator.seek key s target
  | .seekForPrev target => Iterator.seekForPrev key s target
  | .seekToFirst => some (Iterator.seekToFirst s)
  | .seekToLast => Iterator.seekToLast s

section Last

variable (key) in
/-- `FindLast` follows the links as `FindLessThan` of a key above every key does: its test
`KeyIsAfterNode` holds of every node, and `last_not_after` stays null. -/
theorem findLastLoop_eq (s : InlineSkipList α) (fuel : Nat) (x : Ref) (level : Nat) :
    s.findLastLoop fuel x level =
      s.findLessThanLoop (fun a => (key a : WithTop κ)) ⊤ fuel x level none := by
  induction fuel generalizing x level with
  | zero => rfl
  | succ fuel ih =>
    simp only [findLastLoop, findLessThanLoop]
    cases s.getNext x level with
    | none => simp only [ih]
    | some n => simp [keyIsAfterNode, ih]

variable {s : InlineSkipList α} {L : List Nat}

theorem Holds.withTop (hL : s.Holds key L) : s.Holds (fun a => (key a : WithTop κ)) L :=
  ⟨List.Pairwise.imp (fun h => WithTop.coe_lt_coe.2 h) hL.sorted, hL.height_pos, hL.height_le,
    hL.maxHeight_pos, hL.maxHeight_le, hL.links⟩

/-- `FindLast` returns the last node of level 0, or `head_`. -/
theorem Holds.findLast_eq (hL : s.Holds key L) : s.findLast = some (L.getLast?.elim .head .node) := by
  -- every key is below the top
  have hall : (L.filter fun i => s.keyOf (fun a => (key a : WithTop κ)) i < ⊤) = L :=
    List.filter_eq_self.2 fun i _ => by simp [keyOf]
  have h := hL.withTop.findLessThan_eq ⊤
  rw [lastBelow, hall] at h
  rw [findLast, findLastLoop_eq key]
  exact h

end Last

section Moves

variable {s : InlineSkipList α} {L : List Nat}

theorem Holds.links_zero (hL : s.Holds key L) : s.Links 0 L := by
  have h := hL.links 0 (lt_of_lt_of_le hL.maxHeight_pos hL.maxHeight_le)
  rwa [hL.levelNodes_zero] at h

theorem Iterator.ofRef_elim (o : Option Nat) : Iterator.ofRef (o.elim .head .node) = o := by
  cases o <;> rfl

theorem Holds.seekToFirst_eq (hL : s.Holds key L) : Iterator.seekToFirst s = L.head? :=
  hL.links_zero.getNext_head

theorem Holds.seekToLast_eq (hL : s.Holds key L) : Iterator.seekToLast s = some L.getLast? := by
  rw [Iterator.seekToLast, hL.findLast_eq, Option.map_some, Iterator.ofRef_elim]

/-- `Next` from a node of level 0 lands on the node after its key. -/
theorem Holds.next_eq (hL : s.Holds key L) {n : Nat} (hn : n ∈ L) :
    Iterator.next s (some n) = some (SortedList.after (s.keyOf key) (s.keyOf key n) L) := by
  obtain ⟨A, B, rfl⟩ := List.append_of_mem hn
  have hs : SortedList.Sorted (s.keyOf key) (A ++ n :: B) := hL.sorted
  rw [Iterator.next, hL.links_zero.getNext_node, hs.after_of_append_cons]

/-- `Prev` from any node lands on the last node of level 0 before its key: the search from
`head_` does not read the node's own links. -/
theorem Holds.prev_eq (hL : s.Holds key L) (n : Nat) :
    Iterator.prev key s (some n) = some (SortedList.before (s.keyOf key) (s.keyOf key n) L) := by
  rw [Iterator.prev, hL.findLessThan_eq, Option.map_some, lastBelow, Iterator.ofRef_elim]
  rfl

theorem Holds.seek_eq (hL : s.Holds key L) (target : α) :
    Iterator.seek key s target = some (Index.seek (s.keyOf key) L (key target)) :=
  hL.findGreaterOrEqual_eq (key target)

/-- The loop of `SeekForPrev` stops at null and at a node not after the target. -/
theorem Iterator.prevWhileAfter_stop {target : κ} (fuel : Nat) {o : Option Nat}
    (h : ∀ n, o = some n → ¬ target < s.keyOf key n) :
    Iterator.prevWhileAfter key s target (fuel + 1) o = some o := by
  cases o with
  | none => rfl
  | some n => exact if_neg (h n rfl)

/-- `SeekForPrev` lands on the last node of level 0 not after the target: `Seek` lands on the
first node not before it, and one `Prev` at most moves back past a node after it. -/
theorem Holds.seekForPrev_eq (hL : s.Holds key L) (target : α) :
    Iterator.seekForPrev key s target =
      some (SortedList.atOrBefore (s.keyOf key) (key target) L) := by
  have hs : SortedList.Sorted (s.keyOf key) L := hL.sorted
  simp only [Iterator.seekForPrev, hL.seek_eq, Option.pure_def, Option.bind_eq_bind, Option.bind_some]
  cases hseek : Index.seek (s.keyOf key) L (key target) with
  | none =>
    -- every key is below the target: from the last node the loop does not move
    have hlt : ∀ i ∈ L, s.keyOf key i < key target := fun i hi => by
      simpa using List.find?_eq_none.1 hseek i hi
    simp only [Option.isSome_none, Bool.false_eq_true, if_false, hL.seekToLast_eq, Option.bind_some]
    rw [SortedList.atOrBefore_of_forall_lt hlt]
    exact Iterator.prevWhileAfter_stop _ fun i hi => not_lt.2 (hlt i (List.mem_of_getLast? hi)).le
  | some n =>
    obtain ⟨hkn, A, B, rfl, hA⟩ := List.find?_eq_some_iff_append.1 hseek
    have hA' : ∀ a ∈ A, s.keyOf key a < key target := fun a ha => by simpa using hA a ha
    have hkn' : key target ≤ s.keyOf key n := by simpa using hkn
    simp only [Option.isSome_some, if_true]
    by_cases hlt : key target < s.keyOf key n
    · -- `node_` is after the target: `Prev` lands on the node before it, which is not
      obtain ⟨m, hm⟩ : ∃ m, s.nodes.length = m + 1 :=
        Nat.exists_eq_add_one.2 (lt_of_lt_of_le (by simp) hL.length_le)
      rw [hs.atOrBefore_of_lt hA' hlt, hm, Iterator.prevWhileAfter,
        if_pos (show key target < key (s.node n).key from hlt), hL.prev_eq,
        hs.before_of_append_cons, Option.bind_some]
      exact Iterator.prevWhileAfter_stop _ fun a ha => not_lt.2 (hA' a (List.mem_of_getLast? ha)).le
    · -- `node_` has the target's key
      have heq : s.keyOf key n = key target := le_antisymm (not_lt.1 hlt) hkn'
      have hat := hs.atOrBefore_of_append_cons
      rw [heq] at hat
      rw [hat]
      exact Iterator.prevWhileAfter_stop _ fun i hi => by cases hi; exact hlt

/-- On a list that holds `L`, a move from a node of `L` or from null is the cursor's move over
`L` by the keys of its nodes. -/
theorem Holds.move_eq (hL : s.Holds key L) {node : Option Nat} (hnode : OnLink L node)
    (m : Iterator.Move α) :
    Iterator.move key s node m = Iterator.Move.spec (s.keyOf key) key L node m := by
  cases m with
  | next =>
    cases node with
    | none => rfl
    | some n => exact hL.next_eq hnode
  | prev =>
    cases node with
    | none => rfl
    | some n => exact hL.prev_eq n
  | seek target => exact hL.seek_eq target
  | seekForPrev target => exact hL.seekForPrev_eq target
  | seekToFirst => exact congrArg some hL.seekToFirst_eq
  | seekToLast => exact hL.seekToLast_eq

theorem onLink_of_mem {L : List Nat} {o : Option Nat} (h : ∀ n, o = some n → n ∈ L) : OnLink L o := by
  cases o with
  | none => trivial
  | some n => exact h n rfl

/-- The run lemma of the iterator: on a list that holds `L`, the moves from a node of `L` or
from null land, one after another, where the cursor's moves over `L` land. -/
theorem Holds.run_move (hL : s.Holds key L) (moves : List (Iterator.Move α)) {node : Option Nat}
    (hnode : OnLink L node) :
    Run.run (Iterator.move key s) node moves =
      Run.run (Iterator.Move.spec (s.keyOf key) key L) node moves := by
  have h : (Run.run (Iterator.move key s) node moves).map id =
      Run.run (Iterator.Move.spec (s.keyOf key) key L) (id node) moves :=
    Run.map_run id (I := OnLink L) (fun node m hnode => by rw [Option.map_id, hL.move_eq hnode]; rfl)
      (fun node m node' hnode hm =>
        onLink_of_mem (Iterator.Move.mem_of_spec ((hL.move_eq hnode m).symm.trans hm)))
      moves hnode
  rwa [Option.map_id] at h

/-- `Contains(k)` tells whether a node of level 0 has the key `k`. -/
theorem Holds.contains_eq (hL : s.Holds key L) (k : κ) :
    s.contains key k = some (decide (∃ n ∈ L, s.keyOf key n = k)) := by
  rw [contains, hL.findGreaterOrEqual_eq, Option.map_some]
  congr 1
  cases hf : s.firstAtOrAbove key L k with
  | none =>
    -- every key is below `k`
    have hlt : ∀ i ∈ L, s.keyOf key i < k := fun i hi => by
      simpa using List.find?_eq_none.1 hf i hi
    exact (decide_eq_false fun ⟨n, hn, hnk⟩ => (hlt n hn).ne hnk).symm
  | some n =>
    have hn : n ∈ L := List.mem_of_find?_eq_some hf
    refine decide_eq_decide.2 ⟨fun h => ⟨n, hn, h⟩, fun ⟨m, hm, hmk⟩ => ?_⟩
    -- a node with the key is the first node not below it
    have hfirst := hL.sorted.firstAtOrAbove_of_mem hm hmk
    rw [hf, Option.some.injEq] at hfirst
    rw [hfirst]
    exact hmk

/-- The iterator's run read through `key()`: the cursor's run over the keys of `L`. -/
theorem Holds.run_move_key (hL : s.Holds key L) (moves : List (Iterator.Move α)) :
    (Run.run (Iterator.move key s) none moves).map (Iterator.key s) =
      Run.run (Iterator.Move.spec key key (L.map fun i => (s.node i).key)) none moves := by
  rw [hL.run_move moves (show OnLink L none from trivial)]
  exact Iterator.Move.run_map key (fun i => (s.node i).key) L moves none

end Moves

section Reachable

variable {w : Writers α} {kMaxHeight : Nat}

/-- The iterator of every state a run of inserts reaches from the constructor refines the cursor
over the sorted set the list holds: from a new iterator, whose `node_` is null, every sequence of
moves lands, move by move, on the keys the cursor over the keys along level 0 lands on, and
fails an assertion exactly where the cursor has no key to move from. -/
theorem Writers.iterator_of_reachable (h0 : 0 < kMaxHeight)
    (hr : Run.Reachable (Writers.step key) (Writers.init kMaxHeight) w) :
    ∃ E, w.list.keys = some E ∧ SortedList.Sorted key E ∧
      ∀ moves : List (Iterator.Move α),
        (Run.run (Iterator.move key w.list) none moves).map (Iterator.key w.list) =
          Run.run (Iterator.Move.spec key key E) none moves := by
  obtain ⟨L, hw, -⟩ := Writers.Ok.of_reachable h0 hr
  exact ⟨_, hw.holds.keys_eq, hw.holds.sorted_map_key, hw.holds.run_move_key⟩

theorem iterator_of_reachable_two_calls :
    ∃ w, Run.run (Writers.step id) (Writers.init 4)
        [⟨3, 2, .insert⟩, ⟨1, 4, .insertConcurrently⟩] = some w ∧
      ∃ E, w.list.keys = some E ∧ SortedList.Sorted id E ∧
        ∀ moves : List (Iterator.Move Nat),
          (Run.run (Iterator.move id w.list) none moves).map (Iterator.key w.list) =
            Run.run (Iterator.Move.spec id id E) none moves := by
  obtain ⟨w, L, hrun, -⟩ := (Writers.ok_init (by decide) : (Writers.init 4 : Writers Nat).Ok id []).run
    [⟨3, 2, .insert⟩, ⟨1, 4, .insertConcurrently⟩] (by decide)
  exact ⟨w, hrun, Writers.iterator_of_reachable (by decide) ⟨_, hrun⟩⟩

/-- Every state a run of inserts reaches from the constructor: a new iterator's scan from
`SeekToFirst` by `Next` reads the keys along level 0 in increasing order, the `Next` after the
last one landing on null, and its scan from `SeekToLast` by `Prev`, each a search from `head_`,
reads them in decreasing order, the `Prev` after the first one landing on null. -/
theorem Writers.scan_of_reachable (h0 : 0 < kMaxHeight)
    (hr : Run.Reachable (Writers.step key) (Writers.init kMaxHeight) w) :
    ∃ E, w.list.keys = some E ∧ SortedList.Sorted key E ∧ ∀ i ≤ E.length,
      (Run.run (Iterator.move key w.list) none (.seekToFirst :: List.replicate i .next)).map
          (Iterator.key w.list) = some E[i]? ∧
        (Run.run (Iterator.move key w.list) none (.seekToLast :: List.replicate i .prev)).map
          (Iterator.key w.list) = some E.reverse[i]? := by
  obtain ⟨L, hw, -⟩ := Writers.Ok.of_reachable h0 hr
  have hs := hw.holds.sorted_map_key
  refine ⟨_, hw.holds.keys_eq, hs, fun i hi => ⟨?_, ?_⟩⟩
  · rw [hw.holds.run_move_key]
    exact Iterator.Move.run_seekToFirst_next hs none i hi
  · rw [hw.holds.run_move_key]
    exact Iterator.Move.run_seekToLast_prev hs none i hi

theorem scan_of_reachable_three_calls :
    ∃ w, Run.run (Writers.step id) (Writers.init 4)
        [⟨3, 2, .insert⟩, ⟨1, 4, .insertConcurrently⟩, ⟨2, 1, .insertWithHint 0⟩] = some w ∧
      ∃ E, w.list.keys = some E ∧ SortedList.Sorted id E ∧ ∀ i ≤ E.length,
        (Run.run (Iterator.move id w.list) none (.seekToFirst :: List.replicate i .next)).map
            (Iterator.key w.list) = some E[i]? ∧
          (Run.run (Iterator.move id w.list) none (.seekToLast :: List.replicate i .prev)).map
            (Iterator.key w.list) = some E.reverse[i]? := by
  obtain ⟨w, L, hrun, -⟩ := (Writers.ok_init (by decide) : (Writers.init 4 : Writers Nat).Ok id []).run
    [⟨3, 2, .insert⟩, ⟨1, 4, .insertConcurrently⟩, ⟨2, 1, .insertWithHint 0⟩] (by decide)
  exact ⟨w, hrun, Writers.scan_of_reachable (by decide) ⟨_, hrun⟩⟩

/-- Inserts and `Contains` round trip: every run of calls the list takes from the constructor
returns from each call, and after it `Contains(k)` is true exactly when some call's key compares
equal to `k`. -/
theorem Writers.contains_run (key : α → κ) (h0 : 0 < kMaxHeight) (calls : List (Call α))
    (hfit : ∀ c ∈ calls, c.Fits kMaxHeight) :
    ∃ w, Run.run (Writers.step key) (Writers.init kMaxHeight) calls = some w ∧
      ∀ k, w.list.contains key k = some (decide (∃ c ∈ calls, key c.key = k)) := by
  have hlen : (Writers.init kMaxHeight : Writers α).list.head.length = kMaxHeight := by
    simp [Writers.init, new]
  obtain ⟨w, L, hrun, hw, hkeys⟩ :=
    (Writers.ok_init h0 : (Writers.init kMaxHeight : Writers α).Ok key []).run calls fun c hc => by
      rw [hlen]
      exact hfit c hc
  have hkeys' : L.map (fun i => (w.list.node i).key) =
      calls.foldl (fun A c => SortedList.insert key c.key A) [] := hkeys
  refine ⟨w, hrun, fun k => ?_⟩
  rw [hw.holds.contains_eq, Option.some.injEq, decide_eq_decide]
  -- a node has the key exactly when an inserted key is it
  have h : (∃ a ∈ calls.foldl (fun A c => SortedList.insert key c.key A) [], key a = k) ↔ _ :=
    SortedList.exists_key_mem_foldl_insert Call.key calls []
  rw [← hkeys'] at h
  simpa [keyOf] using h

theorem contains_run_three_calls :
    ∃ w, Run.run (Writers.step id) (Writers.init 4)
        [⟨3, 2, .insert⟩, ⟨1, 1, .insertWithHint 0⟩, ⟨2, 3, .insertConcurrently⟩] = some w ∧
      w.list.contains id 2 = some true ∧ w.list.contains id 5 = some false := by
  obtain ⟨w, hrun, hc⟩ := Writers.contains_run id (by decide : 0 < 4)
    [⟨3, 2, .insert⟩, ⟨1, 1, .insertWithHint 0⟩, ⟨2, 3, .insertConcurrently⟩] (by decide)
  exact ⟨w, hrun, (hc 2).trans (by decide), (hc 5).trans (by decide)⟩

end Reachable

end InlineSkipList

end DLSM
