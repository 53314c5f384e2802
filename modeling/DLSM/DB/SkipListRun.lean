import Mathlib
import DLSM.DB.SkipListInsert
import DLSM.DB.MemTableCoding
import DLSM.Lib.Run

/-! Runs of inserts on an `InlineSkipList` (db/inlineskiplist.h), as its writers make them: each
call is `AllocateKey` of a key at the height `RandomHeight` drew, then `Insert` with
`seq_splice_`, `InsertWithHint` or `InsertWithHintConcurrently` with one of the callers' hints,
or `InsertConcurrently` with a splice on the stack.  The concurrent forms run here with no other
writer, so each compare-and-swap sees the links it read.

Over every run from the constructor, the list is the sorted set of the calls' keys that keeps
the first of equal keys: the keys along level 0 are those `SortedList.insert` of each call's key
in turn leaves, each level lists the nodes of level 0 taller than it, a call returns `false`
exactly when its key compares equal to one along level 0 and then changes no level, and
`FindGreaterOrEqual` and `FindLessThan` find the first node not below and the last node below a
key.  `InsertConcurrently` fails only by writing past its splice on the stack, once
`max_height_` reaches `kMaxPossibleHeight`.  The memtable's skip list, which `MemTable::Add` fills
by `InsertConcurrently`, is so the sorted table of entries that the memtable's model reads. -/

namespace DLSM

namespace InlineSkipList

open LinkedList

/-- Which insert a call makes, with the number of the caller's hint where it takes one. -/
inductive Via where
  | insert
  | insertWithHint (hint : Nat)
  | insertConcurrently
  | insertWithHintConcurrently (hint : Nat)
  deriving DecidableEq, Repr

/-- A writer's call: the key, the height `RandomHeight` drew for its node, and the insert. -/
structure Call (α : Type) where
  key : α
  height : Nat
  via : Via
  deriving DecidableEq, Repr

/-- The list and its writers' hints: the `void*` each caller keeps, by number, null until an
insert with it allocates a splice. -/
structure Writers (α : Type) where
  list : InlineSkipList α
  hints : Nat → Option Splice

/-- A call the list takes: a height from 1 to `kMaxHeight_`, as `RandomHeight` draws it and
`Insert` asserts, and for `InsertConcurrently` a list of fewer than `kMaxPossibleHeight` levels,
so that its splice on the stack has an entry at every `max_height_` the list can reach. -/
def Call.Fits {α : Type} (kMaxHeight : Nat) (c : Call α) : Prop :=
  0 < c.height ∧ c.height ≤ kMaxHeight ∧
    (c.via = .insertConcurrently → kMaxHeight < kMaxPossibleHeight)

instance {α : Type} (kMaxHeight : Nat) (c : Call α) : Decidable (c.Fits kMaxHeight) :=
  inferInstanceAs (Decidable (_ ∧ _ ∧ _))

variable {α κ : Type} [Inhabited α] [LinearOrder κ] (key : α → κ)

namespace Writers

/-- The insert of a call, on the list `s` to which `AllocateKey` added the node `x`: what it
returns, and the list and the hints after it. -/
def insertVia (w : Writers α) (s : InlineSkipList α) (x : Nat) : Via → Option (Bool × Writers α)
  | .insert => (s.insertSeq key x).map fun r => (r.1, ⟨r.2, w.hints⟩)
  | .insertWithHint i => (s.insertWithHint key x (w.hints i)).map fun r =>
      (r.1, ⟨r.2.1, Function.update w.hints i (some r.2.2)⟩)
  | .insertConcurrently => (s.insertConcurrently key x).map fun r => (r.1, ⟨r.2, w.hints⟩)
  | .insertWithHintConcurrently i => (s.insertWithHintConcurrently key x (w.hints i)).map fun r =>
      (r.1, ⟨r.2.1, Function.update w.hints i (some r.2.2)⟩)

/-- A call: `AllocateKey` of its key at its height, then its insert, which asserts a height from
1 to `kMaxHeight_`. -/
def call (w : Writers α) (c : Call α) : Option (Bool × Writers α) :=
  if 0 < c.height ∧ c.height ≤ w.list.head.length then
    w.insertVia key (w.list.allocateKey c.key c.height).1 (w.list.allocateKey c.key c.height).2
      c.via
  else none

/-- A step of a run: a call, for the state after it. -/
def step (w : Writers α) (c : Call α) : Option (Writers α) := (w.call key c).map Prod.snd

/-- The constructor's list of `kMaxHeight` levels, and no hints. -/
def init (kMaxHeight : Nat) : Writers α := ⟨new kMaxHeight, fun _ => none⟩

end Writers

/-- The keys along level 0, from `head_` by the links, as an iterator reads them. -/
def keys (s : InlineSkipList α) : Option (List α) :=
  (s.levelList 0).map (List.map fun i => (s.node i).key)

section Contents

variable {key} {s s' : InlineSkipList α} {L L' : List Nat}

theorem holds_new {kMaxHeight : Nat} (h0 : 0 < kMaxHeight) :
    (new kMaxHeight : InlineSkipList α).Holds key [] where
  sorted := List.Pairwise.nil
  height_pos _ h := absurd h List.not_mem_nil
  height_le _ h := absurd h List.not_mem_nil
  maxHeight_pos := Nat.one_pos
  maxHeight_le := by simp only [new, List.length_replicate]; omega
  links l hl := Seg.cons_iff.mpr ⟨rfl, Seg.nil_iff.mpr (by simp [nextRef, getNext, new])⟩

theorem Holds.levelList_eq (hL : s.Holds key L) {l : Nat} (hl : l < s.head.length) :
    s.levelList l = some (s.levelNodes L l) :=
  (hL.links l hl).levelList_eq ((List.length_filter_le _ _).trans hL.length_le)

/-- Level 0 of a list that holds `L` reads `L`. -/
theorem Holds.keys_eq (hL : s.Holds key L) : s.keys = some (L.map fun i => (s.node i).key) := by
  have h0 : 0 < s.head.length := lt_of_lt_of_le hL.maxHeight_pos hL.maxHeight_le
  rw [keys, hL.levelList_eq h0, hL.levelNodes_zero]
  rfl

/-- The keys of the nodes a list holds, in order, are strictly increasing. -/
theorem Holds.sorted_map_key (hL : s.Holds key L) :
    SortedList.Sorted key (L.map fun i => (s.node i).key) :=
  List.pairwise_map.2 hL.sorted

/-- `FindGreaterOrEqual` on a list that holds `L` lands on the node of the first key of `L` not
below `k`. -/
theorem Holds.findGreaterOrEqual_key (hL : s.Holds key L) (k : κ) :
    (s.findGreaterOrEqual key k).map (Option.map fun i => (s.node i).key) =
      some ((L.map fun i => (s.node i).key).find? fun b => k ≤ key b) := by
  rw [hL.findGreaterOrEqual_eq, Option.map_some, List.find?_map]
  rfl

/-- The heights of the nodes of `L` are kept, so is each level's list of them. -/
theorem Extends.levelNodes_eq {L'' : List Nat} (he : Extends s L s' L'') (l : Nat) :
    s'.levelNodes L l = s.levelNodes L l :=
  List.filter_congr fun i hi => by rw [he.height_eq i hi]

variable {a : α} {x : Nat} {ok : Bool}

/-- An insert does to the keys of the list what `SortedList.insert` does: it adds a new key at
its place in order, and leaves the set as it is under a key it has. -/
theorem Inserted.map_key (h : s.Inserted key L a x ok s' L') (hL : s.Holds key L) :
    L'.map (fun i => (s'.node i).key) = SortedList.insert key a (L.map fun i => (s.node i).key) := by
  have hmap : L.map (fun i => (s'.node i).key) = L.map (fun i => (s.node i).key) :=
    List.map_congr_left fun i hi => h.ext.key_eq i hi
  rw [h.nodes_eq]
  cases ok with
  | false =>
    obtain ⟨n, hn, hnk⟩ := h.ok_iff.1 rfl
    rw [if_neg Bool.false_ne_true, hmap, SortedList.insert_of_exists_key_eq hL.sorted_map_key
      ⟨_, List.mem_map_of_mem hn, hnk⟩]
  | true =>
    rw [if_pos rfl, show s'.keyOf key = fun i => key (s'.node i).key from rfl,
      SortedList.map_insert, h.key_x, hmap]

/-- An insert reports `false` exactly for a key comparing equal to one of the list's keys. -/
theorem Inserted.ok_iff_key (h : s.Inserted key L a x ok s' L') :
    ok = false ↔ ∃ b ∈ L.map (fun i => (s.node i).key), key b = key a := by
  rw [h.ok_iff]
  constructor
  · rintro ⟨n, hn, hnk⟩
    exact ⟨_, List.mem_map_of_mem hn, hnk⟩
  · rintro ⟨b, hb, hbk⟩
    obtain ⟨n, hn, rfl⟩ := List.mem_map.1 hb
    exact ⟨n, hn, hbk⟩

/-- An insert that reports `false` changes no level of the list. -/
theorem Inserted.levelList_eq_of_false (h : s.Inserted key L a x false s' L') (hL : s.Holds key L)
    {l : Nat} (hl : l < s.head.length) : s'.levelList l = s.levelList l := by
  have hL' : L' = L := by rw [h.nodes_eq, if_neg Bool.false_ne_true]
  subst hL'
  rw [h.holds.levelList_eq (h.ext.head_length ▸ hl), hL.levelList_eq hl, h.ext.levelNodes_eq]

end Contents

section SeqSplice

variable {key} {s s₀ : InlineSkipList α} {L L' : List Nat} {sp : Splice}

/-! `Insert` writes `seq_splice_` after its links, and nothing the invariant reads depends on
it. -/

theorem Holds.setSeqSplice (hL : s.Holds key L) (sp' : Splice) :
    ({ s with seqSplice := sp' } : InlineSkipList α).Holds key L :=
  ⟨hL.sorted, hL.height_pos, hL.height_le, hL.maxHeight_pos, hL.maxHeight_le, hL.links⟩

theorem SpliceOk.setSeqSplice (hok : s.SpliceOk key L sp) (sp' : Splice) :
    ({ s with seqSplice := sp' } : InlineSkipList α).SpliceOk key L sp :=
  ⟨hok.prev_length, hok.next_length, hok.height_le, hok.prev_top, hok.next_top, hok.prev_on,
    hok.next_on, hok.nests⟩

theorem HintOk.setSeqSplice (hok : s.HintOk key L sp) (sp' : Splice) :
    ({ s with seqSplice := sp' } : InlineSkipList α).HintOk key L sp :=
  ⟨hok.prev_length, hok.next_length, hok.fresh_or_ok.imp id (·.setSeqSplice sp')⟩

theorem Inserted.setSeqSplice {a : α} {x : Nat} {ok : Bool} (h : s₀.Inserted key L a x ok s L')
    (sp' : Splice) : s₀.Inserted key L a x ok { s with seqSplice := sp' } L' :=
  ⟨h.ok_iff, h.nodes_eq, h.holds.setSeqSplice sp',
    ⟨h.ext.head_length, h.ext.maxHeight_le, h.ext.key_eq, h.ext.height_eq, h.ext.subset⟩, h.key_x⟩

end SeqSplice

section Calls

variable {key} {w w' : Writers α} {L : List Nat} {c : Call α} {ok : Bool}

variable (key) in
/-- What every state of a run keeps: the list holds the nodes `L`, and `seq_splice_` and every
hint are splices an insert may be given. -/
structure Writers.Ok (w : Writers α) (L : List Nat) : Prop where
  holds : w.list.Holds key L
  seq : w.list.HintOk key L w.list.seqSplice
  hints : ∀ i sp, w.hints i = some sp → w.list.HintOk key L sp

theorem Writers.ok_init {kMaxHeight : Nat} (h0 : 0 < kMaxHeight) :
    (Writers.init kMaxHeight : Writers α).Ok key [] :=
  ⟨holds_new h0, by simpa [Writers.init, new] using (hintOk_alloc :
      (new kMaxHeight : InlineSkipList α).HintOk key [] (Splice.alloc (new kMaxHeight).head.length)),
    fun _ _ h => absurd h (by simp [Writers.init])⟩

/-- The splice `InsertWithHint` and `InsertWithHintConcurrently` take from a hint: the hint's
own, or a new one. -/
theorem Writers.Ok.hint (hw : w.Ok key L) (i : Nat) :
    w.list.HintOk key L ((w.hints i).getD (Splice.alloc w.list.head.length)) := by
  cases hi : w.hints i with
  | none => exact hintOk_alloc
  | some sp => exact hw.hints i sp hi

/-- The hints after an insert that wrote the splice `sp'` back to hint `i`: that one and the
others may be given. -/
theorem hints_update {P : Splice → Prop} {hints : Nat → Option Splice} {i : Nat} {sp' : Splice}
    (hsp : P sp') (hrest : ∀ j sp, hints j = some sp → P sp) :
    ∀ j sp, Function.update hints i (some sp') j = some sp → P sp := by
  intro j sp hj
  by_cases hji : j = i
  · subst hji
    rw [Function.update_self, Option.some.injEq] at hj
    exact hj ▸ hsp
  · rw [Function.update_of_ne hji] at hj
    exact hrest j sp hj

/-- A call from a state that keeps the invariant, with a height the list takes and, for
`InsertConcurrently`, a raised `max_height_` below `kMaxPossibleHeight`: it returns as `Inserted`
says, and the state after it keeps the invariant. -/
theorem Writers.Ok.call_spec (hw : w.Ok key L) (hh : 0 < c.height)
    (hhl : c.height ≤ w.list.head.length)
    (hstack : c.via = .insertConcurrently → max w.list.maxHeight c.height < kMaxPossibleHeight) :
    ∃ ok w' L', w.call key c = some (ok, w') ∧
      w.list.Inserted key L c.key w.list.nodes.length ok w'.list L' ∧ w'.Ok key L' := by
  rw [Writers.call, if_pos ⟨hh, hhl⟩, snd_allocateKey]
  -- the splices an insert did not use are still ones it may be given
  have hkeep : ∀ {s' : InlineSkipList α} {L' : List Nat}, Extends w.list L s' L' →
      ∀ j sp, w.hints j = some sp → s'.HintOk key L' sp :=
    fun he j sp hj => (hw.hints j sp hj).extend he
  cases hvia : c.via with
  | insert =>
    obtain ⟨ok, s', sp', hins, hI, hhint, -⟩ :=
      hw.holds.insert_spec (a := c.key) hw.seq hh hhl false false
    refine ⟨ok, ⟨{ s' with seqSplice := sp' }, w.hints⟩, _, ?_, hI.setSeqSplice sp',
      hI.holds.setSeqSplice sp', hhint.setSeqSplice sp',
      fun j sp hj => (hkeep hI.ext j sp hj).setSeqSplice sp'⟩
    simp [Writers.insertVia, insertSeq, hins]
  | insertWithHint i =>
    obtain ⟨ok, s', sp', hins, hI, hhint, hseq⟩ :=
      hw.holds.insert_spec (a := c.key) (hw.hint i) hh hhl false true
    refine ⟨ok, ⟨s', Function.update w.hints i (some sp')⟩, _, ?_, hI, hI.holds, ?_,
      hints_update hhint (hkeep hI.ext)⟩
    · simp [Writers.insertVia, insertWithHint, hins]
    · dsimp only
      rw [hseq]
      exact hw.seq.extend hI.ext
  | insertConcurrently =>
    obtain ⟨ok, s', hins, hI, hseq⟩ :=
      hw.holds.insertConcurrently_spec (a := c.key) hh hhl (hstack hvia)
    refine ⟨ok, ⟨s', w.hints⟩, _, ?_, hI, hI.holds, ?_, hkeep hI.ext⟩
    · simp [Writers.insertVia, hins]
    · dsimp only
      rw [hseq]
      exact hw.seq.extend hI.ext
  | insertWithHintConcurrently i =>
    obtain ⟨ok, s', sp', hins, hI, hhint, hseq⟩ :=
      hw.holds.insert_spec (a := c.key) (hw.hint i) hh hhl true true
    refine ⟨ok, ⟨s', Function.update w.hints i (some sp')⟩, _, ?_, hI, hI.holds, ?_,
      hints_update hhint (hkeep hI.ext)⟩
    · simp [Writers.insertVia, insertWithHintConcurrently, hins]
    · dsimp only
      rw [hseq]
      exact hw.seq.extend hI.ext

/-- `InsertConcurrently` from a list whose raised `max_height_` reaches `kMaxPossibleHeight`
returns nothing: its splice on the stack overruns. -/
theorem Writers.call_eq_none_of_stack (hh : 0 < c.height) (hhl : c.height ≤ w.list.head.length)
    (hvia : c.via = .insertConcurrently)
    (hge : kMaxPossibleHeight ≤ max w.list.maxHeight c.height) : w.call key c = none := by
  rw [Writers.call, if_pos ⟨hh, hhl⟩, snd_allocateKey, hvia]
  simp [Writers.insertVia, insertConcurrently_allocateKey_eq_none hge]

/-- Every call that returns, from a state that keeps the invariant, returns as `Inserted` says,
and the state after it keeps the invariant. -/
theorem Writers.Ok.call_some (hw : w.Ok key L) (hc : w.call key c = some (ok, w')) :
    ∃ L', w.list.Inserted key L c.key w.list.nodes.length ok w'.list L' ∧ w'.Ok key L' := by
  by_cases hg : 0 < c.height ∧ c.height ≤ w.list.head.length
  · by_cases hs : c.via = .insertConcurrently → max w.list.maxHeight c.height < kMaxPossibleHeight
    · obtain ⟨ok', w'', L', hc', hI, hw'⟩ := hw.call_spec hg.1 hg.2 hs
      rw [hc', Option.some.injEq, Prod.mk.injEq] at hc
      obtain ⟨rfl, rfl⟩ := hc
      exact ⟨L', hI, hw'⟩
    · obtain ⟨hvia, hge⟩ := Classical.not_imp.1 hs
      rw [Writers.call_eq_none_of_stack hg.1 hg.2 hvia (not_lt.1 hge)] at hc
      cases hc
  · rw [Writers.call, if_neg hg] at hc
    cases hc

/-- A call the list takes: on a list of fewer than `kMaxPossibleHeight` levels, `max_height_`
raised to its height stays below `kMaxPossibleHeight`, so it returns as `Inserted` says. -/
theorem Writers.Ok.call_of_fits (hw : w.Ok key L) (hfit : c.Fits w.list.head.length) :
    ∃ ok w' L', w.call key c = some (ok, w') ∧
      w.list.Inserted key L c.key w.list.nodes.length ok w'.list L' ∧ w'.Ok key L' := by
  obtain ⟨hh, hhl, hstack⟩ := hfit
  exact hw.call_spec hh hhl fun hv =>
    max_lt (lt_of_le_of_lt hw.holds.maxHeight_le (hstack hv)) (lt_of_le_of_lt hhl (hstack hv))

/-- The invariant holds of every state a run reaches from the constructor, and the list keeps
its `kMaxHeight` levels. -/
theorem Writers.Ok.of_reachable {kMaxHeight : Nat} (h0 : 0 < kMaxHeight)
    (hr : Run.Reachable (Writers.step key) (Writers.init kMaxHeight) w) :
    ∃ L, w.Ok key L ∧ w.list.head.length = kMaxHeight := by
  refine hr.invariant (I := fun w => ∃ L, w.Ok key L ∧ w.list.head.length = kMaxHeight)
    ⟨[], Writers.ok_init h0, by simp [Writers.init, new]⟩ ?_
  rintro w c w' ⟨L, hw, hlen⟩ hstep
  obtain ⟨⟨ok, w''⟩, hc, rfl⟩ := Option.map_eq_some_iff.1 hstep
  obtain ⟨L', hI, hw'⟩ := hw.call_some hc
  exact ⟨L', hw', hI.ext.head_length.trans hlen⟩

/-- The run lemma: from a state that keeps the invariant, calls the list takes all return, and
the keys of the nodes the list holds after them are those `SortedList.insert` of each call's
key in turn leaves. -/
theorem Writers.Ok.run (hw : w.Ok key L) (calls : List (Call α))
    (hfit : ∀ c ∈ calls, c.Fits w.list.head.length) :
    ∃ w' L', Run.run (Writers.step key) w calls = some w' ∧ w'.Ok key L' ∧
      L'.map (fun i => (w'.list.node i).key) =
        calls.foldl (fun A c => SortedList.insert key c.key A) (L.map fun i => (w.list.node i).key) := by
  induction calls generalizing w L with
  | nil => exact ⟨w, L, rfl, hw, rfl⟩
  | cons c cs ih =>
    obtain ⟨ok, w₁, L₁, hc, hI, hw₁⟩ := hw.call_of_fits (hfit c List.mem_cons_self)
    have hlen : w₁.list.head.length = w.list.head.length := hI.ext.head_length
    obtain ⟨w', L', hrun, hw', hkeys⟩ := ih hw₁ fun c' hc' => by
      rw [hlen]
      exact hfit c' (List.mem_cons_of_mem c hc')
    refine ⟨w', L', ?_, hw', ?_⟩
    · simp [Run.run, Writers.step, hc, hrun]
    · rw [hkeys, List.foldl_cons, hI.map_key hw.holds]

end Calls

section Runs

variable {key} {w : Writers α} {c : Call α} {kMaxHeight : Nat}

/-- Every run of calls the list takes, from the constructor of a list of `kMaxHeight` levels,
returns from every call, and leaves along level 0 the keys of the calls in increasing order, the
first of each set of keys comparing equal: the sorted set that `SortedList.insert` of each call's
key in turn builds. -/
theorem Writers.run_keys (key : α → κ) (h0 : 0 < kMaxHeight) (calls : List (Call α))
    (hfit : ∀ c ∈ calls, c.Fits kMaxHeight) :
    ∃ w, Run.run (Writers.step key) (Writers.init kMaxHeight) calls = some w ∧
      w.list.keys = some (calls.foldl (fun A c => SortedList.insert key c.key A) []) := by
  have hlen : (Writers.init kMaxHeight : Writers α).list.head.length = kMaxHeight := by
    simp [Writers.init, new]
  obtain ⟨w, L, hrun, hw, hkeys⟩ :=
    (Writers.ok_init h0 : (Writers.init kMaxHeight : Writers α).Ok key []).run calls fun c hc => by
      rw [hlen]
      exact hfit c hc
  exact ⟨w, hrun, by rw [hw.holds.keys_eq, hkeys]; rfl⟩

/-- One call of each insert, the third under a key the list has. -/
theorem run_keys_four_calls :
    ∃ w, Run.run (Writers.step id) (Writers.init 4)
        [⟨3, 2, .insert⟩, ⟨1, 1, .insertWithHint 0⟩, ⟨3, 4, .insertConcurrently⟩,
          ⟨2, 3, .insertWithHintConcurrently 0⟩] = some w ∧ w.list.keys = some [1, 2, 3] := by
  obtain ⟨w, hrun, hkeys⟩ := Writers.run_keys id (by decide : 0 < 4)
    [⟨3, 2, .insert⟩, ⟨1, 1, .insertWithHint 0⟩, ⟨3, 4, .insertConcurrently⟩,
      ⟨2, 3, .insertWithHintConcurrently 0⟩] (by decide)
  exact ⟨w, hrun, hkeys.trans (by decide)⟩

/-- From every state a run reaches, a call the list takes returns: `false` exactly when a key
comparing equal to its key is along level 0, and then no level of the list changes; after it,
level 0 holds the keys with the call's key inserted, which after `false` are the keys as they
were. -/
theorem Writers.call_of_reachable (h0 : 0 < kMaxHeight)
    (hr : Run.Reachable (Writers.step key) (Writers.init kMaxHeight) w)
    (hfit : c.Fits kMaxHeight) :
    ∃ A ok w', w.list.keys = some A ∧ w.call key c = some (ok, w') ∧
      (ok = false ↔ ∃ b ∈ A, key b = key c.key) ∧
      w'.list.keys = some (SortedList.insert key c.key A) ∧
      (ok = false → ∀ l < kMaxHeight, w'.list.levelList l = w.list.levelList l) := by
  obtain ⟨L, hw, hlen⟩ := Writers.Ok.of_reachable h0 hr
  obtain ⟨ok, w', L', hc, hI, hw'⟩ := hw.call_of_fits (by rw [hlen]; exact hfit)
  refine ⟨_, ok, w', hw.holds.keys_eq, hc, hI.ok_iff_key, ?_, fun hok l hl => ?_⟩
  · rw [hw'.holds.keys_eq, hI.map_key hw.holds]
  · subst hok
    exact hI.levelList_eq_of_false hw.holds (by rw [hlen]; exact hl)

/-- After `Insert` of the key 3, `InsertWithHint` of 3 again reports `false`. -/
theorem call_of_reachable_repeated_key :
    ∃ w w', Run.run (Writers.step id) (Writers.init 4) [⟨3, 2, .insert⟩] = some w ∧
      w.call id ⟨3, 1, .insertWithHint 0⟩ = some (false, w') ∧ w'.list.keys = some [3] := by
  obtain ⟨w, L, hrun, hw, hkeys⟩ :=
    (Writers.ok_init (by decide) : (Writers.init 4 : Writers Nat).Ok id []).run [⟨3, 2, .insert⟩]
      (by decide)
  obtain ⟨A, ok, w', hA, hc, hiff, hk, -⟩ := Writers.call_of_reachable (by decide : 0 < 4)
    ⟨_, hrun⟩ (c := ⟨3, 1, .insertWithHint 0⟩) (by decide)
  have hA3 : A = [3] := by
    rw [hw.holds.keys_eq, hkeys] at hA
    exact (Option.some.inj hA).symm
  subst hA3
  obtain rfl : ok = false := hiff.2 ⟨3, List.mem_singleton_self 3, rfl⟩
  exact ⟨w, w', hrun, hc, hk.trans (by decide)⟩

/-- Every state a run reaches from the constructor of a list of `kMaxHeight` levels: level 0,
read from `head_` along its links, is strictly increasing under the comparator, its nodes have
heights from 1 to `max_height_`, and each level `l` below `kMaxHeight` lists exactly the nodes of
level 0 taller than `l`, in the same order, so each level is a sublist of the level below. -/
theorem Writers.levels_of_reachable (h0 : 0 < kMaxHeight)
    (hr : Run.Reachable (Writers.step key) (Writers.init kMaxHeight) w) :
    ∃ L, w.list.levelList 0 = some L ∧ w.list.SortedNodes key L ∧
      (∀ i ∈ L, 0 < w.list.height i ∧ w.list.height i ≤ w.list.maxHeight) ∧
      ∀ l < kMaxHeight, w.list.levelList l = some (L.filter fun i => l < w.list.height i) := by
  obtain ⟨L, hw, hlen⟩ := Writers.Ok.of_reachable h0 hr
  have hL := hw.holds
  refine ⟨L, ?_, hL.sorted, fun i hi => ⟨hL.height_pos i hi, hL.height_le i hi⟩,
    fun l hl => hL.levelList_eq (by rw [hlen]; exact hl)⟩
  rw [hL.levelList_eq (by rw [hlen]; exact h0), hL.levelNodes_zero]

theorem levels_of_reachable_two_calls :
    ∃ w, Run.run (Writers.step id) (Writers.init 4)
        [⟨3, 2, .insert⟩, ⟨1, 4, .insertConcurrently⟩] = some w ∧
      ∃ L, w.list.levelList 0 = some L ∧ w.list.SortedNodes id L ∧
        (∀ i ∈ L, 0 < w.list.height i ∧ w.list.height i ≤ w.list.maxHeight) ∧
        ∀ l < 4, w.list.levelList l = some (L.filter fun i => l < w.list.height i) := by
  obtain ⟨w, L, hrun, -⟩ := (Writers.ok_init (by decide) : (Writers.init 4 : Writers Nat).Ok id []).run
    [⟨3, 2, .insert⟩, ⟨1, 4, .insertConcurrently⟩] (by decide)
  exact ⟨w, hrun, Writers.levels_of_reachable (by decide) ⟨_, hrun⟩⟩

/-- Every state a run reaches from the constructor: `FindGreaterOrEqual(k)` returns the first node
of level 0 whose key is not below `k`, or null, and `FindLessThan(k)` the last node of level 0
below `k`, or `head_`. -/
theorem Writers.find_of_reachable (h0 : 0 < kMaxHeight)
    (hr : Run.Reachable (Writers.step key) (Writers.init kMaxHeight) w) (k : κ) :
    ∃ L, w.list.levelList 0 = some L ∧
      w.list.findGreaterOrEqual key k = some (L.find? fun i => k ≤ w.list.keyOf key i) ∧
      w.list.findLessThan key k =
        some (((L.filter fun i => w.list.keyOf key i < k).getLast?).elim .head .node) := by
  obtain ⟨L, hw, hlen⟩ := Writers.Ok.of_reachable h0 hr
  have hL := hw.holds
  refine ⟨L, ?_, hL.findGreaterOrEqual_eq k, hL.findLessThan_eq k⟩
  rw [hL.levelList_eq (by rw [hlen]; exact h0), hL.levelNodes_zero]

theorem find_of_reachable_two_calls :
    ∃ w, Run.run (Writers.step id) (Writers.init 4)
        [⟨3, 2, .insert⟩, ⟨1, 4, .insertConcurrently⟩] = some w ∧
      ∃ L, w.list.levelList 0 = some L ∧
        w.list.findGreaterOrEqual id 2 = some (L.find? fun i => 2 ≤ w.list.keyOf id i) ∧
        w.list.findLessThan id 2 =
          some (((L.filter fun i => w.list.keyOf id i < 2).getLast?).elim .head .node) := by
  obtain ⟨w, L, hrun, -⟩ := (Writers.ok_init (by decide) : (Writers.init 4 : Writers Nat).Ok id []).run
    [⟨3, 2, .insert⟩, ⟨1, 4, .insertConcurrently⟩] (by decide)
  exact ⟨w, hrun, Writers.find_of_reachable (by decide) ⟨_, hrun⟩ 2⟩

/-- From every state a run reaches, `InsertConcurrently` of a key at a height from 1 to
`kMaxHeight_` returns nothing exactly when the raised `max_height_` reaches `kMaxPossibleHeight`,
the length of its splice on the stack, whose reset then writes past the arrays. -/
theorem Writers.insertConcurrently_eq_none_iff (h0 : 0 < kMaxHeight)
    (hr : Run.Reachable (Writers.step key) (Writers.init kMaxHeight) w) {a : α} {h : Nat}
    (hh : 0 < h) (hhl : h ≤ kMaxHeight) :
    w.call key ⟨a, h, .insertConcurrently⟩ = none ↔ kMaxPossibleHeight ≤ max w.list.maxHeight h := by
  obtain ⟨L, hw, hlen⟩ := Writers.Ok.of_reachable h0 hr
  have hhl' : h ≤ w.list.head.length := by rw [hlen]; exact hhl
  constructor
  · intro hnone
    by_contra hlt
    obtain ⟨ok, w', L', hc, -⟩ := hw.call_spec (c := ⟨a, h, .insertConcurrently⟩) hh hhl'
      fun _ => not_le.1 hlt
    rw [hnone] at hc
    cases hc
  · exact Writers.call_eq_none_of_stack (c := ⟨a, h, .insertConcurrently⟩) hh hhl' rfl

/-- A list of 40 levels, which the constructor allows: a node of height 33 overruns the splice
on the stack. -/
theorem insertConcurrently_eq_none_of_height_33 :
    (Writers.init 40 : Writers Nat).call id ⟨0, 33, .insertConcurrently⟩ = none :=
  (Writers.insertConcurrently_eq_none_iff (by decide : 0 < 40)
    (⟨[], rfl⟩ : Run.Reachable (Writers.step id) (Writers.init 40) (Writers.init 40 : Writers Nat))
    (by decide) (by decide)).2 (by decide)

end Runs

section MemTable

/-- `MemTable::Add` on the memtable's skip list: `AllocateKey` for the entry's buffer, at the
height `RandomHeight` drew, and `InsertConcurrently` of the buffer. -/
def memTableAdd (a : Wire.AddCall) (height : Nat) : Call Bytes := ⟨a.entry, height, .insertConcurrently⟩

/-- The entries of the memtable's model are the adds' buffers inserted in turn. -/
theorem entries_ofAdds (adds : List Wire.AddCall) :
    (Wire.MemTable.ofAdds adds).table.entries =
      adds.foldl (fun A a => SortedList.insert Wire.entryKey a.entry A) [] := by
  suffices h : ∀ m : Wire.MemTable, (adds.foldl Wire.MemTable.addCall m).table.entries =
      adds.foldl (fun A a => SortedList.insert Wire.entryKey a.entry A) m.table.entries from
    h Wire.MemTable.empty
  induction adds with
  | nil => exact fun _ => rfl
  | cons a adds ih => exact fun m => ih (m.addCall a)

/-- The memtable's skip list refines the table of the memtable's model: over every sequence of
`MemTable::Add` calls, each with the height `RandomHeight` drew for its node, on a new list of
fewer than `kMaxPossibleHeight` levels, every `InsertConcurrently` returns, level 0 of the list
holds in order the entries of `MemTable.ofAdds`, and `FindGreaterOrEqual` of a target's key lands
on the entry `Table.seek` finds for it. -/
theorem memTable_skipList_refines {kMaxHeight : Nat} (h0 : 0 < kMaxHeight)
    (hmax : kMaxHeight < kMaxPossibleHeight) (draws : List (Wire.AddCall × Nat))
    (hh : ∀ d ∈ draws, 0 < d.2 ∧ d.2 ≤ kMaxHeight) :
    ∃ w, Run.run (Writers.step Wire.entryKey) (Writers.init kMaxHeight)
        (draws.map fun d => memTableAdd d.1 d.2) = some w ∧
      w.list.keys = some (Wire.MemTable.ofAdds (draws.map Prod.fst)).table.entries ∧
      ∀ target : Bytes,
        (w.list.findGreaterOrEqual Wire.entryKey (Wire.entryKey target)).map
            (Option.map fun i => (w.list.node i).key) =
          some ((Wire.MemTable.ofAdds (draws.map Prod.fst)).table.seek target) := by
  have hlen : (Writers.init kMaxHeight : Writers Bytes).list.head.length = kMaxHeight := by
    simp [Writers.init, new]
  obtain ⟨w, L, hrun, hw, hkeys⟩ :=
    (Writers.ok_init h0 : (Writers.init kMaxHeight : Writers Bytes).Ok Wire.entryKey []).run
    (draws.map fun d => memTableAdd d.1 d.2) fun c hc => by
      obtain ⟨d, hd, rfl⟩ := List.mem_map.1 hc
      rw [hlen]
      exact ⟨(hh d hd).1, (hh d hd).2, fun _ => hmax⟩
  -- call by call, the keys inserted are the adds' buffers
  have hentries : L.map (fun i => (w.list.node i).key) =
      (Wire.MemTable.ofAdds (draws.map Prod.fst)).table.entries := by
    rw [hkeys, entries_ofAdds, List.foldl_map, List.foldl_map]
    rfl
  refine ⟨w, hrun, by rw [hw.holds.keys_eq, hentries], fun target => ?_⟩
  rw [hw.holds.findGreaterOrEqual_key, hentries]
  simp [Wire.Table.seek, Wire.keyComparator_ne_lt]

/-- Two adds, of the keys `a` and `b`, on a list of 12 levels, the default of the constructor. -/
theorem memTable_skipList_refines_two_adds :
    ∃ w, Run.run (Writers.step Wire.entryKey) (Writers.init 12)
        ([((⟨2, .kTypeValue, [98], [2]⟩ : Wire.AddCall), 3),
          ((⟨1, .kTypeValue, [97], [1]⟩ : Wire.AddCall), 1)].map fun d => memTableAdd d.1 d.2) =
        some w ∧
      w.list.keys = some (Wire.MemTable.ofAdds [⟨2, .kTypeValue, [98], [2]⟩,
        ⟨1, .kTypeValue, [97], [1]⟩]).table.entries := by
  obtain ⟨w, hrun, hkeys, -⟩ := memTable_skipList_refines (by decide : 0 < 12)
    (by decide) [((⟨2, .kTypeValue, [98], [2]⟩ : Wire.AddCall), 3),
      ((⟨1, .kTypeValue, [97], [1]⟩ : Wire.AddCall), 1)] (by decide)
  exact ⟨w, hrun, hkeys⟩

end MemTable

end InlineSkipList

end DLSM
