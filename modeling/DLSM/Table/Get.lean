import Mathlib
import DLSM.Table.Builder
import DLSM.DB.Step

/-! `Table::InternalGet` as the build without `BYTEADDRESSABLE` runs it.  A filter that rules the
user key out ends the lookup.  Otherwise the index block is searched for the first key at or
after the lookup key, and the block it names for the first entry at or after it, which goes to
`handle_result`; when the index search finds nothing the process prints `block iterator invalid`
and calls `exit(1)`.  On a table built from a strictly increasing input that happens exactly when
the filter lets the key through and it is after the last index key, `FindShortSuccessor` of the
last key.  Below that key the lookup finds what a search of all entries finds, so the
abstraction of `lookupRun` in the read path is the table's own behaviour there. -/

namespace DLSM

variable {V : Type}

/-- The end of `Table::InternalGet`: `exit(1)`, or a return after `handle_result` was called with
at most one entry. -/
inductive InternalGetResult (V : Type) where
  | exit
  | returned (handled : Option (Entry Bytes V))
  deriving DecidableEq, Repr

/-- `FullFilterBlockReader::KeyMayMatch` when the table has a filter; a table without one reads
every key. -/
def Table.keyMayMatch (o : TableOptions V) (t : Table V) (userKey : Bytes) : Bool :=
  match o.filterPolicy with
  | some p => p.keyMayMatch t.filterKeys userKey
  | none => true

/-- `Table::InternalGet`: the index seek, then the seek of the block at its handle. -/
def Table.internalGet (o : TableOptions V) (t : Table V) (k : InternalKey Bytes) :
    InternalGetResult V :=
  if !t.keyMayMatch o k.userKey then .returned none
  else
    match t.index.find? fun p => decide (k ≤ p.1) with
    | some (_, handle) =>
      .returned ((t.blocks.getD handle []).find? fun e => decide (k ≤ e.key))
    | none => .exit

theorem head?_seek (target : InternalKey Bytes) (run : List (Entry Bytes V)) :
    (seek target run).head? = Index.seek Entry.key run target := by
  rw [seek, ← List.find?_not_eq_head?_dropWhile]
  simp only [Index.seek, ← decide_not, not_lt]

theorem lookupRun_eq_filter (key : Bytes) (snapshot : Nat) (run : List (Entry Bytes V)) :
    lookupRun key snapshot run =
      (Index.seek Entry.key run (InternalKey.mk' key snapshot kValueTypeForSeek)).filter
        fun x => decide (x.key.userKey = key) := by
  rw [← head?_seek, lookupRun]
  cases seek (InternalKey.mk' key snapshot kValueTypeForSeek) run with
  | nil => rfl
  | cons x _ => by_cases hx : x.key.userKey = key <;> simp [Option.filter, hx]

/-- Two results agree under a filter when the first is the second whenever it is something, and
the second passing the filter is the first. -/
private theorem filter_eq_filter_of_agree {α : Type} {p : α → Bool} {r r' : Option α}
    (h₁ : ∀ x, r = some x → r' = some x) (h₂ : ∀ x, r' = some x → p x = true → r = some x) :
    r.filter p = r'.filter p := by
  cases r' with
  | none =>
    cases r with
    | none => rfl
    | some x => exact absurd (h₁ x rfl) nofun
  | some x =>
    cases hx : p x
    · cases r with
      | none => simp [Option.filter, hx]
      | some y =>
        obtain rfl : x = y := Option.some.inj (h₁ y rfl)
        simp [Option.filter, hx]
    · rw [h₂ x rfl hx]

namespace Table

variable {o : TableOptions V} {t : Table V} {es : List (Entry Bytes V)} {k : InternalKey Bytes}

/-- `InternalGet` through the blocks under their index keys. -/
theorem internalGet_eq (o : TableOptions V) (t : Table V) (k : InternalKey Bytes) :
    t.internalGet o k = if !t.keyMayMatch o k.userKey then .returned none
      else match Index.seekIndex t.pairs k with
        | some (_, b) => .returned (Index.seek Entry.key b k)
        | none => .exit := by
  have hseek : Index.seekIndex t.pairs k =
      (t.index.find? fun p => decide (k ≤ p.1)).map fun p => (p.1, t.blocks.getD p.2 []) := by
    simp only [Index.seekIndex, Table.pairs, List.find?_map]
    rfl
  rw [internalGet, hseek]
  cases t.index.find? fun p => decide (k ≤ p.1) <;> rfl

theorem Holds.keyMayMatch_of_mem (ht : t.Holds o es) {u : Bytes}
    (hu : u ∈ es.map (·.key.userKey)) : t.keyMayMatch o u = true := by
  unfold keyMayMatch
  cases hp : o.filterPolicy with
  | none => rfl
  | some p =>
    apply p.keyMayMatch_of_mem
    simpa [ht.filterKeys, hp] using hu

/-- The index seek of a built table fails exactly past the successor of its last key. -/
theorem Holds.seekIndex_eq_none_iff (ht : t.Holds o es) {e : Entry Bytes V}
    (he : e ∈ es.getLast?) :
    Index.seekIndex t.pairs k = none ↔ InternalKeyComparator.findShortSuccessor e.key < k := by
  obtain ⟨⟨p, hp, hpeq⟩, hle⟩ := ht.lastIndex e he
  simp only [Index.seekIndex, Table.pairs, List.find?_eq_none, List.mem_map,
    decide_eq_true_eq, not_le]
  constructor
  · intro h
    exact hpeq ▸ h _ ⟨p, hp, rfl⟩
  · rintro h _ ⟨q, hq, rfl⟩
    exact (hle q hq).trans_lt h

/-- `InternalGet` on a built table reaches `exit(1)` exactly when the filter lets the key through
and the key is after the successor of the last key. -/
theorem Holds.internalGet_eq_exit_iff (ht : t.Holds o es) {e : Entry Bytes V}
    (he : e ∈ es.getLast?) :
    t.internalGet o k = .exit ↔
      t.keyMayMatch o k.userKey = true ∧ InternalKeyComparator.findShortSuccessor e.key < k := by
  rw [internalGet_eq, ← ht.seekIndex_eq_none_iff he]
  cases hm : t.keyMayMatch o k.userKey
  · simp
  · cases Index.seekIndex t.pairs k <;> simp

theorem Holds.internalGet_ne_exit (ht : t.Holds o es) {e : Entry Bytes V}
    (he : e ∈ es.getLast?) (hk : k ≤ InternalKeyComparator.findShortSuccessor e.key) :
    t.internalGet o k ≠ .exit :=
  fun hexit => absurd ((ht.internalGet_eq_exit_iff he).mp hexit).2 (not_lt.mpr hk)

/-- A user key the filter rules out has no entry in the table. -/
theorem Holds.userKey_ne_of_keyMayMatch (ht : t.Holds o es) {u : Bytes}
    (hm : t.keyMayMatch o u = false) : ∀ x ∈ es, x.key.userKey ≠ u := by
  intro x hx hxu
  have := ht.keyMayMatch_of_mem (List.mem_map_of_mem (f := (·.key.userKey)) hx)
  rw [hxu, hm] at this
  cases this

/-- The block the index names for `k` holds only the first entry of the table at or after `k`,
and holds it whenever it has the user key of `k`. -/
theorem Holds.seek_block (ht : t.Holds o es) {s : InternalKey Bytes} {b : List (Entry Bytes V)}
    (hsb : Index.seekIndex t.pairs k = some (s, b)) :
    (∀ x, Index.seek Entry.key b k = some x → Index.seek Entry.key es k = some x) ∧
      (∀ x, Index.seek Entry.key es k = some x → x.key.userKey = k.userKey →
        Index.seek Entry.key b k = some x) := by
  have hks : k ≤ s := by simpa using List.find?_some hsb
  obtain ⟨pre, post, hsplit, hseek⟩ := ht.separated.seek_entries hsb
  rw [ht.entries] at hseek
  refine ⟨fun x hx => by simp [hseek, hx], fun x hx hxk => ?_⟩
  rcases Option.eq_none_or_eq_some (Index.seek Entry.key b k) with hb | ⟨y, hb⟩
  · -- the entry is in a later block, which the index key of `b` rules out
    rw [hseek, hb, Option.none_or] at hx
    obtain ⟨q, hq, hxq⟩ := Index.mem_entries.mp (List.mem_of_find?_eq_some hx)
    have htight : Tight (s, b) q := by
      have hpw := ht.tight
      rw [hsplit] at hpw
      exact (List.pairwise_cons.mp (List.pairwise_append.mp hpw).2.1).1 q hq
    rcases htight with ⟨y, hy, hys⟩ | hlt
    · have : Index.seek Entry.key b k ≠ none := by
        simp only [Index.seek, ne_eq, List.find?_eq_none, not_forall, decide_eq_true_eq]
        exact ⟨y, hy, by simpa [hys] using hks⟩
      exact absurd hb this
    · have := (InternalKey.userKey_le_of_le hks).trans_lt (hlt x hxq)
      rw [hxk] at this
      exact absurd this (lt_irrefl _)
  · simpa [hseek, hb] using hx

/-- `InternalGet` on a built table exits, or returns after handing over only the first entry at
or after the key, and that entry whenever it has the key's user key. -/
theorem Holds.internalGet_exit_or_returned (ht : t.Holds o es) :
    t.internalGet o k = .exit ∨ ∃ r, t.internalGet o k = .returned r ∧
      (∀ x, r = some x → Index.seek Entry.key es k = some x) ∧
      (∀ x, Index.seek Entry.key es k = some x → x.key.userKey = k.userKey → r = some x) := by
  rw [internalGet_eq]
  cases hm : t.keyMayMatch o k.userKey
  · -- the filter rules out only user keys that no entry has
    refine .inr ⟨none, rfl, nofun, fun x hx hxk => ?_⟩
    exact absurd hxk (ht.userKey_ne_of_keyMayMatch hm x (List.mem_of_find?_eq_some hx))
  · rcases Option.eq_none_or_eq_some (Index.seekIndex t.pairs k) with hsb | ⟨⟨s, b⟩, hsb⟩
    · exact .inl (by simp [hsb])
    · obtain ⟨hsome, hfirst⟩ := ht.seek_block hsb
      exact .inr ⟨Index.seek Entry.key b k, by simp [hsb], hsome, hfirst⟩

/-- `InternalGet` on a built table, for a key at or before the successor of the last key: it
returns, hands over only the first entry at or after the key, and hands that entry over whenever
it has the key's user key. -/
theorem Holds.internalGet_returned (ht : t.Holds o es) {e : Entry Bytes V}
    (he : e ∈ es.getLast?) (hk : k ≤ InternalKeyComparator.findShortSuccessor e.key) :
    ∃ r, t.internalGet o k = .returned r ∧
      (∀ x, r = some x → Index.seek Entry.key es k = some x) ∧
      (∀ x, Index.seek Entry.key es k = some x → x.key.userKey = k.userKey → r = some x) :=
  ht.internalGet_exit_or_returned.resolve_left (ht.internalGet_ne_exit he hk)

/-- What `SaveValue` keeps of `InternalGet` on a built table, when it returns, is what
`lookupRun` finds in the table's entries. -/
theorem Holds.internalGet_filter (ht : t.Holds o es) (key : Bytes) (snapshot : Nat) :
    t.internalGet o (InternalKey.mk' key snapshot kValueTypeForSeek) = .exit ∨
      ∃ r, t.internalGet o (InternalKey.mk' key snapshot kValueTypeForSeek) = .returned r ∧
        r.filter (fun x => decide (x.key.userKey = key)) = lookupRun key snapshot es := by
  rcases ht.internalGet_exit_or_returned with hexit | ⟨r, hr, hsome, hfirst⟩
  · exact .inl hexit
  · refine .inr ⟨r, hr, ?_⟩
    rw [lookupRun_eq_filter]
    exact filter_eq_filter_of_agree hsome fun x hx hxk => hfirst x hx (by simpa using hxk)

end Table

/-- The two-level iterator of a table built from a strictly increasing input yields that input,
in order, under every block size, size estimate and filter. -/
theorem Table.newIterator_build (o : TableOptions V) {es : List (Entry Bytes V)}
    (hs : es.Pairwise fun x y => x.key < y.key) : (Table.build o es).newIterator = es := by
  rw [Table.newIterator_eq_entries]
  exact (Table.build_holds o hs).entries

/-- The options of a table with 4 KB blocks, no filter, and a size estimate of zero. -/
def TableOptions.plain : TableOptions Nat := ⟨4096, fun _ => 0, fun _ => 0, none⟩

theorem newIterator_build_two_entries :
    [(⟨.mk' [0] 0 .kTypeValue, 1⟩ : Entry Bytes Nat), ⟨.mk' [1] 1 .kTypeValue, 2⟩].Pairwise
        (fun x y => x.key < y.key) ∧
      (Table.build TableOptions.plain
        [(⟨.mk' [0] 0 .kTypeValue, 1⟩ : Entry Bytes Nat), ⟨.mk' [1] 1 .kTypeValue, 2⟩]).newIterator =
        [⟨.mk' [0] 0 .kTypeValue, 1⟩, ⟨.mk' [1] 1 .kTypeValue, 2⟩] :=
  ⟨by decide, Table.newIterator_build TableOptions.plain (by decide)⟩

/-- `InternalGet` on a table built from a strictly increasing input, for a lookup key at or before
`FindShortSuccessor` of the last key, under every block size, size estimate and filter: it returns,
hands over only the first entry at or after the key, and hands that entry over whenever it has the
key's user key. -/
theorem Table.internalGet_build_returned (o : TableOptions V) {es : List (Entry Bytes V)}
    (hs : es.Pairwise fun x y => x.key < y.key) {e : Entry Bytes V} (he : e ∈ es.getLast?)
    {k : InternalKey Bytes} (hk : k ≤ InternalKeyComparator.findShortSuccessor e.key) :
    ∃ r, (Table.build o es).internalGet o k = .returned r ∧
      (∀ x, r = some x → Index.seek Entry.key es k = some x) ∧
      (∀ x, Index.seek Entry.key es k = some x → x.key.userKey = k.userKey → r = some x) :=
  (Table.build_holds o hs).internalGet_returned he hk

theorem internalGet_build_returned_at_last_key :
    [(⟨.mk' [0] 0 .kTypeValue, 1⟩ : Entry Bytes Nat), ⟨.mk' [1] 1 .kTypeValue, 2⟩].Pairwise
        (fun x y => x.key < y.key) ∧
      (⟨.mk' [1] 1 .kTypeValue, 2⟩ : Entry Bytes Nat) ∈
        [(⟨.mk' [0] 0 .kTypeValue, 1⟩ : Entry Bytes Nat), ⟨.mk' [1] 1 .kTypeValue, 2⟩].getLast? ∧
      InternalKey.mk' [1] 1 kValueTypeForSeek ≤
        InternalKeyComparator.findShortSuccessor (InternalKey.mk' [1] 1 .kTypeValue) ∧
      ∃ r, (Table.build TableOptions.plain
          [(⟨.mk' [0] 0 .kTypeValue, 1⟩ : Entry Bytes Nat), ⟨.mk' [1] 1 .kTypeValue, 2⟩]).internalGet
            TableOptions.plain (InternalKey.mk' [1] 1 kValueTypeForSeek) = .returned r ∧
        (∀ x, r = some x → Index.seek Entry.key
          [(⟨.mk' [0] 0 .kTypeValue, 1⟩ : Entry Bytes Nat), ⟨.mk' [1] 1 .kTypeValue, 2⟩]
            (InternalKey.mk' [1] 1 kValueTypeForSeek) = some x) ∧
        (∀ x, Index.seek Entry.key
          [(⟨.mk' [0] 0 .kTypeValue, 1⟩ : Entry Bytes Nat), ⟨.mk' [1] 1 .kTypeValue, 2⟩]
            (InternalKey.mk' [1] 1 kValueTypeForSeek) = some x →
          x.key.userKey = (InternalKey.mk' [1] 1 kValueTypeForSeek).userKey → r = some x) :=
  ⟨by decide, rfl, by decide,
    Table.internalGet_build_returned TableOptions.plain (by decide) rfl (by decide)⟩

/-- What `SaveValue` keeps of `InternalGet` on a table built from a strictly increasing input is
what `lookupRun`, the read path's search of a table, finds in its entries, for every lookup key at
or before `FindShortSuccessor` of the last key. -/
theorem Table.internalGet_build_refines_lookupRun (o : TableOptions V)
    {es : List (Entry Bytes V)} (hs : es.Pairwise fun x y => x.key < y.key) {e : Entry Bytes V}
    (he : e ∈ es.getLast?) (key : Bytes) (snapshot : Nat)
    (hk : InternalKey.mk' key snapshot kValueTypeForSeek ≤
      InternalKeyComparator.findShortSuccessor e.key) :
    ∃ r, (Table.build o es).internalGet o (InternalKey.mk' key snapshot kValueTypeForSeek) =
        .returned r ∧
      r.filter (fun x => decide (x.key.userKey = key)) = lookupRun key snapshot es := by
  have ht := Table.build_holds o hs
  exact (ht.internalGet_filter key snapshot).resolve_left (ht.internalGet_ne_exit he hk)

theorem internalGet_build_refines_lookupRun_at_snapshot :
    [(⟨.mk' [0] 0 .kTypeValue, 1⟩ : Entry Bytes Nat), ⟨.mk' [1] 1 .kTypeValue, 2⟩].Pairwise
        (fun x y => x.key < y.key) ∧
      (⟨.mk' [1] 1 .kTypeValue, 2⟩ : Entry Bytes Nat) ∈
        [(⟨.mk' [0] 0 .kTypeValue, 1⟩ : Entry Bytes Nat), ⟨.mk' [1] 1 .kTypeValue, 2⟩].getLast? ∧
      InternalKey.mk' [1] 1 kValueTypeForSeek ≤
        InternalKeyComparator.findShortSuccessor (InternalKey.mk' [1] 1 .kTypeValue) ∧
      ∃ r, (Table.build TableOptions.plain
          [(⟨.mk' [0] 0 .kTypeValue, 1⟩ : Entry Bytes Nat), ⟨.mk' [1] 1 .kTypeValue, 2⟩]).internalGet
            TableOptions.plain (InternalKey.mk' [1] 1 kValueTypeForSeek) = .returned r ∧
        r.filter (fun x => decide (x.key.userKey = [1])) = lookupRun [1] 1
          [(⟨.mk' [0] 0 .kTypeValue, 1⟩ : Entry Bytes Nat), ⟨.mk' [1] 1 .kTypeValue, 2⟩] :=
  ⟨by decide, rfl, by decide,
    Table.internalGet_build_refines_lookupRun TableOptions.plain (by decide) rfl [1] 1 (by decide)⟩

/-- A read of `[1]` at a snapshot taken before `[1]` was written, once the memtable is flushed:
`Version::Get` visits the level-0 table, whose user-key range holds `[1]`, with the lookup key
`[1]@0`, which is after the table's last key `[1]@1`.  `FindShortSuccessor` leaves a one-byte
user key as it is, so that key is the last index key, and `InternalGet` finds no index entry and
calls `exit(1)`, whatever the block size and the filter; the model's read finds nothing. -/
theorem snapshot_read_exits_in_internalGet :
    ∃ s ∈ (DBState.init : DBState Bytes Nat).run DBOptions.default valueBytes
        ([.getSnapshot] ++ soloPut [0] 1 ++ soloPut [1] 2 ++ soloClearMem),
      s.snapshots = [0] ∧ s.get [1] 0 = none ∧
      ∃ f ∈ s.versions.current.overlapping [1] (InternalKey.mk' [1] 0 kValueTypeForSeek),
        ∀ o : TableOptions Nat,
          (Table.build o f.entries).internalGet o (InternalKey.mk' [1] 0 kValueTypeForSeek) =
            .exit := by
  have hrun : ∃ s ∈ (DBState.init : DBState Bytes Nat).run DBOptions.default valueBytes
        ([.getSnapshot] ++ soloPut [0] 1 ++ soloPut [1] 2 ++ soloClearMem),
      s.snapshots = [0] ∧ s.get [1] 0 = none ∧
      ∃ f ∈ s.versions.current.overlapping [1] (InternalKey.mk' [1] 0 kValueTypeForSeek),
        f.entries = [⟨.mk' [0] 0 .kTypeValue, 1⟩, ⟨.mk' [1] 1 .kTypeValue, 2⟩] := by
    decide +kernel
  obtain ⟨s, hs, hsnap, hget, f, hf, hfe⟩ := hrun
  refine ⟨s, hs, hsnap, hget, f, hf, fun o => ?_⟩
  rw [hfe]
  have hs : [(⟨.mk' [0] 0 .kTypeValue, 1⟩ : Entry Bytes Nat), ⟨.mk' [1] 1 .kTypeValue, 2⟩].Pairwise
      (fun x y => x.key < y.key) := by decide
  have ht := Table.build_holds o hs
  exact (ht.internalGet_eq_exit_iff (e := ⟨.mk' [1] 1 .kTypeValue, 2⟩) rfl).mpr
    ⟨ht.keyMayMatch_of_mem (by decide), by decide⟩

end DLSM
