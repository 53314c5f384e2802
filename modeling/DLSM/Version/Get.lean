import DLSM.Table.Get

/-! The read path with the tables in it.  `Version::Get` hands each file `ForEachOverlapping`
visits to `State::Match`, which reads it with `TableCache::Get`, that is `Table::InternalGet` with
`SaveValue` as `handle_result`, and goes on to the next file while `SaveValue` leaves the state
`kNotFound`; `DBImpl::Get` reads `mem_` and `memlist_` first, as in `DBState.get`.  The table of a
file is the one `TableBuilder` builds from its entries.  When the visited files are strictly
increasing, this read returns what `DBState.get`, which searches each file's entries, returns, or
the process exits in a file whose last key's successor is before the lookup key.  Block reads over
RDMA do not fail here and every key parses, so the `!s.ok()` and `kCorrupt` branches of `Match`
are not modelled. -/

namespace DLSM

variable {V : Type}

/-- `SaveValue`: of the entry `InternalGet` hands over, the one with the lookup's user key marks
the state `kFound` or `kDeleted` by its type; any other leaves it `kNotFound`. -/
def saveValue (key : Bytes) (r : Option (Entry Bytes V)) : Option (Entry Bytes V) :=
  r.filter fun x => decide (x.key.userKey = key)

/-- `State::Match` on one file: `none` when it returns `true` and the search goes on, else how
the read ends there. -/
def Version.stateMatch (o : TableOptions V) (key : Bytes) (ikey : InternalKey Bytes)
    (f : RemoteMemTableMetaData Bytes V) : Option (InternalGetResult V) :=
  match (Table.build o f.entries).internalGet o ikey with
  | .exit => some .exit
  | .returned r => (saveValue key r).map fun x => .returned (some x)

/-- `Version::Get` through the tables: `State::Match` over the files `ForEachOverlapping` visits,
and `NotFound` when every file leaves the state `kNotFound`. -/
def Version.getFromTables (o : TableOptions V) (v : Version Bytes V) (key : Bytes)
    (snapshot : Nat) : InternalGetResult V :=
  let ikey := InternalKey.mk' key snapshot kValueTypeForSeek
  ((v.overlapping key ikey).findSome? (Version.stateMatch o key ikey)).getD (.returned none)

/-- `DBImpl::Get` at `snapshot` with the current version read through its tables. -/
def DBState.getFromTables (o : TableOptions V) (s : DBState Bytes V) (key : Bytes)
    (snapshot : Nat) : InternalGetResult V :=
  match (s.mem :: s.imm).findSome? fun id => lookupRun key snapshot (s.table id).entries with
  | some e => .returned (some e)
  | none => s.versions.current.getFromTables o key snapshot

namespace Version

variable {o : TableOptions V} {key : Bytes} {snapshot : Nat} {f : RemoteMemTableMetaData Bytes V}

/-- A file whose `Match` does not exit stops the search exactly where a search of its entries
finds an entry of the key, with that entry. -/
theorem stateMatch_of_ne_exit (hs : f.entries.Pairwise fun x y => x.key < y.key)
    (hne : stateMatch o key (InternalKey.mk' key snapshot kValueTypeForSeek) f ≠ some .exit) :
    stateMatch o key (InternalKey.mk' key snapshot kValueTypeForSeek) f =
      (lookupRun key snapshot f.entries).map fun x => .returned (some x) := by
  rcases (Table.build_holds o hs).internalGet_filter key snapshot with hexit | ⟨r, hr, hfilter⟩
  · exact absurd (by simp [stateMatch, hexit]) hne
  · simp only [stateMatch, hr, saveValue, hfilter]

/-- A file whose `Match` exits has a last key whose successor is before the lookup key. -/
theorem lt_of_stateMatch_eq_exit (hs : f.entries.Pairwise fun x y => x.key < y.key)
    {ikey : InternalKey Bytes} (h : stateMatch o key ikey f = some .exit) :
    ∀ e ∈ f.entries.getLast?, InternalKeyComparator.findShortSuccessor e.key < ikey := by
  intro e he
  -- a table read that returns ends `Match` with a returned entry or not at all
  have hexit : (Table.build o f.entries).internalGet o ikey = .exit := by
    cases hr : (Table.build o f.entries).internalGet o ikey with
    | exit => rfl
    | returned r =>
      rw [stateMatch, hr] at h
      cases hv : saveValue key r <;> simp [hv] at h
  exact (((Table.build_holds o hs).internalGet_eq_exit_iff he).mp hexit).2

/-- Over the visited files, the search through the tables exits in some file or stops where the
search of the files' entries stops, with the same entry. -/
theorem findSome_stateMatch {files : List (RemoteMemTableMetaData Bytes V)}
    (hs : ∀ f ∈ files, f.entries.Pairwise fun x y => x.key < y.key) :
    files.findSome? (stateMatch o key (InternalKey.mk' key snapshot kValueTypeForSeek)) =
        some .exit ∨
      files.findSome? (stateMatch o key (InternalKey.mk' key snapshot kValueTypeForSeek)) =
        (files.findSome? fun f => lookupRun key snapshot f.entries).map
          fun x => .returned (some x) := by
  induction files with
  | nil => simp
  | cons f fs ih =>
    have hfs := ih fun g hg => hs g (List.mem_cons_of_mem _ hg)
    by_cases hexit : stateMatch o key (InternalKey.mk' key snapshot kValueTypeForSeek) f = some .exit
    · exact .inl (by simp [hexit])
    · -- the head file reads as its entries do, so the search goes on exactly when it misses
      rw [List.findSome?_cons, List.findSome?_cons,
        stateMatch_of_ne_exit (hs f List.mem_cons_self) hexit]
      cases lookupRun key snapshot f.entries with
      | none => simpa using hfs
      | some x => simp

theorem getD_map_returned (r : Option (Entry Bytes V)) :
    (r.map fun x => InternalGetResult.returned (some x)).getD (.returned none) = .returned r := by
  cases r <;> rfl

/-- `Version::Get` through the tables returns what `Version.get` returns, or exits in a visited
file whose last key's successor is before the lookup key. -/
theorem getFromTables_refines_get (v : Version Bytes V)
    (hs : ∀ f ∈ v.overlapping key (InternalKey.mk' key snapshot kValueTypeForSeek),
      f.entries.Pairwise fun x y => x.key < y.key) :
    v.getFromTables o key snapshot = .returned (v.get key snapshot) ∨
      v.getFromTables o key snapshot = .exit ∧
        ∃ f ∈ v.overlapping key (InternalKey.mk' key snapshot kValueTypeForSeek),
          ∀ e ∈ f.entries.getLast?, InternalKeyComparator.findShortSuccessor e.key <
            InternalKey.mk' key snapshot kValueTypeForSeek := by
  rcases findSome_stateMatch hs with hexit | hmap
  · obtain ⟨f, hf, hfe⟩ := List.exists_of_findSome?_eq_some hexit
    refine .inr ⟨?_, f, hf, lt_of_stateMatch_eq_exit (hs f hf) hfe⟩
    rw [getFromTables, hexit]
    rfl
  · left
    rw [getFromTables, hmap, getD_map_returned]
    rfl

end Version

/-- What holds of the version's read through the tables holds of `DBImpl::Get`: a hit in a
memtable is the same in both reads, and otherwise both read the version. -/
theorem DBState.getFromTables_of_version {o : TableOptions V} {s : DBState Bytes V} {key : Bytes}
    {snapshot : Nat} {P : Prop}
    (h : s.versions.current.getFromTables o key snapshot =
        .returned (s.versions.current.get key snapshot) ∨
      s.versions.current.getFromTables o key snapshot = .exit ∧ P) :
    s.getFromTables o key snapshot = .returned (s.get key snapshot) ∨
      s.getFromTables o key snapshot = .exit ∧ P := by
  unfold getFromTables get
  cases (s.mem :: s.imm).findSome? fun id => lookupRun key snapshot (s.table id).entries with
  | some e => exact .inl rfl
  | none => simpa using h

/-- `DBImpl::Get` with the current version read through its tables returns what `DBState.get`
returns, or the process exits in a visited file whose last key's successor, under
`FindShortSuccessor`, is before the lookup key; this holds for every table option, when the
visited files are strictly increasing. -/
theorem DBState.getFromTables_eq_get_or_exit (o : TableOptions V) (s : DBState Bytes V)
    (key : Bytes) (snapshot : Nat)
    (hs : ∀ f ∈ s.versions.current.overlapping key (InternalKey.mk' key snapshot kValueTypeForSeek),
      f.entries.Pairwise fun x y => x.key < y.key) :
    s.getFromTables o key snapshot = .returned (s.get key snapshot) ∨
      s.getFromTables o key snapshot = .exit ∧
        ∃ f ∈ s.versions.current.overlapping key (InternalKey.mk' key snapshot kValueTypeForSeek),
          ∀ e ∈ f.entries.getLast?, InternalKeyComparator.findShortSuccessor e.key <
            InternalKey.mk' key snapshot kValueTypeForSeek := by
  exact DBState.getFromTables_of_version (s.versions.current.getFromTables_refines_get hs)

theorem getFromTables_at_snapshot_before_flush :
    ∃ s ∈ (DBState.init : DBState Bytes Nat).run DBOptions.default valueBytes
        ([.getSnapshot] ++ soloPut [0] 1 ++ soloPut [1] 2 ++ soloClearMem),
      (∀ f ∈ s.versions.current.overlapping [1] (InternalKey.mk' [1] 0 kValueTypeForSeek),
        f.entries.Pairwise fun x y => x.key < y.key) ∧
      (s.getFromTables TableOptions.plain [1] 0 = .returned (s.get [1] 0) ∨
        s.getFromTables TableOptions.plain [1] 0 = .exit ∧
          ∃ f ∈ s.versions.current.overlapping [1] (InternalKey.mk' [1] 0 kValueTypeForSeek),
            ∀ e ∈ f.entries.getLast?, InternalKeyComparator.findShortSuccessor e.key <
              InternalKey.mk' [1] 0 kValueTypeForSeek) := by
  obtain ⟨s, hs, hsorted⟩ : ∃ s ∈ (DBState.init : DBState Bytes Nat).run DBOptions.default
        valueBytes ([.getSnapshot] ++ soloPut [0] 1 ++ soloPut [1] 2 ++ soloClearMem),
      ∀ f ∈ s.versions.current.overlapping [1] (InternalKey.mk' [1] 0 kValueTypeForSeek),
        f.entries.Pairwise fun x y => x.key < y.key := by
    decide +kernel
  exact ⟨s, hs, hsorted, DBState.getFromTables_eq_get_or_exit TableOptions.plain s [1] 0 hsorted⟩

namespace Version

/-- On a well-formed version whose files are strictly increasing, the read through the tables
exits only at a level-0 file. -/
theorem getFromTables_exits_at_level0 {o : TableOptions V} {v : Version Bytes V} {key : Bytes}
    {snapshot : Nat} (hv : v.WellFormed)
    (hs : ∀ level < kNumLevels, ∀ f ∈ v.files level,
      f.entries.Pairwise fun x y => x.key < y.key) :
    v.getFromTables o key snapshot = .returned (v.get key snapshot) ∨
      v.getFromTables o key snapshot = .exit ∧
        ∃ f ∈ v.files 0, f.smallest.userKey ≤ key ∧ key ≤ f.largest.userKey ∧
          ∀ e ∈ f.entries.getLast?, InternalKeyComparator.findShortSuccessor e.key <
            InternalKey.mk' key snapshot kValueTypeForSeek := by
  have hvis : ∀ f ∈ v.overlapping key (InternalKey.mk' key snapshot kValueTypeForSeek),
      f.entries.Pairwise fun x y => x.key < y.key := by
    intro f hf
    rcases mem_overlapping hf with ⟨h0, -⟩ | ⟨level, -, hl, hget⟩
    · exact hs 0 (by decide) f h0
    · exact hs level hl f (List.mem_of_getElem? hget)
  rcases getFromTables_refines_get (o := o) v hvis with hret | ⟨hexit, f, hf, hlt⟩
  · exact .inl hret
  · refine .inr ⟨hexit, ?_⟩
    rcases mem_overlapping hf with ⟨h0, hrange⟩ | ⟨level, h1, hl, hget⟩
    · exact ⟨f, h0, hrange.1, hrange.2, hlt⟩
    · -- on a higher level the lookup key is at or before the file's last key
      exfalso
      have hmem := List.mem_of_getElem? hget
      obtain ⟨e, he, hel⟩ := hv.largest_mem level hl h1 f hmem
      obtain ⟨x, hx⟩ := Option.ne_none_iff_exists'.mp
        (List.getLast?_eq_none_iff.not.mpr (List.ne_nil_of_mem he))
      have hle : InternalKey.mk' key snapshot kValueTypeForSeek ≤
          InternalKeyComparator.findShortSuccessor x.key :=
        calc InternalKey.mk' key snapshot kValueTypeForSeek
            _ ≤ f.largest := le_largest_of_findFile (hv.sorted level hl h1) hget
            _ = e.key := hel.symm
            _ ≤ x.key := List.le_of_mem_getLast? (·.key) (hs level hl f hmem) he hx
            _ ≤ InternalKeyComparator.findShortSuccessor x.key :=
              (InternalKeyComparator.le_findShortSuccessor x.key).1
      exact absurd (hlt x hx) (not_lt.mpr hle)

end Version

end DLSM
