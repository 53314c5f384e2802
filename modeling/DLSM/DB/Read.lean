import Mathlib
import DLSM.DB.Background
import DLSM.Lib.BinarySearch
import DLSM.Lib.List

/-! The read path: `DBImpl::Get` looks in `mem_`, then in the immutable tables newest first, then
in the current version.  `Version::Get` visits, through `Version::ForEachOverlapping`, the
level-0 files whose user-key range holds the key, newest file number first (`NewestFirst`), and
on each higher level the file `FindFile` finds by binary search over the largest keys; it stops
at the first file that holds an entry of the key.  A table is searched as its iterator would be,
for the first entry at or after the lookup key; how `Table::InternalGet` reaches that entry
through the index is modelled in `DLSM.Version.Get`.  On a well-formed version this read is the
one the design describes: level 0 file by file, newest first, and each higher level as the one
sorted run its files make; `FindFile` and the user-key tests only skip files with no entry of the
key. -/

namespace DLSM

variable {K V : Type} [LinearOrder K]

/-- The entry a lookup of `key` at `snapshot` finds in a sorted run: the first at or after
`LookupKey(key, snapshot)`, when it is an entry of `key` (`SaveValue` checks the user key). -/
def lookupRun (key : K) (snapshot : Nat) (run : List (Entry K V)) : Option (Entry K V) :=
  match seek (InternalKey.mk' key snapshot kValueTypeForSeek) run with
  | e :: _ => if e.key.userKey = key then some e else none
  | [] => none

/-- `FindFile`: the binary search for the first file whose largest key is at least `key`, over
files sorted by their largest keys. -/
def findFile (files : List (RemoteMemTableMetaData K V)) (key : InternalKey K) : Nat :=
  go files.length 0 files.length
where
  go : Nat → Nat → Nat → Nat
    | 0, _, right => right
    | fuel + 1, left, right =>
      if left < right then
        let mid := (left + right) / 2
        if (files.getD mid ⟨0, 0, 0, 0, key, key, []⟩).largest < key then go fuel (mid + 1) right
        else go fuel left mid
      else right

/-- The files `ForEachOverlapping` visits for `key`, in order. -/
def Version.overlapping (v : Version K V) (key : K) (ikey : InternalKey K) :
    List (RemoteMemTableMetaData K V) :=
  let level0 := (v.files 0).filter fun f =>
    decide (f.smallest.userKey ≤ key ∧ key ≤ f.largest.userKey)
  let others := (List.range' 1 (kNumLevels - 1)).filterMap fun level =>
    match (v.files level)[findFile (v.files level) ikey]? with
    | some f => if key < f.smallest.userKey then none else some f
    | none => none
  level0.insertionSort (fun a b => decide (b.number ≤ a.number)) ++ others

/-- `Version::Get`: the entry of the first visited file that holds one for `key`. -/
def Version.get (v : Version K V) (key : K) (snapshot : Nat) : Option (Entry K V) :=
  (v.overlapping key (InternalKey.mk' key snapshot kValueTypeForSeek)).findSome? fun f =>
    lookupRun key snapshot f.entries

/-- `DBImpl::Get` at `snapshot` (`LastSequence()` without a snapshot): `mem_`, then `memlist_`
from its front, then the current version. -/
def DBState.get (s : DBState K V) (key : K) (snapshot : Nat) : Option (Entry K V) :=
  ((s.mem :: s.imm).findSome? fun id => lookupRun key snapshot (s.table id).entries).or
    (s.versions.current.get key snapshot)

/-- What `Version::Get` is to find: the entry a read of the level-0 files finds, newest first, or
else the entry a read of the first higher level that has one finds, each higher level read as the
one sorted run its files make in order. -/
def Version.getSpec (v : Version K V) (key : K) (snapshot : Nat) : Option (Entry K V) :=
  (((v.files 0).insertionSort fun a b => decide (b.number ≤ a.number)).findSome? fun f =>
      lookupRun key snapshot f.entries).or
    ((List.range' 1 (kNumLevels - 1)).findSome? fun level =>
      lookupRun key snapshot ((v.files level).flatMap (·.entries)))

/-- The shape `Version::Get` relies on: on each level a file's entries lie between its smallest and
largest keys, and above level 0 a file's largest key is the key of one of its entries and the
files are in order of their largest keys, as `FindFile` requires.  `BuildTable` and
`DoCompactionWork` record as `largest` the last key read, which is a dropped entry's when the
input ends in one; such a file is not covered by `largest_mem`. -/
structure Version.WellFormed (v : Version K V) : Prop where
  bounds : ∀ level < kNumLevels, ∀ f ∈ v.files level, ∀ e ∈ f.entries,
    f.smallest ≤ e.key ∧ e.key ≤ f.largest
  largest_mem : ∀ level < kNumLevels, 1 ≤ level → ∀ f ∈ v.files level,
    ∃ e ∈ f.entries, e.key = f.largest
  sorted : ∀ level < kNumLevels, 1 ≤ level →
    (v.files level).Pairwise fun f g => f.largest ≤ g.largest

instance (v : Version K V) : Decidable v.WellFormed :=
  decidable_of_iff
    ((∀ level < kNumLevels, ∀ f ∈ v.files level, ∀ e ∈ f.entries,
        f.smallest ≤ e.key ∧ e.key ≤ f.largest) ∧
      (∀ level < kNumLevels, 1 ≤ level → ∀ f ∈ v.files level,
        ∃ e ∈ f.entries, e.key = f.largest) ∧
      (∀ level < kNumLevels, 1 ≤ level →
        (v.files level).Pairwise fun f g => f.largest ≤ g.largest))
    ⟨fun ⟨h1, h2, h3⟩ => ⟨h1, h2, h3⟩, fun h => ⟨h.bounds, h.largest_mem, h.sorted⟩⟩

section Search

variable {key : K} {snapshot : Nat}

theorem lookupRun_append_of_lt {pre : List (Entry K V)}
    (h : ∀ e ∈ pre, e.key < InternalKey.mk' key snapshot kValueTypeForSeek)
    (run : List (Entry K V)) :
    lookupRun key snapshot (pre ++ run) = lookupRun key snapshot run := by
  have hpre : pre.dropWhile (fun e => decide (e.key < InternalKey.mk' key snapshot
      kValueTypeForSeek)) = [] := List.dropWhile_eq_nil_iff.mpr (by simpa using h)
  have hseek : seek (InternalKey.mk' key snapshot kValueTypeForSeek) (pre ++ run) =
      seek (InternalKey.mk' key snapshot kValueTypeForSeek) run := by
    simp only [seek, List.dropWhile_append, hpre, List.isEmpty_nil, if_true]
  simp only [lookupRun, hseek]

theorem lookupRun_eq_none_of_lt {run : List (Entry K V)}
    (h : ∀ e ∈ run, e.key < InternalKey.mk' key snapshot kValueTypeForSeek) :
    lookupRun key snapshot run = none := by
  simpa [lookupRun, seek] using lookupRun_append_of_lt h []

/-- A seek that stops inside `run` does not see what follows it. -/
theorem lookupRun_append_of_le {run : List (Entry K V)}
    (h : ∃ e ∈ run, InternalKey.mk' key snapshot kValueTypeForSeek ≤ e.key)
    (post : List (Entry K V)) :
    lookupRun key snapshot (run ++ post) = lookupRun key snapshot run := by
  have hne : (run.dropWhile fun e => decide (e.key < InternalKey.mk' key snapshot
      kValueTypeForSeek)).isEmpty = false := by
    obtain ⟨e, he, hle⟩ := h
    rw [List.isEmpty_eq_false_iff, ne_eq, List.dropWhile_eq_nil_iff]
    exact fun hall => absurd (by simpa using hall e he) (not_lt.mpr hle)
  obtain ⟨x, rest, hx⟩ : ∃ x rest, seek (InternalKey.mk' key snapshot kValueTypeForSeek) run =
      x :: rest := by
    cases hs : seek (InternalKey.mk' key snapshot kValueTypeForSeek) run with
    | nil => rw [seek] at hs; simp [hs] at hne
    | cons x rest => exact ⟨x, rest, rfl⟩
  have hseek : seek (InternalKey.mk' key snapshot kValueTypeForSeek) (run ++ post) =
      x :: (rest ++ post) := by
    rw [seek, List.dropWhile_append, if_neg (by simp [hne]), ← seek, hx, List.cons_append]
  simp only [lookupRun, hseek, hx]

theorem lookupRun_eq_none_of_lt_userKey {run : List (Entry K V)}
    (h : ∀ e ∈ run, key < e.key.userKey) : lookupRun key snapshot run = none := by
  unfold lookupRun
  split
  · rename_i e rest he
    have hmem : e ∈ run := (seek_sublist _ run).subset (he ▸ List.mem_cons_self)
    rw [if_neg (h e hmem).ne']
  · rfl

/-- A file whose user-key range does not hold `key` has no entry for it. -/
theorem lookupRun_eq_none_of_not_mem_range {f : RemoteMemTableMetaData K V}
    (hb : ∀ e ∈ f.entries, f.smallest ≤ e.key ∧ e.key ≤ f.largest)
    (hr : decide (f.smallest.userKey ≤ key ∧ key ≤ f.largest.userKey) = false) :
    lookupRun key snapshot f.entries = none := by
  rw [decide_eq_false_iff_not, not_and_or, not_le, not_le] at hr
  rcases hr with hlt | hgt
  · -- the file starts after `key`
    exact lookupRun_eq_none_of_lt_userKey fun e he =>
      hlt.trans_le (InternalKey.userKey_le_of_le (hb e he).1)
  · -- the file ends before `key`
    refine lookupRun_eq_none_of_lt fun e he => InternalKey.lt_iff.mpr (.inl ?_)
    simpa using (InternalKey.userKey_le_of_le (hb e he).2).trans_lt hgt

end Search

section FindFile

variable {files : List (RemoteMemTableMetaData K V)}

/-- The loop of `FindFile` is the lower-bound search for the first file that does not end before
the key; the default file it would read past the end does not end before the key. -/
theorem findFile_go_eq (files : List (RemoteMemTableMetaData K V)) (key : InternalKey K) :
    ∀ fuel left right, findFile.go files key fuel left right =
      BinarySearch.lowerBound
        (fun mid => decide ((files.getD mid ⟨0, 0, 0, 0, key, key, []⟩).largest < key))
        fuel left right
  | 0, _, _ => rfl
  | fuel + 1, left, right => by
    simp only [findFile.go, BinarySearch.lowerBound, findFile_go_eq files key fuel,
      decide_eq_true_eq]

/-- Over files in order of their largest keys, `FindFile` returns the number of files that end
before the key. -/
theorem findFile_splits (hs : files.Pairwise fun f g => f.largest ≤ g.largest)
    (key : InternalKey K) :
    BinarySearch.Splits
      (fun mid => decide ((files.getD mid ⟨0, 0, 0, 0, key, key, []⟩).largest < key))
      0 files.length (findFile files key) := by
  rw [findFile, findFile_go_eq]
  refine BinarySearch.lowerBound_splits (fun i j hij hj => ?_) _ _ _ (Nat.zero_le _)
    (by omega)
  -- a file that ends before the key is in the list, and so is every file before it
  have hjl : j < files.length := by
    by_contra hjl
    rw [List.getD_eq_default _ _ (not_lt.mp hjl), decide_eq_true_eq] at hj
    exact lt_irrefl _ hj
  rw [List.getD_eq_getElem _ _ hjl, decide_eq_true_eq] at hj
  rw [List.getD_eq_getElem _ _ (by omega), decide_eq_true_eq]
  rcases hij.lt_or_eq with hij | rfl
  · exact (List.pairwise_iff_getElem.mp hs i j (by omega) hjl hij).trans_lt hj
  · exact hj

/-- On a level above 0 whose files are in order of their largest keys and end at one of their
entries, the one file `FindFile` and the smallest-key test choose finds what a read of the whole
level as one run finds. -/
theorem levelRead_eq {key : K} {snapshot : Nat}
    (hb : ∀ f ∈ files, ∀ e ∈ f.entries, f.smallest ≤ e.key ∧ e.key ≤ f.largest)
    (hl : ∀ f ∈ files, ∃ e ∈ f.entries, e.key = f.largest)
    (hs : files.Pairwise fun f g => f.largest ≤ g.largest) :
    (match files[findFile files (InternalKey.mk' key snapshot kValueTypeForSeek)]? with
      | some f => if key < f.smallest.userKey then none else some f
      | none => none).bind (fun f => lookupRun key snapshot f.entries) =
      lookupRun key snapshot (files.flatMap (·.entries)) := by
  have hsp := findFile_splits hs (InternalKey.mk' key snapshot kValueTypeForSeek)
  -- the files before the one chosen end before the lookup key, so the run's seek passes them
  have hpre : ∀ e ∈ (files.take (findFile files (InternalKey.mk' key snapshot
      kValueTypeForSeek))).flatMap (·.entries),
      e.key < InternalKey.mk' key snapshot kValueTypeForSeek := by
    intro e he
    obtain ⟨f, hf, hef⟩ := List.mem_flatMap.mp he
    obtain ⟨i, hi, rfl⟩ := List.mem_take_iff_getElem.mp hf
    have hlt := hsp.holds i (Nat.zero_le _) (by omega)
    rw [List.getD_eq_getElem _ _ (by omega), decide_eq_true_eq] at hlt
    exact (hb _ (List.getElem_mem _) e hef).2.trans_lt hlt
  have hsplit : files.flatMap (·.entries) =
      (files.take (findFile files (InternalKey.mk' key snapshot kValueTypeForSeek))).flatMap
        (·.entries) ++
      (files.drop (findFile files (InternalKey.mk' key snapshot kValueTypeForSeek))).flatMap
        (·.entries) := by
    rw [← List.flatMap_append, List.take_append_drop]
  rw [hsplit, lookupRun_append_of_lt hpre]
  by_cases hr : findFile files (InternalKey.mk' key snapshot kValueTypeForSeek) < files.length
  · -- the chosen file ends at or after the lookup key, at one of its entries
    rw [List.drop_eq_getElem_cons hr, List.flatMap_cons, List.getElem?_eq_getElem hr]
    obtain ⟨e, he, hel⟩ := hl _ (List.getElem_mem hr)
    have hge := hsp.fails _ (Nat.le_refl _) hr
    rw [List.getD_eq_getElem _ _ hr, decide_eq_false_iff_not, not_lt] at hge
    rw [lookupRun_append_of_le ⟨e, he, hel ▸ hge⟩]
    dsimp only
    split_ifs with hk
    · -- it starts after the key's user key, so neither read finds an entry of it
      exact (lookupRun_eq_none_of_lt_userKey fun x hx =>
        hk.trans_le (InternalKey.userKey_le_of_le (hb _ (List.getElem_mem hr) x hx).1)).symm
    · rfl
  · -- every file ends before the lookup key
    rw [List.drop_eq_nil_of_le (by omega), List.getElem?_eq_none (by omega)]
    rfl

end FindFile

/-- A file `ForEachOverlapping` visits is a level-0 file whose user-key range holds the key, or
the file `FindFile` finds on a higher level. -/
theorem Version.mem_overlapping {v : Version K V} {key : K} {ikey : InternalKey K}
    {f : RemoteMemTableMetaData K V} (hf : f ∈ v.overlapping key ikey) :
    (f ∈ v.files 0 ∧ f.smallest.userKey ≤ key ∧ key ≤ f.largest.userKey) ∨
      ∃ level, 1 ≤ level ∧ level < kNumLevels ∧
        (v.files level)[findFile (v.files level) ikey]? = some f := by
  unfold overlapping at hf
  rcases List.mem_append.mp hf with h0 | hk
  · obtain ⟨hmem, hq⟩ := List.mem_filter.mp ((List.mem_insertionSort _).mp h0)
    exact .inl ⟨hmem, by simpa using hq⟩
  · obtain ⟨level, hlevel, hfl⟩ := List.mem_filterMap.mp hk
    rw [List.mem_range'_1] at hlevel
    refine .inr ⟨level, hlevel.1, by omega, ?_⟩
    split at hfl
    · rename_i g hg
      split_ifs at hfl
      cases hfl
      exact hg
    · cases hfl

/-- The file `FindFile` finds ends at or after the key. -/
theorem le_largest_of_findFile {files : List (RemoteMemTableMetaData K V)}
    (hs : files.Pairwise fun f g => f.largest ≤ g.largest) {key : InternalKey K}
    {f : RemoteMemTableMetaData K V} (hf : files[findFile files key]? = some f) :
    key ≤ f.largest := by
  obtain ⟨hr, rfl⟩ := List.getElem?_eq_some_iff.mp hf
  have hge := (findFile_splits hs key).fails _ (Nat.le_refl _) hr
  rwa [List.getD_eq_getElem _ _ hr, decide_eq_false_iff_not, not_lt] at hge

/-- `Version::Get` on a well-formed version is the read the design describes: the level-0 files
newest first, whatever their user-key ranges, and then each higher level as the one sorted run of
its files; `FindFile`'s binary search and the two user-key tests skip only files that hold no
entry of the key. -/
theorem Version.get_eq_getSpec {v : Version K V} (hv : v.WellFormed) (key : K)
    (snapshot : Nat) : v.get key snapshot = v.getSpec key snapshot := by
  have : IsTrans (RemoteMemTableMetaData K V) fun a b => decide (b.number ≤ a.number) = true :=
    ⟨fun a b c h1 h2 => by simp only [decide_eq_true_eq] at *; omega⟩
  have : Std.Total fun a b : RemoteMemTableMetaData K V => decide (b.number ≤ a.number) = true :=
    ⟨fun a b => by simp only [decide_eq_true_eq]; omega⟩
  unfold get getSpec overlapping
  dsimp only
  rw [List.findSome?_append, List.findSome?_filterMap, List.insertionSort_filter]
  congr 1
  · -- level 0: the user-key range test skips only files without an entry of the key
    refine List.findSome?_filter_of_none fun f hf hq => ?_
    exact lookupRun_eq_none_of_not_mem_range
      (hv.bounds 0 (by decide) f (List.mem_insertionSort _ |>.mp hf)) hq
  · -- each higher level: the one file `FindFile` chooses reads as the whole level does
    refine List.findSome?_congr fun level hlevel => ?_
    rw [List.mem_range'_1] at hlevel
    exact levelRead_eq (hv.bounds level (by omega)) (hv.largest_mem level (by omega) hlevel.1)
      (hv.sorted level (by omega) hlevel.1)

/-- A version with two files on level 1, each ending at its last entry. -/
def twoFileLevel1 : Version Nat Nat :=
  let f : RemoteMemTableMetaData Nat Nat :=
    ⟨1, 7, 1, 0, .mk' 1 3 .kTypeValue, .mk' 2 4 .kTypeValue,
      [⟨.mk' 1 3 .kTypeValue, 10⟩, ⟨.mk' 2 4 .kTypeValue, 20⟩]⟩
  let g : RemoteMemTableMetaData Nat Nat :=
    ⟨1, 8, 1, 0, .mk' 3 1 .kTypeValue, .mk' 5 2 .kTypeValue,
      [⟨.mk' 3 1 .kTypeValue, 30⟩, ⟨.mk' 5 2 .kTypeValue, 50⟩]⟩
  ⟨[[], [f, g], [], [], [], []], List.replicate kNumLevels []⟩

theorem get_eq_getSpec_two_files :
    twoFileLevel1.WellFormed ∧ twoFileLevel1.get 3 5 = twoFileLevel1.getSpec 3 5 :=
  ⟨by decide, Version.get_eq_getSpec (by decide) 3 5⟩

end DLSM
