import DLSM.Version.Edit
import DLSM.Lib.SortedList

/-! What `VersionSet::Builder` makes of one level (db/version_set.cc).  `Apply` collects the
level's deletions, as `(number, node id)` pairs, and its added files in a set ordered by
`BySmallestKey`; `SaveTo` merges the added files into the base files with `std::upper_bound` and
drops the deleted ones in `MaybeAddFile`.  `BySmallestKey` is the order of the pair (smallest
key, file number), so the added set is a list sorted by that pair and the merge is the one of
`SortedList.mergeUpperBound`.

When the base level is strictly increasing in that order, the added files have pairs of their
own, shared with no base file, and none of them is deleted at its level by the same edit, the
level `SaveTo` writes is the base files that are not deleted together with the added files,
each once and in increasing order.  A file added twice, or added over a base file of the same
pair, is written twice: `MaybeAddFile` only asserts against it.  A file deleted and added again
at one level by one edit makes `Apply` erase from the multimap of deletions while it iterates
over it, and then step the erased iterator. -/

namespace DLSM

variable {K V : Type} [LinearOrder K]

/-- The order of `BySmallestKey`: the smallest key, then the file number. -/
def RemoteMemTableMetaData.sortKey (f : RemoteMemTableMetaData K V) : InternalKey K ×ₗ Nat :=
  toLex (f.smallest, f.number)

/-- The files an edit adds at `level`, in the edit's order. -/
def VersionEdit.addedAt (e : VersionEdit K V) (level : Nat) : List (RemoteMemTableMetaData K V) :=
  (e.newFiles.filter fun p => p.1 = level).map Prod.snd

/-- The `(number, node id)` pairs an edit deletes at `level`. -/
def VersionEdit.deletedAt (e : VersionEdit K V) (level : Nat) : List (Nat × Nat) :=
  (e.deletedFiles.filter fun d => d.1 = level).map (·.2)

theorem bySmallestKey_eq (f g : RemoteMemTableMetaData K V) :
    bySmallestKey f g = decide (f.sortKey < g.sortKey) := by
  simp only [bySmallestKey, RemoteMemTableMetaData.sortKey, Prod.Lex.toLex_lt_toLex]

theorem insertAdded_eq (f : RemoteMemTableMetaData K V) (gs : List (RemoteMemTableMetaData K V)) :
    insertAdded f gs = SortedList.insert RemoteMemTableMetaData.sortKey f gs := by
  induction gs with
  | nil => rfl
  | cons g gs ih =>
    simp only [insertAdded, SortedList.insert, bySmallestKey_eq, decide_eq_true_eq, ih]

omit [LinearOrder K] in
theorem mem_addedAt {e : VersionEdit K V} {level : Nat} {f : RemoteMemTableMetaData K V} :
    f ∈ e.addedAt level ↔ (level, f) ∈ e.newFiles := by
  simp only [VersionEdit.addedAt, List.mem_map, List.mem_filter, decide_eq_true_eq]
  constructor
  · rintro ⟨⟨l, g⟩, ⟨hp, rfl⟩, rfl⟩
    exact hp
  · intro h
    exact ⟨(level, f), ⟨h, rfl⟩, rfl⟩

omit [LinearOrder K] in
theorem mem_deletedAt {e : VersionEdit K V} {level : Nat} {f : RemoteMemTableMetaData K V} :
    f.fileId ∈ e.deletedAt level ↔ (level, f.number, f.creatorNodeId) ∈ e.deletedFiles := by
  simp only [VersionEdit.deletedAt, RemoteMemTableMetaData.fileId, List.mem_map, List.mem_filter,
    decide_eq_true_eq]
  constructor
  · rintro ⟨⟨l, d⟩, ⟨hd, rfl⟩, rfl⟩
    exact hd
  · intro h
    exact ⟨(level, f.number, f.creatorNodeId), ⟨h, rfl⟩, rfl⟩

/-! ### `Apply` -/

/-- The files of an edit, one after another: each file of `level` takes its identity off the
deletions and joins the added files. -/
theorem foldl_newFiles (level : Nat) (files : List (Nat × RemoteMemTableMetaData K V))
    (st : LevelState K V) :
    files.foldl (fun (st : LevelState K V) (l, f) =>
        if l = level then ⟨st.deletedFiles.filter (· ≠ f.fileId), insertAdded f st.addedFiles⟩
        else st) st =
      ⟨st.deletedFiles.filter fun d =>
          d ∉ ((files.filter fun p => p.1 = level).map Prod.snd).map RemoteMemTableMetaData.fileId,
        ((files.filter fun p => p.1 = level).map Prod.snd).foldl (fun gs f => insertAdded f gs)
          st.addedFiles⟩ := by
  induction files generalizing st with
  | nil => simp
  | cons p files ih =>
    obtain ⟨l, f⟩ := p
    rw [List.foldl_cons, ih]
    by_cases hl : l = level
    · -- a file of the level: its identity leaves the deletions, the file joins the added set
      subst hl
      simp only [if_true, List.filter_cons, decide_true, List.map_cons, List.foldl_cons,
        List.filter_filter, List.mem_cons, not_or]
      congr 2
      funext d
      simp [Bool.and_comm]
    · rw [List.filter_cons_of_neg (by simpa using hl)]
      simp [hl]

/-- The builder's state for a level after `Apply(edit)`. -/
theorem builderApply_getD (e : VersionEdit K V) {level : Nat} (hl : level < kNumLevels) :
    (builderApply e).getD level ⟨[], []⟩ =
      ⟨(e.deletedAt level).filter fun d => d ∉ (e.addedAt level).map RemoteMemTableMetaData.fileId,
        (e.addedAt level).foldl (fun gs f => insertAdded f gs) []⟩ := by
  rw [builderApply, List.getD_eq_getElem?_getD, List.getElem?_map, List.getElem?_range hl]
  exact foldl_newFiles level e.newFiles _

/-! ### `SaveTo` -/

/-- The level `SaveTo` writes does not depend on the `UnderCompaction` flags: they only decide
`in_progress`. -/
theorem saveLevel_fst (deleted flags : List (Nat × Nat))
    (base added : List (RemoteMemTableMetaData K V)) :
    (saveLevel deleted flags base added).1 =
      (SortedList.mergeUpperBound RemoteMemTableMetaData.sortKey base added).filter
        fun f => !deleted.contains f.fileId := by
  induction added generalizing flags base with
  | nil => rfl
  | cons a added ih =>
    have hp : (fun b => !bySmallestKey a b) = fun b => !decide (a.sortKey < b.sortKey) :=
      funext fun b => by rw [bySmallestKey_eq]
    simp only [saveLevel, maybeAddFiles, ih, hp, SortedList.mergeUpperBound, List.filter_append,
      List.filter_cons, List.append_assoc, List.filter_nil]
    split_ifs <;> rfl

omit [LinearOrder K] in
/-- A fold that appends one level a step. -/
private theorem foldl_levels {step : Version K V × List (Nat × Nat) → Nat →
      Version K V × List (Nat × Nat)} {g : Nat → List (RemoteMemTableMetaData K V)}
    (hstep : ∀ acc level, (step acc level).1.levels = acc.1.levels ++ [g level])
    (ls : List Nat) (acc : Version K V × List (Nat × Nat)) :
    (ls.foldl step acc).1.levels = acc.1.levels ++ ls.map g := by
  induction ls generalizing acc with
  | nil => simp
  | cons l ls ih => rw [List.foldl_cons, ih, hstep, List.map_cons, List.append_assoc]; rfl

theorem saveTo_files (base : Version K V) (builder : List (LevelState K V))
    (flags : List (Nat × Nat)) {level : Nat} (hl : level < kNumLevels) :
    (saveTo base builder flags).1.files level =
      (SortedList.mergeUpperBound RemoteMemTableMetaData.sortKey (base.files level)
          (builder.getD level ⟨[], []⟩).addedFiles).filter
        fun f => !(builder.getD level ⟨[], []⟩).deletedFiles.contains f.fileId := by
  simp only [saveTo]
  rw [Version.files, foldl_levels (g := fun level =>
      (SortedList.mergeUpperBound RemoteMemTableMetaData.sortKey (base.files level)
          (builder.getD level ⟨[], []⟩).addedFiles).filter
        fun f => !(builder.getD level ⟨[], []⟩).deletedFiles.contains f.fileId)
    (fun acc level => ?_), List.nil_append, List.getD_eq_getElem?_getD, List.getElem?_map,
    List.getElem?_range hl, Option.map_some, Option.getD_some]
  -- each step appends the level `saveLevel` writes
  simp only [saveLevel_fst]

/-! ### The level written -/

section Level

variable {base : Version K V} {e : VersionEdit K V} {level : Nat}

/-- The files added at a level: sorted, and the edit's own files of that level once each. -/
theorem addedFiles_spec (hadded : ((e.addedAt level).map RemoteMemTableMetaData.sortKey).Nodup) :
    SortedList.Sorted RemoteMemTableMetaData.sortKey
        ((e.addedAt level).foldl (fun gs f => insertAdded f gs) []) ∧
      ((e.addedAt level).foldl (fun gs f => insertAdded f gs) []).Perm (e.addedAt level) := by
  simp only [insertAdded_eq]
  have hperm := @SortedList.foldl_insert_perm _ _ _ RemoteMemTableMetaData.sortKey
    (e.addedAt level) [] (by simpa using hadded)
  exact ⟨SortedList.foldl_insert_sorted _ List.Pairwise.nil, by simpa using hperm⟩

/-- `Builder(base).Apply(e)` then `SaveTo`: at a level where the base files strictly increase by
(smallest key, number), the added files have pairs of their own and none is deleted at its level
by `e`, the level holds the base files `e` does not delete and the files `e` adds there, once
each, in increasing order. -/
theorem logAndApply_files_eq_difference (base : Version K V) (flags : List (Nat × Nat))
    (e : VersionEdit K V) {level : Nat} (hl : level < kNumLevels)
    (hbase : (base.files level).Pairwise fun f g => bySmallestKey f g)
    (hadded : ((e.addedAt level).map RemoteMemTableMetaData.sortKey).Nodup)
    (hfresh : ∀ f ∈ base.files level, ∀ g ∈ e.addedAt level, f.sortKey ≠ g.sortKey)
    (hreadd : ∀ g ∈ e.addedAt level, (level, g.number, g.creatorNodeId) ∉ e.deletedFiles) :
    ((logAndApply base flags e).1.files level).Pairwise (fun f g => bySmallestKey f g) ∧
      ((logAndApply base flags e).1.files level).Nodup ∧
      ∀ f, f ∈ (logAndApply base flags e).1.files level ↔
        (f ∈ base.files level ∧ (level, f.number, f.creatorNodeId) ∉ e.deletedFiles) ∨
          (level, f) ∈ e.newFiles := by
  obtain ⟨hAsorted, hAperm⟩ := addedFiles_spec hadded
  set A := (e.addedAt level).foldl (fun gs f => insertAdded f gs) []
  -- no identity `e` adds at the level is among its deletions there, so all of them stay
  have hdel : ((e.deletedAt level).filter fun d =>
      d ∉ (e.addedAt level).map RemoteMemTableMetaData.fileId) = e.deletedAt level := by
    refine List.filter_eq_self.2 fun d hd => ?_
    simp only [List.mem_map, not_exists, not_and, decide_eq_true_eq]
    rintro g hg rfl
    exact hreadd g hg (mem_deletedAt.1 hd)
  have hbase' : SortedList.Sorted RemoteMemTableMetaData.sortKey (base.files level) :=
    hbase.imp fun h => by simpa [bySmallestKey_eq] using h
  have hmerged := SortedList.mergeUpperBound_sorted hbase' hAsorted
    fun f hf g hg => hfresh f hf g (hAperm.subset hg)
  have hout : (logAndApply base flags e).1.files level =
      (SortedList.mergeUpperBound RemoteMemTableMetaData.sortKey (base.files level) A).filter
        fun f => !(e.deletedAt level).contains f.fileId := by
    rw [logAndApply, saveTo_files _ _ _ hl, builderApply_getD e hl, hdel]
  have hsorted := hmerged.filter (fun f => !(e.deletedAt level).contains f.fileId)
  rw [hout]
  refine ⟨hsorted.imp fun h => by simpa [bySmallestKey_eq] using h,
    hsorted.imp fun h heq => ne_of_apply_ne RemoteMemTableMetaData.sortKey (ne_of_lt h) heq,
    fun f => ?_⟩
  simp only [List.mem_filter, (SortedList.mergeUpperBound_perm _ A).mem_iff, List.mem_append,
    hAperm.mem_iff, Bool.not_eq_true', List.contains_eq_mem, decide_eq_false_iff_not,
    mem_deletedAt, mem_addedAt]
  constructor
  · rintro ⟨hf | hf, hd⟩
    · exact .inl ⟨hf, hd⟩
    · exact .inr hf
  · rintro (⟨hf, hd⟩ | hf)
    · exact ⟨.inl hf, hd⟩
    · exact ⟨.inr hf, hreadd f (mem_addedAt.2 hf)⟩

end Level

/-- A file at level 1, for the examples below. -/
def fileAt (number : Nat) (smallest largest : Nat) : RemoteMemTableMetaData Nat Nat :=
  ⟨1, number, 0, 100, ⟨smallest, 256⟩, ⟨largest, 256⟩, []⟩

/-- A version with two files at level 1. -/
def twoFilesAtLevel1 : Version Nat Nat :=
  ⟨[[], [fileAt 1 10 19, fileAt 3 30 39], [], [], [], []], List.replicate kNumLevels []⟩

theorem logAndApply_files_eq_difference_replace :
    let e : VersionEdit Nat Nat := ⟨[(1, 1, 0)], [(1, fileAt 2 20 29)]⟩
    (twoFilesAtLevel1.files 1).Pairwise (fun f g => bySmallestKey f g) ∧
    ((e.addedAt 1).map RemoteMemTableMetaData.sortKey).Nodup ∧
    (∀ f ∈ twoFilesAtLevel1.files 1, ∀ g ∈ e.addedAt 1, f.sortKey ≠ g.sortKey) ∧
    (∀ g ∈ e.addedAt 1, (1, g.number, g.creatorNodeId) ∉ e.deletedFiles) ∧
    ((logAndApply twoFilesAtLevel1 [] e).1.files 1).Pairwise (fun f g => bySmallestKey f g) ∧
      ((logAndApply twoFilesAtLevel1 [] e).1.files 1).Nodup ∧
      ∀ f, f ∈ (logAndApply twoFilesAtLevel1 [] e).1.files 1 ↔
        (f ∈ twoFilesAtLevel1.files 1 ∧ (1, f.number, f.creatorNodeId) ∉ e.deletedFiles) ∨
          (1, f) ∈ e.newFiles :=
  have hbase : (twoFilesAtLevel1.files 1).Pairwise (fun f g => bySmallestKey f g) := by decide
  have hadded : (((⟨[(1, 1, 0)], [(1, fileAt 2 20 29)]⟩ : VersionEdit Nat Nat).addedAt 1).map
      RemoteMemTableMetaData.sortKey).Nodup := by decide
  have hfresh : ∀ f ∈ twoFilesAtLevel1.files 1,
      ∀ g ∈ (⟨[(1, 1, 0)], [(1, fileAt 2 20 29)]⟩ : VersionEdit Nat Nat).addedAt 1,
        f.sortKey ≠ g.sortKey := by decide
  have hreadd : ∀ g ∈ (⟨[(1, 1, 0)], [(1, fileAt 2 20 29)]⟩ : VersionEdit Nat Nat).addedAt 1,
      (1, g.number, g.creatorNodeId) ∉ [(1, 1, 0)] := by decide
  ⟨hbase, hadded, hfresh, hreadd,
    logAndApply_files_eq_difference twoFilesAtLevel1 [] _ (by decide) hbase hadded hfresh hreadd⟩

/-- An edit that adds at level 1 the file level 1 already holds, deleting nothing: `SaveTo`
writes the file twice, the base copy before the added one. -/
theorem logAndApply_writes_readded_file_twice :
    (logAndApply twoFilesAtLevel1 [] ⟨[], [(1, fileAt 1 10 19)]⟩).1.files 1 =
      [fileAt 1 10 19, fileAt 1 10 19, fileAt 3 30 39] := by
  decide

end DLSM
