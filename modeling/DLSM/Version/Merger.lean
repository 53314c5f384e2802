import DLSM.Version.Builder

/-! `VersionEdit_Merger` (db/version_edit.h, db/version_edit.cc), with which the memory node folds
the version edits it receives into one for `Memory_Node_Keeper::PersistSSTables`
(memory_node/memory_node_keeper.cpp).  The merger knows files by number alone: the deletion of a
file that an earlier edit added cancels that addition, at whatever level, and otherwise joins
`deleted_files_`.  An edit with exactly one deletion counts as a trivial move (`IsTrival`); when
the merger has not seen the file it deletes, the file's number goes to `only_trival_change`, for
its table is durable already and `PersistSSTables` starts no thread for it.

`PersistSSTables` sizes its array of threads as `GetNewFilesNum() - only_trival_change.size()`,
which counts right when every number of `only_trival_change` is a key of `new_files_`.  That
holds after any run of edits in which each edit with one deletion adds a file under the number it
deletes, as a trivial move does.  A compaction with a single input also has one deletion, but
adds its outputs under new numbers: its input's number stays in `only_trival_change` with no file
behind it, and `PersistSSTables` writes a thread past the end of its array. -/

namespace DLSM

variable {K V : Type}

/-- `UNPIN_GRANULARITY`. -/
def unpinGranularity : Nat := 10

/-- The order of a `std::set` of `(level, number, node id)` tuples. -/
def deletedFileKey (d : Nat × Nat × Nat) : Nat ×ₗ (Nat ×ₗ Nat) := toLex (d.1, toLex d.2)

/-- `VersionEdit::IsTrival`: exactly one deleted file.  The deletions of an edit are a set in the
source, so the list holds each once. -/
def VersionEdit.isTrival (e : VersionEdit K V) : Bool := decide (e.deletedFiles.length = 1)

/-- `new_files_.erase(number)`: how many entries it removed, and the map without them. -/
def eraseNewFile (files : List (Nat × RemoteMemTableMetaData K V)) (number : Nat) :
    Nat × List (Nat × RemoteMemTableMetaData K V) :=
  ((files.filter fun p => p.1 = number).length, files.filter fun p => p.1 ≠ number)

/-- `new_files_.insert({f->number, f})`, which keeps the entry already there under the number. -/
def insertNewFile (files : List (Nat × RemoteMemTableMetaData K V))
    (f : RemoteMemTableMetaData K V) : List (Nat × RemoteMemTableMetaData K V) :=
  if f.number ∈ files.map Prod.fst then files else files ++ [(f.number, f)]

section Maps

variable {files : List (Nat × RemoteMemTableMetaData K V)}

theorem nodup_eraseNewFile (h : (files.map Prod.fst).Nodup) (number : Nat) :
    ((eraseNewFile files number).2.map Prod.fst).Nodup :=
  h.sublist (List.filter_sublist.map Prod.fst)

theorem nodup_insertNewFile (h : (files.map Prod.fst).Nodup) (f : RemoteMemTableMetaData K V) :
    ((insertNewFile files f).map Prod.fst).Nodup := by
  unfold insertNewFile
  split
  · exact h
  · rename_i hf
    rw [List.map_append, List.map_singleton]
    refine List.nodup_append.2 ⟨h, List.pairwise_singleton _ _, fun a ha b hb heq => ?_⟩
    have hb' : b = f.number := by simpa using hb
    exact hf (hb' ▸ heq ▸ ha)

theorem eraseNewFile_fst_eq_zero {number : Nat} :
    (eraseNewFile files number).1 = 0 ↔ number ∉ files.map Prod.fst := by
  simp only [eraseNewFile, List.length_eq_zero_iff, List.filter_eq_nil_iff, decide_eq_true_eq,
    List.mem_map, not_exists, not_and]

theorem mem_eraseNewFile {number k : Nat} :
    k ∈ (eraseNewFile files number).2.map Prod.fst ↔ k ∈ files.map Prod.fst ∧ k ≠ number := by
  simp only [eraseNewFile, List.mem_map, List.mem_filter, decide_eq_true_eq]
  constructor
  · rintro ⟨p, ⟨hp, hne⟩, rfl⟩
    exact ⟨⟨p, hp, rfl⟩, hne⟩
  · rintro ⟨⟨p, hp, rfl⟩, hne⟩
    exact ⟨p, ⟨hp, hne⟩, rfl⟩

/-- An insertion keeps every number and adds the file's own. -/
theorem mem_insertNewFile {k : Nat} (f : RemoteMemTableMetaData K V)
    (h : k ∈ files.map Prod.fst ∨ k = f.number) : k ∈ (insertNewFile files f).map Prod.fst := by
  unfold insertNewFile
  split
  · rename_i hf
    rcases h with h | rfl
    · exact h
    · exact hf
  · rw [List.map_append, List.mem_append]
    rcases h with h | rfl
    · exact .inl h
    · exact .inr (List.mem_singleton_self _)

end Maps

/-- `VersionEdit_Merger`, with the fields `merge_one_edit` reads and writes: the two `std::set`s
as sorted lists, and `new_files_`, an `unordered_map` from file numbers, as a list of pairs with
distinct numbers.  `debug_map` exists only in debug builds. -/
structure Merger (K V : Type) where
  deletedFiles : List (Nat × Nat × Nat)
  deletedFiles_sorted : SortedList.Sorted deletedFileKey deletedFiles
  newFiles : List (Nat × RemoteMemTableMetaData K V)
  newFiles_nodup : (newFiles.map Prod.fst).Nodup
  onlyTrivalChange : List Nat
  onlyTrivalChange_sorted : SortedList.Sorted id onlyTrivalChange
  mergedFileNumbers : List Nat
  readyToUnpinMergedFile : Bool

/-- A merger with nothing merged, as `Clear` and `Swap` with a new one leave it. -/
def Merger.empty : Merger K V := ⟨[], .nil, [], .nil, [], .nil, [], false⟩

/-- One deletion `(level, number, node id)` of an edit, the body of the first loop of
`merge_one_edit`; `trival` is the edit's `IsTrival()`. -/
def Merger.mergeDeletion (m : Merger K V) (trival : Bool) (d : Nat × Nat × Nat) : Merger K V :=
  if (eraseNewFile m.newFiles d.2.1).1 = 0 then
    -- a file no merged edit added: the deletion is kept, and a trivial move's file is durable
    { m with
      deletedFiles := SortedList.insert deletedFileKey d m.deletedFiles
      deletedFiles_sorted := SortedList.insert_sorted d m.deletedFiles_sorted
      onlyTrivalChange :=
        if trival then SortedList.insert id d.2.1 m.onlyTrivalChange else m.onlyTrivalChange
      onlyTrivalChange_sorted := by
        split
        · exact SortedList.insert_sorted _ m.onlyTrivalChange_sorted
        · exact m.onlyTrivalChange_sorted }
  else if trival then
    { m with
      newFiles := (eraseNewFile m.newFiles d.2.1).2
      newFiles_nodup := nodup_eraseNewFile m.newFiles_nodup d.2.1 }
  else if d.2.1 ∈ m.onlyTrivalChange then
    { m with
      newFiles := (eraseNewFile m.newFiles d.2.1).2
      newFiles_nodup := nodup_eraseNewFile m.newFiles_nodup d.2.1
      onlyTrivalChange := m.onlyTrivalChange.erase d.2.1
      onlyTrivalChange_sorted := m.onlyTrivalChange_sorted.sublist (List.erase_sublist) }
  else
    { m with
      newFiles := (eraseNewFile m.newFiles d.2.1).2
      newFiles_nodup := nodup_eraseNewFile m.newFiles_nodup d.2.1
      mergedFileNumbers := m.mergedFileNumbers ++ [d.2.1]
      readyToUnpinMergedFile := m.readyToUnpinMergedFile ||
        decide (unpinGranularity ≤ m.mergedFileNumbers.length + 1) }

/-- One new file of an edit, the body of the second loop of `merge_one_edit`. -/
def Merger.insertNew (m : Merger K V) (f : RemoteMemTableMetaData K V) : Merger K V :=
  { m with
    newFiles := insertNewFile m.newFiles f
    newFiles_nodup := nodup_insertNewFile m.newFiles_nodup f }

/-- `VersionEdit_Merger::merge_one_edit`: the edit's deletions in order, then its new files. -/
def Merger.mergeOneEdit (m : Merger K V) (edit : VersionEdit K V) : Merger K V :=
  edit.newFiles.foldl (fun m p => m.insertNew p.2)
    (edit.deletedFiles.foldl (fun m d => m.mergeDeletion edit.isTrival d) m)

/-- The loop of `PersistSSTables` over `new_files_`: a file outside `only_trival_change` gets
the thread at index `i` of an array of `threadNumber`; `none` for an index past the end. -/
def startThreads (onlyTrival : List Nat) (threadNumber : Int) :
    Nat → List (Nat × RemoteMemTableMetaData K V) → Option (List Nat)
  | _, [] => some []
  | i, (n, _) :: files =>
    if n ∈ onlyTrival then startThreads onlyTrival threadNumber i files
    else if (i : Int) < threadNumber then
      (startThreads onlyTrival threadNumber (i + 1) files).map (n :: ·)
    else none

/-- `Memory_Node_Keeper::PersistSSTables`: the new files it persists, one thread each, in an
array of `GetNewFilesNum() - only_trival_change.size()` threads.  `none` when that count is
negative, as `new` of a negative length throws, when the loop writes past the array, or when a
slot is joined that holds no thread. -/
def persistSSTables (m : Merger K V) : Option (List Nat) :=
  let threadNumber : Int := m.newFiles.length - m.onlyTrivalChange.length
  if threadNumber < 0 then none
  else
    match startThreads m.onlyTrivalChange threadNumber 0 m.newFiles with
    | some started => if (started.length : Int) = threadNumber then some started else none
    | none => none

/-! ### The threads `PersistSSTables` starts -/

/-- Every number of `only_trival_change` is a key of `new_files_`, which `PersistSSTables`
asserts in debug builds. -/
def Merger.TrivalKnown (m : Merger K V) : Prop :=
  ∀ n ∈ m.onlyTrivalChange, n ∈ m.newFiles.map Prod.fst

theorem startThreads_eq (s : List Nat) (threadNumber : Int) :
    ∀ (files : List (Nat × RemoteMemTableMetaData K V)) (i : Nat),
      (i : Int) + ((files.map Prod.fst).filter fun n => n ∉ s).length ≤ threadNumber →
      startThreads s threadNumber i files = some ((files.map Prod.fst).filter fun n => n ∉ s)
  | [], _, _ => rfl
  | (n, f) :: files, i, h => by
    by_cases hn : n ∈ s
    · have h' : (i : Int) + ((files.map Prod.fst).filter fun n => n ∉ s).length ≤ threadNumber := by
        simpa [hn] using h
      simp [startThreads, hn, startThreads_eq s threadNumber files i h']
    · -- the file takes slot `i`, which the count puts inside the array
      have hlen : (i : Int) + 1 + ((files.map Prod.fst).filter fun n => n ∉ s).length ≤
          threadNumber := by
        simp only [List.map_cons, List.filter_cons, hn, not_false_eq_true, decide_true, if_true,
          List.length_cons] at h
        push_cast at h
        omega
      have hi : (i : Int) < threadNumber := by omega
      have hrest := startThreads_eq s threadNumber files (i + 1) (by push_cast; exact hlen)
      simp [startThreads, hn, hi, hrest]

/-- With `only_trival_change` among the keys, the keys outside it are as many as the threads. -/
theorem length_filter_not_mem {keys s : List Nat} (hkeys : keys.Nodup) (hs : s.Nodup)
    (hsub : ∀ n ∈ s, n ∈ keys) :
    keys.length = s.length + (keys.filter fun n => n ∉ s).length := by
  have hperm : (keys.filter fun n => n ∈ s).Perm s :=
    (List.perm_ext_iff_of_nodup (hkeys.sublist List.filter_sublist) hs).2 fun n => by
      simp only [List.mem_filter, decide_eq_true_eq]
      exact ⟨And.right, fun h => ⟨hsub n h, h⟩⟩
  rw [List.length_eq_length_filter_add (fun n => decide (n ∈ s)), hperm.length_eq]
  simp only [decide_not]

/-- When `only_trival_change` names only new files, `PersistSSTables` persists every other new
file and fills its array exactly. -/
theorem persistSSTables_eq {m : Merger K V} (h : m.TrivalKnown) :
    persistSSTables m = some ((m.newFiles.map Prod.fst).filter fun n => n ∉ m.onlyTrivalChange) := by
  have hs : m.onlyTrivalChange.Nodup := m.onlyTrivalChange_sorted.imp ne_of_lt
  have hcount := length_filter_not_mem m.newFiles_nodup hs h
  rw [List.length_map] at hcount
  have hT : (m.newFiles.length : Int) - m.onlyTrivalChange.length =
      ((m.newFiles.map Prod.fst).filter fun n => n ∉ m.onlyTrivalChange).length := by
    rw [hcount]; push_cast; omega
  dsimp only [persistSSTables]
  rw [hT, if_neg (by omega), startThreads_eq _ _ m.newFiles 0 (by simp)]
  dsimp only
  rw [if_pos rfl]

/-! ### Merging edits -/

section Merge

variable {m : Merger K V}

theorem onlyTrivalChange_insertNew (f : RemoteMemTableMetaData K V) :
    (m.insertNew f).onlyTrivalChange = m.onlyTrivalChange := rfl

theorem newFiles_mergeDeletion (m : Merger K V) (trival : Bool) (d : Nat × Nat × Nat) :
    (m.mergeDeletion trival d).newFiles =
      if (eraseNewFile m.newFiles d.2.1).1 = 0 then m.newFiles
      else (eraseNewFile m.newFiles d.2.1).2 := by
  unfold Merger.mergeDeletion
  split_ifs <;> rfl

theorem onlyTrivalChange_mergeDeletion (m : Merger K V) (trival : Bool) (d : Nat × Nat × Nat) :
    (m.mergeDeletion trival d).onlyTrivalChange =
      if (eraseNewFile m.newFiles d.2.1).1 = 0 then
        (if trival then SortedList.insert id d.2.1 m.onlyTrivalChange else m.onlyTrivalChange)
      else if trival then m.onlyTrivalChange
      else if d.2.1 ∈ m.onlyTrivalChange then m.onlyTrivalChange.erase d.2.1
      else m.onlyTrivalChange := by
  unfold Merger.mergeDeletion
  split_ifs <;> rfl

/-- Inserting new files keeps every key, adds their numbers, and leaves `only_trival_change`. -/
theorem foldl_insertNew (files : List (Nat × RemoteMemTableMetaData K V)) (m : Merger K V) :
    (files.foldl (fun m p => m.insertNew p.2) m).onlyTrivalChange = m.onlyTrivalChange ∧
      ∀ k, k ∈ m.newFiles.map Prod.fst ∨ k ∈ files.map (fun p => p.2.number) →
        k ∈ (files.foldl (fun m p => m.insertNew p.2) m).newFiles.map Prod.fst := by
  induction files generalizing m with
  | nil => exact ⟨rfl, fun k h => by simpa using h⟩
  | cons p files ih =>
    obtain ⟨htrival, hkeys⟩ := ih (m.insertNew p.2)
    refine ⟨htrival, fun k hk => hkeys k ?_⟩
    rcases hk with hk | hk
    · exact .inl (mem_insertNewFile p.2 (.inl hk))
    · rw [List.map_cons, List.mem_cons] at hk
      rcases hk with rfl | hk'
      · exact .inl (mem_insertNewFile p.2 (.inr rfl))
      · exact .inr hk'

/-- A deletion of an edit that is not trivial keeps `only_trival_change` among the keys: a
number leaves the keys only when it leaves `only_trival_change` too. -/
theorem Merger.TrivalKnown.mergeDeletion_false (hm : m.TrivalKnown) (d : Nat × Nat × Nat) :
    (m.mergeDeletion false d).TrivalKnown := by
  have hs : m.onlyTrivalChange.Nodup := m.onlyTrivalChange_sorted.imp ne_of_lt
  intro n hn
  rw [onlyTrivalChange_mergeDeletion] at hn
  rw [newFiles_mergeDeletion]
  simp only [Bool.false_eq_true, if_false] at hn
  split_ifs at hn ⊢ with h0 hmem
  · exact hm n hn
  · -- the number leaves both: what stays of `only_trival_change` stays a key
    have hne : n ≠ d.2.1 := ((hs.mem_erase_iff).1 hn).1
    exact mem_eraseNewFile.2 ⟨hm n ((hs.mem_erase_iff).1 hn).2, hne⟩
  · exact mem_eraseNewFile.2 ⟨hm n hn, fun heq => hmem (heq ▸ hn)⟩

/-- A trivial edit's deletion keeps `only_trival_change` among the keys but for the number it
deletes. -/
theorem Merger.TrivalKnown.mergeDeletion_true (hm : m.TrivalKnown) (d : Nat × Nat × Nat) :
    ∀ n ∈ (m.mergeDeletion true d).onlyTrivalChange,
      n ∈ (m.mergeDeletion true d).newFiles.map Prod.fst ∨ n = d.2.1 := by
  intro n hn
  rw [onlyTrivalChange_mergeDeletion] at hn
  rw [newFiles_mergeDeletion]
  simp only [if_true] at hn
  split_ifs at hn ⊢ with h0
  · rcases SortedList.mem_insert hn with rfl | hn
    · exact .inr rfl
    · exact .inl (hm n hn)
  · by_cases hne : n = d.2.1
    · exact .inr hne
    · exact .inl (mem_eraseNewFile.2 ⟨hm n hn, hne⟩)

theorem Merger.TrivalKnown.foldl_mergeDeletion_false (hm : m.TrivalKnown)
    (ds : List (Nat × Nat × Nat)) :
    (ds.foldl (fun m d => m.mergeDeletion false d) m).TrivalKnown := by
  induction ds generalizing m with
  | nil => exact hm
  | cons d ds ih => exact ih (hm.mergeDeletion_false d)

/-- An edit that `IsTrival` takes for a trivial move adds a file under the number it deletes, as
a trivial move does. -/
def VersionEdit.ReaddsTrival (e : VersionEdit K V) : Prop :=
  e.isTrival = true → ∀ d ∈ e.deletedFiles, d.2.1 ∈ e.newFiles.map fun p => p.2.number

/-- The step lemma: merging an edit of that kind keeps `only_trival_change` among the keys. -/
theorem Merger.TrivalKnown.mergeOneEdit (hm : m.TrivalKnown) {e : VersionEdit K V}
    (he : e.ReaddsTrival) : (m.mergeOneEdit e).TrivalKnown := by
  unfold Merger.mergeOneEdit
  cases htrival : e.isTrival with
  | false =>
    -- no deletion touches `only_trival_change` without taking its number off it
    have hdel := hm.foldl_mergeDeletion_false e.deletedFiles
    obtain ⟨hsame, hkeys⟩ := foldl_insertNew e.newFiles
      (e.deletedFiles.foldl (fun m d => m.mergeDeletion false d) m)
    intro n hn
    rw [hsame] at hn
    exact hkeys n (.inl (hdel n hn))
  | true =>
    -- the one deletion may leave its number behind, and the edit adds it back
    obtain ⟨d, hd⟩ : ∃ d, e.deletedFiles = [d] := by
      have hlen : e.deletedFiles.length = 1 := by simpa [VersionEdit.isTrival] using htrival
      exact List.length_eq_one_iff.1 hlen
    have hreadd := he htrival d (by rw [hd]; exact List.mem_singleton_self d)
    have hdel := hm.mergeDeletion_true d
    obtain ⟨hsame, hkeys⟩ := foldl_insertNew e.newFiles (m.mergeDeletion true d)
    intro n hn
    rw [hd, List.foldl_cons, List.foldl_nil, hsame] at *
    rcases hdel n hn with hn' | rfl
    · exact hkeys n (.inl hn')
    · exact hkeys _ (.inr hreadd)

end Merge

/-- The run lemma: after merging, from a cleared merger, edits each of which adds back the number
of its single deletion whenever it has one, every number of `only_trival_change` is a new file,
and `PersistSSTables` starts one thread for each new file outside it, filling its array. -/
theorem persistSSTables_after_merge (edits : List (VersionEdit K V))
    (h : ∀ e ∈ edits, e.ReaddsTrival) :
    (edits.foldl Merger.mergeOneEdit Merger.empty).TrivalKnown ∧
      persistSSTables (edits.foldl Merger.mergeOneEdit Merger.empty) =
        some (((edits.foldl Merger.mergeOneEdit Merger.empty).newFiles.map Prod.fst).filter
          fun n => n ∉ (edits.foldl Merger.mergeOneEdit Merger.empty).onlyTrivalChange) := by
  have hrun : ∀ (es : List (VersionEdit K V)) (m : Merger K V), m.TrivalKnown →
      (∀ e ∈ es, e.ReaddsTrival) → (es.foldl Merger.mergeOneEdit m).TrivalKnown := by
    intro es
    induction es with
    | nil => intro m hm _; exact hm
    | cons e es ih =>
      intro m hm hes
      exact ih _ (hm.mergeOneEdit (hes e List.mem_cons_self))
        fun e' he' => hes e' (List.mem_cons_of_mem e he')
  have hknown := hrun edits Merger.empty (fun n hn => absurd hn List.not_mem_nil) h
  exact ⟨hknown, persistSSTables_eq hknown⟩

/-- A flush of file 5 at level 0, then a trivial move of it to level 1. -/
theorem persistSSTables_after_merge_flush_and_move :
    let edits : List (VersionEdit Nat Nat) :=
      [⟨[], [(0, fileAt 5 10 19)]⟩, ⟨[(0, 5, 0)], [(1, fileAt 5 10 19)]⟩]
    (∀ e ∈ edits, e.ReaddsTrival) ∧
    (edits.foldl Merger.mergeOneEdit Merger.empty).TrivalKnown ∧
      persistSSTables (edits.foldl Merger.mergeOneEdit Merger.empty) =
        some (((edits.foldl Merger.mergeOneEdit Merger.empty).newFiles.map Prod.fst).filter
          fun n => n ∉ (edits.foldl Merger.mergeOneEdit Merger.empty).onlyTrivalChange) :=
  have h : ∀ e ∈ ([⟨[], [(0, fileAt 5 10 19)]⟩, ⟨[(0, 5, 0)], [(1, fileAt 5 10 19)]⟩] :
      List (VersionEdit Nat Nat)), e.ReaddsTrival := by
    intro e he
    simp only [List.mem_cons, List.not_mem_nil, or_false] at he
    rcases he with rfl | rfl <;> intro _ <;> decide
  ⟨h, persistSSTables_after_merge _ h⟩

/-- A compaction of one input, file 7 at level 0, into file 8 at level 1. -/
def singleInputCompaction : VersionEdit Nat Nat := ⟨[(0, 7, 0)], [(1, fileAt 8 10 19)]⟩

end DLSM
