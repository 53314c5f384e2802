import DLSM.Version.Edit

/-! How `VersionSet::PickCompaction` chooses a compaction.  It tries the levels in the order
`Finalize` sorted them, while their score is at least 1.  `PickFileToCompact` takes all of
level 0, or, on a higher level, the first file from a random index on that is not under
compaction together with the next file when that one starts at the picked file's largest user
key; `Version::GetOverlappingInputs` then takes the files of the next level whose user-key
ranges meet the inputs' range, and gives up when one of them is under compaction.  On success
every input is flagged and appended to `in_progress`.  `GetOverlappingInputs` is called here only
for levels above 0, so its level-0 restart is not modelled. -/

namespace DLSM

variable {K V : Type} [LinearOrder K]

/-- The state `PickCompaction` reads and changes: the current version and the identities of the
files whose `UnderCompaction` is set. -/
structure VersionSet (K V : Type) where
  current : Version K V
  underCompaction : List (Nat × Nat)
  deriving DecidableEq, Repr

/-- `VersionSet::GetRange` over the non-empty list `f :: rest`. -/
def getRange (f : RemoteMemTableMetaData K V) (rest : List (RemoteMemTableMetaData K V)) :
    InternalKey K × InternalKey K :=
  rest.foldl (fun (smallest, largest) g =>
      (if g.smallest < smallest then g.smallest else smallest,
        if largest < g.largest then g.largest else largest))
    (f.smallest, f.largest)

/-- `Version::GetOverlappingInputs` on a level above 0: the files whose user-key range meets
`[userBegin, userEnd]`, or `none`, where the source returns `false`, when one of them is under
compaction. -/
def getOverlappingInputs (flags : List (Nat × Nat)) (userBegin userEnd : K) :
    List (RemoteMemTableMetaData K V) → Option (List (RemoteMemTableMetaData K V))
  | [] => some []
  | f :: rest =>
    if f.largest.userKey < userBegin then getOverlappingInputs flags userBegin userEnd rest
    else if userEnd < f.smallest.userKey then getOverlappingInputs flags userBegin userEnd rest
    else if flags.contains f.fileId then none
    else (getOverlappingInputs flags userBegin userEnd rest).map (f :: ·)

/-- The inputs of both levels once `inputs0` is chosen on `level`: the files of `level + 1` that
overlap their range. -/
def withOverlapping (vs : VersionSet K V) (level : Nat) (f : RemoteMemTableMetaData K V)
    (rest : List (RemoteMemTableMetaData K V)) :
    Option (List (RemoteMemTableMetaData K V) × List (RemoteMemTableMetaData K V)) :=
  let range := getRange f rest
  (getOverlappingInputs vs.underCompaction range.1.userKey range.2.userKey
    (vs.current.files (level + 1))).map fun inputs1 => (f :: rest, inputs1)

/-- The level-0 branch of `PickFileToCompact`: nothing while a level-0 compaction is pending,
else every level-0 file. -/
def pickLevel0 (vs : VersionSet K V) :
    Option (List (RemoteMemTableMetaData K V) × List (RemoteMemTableMetaData K V)) :=
  if (vs.current.inProgress.getD 0 []).length > 0 then none
  else
    match vs.current.files 0 with
    | [] => none
    | f :: rest => withOverlapping vs 0 f rest

/-- One pass of the loop of `PickFileToCompact` on a higher level, at index `i`: the file there
if it is not under compaction, and the next file when it starts at this file's largest user key.
The next file's own flag is not looked at. -/
def pickAt (vs : VersionSet K V) (level i : Nat) :
    Option (List (RemoteMemTableMetaData K V) × List (RemoteMemTableMetaData K V)) :=
  match (vs.current.files level)[i]? with
  | none => none
  | some f =>
    if vs.underCompaction.contains f.fileId then none
    else
      let next := match (vs.current.files level)[i + 1]? with
        | some g => if g.smallest.userKey = f.largest.userKey then [g] else []
        | none => []
      withOverlapping vs level f next

/-- `VersionSet::PickFileToCompact`: on a higher level, the indices from `rand % size` on, round
the level once. -/
def pickFileToCompact (vs : VersionSet K V) (level rand : Nat) :
    Option (List (RemoteMemTableMetaData K V) × List (RemoteMemTableMetaData K V)) :=
  if level = 0 then pickLevel0 vs
  else
    let size := (vs.current.files level).length
    ((List.range size).rotate (rand % size)).findSome? fun i => pickAt vs level i

/-- What `AddBoundaryInputs` ensures of the inputs on a level: a file after an input that starts
at the input's largest user key is an input too.  Files are compared by identity. -/
def BoundaryClosed (files inputs : List (RemoteMemTableMetaData K V)) : Prop :=
  files.IsChain fun a b => a.fileId ∈ inputs.map (·.fileId) →
    b.smallest.userKey = a.largest.userKey → b.fileId ∈ inputs.map (·.fileId)

instance (files inputs : List (RemoteMemTableMetaData K V)) :
    Decidable (BoundaryClosed files inputs) :=
  inferInstanceAs (Decidable (List.IsChain _ _))

/-- What a successful `PickFileToCompact` does to the version set: every input flagged, and each
level's inputs appended to its `in_progress`. -/
def VersionSet.markInputs (vs : VersionSet K V) (c : Compaction K V) : VersionSet K V :=
  ⟨{ vs.current with
      inProgress := (vs.current.inProgress.modify c.level (· ++ c.inputs0)).modify
        (c.level + 1) (· ++ c.inputs1) },
    vs.underCompaction ++ (c.inputs0 ++ c.inputs1).map (·.fileId)⟩

/-- The loop of `PickCompaction` over the sorted scores: a level with score at least 1 is tried,
level 1 is skipped once level 0 failed, and the loop stops at the first score below 1.  `rand`
gives the value of `std::rand()` for each level tried. -/
def pickCompactionLoop (vs : VersionSet K V) (rand : Nat → Nat) :
    List (ℚ × Nat) → Bool → Option (Compaction K V)
  | [], _ => none
  | (score, level) :: rest, skipped =>
    if 1 ≤ score then
      if skipped ∧ level = 1 then pickCompactionLoop vs rand rest skipped
      else
        match pickFileToCompact vs level (rand level) with
        | some (inputs0, inputs1) => some ⟨level, inputs0, inputs1⟩
        | none => pickCompactionLoop vs rand rest (skipped || level = 0)
    else none

/-- `VersionSet::PickCompaction`: the compaction and the version set with its inputs marked; the
scores `Finalize` recomputes after are those of the marked version. -/
def pickCompaction (vs : VersionSet K V) (rand : Nat → Nat) :
    Option (Compaction K V) × VersionSet K V :=
  match pickCompactionLoop vs rand vs.current.finalize false with
  | none => (none, vs)
  | some c => (some c, vs.markInputs c)

/-- The loop of `PickCompaction` over scores sorted highest first, each the score of its level:
when it picks nothing, each level it was given with a score of at least 1 has no file to compact,
or is level 1, skipped once level 0, with a score of at least 1, had none. -/
theorem pickCompactionLoop_eq_none {vs : VersionSet K V} {rand : Nat → Nat} :
    ∀ {ps : List (ℚ × Nat)} {skipped : Bool},
      ps.Pairwise (fun x y => y.1 ≤ x.1) → (∀ p ∈ ps, p.1 = levelScore vs.current p.2) →
      (skipped = true → 1 ≤ levelScore vs.current 0 ∧ pickFileToCompact vs 0 (rand 0) = none) →
      pickCompactionLoop vs rand ps skipped = none →
      ∀ p ∈ ps, 1 ≤ p.1 → pickFileToCompact vs p.2 (rand p.2) = none ∨
        (p.2 = 1 ∧ 1 ≤ levelScore vs.current 0 ∧ pickFileToCompact vs 0 (rand 0) = none)
  | [], _, _, _, _, _, _, hp, _ => nomatch hp
  | (score, level) :: rest, skipped, hsorted, hscore, hskip, hnone, p, hp, hp1 => by
    obtain ⟨hhead, hrest⟩ := List.pairwise_cons.mp hsorted
    have hscore' : ∀ q ∈ rest, q.1 = levelScore vs.current q.2 :=
      fun q hq => hscore q (List.mem_cons_of_mem _ hq)
    rw [pickCompactionLoop] at hnone
    by_cases h1 : 1 ≤ score
    · rw [if_pos h1] at hnone
      by_cases hsk : skipped = true ∧ level = 1
      · -- level 1 after a failed level 0 is passed over
        rw [if_pos hsk] at hnone
        rcases List.mem_cons.mp hp with rfl | hp
        · exact .inr ⟨hsk.2, hskip hsk.1⟩
        · exact pickCompactionLoop_eq_none hrest hscore' hskip hnone p hp hp1
      · rw [if_neg hsk] at hnone
        cases hpick : pickFileToCompact vs level (rand level) with
        | some c => simp [hpick] at hnone
        | none =>
          rw [hpick] at hnone
          rcases List.mem_cons.mp hp with rfl | hp
          · exact .inl hpick
          · refine pickCompactionLoop_eq_none hrest hscore' (fun hflag => ?_) hnone p hp hp1
            -- the flag is set by level 0 failing, and only tried levels fail
            rcases Bool.or_eq_true .. |>.mp hflag with h | h
            · exact hskip h
            · obtain rfl : level = 0 := by simpa using h
              have hs0 : score = levelScore vs.current 0 := hscore _ List.mem_cons_self
              exact ⟨hs0 ▸ h1, hpick⟩
    · -- the loop stops at the first score below 1, and every later score is lower still
      rcases List.mem_cons.mp hp with rfl | hp
      · exact absurd hp1 h1
      · exact absurd (hp1.trans (hhead p hp)) h1

/-- `PickCompaction` passes over no level it should compact: when it picks nothing, each level
below `kNumLevels - 1` whose score is at least 1 has no file to compact, or is level 1 while
level 0, with a score of at least 1, had none.  This is what the early `break` on a score below 1
relies on: `Finalize` sorts the scores highest first. -/
theorem pickCompaction_tries_every_level (vs : VersionSet K V) (rand : Nat → Nat)
    (h : (pickCompaction vs rand).1 = none) {level : Nat} (hl : level < kNumLevels - 1)
    (hs : 1 ≤ levelScore vs.current level) :
    pickFileToCompact vs level (rand level) = none ∨
      (level = 1 ∧ 1 ≤ levelScore vs.current 0 ∧ pickFileToCompact vs 0 (rand 0) = none) := by
  have hloop : pickCompactionLoop vs rand vs.current.finalize false = none := by
    unfold pickCompaction at h
    cases hc : pickCompactionLoop vs rand vs.current.finalize false with
    | none => rfl
    | some c => simp [hc] at h
  have hmem : (levelScore vs.current level, level) ∈ vs.current.finalize :=
    vs.current.finalize_perm.mem_iff.mpr (List.mem_map.mpr ⟨level, List.mem_range.mpr hl, rfl⟩)
  -- every pair `Finalize` returns is a level with its own score
  have hscore : ∀ p ∈ vs.current.finalize, p.1 = levelScore vs.current p.2 := by
    intro p hp
    obtain ⟨l, -, rfl⟩ := List.mem_map.mp (vs.current.finalize_perm.mem_iff.mp hp)
    rfl
  have hskip : false = true → 1 ≤ levelScore vs.current 0 ∧ pickFileToCompact vs 0 (rand 0) = none :=
    fun hf => absurd hf Bool.false_ne_true
  exact pickCompactionLoop_eq_none vs.current.finalize_pairwise hscore hskip hloop
    (levelScore vs.current level, level) hmem hs

/-- A version set with a level-0 compaction pending: the first of its two level-0 files is in
`in_progress`, so level 0 still scores 1. -/
def pendingLevel0 : VersionSet Nat Nat :=
  let f : RemoteMemTableMetaData Nat Nat :=
    ⟨0, 4, 1, 0, .mk' 1 1 .kTypeValue, .mk' 1 1 .kTypeValue, []⟩
  let g : RemoteMemTableMetaData Nat Nat :=
    ⟨0, 5, 1, 0, .mk' 2 2 .kTypeValue, .mk' 2 2 .kTypeValue, []⟩
  ⟨⟨[[g, f], [], [], [], [], []], [[f], [], [], [], [], []]⟩, [f.fileId]⟩

theorem pickCompaction_tries_every_level_pending_level0 :
    (pickCompaction pendingLevel0 (fun _ => 0)).1 = none ∧ 0 < kNumLevels - 1 ∧
      1 ≤ levelScore pendingLevel0.current 0 ∧
      (pickFileToCompact pendingLevel0 0 0 = none ∨
        (0 = 1 ∧ 1 ≤ levelScore pendingLevel0.current 0 ∧ pickFileToCompact pendingLevel0 0 0 = none)) :=
  ⟨by decide +kernel, by decide, by decide +kernel,
    pickCompaction_tries_every_level pendingLevel0 (fun _ => 0) (by decide +kernel) (by decide)
      (by decide +kernel)⟩

end DLSM
