import Mathlib
import DLSM.Lib.Run
import DLSM.Lib.RefCount

/-! The `SuperVersion` protocol of `DBImpl` (db_impl.cc).  A reader takes the installed
`SuperVersion` through its thread-local cache `local_sv_` (`GetThreadLocalSuperVersion`), reads
its memtable, immutable list and `Version`, and gives it back (`ReturnAndCleanupSuperVersion`).
`InstallSuperVersion`, run under `superversion_memlist_mtx`, replaces `super_version`, scrapes
every thread's cache (`ResetThreadLocalSuperVersions`) and drops its reference to the old one.
The last holder to drop a reference calls `Cleanup`, which deletes the object.

Each thread takes one atomic step at a time, and a run is any interleaving of them: a reader's
`Swap`, staleness test, `Unref`, `Cleanup`, locked `Ref` and `CompareAndSwap`, and the
installer's allocation, each `Scrape` exchange, each `Unref` of `ResetThreadLocalSuperVersions`,
and its `Unref` and `Cleanup` of the old object.  The allocation step takes together
`super_version = new SuperVersion`, `Ref()`, `++super_version_number_` and the store of
`version_number`: no reader reads the new object or `super_version` before the installer lets
go of the mutex, so these writes are seen together.  The state starts after the
`InstallSuperVersion` of `DB::Open`, so `old_superversion` is never null.  Each object carries a
ghost count of the `Cleanup`s run on it.

Objects are numbered in the order of allocation; thread `t` of `n` reader threads owns slot `t`
of `local_sv_`, and `Scrape` visits the slots in that order. -/

namespace DLSM

/-- The value in one thread's `local_sv_` slot: `kSVInUse`, `kSVObsolete` (the null pointer),
or a `SuperVersion` by its number. -/
inductive Slot where
  | inUse
  | obsolete
  | sv (id : Nat)
  deriving DecidableEq, Repr

/-- The fields of a `SuperVersion` the protocol reads and writes: `refs`, `version_number`, and
the number of `Cleanup`s run on it. -/
structure SuperVersion where
  refs : Int
  versionNumber : Nat
  cleanups : Nat
  deriving DecidableEq, Repr, Inhabited

namespace SuperVersion

/-- `SuperVersion::Ref`. -/
def ref (o : SuperVersion) : SuperVersion := { o with refs := o.refs + 1 }

/-- The object after `SuperVersion::Unref`, whose `fetch_sub` returns true when the count it
replaced was 1. -/
def unref (o : SuperVersion) : SuperVersion := { o with refs := o.refs - 1 }

/-- `SuperVersion::Cleanup`. -/
def cleanup (o : SuperVersion) : SuperVersion := { o with cleanups := o.cleanups + 1 }

end SuperVersion

/-- Where a reader thread is in `DBImpl::Get`.  `returning` tells the `Unref` and `Cleanup` of a
stale cached object in `GetThreadLocalSuperVersion` (false) from those of
`CleanupSuperVersion` after a failed `CompareAndSwap` (true). -/
inductive ReaderPc where
  /-- Outside `Get`. -/
  | idle
  /-- `local_sv_->Swap(kSVInUse)` returned `ptr`. -/
  | swapped (ptr : Slot)
  /-- About to call `sv->Unref()`. -/
  | unref (id : Nat) (returning : Bool)
  /-- `Unref` returned true: about to call `sv->Cleanup()`. -/
  | cleanup (id : Nat) (returning : Bool)
  /-- About to take `superversion_memlist_mtx` and call `super_version->Ref()`. -/
  | refInstalled
  /-- Holding `sv` between `GetThreadLocalSuperVersion` and `ReturnAndCleanupSuperVersion`. -/
  | reading (id : Nat)
  deriving DecidableEq, Repr

/-- A reader thread: its `local_sv_` slot and where it is. -/
structure Reader where
  slot : Slot
  pc : ReaderPc
  deriving DecidableEq, Repr

/-- Where the installing thread is in `InstallSuperVersion`; `old` is `old_superversion`. -/
inductive InstallerPc where
  | idle
  /-- `Scrape` has exchanged the slots below `next`, collecting the non-null values. -/
  | scrape (old next : Nat) (scraped : List Slot)
  /-- The loop of `ResetThreadLocalSuperVersions` over the collected values left. -/
  | unrefScraped (old : Nat) (scraped : List Slot)
  /-- About to call `old_superversion->Unref()`. -/
  | unrefOld (old : Nat)
  /-- About to call `old_superversion->Cleanup()`. -/
  | cleanupOld (old : Nat)
  deriving DecidableEq, Repr

/-- The shared state: the objects by number and how many are allocated, `super_version`,
`super_version_number_`, the readers and the installer. -/
structure SVState (n : Nat) where
  svs : Nat → SuperVersion
  allocated : Nat
  superVersion : Nat
  superVersionNumber : Nat
  readers : Fin n → Reader
  installer : InstallerPc

/-- The thread that takes the next step. -/
inductive Thread (n : Nat) where
  | reader (t : Fin n)
  | installer
  deriving DecidableEq, Repr

/-- Where a reader goes after its `Unref`: to `Cleanup` when it dropped the last reference, and
otherwise out of `Get` (`returning`) or on to the locked `Ref`. -/
def ReaderPc.afterUnref (last : Bool) (id : Nat) (returning : Bool) : ReaderPc :=
  if last then .cleanup id returning else if returning then .idle else .refInstalled

namespace SVState

variable {n : Nat}

/-- The state after `DB::Open`'s `InstallSuperVersion`: object 0 installed with one reference
and `version_number` 1, every slot null. -/
def init (n : Nat) : SVState n where
  svs := Function.update (fun _ => default) 0 ⟨1, 1, 0⟩
  allocated := 1
  superVersion := 0
  superVersionNumber := 1
  readers := fun _ => ⟨.obsolete, .idle⟩
  installer := .idle

def setReader (s : SVState n) (t : Fin n) (r : Reader) : SVState n :=
  { s with readers := Function.update s.readers t r }

def setPc (s : SVState n) (t : Fin n) (pc : ReaderPc) : SVState n :=
  s.setReader t { s.readers t with pc }

def modifySv (s : SVState n) (id : Nat) (f : SuperVersion → SuperVersion) : SVState n :=
  { s with svs := Function.update s.svs id (f (s.svs id)) }

def setInstaller (s : SVState n) (i : InstallerPc) : SVState n := { s with installer := i }

/-- One step of reader `t`.  A reader whose `Swap` returned `kSVInUse` stops (the `assert` of
`GetThreadLocalSuperVersion`; no run reaches it), and the locked `Ref` waits while the installer
holds `superversion_memlist_mtx`. -/
def readerStep (s : SVState n) (t : Fin n) : Option (SVState n) :=
  match (s.readers t).pc with
  | .idle => some (s.setReader t ⟨.inUse, .swapped (s.readers t).slot⟩)
  | .swapped .inUse => none
  | .swapped .obsolete => some (s.setPc t .refInstalled)
  | .swapped (.sv id) =>
    if (s.svs id).versionNumber = s.superVersionNumber then some (s.setPc t (.reading id))
    else some (s.setPc t (.unref id false))
  | .unref id returning =>
    some ((s.modifySv id SuperVersion.unref).setPc t
      (ReaderPc.afterUnref (decide ((s.svs id).refs = 1)) id returning))
  | .cleanup id returning =>
    some ((s.modifySv id SuperVersion.cleanup).setPc t
      (if returning then .idle else .refInstalled))
  | .refInstalled =>
    if s.installer = .idle then
      some ((s.modifySv s.superVersion SuperVersion.ref).setPc t (.reading s.superVersion))
    else none
  | .reading id =>
    -- `ReturnThreadLocalSuperVersion`: `CompareAndSwap(sv, kSVInUse)`
    if (s.readers t).slot = .inUse then some (s.setReader t ⟨.sv id, .idle⟩)
    else some (s.setPc t (.unref id true))

/-- One step of the installer. -/
def installerStep (s : SVState n) : SVState n :=
  match s.installer with
  | .idle =>
    { s with
      svs := Function.update s.svs s.allocated ⟨1, s.superVersionNumber + 1, 0⟩
      allocated := s.allocated + 1
      superVersion := s.allocated
      superVersionNumber := s.superVersionNumber + 1
      installer := .scrape s.superVersion 0 [] }
  | .scrape old next scraped =>
    if h : next < n then
      -- one exchange of `Scrape`: `kSVObsolete` in, and the value out kept unless null
      let v := (s.readers ⟨next, h⟩).slot
      (s.setReader ⟨next, h⟩ { s.readers ⟨next, h⟩ with slot := .obsolete }).setInstaller
        (.scrape old (next + 1) (if v = .obsolete then scraped else scraped ++ [v]))
    else s.setInstaller (.unrefScraped old scraped)
  | .unrefScraped old [] => s.setInstaller (.unrefOld old)
  | .unrefScraped old (.sv id :: scraped) =>
    (s.modifySv id SuperVersion.unref).setInstaller (.unrefScraped old scraped)
  | .unrefScraped old (_ :: scraped) => s.setInstaller (.unrefScraped old scraped)
  | .unrefOld old =>
    (s.modifySv old SuperVersion.unref).setInstaller
      (if (s.svs old).refs = 1 then .cleanupOld old else .idle)
  | .cleanupOld old => (s.modifySv old SuperVersion.cleanup).setInstaller .idle

/-- One step of any thread. -/
def step (s : SVState n) : Thread n → Option (SVState n)
  | .reader t => s.readerStep t
  | .installer => some s.installerStep

end SVState

/-- A state that some interleaving reaches after `DB::Open`. -/
def SVReachable {n : Nat} (s : SVState n) : Prop := Run.Reachable SVState.step (SVState.init n) s

/-! ### The books of each object

Who holds a reference to an object: `super_version`, a slot, a reader from its `Swap` or its
`Ref` until its `Unref` or the `CompareAndSwap` that puts the object back in its slot, and the
installer, for `old_superversion` until its `Unref` and for each scraped value until the loop
of `ResetThreadLocalSuperVersions` drops it.  A free is pending at a thread whose `Unref`
returned true until its `Cleanup`. -/

/-- The references a slot value holds to object `id`. -/
def Slot.holds (p : Slot) (id : Nat) : Nat := if p = .sv id then 1 else 0

/-- The object a reader's phase refers to. -/
def ReaderPc.sv : ReaderPc → Option Nat
  | .swapped (.sv id) | .unref id _ | .cleanup id _ | .reading id => some id
  | _ => none

def ReaderPc.holds : ReaderPc → Nat → Nat
  | .idle, _ | .cleanup _ _, _ | .refInstalled, _ => 0
  | .swapped p, id => p.holds id
  | .unref x _, id | .reading x, id => if x = id then 1 else 0

def ReaderPc.pending : ReaderPc → Nat → Nat
  | .cleanup x _, id => if x = id then 1 else 0
  | .idle, _ | .swapped _, _ | .unref _ _, _ | .refInstalled, _ | .reading _, _ => 0

def Reader.holds (r : Reader) (id : Nat) : Nat := r.slot.holds id + r.pc.holds id

/-- `old_superversion`, while an install is in progress. -/
def InstallerPc.old : InstallerPc → Option Nat
  | .idle => none
  | .scrape old _ _ | .unrefScraped old _ | .unrefOld old | .cleanupOld old => some old

/-- The values `Scrape` collected that the installer has yet to drop. -/
def InstallerPc.scraped : InstallerPc → List Slot
  | .scrape _ _ ps | .unrefScraped _ ps => ps
  | _ => []

def InstallerPc.holds : InstallerPc → Nat → Nat
  | .scrape old _ ps, id | .unrefScraped old ps, id => (if old = id then 1 else 0) + ps.count (.sv id)
  | .unrefOld old, id => if old = id then 1 else 0
  | _, _ => 0

def InstallerPc.pending : InstallerPc → Nat → Nat
  | .cleanupOld old, id => if old = id then 1 else 0
  | _, _ => 0

namespace SVState

variable {n : Nat}

/-- The holders of object `id`. -/
def holders (s : SVState n) (id : Nat) : Nat :=
  (if s.superVersion = id then 1 else 0) + ∑ t, (s.readers t).holds id + s.installer.holds id

/-- The frees of object `id` that are pending. -/
def pending (s : SVState n) (id : Nat) : Nat :=
  ∑ t, (s.readers t).pc.pending id + s.installer.pending id

/-- Object `id` is one slot `t` may still hold: the installed object, or the one being replaced
while `Scrape` has yet to reach slot `t`. -/
def Current (s : SVState n) (t : Fin n) (id : Nat) : Prop :=
  id = s.superVersion ∨ ∃ next scraped, s.installer = .scrape id next scraped ∧ next ≤ t.val

end SVState

/-- What holds of one reader thread, given the objects `current` its slot may hold. -/
structure ReaderInv (current : Nat → Prop) (r : Reader) : Prop where
  /-- A slot holds only a current object. -/
  slot : ∀ id, r.slot = .sv id → current id
  /-- A `CompareAndSwap` that will succeed puts back a current object. -/
  cas : ∀ id, r.pc = .reading id → r.slot = .inUse → current id
  /-- Inside `Get` the slot holds `kSVInUse`, or `kSVObsolete` after a `Scrape`. -/
  busy : r.pc ≠ .idle → r.slot = .inUse ∨ r.slot = .obsolete
  /-- Outside `Get` the slot never holds `kSVInUse`. -/
  idle : r.pc = .idle → r.slot ≠ .inUse
  /-- `Swap` never returns `kSVInUse`. -/
  swapped : r.pc ≠ .swapped .inUse
  /-- `CleanupSuperVersion` runs only after a `Scrape` left `kSVObsolete`. -/
  returning : ∀ id, (r.pc = .unref id true ∨ r.pc = .cleanup id true) → r.slot = .obsolete

/-- The invariant of the protocol. -/
structure SVInv {n : Nat} (s : SVState n) : Prop where
  superVersion_lt : s.superVersion < s.allocated
  /-- Nothing refers to an object not yet allocated. -/
  fresh : ∀ id, s.allocated ≤ id → s.svs id = default ∧ s.holders id = 0 ∧ s.pending id = 0
  /-- The count of every allocated object balances its holders. -/
  balanced : ∀ id < s.allocated,
    RefCount.Balanced (s.svs id).refs (s.holders id) (s.pending id) (s.svs id).cleanups
  version : (s.svs s.superVersion).versionNumber = s.superVersionNumber
  /-- Every object but the installed one is stale. -/
  older : ∀ id < s.allocated, id ≠ s.superVersion →
    (s.svs id).versionNumber < s.superVersionNumber
  readers : ∀ t, ReaderInv (s.Current t) (s.readers t)
  /-- `Scrape` collects the replaced object or the installed one. -/
  scraped : ∀ id, .sv id ∈ s.installer.scraped → s.installer.old = some id ∨ id = s.superVersion

namespace SVState

variable {n : Nat} (s : SVState n)

/-! ### How the updates change the state -/

@[simp] theorem setReader_svs (t : Fin n) (r : Reader) : (s.setReader t r).svs = s.svs := rfl
@[simp] theorem setReader_allocated (t : Fin n) (r : Reader) :
    (s.setReader t r).allocated = s.allocated := rfl
@[simp] theorem setReader_superVersion (t : Fin n) (r : Reader) :
    (s.setReader t r).superVersion = s.superVersion := rfl
@[simp] theorem setReader_superVersionNumber (t : Fin n) (r : Reader) :
    (s.setReader t r).superVersionNumber = s.superVersionNumber := rfl
@[simp] theorem setReader_installer (t : Fin n) (r : Reader) :
    (s.setReader t r).installer = s.installer := rfl
@[simp] theorem setReader_readers (t : Fin n) (r : Reader) :
    (s.setReader t r).readers = Function.update s.readers t r := rfl

@[simp] theorem modifySv_svs (id : Nat) (f : SuperVersion → SuperVersion) :
    (s.modifySv id f).svs = Function.update s.svs id (f (s.svs id)) := rfl
@[simp] theorem modifySv_allocated (id : Nat) (f : SuperVersion → SuperVersion) :
    (s.modifySv id f).allocated = s.allocated := rfl
@[simp] theorem modifySv_superVersion (id : Nat) (f : SuperVersion → SuperVersion) :
    (s.modifySv id f).superVersion = s.superVersion := rfl
@[simp] theorem modifySv_superVersionNumber (id : Nat) (f : SuperVersion → SuperVersion) :
    (s.modifySv id f).superVersionNumber = s.superVersionNumber := rfl
@[simp] theorem modifySv_readers (id : Nat) (f : SuperVersion → SuperVersion) :
    (s.modifySv id f).readers = s.readers := rfl
@[simp] theorem modifySv_installer (id : Nat) (f : SuperVersion → SuperVersion) :
    (s.modifySv id f).installer = s.installer := rfl

@[simp] theorem setInstaller_svs (i : InstallerPc) : (s.setInstaller i).svs = s.svs := rfl
@[simp] theorem setInstaller_allocated (i : InstallerPc) :
    (s.setInstaller i).allocated = s.allocated := rfl
@[simp] theorem setInstaller_superVersion (i : InstallerPc) :
    (s.setInstaller i).superVersion = s.superVersion := rfl
@[simp] theorem setInstaller_superVersionNumber (i : InstallerPc) :
    (s.setInstaller i).superVersionNumber = s.superVersionNumber := rfl
@[simp] theorem setInstaller_readers (i : InstallerPc) :
    (s.setInstaller i).readers = s.readers := rfl
@[simp] theorem setInstaller_installer (i : InstallerPc) : (s.setInstaller i).installer = i := rfl

theorem holders_modifySv (id : Nat) (f : SuperVersion → SuperVersion) :
    (s.modifySv id f).holders = s.holders := rfl

theorem pending_modifySv (id : Nat) (f : SuperVersion → SuperVersion) :
    (s.modifySv id f).pending = s.pending := rfl

theorem current_modifySv (id : Nat) (f : SuperVersion → SuperVersion) :
    (s.modifySv id f).Current = s.Current := rfl

theorem current_setReader (t : Fin n) (r : Reader) : (s.setReader t r).Current = s.Current := rfl

/-! ### Counting the holders -/

/-- A change to one reader changes the holders by that reader's difference. -/
theorem holders_setReader (t : Fin n) (r : Reader) (id : Nat) :
    (s.setReader t r).holders id + (s.readers t).holds id = s.holders id + r.holds id := by
  have hsum := RefCount.sum_update_add (fun u => (s.readers u).holds id) t (r.holds id)
  have happly : ∀ u, (Function.update s.readers t r u).holds id =
      Function.update (fun u => (s.readers u).holds id) t (r.holds id) u :=
    fun u => Function.apply_update (fun _ (r : Reader) => r.holds id) s.readers t r u
  dsimp only [holders, setReader]
  simp only [happly]
  omega

theorem pending_setReader (t : Fin n) (r : Reader) (id : Nat) :
    (s.setReader t r).pending id + (s.readers t).pc.pending id = s.pending id + r.pc.pending id := by
  have hsum := RefCount.sum_update_add (fun u => (s.readers u).pc.pending id) t (r.pc.pending id)
  have happly : ∀ u, (Function.update s.readers t r u).pc.pending id =
      Function.update (fun u => (s.readers u).pc.pending id) t (r.pc.pending id) u :=
    fun u => Function.apply_update (fun _ (r : Reader) => r.pc.pending id) s.readers t r u
  dsimp only [pending, setReader]
  simp only [happly]
  omega

theorem holders_setInstaller (i : InstallerPc) (id : Nat) :
    (s.setInstaller i).holders id + s.installer.holds id = s.holders id + i.holds id := by
  dsimp only [holders, setInstaller]
  omega

theorem pending_setInstaller (i : InstallerPc) (id : Nat) :
    (s.setInstaller i).pending id + s.installer.pending id = s.pending id + i.pending id := by
  dsimp only [pending, setInstaller]
  omega

theorem reader_holds_le (t : Fin n) (id : Nat) : (s.readers t).holds id ≤ s.holders id := by
  have := Finset.single_le_sum (f := fun u => (s.readers u).holds id)
    (fun _ _ => Nat.zero_le _) (Finset.mem_univ t)
  simp only [holders]
  omega

theorem reader_pending_le (t : Fin n) (id : Nat) : (s.readers t).pc.pending id ≤ s.pending id := by
  have := Finset.single_le_sum (f := fun u => (s.readers u).pc.pending id)
    (fun _ _ => Nat.zero_le _) (Finset.mem_univ t)
  simp only [pending]
  omega

theorem installer_holds_le (id : Nat) : s.installer.holds id ≤ s.holders id := by
  simp only [holders]; omega

theorem installer_pending_le (id : Nat) : s.installer.pending id ≤ s.pending id := by
  simp only [pending]; omega

theorem one_le_holders_superVersion : 1 ≤ s.holders s.superVersion := by
  simp only [holders, if_true]; omega

end SVState

@[simp] theorem ReaderPc.holds_afterUnref (last : Bool) (x : Nat) (returning : Bool) (id : Nat) :
    (ReaderPc.afterUnref last x returning).holds id = 0 := by
  unfold ReaderPc.afterUnref
  split_ifs <;> rfl

@[simp] theorem ReaderPc.pending_afterUnref (last : Bool) (x : Nat) (returning : Bool) (id : Nat) :
    (ReaderPc.afterUnref last x returning).pending id = if last ∧ x = id then 1 else 0 := by
  unfold ReaderPc.afterUnref
  cases last <;> cases returning <;> simp [ReaderPc.pending]

/-! ### One reader's phase changes -/

namespace ReaderInv

variable {current current' : Nat → Prop} {r : Reader}

theorem mono (h : ReaderInv current r) (hc : ∀ id, current id → current' id) :
    ReaderInv current' r :=
  ⟨fun id hs => hc id (h.slot id hs), fun id hp hs => hc id (h.cas id hp hs), h.busy, h.idle,
    h.swapped, h.returning⟩

/-- `Swap(kSVInUse)` on entry to `Get`. -/
theorem swap (h : ReaderInv current r) (hpc : r.pc = .idle) :
    ReaderInv current ⟨.inUse, .swapped r.slot⟩ where
  slot _ hs := nomatch hs
  cas _ hp := nomatch hp
  busy _ := .inl rfl
  idle hp := nomatch hp
  swapped hp := h.idle hpc (ReaderPc.swapped.inj hp)
  returning _ hp := by rcases hp with hp | hp <;> cases hp

/-- A move between two phases inside `Get`, which leaves the slot alone. -/
theorem move (h : ReaderInv current r) (hpc : r.pc ≠ .idle) {pc : ReaderPc} (hidle : pc ≠ .idle)
    (hsw : pc ≠ .swapped .inUse) (hcas : ∀ id, pc = .reading id → r.slot = .inUse → current id)
    (hret : ∀ id, (pc = .unref id true ∨ pc = .cleanup id true) → r.slot = .obsolete) :
    ReaderInv current { r with pc } :=
  ⟨h.slot, hcas, fun _ => h.busy hpc, fun hp => absurd hp hidle, hsw, hret⟩

/-- Out of `Get` after a failed `CompareAndSwap`, with `kSVObsolete` left in the slot. -/
theorem leave (h : ReaderInv current r) (hslot : r.slot = .obsolete) :
    ReaderInv current { r with pc := .idle } where
  slot := h.slot
  cas _ hp := nomatch hp
  busy _ := .inr hslot
  idle _ := by simp [hslot]
  swapped hp := nomatch hp
  returning _ hp := by rcases hp with hp | hp <;> cases hp

/-- A successful `CompareAndSwap` puts the object back in the slot. -/
theorem putBack (h : ReaderInv current r) {id : Nat} (hpc : r.pc = .reading id)
    (hslot : r.slot = .inUse) : ReaderInv current ⟨.sv id, .idle⟩ where
  slot x hx := by cases hx; exact h.cas id hpc hslot
  cas _ hp := nomatch hp
  busy hp := absurd rfl hp
  idle _ hs := nomatch hs
  swapped hp := nomatch hp
  returning _ hp := by rcases hp with hp | hp <;> cases hp

/-- A `Scrape` exchange leaves `kSVObsolete` in the slot. -/
theorem scrape (h : ReaderInv current r) : ReaderInv current' { r with slot := .obsolete } where
  slot _ hs := nomatch hs
  cas _ _ hs := nomatch hs
  busy _ := .inr rfl
  idle _ hs := nomatch hs
  swapped := h.swapped
  returning _ _ := rfl

end ReaderInv

namespace SVInv

variable {n : Nat} {s : SVState n}

theorem lt_of_holders (h : SVInv s) {id : Nat} (hk : 0 < s.holders id) : id < s.allocated := by
  by_contra hge
  have := (h.fresh id (Nat.le_of_not_lt hge)).2.1
  omega

theorem lt_of_pending (h : SVInv s) {id : Nat} (hp : 0 < s.pending id) : id < s.allocated := by
  by_contra hge
  have := (h.fresh id (Nat.le_of_not_lt hge)).2.2
  omega

theorem lt_of_reader_holds (h : SVInv s) {t : Fin n} {id : Nat}
    (hk : 0 < (s.readers t).holds id) : id < s.allocated :=
  h.lt_of_holders (lt_of_lt_of_le hk (s.reader_holds_le t id))

theorem readers_setReader (h : SVInv s) {t : Fin n} {r : Reader} (hr : ReaderInv (s.Current t) r)
    (u : Fin n) : ReaderInv ((s.setReader t r).Current u) ((s.setReader t r).readers u) := by
  rw [SVState.current_setReader, SVState.setReader_readers]
  by_cases hu : u = t
  · subst hu
    rw [Function.update_self]
    exact hr
  · rw [Function.update_of_ne hu]
    exact h.readers u

/-- A step that changes the count or the `Cleanup`s of object `x` alone, and no version number,
keeps the invariant when the books of `x` balance, every other object keeps its holders and
pending frees, every reader keeps its invariant and the installer its scraped values. -/
theorem frame (h : SVInv s) {s' : SVState n} {x : Nat} {f : SuperVersion → SuperVersion}
    (hsvs : s'.svs = Function.update s.svs x (f (s.svs x)))
    (halloc : s'.allocated = s.allocated) (hsv : s'.superVersion = s.superVersion)
    (hnum : s'.superVersionNumber = s.superVersionNumber) (hx : x < s.allocated)
    (hver : (f (s.svs x)).versionNumber = (s.svs x).versionNumber)
    (hk : ∀ id, id ≠ x → s'.holders id = s.holders id)
    (hp : ∀ id, id ≠ x → s'.pending id = s.pending id)
    (hbal : RefCount.Balanced (f (s.svs x)).refs (s'.holders x) (s'.pending x)
      (f (s.svs x)).cleanups)
    (hreaders : ∀ t, ReaderInv (s'.Current t) (s'.readers t))
    (hscraped : ∀ id, .sv id ∈ s'.installer.scraped →
      s'.installer.old = some id ∨ id = s'.superVersion) : SVInv s' := by
  have hvers : ∀ id, (s'.svs id).versionNumber = (s.svs id).versionNumber := fun id => by
    rw [hsvs]
    by_cases hid : id = x
    · subst hid; rw [Function.update_self, hver]
    · rw [Function.update_of_ne hid]
  refine ⟨halloc ▸ hsv ▸ h.superVersion_lt, fun id hid => ?_, fun id hid => ?_, ?_,
    fun id hid hne => ?_, hreaders, hscraped⟩
  · rw [halloc] at hid
    have hne : id ≠ x := by omega
    rw [hsvs, Function.update_of_ne hne, hk id hne, hp id hne]
    exact h.fresh id hid
  · rw [halloc] at hid
    by_cases hid' : id = x
    · subst hid'
      rw [hsvs, Function.update_self]
      exact hbal
    · rw [hsvs, Function.update_of_ne hid', hk id hid', hp id hid']
      exact h.balanced id hid
  · rw [hvers, hsv, hnum]
    exact h.version
  · rw [halloc] at hid
    rw [hsv] at hne
    rw [hvers, hnum]
    exact h.older id hid hne

/-- A step that moves no reference and no pending free of any object. -/
theorem frame_keep (h : SVInv s) {s' : SVState n} (hsvs : s'.svs = s.svs)
    (halloc : s'.allocated = s.allocated) (hsv : s'.superVersion = s.superVersion)
    (hnum : s'.superVersionNumber = s.superVersionNumber)
    (hk : ∀ id, s'.holders id = s.holders id) (hp : ∀ id, s'.pending id = s.pending id)
    (hreaders : ∀ t, ReaderInv (s'.Current t) (s'.readers t))
    (hscraped : ∀ id, .sv id ∈ s'.installer.scraped →
      s'.installer.old = some id ∨ id = s'.superVersion) : SVInv s' :=
  h.frame (x := s.superVersion) (f := fun o => o) (by rw [hsvs, Function.update_eq_self]) halloc
    hsv hnum h.superVersion_lt rfl (fun id _ => hk id) (fun id _ => hp id)
    (by rw [hk, hp]; exact h.balanced _ h.superVersion_lt) hreaders hscraped

/-- A reader step that moves a reference or a pending free of no object. -/
theorem setReader_keep (h : SVInv s) {t : Fin n} {r : Reader}
    (hk : ∀ id, r.holds id = (s.readers t).holds id)
    (hp : ∀ id, r.pc.pending id = (s.readers t).pc.pending id)
    (hr : ReaderInv (s.Current t) r) : SVInv (s.setReader t r) :=
  h.frame_keep rfl rfl rfl rfl
    (fun id => by have := s.holders_setReader t r id; rw [hk id] at this; omega)
    (fun id => by have := s.pending_setReader t r id; rw [hp id] at this; omega)
    (h.readers_setReader hr) h.scraped

/-- A reader step that changes the count or the `Cleanup`s of object `x` and no version number,
and moves the references and pending frees of no other object. -/
theorem setReader_modify (h : SVInv s) {t : Fin n} {r : Reader} {x : Nat}
    {f : SuperVersion → SuperVersion} (hx : x < s.allocated)
    (hver : (f (s.svs x)).versionNumber = (s.svs x).versionNumber)
    (hk : ∀ id, id ≠ x → r.holds id = (s.readers t).holds id)
    (hp : ∀ id, id ≠ x → r.pc.pending id = (s.readers t).pc.pending id)
    (hbal : RefCount.Balanced (f (s.svs x)).refs ((s.setReader t r).holders x)
      ((s.setReader t r).pending x) (f (s.svs x)).cleanups)
    (hr : ReaderInv (s.Current t) r) : SVInv ((s.modifySv x f).setReader t r) := by
  refine h.frame rfl rfl rfl rfl hx hver (fun id hid => ?_) (fun id hid => ?_) hbal
    (h.readers_setReader hr) h.scraped
  · have := s.holders_setReader t r id
    rw [hk id hid] at this
    exact (Nat.add_right_cancel this : _)
  · have := s.pending_setReader t r id
    rw [hp id hid] at this
    exact (Nat.add_right_cancel this : _)

/-- An installer step that moves a reference or a pending free of no object. -/
theorem setInstaller_keep (h : SVInv s) {i : InstallerPc}
    (hk : ∀ id, i.holds id = s.installer.holds id) (hp : ∀ id, i.pending id = s.installer.pending id)
    (hcur : ∀ t id, s.Current t id → (s.setInstaller i).Current t id)
    (hscraped : ∀ id, .sv id ∈ i.scraped → i.old = some id ∨ id = s.superVersion) :
    SVInv (s.setInstaller i) :=
  h.frame_keep rfl rfl rfl rfl
    (fun id => by have := s.holders_setInstaller i id; rw [hk id] at this; omega)
    (fun id => by have := s.pending_setInstaller i id; rw [hp id] at this; omega)
    (fun t => (h.readers t).mono (hcur t)) hscraped

/-- An installer step that changes the count or the `Cleanup`s of object `x` and no version
number, and moves the references and pending frees of no other object. -/
theorem setInstaller_modify (h : SVInv s) {i : InstallerPc} {x : Nat}
    {f : SuperVersion → SuperVersion} (hx : x < s.allocated)
    (hver : (f (s.svs x)).versionNumber = (s.svs x).versionNumber)
    (hk : ∀ id, id ≠ x → i.holds id = s.installer.holds id)
    (hp : ∀ id, id ≠ x → i.pending id = s.installer.pending id)
    (hbal : RefCount.Balanced (f (s.svs x)).refs ((s.setInstaller i).holders x)
      ((s.setInstaller i).pending x) (f (s.svs x)).cleanups)
    (hcur : ∀ t id, s.Current t id → (s.setInstaller i).Current t id)
    (hscraped : ∀ id, .sv id ∈ i.scraped → i.old = some id ∨ id = s.superVersion) :
    SVInv ((s.modifySv x f).setInstaller i) := by
  refine h.frame rfl rfl rfl rfl hx hver (fun id hid => ?_) (fun id hid => ?_) hbal
    (fun t => (h.readers t).mono (hcur t)) hscraped
  · have := s.holders_setInstaller i id
    rw [hk id hid] at this
    exact (Nat.add_right_cancel this : _)
  · have := s.pending_setInstaller i id
    rw [hp id hid] at this
    exact (Nat.add_right_cancel this : _)

/-- A reader inside `Get` that goes on to the locked `Ref` keeps its invariant. -/
theorem toRefInstalled {current : Nat → Prop} {r : Reader} (hr : ReaderInv current r)
    (hpc : r.pc ≠ .idle) : ReaderInv current { r with pc := .refInstalled } :=
  hr.move hpc (by simp) (by simp) (fun _ hp => nomatch hp)
    (fun _ hp => by rcases hp with hp | hp <;> cases hp)

/-- The staleness test of `GetThreadLocalSuperVersion` on the cached object `x`. -/
theorem check (h : SVInv s) {t : Fin n} {x : Nat} (hpc : (s.readers t).pc = .swapped (.sv x)) :
    SVInv (if (s.svs x).versionNumber = s.superVersionNumber then s.setPc t (.reading x)
      else s.setPc t (.unref x false)) := by
  have hr := h.readers t
  have hbusy : (s.readers t).pc ≠ .idle := by simp [hpc]
  split_ifs with hfresh
  · -- the test passes only on the installed object
    have hsv : x = s.superVersion := by
      by_contra hne
      have hlt : x < s.allocated := h.lt_of_reader_holds (t := t)
        (by simp [Reader.holds, hpc, ReaderPc.holds, Slot.holds])
      have := h.older x hlt hne
      omega
    exact h.setReader_keep (fun id => by simp [Reader.holds, hpc, ReaderPc.holds, Slot.holds])
      (fun id => by simp [hpc, ReaderPc.pending])
      (hr.move hbusy (by simp) (by simp) (fun id hp _ => by cases hp; exact .inl hsv)
        (fun _ hp => by rcases hp with hp | hp <;> cases hp))
  · exact h.setReader_keep (fun id => by simp [Reader.holds, hpc, ReaderPc.holds, Slot.holds])
      (fun id => by simp [hpc, ReaderPc.pending])
      (hr.move hbusy (by simp) (by simp) (fun _ hp => nomatch hp)
        (fun _ hp => by rcases hp with hp | hp <;> cases hp))

/-- A reader's `Unref`: the last one leaves the reader to free the object. -/
theorem unref (h : SVInv s) {t : Fin n} {x : Nat} {returning : Bool}
    (hpc : (s.readers t).pc = .unref x returning) :
    SVInv ((s.modifySv x SuperVersion.unref).setPc t
      (ReaderPc.afterUnref (decide ((s.svs x).refs = 1)) x returning)) := by
  have hr := h.readers t
  have hheld : (s.readers t).holds x = (s.readers t).slot.holds x + 1 := by
    simp [Reader.holds, hpc, ReaderPc.holds]
  have hx : x < s.allocated := h.lt_of_reader_holds (t := t) (by omega)
  let r : Reader := { s.readers t with pc := ReaderPc.afterUnref (decide ((s.svs x).refs = 1)) x returning }
  have hk := s.holders_setReader t r x
  have hp := s.pending_setReader t r x
  have hrh : r.holds x = (s.readers t).slot.holds x := by
    simp only [r, Reader.holds, ReaderPc.holds_afterUnref, Nat.add_zero]
  have hrp : r.pc.pending x = if (s.svs x).refs = 1 then 1 else 0 := by
    simp only [r, ReaderPc.pending_afterUnref, decide_eq_true_eq, and_true]
  have hp0 : (s.readers t).pc.pending x = 0 := by rw [hpc]; rfl
  refine h.setReader_modify (r := r) hx rfl (fun id hid => ?_) (fun id hid => ?_) ?_ ?_
  · simp only [r, Reader.holds, ReaderPc.holds_afterUnref, hpc]
    simp [ReaderPc.holds, Ne.symm hid]
  · simp only [r, ReaderPc.pending_afterUnref, hpc]
    simp [ReaderPc.pending, Ne.symm hid]
  · have hle := s.reader_holds_le t x
    refine ((h.balanced x hx).release (by omega : s.holders x = _ + 1)).of_eq rfl rfl ?_ rfl
    rw [hrp, hp0] at hp
    split_ifs at hp ⊢ <;> omega
  · unfold r ReaderPc.afterUnref
    split_ifs with hlast hret
    · exact hr.move (by simp [hpc]) (by simp) (by simp) (fun _ hp => nomatch hp)
        (fun _ hp => hr.returning x (by rcases hp with hp | hp <;> cases hp; exact .inl (by simp [hpc])))
    · exact hr.leave (hr.returning x (.inl (by simp [hpc, hret])))
    · exact toRefInstalled hr (by simp [hpc])

/-- A reader's `Cleanup`. -/
theorem cleanup (h : SVInv s) {t : Fin n} {x : Nat} {returning : Bool}
    (hpc : (s.readers t).pc = .cleanup x returning) :
    SVInv ((s.modifySv x SuperVersion.cleanup).setPc t
      (if returning then .idle else .refInstalled)) := by
  have hr := h.readers t
  have hpend : (s.readers t).pc.pending x = 1 := by simp [hpc, ReaderPc.pending]
  have hpos : 0 < s.pending x := by have := s.reader_pending_le t x; omega
  have hx : x < s.allocated := h.lt_of_pending hpos
  let r : Reader := { s.readers t with pc := if returning then .idle else .refInstalled }
  have hrh : ∀ id, r.holds id = (s.readers t).holds id := fun id => by
    simp only [r, Reader.holds, hpc]; split_ifs <;> rfl
  have hrp : ∀ id, r.pc.pending id = 0 := fun id => by simp only [r]; split_ifs <;> rfl
  have hk := s.holders_setReader t r x
  have hp := s.pending_setReader t r x
  rw [hrh] at hk
  rw [hrp] at hp
  refine h.setReader_modify (r := r) hx rfl (fun id _ => hrh id) (fun id hid => ?_) ?_ ?_
  · rw [hrp, hpc]
    simp [ReaderPc.pending, Ne.symm hid]
  · exact ((h.balanced x hx).reclaim (by omega : s.pending x = _ + 1)).of_eq rfl (by omega) rfl rfl
  · unfold r
    split_ifs with hret
    · exact hr.leave (hr.returning x (.inr (by simp [hpc, hret])))
    · exact toRefInstalled hr (by simp [hpc])

/-- The locked `super_version->Ref()`. -/
theorem refInstalled (h : SVInv s) {t : Fin n} (hpc : (s.readers t).pc = .refInstalled) :
    SVInv ((s.modifySv s.superVersion SuperVersion.ref).setPc t (.reading s.superVersion)) := by
  have hr := h.readers t
  let r : Reader := { s.readers t with pc := .reading s.superVersion }
  have hk := s.holders_setReader t r s.superVersion
  have hp := s.pending_setReader t r s.superVersion
  have hrh : r.holds s.superVersion = (s.readers t).slot.holds s.superVersion + 1 := by
    simp [r, Reader.holds, ReaderPc.holds]
  have hold : (s.readers t).holds s.superVersion = (s.readers t).slot.holds s.superVersion := by
    simp [Reader.holds, hpc, ReaderPc.holds]
  have hrp : ∀ id, r.pc.pending id = (s.readers t).pc.pending id := fun id => by
    simp [r, hpc, ReaderPc.pending]
  rw [hrp] at hp
  refine h.setReader_modify (r := r) h.superVersion_lt rfl (fun id hid => ?_) (fun id _ => hrp id)
    ?_ ?_
  · simp [r, Reader.holds, hpc, ReaderPc.holds, Ne.symm hid]
  · exact ((h.balanced _ h.superVersion_lt).acquire s.one_le_holders_superVersion).of_eq rfl
      (by omega) (by omega) rfl
  · exact hr.move (by simp [hpc]) (by simp) (by simp) (fun id hp _ => by cases hp; exact .inl rfl)
      (fun _ hp => by rcases hp with hp | hp <;> cases hp)

/-- `ReturnThreadLocalSuperVersion`'s `CompareAndSwap`. -/
theorem compareAndSwap (h : SVInv s) {t : Fin n} {x : Nat} (hpc : (s.readers t).pc = .reading x) :
    SVInv (if (s.readers t).slot = .inUse then s.setReader t ⟨.sv x, .idle⟩
      else s.setPc t (.unref x true)) := by
  have hr := h.readers t
  split_ifs with hslot
  · exact h.setReader_keep (fun id => by simp [Reader.holds, hpc, hslot, ReaderPc.holds, Slot.holds])
      (fun id => by simp [hpc, ReaderPc.pending]) (hr.putBack hpc hslot)
  · -- the slot was scraped: `kSVObsolete`
    have hobs : (s.readers t).slot = .obsolete := (hr.busy (by simp [hpc])).resolve_left hslot
    exact h.setReader_keep (fun id => by simp [Reader.holds, hpc, ReaderPc.holds])
      (fun id => by simp [hpc, ReaderPc.pending])
      (hr.move (by simp [hpc]) (by simp) (by simp) (fun _ hp => nomatch hp) (fun _ _ => hobs))

/-- Every reader step keeps the invariant. -/
theorem readerStep (h : SVInv s) {t : Fin n} {s' : SVState n} (hs : s.readerStep t = some s') :
    SVInv s' := by
  have hr := h.readers t
  cases hpc : (s.readers t).pc with
  | idle =>
    simp only [SVState.readerStep, hpc, Option.some.injEq] at hs
    subst hs
    exact h.setReader_keep (fun id => by simp [Reader.holds, hpc, ReaderPc.holds, Slot.holds])
      (fun id => by simp [hpc, ReaderPc.pending]) (hr.swap hpc)
  | swapped p =>
    cases p with
    | inUse => simp [SVState.readerStep, hpc] at hs
    | obsolete =>
      simp only [SVState.readerStep, hpc, Option.some.injEq] at hs
      subst hs
      exact h.setReader_keep (fun id => by simp [Reader.holds, hpc, ReaderPc.holds, Slot.holds])
        (fun id => by simp [hpc, ReaderPc.pending]) (toRefInstalled hr (by simp [hpc]))
    | sv x =>
      simp only [SVState.readerStep, hpc] at hs
      have hc := h.check hpc
      split_ifs at hs hc <;> (simp only [Option.some.injEq] at hs; subst hs; exact hc)
  | unref x returning =>
    simp only [SVState.readerStep, hpc, Option.some.injEq] at hs
    subst hs
    exact h.unref hpc
  | cleanup x returning =>
    simp only [SVState.readerStep, hpc, Option.some.injEq] at hs
    subst hs
    exact h.cleanup hpc
  | refInstalled =>
    simp only [SVState.readerStep, hpc] at hs
    split_ifs at hs
    simp only [Option.some.injEq] at hs
    subst hs
    exact h.refInstalled hpc
  | reading x =>
    simp only [SVState.readerStep, hpc] at hs
    have hc := h.compareAndSwap hpc
    split_ifs at hs hc <;> (simp only [Option.some.injEq] at hs; subst hs; exact hc)

theorem count_scraped (ps : List Slot) (v : Slot) (id : Nat) :
    (if v = .obsolete then ps else ps ++ [v]).count (.sv id) = ps.count (.sv id) + v.holds id := by
  split_ifs with hv
  · simp [hv, Slot.holds]
  · simp only [List.count_append, List.count_singleton, Slot.holds, beq_iff_eq]

theorem current_of_not_scrape {s' : SVState n} (hsv : s'.superVersion = s.superVersion)
    (hi : ∀ old next ps, s.installer ≠ .scrape old next ps) (t : Fin n) (id : Nat)
    (hc : s.Current t id) : s'.Current t id := by
  rcases hc with hc | ⟨next, ps, hs, -⟩
  · exact .inl (hsv ▸ hc)
  · exact absurd hs (hi _ _ _)

/-- `InstallSuperVersion` up to `ResetThreadLocalSuperVersions`: the new object is installed
with one reference and the next version number. -/
theorem install (h : SVInv s) (hidle : s.installer = .idle) :
    SVInv { s with
      svs := Function.update s.svs s.allocated ⟨1, s.superVersionNumber + 1, 0⟩
      allocated := s.allocated + 1
      superVersion := s.allocated
      superVersionNumber := s.superVersionNumber + 1
      installer := .scrape s.superVersion 0 [] } := by
  have hk : ∀ id, SVState.holders { s with
      svs := Function.update s.svs s.allocated ⟨1, s.superVersionNumber + 1, 0⟩
      allocated := s.allocated + 1
      superVersion := s.allocated
      superVersionNumber := s.superVersionNumber + 1
      installer := .scrape s.superVersion 0 [] } id =
      s.holders id + if s.allocated = id then 1 else 0 := fun id => by
    dsimp only [SVState.holders]
    rw [hidle]
    simp only [InstallerPc.holds, List.count_nil]
    omega
  have hp : ∀ id, SVState.pending { s with
      svs := Function.update s.svs s.allocated ⟨1, s.superVersionNumber + 1, 0⟩
      allocated := s.allocated + 1
      superVersion := s.allocated
      superVersionNumber := s.superVersionNumber + 1
      installer := .scrape s.superVersion 0 [] } id = s.pending id := fun id => by
    dsimp only [SVState.pending]
    rw [hidle]
    rfl
  refine ⟨Nat.lt_succ_self _, fun id hid => ?_, fun id hid => ?_, by simp, fun id hid hne => ?_,
    fun t => (h.readers t).mono fun id hc => ?_, fun id hid => by simp [InstallerPc.scraped] at hid⟩
  · have hne : id ≠ s.allocated := by simp at hid; omega
    have hf := h.fresh id (by simp at hid; omega)
    simp only [Function.update_of_ne hne, hk, hp, if_neg (Ne.symm hne)]
    exact ⟨hf.1, by omega, hf.2.2⟩
  · simp only [hk, hp]
    by_cases hid' : id = s.allocated
    · subst hid'
      have hf := h.fresh _ le_rfl
      simp only [Function.update_self, hf.2.1, hf.2.2]
      exact RefCount.create
    · have hlt : id < s.allocated := by simp at hid; omega
      simp only [Function.update_of_ne hid', if_neg (Ne.symm hid'), Nat.add_zero]
      exact h.balanced id hlt
  · have hne' : id ≠ s.allocated := hne
    have hlt : id < s.allocated := by simp at hid; omega
    simp only [Function.update_of_ne hne']
    by_cases hold : id = s.superVersion
    · rw [hold, h.version]; omega
    · have := h.older id hlt hold; omega
  · -- the installed object is now the one being replaced, with `Scrape` at slot 0
    rcases hc with hc | ⟨next, ps, hs, -⟩
    · exact .inr ⟨0, [], by rw [hc], Nat.zero_le _⟩
    · rw [hidle] at hs; cases hs

/-- One exchange of `Scrape`, at slot `next`. -/
theorem scrapeSlot (h : SVInv s) {old next : Nat} {ps : List Slot}
    (hi : s.installer = .scrape old next ps) (hn : next < n) :
    SVInv ((s.setReader ⟨next, hn⟩ { s.readers ⟨next, hn⟩ with slot := .obsolete }).setInstaller
      (.scrape old (next + 1) (if (s.readers ⟨next, hn⟩).slot = .obsolete then ps
        else ps ++ [(s.readers ⟨next, hn⟩).slot]))) := by
  set t0 : Fin n := ⟨next, hn⟩ with ht0
  set r0 : Reader := { s.readers t0 with slot := .obsolete } with hr0
  set i : InstallerPc := .scrape old (next + 1)
    (if (s.readers t0).slot = .obsolete then ps else ps ++ [(s.readers t0).slot]) with hi'
  have hinst : (s.setReader t0 r0).installer = .scrape old next ps := hi
  have hih : ∀ id, i.holds id = (if old = id then 1 else 0) +
      (if (s.readers t0).slot = .obsolete then ps else ps ++ [(s.readers t0).slot]).count (.sv id) :=
    fun id => by rw [hi']; rfl
  have hip : ∀ id, i.pending id = 0 := fun id => by rw [hi']; rfl
  have hr0h : ∀ id, r0.holds id = (s.readers t0).pc.holds id := fun id => by
    simp [hr0, Reader.holds, Slot.holds]
  have hr0p : r0.pc = (s.readers t0).pc := by rw [hr0]
  clear_value r0 i
  refine h.frame_keep rfl rfl rfl rfl (fun id => ?_) (fun id => ?_) (fun u => ?_) (fun id hid => ?_)
  · -- the value moves from the slot to the collected list
    have h1 := (s.setReader t0 r0).holders_setInstaller i id
    have h2 := s.holders_setReader t0 r0 id
    have hc := count_scraped ps (s.readers t0).slot id
    have hrt : (s.readers t0).holds id =
        (s.readers t0).slot.holds id + (s.readers t0).pc.holds id := rfl
    rw [hinst, hih] at h1
    rw [hr0h] at h2
    simp only [InstallerPc.holds] at h1
    omega
  · have h1 := (s.setReader t0 r0).pending_setInstaller i id
    have h2 := s.pending_setReader t0 r0 id
    rw [hinst, hip] at h1
    rw [hr0p] at h2
    simp only [InstallerPc.pending] at h1
    omega
  · subst hr0 hi'
    simp only [SVState.setInstaller_readers, SVState.setReader_readers]
    by_cases hu : u = t0
    · subst hu
      rw [Function.update_self]
      exact (h.readers t0).scrape
    · rw [Function.update_of_ne hu]
      refine (h.readers u).mono fun id hc => ?_
      rcases hc with hc | ⟨next', ps', hs, hle⟩
      · exact .inl hc
      · rw [hi] at hs
        cases hs
        have hne : next ≠ u.val := fun he => hu (Fin.ext he.symm)
        exact .inr ⟨next + 1, _, rfl, by omega⟩
  · subst hi'
    simp only [SVState.setInstaller_installer, InstallerPc.scraped] at hid
    simp only [SVState.setInstaller_installer, InstallerPc.old,
      SVState.setInstaller_superVersion, SVState.setReader_superVersion]
    have hold := h.scraped id
    simp only [hi, InstallerPc.scraped, InstallerPc.old] at hold
    split_ifs at hid with hv
    · exact hold hid
    · rcases List.mem_append.mp hid with hid | hid
      · exact hold hid
      · -- the slot held `id`, which is current at `next`
        rcases (h.readers t0).slot id (List.mem_singleton.mp hid).symm with hc | ⟨next', ps', hs, -⟩
        · exact .inr hc
        · rw [hi] at hs
          cases hs
          exact .inl rfl

/-- `Scrape` has passed every slot. -/
theorem scrapeDone (h : SVInv s) {old next : Nat} {ps : List Slot}
    (hi : s.installer = .scrape old next ps) (hn : ¬ next < n) :
    SVInv (s.setInstaller (.unrefScraped old ps)) := by
  refine h.setInstaller_keep (fun id => by rw [hi]; rfl) (fun id => by rw [hi]; rfl)
    (fun t id hc => ?_) (fun id hid => ?_)
  · rcases hc with hc | ⟨next', ps', hs, hle⟩
    · exact .inl hc
    · rw [hi] at hs
      cases hs
      exact absurd (lt_of_le_of_lt hle t.isLt) hn
  · have hold := h.scraped id
    rw [hi] at hold
    exact hold hid

theorem not_scrape_of_unrefScraped {old : Nat} {ps : List Slot}
    (hi : s.installer = .unrefScraped old ps) : ∀ o next ps', s.installer ≠ .scrape o next ps' :=
  fun _ _ _ he => by rw [hi] at he; cases he

/-- The loop of `ResetThreadLocalSuperVersions` is done. -/
theorem unrefScrapedDone (h : SVInv s) {old : Nat} (hi : s.installer = .unrefScraped old []) :
    SVInv (s.setInstaller (.unrefOld old)) :=
  h.setInstaller_keep (fun id => by rw [hi]; simp [InstallerPc.holds])
    (fun id => by rw [hi]; rfl) (current_of_not_scrape rfl (not_scrape_of_unrefScraped hi))
    (fun id hid => by simp [InstallerPc.scraped] at hid)

/-- The loop passes a collected `kSVInUse`. -/
theorem skipScraped (h : SVInv s) {old : Nat} {p : Slot} {ps : List Slot}
    (hi : s.installer = .unrefScraped old (p :: ps)) (hp : ∀ id, p ≠ .sv id) :
    SVInv (s.setInstaller (.unrefScraped old ps)) := by
  refine h.setInstaller_keep (fun id => ?_) (fun id => by rw [hi]; rfl)
    (current_of_not_scrape rfl (not_scrape_of_unrefScraped hi)) (fun id hid => ?_)
  · rw [hi]
    simp [InstallerPc.holds, hp id]
  · have hold := h.scraped id
    rw [hi] at hold
    exact hold (List.mem_cons_of_mem _ hid)

/-- The `Unref` of a collected object in `ResetThreadLocalSuperVersions` finds at least two
holders: the collected value and either `old_superversion` or `super_version`. -/
theorem two_le_holders_of_scraped (h : SVInv s) {old x : Nat} {ps : List Slot}
    (hi : s.installer = .unrefScraped old (.sv x :: ps)) : 2 ≤ s.holders x := by
  have hinst : s.installer.holds x = (if old = x then 1 else 0) + (ps.count (.sv x) + 1) := by
    rw [hi]; simp [InstallerPc.holds]
  have hmem : Slot.sv x ∈ s.installer.scraped := by rw [hi]; exact List.mem_cons_self ..
  rcases h.scraped x hmem with ho | hx
  · rw [hi] at ho
    have ho : old = x := by simpa [InstallerPc.old] using ho
    have := s.installer_holds_le x
    rw [hinst, if_pos ho] at this
    omega
  · unfold SVState.holders
    rw [if_pos hx.symm, hinst]
    omega

/-- The `Unref` of a collected object in `ResetThreadLocalSuperVersions`. -/
theorem unrefScraped (h : SVInv s) {old x : Nat} {ps : List Slot}
    (hi : s.installer = .unrefScraped old (.sv x :: ps)) :
    SVInv ((s.modifySv x SuperVersion.unref).setInstaller (.unrefScraped old ps)) := by
  have h2 := h.two_le_holders_of_scraped hi
  have hx := h.lt_of_holders (by omega : 0 < s.holders x)
  have hk := s.holders_setInstaller (.unrefScraped old ps) x
  have hp := s.pending_setInstaller (.unrefScraped old ps) x
  rw [hi] at hk hp
  simp only [InstallerPc.holds, InstallerPc.pending, List.count_cons_self] at hk hp
  refine h.setInstaller_modify hx rfl (fun id hid => ?_) (fun id _ => by rw [hi]; rfl) ?_
    (current_of_not_scrape rfl (not_scrape_of_unrefScraped hi)) (fun id hid => ?_)
  · rw [hi]
    simp [InstallerPc.holds, Ne.symm hid]
  · have hr : (s.svs x).refs ≠ 1 := by rw [(h.balanced x hx).refs_eq]; omega
    have hb := (h.balanced x hx).release
      (by omega : s.holders x = (s.setInstaller (.unrefScraped old ps)).holders x + 1)
    rw [if_neg hr] at hb
    exact hb.of_eq rfl rfl (by omega) rfl
  · have hold := h.scraped id
    rw [hi] at hold
    exact hold (List.mem_cons_of_mem _ hid)

/-- `old_superversion->Unref()`: the last one leaves the installer to free it. -/
theorem unrefOld (h : SVInv s) {old : Nat} (hi : s.installer = .unrefOld old) :
    SVInv ((s.modifySv old SuperVersion.unref).setInstaller
      (if (s.svs old).refs = 1 then .cleanupOld old else .idle)) := by
  have hinst : s.installer.holds old = 1 := by rw [hi]; simp [InstallerPc.holds]
  have hx := h.lt_of_holders (by have := s.installer_holds_le old; omega : 0 < s.holders old)
  have hk := s.holders_setInstaller (if (s.svs old).refs = 1 then .cleanupOld old else .idle) old
  have hp := s.pending_setInstaller (if (s.svs old).refs = 1 then .cleanupOld old else .idle) old
  have hip : s.installer.pending old = 0 := by rw [hi]; rfl
  have hih : (if (s.svs old).refs = 1 then InstallerPc.cleanupOld old else .idle).holds old = 0 := by
    split_ifs <;> rfl
  have hipd : (if (s.svs old).refs = 1 then InstallerPc.cleanupOld old else .idle).pending old =
      if (s.svs old).refs = 1 then 1 else 0 := by
    split_ifs <;> simp [InstallerPc.pending]
  rw [hinst, hih] at hk
  rw [hip, hipd] at hp
  refine h.setInstaller_modify hx rfl (fun id hid => ?_) (fun id hid => ?_) ?_
    (current_of_not_scrape rfl fun _ _ _ he => by rw [hi] at he; cases he) (fun id hid => ?_)
  · rw [hi]
    split_ifs <;> simp [InstallerPc.holds, Ne.symm hid]
  · rw [hi]
    split_ifs <;> simp [InstallerPc.pending, Ne.symm hid]
  · refine ((h.balanced old hx).release (by omega : s.holders old = _ + 1)).of_eq rfl rfl ?_ rfl
    split_ifs at hp ⊢ <;> omega
  · split_ifs at hid <;> simp [InstallerPc.scraped] at hid

/-- `old_superversion->Cleanup()`. -/
theorem cleanupOld (h : SVInv s) {old : Nat} (hi : s.installer = .cleanupOld old) :
    SVInv ((s.modifySv old SuperVersion.cleanup).setInstaller .idle) := by
  have hpend : s.installer.pending old = 1 := by rw [hi]; simp [InstallerPc.pending]
  have hx := h.lt_of_pending (by have := s.installer_pending_le old; omega : 0 < s.pending old)
  have hk := s.holders_setInstaller .idle old
  have hp := s.pending_setInstaller .idle old
  have hih : s.installer.holds old = 0 := by rw [hi]; rfl
  refine h.setInstaller_modify hx rfl (fun id _ => by rw [hi]; rfl)
    (fun id hid => by rw [hi]; simp [InstallerPc.pending, Ne.symm hid]) ?_
    (current_of_not_scrape rfl fun _ _ _ he => by rw [hi] at he; cases he)
    (fun id hid => by simp [InstallerPc.scraped] at hid)
  rw [hih] at hk
  rw [hpend] at hp
  exact ((h.balanced old hx).reclaim (by simp [InstallerPc.pending] at hp; omega :
    s.pending old = (s.setInstaller .idle).pending old + 1)).of_eq rfl
      (by simp [InstallerPc.holds] at hk; omega) rfl rfl

/-- Every installer step keeps the invariant. -/
theorem installerStep (h : SVInv s) : SVInv s.installerStep := by
  cases hi : s.installer with
  | idle =>
    simp only [SVState.installerStep, hi]
    exact h.install hi
  | scrape old next ps =>
    by_cases hn : next < n
    · simp only [SVState.installerStep, hi, dif_pos hn]
      exact h.scrapeSlot hi hn
    · simp only [SVState.installerStep, hi, dif_neg hn]
      exact h.scrapeDone hi hn
  | unrefScraped old ps =>
    cases ps with
    | nil =>
      simp only [SVState.installerStep, hi]
      exact h.unrefScrapedDone hi
    | cons p ps =>
      cases p with
      | sv x =>
        simp only [SVState.installerStep, hi]
        exact h.unrefScraped hi
      | inUse =>
        simp only [SVState.installerStep, hi]
        exact h.skipScraped hi fun _ => by simp
      | obsolete =>
        simp only [SVState.installerStep, hi]
        exact h.skipScraped hi fun _ => by simp
  | unrefOld old =>
    simp only [SVState.installerStep, hi]
    exact h.unrefOld hi
  | cleanupOld old =>
    simp only [SVState.installerStep, hi]
    exact h.cleanupOld hi

theorem step (h : SVInv s) {a : Thread n} {s' : SVState n} (hs : s.step a = some s') : SVInv s' := by
  cases a with
  | reader t => exact h.readerStep hs
  | installer =>
    simp only [SVState.step, Option.some.injEq] at hs
    subst hs
    exact h.installerStep

theorem init (n : Nat) : SVInv (SVState.init n) := by
  have hk : ∀ id, id ≠ 0 → (SVState.init n).holders id = 0 := fun id hid => by
    simp [SVState.holders, SVState.init, Reader.holds, Slot.holds, ReaderPc.holds,
      InstallerPc.holds, Ne.symm hid]
  have hk0 : (SVState.init n).holders 0 = 1 := by
    simp [SVState.holders, SVState.init, Reader.holds, Slot.holds, ReaderPc.holds,
      InstallerPc.holds]
  have hp : ∀ id, (SVState.init n).pending id = 0 := fun id => by
    simp [SVState.pending, SVState.init, ReaderPc.pending, InstallerPc.pending]
  refine ⟨Nat.one_pos, fun id hid => ?_, fun id hid => ?_, rfl, fun id hid hne => ?_,
    fun t => ?_, fun id hid => by simp [SVState.init, InstallerPc.scraped] at hid⟩
  · have hne : id ≠ 0 := by simp [SVState.init] at hid; omega
    exact ⟨by simp [SVState.init, Function.update_of_ne hne], hk id hne, hp id⟩
  · have hid : id = 0 := by simpa [SVState.init] using hid
    subst hid
    rw [hk0, hp]
    exact RefCount.create
  · exact absurd (by simpa [SVState.init] using hid) hne
  · show ReaderInv _ ⟨.obsolete, .idle⟩
    exact ⟨fun _ hs => (nomatch hs), fun _ hp => (nomatch hp), fun hp => absurd rfl hp,
      fun _ hs => (nomatch hs), fun hp => (nomatch hp),
      fun _ hp => by rcases hp with hp | hp <;> cases hp⟩

/-- The invariant holds in every state that some interleaving reaches. -/
theorem reachable {s : SVState n} (hs : SVReachable s) : SVInv s :=
  Run.Reachable.invariant (init n) (fun _ _ _ h hs => h.step hs) hs

end SVInv

/-! ### Reclamation -/

theorem ReaderPc.holds_eq_zero {pc : ReaderPc} {id : Nat} (h : pc.sv ≠ some id) :
    pc.holds id = 0 := by
  cases pc with
  | swapped p => cases p <;> simp_all [ReaderPc.sv, ReaderPc.holds, Slot.holds]
  | unref x _ | reading x => simp_all [ReaderPc.sv, ReaderPc.holds]
  | idle | cleanup _ _ | refInstalled => rfl

theorem ReaderPc.pending_eq_zero {pc : ReaderPc} {id : Nat} (h : pc.sv ≠ some id) :
    pc.pending id = 0 := by
  cases pc with
  | cleanup x _ => simp_all [ReaderPc.sv, ReaderPc.pending]
  | idle | swapped _ | unref _ _ | refInstalled | reading _ => rfl

theorem InstallerPc.holds_eq_zero {i : InstallerPc} {id : Nat} (ho : i.old ≠ some id)
    (hs : Slot.sv id ∉ i.scraped) : i.holds id = 0 := by
  cases i <;> simp_all [InstallerPc.old, InstallerPc.scraped, InstallerPc.holds, List.count_eq_zero]

theorem InstallerPc.pending_eq_zero {i : InstallerPc} {id : Nat} (ho : i.old ≠ some id) :
    i.pending id = 0 := by
  cases i <;> simp_all [InstallerPc.old, InstallerPc.pending]

namespace SVState

variable {n : Nat} (s : SVState n)

theorem cleanups_modifySv {f : SuperVersion → SuperVersion} (hf : ∀ o, (f o).cleanups = o.cleanups)
    (x id : Nat) : ((s.modifySv x f).svs id).cleanups = (s.svs id).cleanups := by
  by_cases hx : id = x
  · subst hx; simp [hf]
  · simp [Function.update_of_ne hx]

theorem cleanups_modifySv_cleanup (x id : Nat) :
    ((s.modifySv x SuperVersion.cleanup).svs id).cleanups =
      (s.svs id).cleanups + if x = id then 1 else 0 := by
  by_cases hx : id = x
  · subst hx; simp [SuperVersion.cleanup]
  · simp [Function.update_of_ne hx, Ne.symm hx]

/-- An object nobody holds is neither installed nor read by any reader. -/
theorem unheld {id : Nat} (hk : s.holders id = 0) :
    s.superVersion ≠ id ∧ ∀ t, (s.readers t).pc ≠ .reading id := by
  refine ⟨fun hsv => ?_, fun t hpc => ?_⟩
  · have := s.one_le_holders_superVersion
    rw [hsv] at this
    omega
  · have := s.reader_holds_le t id
    simp [Reader.holds, hpc, ReaderPc.holds] at this
    omega

/-- A reader step runs `Cleanup` on `id` only from its `Cleanup` of `id`. -/
theorem readerStep_cleanups {t : Fin n} {s' : SVState n} (hs : s.readerStep t = some s') (id : Nat) :
    (s'.svs id).cleanups = (s.svs id).cleanups ∨
      ∃ returning, (s.readers t).pc = .cleanup id returning := by
  cases hpc : (s.readers t).pc with
  | idle =>
    simp only [readerStep, hpc, Option.some.injEq] at hs
    subst hs
    exact .inl rfl
  | refInstalled =>
    simp only [readerStep, hpc] at hs
    split_ifs at hs
    simp only [Option.some.injEq] at hs
    subst hs
    exact .inl (cleanups_modifySv s (f := SuperVersion.ref) (fun _ => rfl) _ id)
  | reading x =>
    simp only [readerStep, hpc] at hs
    split_ifs at hs <;> (simp only [Option.some.injEq] at hs; subst hs; exact .inl rfl)
  | swapped p =>
    cases p <;> simp only [readerStep, hpc] at hs
    · cases hs
    · simp only [Option.some.injEq] at hs; subst hs; exact .inl rfl
    · split_ifs at hs <;> (simp only [Option.some.injEq] at hs; subst hs; exact .inl rfl)
  | unref x _ =>
    simp only [readerStep, hpc, Option.some.injEq] at hs
    subst hs
    exact .inl (cleanups_modifySv s (f := SuperVersion.unref) (fun _ => rfl) x id)
  | cleanup x returning =>
    simp only [readerStep, hpc, Option.some.injEq] at hs
    subst hs
    by_cases hx : x = id
    · exact .inr ⟨returning, hx ▸ rfl⟩
    · left
      change ((s.modifySv x SuperVersion.cleanup).svs id).cleanups = _
      rw [cleanups_modifySv_cleanup, if_neg hx, Nat.add_zero]

/-- An installer step runs `Cleanup` on `id` only from its `Cleanup` of `old_superversion`, and
the object it allocates has had none. -/
theorem installerStep_cleanups (h : (s.svs s.allocated).cleanups = 0) (id : Nat) :
    (s.installerStep.svs id).cleanups = (s.svs id).cleanups ∨ s.installer = .cleanupOld id := by
  unfold installerStep
  split
  · by_cases hid : id = s.allocated
    · subst hid; simp [h]
    · simp [Function.update_of_ne hid]
  · split <;> exact .inl rfl
  · exact .inl rfl
  · exact .inl (cleanups_modifySv s (f := SuperVersion.unref) (fun _ => rfl) _ id)
  · exact .inl rfl
  · exact .inl (cleanups_modifySv s (f := SuperVersion.unref) (fun _ => rfl) _ id)
  · rename_i old hi
    by_cases hx : old = id
    · exact .inr (hx ▸ hi)
    · left
      change ((s.modifySv old SuperVersion.cleanup).svs id).cleanups = _
      rw [cleanups_modifySv_cleanup, if_neg hx, Nat.add_zero]

end SVState

namespace SVInv

variable {n : Nat} {s : SVState n}

/-- A step that runs `Cleanup` on `id` is taken by a thread about to free `id`. -/
theorem pending_of_cleanups_lt (h : SVInv s) {a : Thread n} {s' : SVState n} {id : Nat}
    (hs : s.step a = some s') (hlt : (s.svs id).cleanups < (s'.svs id).cleanups) :
    0 < s.pending id := by
  cases a with
  | reader t =>
    rcases s.readerStep_cleanups hs id with he | ⟨returning, hpc⟩
    · omega
    · have := s.reader_pending_le t id
      simp [hpc, ReaderPc.pending] at this
      omega
  | installer =>
    simp only [SVState.step, Option.some.injEq] at hs
    subst hs
    rcases s.installerStep_cleanups (by rw [(h.fresh _ le_rfl).1]; rfl) id with he | hi
    · omega
    · have := s.installer_pending_le id
      simp [hi, InstallerPc.pending] at this
      omega

/-- Nobody holds an object with a free pending or done. -/
theorem holders_eq_zero (h : SVInv s) {id : Nat} (hc : 0 < s.pending id ∨ 0 < (s.svs id).cleanups) :
    s.holders id = 0 := by
  by_cases hid : id < s.allocated
  · have hb := h.balanced id hid
    rcases hb.live_or_dead with hl | hd
    · omega
    · exact hd.1
  · exact (h.fresh id (Nat.le_of_not_lt hid)).2.1

/-- Every count equals the holders of its object. -/
theorem refs_eq (h : SVInv s) (id : Nat) : (s.svs id).refs = s.holders id := by
  by_cases hid : id < s.allocated
  · exact (h.balanced id hid).refs_eq
  · have hf := h.fresh id (Nat.le_of_not_lt hid)
    rw [hf.1, hf.2.1]
    rfl

theorem refs_nonneg (h : SVInv s) (id : Nat) : 0 ≤ (s.svs id).refs := by
  by_cases hid : id < s.allocated
  · exact (h.balanced id hid).refs_nonneg
  · rw [(h.fresh id (Nat.le_of_not_lt hid)).1]
    exact le_rfl

theorem cleanups_le_one (h : SVInv s) (id : Nat) : (s.svs id).cleanups ≤ 1 := by
  by_cases hid : id < s.allocated
  · exact (h.balanced id hid).reclaims_le_one
  · rw [(h.fresh id (Nat.le_of_not_lt hid)).1]
    exact Nat.zero_le 1

/-- An allocated object that is not installed, that the installer no longer refers to and that
no reader refers to has been freed. -/
theorem reclaimed (h : SVInv s) {id : Nat} (hid : id < s.allocated) (hsv : s.superVersion ≠ id)
    (hold : s.installer.old ≠ some id) (hsc : Slot.sv id ∉ s.installer.scraped)
    (hr : ∀ t, (s.readers t).pc.sv ≠ some id) : (s.svs id).cleanups = 1 := by
  -- no slot holds it: a slot holds only the installed object or the one being replaced
  have hslot : ∀ t, (s.readers t).slot.holds id = 0 := fun t => by
    unfold Slot.holds
    split_ifs with hs
    · rcases (h.readers t).slot id hs with hc | ⟨next, ps, hi, -⟩
      · exact absurd hc.symm hsv
      · rw [hi] at hold
        exact absurd rfl hold
    · rfl
  have hk : s.holders id = 0 := by
    have hsum : ∑ t, (s.readers t).holds id = 0 := Finset.sum_eq_zero fun t _ => by
      simp [Reader.holds, hslot t, ReaderPc.holds_eq_zero (hr t)]
    simp only [SVState.holders, if_neg hsv, hsum, InstallerPc.holds_eq_zero hold hsc]
  have hp : s.pending id = 0 := by
    have hsum : ∑ t, (s.readers t).pc.pending id = 0 :=
      Finset.sum_eq_zero fun t _ => ReaderPc.pending_eq_zero (hr t)
    simp only [SVState.pending, hsum, InstallerPc.pending_eq_zero hold]
  exact (h.balanced id hid).reclaimed hk hp

end SVInv

/-- `SuperVersion` reclamation is safe under every interleaving of readers and installs: a
`Cleanup` never runs on the installed object or on one a reader is between obtaining and
returning; an object is cleaned up at most once, and a replaced one that no reader and no
install refers to any more has been cleaned up; and no count is ever negative. -/
theorem superVersion_reclamation_safe {n : Nat} {s : SVState n} (hs : SVReachable s) :
    (∀ (a : Thread n) (s' : SVState n) (id : Nat), s.step a = some s' →
        (s.svs id).cleanups < (s'.svs id).cleanups →
        s.superVersion ≠ id ∧ ∀ t, (s.readers t).pc ≠ .reading id) ∧
    (∀ id, (s.svs id).cleanups ≤ 1) ∧
    (∀ id < s.allocated, id ≠ s.superVersion → s.installer.old ≠ some id →
        Slot.sv id ∉ s.installer.scraped → (∀ t, (s.readers t).pc.sv ≠ some id) →
        (s.svs id).cleanups = 1) ∧
    (∀ id, 0 ≤ (s.svs id).refs) := by
  have h := SVInv.reachable hs
  refine ⟨fun a s' id hstep hlt => ?_, h.cleanups_le_one,
    fun id hid hne hold hsc hr => h.reclaimed hid (Ne.symm hne) hold hsc hr, h.refs_nonneg⟩
  exact s.unheld (h.holders_eq_zero (.inl (h.pending_of_cleanups_lt hstep hlt)))

/-- A reader takes object 0 through its slot, an install replaces it and scrapes the slot, and
the reader's `CompareAndSwap` then fails: the reader's `Unref` drops the last reference and it
cleans object 0 up. -/
def staleReturn : List (Thread 1) :=
  [.reader 0, .reader 0, .reader 0, .installer, .installer, .installer, .installer, .installer,
    .installer, .reader 0, .reader 0, .reader 0]

theorem superVersion_reclaimed_after_stale_return :
    ∃ s ∈ Run.run SVState.step (SVState.init 1) staleReturn,
      (s.svs 0).cleanups = 1 ∧ (s.svs 0).refs = 0 ∧ s.superVersion = 1 ∧
      ((∀ (a : Thread 1) (s' : SVState 1) (id : Nat), s.step a = some s' →
        (s.svs id).cleanups < (s'.svs id).cleanups →
        s.superVersion ≠ id ∧ ∀ t, (s.readers t).pc ≠ .reading id) ∧
      (∀ id, (s.svs id).cleanups ≤ 1) ∧
      (∀ id < s.allocated, id ≠ s.superVersion → s.installer.old ≠ some id →
        Slot.sv id ∉ s.installer.scraped → (∀ t, (s.readers t).pc.sv ≠ some id) →
        (s.svs id).cleanups = 1) ∧
      (∀ id, 0 ≤ (s.svs id).refs)) := by
  obtain ⟨s, hs, hc⟩ : ∃ s ∈ Run.run SVState.step (SVState.init 1) staleReturn,
      (s.svs 0).cleanups = 1 ∧ (s.svs 0).refs = 0 ∧ s.superVersion = 1 := by
    decide +kernel
  exact ⟨s, hs, hc.1, hc.2.1, hc.2.2, superVersion_reclamation_safe ⟨staleReturn, hs⟩⟩

/-- Every `assert` of the protocol holds in every reachable state: `Swap` never returns
`kSVInUse`; a failed `CompareAndSwap` finds `kSVObsolete`; every `Unref` finds a positive count;
the `Unref` of a scraped object in `ResetThreadLocalSuperVersions` never drops the last
reference; and `Cleanup` finds a zero count. -/
theorem superVersion_asserts_hold {n : Nat} {s : SVState n} (hs : SVReachable s) :
    (∀ t, (s.readers t).pc ≠ .swapped .inUse) ∧
    (∀ t id, (s.readers t).pc = .reading id → (s.readers t).slot ≠ .inUse →
      (s.readers t).slot = .obsolete) ∧
    (∀ t id returning, (s.readers t).pc = .unref id returning → 0 < (s.svs id).refs) ∧
    (∀ old id ps, s.installer = .unrefScraped old (.sv id :: ps) → 1 < (s.svs id).refs) ∧
    (∀ old, s.installer = .unrefOld old → 0 < (s.svs old).refs) ∧
    (∀ t id returning, (s.readers t).pc = .cleanup id returning → (s.svs id).refs = 0) ∧
    (∀ old, s.installer = .cleanupOld old → (s.svs old).refs = 0) := by
  have h := SVInv.reachable hs
  refine ⟨fun t => (h.readers t).swapped, fun t id hpc hslot => ?_, fun t id r hpc => ?_,
    fun old id ps hi => ?_, fun old hi => ?_, fun t id r hpc => ?_, fun old hi => ?_⟩
  · exact ((h.readers t).busy (by simp [hpc])).resolve_left hslot
  · have := s.reader_holds_le t id
    simp [Reader.holds, hpc, ReaderPc.holds] at this
    rw [h.refs_eq]
    omega
  · have := h.two_le_holders_of_scraped hi
    rw [h.refs_eq]
    omega
  · have := s.installer_holds_le old
    rw [hi] at this
    simp [InstallerPc.holds] at this
    rw [h.refs_eq]
    omega
  · have := s.reader_pending_le t id
    simp [hpc, ReaderPc.pending] at this
    rw [h.refs_eq, h.holders_eq_zero (.inl (by omega))]
    rfl
  · have := s.installer_pending_le old
    rw [hi] at this
    simp [InstallerPc.pending] at this
    rw [h.refs_eq, h.holders_eq_zero (.inl (by omega))]
    rfl

theorem superVersion_asserts_hold_after_stale_return :
    ∃ s ∈ Run.run SVState.step (SVState.init 1) staleReturn,
      (∀ t, (s.readers t).pc ≠ .swapped .inUse) ∧
      (∀ t id, (s.readers t).pc = .reading id → (s.readers t).slot ≠ .inUse →
        (s.readers t).slot = .obsolete) ∧
      (∀ t id returning, (s.readers t).pc = .unref id returning → 0 < (s.svs id).refs) ∧
      (∀ old id ps, s.installer = .unrefScraped old (.sv id :: ps) → 1 < (s.svs id).refs) ∧
      (∀ old, s.installer = .unrefOld old → 0 < (s.svs old).refs) ∧
      (∀ t id returning, (s.readers t).pc = .cleanup id returning → (s.svs id).refs = 0) ∧
      (∀ old, s.installer = .cleanupOld old → (s.svs old).refs = 0) := by
  obtain ⟨s, hs, -⟩ : ∃ s ∈ Run.run SVState.step (SVState.init 1) staleReturn,
      s.installer = .idle := by
    decide +kernel
  exact ⟨s, hs, superVersion_asserts_hold ⟨staleReturn, hs⟩⟩

end DLSM
