import DLSM.Lib.FreeList
import DLSM.Lib.Run
import DLSM.Lib.SortedList

/-! The slot allocator of util/rdma.cc.  A pool maps the start address of each registered region
to its `In_Use_Array`, the free list of the region's fixed-size slots.  Allocation pops the back
of one region's free list and hands out the slot at `addr + index * chunk_size`; deallocation
finds the region of a pointer by `upper_bound` on the start addresses, steps back one region and
pushes the pointer's offset divided by the chunk size.  Each of these touches the pool under a
lock: a region is registered under the exclusive lock, a pop or a push holds the array's spin
lock under the shared one.  So a run of threads calling Allocate and Deallocate is a sequence of
steps, each registering a fresh region, popping one slot or pushing one back, and the functions
of the source are such sequences when no other thread interleaves.

Over every sequence in which each pointer deallocated is a slot handed out and not yet
deallocated, the handed-out slots are disjoint chunks of registered regions, each deallocation
returns true and pushes back the index its slot was popped at, and every free list holds each
free index once and nothing else.  The ghost list `handedOut` records the slots the callers
hold, which the source does not. -/

namespace DLSM

/-- `In_Use_Array`: the number of slots of a region, their size, and the free ones, a `std::list`
used as a stack. -/
structure InUseArray where
  elementSize : Nat
  chunkSize : Nat
  freeList : List Nat
deriving Repr, DecidableEq

namespace InUseArray

/-- The constructor pushes every index below the size. -/
def new (size chunkSize : Nat) : InUseArray := ⟨size, chunkSize, List.range size⟩

/-- `allocate_memory_slot`: -1 when nothing is free, else the back of the list, popped. -/
def allocateMemorySlot (a : InUseArray) : Int × InUseArray :=
  match a.freeList.getLast? with
  | none => (-1, a)
  | some i => (i, { a with freeList := a.freeList.dropLast })

/-- `deallocate_memory_slot` pushes the index before it checks the range, and never looks for the
index in the list: a double free goes unnoticed. -/
def deallocateMemorySlot (a : InUseArray) (index : Nat) : Bool × InUseArray :=
  (decide (index < a.elementSize), { a with freeList := a.freeList ++ [index] })

theorem allocateMemorySlot_of_getLast? {a : InUseArray} {i : Nat}
    (h : a.freeList.getLast? = some i) :
    a.allocateMemorySlot = ((i : Int), { a with freeList := a.freeList.dropLast }) := by
  simp [allocateMemorySlot, h]

theorem allocateMemorySlot_of_nonneg {a : InUseArray} (h : 0 ≤ a.allocateMemorySlot.1) :
    ∃ i, a.freeList.getLast? = some i ∧
      a.allocateMemorySlot = ((i : Int), { a with freeList := a.freeList.dropLast }) := by
  cases hlast : a.freeList.getLast? with
  | none => simp [allocateMemorySlot, hlast] at h
  | some i => exact ⟨i, rfl, allocateMemorySlot_of_getLast? hlast⟩

/-- A failed pop leaves the array as it was. -/
theorem allocateMemorySlot_of_neg {a : InUseArray} (h : a.allocateMemorySlot.1 < 0) :
    a.allocateMemorySlot.2 = a := by
  cases hlast : a.freeList.getLast? with
  | none => simp [allocateMemorySlot, hlast]
  | some i => exact absurd h (by simp [allocateMemorySlot, hlast])

end InUseArray

/-- An entry of a pool's map: the start address of a registered region, the length of its memory
region, and its `In_Use_Array`. -/
structure Region where
  addr : Nat
  length : Nat
  array : InUseArray
deriving Repr, DecidableEq

/-- Two address ranges that do not overlap. -/
def Apart (addr length addr' length' : Nat) : Prop := addr + length ≤ addr' ∨ addr' + length' ≤ addr

instance (addr length addr' length' : Nat) : Decidable (Apart addr length addr' length') :=
  inferInstanceAs (Decidable (_ ∨ _))

theorem Apart.symm {addr length addr' length' : Nat} (h : Apart addr length addr' length') :
    Apart addr' length' addr length :=
  Or.symm h

/-- A range new memory can occupy: not empty, and apart from every registered region. -/
def Fresh (regions : List Region) (addr length : Nat) : Prop :=
  0 < length ∧ ∀ r ∈ regions, Apart addr length r.addr r.length

instance (regions : List Region) (addr length : Nat) : Decidable (Fresh regions addr length) :=
  inferInstanceAs (Decidable (_ ∧ _))

namespace RDMAManager

/-! The map of a pool is its list of regions in address order. -/

/-- The map after the region at `addr` has its array replaced by `a`. -/
def setArray (regions : List Region) (addr : Nat) (a : InUseArray) : List Region :=
  regions.map fun r => if r.addr = addr then { r with array := a } else r

/-- The map insert of `Local_Memory_Register` and `Remote_Memory_Register`: a region of
`length / chunk_size` slots under its start address, kept out when the address is there already.
Division by a chunk size of zero is undefined. -/
def memoryRegister (regions : List Region) (addr length chunkSize : Nat) : Option (List Region) :=
  if chunkSize = 0 then none
  else some (SortedList.insert Region.addr ⟨addr, length, .new (length / chunkSize) chunkSize⟩ regions)

/-- One pop, `.at(addr)->allocate_memory_slot()`; an address not in the map throws. -/
def allocateAt (regions : List Region) (addr : Nat) : Option (Int × List Region) :=
  (regions.find? fun r => r.addr == addr).map fun r =>
    (r.array.allocateMemorySlot.1, setArray regions addr r.array.allocateMemorySlot.2)

/-- The loop of `Allocate_Local_RDMA_Slot` over the regions in address order: a region whose chunk
size is not the pool's is skipped, and the first that pops an index gives the slot at
`addr + index * chunk_size`. -/
def searchLocal (chunkSize : Nat) : List Region → Option (Nat × List Region)
  | [] => none
  | r :: rs =>
    if r.array.chunkSize ≠ chunkSize then
      (searchLocal chunkSize rs).map fun (p, rs') => (p, r :: rs')
    else
      let (blockIndex, a) := r.array.allocateMemorySlot
      if 0 ≤ blockIndex then
        some (r.addr + blockIndex.toNat * chunkSize, { r with array := a } :: rs)
      else (searchLocal chunkSize rs).map fun (p, rs') => (p, r :: rs')

/-- The loop of `Allocate_Remote_RDMA_Slot`, with no test of the chunk size; slots are
`Table_Size` apart. -/
def searchRemote (tableSize : Nat) : List Region → Option (Nat × List Region)
  | [] => none
  | r :: rs =>
    let (sstIndex, a) := r.array.allocateMemorySlot
    if 0 ≤ sstIndex then
      some (r.addr + sstIndex.toNat * tableSize, { r with array := a } :: rs)
    else (searchRemote tableSize rs).map fun (p, rs') => (p, r :: rs')

/-- The registration both allocations make when the pool has no region, a test repeated under the
exclusive lock. -/
def registerIfEmpty (regions : List Region) (fresh : Nat × Nat) (chunkSize : Nat) :
    Option (List Region) :=
  if regions.isEmpty then memoryRegister regions fresh.1 fresh.2 chunkSize else some regions

/-- The last resort of both allocations: register a region and pop a slot of it, found under its
start address. -/
def registerAndAllocate (regions : List Region) (fresh : Nat × Nat) (chunkSize : Nat) :
    Option (Int × List Region) := do
  let regions ← memoryRegister regions fresh.1 fresh.2 chunkSize
  allocateAt regions fresh.1

/-- `Allocate_Local_RDMA_Slot(mr, pool)` for a pool of chunk size `chunkSize`.  `fresh` and
`fresh'` are the start and length of the regions `Local_Memory_Register` obtains, when the pool is
empty and when no region has a free slot.  No slot comes back when the region registered last is
too short for one, where the source leaves `mr_input` as it was. -/
def allocateLocalRDMASlot (chunkSize : Nat) (fresh fresh' : Nat × Nat) (regions : List Region) :
    Option (Option Nat × List Region) := do
  let regions ← registerIfEmpty regions fresh chunkSize
  match searchLocal chunkSize regions with
  | some (p, regions) => pure (some p, regions)
  | none =>
    let (blockIndex, regions) ← registerAndAllocate regions fresh' chunkSize
    pure (if 0 ≤ blockIndex then some (fresh'.1 + blockIndex.toNat * chunkSize) else none, regions)

/-- `Allocate_Remote_RDMA_Slot(mr, target)` for the pool of one memory node, whose slots are
`Table_Size` long; `fresh` and `fresh'` are the regions `Remote_Memory_Register` obtains.  The
assert on the last index is dropped, so an index of -1 gives the address one slot before the
region. -/
def allocateRemoteRDMASlot (tableSize : Nat) (fresh fresh' : Nat × Nat) (regions : List Region) :
    Option (Int × List Region) := do
  let regions ← registerIfEmpty regions fresh tableSize
  match searchRemote tableSize regions with
  | some (p, regions) => pure (p, regions)
  | none =>
    let (sstIndex, regions) ← registerAndAllocate regions fresh' tableSize
    pure (fresh'.1 + sstIndex * tableSize, regions)

/-- The body of `Deallocate_Local_RDMA_Slot(p, pool)` and `Deallocate_Remote_RDMA_Slot(p, target)`:
the region before `upper_bound(p)`, a range test on the offset, and the push of the offset divided
by the region's chunk size.  The two branches of the source, at the end of the map or not, are
the same code. -/
def deallocateSlot (regions : List Region) (p : Nat) : Bool × List Region :=
  match (regions.takeWhile fun r => !decide (p < r.addr)).getLast? with
  | none => (false, regions)
  | some r =>
    let buffOffset := p - r.addr
    if buffOffset < r.length then
      let (status, a) := r.array.deallocateMemorySlot (buffOffset / r.array.chunkSize)
      (status, setArray regions r.addr a)
    else (false, regions)

def deallocateLocalRDMASlot (regions : List Region) (p : Nat) : Bool × List Region :=
  deallocateSlot regions p

def deallocateRemoteRDMASlot (regions : List Region) (p : Nat) : Bool × List Region :=
  deallocateSlot regions p

/-- One call on an empty pool registers a region of two slots and hands out the one on top of
the free list; freeing it pushes its index back. -/
example : allocateLocalRDMASlot 2 (0, 4) (8, 4) [] = some (some 2, [⟨0, 4, ⟨2, 2, [0]⟩⟩]) := by
  decide

/-- A second free of the same slot pushes its index again. -/
example : deallocateLocalRDMASlot [⟨0, 4, ⟨2, 2, [0, 1]⟩⟩] 2 = (true, [⟨0, 4, ⟨2, 2, [0, 1, 1]⟩⟩]) := by
  decide

section Map

variable {regions : List Region} {addr : Nat} {a : InUseArray}

theorem setArray_cons (r : Region) (rs : List Region) :
    setArray (r :: rs) addr a = (if r.addr = addr then { r with array := a } else r) :: setArray rs addr a :=
  rfl

theorem map_addr_setArray : (setArray regions addr a).map Region.addr = regions.map Region.addr := by
  simp only [setArray, List.map_map]
  apply List.map_congr_left
  intro r _
  by_cases h : r.addr = addr <;> simp [h]

theorem exists_of_mem_setArray {r' : Region} (h : r' ∈ setArray regions addr a) :
    ∃ r ∈ regions, r'.addr = r.addr ∧ r'.length = r.length := by
  obtain ⟨r, hr, rfl⟩ := List.mem_map.1 h
  refine ⟨r, hr, ?_⟩
  by_cases hra : r.addr = addr <;> simp [hra]

theorem mem_setArray_self {r : Region} (hr : r ∈ regions) :
    { r with array := a } ∈ setArray regions r.addr a :=
  List.mem_map.2 ⟨r, hr, if_pos rfl⟩

theorem mem_setArray_of_ne {r : Region} (hr : r ∈ regions) (hne : r.addr ≠ addr) :
    r ∈ setArray regions addr a :=
  List.mem_map.2 ⟨r, hr, if_neg hne⟩

theorem setArray_of_forall_ne (h : ∀ r ∈ regions, r.addr ≠ addr) : setArray regions addr a = regions := by
  conv => rhs; rw [← List.map_id' regions]
  exact List.map_congr_left fun r hr => if_neg (h r hr)

theorem memoryRegister_eq_some {regions' : List Region} {length c : Nat} :
    memoryRegister regions addr length c = some regions' ↔
      c ≠ 0 ∧ regions' = SortedList.insert Region.addr ⟨addr, length, .new (length / c) c⟩ regions := by
  unfold memoryRegister
  split_ifs with hc <;> simp [hc, eq_comm]

variable (hs : SortedList.Sorted Region.addr regions)
include hs

/-- In a map, a region's own address names it alone. -/
theorem mem_setArray_cases {r r' : Region} (hr : r ∈ regions) (h : r' ∈ setArray regions r.addr a) :
    r' = { r with array := a } ∨ r' ∈ regions ∧ r'.addr ≠ r.addr := by
  obtain ⟨r₀, hr₀, rfl⟩ := List.mem_map.1 h
  by_cases heq : r₀.addr = r.addr
  · left
    rw [if_pos heq, hs.eq_of_key_eq hr₀ hr heq]
  · right
    rw [if_neg heq]
    exact ⟨hr₀, heq⟩

theorem setArray_self {r : Region} (hr : r ∈ regions) : setArray regions r.addr r.array = regions := by
  conv => rhs; rw [← List.map_id' regions]
  refine List.map_congr_left fun r₀ hr₀ => ?_
  by_cases heq : r₀.addr = r.addr
  · rw [if_pos heq, hs.eq_of_key_eq hr₀ hr heq]
  · rw [if_neg heq]

end Map

/-! What one pop and one search do. -/

theorem allocateAt_eq_some {regions regions' : List Region} {addr : Nat} {index : Int}
    (h : allocateAt regions addr = some (index, regions')) :
    ∃ r ∈ regions, r.addr = addr ∧ index = r.array.allocateMemorySlot.1 ∧
      regions' = setArray regions addr r.array.allocateMemorySlot.2 := by
  obtain ⟨r, hfind, hr⟩ := Option.map_eq_some_iff.1 h
  obtain ⟨hindex, hregions⟩ := Prod.mk.inj hr
  exact ⟨r, List.mem_of_find?_eq_some hfind, by simpa using List.find?_some hfind, hindex.symm,
    hregions.symm⟩

theorem allocateAt_cons_of_ne {r : Region} {rs : List Region} {addr : Nat} (hne : r.addr ≠ addr) :
    allocateAt (r :: rs) addr = (allocateAt rs addr).map fun (index, rs') => (index, r :: rs') := by
  simp [allocateAt, hne, setArray_cons, Option.map_map, Function.comp_def]

theorem allocateAt_cons_self {r : Region} {rs : List Region} (hrs : ∀ r₀ ∈ rs, r₀.addr ≠ r.addr) :
    allocateAt (r :: rs) r.addr =
      some (r.array.allocateMemorySlot.1, { r with array := r.array.allocateMemorySlot.2 } :: rs) := by
  simp [allocateAt, setArray_cons, setArray_of_forall_ne hrs]

/-- A failed pop leaves the map as it was. -/
theorem allocateAt_of_neg {regions regions' : List Region} {addr : Nat} {index : Int}
    (hs : SortedList.Sorted Region.addr regions) (h : allocateAt regions addr = some (index, regions'))
    (hneg : index < 0) : regions' = regions := by
  obtain ⟨r, hr, rfl, rfl, rfl⟩ := allocateAt_eq_some h
  rw [InUseArray.allocateMemorySlot_of_neg hneg, setArray_self hs hr]

/-- The skip of `Allocate_Local_RDMA_Slot` never fires in a pool whose regions were all
registered at the pool's chunk size: the two loops agree. -/
theorem searchLocal_eq_searchRemote {c : Nat} {regions : List Region}
    (h : ∀ r ∈ regions, r.array.chunkSize = c) : searchLocal c regions = searchRemote c regions := by
  induction regions with
  | nil => rfl
  | cons r rs ih =>
    have hr := h r List.mem_cons_self
    have ih := ih fun r' hr' => h r' (List.mem_cons_of_mem r hr')
    simp only [searchLocal, searchRemote, hr, ne_eq, not_true_eq_false, if_false, ih]

/-- A search that succeeds is one pop that hands out a slot. -/
theorem searchRemote_eq_some {c p : Nat} {regions regions' : List Region}
    (hs : SortedList.Sorted Region.addr regions) (h : searchRemote c regions = some (p, regions')) :
    ∃ addr index, allocateAt regions addr = some (index, regions') ∧ 0 ≤ index ∧
      p = addr + index.toNat * c := by
  induction regions generalizing p regions' with
  | nil => exact absurd h (by simp [searchRemote])
  | cons r rs ih =>
    obtain ⟨hr, hrs⟩ := List.pairwise_cons.1 hs
    cases hslot : r.array.allocateMemorySlot with
    | mk sstIndex a =>
      simp only [searchRemote, hslot] at h
      by_cases hindex : 0 ≤ sstIndex
      · -- the first region pops a slot
        rw [if_pos hindex] at h
        obtain ⟨rfl, rfl⟩ := Prod.mk.inj (Option.some.inj h)
        refine ⟨r.addr, sstIndex, ?_, hindex, rfl⟩
        rw [allocateAt_cons_self fun r₀ hr₀ => (hr r₀ hr₀).ne', hslot]
      · -- the pop failed and left the region as it was; the slot comes from a later one
        rw [if_neg hindex] at h
        obtain ⟨⟨p₀, rs₀⟩, hrec, heq⟩ := Option.map_eq_some_iff.1 h
        obtain ⟨rfl, rfl⟩ := Prod.mk.inj heq
        obtain ⟨addr, index, hat, hindex', rfl⟩ := ih hrs hrec
        obtain ⟨r₀, hr₀, haddr, -, -⟩ := allocateAt_eq_some hat
        refine ⟨addr, index, ?_, hindex', rfl⟩
        rw [allocateAt_cons_of_ne (haddr ▸ (hr r₀ hr₀).ne), hat]
        rfl

/-- A range apart from the registered regions and from a fresh one stays fresh when that one is
registered. -/
theorem fresh_registerIfEmpty {regions regions₁ : List Region} {fresh fresh' : Nat × Nat} {c : Nat}
    (hfresh' : Fresh regions fresh'.1 fresh'.2) (hapart : Apart fresh.1 fresh.2 fresh'.1 fresh'.2)
    (h : registerIfEmpty regions fresh c = some regions₁) : Fresh regions₁ fresh'.1 fresh'.2 := by
  refine ⟨hfresh'.1, fun r hr => ?_⟩
  unfold registerIfEmpty at h
  split_ifs at h
  · obtain ⟨-, rfl⟩ := memoryRegister_eq_some.1 h
    rcases SortedList.mem_insert hr with rfl | hr
    · exact hapart.symm
    · exact hfresh'.2 r hr
  · cases h
    exact hfresh'.2 r hr

end RDMAManager

open RDMAManager

/-! The pool as the threads see it, and the steps a run is made of. -/

/-- A pool with the slots handed out and not yet deallocated. -/
structure SlotPool where
  regions : List Region
  handedOut : List Nat
deriving Repr, DecidableEq

/-- What holds of each registered region of a pool of chunk size `c`: its array was built for it,
and its free list holds the indices of the slots not handed out. -/
structure Region.Inv (c : Nat) (handedOut : List Nat) (r : Region) : Prop where
  chunk_pos : 0 < c
  length_pos : 0 < r.length
  chunkSize_eq : r.array.chunkSize = c
  elementSize_eq : r.array.elementSize = r.length / c
  free : FreeList.Valid r.array.freeList r.array.elementSize fun i => r.addr + i * c ∈ handedOut

theorem Region.Inv.slot_add_le {c i : Nat} {handedOut : List Nat} {r : Region}
    (h : r.Inv c handedOut) (hi : i < r.array.elementSize) : r.addr + i * c + c ≤ r.addr + r.length :=
  Slots.slot_add_le (h.elementSize_eq ▸ hi)

/-- The invariant of a pool: a map in address order of disjoint regions, each as above, and the
handed-out slots, each once and each a slot of a region. -/
structure SlotPool.Inv (c : Nat) (s : SlotPool) : Prop where
  sorted : SortedList.Sorted Region.addr s.regions
  disjoint : ∀ r₁ ∈ s.regions, ∀ r₂ ∈ s.regions, r₁.addr < r₂.addr → r₁.addr + r₁.length ≤ r₂.addr
  region : ∀ r ∈ s.regions, r.Inv c s.handedOut
  nodup : s.handedOut.Nodup
  slot : ∀ p ∈ s.handedOut, ∃ r ∈ s.regions, ∃ i < r.array.elementSize, p = r.addr + i * c

namespace SlotPool

/-- What a thread does to a pool in one step under its locks: register a region (under the
exclusive lock), pop a slot of the region at an address and hand it out, or push back a slot. -/
inductive Call where
  | register (addr length : Nat)
  | allocate (addr : Nat)
  | deallocate (p : Nat)
deriving Repr, DecidableEq

/-- One step of a pool of chunk size `c`.  The registration of memory that is not fresh and the
deallocation of a pointer not handed out are not steps: the threads never make them. -/
def step (c : Nat) (s : SlotPool) : Call → Option SlotPool
  | .register addr length =>
    if Fresh s.regions addr length then
      (memoryRegister s.regions addr length c).map fun regions => { s with regions := regions }
    else none
  | .allocate addr =>
    (allocateAt s.regions addr).map fun (index, regions) =>
      ⟨regions, if 0 ≤ index then (addr + index.toNat * c) :: s.handedOut else s.handedOut⟩
  | .deallocate p =>
    if p ∈ s.handedOut then some ⟨(deallocateSlot s.regions p).2, s.handedOut.erase p⟩ else none

/-- The states of a pool of chunk size `c` over every interleaving of the threads' steps. -/
def Reachable (s : SlotPool) (c : Nat) : Prop := Run.Reachable (step c) ⟨[], []⟩ s

end SlotPool

namespace SlotPool.Inv

variable {c : Nat} {s : SlotPool}

/-- Slots of two regions are apart. -/
theorem slot_apart (hi : s.Inv c) {r r' : Region} {i j : Nat} (hr : r ∈ s.regions)
    (hr' : r' ∈ s.regions) (hne : r ≠ r') (hidx : i < r.array.elementSize)
    (hj : j < r'.array.elementSize) : Apart (r.addr + i * c) c (r'.addr + j * c) c := by
  have hkey : r.addr ≠ r'.addr := fun h => hne (hi.sorted.eq_of_key_eq hr hr' h)
  have h₁ := (hi.region r hr).slot_add_le hidx
  have h₂ := (hi.region r' hr').slot_add_le hj
  rcases Nat.lt_or_gt_of_ne hkey with hlt | hlt
  · have := hi.disjoint r hr r' hr' hlt
    exact .inl (by omega)
  · have := hi.disjoint r' hr' r hr hlt
    exact .inr (by omega)

theorem slot_ne (hi : s.Inv c) {r r' : Region} {i j : Nat} (hr : r ∈ s.regions)
    (hr' : r' ∈ s.regions) (hne : r ≠ r') (hidx : i < r.array.elementSize)
    (hj : j < r'.array.elementSize) : r.addr + i * c ≠ r'.addr + j * c := by
  have hc := (hi.region r hr).chunk_pos
  rcases hi.slot_apart hr hr' hne hidx hj with h | h <;> omega

/-- Two handed-out slots do not overlap. -/
theorem slot_disjoint (hi : s.Inv c) {p q : Nat} (hp : p ∈ s.handedOut) (hq : q ∈ s.handedOut)
    (hne : p ≠ q) : Apart p c q c := by
  obtain ⟨r, hr, i, hidx, rfl⟩ := hi.slot p hp
  obtain ⟨r', hr', j, hj, rfl⟩ := hi.slot q hq
  by_cases hrr : r = r'
  · subst hrr
    exact Slots.slot_disjoint fun hij => hne (by rw [hij])
  · exact hi.slot_apart hr hr' hrr hidx hj

/-- The region before `upper_bound` of one of its slots is the region itself. -/
theorem getLast?_takeWhile (hi : s.Inv c) {r : Region} {i : Nat} (hr : r ∈ s.regions)
    (hidx : i < r.array.elementSize) :
    (s.regions.takeWhile fun r' => !decide (r.addr + i * c < r'.addr)).getLast? = some r := by
  have hri := hi.region r hr
  obtain ⟨y, hlast, hy, hpy, hry⟩ :=
    SortedList.exists_getLast?_takeWhile hi.sorted hr (show ¬r.addr + i * c < r.addr by omega)
  -- a region starting past `r` starts past the end of `r`, so past the slot
  have hyr : y.addr = r.addr := by
    rcases Nat.lt_or_eq_of_le hry with hlt | heq
    · have := hi.disjoint r hr y hy hlt
      have := hri.slot_add_le hidx
      have := hri.chunk_pos
      omega
    · exact heq.symm
  rw [hlast, hi.sorted.eq_of_key_eq hy hr hyr]

/-- Deallocating a slot of a region returns true and pushes the slot's index. -/
theorem deallocateSlot_eq (hi : s.Inv c) {r : Region} {i : Nat} (hr : r ∈ s.regions)
    (hidx : i < r.array.elementSize) :
    deallocateSlot s.regions (r.addr + i * c) =
      (true, setArray s.regions r.addr { r.array with freeList := r.array.freeList ++ [i] }) := by
  have hri := hi.region r hr
  have hoff : i * c < r.length := by
    have := hri.slot_add_le hidx
    have := hri.chunk_pos
    omega
  unfold deallocateSlot
  rw [hi.getLast?_takeWhile hr hidx]
  simp only [Nat.add_sub_cancel_left, if_pos hoff, hri.chunkSize_eq, Nat.mul_div_cancel i hri.chunk_pos]
  simp [InUseArray.deallocateMemorySlot, hidx, hri.chunkSize_eq]

/-- The step lemma behind both pop and push: giving the region `r` an array of the same size and
chunk keeps the invariant, when the new free list is valid for the new handed-out slots, the
slots of the other regions are handed out as before, and a new handed-out slot is one of `r`. -/
theorem setArray {r : Region} {a : InUseArray} {handedOut : List Nat} (hi : s.Inv c)
    (hr : r ∈ s.regions) (hsize : a.elementSize = r.array.elementSize)
    (hchunk : a.chunkSize = r.array.chunkSize)
    (hfree : FreeList.Valid a.freeList a.elementSize fun j => r.addr + j * c ∈ handedOut)
    (hnodup : handedOut.Nodup)
    (hothers : ∀ r₀ ∈ s.regions, r₀ ≠ r → ∀ j < r₀.array.elementSize,
      r₀.addr + j * c ∈ handedOut ↔ r₀.addr + j * c ∈ s.handedOut)
    (hslot : ∀ q ∈ handedOut, q ∈ s.handedOut ∨ ∃ j < r.array.elementSize, q = r.addr + j * c) :
    Inv c ⟨RDMAManager.setArray s.regions r.addr a, handedOut⟩ := by
  have hri := hi.region r hr
  refine ⟨SortedList.Sorted.of_map_eq map_addr_setArray.symm hi.sorted, ?_, ?_, hnodup, ?_⟩
  · -- addresses and lengths do not change
    intro r₁ hr₁ r₂ hr₂ hlt
    obtain ⟨q₁, hq₁, ha₁, hl₁⟩ := exists_of_mem_setArray hr₁
    obtain ⟨q₂, hq₂, ha₂, -⟩ := exists_of_mem_setArray hr₂
    have := hi.disjoint q₁ hq₁ q₂ hq₂ (by omega)
    omega
  · intro r' hr'
    rcases mem_setArray_cases hi.sorted hr hr' with rfl | ⟨hr₀, hne⟩
    · exact ⟨hri.chunk_pos, hri.length_pos, hchunk.trans hri.chunkSize_eq,
        hsize.trans hri.elementSize_eq, hfree⟩
    · have hri₀ := hi.region r' hr₀
      have hne' : r' ≠ r := fun h => hne (h ▸ rfl)
      exact ⟨hri₀.chunk_pos, hri₀.length_pos, hri₀.chunkSize_eq, hri₀.elementSize_eq,
        hri₀.free.congr fun j hj => (hothers r' hr₀ hne' j hj).symm⟩
  · intro q hq
    rcases hslot q hq with hold | ⟨j, hj, rfl⟩
    · obtain ⟨r₀, hr₀, j, hj, rfl⟩ := hi.slot q hold
      by_cases heq : r₀.addr = r.addr
      · obtain rfl := hi.sorted.eq_of_key_eq hr₀ hr heq
        exact ⟨{ r₀ with array := a }, mem_setArray_self hr₀, j, hsize ▸ hj, rfl⟩
      · exact ⟨r₀, mem_setArray_of_ne hr₀ heq, j, hj, rfl⟩
    · exact ⟨{ r with array := a }, mem_setArray_self hr, j, hsize ▸ hj, rfl⟩

/-- The members of the map after the insert of a fresh region. -/
theorem mem_memoryRegister_iff (hi : s.Inv c) {addr length : Nat} {regions : List Region}
    (hfresh : Fresh s.regions addr length) (h : memoryRegister s.regions addr length c = some regions)
    (r : Region) : r ∈ regions ↔ r = ⟨addr, length, .new (length / c) c⟩ ∨ r ∈ s.regions := by
  obtain ⟨-, rfl⟩ := memoryRegister_eq_some.1 h
  -- a fresh region starts at no registered address, so the insert adds it
  have hnew : ∀ r ∈ s.regions, r.addr ≠ addr := by
    intro r hr heq
    have := (hi.region r hr).length_pos
    have := hfresh.1
    rcases hfresh.2 r hr with h' | h' <;> omega
  exact ((SortedList.insert_perm hnew).mem_iff).trans List.mem_cons

theorem register {addr length : Nat} {regions : List Region} (hi : s.Inv c)
    (hfresh : Fresh s.regions addr length) (h : memoryRegister s.regions addr length c = some regions) :
    Inv c { s with regions := regions } := by
  have hmem := hi.mem_memoryRegister_iff hfresh h
  obtain ⟨hc, hregions⟩ := memoryRegister_eq_some.1 h
  have hsorted : SortedList.Sorted Region.addr regions := hregions ▸ SortedList.insert_sorted _ hi.sorted
  -- no handed-out slot lies in the new region
  have hout : ∀ i < length / c, addr + i * c ∉ s.handedOut := by
    intro i hi' hp
    obtain ⟨r, hr, j, hj, hpj⟩ := hi.slot _ hp
    have hin := (hi.region r hr).slot_add_le hj
    have hin' : addr + i * c + c ≤ addr + length := Slots.slot_add_le hi'
    rcases hfresh.2 r hr with h' | h' <;> omega
  refine ⟨hsorted, ?_, ?_, hi.nodup, ?_⟩
  · intro r₁ hr₁ r₂ hr₂ hlt
    rcases (hmem r₁).1 hr₁ with rfl | hr₁ <;> rcases (hmem r₂).1 hr₂ with rfl | hr₂
    · exact absurd hlt (Nat.lt_irrefl _)
    · rcases hfresh.2 r₂ hr₂ with h' | h' <;> dsimp only at hlt ⊢ <;> omega
    · rcases hfresh.2 r₁ hr₁ with h' | h' <;> dsimp only at hlt ⊢ <;> omega
    · exact hi.disjoint r₁ hr₁ r₂ hr₂ hlt
  · intro r hr
    rcases (hmem r).1 hr with rfl | hr
    · exact ⟨Nat.pos_of_ne_zero hc, hfresh.1, rfl, rfl,
        (FreeList.valid_range _).congr fun i hi' => ⟨False.elim, hout i hi'⟩⟩
    · exact hi.region r hr
  · intro p hp
    obtain ⟨r, hr, hslot⟩ := hi.slot p hp
    exact ⟨r, (hmem r).2 (.inr hr), hslot⟩

theorem allocate {addr : Nat} {index : Int} {regions : List Region} (hi : s.Inv c)
    (h : allocateAt s.regions addr = some (index, regions)) (hindex : 0 ≤ index) :
    Inv c ⟨regions, (addr + index.toNat * c) :: s.handedOut⟩ := by
  obtain ⟨r, hr, rfl, rfl, rfl⟩ := allocateAt_eq_some h
  obtain ⟨i, hlast, hslot⟩ := InUseArray.allocateMemorySlot_of_nonneg hindex
  rw [hslot]
  simp only [Int.toNat_natCast]
  have hri := hi.region r hr
  obtain ⟨hin, hout⟩ := (hri.free.2 i).1 (List.mem_of_getLast? hlast)
  refine hi.setArray hr rfl rfl ?_ (List.nodup_cons.2 ⟨hout, hi.nodup⟩) ?_ ?_
  · -- the popped index is in use now
    refine (hri.free.dropLast hlast).congr fun j _ => ?_
    rw [List.mem_cons]
    constructor
    · rintro (hu | rfl)
      · exact .inr hu
      · exact .inl rfl
    · rintro (heq | hu)
      · exact .inr (Slots.slot_inj hri.chunk_pos heq)
      · exact .inl hu
  · intro r₀ hr₀ hne j hj
    rw [List.mem_cons, or_iff_right (hi.slot_ne hr₀ hr hne hj hin)]
  · intro q hq
    rcases List.mem_cons.1 hq with rfl | hq
    · exact .inr ⟨i, hin, rfl⟩
    · exact .inl hq

theorem deallocate {p : Nat} (hi : s.Inv c) (hp : p ∈ s.handedOut) :
    Inv c ⟨(deallocateSlot s.regions p).2, s.handedOut.erase p⟩ := by
  obtain ⟨r, hr, i, hidx, rfl⟩ := hi.slot p hp
  rw [hi.deallocateSlot_eq hr hidx]
  have hri := hi.region r hr
  have herase : ∀ q, q ∈ s.handedOut.erase (r.addr + i * c) ↔ q ≠ r.addr + i * c ∧ q ∈ s.handedOut :=
    fun q => hi.nodup.mem_erase_iff
  refine hi.setArray hr rfl rfl ?_ (hi.nodup.erase _) ?_ ?_
  · -- the pushed index is free again
    refine (hri.free.push hidx hp).congr fun j _ => ?_
    rw [herase]
    constructor
    · rintro ⟨hu, hne⟩
      exact ⟨fun heq => hne (Slots.slot_inj hri.chunk_pos heq), hu⟩
    · rintro ⟨hne, hu⟩
      exact ⟨hu, fun heq => hne (by rw [heq])⟩
  · intro r₀ hr₀ hne j hj
    rw [herase]
    exact and_iff_right (hi.slot_ne hr₀ hr hne hj hidx)
  · intro q hq
    exact .inl (List.mem_of_mem_erase hq)

theorem step {s' : SlotPool} {a : Call} (hi : s.Inv c) (h : SlotPool.step c s a = some s') :
    s'.Inv c := by
  cases a with
  | register addr length =>
    simp only [SlotPool.step] at h
    split_ifs at h with hfresh
    obtain ⟨regions, hreg, rfl⟩ := Option.map_eq_some_iff.1 h
    exact hi.register hfresh hreg
  | allocate addr =>
    simp only [SlotPool.step] at h
    obtain ⟨⟨index, regions⟩, hat, rfl⟩ := Option.map_eq_some_iff.1 h
    by_cases hindex : 0 ≤ index
    · rw [if_pos hindex]
      exact hi.allocate hat hindex
    · -- a failed pop leaves the map as it was
      rw [if_neg hindex, allocateAt_of_neg hi.sorted hat (by omega)]
      exact hi
  | deallocate p =>
    simp only [SlotPool.step] at h
    split_ifs at h with hp
    cases h
    exact hi.deallocate hp

end SlotPool.Inv

namespace SlotPool

variable {c : Nat} {s : SlotPool}

theorem step_register {addr length : Nat} {regions : List Region} (hfresh : Fresh s.regions addr length)
    (h : memoryRegister s.regions addr length c = some regions) :
    step c s (.register addr length) = some ⟨regions, s.handedOut⟩ := by
  simp [step, hfresh, h]

theorem step_allocate {addr : Nat} {index : Int} {regions : List Region}
    (h : allocateAt s.regions addr = some (index, regions)) :
    step c s (.allocate addr) =
      some ⟨regions, if 0 ≤ index then (addr + index.toNat * c) :: s.handedOut else s.handedOut⟩ := by
  simp [step, h]

theorem inv_init (c : Nat) : Inv c ⟨[], []⟩ :=
  ⟨List.Pairwise.nil, fun _ h => absurd h List.not_mem_nil, fun _ h => absurd h List.not_mem_nil,
    List.nodup_nil, fun _ h => absurd h List.not_mem_nil⟩

namespace Reachable

/-- The run lemma: every reachable pool keeps the invariant. -/
theorem inv (h : s.Reachable c) : s.Inv c :=
  Run.Reachable.invariant (inv_init c) (fun _ _ _ hi hstep => hi.step hstep) h

/-! The functions of the source, run by one thread alone, are sequences of steps. -/

theorem registerIfEmpty {fresh : Nat × Nat} {regions : List Region} (hs : s.Reachable c)
    (hfresh : Fresh s.regions fresh.1 fresh.2)
    (h : RDMAManager.registerIfEmpty s.regions fresh c = some regions) :
    SlotPool.Reachable ⟨regions, s.handedOut⟩ c := by
  unfold RDMAManager.registerIfEmpty at h
  split_ifs at h
  · exact Run.Reachable.tail hs (step_register hfresh h)
  · cases h
    exact hs

theorem searchRemote {p : Nat} {regions : List Region} (hs : s.Reachable c)
    (h : RDMAManager.searchRemote c s.regions = some (p, regions)) :
    SlotPool.Reachable ⟨regions, p :: s.handedOut⟩ c := by
  obtain ⟨addr, index, hat, hindex, rfl⟩ := searchRemote_eq_some hs.inv.sorted h
  have := Run.Reachable.tail hs (step_allocate hat)
  rwa [if_pos hindex] at this

theorem registerAndAllocate {fresh : Nat × Nat} {index : Int} {regions : List Region}
    (hs : s.Reachable c) (hfresh : Fresh s.regions fresh.1 fresh.2)
    (h : RDMAManager.registerAndAllocate s.regions fresh c = some (index, regions)) :
    SlotPool.Reachable
      ⟨regions, if 0 ≤ index then (fresh.1 + index.toNat * c) :: s.handedOut else s.handedOut⟩ c := by
  obtain ⟨regions₁, h₁, hat⟩ := Option.bind_eq_some_iff.1 h
  have hs₁ : SlotPool.Reachable ⟨regions₁, s.handedOut⟩ c := Run.Reachable.tail hs (step_register hfresh h₁)
  exact Run.Reachable.tail hs₁ (step_allocate hat)

/-- The region registered last has a slot when it is one chunk long at least. -/
theorem registerAndAllocate_nonneg {fresh : Nat × Nat} {index : Int} {regions : List Region}
    (hs : s.Reachable c) (hfresh : Fresh s.regions fresh.1 fresh.2) (hlen : c ≤ fresh.2)
    (h : RDMAManager.registerAndAllocate s.regions fresh c = some (index, regions)) : 0 ≤ index := by
  obtain ⟨regions₁, h₁, hat⟩ := Option.bind_eq_some_iff.1 h
  have hs₁ : SlotPool.Reachable ⟨regions₁, s.handedOut⟩ c := Run.Reachable.tail hs (step_register hfresh h₁)
  obtain ⟨r, hr, haddr, rfl, -⟩ := allocateAt_eq_some hat
  have hc : 0 < c := (hs₁.inv.region r hr).chunk_pos
  -- the region found under the new address is the new region, with a free list of one index
  -- at least
  have hnew := (hs.inv.mem_memoryRegister_iff hfresh h₁ _).2 (.inl rfl)
  obtain rfl := hs₁.inv.sorted.eq_of_key_eq hr hnew haddr
  have hsize : 0 < fresh.2 / c := Nat.div_pos hlen hc
  cases hlast : (InUseArray.new (fresh.2 / c) c).freeList.getLast? with
  | none =>
    simp [InUseArray.new, List.getLast?_eq_none_iff] at hlast
    omega
  | some i =>
    rw [InUseArray.allocateMemorySlot_of_getLast? hlast]
    exact Int.natCast_nonneg i

/-- `Allocate_Local_RDMA_Slot` run alone hands out its slot by steps of the pool, when the regions
it registers are fresh. -/
theorem allocateLocalRDMASlot {fresh fresh' : Nat × Nat} {slot : Option Nat} {regions : List Region}
    (hs : s.Reachable c) (hfresh : Fresh s.regions fresh.1 fresh.2)
    (hfresh' : Fresh s.regions fresh'.1 fresh'.2) (hapart : Apart fresh.1 fresh.2 fresh'.1 fresh'.2)
    (h : RDMAManager.allocateLocalRDMASlot c fresh fresh' s.regions = some (slot, regions)) :
    SlotPool.Reachable ⟨regions, slot.toList ++ s.handedOut⟩ c := by
  obtain ⟨regions₁, h₁, h⟩ := Option.bind_eq_some_iff.1 h
  have hs₁ := hs.registerIfEmpty hfresh h₁
  have hfresh₁ := fresh_registerIfEmpty hfresh' hapart h₁
  rw [searchLocal_eq_searchRemote fun r hr => (hs₁.inv.region r hr).chunkSize_eq] at h
  cases hsearch : RDMAManager.searchRemote c regions₁ with
  | some res =>
    obtain ⟨p, regions₂⟩ := res
    rw [hsearch] at h
    obtain ⟨rfl, rfl⟩ := Prod.mk.inj (Option.some.inj h)
    exact hs₁.searchRemote hsearch
  | none =>
    rw [hsearch] at h
    obtain ⟨⟨index, regions₂⟩, h₂, h⟩ := Option.bind_eq_some_iff.1 h
    obtain ⟨rfl, rfl⟩ := Prod.mk.inj (Option.some.inj h)
    have hrun := hs₁.registerAndAllocate hfresh₁ h₂
    by_cases hindex : 0 ≤ index
    · simpa [hindex] using hrun
    · simpa [hindex] using hrun

/-- `Allocate_Remote_RDMA_Slot` run alone hands out a slot by steps of the pool, when the regions
it registers are fresh and the last one is one chunk long at least. -/
theorem allocateRemoteRDMASlot {fresh fresh' : Nat × Nat} {p : Int} {regions : List Region}
    (hs : s.Reachable c) (hfresh : Fresh s.regions fresh.1 fresh.2)
    (hfresh' : Fresh s.regions fresh'.1 fresh'.2) (hapart : Apart fresh.1 fresh.2 fresh'.1 fresh'.2)
    (hlen : c ≤ fresh'.2)
    (h : RDMAManager.allocateRemoteRDMASlot c fresh fresh' s.regions = some (p, regions)) :
    0 ≤ p ∧ SlotPool.Reachable ⟨regions, p.toNat :: s.handedOut⟩ c := by
  obtain ⟨regions₁, h₁, h⟩ := Option.bind_eq_some_iff.1 h
  have hs₁ := hs.registerIfEmpty hfresh h₁
  have hfresh₁ := fresh_registerIfEmpty hfresh' hapart h₁
  cases hsearch : RDMAManager.searchRemote c regions₁ with
  | some res =>
    obtain ⟨q, regions₂⟩ := res
    rw [hsearch] at h
    obtain ⟨rfl, rfl⟩ := Prod.mk.inj (Option.some.inj h)
    exact ⟨Int.natCast_nonneg q, by simpa using hs₁.searchRemote hsearch⟩
  | none =>
    rw [hsearch] at h
    obtain ⟨⟨index, regions₂⟩, h₂, h⟩ := Option.bind_eq_some_iff.1 h
    obtain ⟨rfl, rfl⟩ := Prod.mk.inj (Option.some.inj h)
    -- the index popped off the new region is not -1, so the address is its slot
    have hindex := hs₁.registerAndAllocate_nonneg hfresh₁ hlen h₂
    have hrun := hs₁.registerAndAllocate hfresh₁ h₂
    rw [if_pos hindex] at hrun
    obtain ⟨n, rfl⟩ := Int.eq_ofNat_of_zero_le hindex
    rw [← Int.natCast_mul, ← Int.natCast_add, Int.toNat_natCast]
    exact ⟨Int.natCast_nonneg _, by simpa using hrun⟩

end Reachable

end SlotPool

theorem rdmaSlots_reachable_safe {c : Nat} {s : SlotPool} (h : s.Reachable c) :
    (s.handedOut.Nodup ∧
      (∀ p ∈ s.handedOut, ∃ r ∈ s.regions, r.addr ≤ p ∧ p + c ≤ r.addr + r.length) ∧
      ∀ p ∈ s.handedOut, ∀ q ∈ s.handedOut, p ≠ q → Apart p c q c) ∧
    (∀ p ∈ s.handedOut, ∃ r ∈ s.regions, ∃ i, p = r.addr + i * c ∧
      deallocateLocalRDMASlot s.regions p =
        (true, setArray s.regions r.addr { r.array with freeList := r.array.freeList ++ [i] }) ∧
      deallocateRemoteRDMASlot s.regions p =
        (true, setArray s.regions r.addr { r.array with freeList := r.array.freeList ++ [i] })) ∧
    ∀ r ∈ s.regions, FreeList.Valid r.array.freeList r.array.elementSize
      fun i => r.addr + i * c ∈ s.handedOut := by
  have hi := h.inv
  refine ⟨⟨hi.nodup, fun p hp => ?_, fun p hp q hq hne => hi.slot_disjoint hp hq hne⟩,
    fun p hp => ?_, fun r hr => (hi.region r hr).free⟩
  · obtain ⟨r, hr, i, hidx, rfl⟩ := hi.slot p hp
    exact ⟨r, hr, Nat.le_add_right _ _, (hi.region r hr).slot_add_le hidx⟩
  · obtain ⟨r, hr, i, hidx, rfl⟩ := hi.slot p hp
    exact ⟨r, hr, i, rfl, hi.deallocateSlot_eq hr hidx, hi.deallocateSlot_eq hr hidx⟩

/-- A pool of chunk size 2 after one region of two slots was registered and the slot on top of
its free list handed out. -/
theorem rdmaSlots_reachable_safe_one_slot :
    (([2] : List Nat).Nodup ∧
      (∀ p ∈ [2], ∃ r ∈ [(⟨0, 4, ⟨2, 2, [0]⟩⟩ : Region)], r.addr ≤ p ∧ p + 2 ≤ r.addr + r.length) ∧
      ∀ p ∈ [2], ∀ q ∈ [2], p ≠ q → Apart p 2 q 2) ∧
    (∀ p ∈ [2], ∃ r ∈ [(⟨0, 4, ⟨2, 2, [0]⟩⟩ : Region)], ∃ i, p = r.addr + i * 2 ∧
      deallocateLocalRDMASlot [⟨0, 4, ⟨2, 2, [0]⟩⟩] p =
        (true, setArray [⟨0, 4, ⟨2, 2, [0]⟩⟩] r.addr
          { r.array with freeList := r.array.freeList ++ [i] }) ∧
      deallocateRemoteRDMASlot [⟨0, 4, ⟨2, 2, [0]⟩⟩] p =
        (true, setArray [⟨0, 4, ⟨2, 2, [0]⟩⟩] r.addr
          { r.array with freeList := r.array.freeList ++ [i] })) ∧
    ∀ r ∈ [(⟨0, 4, ⟨2, 2, [0]⟩⟩ : Region)], FreeList.Valid r.array.freeList r.array.elementSize
      fun i => r.addr + i * 2 ∈ [2] :=
  rdmaSlots_reachable_safe
    (show SlotPool.Reachable ⟨[⟨0, 4, ⟨2, 2, [0]⟩⟩], [2]⟩ 2 from ⟨[.register 0 4, .allocate 0], by decide⟩)

end DLSM
