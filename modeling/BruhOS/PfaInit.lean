import BruhOS.BuddyMachine

/-!
# How `pfa_init` derives the zones of its allocators

The descriptors of the memory map are scanned, one of them gives up the pages
that hold the allocators, and the free ones are written to two arrays on the
stack: `freeZones` at and above 4 MiB, `lowMemZones` below. Zones of the first
array are then split at the 256 MiB boundaries, appending to the array that is
being traversed, and handed to the allocator their address selects.

The arrays have fixed capacities that the code does not check, and its loop
counters have 16 bits. A write past the end of an array, an entry that is
passed on unwritten and a loop that cannot end are outcomes of the model.
-/

set_option autoImplicit false

namespace BruhOS.PfaInit
open BruhOS.BuddyMachine

structure Descriptor where
  memtype : ℕ
  physAddr : ℕ
  pages : ℕ
  deriving DecidableEq, Repr

def bootServicesCode : ℕ := 3
def bootServicesData : ℕ := 4
def conventional : ℕ := 7

def Descriptor.regionFree (d : Descriptor) : Bool :=
  d.memtype == conventional || d.memtype == bootServicesCode || d.memtype == bootServicesData

inductive Fault where
  | diverges
  | noMetadata
  | overflow
  | indeterminate
  deriving DecidableEq, Repr

def lowLimit : ℕ := 0x400000

/-- `ALLOC_MANAGED_MEM`. -/
def managedMem : ℕ := 2^28

def Descriptor.low (d : Descriptor) : Bool := decide (d.physAddr < lowLimit)

def freeRegionCount (map : List Descriptor) : ℕ := map.countP Descriptor.regionFree

def under4MiB (map : List Descriptor) : ℕ := map.countP (fun d => d.regionFree && d.low)

def memoryMapPageCount (map : List Descriptor) : ℕ := (map.map Descriptor.pages).sum%2^64

@[irreducible] def totalAllocators (map : List Descriptor) : ℕ :=
  memoryMapPageCount map*2^12%2^64/managedMem%2^32

/-- The sizes of the structures as `pmm.c` sees them. -/
def sizeofBuddyAllocator : ℕ := 1052672
def sizeofBuddyAllocatorLowMem : ℕ := 20480
def sizeofManagedZone : ℕ := 32

@[irreducible] def totalAllocatorMem (map : List Descriptor) : ℕ :=
  let bytes := sizeofBuddyAllocatorLowMem+
    totalAllocators map*(sizeofBuddyAllocator+sizeofManagedZone)
  (if bytes%2^12 ≠ 0 then 1 else 0)+bytes/2^12

/-- The search keeps the last free region that is large enough. -/
def biggestFree (mem : ℕ) : List Descriptor → ℕ → Option ℕ → Option ℕ
  | [], _, best => best
  | d::map, i, best =>
    biggestFree mem map (i+1) (if d.regionFree && decide (mem < d.pages) then some i else best)

/-- The carve-out moves the start of the region; its length stays. -/
@[irreducible] def carve (mem : ℕ) (d : Descriptor) : Descriptor :=
  { d with physAddr := (d.physAddr+mem*2^12)%2^64 }

def carved (map : List Descriptor) (i : ℕ) : List Descriptor :=
  map.modify i (carve (totalAllocatorMem map))

structure ZoneArray where
  zone : ℕ → MemZone
  count : ℕ

def ZoneArray.push (cap : ℕ) (a : ZoneArray) (z : MemZone) : Except Fault ZoneArray :=
  if a.count < cap then .ok ⟨Function.update a.zone a.count z, (a.count+1)%2^16⟩
  else .error .overflow

def ZoneArray.list (a : ZoneArray) : List MemZone := (List.range a.count).map a.zone

def zoneEnd (z : MemZone) : ℕ := (z.mem+z.pages*2^12)%2^64

def Descriptor.zone (d : Descriptor) : MemZone := ⟨d.physAddr, d.pages⟩

def fillFreeZones (cap : ℕ) : List Descriptor → ZoneArray → Except Fault ZoneArray
  | [], a => .ok a
  | d::map, a =>
    if d.regionFree && !d.low then (a.push cap d.zone).bind (fillFreeZones cap map)
    else fillFreeZones cap map a

/-- The scan for `lowMemZones` ends at the first region that is not low. -/
def fillLowZones (cap : ℕ) : List Descriptor → List MemZone → Except Fault (List MemZone)
  | [], zones => .ok zones
  | d::map, zones =>
    if d.low then
      if d.regionFree then
        if zones.length < cap then fillLowZones cap map (zones++[d.zone])
        else .error .overflow
      else fillLowZones cap map zones
    else .ok zones

/-- A low zone that crosses 4 MiB leaves its remainder to `freeZones`. -/
def splitLowZones (cap : ℕ) : List MemZone → ZoneArray → Except Fault (List MemZone × ZoneArray)
  | [], a => .ok ([], a)
  | z::zones, a =>
    if lowLimit < zoneEnd z then
      let pages := (lowLimit-z.mem)/2^12
      (a.push cap ⟨lowLimit, z.pages-pages⟩).bind fun a =>
        (splitLowZones cap zones a).map fun r => (⟨z.mem, pages⟩::r.1, r.2)
    else (splitLowZones cap zones a).map fun r => (z::r.1, r.2)

def memBoundary (j : ℕ) : ℕ := managedMem*j

def splitAtBoundary (cap i : ℕ) (a : ZoneArray) (j : ℕ) : Except Fault ZoneArray :=
  let z := a.zone i
  if z.mem < memBoundary j ∧ memBoundary j < zoneEnd z then
    let pages := (memBoundary j-z.mem)/2^12
    ZoneArray.push cap ⟨Function.update a.zone i ⟨z.mem, pages⟩, a.count⟩
      ⟨memBoundary j, z.pages-pages⟩
  else .ok a

def splitPass (cap i : ℕ) : List ℕ → ZoneArray → Except Fault ZoneArray
  | [], a => .ok a
  | j::js, a => (splitAtBoundary cap i a j).bind (splitPass cap i js)

/-- The 16-bit boundary counter starts over when it cannot reach its bound. -/
def splitZone (cap n i : ℕ) (a : ZoneArray) : Except Fault ZoneArray :=
  (splitPass cap i (List.range (min (n+1) (2^16))) a).bind fun a =>
    if 2^16 ≤ n+1 then .error .diverges else .ok a

/-- The zone counter never exceeds 16 bits, so `fuel` passes are enough. -/
def splitZones (cap n : ℕ) : ℕ → ℕ → ZoneArray → Except Fault ZoneArray
  | 0, _, a => .ok a
  | fuel+1, i, a =>
    if i < a.count then (splitZone cap n i a).bind (splitZones cap n fuel (i+1))
    else .ok a

def mapZoneToAllocator (z : MemZone) : ℕ := (z.mem-z.mem%managedMem)/managedMem%2^16

structure Handover where
  totalAllocators : ℕ
  freeZones : List MemZone
  lowMemZones : List MemZone
  deriving DecidableEq, Repr

/-- The zones passed to `buddy_alloc_init_free_regions` for allocator `i`. -/
def Handover.zoneStack (h : Handover) (i : ℕ) : List MemZone :=
  if i < h.totalAllocators then h.freeZones.filter (fun z => mapZoneToAllocator z == i) else []

def deriveZones (map : List Descriptor) (i : ℕ) : Except Fault Handover :=
  let cap := freeRegionCount map*2
  let n := totalAllocators map
  (fillFreeZones cap (carved map i) ⟨fun _ => ⟨0, 0⟩, 0⟩).bind fun a =>
  (fillLowZones (under4MiB map) (carved map i) []).bind fun low =>
  (splitLowZones cap low a).bind fun r =>
  (splitZones cap n (2^16) 0 r.2).bind fun a =>
    if 2^16 ≤ n then .error .diverges
    else if r.1.length < under4MiB map then .error .indeterminate
    else .ok ⟨n, a.list, r.1⟩

/-- The scan of the descriptors prints them two by two with a 16-bit counter. -/
def pfaInitZones (map : List Descriptor) : Except Fault Handover :=
  if 2^16 ≤ map.length+1 then .error .diverges
  else match biggestFree (totalAllocatorMem map) map 0 none with
    | none => .error .noMetadata
    | some i => deriveZones map i

end BruhOS.PfaInit
