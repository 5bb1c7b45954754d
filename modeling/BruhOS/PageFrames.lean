import BruhOS.BuddyRegions
import BruhOS.PfaInit
import BruhOS.ZoneLocks

/-!
# The page frame allocator

`pfa_alloc_pages` and `pfa_free` over one allocator for the memory below 4 MiB
and one for each window of 256 MiB, run by one thread. A thread that waits for
a zone changes nothing, so a wait that does not end at once does not end; the
model counts the passes of a wait down from `fuel` and has no result when they
are used up.

A free that an allocator rejects returns between the exchange of the flag and
its clear. This is the only path that leaves a flag set.
-/

set_option autoImplicit false

namespace BruhOS.PageFrames
open BruhOS.StdMath BruhOS.BuddyMachine BruhOS.PfaInit BruhOS.ZoneLocks

/-- `managed_zone` and `lowmem_zone`; the counters of the latter have 16 bits. -/
structure ManagedZone where
  manager : BuddyAllocator
  total : ℕ
  maxMemReq : ℕ
  isusing : Bool

structure PageFrameAllocator where
  lowZoneAllocator : ManagedZone
  zoneAllocators : ℕ → ManagedZone
  zoneCount : ℕ
  free : ℕ
  reserved : ℕ

def ManagedZone.setManager (z : ManagedZone) (m : BuddyAllocator) : ManagedZone :=
  { z with manager := m }

def ManagedZone.setCounters (z : ManagedZone) (total maxMemReq : ℕ) : ManagedZone :=
  { z with total := total, maxMemReq := maxMemReq }

def ManagedZone.setUsing (z : ManagedZone) (v : Bool) : ManagedZone := { z with isusing := v }

section Fields

variable (z : ManagedZone) (m : BuddyAllocator) (n k : ℕ) (v : Bool)

@[simp] theorem setManager_manager : (z.setManager m).manager = m := rfl
@[simp] theorem setManager_total : (z.setManager m).total = z.total := rfl
@[simp] theorem setManager_maxMemReq : (z.setManager m).maxMemReq = z.maxMemReq := rfl
@[simp] theorem setManager_isusing : (z.setManager m).isusing = z.isusing := rfl
@[simp] theorem setCounters_manager : (z.setCounters n k).manager = z.manager := rfl
@[simp] theorem setCounters_total : (z.setCounters n k).total = n := rfl
@[simp] theorem setCounters_maxMemReq : (z.setCounters n k).maxMemReq = k := rfl
@[simp] theorem setCounters_isusing : (z.setCounters n k).isusing = z.isusing := rfl
@[simp] theorem setUsing_manager : (z.setUsing v).manager = z.manager := rfl
@[simp] theorem setUsing_total : (z.setUsing v).total = z.total := rfl
@[simp] theorem setUsing_maxMemReq : (z.setUsing v).maxMemReq = z.maxMemReq := rfl
@[simp] theorem setUsing_isusing : (z.setUsing v).isusing = v := rfl
@[simp] theorem setUsing_setUsing (w : Bool) : (z.setUsing v).setUsing w = z.setUsing w := rfl
@[simp] theorem setManager_setUsing :
    (z.setUsing v).setManager m = (z.setManager m).setUsing v := rfl
@[simp] theorem setCounters_setUsing :
    (z.setUsing v).setCounters n k = (z.setCounters n k).setUsing v := rfl
@[simp] theorem setCounters_setCounters (n' k' : ℕ) :
    (z.setCounters n k).setCounters n' k' = z.setCounters n' k' := rfl

end Fields

def setLow (p : PageFrameAllocator) (z : ManagedZone) : PageFrameAllocator :=
  { p with lowZoneAllocator := z }

def setZone (p : PageFrameAllocator) (i : ℕ) (z : ManagedZone) : PageFrameAllocator :=
  { p with zoneAllocators := Function.update p.zoneAllocators i z }

def sub64 (a b : ℕ) : ℕ := (a+(2^64-b))%2^64

/-- Memory moves from `free` to `reserved`. -/
def reserveBytes (p : PageFrameAllocator) (bytes : ℕ) : PageFrameAllocator :=
  { p with free := sub64 p.free bytes, reserved := (p.reserved+bytes)%2^64 }

def releaseBytes (p : PageFrameAllocator) (bytes : ℕ) : PageFrameAllocator :=
  { p with free := (p.free+bytes)%2^64, reserved := sub64 p.reserved bytes }

section Zones

variable (p : PageFrameAllocator) (i n : ℕ) (z w : ManagedZone)

@[simp] theorem setLow_low : (setLow p z).lowZoneAllocator = z := rfl
@[simp] theorem setLow_zone : (setLow p z).zoneAllocators = p.zoneAllocators := rfl
@[simp] theorem setLow_count : (setLow p z).zoneCount = p.zoneCount := rfl
@[simp] theorem setLow_free : (setLow p z).free = p.free := rfl
@[simp] theorem setLow_reserved : (setLow p z).reserved = p.reserved := rfl
@[simp] theorem setLow_setLow : setLow (setLow p z) w = setLow p w := rfl
@[simp] theorem setZone_low : (setZone p i z).lowZoneAllocator = p.lowZoneAllocator := rfl
@[simp] theorem setZone_zone :
    (setZone p i z).zoneAllocators = Function.update p.zoneAllocators i z := rfl
@[simp] theorem setZone_count : (setZone p i z).zoneCount = p.zoneCount := rfl
@[simp] theorem setZone_free : (setZone p i z).free = p.free := rfl
@[simp] theorem setZone_reserved : (setZone p i z).reserved = p.reserved := rfl
@[simp] theorem setZone_setZone : setZone (setZone p i z) i w = setZone p i w := by
  simp [setZone]
@[simp] theorem reserveBytes_setZone :
    reserveBytes (setZone p i z) n = setZone (reserveBytes p n) i z := rfl
@[simp] theorem reserveBytes_low : (reserveBytes p n).lowZoneAllocator = p.lowZoneAllocator := rfl
@[simp] theorem reserveBytes_zone : (reserveBytes p n).zoneAllocators = p.zoneAllocators := rfl
@[simp] theorem reserveBytes_count : (reserveBytes p n).zoneCount = p.zoneCount := rfl
@[simp] theorem releaseBytes_low : (releaseBytes p n).lowZoneAllocator = p.lowZoneAllocator := rfl
@[simp] theorem releaseBytes_zone : (releaseBytes p n).zoneAllocators = p.zoneAllocators := rfl
@[simp] theorem releaseBytes_count : (releaseBytes p n).zoneCount = p.zoneCount := rfl

end Zones

/-- A loop with an empty body. -/
def waitWhile (cond : PageFrameAllocator → Bool) :
    ℕ → PageFrameAllocator → Option PageFrameAllocator
  | 0, _ => none
  | fuel+1, p => if cond p then waitWhile cond fuel p else some p

section Init

variable (log2ui : ℕ → ℕ) (h : Handover)

def initZone (prior : BuddyAllocator) (i : ℕ) : ManagedZone :=
  let manager := buddyAllocInitFreeRegions (buddy log2ui) prior (managedMem*i) (h.zoneStack i)
  { manager := manager
    total := freeMemorySize (buddy log2ui) manager/2^12
    maxMemReq := maxBlockReq (buddy log2ui) manager/2^12
    isusing := false }

def initLow (prior : BuddyAllocator) : ManagedZone :=
  let manager := buddyAllocInitFreeRegions (buddyLow log2ui) prior 0 h.lowMemZones
  { manager := manager
    total := freeMemorySize (buddyLow log2ui) manager/2^12%2^16
    maxMemReq := maxBlockReq (buddyLow log2ui) manager/2^12%2^16
    isusing := false }

/-- The loop that adds the normal zones to the free bytes. -/
def sumZones (zone : ℕ → ManagedZone) (n : ℕ) : ℕ :=
  (List.range n).foldl (fun free i => (free+(zone i).total*2^12%2^64)%2^64) 0

/-- The end of `pfa_init`; `prior` is what the memory of the allocators held before. The pages
of the low zone are added to the free bytes. -/
def pfaInit (prior : ℕ → BuddyAllocator) (priorLow : BuddyAllocator) : PageFrameAllocator :=
  let zone := fun i => initZone log2ui h (prior i) i
  let low := initLow log2ui h priorLow
  let free := (sumZones zone h.totalAllocators+low.total)%2^64
  { lowZoneAllocator := low
    zoneAllocators := zone
    zoneCount := h.totalAllocators%2^16
    free := free
    reserved := sub64 (managedMem*h.totalAllocators%2^64) free }

end Init

section Alloc

variable (log2ui : ℕ → ℕ)

def allocLow (count : ℕ) (p : PageFrameAllocator) : ℕ × PageFrameAllocator :=
  let p := setLow p (p.lowZoneAllocator.setUsing true)
  let r := allocPages (buddyLow log2ui) p.lowZoneAllocator.manager count
  let p := setLow p (p.lowZoneAllocator.setManager r.2)
  (r.1, setLow p (p.lowZoneAllocator.setUsing false))

/-- The body of the loop over the normal zones after its wait. -/
def allocZone (i count : ℕ) (p : PageFrameAllocator) : ℕ × PageFrameAllocator :=
  let p := setZone p i ((p.zoneAllocators i).setUsing true)
  let r := allocPages (buddy log2ui) (p.zoneAllocators i).manager count
  let p := setZone p i ((p.zoneAllocators i).setManager r.2)
  let p := setZone p i ((p.zoneAllocators i).setCounters (p.zoneAllocators i).total
    (maxBlockReq (buddy log2ui) (p.zoneAllocators i).manager/2^12))
  let satisfied := if r.1 = 0 then 0 else 1
  let p := reserveBytes p (satisfied*count*2^12)
  let p := setZone p i ((p.zoneAllocators i).setCounters
    (sub64 (p.zoneAllocators i).total (satisfied*count)) (p.zoneAllocators i).maxMemReq)
  (r.1, setZone p i ((p.zoneAllocators i).setUsing false))

/-- The remaining `n` passes of the loop over the normal zones. -/
def zoneLoop (fuel count : ℕ) : ℕ → ℕ → ℕ → PageFrameAllocator → Option (ℕ × PageFrameAllocator)
  | 0, _, out, p => some (out, p)
  | n+1, i, _, p =>
    (waitWhile (fun p => (p.zoneAllocators i).isusing ||
      decide ((p.zoneAllocators i).maxMemReq < count)) fuel p).bind fun p =>
      let r := allocZone log2ui i count p
      if r.1 = 0 then zoneLoop fuel count n (i+1) r.1 r.2 else some r

def pfaAllocPages (fuel : ℕ) (p : PageFrameAllocator) (count type : ℕ) :
    Option (ℕ × PageFrameAllocator) :=
  if pageCount count*2^12 > managedMem ∨ pageCount count = 0 then some (0, p)
  else if memLocation type = DMA_LOW then
    (waitWhile (fun p => p.lowZoneAllocator.isusing) fuel p).map
      (allocLow log2ui (pageCount count))
  else zoneLoop log2ui fuel (pageCount count) p.zoneCount 0 0 p

end Alloc

section Free

variable (log2ui : ℕ → ℕ)

def kernelBadData : ℕ := 5

/-- The checks at the entry of `pfa_free`, on the rounded size. -/
def BadFree (ptr blockSize : ℕ) : Prop :=
  ptr = 0 ∨ blockSize > 2^16 ∨ (ptr < lowLimit ∧ ptr+blockSize*2^12 > lowLimit) ∨ blockSize = 0

instance (ptr blockSize : ℕ) : Decidable (BadFree ptr blockSize) :=
  inferInstanceAs (Decidable (_ ∨ _))

/-- The level of a block; the 32-bit variable is passed on in 8 bits. -/
def freeLevel (depth blockSize : ℕ) : ℕ := (2^32+depth-log2ui blockSize%2^32)%2^32%2^8

def freeLow (ptr blockSize : ℕ) (p : PageFrameAllocator) : ℕ × PageFrameAllocator :=
  let p := setLow p (p.lowZoneAllocator.setUsing true)
  let r := freePages (buddyLow log2ui) p.lowZoneAllocator.manager ptr
    (freeLevel log2ui 10 blockSize)
  let p := setLow p (p.lowZoneAllocator.setManager r.2)
  if r.1 ≠ kernelSuccess then (kernelInvalidInput, p)
  else
    -- The largest block is stored in bytes here, and in 16 bits.
    let p := setLow p (p.lowZoneAllocator.setCounters ((p.lowZoneAllocator.total+blockSize)%2^16)
      (maxBlockReq (buddyLow log2ui) p.lowZoneAllocator.manager%2^16))
    let p := setLow p (p.lowZoneAllocator.setUsing false)
    (kernelSuccess, releaseBytes p (blockSize*2^12))

def freeZone (i ptr blockSize : ℕ) (p : PageFrameAllocator) : ℕ × PageFrameAllocator :=
  let p := setZone p i ((p.zoneAllocators i).setUsing true)
  let r := freePages (buddy log2ui) (p.zoneAllocators i).manager ptr
    (freeLevel log2ui 16 blockSize)
  let p := setZone p i ((p.zoneAllocators i).setManager r.2)
  if r.1 ≠ kernelSuccess then (kernelInvalidInput, p)
  else
    let p := setZone p i ((p.zoneAllocators i).setCounters
      (((p.zoneAllocators i).total+blockSize)%2^64)
      (maxBlockReq (buddy log2ui) (p.zoneAllocators i).manager/2^12))
    let p := setZone p i ((p.zoneAllocators i).setUsing false)
    (kernelSuccess, releaseBytes p (blockSize*2^12))

def pfaFree (fuel : ℕ) (p : PageFrameAllocator) (ptr blockSize : ℕ) :
    Option (ℕ × PageFrameAllocator) :=
  if BadFree ptr (pageCount blockSize) then some (kernelBadData, p)
  else if ptr < lowLimit then
    (waitWhile (fun p => p.lowZoneAllocator.isusing) fuel p).map
      (freeLow log2ui ptr (pageCount blockSize))
  else
    (waitWhile (fun p => (p.zoneAllocators (allocIdx ptr)).isusing) fuel p).map
      (freeZone log2ui (allocIdx ptr) ptr (pageCount blockSize))

end Free

section Steps

variable {log2ui : ℕ → ℕ} {p : PageFrameAllocator}

theorem waitWhile_clear {cond : PageFrameAllocator → Bool} (h : cond p = false) (fuel : ℕ) :
    waitWhile cond (fuel+1) p = some p := by
  rw [waitWhile, h]
  rfl

theorem waitWhile_stuck {cond : PageFrameAllocator → Bool} (h : cond p = true) (fuel : ℕ) :
    waitWhile cond fuel p = none := by
  induction fuel with
  | zero => rfl
  | succ fuel ih => rw [waitWhile, if_pos h, ih]

theorem waitWhile_some {cond : PageFrameAllocator → Bool} {fuel : ℕ} {q : PageFrameAllocator}
    (h : waitWhile cond fuel p = some q) : q = p ∧ cond p = false := by
  cases hc : cond p with
  | true =>
    rw [waitWhile_stuck hc] at h
    cases h
  | false =>
    cases fuel with
    | zero => cases h
    | succ fuel =>
      rw [waitWhile_clear hc] at h
      exact ⟨(Option.some.inj h).symm, rfl⟩

theorem allocLow_eq (count : ℕ) : allocLow log2ui count p =
    let r := allocPages (buddyLow log2ui) p.lowZoneAllocator.manager count
    (r.1, setLow p ((p.lowZoneAllocator.setManager r.2).setUsing false)) := by
  unfold allocLow
  simp -implicitDefEqProofs only [setLow_low, setLow_setLow, setUsing_manager, setManager_setUsing,
    setUsing_setUsing]

/-- What a zone serves a request with is reserved and leaves its total. -/
theorem allocZone_eq (i count : ℕ) : allocZone log2ui i count p =
    let r := allocPages (buddy log2ui) (p.zoneAllocators i).manager count
    let pages := if r.1 = 0 then 0 else count
    (r.1, setZone (reserveBytes p (pages*2^12)) i ((((p.zoneAllocators i).setManager r.2).setCounters
      (sub64 (p.zoneAllocators i).total pages)
      (maxBlockReq (buddy log2ui) r.2/2^12)).setUsing false)) := by
  unfold allocZone
  simp -implicitDefEqProofs only [setZone_zone, setZone_setZone, reserveBytes_setZone,
    Function.update_self, setUsing_manager, setUsing_total, setManager_setUsing,
    setManager_manager, setManager_total, setCounters_setUsing, setCounters_total,
    setCounters_maxMemReq, setUsing_maxMemReq, setCounters_setCounters, setUsing_setUsing, ite_mul,
    Nat.zero_mul, Nat.one_mul]

/-- The check of an allocator on what it is given to free. -/
def Rejects (B : Build) (s : BuddyAllocator) (ptr lvl : ℕ) : Prop :=
  ptr = 0 ∨ ptr < s.start ∨ ptr%2^12 ≠ 0 ∨ lvl > B.depth

instance (B : Build) (s : BuddyAllocator) (ptr lvl : ℕ) : Decidable (Rejects B s ptr lvl) :=
  inferInstanceAs (Decidable (_ ∨ _))

theorem freePages_rejects {B : Build} {s : BuddyAllocator} {ptr lvl : ℕ}
    (h : Rejects B s ptr lvl) : freePages B s ptr lvl = (kernelInvalidInput, s) := by
  unfold Rejects at h
  rw [freePages, if_pos h]

theorem freePages_accepts {B : Build} {s : BuddyAllocator} {ptr lvl : ℕ}
    (h : ¬ Rejects B s ptr lvl) : (freePages B s ptr lvl).1 = kernelSuccess := by
  unfold Rejects at h
  rw [freePages, if_neg h]

theorem freeLow_rejects {ptr blockSize : ℕ} (h : Rejects (buddyLow log2ui)
    p.lowZoneAllocator.manager ptr (freeLevel log2ui 10 blockSize)) :
    freeLow log2ui ptr blockSize p =
      (kernelInvalidInput, setLow p (p.lowZoneAllocator.setUsing true)) := by
  unfold freeLow
  simp -implicitDefEqProofs only [setLow_low, setLow_setLow, setUsing_manager, setManager_setUsing,
    freePages_rejects h]
  rw [if_pos (by decide)]
  rfl

theorem freeLow_accepts {ptr blockSize : ℕ} (h : ¬ Rejects (buddyLow log2ui)
    p.lowZoneAllocator.manager ptr (freeLevel log2ui 10 blockSize)) :
    freeLow log2ui ptr blockSize p =
      let manager := (freePages (buddyLow log2ui) p.lowZoneAllocator.manager ptr
        (freeLevel log2ui 10 blockSize)).2
      (kernelSuccess, releaseBytes (setLow p (((p.lowZoneAllocator.setManager manager).setCounters
        ((p.lowZoneAllocator.total+blockSize)%2^16)
        (maxBlockReq (buddyLow log2ui) manager%2^16)).setUsing false)) (blockSize*2^12)) := by
  unfold freeLow
  simp -implicitDefEqProofs only [setLow_low, setLow_setLow, setUsing_manager, setUsing_total,
    setManager_manager, setManager_total, setManager_setUsing, setCounters_setUsing,
    setUsing_setUsing, freePages_accepts h]
  rw [if_neg (by decide)]

theorem freeZone_rejects {i ptr blockSize : ℕ} (h : Rejects (buddy log2ui)
    (p.zoneAllocators i).manager ptr (freeLevel log2ui 16 blockSize)) :
    freeZone log2ui i ptr blockSize p =
      (kernelInvalidInput, setZone p i ((p.zoneAllocators i).setUsing true)) := by
  unfold freeZone
  simp -implicitDefEqProofs only [setZone_zone, setZone_setZone, Function.update_self,
    setUsing_manager, setManager_setUsing, freePages_rejects h]
  rw [if_pos (by decide)]
  rfl

theorem freeZone_accepts {i ptr blockSize : ℕ} (h : ¬ Rejects (buddy log2ui)
    (p.zoneAllocators i).manager ptr (freeLevel log2ui 16 blockSize)) :
    freeZone log2ui i ptr blockSize p =
      let manager := (freePages (buddy log2ui) (p.zoneAllocators i).manager ptr
        (freeLevel log2ui 16 blockSize)).2
      (kernelSuccess, releaseBytes (setZone p i (((p.zoneAllocators i).setManager manager).setCounters
        (((p.zoneAllocators i).total+blockSize)%2^64)
        (maxBlockReq (buddy log2ui) manager/2^12)|>.setUsing false)) (blockSize*2^12)) := by
  unfold freeZone
  simp -implicitDefEqProofs only [setZone_zone, setZone_setZone, Function.update_self,
    setUsing_manager, setUsing_total, setManager_manager, setManager_total, setManager_setUsing,
    setCounters_setUsing, setUsing_setUsing, freePages_accepts h]
  rw [if_neg (by decide)]

end Steps

end BruhOS.PageFrames
