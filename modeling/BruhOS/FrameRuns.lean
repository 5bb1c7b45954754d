import BruhOS.BuddyFailures
import BruhOS.FrameFrees
import BruhOS.PfaCoverage

/-!
# Runs of the page frame allocator

Callers request blocks of any size from the low and the normal memory and give
back blocks that they hold. Every allocator keeps the invariant of its session:
the blocks held below 4 MiB are those of the low one, the others belong to the
zone whose number their address names. `maxMemReq` of a normal zone is the
largest free block of its allocator in every state.

The loop over the zones never gets behind the first one: it either waits for
that zone for ever or is served by it.
-/

set_option autoImplicit false

namespace BruhOS.FrameRuns
open BruhOS.BlockTree BruhOS.StdMath BruhOS.BuddyMachine BruhOS.BuddyLists BruhOS.BuddyOperations
open BruhOS.BuddyInit BruhOS.BuddyRuns BruhOS.BuddySafety BruhOS.BuddyRegions BruhOS.BuddySummaries
open BruhOS.BuddyFailures BruhOS.PfaInit BruhOS.ZoneLocks BruhOS.PageFrames BruhOS.FrameLocks
open BruhOS.FrameFrees BruhOS.PfaZones BruhOS.PfaCoverage

/-- The allocator and the blocks that callers hold, with the sizes they asked for. -/
structure Frames where
  pages : PageFrameAllocator
  live : List (ℕ × ℕ)

/-- The blocks held after a request was answered with `ptr`. -/
def given (live : List (ℕ × ℕ)) (ptr count : ℕ) : List (ℕ × ℕ) :=
  if ptr = 0 then live else (ptr, count)::live

/-- A call that returns; a free is one of a held block, and succeeds. -/
inductive Call (log2ui : ℕ → ℕ) : Frames → Frames → Prop
  | alloc {w : Frames} {fuel count type : ℕ} {r : ℕ × PageFrameAllocator} : count < 2^32 →
      pfaAllocPages log2ui fuel w.pages count type = some r →
      Call log2ui w ⟨r.2, given w.live r.1 count⟩
  | free {w : Frames} {fuel : ℕ} {b : ℕ × ℕ} {r : ℕ × PageFrameAllocator} : b ∈ w.live →
      pfaFree log2ui fuel w.pages b.1 b.2 = some r → r.1 = kernelSuccess →
      Call log2ui w ⟨r.2, w.live.erase b⟩

inductive FramesReachable (log2ui : ℕ → ℕ) (w₀ : Frames) : Frames → Prop
  | start : FramesReachable log2ui w₀ w₀
  | call {w w' : Frames} : FramesReachable log2ui w₀ w → Call log2ui w w' →
      FramesReachable log2ui w₀ w'

/-- What `pfa_init` passes to the allocators: zones of their windows, those of the normal ones
from 4 MiB on, and for the low one memory whose stale nodes are free. -/
structure Windows (log2ui : ℕ → ℕ) (h : Handover) (priorLow : BuddyAllocator) : Prop where
  allocators : h.totalAllocators < 2^16
  inside : ∀ i < h.totalAllocators, ∀ z ∈ h.zoneStack i, ZoneInside (buddy log2ui) (managedMem*i) z
  high : ∀ i, ∀ z ∈ h.zoneStack i, lowLimit ≤ z.mem
  low : ∀ z ∈ h.lowMemZones, ZoneInside (buddyLow log2ui) 0 z
  tame : Tame (buddyLow log2ui) priorLow 0 h.lowMemZones

def openFrames (log2ui : ℕ → ℕ) (h : Handover) (prior : ℕ → BuddyAllocator)
    (priorLow : BuddyAllocator) : Frames := ⟨pfaInit log2ui h prior priorLow, []⟩

/-- The blocks as the allocator knows them. -/
def blocksOf (B : Build) (live : List (ℕ × ℕ)) : List Block :=
  live.map (fun b => ⟨b.1, B.requestLevel b.2⟩)

def lowLive (live : List (ℕ × ℕ)) : List (ℕ × ℕ) := live.filter (fun b => decide (b.1 < lowLimit))

def zoneLive (i : ℕ) (live : List (ℕ × ℕ)) : List (ℕ × ℕ) :=
  live.filter (fun b => decide (¬ b.1 < lowLimit ∧ allocIdx b.1 = i))

/-- The session of the low allocator keeps its invariant over the pages it was given. -/
def LowSession (log2ui : ℕ → ℕ) (h : Handover) (priorLow : BuddyAllocator) (s : BuddyAllocator)
    (live : List (ℕ × ℕ)) : Prop :=
  ∃ A, SessionInv (buddyLow log2ui) 0 (markedPages (buddyLow log2ui) priorLow 0 h.lowMemZones) A
    ⟨s, blocksOf (buddyLow log2ui) (lowLive live)⟩

def ZoneSession (log2ui : ℕ → ℕ) (h : Handover) (i : ℕ) (s : BuddyAllocator)
    (live : List (ℕ × ℕ)) : Prop :=
  ∃ A, SessionInv (buddy log2ui) (managedMem*i) (zonesPages (managedMem*i) (h.zoneStack i)) A
    ⟨s, blocksOf (buddy log2ui) (zoneLive i live)⟩

structure FramesInv (log2ui : ℕ → ℕ) (h : Handover) (priorLow : BuddyAllocator) (w : Frames) :
    Prop where
  zoneCount : w.pages.zoneCount = h.totalAllocators
  flags : FlagsClear w.pages
  low : LowSession log2ui h priorLow w.pages.lowZoneAllocator.manager w.live
  zone : ∀ i < h.totalAllocators, ZoneSession log2ui h i (w.pages.zoneAllocators i).manager w.live
  max : ∀ i < h.totalAllocators, (w.pages.zoneAllocators i).maxMemReq =
    maxBlockReq (buddy log2ui) (w.pages.zoneAllocators i).manager/2^12
  counts : ∀ b ∈ w.live, b.2 < 2^32
  indices : ∀ b ∈ w.live, ¬ b.1 < lowLimit → allocIdx b.1 < h.totalAllocators

/-- The pages of the free blocks. -/
def freeSizes (B : Build) (s : BuddyAllocator) : Set ℕ :=
  {n | ∃ o ∈ freeNodes B s, n = 2^(B.depth-level o)}

/-- The largest free block has `n` pages; 0 if there is none. -/
def LargestFree (B : Build) (s : BuddyAllocator) (n : ℕ) : Prop :=
  IsGreatest (insert 0 (freeSizes B s)) n

/-- The allocator has a free block of `n` pages or more. -/
def CanServe (B : Build) (s : BuddyAllocator) (n : ℕ) : Prop :=
  ∃ o ∈ freeNodes B s, n ≤ 2^(B.depth-level o)

section Serving

variable {B : Build} {s : BuddyAllocator} {A P : Set ℕ}

theorem size_of_free (h : Inv B s A P) {o : ℕ} (ho : o ∈ freeNodes B s) : s.size (level o) ≠ 0 := by
  obtain ⟨F, hR⟩ := h.rep
  obtain ⟨hl, hF⟩ := hR.mem_free_iff.mp ho
  intro h0
  rw [(hR.size_eq_zero_iff hl).mp h0] at hF
  exact absurd hF List.not_mem_nil

theorem largest_max (h : Inv B s A P) : LargestFree B s (maxBlockReq B s/2^12) := by
  rcases maxBlockReq_cases B s with ⟨h0, hz⟩ | ⟨m, hm, hmax, hne, hbelow⟩
  · rw [h0]
    refine ⟨Set.mem_insert _ _, ?_⟩
    rintro n (rfl | ⟨o, ho, -⟩)
    · exact le_rfl
    · exact absurd (hz _ ho.1) (size_of_free h ho)
  · obtain ⟨hfree, hlev⟩ := tail_free h hm hne
    rw [hmax, show 4096 = 2^12 from rfl, Nat.mul_div_cancel _ (by decide)]
    refine ⟨Or.inr ⟨_, hfree, by rw [hlev]⟩, ?_⟩
    rintro n (rfl | ⟨o, ho, rfl⟩)
    · exact Nat.zero_le _
    · apply Nat.pow_le_pow_right (by decide)
      have hml : m ≤ level o := by
        by_contra hlt
        exact size_of_free h ho (hbelow _ (by omega))
      omega

/-- A free block of `n` pages exists exactly if the largest one has as many. -/
theorem canServe_iff_max (h : Inv B s A P) {n : ℕ} (hn : 0 < n) :
    CanServe B s n ↔ n ≤ maxBlockReq B s/2^12 := by
  obtain ⟨hmem, hupper⟩ := largest_max h
  constructor
  · rintro ⟨o, ho, hle⟩
    exact hle.trans (hupper (Or.inr ⟨o, ho, rfl⟩))
  · intro hle
    rcases hmem with h0 | ⟨o, ho, heq⟩
    · omega
    · exact ⟨o, ho, heq ▸ hle⟩

/-- In a session whose blocks have addresses, an admitted request succeeds exactly if a free
block is large enough. -/
theorem alloc_serves_iff (hlog : Log2Contract B.log2ui) (h : Inv B s A P)
    (hnull : ∀ o, level o ≤ B.depth → pages B.depth o ⊆ P → getAddress B s o ≠ 0) {count : ℕ}
    (hc : count < 2^32) (ha : Admitted B count) :
    (allocPages B s count).1 ≠ 0 ↔ CanServe B s (pageCount count) := by
  obtain ⟨hreq, hpow⟩ := requestLevel_spec hlog hc ha
  rcases alloc_found hlog h hc with ⟨heq, hnone⟩ |
    ⟨m, o, A', -, hdeep, hlev, -, -, hol, -, haddr, -, hinv, hown, -⟩
  · rw [heq]
    constructor
    · intro hne
      exact absurd rfl hne
    · rintro ⟨o, ho, hle⟩
      rw [← hpow, Nat.pow_le_pow_iff_right (by decide)] at hle
      have hol : level o ≤ B.depth := ho.1
      exact absurd (hnone ha _ (by omega)) (size_of_free h ho)
  · have ho : o ∈ A' := by
      have : o ∈ owned B (allocPages B s count).2 A' := by
        rw [hown]
        exact Set.mem_insert o _
      exact this.1
    constructor
    · intro _
      have hmle := hdeep.le
      obtain ⟨hfree, -⟩ := tail_free h (hmle.trans hreq) hdeep.nonempty
      refine ⟨_, hfree, ?_⟩
      rw [hlev, ← hpow]
      exact Nat.pow_le_pow_right (by decide) (by omega)
    · intro _
      rw [haddr]
      exact hnull o hol (hinv.tiling.pages_subset ho)

end Serving

section Addresses

variable {log2ui : ℕ → ℕ} {h : Handover} {priorLow s : BuddyAllocator} {i : ℕ}
  {live : List (ℕ × ℕ)} {A : Set ℕ} {w : Session} {b : Block}

theorem Windows.regions (hW : Windows log2ui h priorLow) (hi : i < h.totalAllocators) :
    Regions (buddy log2ui) (managedMem*i) (h.zoneStack i) := by
  have hn := hW.allocators
  refine ⟨?_, ?_, hW.inside i hi, ?_⟩
  · unfold managedMem
    omega
  · exact Nat.mul_mod_right _ _
  · rintro ⟨z, hz, hle, -⟩
    have := hW.high i z hz
    unfold lowLimit at this
    omega

/-- The zones that `pfa_init` derives from a memory map below 16 TiB. -/
theorem windows_of_derived {map pre : List Descriptor} (hD : Derived map pre h)
    (hn : totalAllocators map < 2^16) (hbelow : ∀ z ∈ h.freeZones, z.mem < 2^44)
    (ht : Tame (buddyLow log2ui) priorLow 0 h.lowMemZones) : Windows log2ui h priorLow := by
  refine ⟨by rw [hD.allocators]; exact hn, ?_, ?_, ?_, ht⟩
  · intro i hi z hz
    obtain ⟨-, hmem, hidx⟩ := mem_zoneStack.mp hz
    rw [hD.allocators] at hi
    have hlt := hbelow z hmem
    rw [mapZoneToAllocator_eq] at hidx
    have hlower : managedMem*i ≤ z.mem ∧ z.mem < memBoundary (i+1) := by
      unfold memBoundary managedMem at *
      omega
    refine ⟨(hD.ok z hmem).aligned, hlower.1, ?_, by omega⟩
    -- The zone has no boundary inside and starts below the end of its window.
    have hwhole := hD.whole z hmem (i+1) hi
    rw [PfaZones.Inside, zoneEnd_eq (hD.ok z hmem)] at hwhole
    have hend : z.mem+z.pages*2^12 ≤ memBoundary (i+1) := by omega
    have hdepth : (buddy log2ui).depth = 16 := rfl
    rw [hdepth]
    unfold memBoundary managedMem at *
    omega
  · intro i z hz
    obtain ⟨-, hmem, -⟩ := mem_zoneStack.mp hz
    exact (hD.origin z hmem).1
  · intro z hz
    obtain ⟨haligned, hend, -⟩ := hD.low z hz
    have hdepth : (buddyLow log2ui).depth = 10 := rfl
    unfold lowLimit at hend
    refine ⟨haligned, Nat.zero_le _, ?_, by omega⟩
    rw [hdepth]
    omega

/-- No tile of a window is at address zero. -/
theorem Windows.nonnull (hW : Windows log2ui h priorLow) (hlog : Log2Contract log2ui)
    (hi : i < h.totalAllocators) (hs : s.start = managedMem*i) (o : ℕ)
    (ho : level o ≤ (buddy log2ui).depth)
    (hP : pages (buddy log2ui).depth o ⊆ zonesPages (managedMem*i) (h.zoneStack i)) :
    getAddress (buddy log2ui) s o ≠ 0 := by
  have hr := hW.regions hi
  exact address_ne_null hlog hr.word hr.aligned hr.inside hr.nonnull s hs o ho hP

/-- The address of a block held from a zone names the zone. -/
theorem zone_block (hW : Windows log2ui h priorLow) (hlog : Log2Contract log2ui)
    (hi : i < h.totalAllocators) (hinv : SessionInv (buddy log2ui) (managedMem*i)
      (zonesPages (managedMem*i) (h.zoneStack i)) A w) (hb : b ∈ w.live) :
    ¬ b.ptr < lowLimit ∧ allocIdx b.ptr = i := by
  have hr := hW.regions hi
  have hn := hW.allocators
  obtain ⟨o, ho, rfl⟩ := hinv.held b hb
  have hlev := hinv.inv.tiling.bound o ho.1
  have haddr : (blockOf (buddy log2ui) w.mman o).ptr = managedMem*i+firstPage 16 o*2^12 :=
    block_address hlog hr.word hr.aligned hinv.start hlev
  obtain ⟨z, hz, hpage, -⟩ := hinv.inv.tiling.pages_subset ho.1 (firstPage_mem _ o hlev)
  have hin := hW.inside i hi z hz
  have hhigh := hW.high i z hz
  have hfirst : firstPage 16 o < 2^16 := (firstPage_mem 16 o hlev).1
  have hlower := hin.lower
  have haligned := hin.aligned
  have hpage' : (z.mem-managedMem*i)/2^12 ≤ firstPage 16 o := hpage
  rw [haddr, allocIdx]
  unfold managedMem lowLimit at *
  omega

theorem low_block (hlog : Log2Contract log2ui) {P : Set ℕ}
    (hinv : SessionInv (buddyLow log2ui) 0 P A w) (hb : b ∈ w.live) : b.ptr < lowLimit := by
  obtain ⟨o, ho, rfl⟩ := hinv.held b hb
  have hlev := hinv.inv.tiling.bound o ho.1
  have haddr : (blockOf (buddyLow log2ui) w.mman o).ptr = 0+firstPage 10 o*2^12 :=
    block_address hlog (by decide) (Nat.zero_mod _) hinv.start hlev
  have hfirst : firstPage 10 o < 2^10 := (firstPage_mem 10 o hlev).1
  rw [haddr]
  unfold lowLimit
  omega

end Addresses

/-- What a call does: nothing, or a step of the one allocator that serves it together with the
counters. -/
inductive Effect (log2ui : ℕ → ℕ) (w : Frames) : Frames → Prop
  | refused : Effect log2ui w w
  | lowAlloc {count : ℕ} {r : ℕ × BuddyAllocator} : count < 2^32 →
      allocPages (buddyLow log2ui) w.pages.lowZoneAllocator.manager (pageCount count) = r →
      Effect log2ui w
        ⟨setLow w.pages ((w.pages.lowZoneAllocator.setManager r.2).setUsing false),
          given w.live r.1 count⟩
  | zoneAlloc {i count : ℕ} {r : ℕ × BuddyAllocator} : i < w.pages.zoneCount → count < 2^32 →
      allocPages (buddy log2ui) (w.pages.zoneAllocators i).manager (pageCount count) = r →
      r.1 ≠ 0 → Effect log2ui w
        ⟨setZone (reserveBytes w.pages (pageCount count*2^12)) i
          ((((w.pages.zoneAllocators i).setManager r.2).setCounters
            (sub64 (w.pages.zoneAllocators i).total (pageCount count))
            (maxBlockReq (buddy log2ui) r.2/2^12)).setUsing false),
          given w.live r.1 count⟩
  | lowFree {b : ℕ × ℕ} {r : ℕ × BuddyAllocator} : b ∈ w.live → b.1 < lowLimit →
      freePages (buddyLow log2ui) w.pages.lowZoneAllocator.manager b.1
        ((buddyLow log2ui).requestLevel b.2) = r → r.1 = kernelSuccess →
      Effect log2ui w
        ⟨releaseBytes (setLow w.pages (((w.pages.lowZoneAllocator.setManager r.2).setCounters
          ((w.pages.lowZoneAllocator.total+pageCount b.2)%2^16)
          (maxBlockReq (buddyLow log2ui) r.2%2^16)).setUsing false)) (pageCount b.2*2^12),
          w.live.erase b⟩
  | zoneFree {b : ℕ × ℕ} {r : ℕ × BuddyAllocator} : b ∈ w.live → ¬ b.1 < lowLimit →
      freePages (buddy log2ui) (w.pages.zoneAllocators (allocIdx b.1)).manager b.1
        ((buddy log2ui).requestLevel b.2) = r → r.1 = kernelSuccess →
      Effect log2ui w
        ⟨releaseBytes (setZone w.pages (allocIdx b.1)
          ((((w.pages.zoneAllocators (allocIdx b.1)).setManager r.2).setCounters
            (((w.pages.zoneAllocators (allocIdx b.1)).total+pageCount b.2)%2^64)
            (maxBlockReq (buddy log2ui) r.2/2^12)).setUsing false)) (pageCount b.2*2^12),
          w.live.erase b⟩

section Effects

variable {log2ui : ℕ → ℕ} {w : Frames} {p : PageFrameAllocator}

/-- The level that `pfa_free` computes is the one the block was requested at. -/
theorem freeLevel_requestLevel (hlog : Log2Contract log2ui) {B : Build} (hB : B.log2ui = log2ui)
    {bytes k : ℕ} (hpow : pageCount bytes = 2^k) (hk : k ≤ B.depth) :
    freeLevel log2ui B.depth (pageCount bytes) = B.requestLevel bytes := by
  have hd := B.depth_le
  have hlt : 2^k < 2^32 := Nat.pow_lt_pow_right (by decide) (by omega)
  rw [Build.requestLevel, hpow, freeLevel_eq hlog hd hk, hB, hlog _ (by positivity) hlt,
    Nat.log2_two_pow]

/-- The loop ends only when its first zone has served the request. -/
theorem zoneLoop_some {fuel count n out : ℕ} {r : ℕ × PageFrameAllocator}
    (hserve : ¬ (p.zoneAllocators 0).maxMemReq < count → (allocZone log2ui 0 count p).1 ≠ 0)
    (h : zoneLoop log2ui fuel count (n+1) 0 out p = some r) :
    ¬ (p.zoneAllocators 0).maxMemReq < count ∧ r = allocZone log2ui 0 count p := by
  rw [zoneLoop, Option.bind_eq_some_iff] at h
  obtain ⟨q, hq, hr⟩ := h
  obtain ⟨rfl, hcond⟩ := waitWhile_some hq
  rw [Bool.or_eq_false_iff, decide_eq_false_iff_not] at hcond
  cases (if_neg (hserve hcond.2)).symm.trans hr
  exact ⟨hcond.2, rfl⟩

end Effects

section Calls

variable {log2ui : ℕ → ℕ} {h : Handover} {priorLow : BuddyAllocator} {w w' : Frames}

theorem admitted_window {count : ℕ} (hc : count < 2^32)
    (hok : ¬ (pageCount count*2^12 > managedMem ∨ pageCount count = 0)) :
    Admitted (buddy log2ui) (pageCount count) := by
  intro hbad
  apply hok
  rw [pageCount_pageCount hc] at hbad
  refine hbad.imp (fun hbig => ?_) id
  have hdepth : (buddy log2ui).depth = 16 := rfl
  rw [hdepth] at hbig
  unfold managedMem
  omega

/-- A normal zone serves exactly the requests that its counter lets through. -/
theorem FramesInv.serves_iff (hF : FramesInv log2ui h priorLow w) (hlog : Log2Contract log2ui)
    (hW : Windows log2ui h priorLow) {i : ℕ} (hi : i < h.totalAllocators) {count : ℕ}
    (hc : count < 2^32) (hok : ¬ (pageCount count*2^12 > managedMem ∨ pageCount count = 0)) :
    ((allocPages (buddy log2ui) (w.pages.zoneAllocators i).manager (pageCount count)).1 ≠ 0 ↔
      CanServe (buddy log2ui) (w.pages.zoneAllocators i).manager (pageCount count)) ∧
    (CanServe (buddy log2ui) (w.pages.zoneAllocators i).manager (pageCount count) ↔
      ¬ (w.pages.zoneAllocators i).maxMemReq < pageCount count) := by
  obtain ⟨A, hA⟩ := hF.zone i hi
  have hpc : pageCount count < 2^32 := Nat.mod_lt _ (by decide)
  have hpos : 0 < pageCount count := by omega
  have hserve := alloc_serves_iff hlog hA.inv (hW.nonnull hlog hi hA.start) hpc
    (admitted_window hc hok)
  rw [pageCount_pageCount hc] at hserve
  refine ⟨hserve, ?_⟩
  rw [canServe_iff_max hA.inv hpos, hF.max i hi, Nat.not_lt]

theorem allocLow_effect {count : ℕ} (hc : count < 2^32) {r : ℕ × BuddyAllocator}
    (hr : allocPages (buddyLow log2ui) w.pages.lowZoneAllocator.manager (pageCount count) = r) :
    Effect log2ui w ⟨(allocLow log2ui (pageCount count) w.pages).2,
      given w.live (allocLow log2ui (pageCount count) w.pages).1 count⟩ := by
  rw [allocLow_eq, hr]
  exact .lowAlloc hc hr

theorem allocZone_result {p : PageFrameAllocator} {i count : ℕ} {r : ℕ × BuddyAllocator}
    (hr : allocPages (buddy log2ui) (p.zoneAllocators i).manager count = r) :
    (allocZone log2ui i count p).1 = r.1 := by
  rw [allocZone_eq, hr]

theorem allocZone_effect {i count : ℕ} (hi : i < w.pages.zoneCount) (hc : count < 2^32)
    {r : ℕ × BuddyAllocator}
    (hr : allocPages (buddy log2ui) (w.pages.zoneAllocators i).manager (pageCount count) = r)
    (hne : r.1 ≠ 0) :
    Effect log2ui w ⟨(allocZone log2ui i (pageCount count) w.pages).2,
      given w.live (allocZone log2ui i (pageCount count) w.pages).1 count⟩ := by
  rw [allocZone_eq, hr]
  simp -implicitDefEqProofs only [if_neg hne]
  exact .zoneAlloc hi hc hr hne

theorem alloc_effect (hF : FramesInv log2ui h priorLow w) (hlog : Log2Contract log2ui)
    (hW : Windows log2ui h priorLow) {fuel count type : ℕ} {r : ℕ × PageFrameAllocator}
    (hc : count < 2^32) (hr : pfaAllocPages log2ui fuel w.pages count type = some r) :
    Effect log2ui w ⟨r.2, given w.live r.1 count⟩ := by
  rw [pfaAllocPages] at hr
  by_cases hbad : pageCount count*2^12 > managedMem ∨ pageCount count = 0
  · rw [if_pos hbad] at hr
    cases hr
    exact .refused
  rw [if_neg hbad] at hr
  by_cases ht : memLocation type = DMA_LOW
  · rw [if_pos ht, Option.map_eq_some_iff] at hr
    obtain ⟨q, hq, rfl⟩ := hr
    obtain ⟨rfl, -⟩ := waitWhile_some hq
    exact allocLow_effect hc rfl
  · rw [if_neg ht] at hr
    cases hn : w.pages.zoneCount with
    | zero =>
      rw [hn] at hr
      cases hr
      exact .refused
    | succ n =>
      rw [hn] at hr
      have hi : 0 < h.totalAllocators := by
        rw [← hF.zoneCount, hn]
        exact Nat.succ_pos n
      obtain ⟨hserve, hmax⟩ := hF.serves_iff hlog hW hi hc hbad
      generalize hz : allocPages (buddy log2ui) (w.pages.zoneAllocators 0).manager
        (pageCount count) = z at hserve
      have hne : ¬ (w.pages.zoneAllocators 0).maxMemReq < pageCount count →
          (allocZone log2ui 0 (pageCount count) w.pages).1 ≠ 0 := by
        intro hge
        rw [allocZone_result hz]
        exact hserve.mpr (hmax.mpr hge)
      obtain ⟨hge, rfl⟩ := zoneLoop_some hne hr
      exact allocZone_effect (by omega) hc hz (hserve.mpr (hmax.mpr hge))

theorem freeLow_effect {b : ℕ × ℕ} (hb : b ∈ w.live) (hlow : b.1 < lowLimit)
    (hlev : freeLevel log2ui 10 (pageCount b.2) = (buddyLow log2ui).requestLevel b.2)
    (hacc : ¬ Rejects (buddyLow log2ui) w.pages.lowZoneAllocator.manager b.1
      (freeLevel log2ui 10 (pageCount b.2))) {r : ℕ × BuddyAllocator}
    (hr : freePages (buddyLow log2ui) w.pages.lowZoneAllocator.manager b.1
      ((buddyLow log2ui).requestLevel b.2) = r) :
    Effect log2ui w ⟨(freeLow log2ui b.1 (pageCount b.2) w.pages).2, w.live.erase b⟩ := by
  have hs := freePages_accepts hacc
  rw [hlev, hr] at hs
  rw [freeLow_accepts hacc, hlev, hr]
  exact .lowFree hb hlow hr hs

theorem freeZone_effect {b : ℕ × ℕ} (hb : b ∈ w.live) (hlow : ¬ b.1 < lowLimit)
    (hlev : freeLevel log2ui 16 (pageCount b.2) = (buddy log2ui).requestLevel b.2)
    (hacc : ¬ Rejects (buddy log2ui) (w.pages.zoneAllocators (allocIdx b.1)).manager b.1
      (freeLevel log2ui 16 (pageCount b.2))) {r : ℕ × BuddyAllocator}
    (hr : freePages (buddy log2ui) (w.pages.zoneAllocators (allocIdx b.1)).manager b.1
      ((buddy log2ui).requestLevel b.2) = r) :
    Effect log2ui w
      ⟨(freeZone log2ui (allocIdx b.1) b.1 (pageCount b.2) w.pages).2, w.live.erase b⟩ := by
  have hs := freePages_accepts hacc
  rw [hlev, hr] at hs
  rw [freeZone_accepts hacc, hlev, hr]
  exact .zoneFree hb hlow hr hs

theorem free_effect (hlog : Log2Contract log2ui) (hlive : ∀ b ∈ w.live, b.2 < 2^32) {fuel : ℕ}
    {b : ℕ × ℕ} {r : ℕ × PageFrameAllocator} (hb : b ∈ w.live)
    (hr : pfaFree log2ui fuel w.pages b.1 b.2 = some r) (hs : r.1 = kernelSuccess) :
    Effect log2ui w ⟨r.2, w.live.erase b⟩ := by
  have hr' : pfaFree log2ui fuel w.pages b.1 b.2 = some (kernelSuccess, r.2) := by
    rw [hr, ← hs]
  obtain ⟨hok, hacc⟩ := freed_accepted hr'
  obtain ⟨k, hpow, hk⟩ := freed_size log2ui w.pages (hlive b hb) hok
  have hlev := freeLevel_requestLevel hlog selected_log2 hpow hk
  rcases pfaFree_some hr with ⟨hbad, -⟩ | ⟨-, hlow, rfl⟩ | ⟨-, hlow, rfl⟩
  · exact absurd hbad hok
  · rw [selected, if_pos hlow] at hacc hlev
    exact freeLow_effect hb hlow hlev hacc rfl
  · rw [selected, if_neg hlow] at hacc hlev
    exact freeZone_effect hb hlow hlev hacc rfl

/-- Every call that returns has one of the effects. -/
theorem Call.effect (hF : FramesInv log2ui h priorLow w) (hlog : Log2Contract log2ui)
    (hW : Windows log2ui h priorLow) (hcall : Call log2ui w w') : Effect log2ui w w' := by
  cases hcall with
  | alloc hc hr => exact alloc_effect hF hlog hW hc hr
  | free hb hr hs => exact free_effect hlog hF.counts hb hr hs

end Calls

section Sessions

variable {B : Build} {start : ℕ} {P A : Set ℕ} {s : BuddyAllocator} {live : List (ℕ × ℕ)}
  {r : ℕ × BuddyAllocator}

theorem blocksOf_given (B : Build) (live : List (ℕ × ℕ)) (ptr count : ℕ) :
    blocksOf B (given live ptr count) =
      if ptr = 0 then blocksOf B live else ⟨ptr, B.requestLevel count⟩::blocksOf B live := by
  unfold given
  split
  · rfl
  · rfl

theorem blocksOf_erase {b : ℕ × ℕ} (hb : b ∈ live) (hn : (blocksOf B live).Nodup) :
    blocksOf B (live.erase b) = (blocksOf B live).erase ⟨b.1, B.requestLevel b.2⟩ := by
  induction live with
  | nil => cases hb
  | cons c live ih =>
    rw [blocksOf, List.map_cons, List.nodup_cons] at hn
    by_cases hcb : c = b
    · subst hcb
      rw [List.erase_cons_head, blocksOf, blocksOf, List.map_cons, List.erase_cons_head]
    · have hmem : b ∈ live := (List.mem_cons.mp hb).resolve_left (Ne.symm hcb)
      -- Another held block with the same address and level would be held twice.
      have hne : (⟨c.1, B.requestLevel c.2⟩ : Block) ≠ ⟨b.1, B.requestLevel b.2⟩ := by
        intro heq
        exact hn.1 (heq ▸ List.mem_map_of_mem (f := fun b => (⟨b.1, B.requestLevel b.2⟩ : Block)) hmem)
      rw [List.erase_cons_tail (by simpa using hcb), blocksOf, blocksOf, List.map_cons,
        List.map_cons, List.erase_cons_tail (by simpa using hne)]
      exact congrArg _ (ih hmem hn.2)

theorem requestLevel_pageCount {count : ℕ} (hc : count < 2^32) :
    B.requestLevel (pageCount count) = B.requestLevel count := by
  rw [Build.requestLevel, pageCount_pageCount hc, Build.requestLevel]

theorem session_alloc (hlog : Log2Contract B.log2ui)
    (h : SessionInv B start P A ⟨s, blocksOf B live⟩) {count : ℕ} (hc : count < 2^32)
    (hr : allocPages B s (pageCount count) = r) :
    ∃ A', SessionInv B start P A' ⟨r.2, blocksOf B (given live r.1 count)⟩ := by
  have hpc : pageCount count < 2^32 := Nat.mod_lt _ (by decide)
  obtain ⟨A', hA', -⟩ := alloc_step hlog h hpc
  refine ⟨A', ?_⟩
  rw [blocksOf_given, ← requestLevel_pageCount hc]
  simpa only [BuddyRuns.step, hr] using hA'

theorem session_free (hlog : Log2Contract B.log2ui) (hs : start < 2^64)
    (h : SessionInv B start P A ⟨s, blocksOf B live⟩) {b : ℕ × ℕ} (hb : b ∈ live)
    (hr : freePages B s b.1 (B.requestLevel b.2) = r) (h1 : r.1 = kernelSuccess) :
    ∃ A', SessionInv B start P A' ⟨r.2, blocksOf B (live.erase b)⟩ := by
  have hm : (⟨b.1, B.requestLevel b.2⟩ : Block) ∈ blocksOf B live :=
    List.mem_map_of_mem (f := fun b => (⟨b.1, B.requestLevel b.2⟩ : Block)) hb
  obtain ⟨A', hA', -⟩ := free_step hlog h hs hm
  refine ⟨A', ?_⟩
  rw [blocksOf_erase hb h.nodup]
  simpa only [BuddyRuns.step, hr, h1, if_true] using hA'

end Sessions

section Held

variable {live : List (ℕ × ℕ)} {ptr count i : ℕ}

theorem mem_given {b : ℕ × ℕ} (h : b ∈ given live ptr count) : b = (ptr, count) ∨ b ∈ live := by
  unfold given at h
  split at h
  · exact Or.inr h
  · exact List.mem_cons.mp h

theorem lowLive_given (h : ptr ≠ 0 → ptr < lowLimit) :
    lowLive (given live ptr count) = given (lowLive live) ptr count := by
  unfold given
  split
  · rfl
  · rename_i h0
    rw [lowLive, List.filter_cons_of_pos (by simpa using h h0)]
    rfl

theorem zoneLive_given (h : ptr ≠ 0 → ¬ ptr < lowLimit ∧ allocIdx ptr = i) :
    zoneLive i (given live ptr count) = given (zoneLive i live) ptr count := by
  unfold given
  split
  · rfl
  · rename_i h0
    rw [zoneLive, List.filter_cons_of_pos (by simpa using h h0)]
    rfl

theorem lowLive_other (h : ¬ ptr < lowLimit) : lowLive (given live ptr count) = lowLive live := by
  unfold given
  split
  · rfl
  · rw [lowLive, List.filter_cons_of_neg (by simpa using h)]
    rfl

theorem zoneLive_other (h : ptr ≠ 0 → ptr < lowLimit ∨ allocIdx ptr ≠ i) :
    zoneLive i (given live ptr count) = zoneLive i live := by
  unfold given
  split
  · rfl
  · rename_i h0
    rw [zoneLive, List.filter_cons_of_neg]
    · rfl
    · rw [decide_eq_true_iff]
      rintro ⟨h1, h2⟩
      exact (h h0).elim h1 (fun hne => hne h2)

theorem lowLive_erase (live : List (ℕ × ℕ)) (b : ℕ × ℕ) :
    lowLive (live.erase b) = (lowLive live).erase b :=
  (List.erase_filter ..).symm

theorem zoneLive_erase (live : List (ℕ × ℕ)) (b : ℕ × ℕ) :
    zoneLive i (live.erase b) = (zoneLive i live).erase b :=
  (List.erase_filter ..).symm

theorem mem_lowLive {b : ℕ × ℕ} : b ∈ lowLive live ↔ b ∈ live ∧ b.1 < lowLimit := by
  rw [lowLive, List.mem_filter, decide_eq_true_iff]

theorem mem_zoneLive {b : ℕ × ℕ} :
    b ∈ zoneLive i live ↔ b ∈ live ∧ ¬ b.1 < lowLimit ∧ allocIdx b.1 = i := by
  rw [zoneLive, List.mem_filter, decide_eq_true_iff]

end Held

section Invariant

variable {log2ui : ℕ → ℕ} {h : Handover} {priorLow s : BuddyAllocator} {live : List (ℕ × ℕ)}
  {i : ℕ} {r : ℕ × BuddyAllocator} {w w' : Frames}

theorem LowSession.alloc (hS : LowSession log2ui h priorLow s live) (hlog : Log2Contract log2ui)
    {count : ℕ} (hc : count < 2^32) (hr : allocPages (buddyLow log2ui) s (pageCount count) = r) :
    (r.1 ≠ 0 → r.1 < lowLimit) ∧ LowSession log2ui h priorLow r.2 (given live r.1 count) := by
  obtain ⟨A, hA⟩ := hS
  obtain ⟨A', hA'⟩ := session_alloc hlog hA hc hr
  have hlt : r.1 ≠ 0 → r.1 < lowLimit := by
    intro h0
    have hm : (⟨r.1, (buddyLow log2ui).requestLevel count⟩ : Block) ∈
        blocksOf (buddyLow log2ui) (given (lowLive live) r.1 count) := by
      rw [blocksOf_given, if_neg h0]
      exact List.mem_cons_self
    exact low_block hlog hA' hm
  exact ⟨hlt, A', by rw [lowLive_given hlt]; exact hA'⟩

theorem ZoneSession.alloc (hS : ZoneSession log2ui h i s live) (hlog : Log2Contract log2ui)
    (hW : Windows log2ui h priorLow) (hi : i < h.totalAllocators) {count : ℕ} (hc : count < 2^32)
    (hr : allocPages (buddy log2ui) s (pageCount count) = r) :
    (r.1 ≠ 0 → ¬ r.1 < lowLimit ∧ allocIdx r.1 = i) ∧
    ZoneSession log2ui h i r.2 (given live r.1 count) := by
  obtain ⟨A, hA⟩ := hS
  obtain ⟨A', hA'⟩ := session_alloc hlog hA hc hr
  have hidx : r.1 ≠ 0 → ¬ r.1 < lowLimit ∧ allocIdx r.1 = i := by
    intro h0
    have hm : (⟨r.1, (buddy log2ui).requestLevel count⟩ : Block) ∈
        blocksOf (buddy log2ui) (given (zoneLive i live) r.1 count) := by
      rw [blocksOf_given, if_neg h0]
      exact List.mem_cons_self
    exact zone_block hW hlog hi hA' hm
  exact ⟨hidx, A', by rw [zoneLive_given hidx]; exact hA'⟩

theorem LowSession.free (hS : LowSession log2ui h priorLow s live) (hlog : Log2Contract log2ui)
    {b : ℕ × ℕ} (hb : b ∈ live) (hlow : b.1 < lowLimit)
    (hr : freePages (buddyLow log2ui) s b.1 ((buddyLow log2ui).requestLevel b.2) = r)
    (h1 : r.1 = kernelSuccess) : LowSession log2ui h priorLow r.2 (live.erase b) := by
  obtain ⟨A, hA⟩ := hS
  obtain ⟨A', hA'⟩ := session_free hlog (by decide) hA (mem_lowLive.mpr ⟨hb, hlow⟩) hr h1
  exact ⟨A', by rw [lowLive_erase]; exact hA'⟩

theorem ZoneSession.free (hS : ZoneSession log2ui h i s live) (hlog : Log2Contract log2ui)
    (hW : Windows log2ui h priorLow) (hi : i < h.totalAllocators) {b : ℕ × ℕ} (hb : b ∈ live)
    (hidx : ¬ b.1 < lowLimit ∧ allocIdx b.1 = i)
    (hr : freePages (buddy log2ui) s b.1 ((buddy log2ui).requestLevel b.2) = r)
    (h1 : r.1 = kernelSuccess) : ZoneSession log2ui h i r.2 (live.erase b) := by
  obtain ⟨A, hA⟩ := hS
  obtain ⟨A', hA'⟩ := session_free hlog (hW.regions hi).word hA (mem_zoneLive.mpr ⟨hb, hidx⟩) hr h1
  exact ⟨A', by rw [zoneLive_erase]; exact hA'⟩

/-- The pages of `p` are those of `w` but for the low allocator. -/
theorem FramesInv.replaceLow (hF : FramesInv log2ui h priorLow w) {p : PageFrameAllocator}
    {live' : List (ℕ × ℕ)} (hcount : p.zoneCount = w.pages.zoneCount)
    (hzone : p.zoneAllocators = w.pages.zoneAllocators)
    (hflag : p.lowZoneAllocator.isusing = false)
    (hS : LowSession log2ui h priorLow p.lowZoneAllocator.manager live')
    (hother : ∀ i, zoneLive i live' = zoneLive i w.live)
    (hlive : ∀ b ∈ live', b ∈ w.live ∨ b.2 < 2^32 ∧ b.1 < lowLimit) :
    FramesInv log2ui h priorLow ⟨p, live'⟩ := by
  refine ⟨hcount.trans hF.zoneCount, ⟨hflag, ?_⟩, hS, ?_, ?_, ?_, ?_⟩
  · intro i hi
    rw [hcount] at hi
    rw [hzone]
    exact hF.flags.normal i hi
  · intro i hi
    obtain ⟨A, hA⟩ := hF.zone i hi
    refine ⟨A, ?_⟩
    rw [hother i, hzone]
    exact hA
  · intro i hi
    rw [hzone]
    exact hF.max i hi
  · intro b hb
    rcases hlive b hb with hold | ⟨hnew, -⟩
    · exact hF.counts b hold
    · exact hnew
  · intro b hb hhigh
    rcases hlive b hb with hold | ⟨-, hnew⟩
    · exact hF.indices b hold hhigh
    · exact absurd hnew hhigh

/-- The pages of `p` are those of `w` but for one normal zone. -/
theorem FramesInv.replaceZone (hF : FramesInv log2ui h priorLow w) {p : PageFrameAllocator}
    {z : ManagedZone} {live' : List (ℕ × ℕ)} (hi : i < h.totalAllocators)
    (hcount : p.zoneCount = w.pages.zoneCount)
    (hlow : p.lowZoneAllocator = w.pages.lowZoneAllocator)
    (hzone : p.zoneAllocators = Function.update w.pages.zoneAllocators i z)
    (hflag : z.isusing = false)
    (hmax : z.maxMemReq = maxBlockReq (buddy log2ui) z.manager/2^12)
    (hS : ZoneSession log2ui h i z.manager live') (hlow' : lowLive live' = lowLive w.live)
    (hother : ∀ j, j ≠ i → zoneLive j live' = zoneLive j w.live)
    (hlive : ∀ b ∈ live', b ∈ w.live ∨ b.2 < 2^32 ∧ allocIdx b.1 = i) :
    FramesInv log2ui h priorLow ⟨p, live'⟩ := by
  refine ⟨hcount.trans hF.zoneCount, ⟨?_, ?_⟩, ?_, ?_, ?_, ?_, ?_⟩
  · rw [hlow]
    exact hF.flags.low
  · intro j hj
    rw [hcount] at hj
    rw [hzone]
    by_cases hji : j = i
    · rw [hji, Function.update_self]
      exact hflag
    · rw [Function.update_of_ne hji]
      exact hF.flags.normal j hj
  · obtain ⟨A, hA⟩ := hF.low
    refine ⟨A, ?_⟩
    rw [hlow', hlow]
    exact hA
  · intro j hj
    rw [hzone]
    by_cases hji : j = i
    · rw [hji, Function.update_self]
      exact hS
    · rw [Function.update_of_ne hji]
      obtain ⟨A, hA⟩ := hF.zone j hj
      refine ⟨A, ?_⟩
      rw [hother j hji]
      exact hA
  · intro j hj
    rw [hzone]
    by_cases hji : j = i
    · rw [hji, Function.update_self]
      exact hmax
    · rw [Function.update_of_ne hji]
      exact hF.max j hj
  · intro b hb
    rcases hlive b hb with hold | ⟨hnew, -⟩
    · exact hF.counts b hold
    · exact hnew
  · intro b hb hhigh
    rcases hlive b hb with hold | ⟨-, hnew⟩
    · exact hF.indices b hold hhigh
    · rw [hnew]
      exact hi

theorem reserved_zone (p : PageFrameAllocator) (i n : ℕ) (z : ManagedZone) :
    (setZone (reserveBytes p n) i z).zoneCount = p.zoneCount ∧
    (setZone (reserveBytes p n) i z).lowZoneAllocator = p.lowZoneAllocator ∧
    (setZone (reserveBytes p n) i z).zoneAllocators = Function.update p.zoneAllocators i z := by
  rw [setZone_count, setZone_low, setZone_zone, reserveBytes_count, reserveBytes_low,
    reserveBytes_zone]
  exact ⟨rfl, rfl, rfl⟩

/-- What every effect keeps. -/
theorem Effect.inv (hE : Effect log2ui w w') (hF : FramesInv log2ui h priorLow w)
    (hlog : Log2Contract log2ui) (hW : Windows log2ui h priorLow) :
    FramesInv log2ui h priorLow w' := by
  cases hE with
  | refused => exact hF
  | @lowAlloc count r hc hr =>
    obtain ⟨hlt, hS⟩ := hF.low.alloc hlog hc hr
    refine hF.replaceLow rfl rfl rfl hS (fun i => zoneLive_other (fun h0 => Or.inl (hlt h0))) ?_
    intro b hb
    by_cases h0 : r.1 = 0
    · rw [given, if_pos h0] at hb
      exact Or.inl hb
    · rcases mem_given hb with rfl | hb
      · exact Or.inr ⟨hc, hlt h0⟩
      · exact Or.inl hb
  | @zoneAlloc i count r hi hc hr h0 =>
    rw [hF.zoneCount] at hi
    obtain ⟨hidx, hS⟩ := (hF.zone i hi).alloc hlog hW hi hc hr
    obtain ⟨hhigh, heq⟩ := hidx h0
    obtain ⟨hcount, hlow, hzone⟩ := reserved_zone w.pages i (pageCount count*2^12)
      ((((w.pages.zoneAllocators i).setManager r.2).setCounters
        (sub64 (w.pages.zoneAllocators i).total (pageCount count))
        (maxBlockReq (buddy log2ui) r.2/2^12)).setUsing false)
    refine hF.replaceZone hi hcount hlow hzone rfl rfl hS (lowLive_other hhigh) ?_ ?_
    · intro j hji
      exact zoneLive_other (fun _ => Or.inr (heq ▸ Ne.symm hji))
    · intro b hb
      rcases mem_given hb with rfl | hb
      · exact Or.inr ⟨hc, heq⟩
      · exact Or.inl hb
  | @lowFree b r hb hlow hr h1 =>
    refine hF.replaceLow rfl rfl rfl (hF.low.free hlog hb hlow hr h1) ?_ ?_
    · intro i
      rw [zoneLive_erase, List.erase_of_not_mem]
      intro hm
      exact (mem_zoneLive.mp hm).2.1 hlow
    · intro c hc
      exact Or.inl (List.mem_of_mem_erase hc)
  | @zoneFree b r hb hlow hr h1 =>
    have hi := hF.indices b hb hlow
    refine hF.replaceZone hi rfl rfl rfl rfl rfl
      ((hF.zone _ hi).free hlog hW hi hb ⟨hlow, rfl⟩ hr h1) ?_ ?_ ?_
    · rw [lowLive_erase, List.erase_of_not_mem]
      intro hm
      exact hlow (mem_lowLive.mp hm).2
    · intro j hji
      rw [zoneLive_erase, List.erase_of_not_mem]
      intro hm
      exact hji (mem_zoneLive.mp hm).2.2.symm
    · intro c hc
      exact Or.inl (List.mem_of_mem_erase hc)

end Invariant

section Runs

variable {log2ui : ℕ → ℕ} {h : Handover} {prior : ℕ → BuddyAllocator} {priorLow : BuddyAllocator}
  {w : Frames}

theorem initZone_max (prior : BuddyAllocator) (i : ℕ) :
    (initZone log2ui h prior i).maxMemReq =
      maxBlockReq (buddy log2ui) (initZone log2ui h prior i).manager/2^12 := by
  unfold initZone
  simp -implicitDefEqProofs only

theorem open_inv (hlog : Log2Contract log2ui) (hW : Windows log2ui h priorLow) :
    FramesInv log2ui h priorLow (openFrames log2ui h prior priorLow) := by
  refine ⟨Nat.mod_eq_of_lt hW.allocators, ⟨rfl, fun i _ => rfl⟩, ?_, ?_, ?_, ?_, ?_⟩
  · exact tame_run hlog hW.tame (by decide) hW.low .start
  · intro i hi
    obtain ⟨A, hA, -⟩ := open_exact hlog (hW.regions hi) (blank_buddy log2ui (prior i))
    exact ⟨A, hA⟩
  · intro i _
    exact initZone_max (prior i) i
  · intro b hb
    cases hb
  · intro b hb
    cases hb

/-- The invariant in every state that calls reach. -/
theorem frames_inv (hlog : Log2Contract log2ui) (hW : Windows log2ui h priorLow)
    (hw : FramesReachable log2ui (openFrames log2ui h prior priorLow) w) :
    FramesInv log2ui h priorLow w := by
  induction hw with
  | start => exact open_inv hlog hW
  | call _ hcall ih => exact (hcall.effect ih hlog hW).inv ih hlog hW

/-- What holds at the start and is kept by every effect holds in every run. -/
theorem frames_run (hlog : Log2Contract log2ui) (hW : Windows log2ui h priorLow)
    {I : Frames → Prop} (h0 : I (openFrames log2ui h prior priorLow))
    (hstep : ∀ w w', FramesReachable log2ui (openFrames log2ui h prior priorLow) w →
      FramesInv log2ui h priorLow w → I w → Effect log2ui w w' → I w')
    (hw : FramesReachable log2ui (openFrames log2ui h prior priorLow) w) : I w := by
  induction hw with
  | start => exact h0
  | call hw hcall ih =>
    have hF := frames_inv hlog hW hw
    exact hstep _ _ hw hF ih (hcall.effect hF hlog hW)

end Runs

end BruhOS.FrameRuns
