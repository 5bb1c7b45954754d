import BruhOS.FrameAnswers

/-!
# The counters of the page frame allocator

`free` and `reserved` count bytes, `total` counts the free pages of a zone and
`maxMemReq` the pages of its largest free block. Calls on the normal memory
keep them. For the low memory they are in the wrong unit or are not updated, so
they are right in every run exactly if no low page is free at the start; then no
call changes the low allocator.
-/

set_option autoImplicit false

namespace BruhOS.FrameCounters
open BruhOS.BlockTree BruhOS.StdMath BruhOS.BuddyMachine BruhOS.BuddyOperations BruhOS.BuddyInit
open BruhOS.BuddyRuns BruhOS.BuddySafety BruhOS.BuddyRegions BruhOS.BuddySummaries
open BruhOS.BuddyFailures BruhOS.PfaInit BruhOS.ZoneLocks BruhOS.PageFrames BruhOS.FrameLocks
open BruhOS.FrameRuns BruhOS.FrameAnswers BruhOS.CountedLoop

/-- The counters of a zone agree with its allocator. -/
structure ZoneCounted (B : Build) (z : ManagedZone) : Prop where
  total : z.total = (freePageSet B z.manager).ncard
  max : LargestFree B z.manager z.maxMemReq

/-- The free bytes that the allocators report. -/
def freeBytes (log2ui : ℕ → ℕ) (p : PageFrameAllocator) : ℕ :=
  ∑ i ∈ Finset.range p.zoneCount, freeMemorySize (buddy log2ui) (p.zoneAllocators i).manager +
    freeMemorySize (buddyLow log2ui) p.lowZoneAllocator.manager

/-- All counters are right, and `free` and `reserved` add up to `c`. -/
structure Accounted (log2ui : ℕ → ℕ) (c : ℕ) (p : PageFrameAllocator) : Prop where
  free : p.free = freeBytes log2ui p
  constant : (p.free+p.reserved)%2^64 = c
  low : ZoneCounted (buddyLow log2ui) p.lowZoneAllocator
  zone : ∀ i < p.zoneCount, ZoneCounted (buddy log2ui) (p.zoneAllocators i)

section Sizes

variable {B : Build} {s : BuddyAllocator} {A P : Set ℕ}

/-- Without a free page there is no free block. -/
theorem no_free_node (h : freePageSet B s = ∅) (o : ℕ) : o ∉ freeNodes B s := by
  intro ho
  have hp : firstPage B.depth o ∈ freePageSet B s := ⟨o, ho, firstPage_mem B.depth o ho.1⟩
  rw [h] at hp
  exact hp

/-- Without a free page a request leaves the allocator alone. -/
theorem alloc_nothing (hlog : Log2Contract B.log2ui) (h : Inv B s A P) (h0 : freePageSet B s = ∅)
    {count : ℕ} (hc : count < 2^32) : allocPages B s count = (0, s) := by
  rcases alloc_found hlog h hc with ⟨heq, -⟩ | ⟨m, o, A', hadm, hdeep, -⟩
  · exact heq
  · have hm : m ≤ B.depth := hdeep.le.trans (requestLevel_spec hlog hc hadm).1
    exact absurd (tail_free h hm hdeep.nonempty).1 (no_free_node h0 _)

end Sizes

section Words

variable {a n : ℕ}

theorem sub64_add (h : n ≤ a) (ha : a < 2^64) : sub64 a n+n = a := by
  unfold sub64
  omega

/-- A transfer between two words keeps their sum. -/
theorem reserve_sum (p : PageFrameAllocator) {n : ℕ} (hn : n < 2^64) :
    ((reserveBytes p n).free+(reserveBytes p n).reserved)%2^64 = (p.free+p.reserved)%2^64 := by
  unfold reserveBytes sub64
  dsimp only
  omega

theorem release_sum (p : PageFrameAllocator) {n : ℕ} (hn : n < 2^64) :
    ((releaseBytes p n).free+(releaseBytes p n).reserved)%2^64 = (p.free+p.reserved)%2^64 := by
  unfold releaseBytes sub64
  dsimp only
  omega

/-- Replacing one summand. -/
theorem sum_replace {n i : ℕ} (hi : i < n) (f : ℕ → ℕ) (k : ℕ) :
    ∑ j ∈ Finset.range n, Function.update f i k j+f i = ∑ j ∈ Finset.range n, f j+k := by
  have hm : i ∈ Finset.range n := Finset.mem_range.mpr hi
  rw [Finset.sum_update_of_mem hm, Finset.sum_eq_add_sum_sdiff_singleton_of_mem hm f]
  omega

end Words

/-- The free pages of a zone. -/
noncomputable def zoneFreePages (log2ui : ℕ → ℕ) (z : ManagedZone) : ℕ :=
  (freePageSet (buddy log2ui) z.manager).ncard

noncomputable def zonesFree (log2ui : ℕ → ℕ) (p : PageFrameAllocator) : ℕ :=
  ∑ i ∈ Finset.range p.zoneCount, zoneFreePages log2ui (p.zoneAllocators i)

/-- What every call keeps, whatever the low allocator does. -/
structure CountersInv (log2ui : ℕ → ℕ) (c : ℕ) (w : Frames) : Prop where
  total : ∀ i < w.pages.zoneCount,
    (w.pages.zoneAllocators i).total = zoneFreePages log2ui (w.pages.zoneAllocators i)
  constant : (w.pages.free+w.pages.reserved)%2^64 = c
  size : ∀ b ∈ w.live, ¬ b.1 < lowLimit →
    2^((buddy log2ui).depth-(buddy log2ui).requestLevel b.2) = pageCount b.2

/-- Nothing below 4 MiB is free or held. -/
structure LowIdle (log2ui : ℕ → ℕ) (low : ManagedZone) (w : Frames) : Prop where
  low : w.pages.lowZoneAllocator = low
  high : ∀ b ∈ w.live, ¬ b.1 < lowLimit
  free : w.pages.free = 2^12*zonesFree log2ui w.pages

section Zones

variable {log2ui : ℕ → ℕ} {h : Handover} {priorLow s : BuddyAllocator} {live : List (ℕ × ℕ)}
  {i : ℕ} {r : ℕ × BuddyAllocator}

theorem zoneFreePages_le (log2ui : ℕ → ℕ) (z : ManagedZone) : zoneFreePages log2ui z ≤ 2^16 :=
  freePageSet_le (buddy log2ui) z.manager

theorem zonesFree_lt (log2ui : ℕ → ℕ) {p : PageFrameAllocator} (hn : p.zoneCount < 2^16) :
    zonesFree log2ui p < 2^32 := by
  have hsum : zonesFree log2ui p ≤ ∑ _i ∈ Finset.range p.zoneCount, 2^16 :=
    Finset.sum_le_sum (fun i _ => zoneFreePages_le log2ui (p.zoneAllocators i))
  rw [Finset.sum_const, Finset.card_range, smul_eq_mul] at hsum
  omega

/-- The free pages of all zones when one of them is replaced. -/
theorem zonesFree_replace (log2ui : ℕ → ℕ) {p q : PageFrameAllocator} {z : ManagedZone}
    (hcount : p.zoneCount = q.zoneCount)
    (hzone : p.zoneAllocators = Function.update q.zoneAllocators i z) (hi : i < q.zoneCount) :
    zonesFree log2ui p+zoneFreePages log2ui (q.zoneAllocators i) =
      zonesFree log2ui q+zoneFreePages log2ui z := by
  have hsum := sum_replace hi (fun j => zoneFreePages log2ui (q.zoneAllocators j))
    (zoneFreePages log2ui z)
  rw [zonesFree, zonesFree, hcount, hzone, ← hsum, Nat.add_right_cancel_iff]
  apply Finset.sum_congr rfl
  intro j _
  by_cases hji : j = i
  · rw [hji, Function.update_self, Function.update_self]
  · rw [Function.update_of_ne hji, Function.update_of_ne hji]

/-- A zone that serves a request has that many pages fewer free. -/
theorem zone_take (hS : ZoneSession log2ui h i s live) (hlog : Log2Contract log2ui) {count : ℕ}
    (hc : count < 2^32) (hr : allocPages (buddy log2ui) s (pageCount count) = r) (hne : r.1 ≠ 0) :
    2^((buddy log2ui).depth-(buddy log2ui).requestLevel count) = pageCount count ∧
    (freePageSet (buddy log2ui) r.2).ncard+pageCount count =
      (freePageSet (buddy log2ui) s).ncard := by
  obtain ⟨A, hA⟩ := hS
  have hpc : pageCount count < 2^32 := Nat.mod_lt _ (by decide)
  obtain ⟨hsize, hcount⟩ := alloc_count hlog hA.inv hpc (by rw [hr]; exact hne)
  rw [requestLevel_pageCount hc, pageCount_pageCount hc] at hsize
  rw [pageCount_pageCount hc, hr] at hcount
  exact ⟨hsize, hcount⟩

theorem zone_give (hS : ZoneSession log2ui h i s live) (hlog : Log2Contract log2ui)
    (hW : Windows log2ui h priorLow) (hi : i < h.totalAllocators) {b : ℕ × ℕ} (hb : b ∈ live)
    (hidx : ¬ b.1 < lowLimit ∧ allocIdx b.1 = i)
    (hsize : 2^((buddy log2ui).depth-(buddy log2ui).requestLevel b.2) = pageCount b.2)
    (hr : freePages (buddy log2ui) s b.1 ((buddy log2ui).requestLevel b.2) = r)
    (h1 : r.1 = kernelSuccess) : (freePageSet (buddy log2ui) r.2).ncard =
      (freePageSet (buddy log2ui) s).ncard+pageCount b.2 := by
  obtain ⟨A, hA⟩ := hS
  have hm : (⟨b.1, (buddy log2ui).requestLevel b.2⟩ : Block) ∈
      blocksOf (buddy log2ui) (zoneLive i live) :=
    List.mem_map_of_mem (f := fun b => (⟨b.1, (buddy log2ui).requestLevel b.2⟩ : Block))
      (mem_zoneLive.mpr ⟨hb, hidx⟩)
  have hcount := free_count hlog hA (hW.regions hi).word hm (by rw [hr]; exact h1)
  rw [hsize, hr] at hcount
  exact hcount

end Zones

section Steps

variable {log2ui : ℕ → ℕ} {h : Handover} {priorLow : BuddyAllocator} {w w' : Frames} {c : ℕ}

theorem CountersInv.replaceZone (hC : CountersInv log2ui c w) {p : PageFrameAllocator} {i : ℕ}
    {z : ManagedZone} {live' : List (ℕ × ℕ)} (hcount : p.zoneCount = w.pages.zoneCount)
    (hzone : p.zoneAllocators = Function.update w.pages.zoneAllocators i z)
    (htotal : z.total = zoneFreePages log2ui z)
    (hsum : (p.free+p.reserved)%2^64 = (w.pages.free+w.pages.reserved)%2^64)
    (hlive : ∀ b ∈ live', b ∈ w.live ∨
      2^((buddy log2ui).depth-(buddy log2ui).requestLevel b.2) = pageCount b.2) :
    CountersInv log2ui c ⟨p, live'⟩ := by
  refine ⟨?_, hsum.trans hC.constant, ?_⟩
  · intro j hj
    rw [hcount] at hj
    rw [hzone]
    by_cases hji : j = i
    · rw [hji, Function.update_self]
      exact htotal
    · rw [Function.update_of_ne hji]
      exact hC.total j hj
  · intro b hb hhigh
    rcases hlive b hb with hold | hnew
    · exact hC.size b hold hhigh
    · exact hnew

theorem CountersInv.step (hC : CountersInv log2ui c w) (hE : Effect log2ui w w')
    (hF : FramesInv log2ui h priorLow w) (hlog : Log2Contract log2ui)
    (hW : Windows log2ui h priorLow) : CountersInv log2ui c w' := by
  cases hE with
  | refused => exact hC
  | @lowAlloc count r hc hr =>
    obtain ⟨hlt, -⟩ := hF.low.alloc hlog hc hr
    refine ⟨hC.total, hC.constant, ?_⟩
    intro b hb hhigh
    by_cases h0 : r.1 = 0
    · rw [given, if_pos h0] at hb
      exact hC.size b hb hhigh
    · rcases mem_given hb with rfl | hb
      · exact absurd (hlt h0) hhigh
      · exact hC.size b hb hhigh
  | @zoneAlloc i count r hi hc hr h0 =>
    have hS := hF.zone i (hF.zoneCount ▸ hi)
    obtain ⟨hsize, hcount⟩ := zone_take hS hlog hc hr h0
    obtain ⟨hn, -, hz⟩ := reserved_zone w.pages i (pageCount count*2^12)
      ((((w.pages.zoneAllocators i).setManager r.2).setCounters
        (sub64 (w.pages.zoneAllocators i).total (pageCount count))
        (maxBlockReq (buddy log2ui) r.2/2^12)).setUsing false)
    have hpc : pageCount count < 2^32 := Nat.mod_lt _ (by decide)
    refine hC.replaceZone hn hz ?_ ?_ ?_
    · have hold := hC.total i hi
      have hle := zoneFreePages_le log2ui (w.pages.zoneAllocators i)
      rw [zoneFreePages] at hold hle
      rw [zoneFreePages, setUsing_total, setCounters_total, setUsing_manager, setCounters_manager,
        setManager_manager, hold]
      have hsub := sub64_add (a := (freePageSet (buddy log2ui)
        (w.pages.zoneAllocators i).manager).ncard) (n := pageCount count) (by omega) (by omega)
      omega
    · rw [setZone_free, setZone_reserved]
      exact reserve_sum w.pages (by omega)
    · intro b hb
      rcases mem_given hb with rfl | hb
      · exact Or.inr hsize
      · exact Or.inl hb
  | @lowFree b r hb hlow hr h1 =>
    have hpc : pageCount b.2 < 2^32 := Nat.mod_lt _ (by decide)
    refine ⟨hC.total, ?_, fun b' hb' => hC.size b' (List.mem_of_mem_erase hb')⟩
    rw [release_sum _ (by omega), setLow_free, setLow_reserved]
    exact hC.constant
  | @zoneFree b r hb hlow hr h1 =>
    have hi := hF.indices b hb hlow
    have hcount := zone_give (hF.zone _ hi) hlog hW hi hb ⟨hlow, rfl⟩ (hC.size b hb hlow) hr h1
    have hpc : pageCount b.2 < 2^32 := Nat.mod_lt _ (by decide)
    refine hC.replaceZone rfl rfl ?_ ?_ (fun b' hb' => Or.inl (List.mem_of_mem_erase hb'))
    · have hold := hC.total _ (hF.zoneCount ▸ hi)
      have hle := freePageSet_le (buddy log2ui) r.2
      have hdepth : (buddy log2ui).depth = 16 := rfl
      rw [hdepth] at hle
      rw [zoneFreePages] at hold
      rw [zoneFreePages, setUsing_total, setCounters_total, setUsing_manager, setCounters_manager,
        setManager_manager, hold, hcount]
      rw [hcount] at hle
      omega
    · rw [release_sum _ (by omega), setZone_free, setZone_reserved]

end Steps

section Idle

variable {log2ui : ℕ → ℕ} {h : Handover} {priorLow s : BuddyAllocator} {w w' : Frames} {c : ℕ}
  {live : List (ℕ × ℕ)}

/-- With no page given to it the low allocator has none free. -/
theorem LowSession.empty (hS : LowSession log2ui h priorLow s live)
    (h0 : markedPages (buddyLow log2ui) priorLow 0 h.lowMemZones = ∅) :
    freePageSet (buddyLow log2ui) s = ∅ := by
  obtain ⟨A, hA⟩ := hS
  apply Set.eq_empty_of_forall_notMem
  intro p hp
  have hmarked := ((freePage_iff hA.inv p).mp hp).1
  rw [h0] at hmarked
  exact hmarked

theorem low_untouched {z : ManagedZone} (hz : z.isusing = false) :
    (z.setManager z.manager).setUsing false = z := by
  unfold ManagedZone.setUsing ManagedZone.setManager
  rw [← hz]

theorem LowIdle.step {low : ManagedZone} (hI : LowIdle log2ui low w) (hE : Effect log2ui w w')
    (hF : FramesInv log2ui h priorLow w) (hC : CountersInv log2ui c w)
    (hlog : Log2Contract log2ui) (hW : Windows log2ui h priorLow)
    (h0 : markedPages (buddyLow log2ui) priorLow 0 h.lowMemZones = ∅) :
    LowIdle log2ui low w' := by
  have hn : w.pages.zoneCount < 2^16 := by
    rw [hF.zoneCount]
    exact hW.allocators
  have hlt := zonesFree_lt log2ui hn
  cases hE with
  | refused => exact hI
  | @lowAlloc count r hc hr =>
    -- The request finds nothing, so neither the allocator nor the list changes.
    obtain ⟨A, hA⟩ := hF.low
    have hpc : pageCount count < 2^32 := Nat.mod_lt _ (by decide)
    have hnone := alloc_nothing hlog hA.inv (LowSession.empty hF.low h0) hpc
    rw [hr] at hnone
    rw [hnone, low_untouched hF.flags.low, given, if_pos rfl]
    exact hI
  | @zoneAlloc i count r hi hc hr hne =>
    have hS := hF.zone i (hF.zoneCount ▸ hi)
    obtain ⟨-, hcount⟩ := zone_take hS hlog hc hr hne
    obtain ⟨hidx, -⟩ := hS.alloc hlog hW (hF.zoneCount ▸ hi) hc hr
    generalize hz : ((((w.pages.zoneAllocators i).setManager r.2).setCounters
      (sub64 (w.pages.zoneAllocators i).total (pageCount count))
      (maxBlockReq (buddy log2ui) r.2/2^12)).setUsing false) = z
    have hm : z.manager = r.2 := by
      rw [← hz, setUsing_manager, setCounters_manager, setManager_manager]
    obtain ⟨hzn, hzl, hzz⟩ := reserved_zone w.pages i (pageCount count*2^12) z
    have hsum := zonesFree_replace log2ui hzn hzz hi
    rw [zoneFreePages, zoneFreePages, hm, ← hcount] at hsum
    refine ⟨hzl.trans hI.low, ?_, ?_⟩
    · intro b hb
      rcases mem_given hb with rfl | hb
      · exact (hidx hne).1
      · exact hI.high b hb
    · have hsub : sub64 w.pages.free (pageCount count*2^12)+pageCount count*2^12 = w.pages.free :=
        sub64_add (by rw [hI.free]; omega) (by rw [hI.free]; omega)
      rw [hI.free] at hsub
      have hfree : (setZone (reserveBytes w.pages (pageCount count*2^12)) i z).free =
          sub64 (2^12*zonesFree log2ui w.pages) (pageCount count*2^12) := by
        rw [← hI.free]
        rfl
      dsimp only
      rw [hfree]
      omega
  | @lowFree b r hb hlow hr h1 => exact absurd hlow (hI.high b hb)
  | @zoneFree b r hb hlow hr h1 =>
    have hi := hF.indices b hb hlow
    have hcount := zone_give (hF.zone _ hi) hlog hW hi hb ⟨hlow, rfl⟩ (hC.size b hb hlow) hr h1
    generalize hz : ((((w.pages.zoneAllocators (allocIdx b.1)).setManager r.2).setCounters
      (((w.pages.zoneAllocators (allocIdx b.1)).total+pageCount b.2)%2^64)
      (maxBlockReq (buddy log2ui) r.2/2^12)).setUsing false) = z
    have hm : z.manager = r.2 := by
      rw [← hz, setUsing_manager, setCounters_manager, setManager_manager]
    have hsum := zonesFree_replace log2ui (q := w.pages) (z := z) (p := releaseBytes (setZone
      w.pages (allocIdx b.1) z) (pageCount b.2*2^12)) rfl rfl (hF.zoneCount ▸ hi)
    rw [zoneFreePages, zoneFreePages, hm, hcount] at hsum
    have hpc : pageCount b.2 < 2^32 := Nat.mod_lt _ (by decide)
    refine ⟨hI.low, fun b' hb' => hI.high b' (List.mem_of_mem_erase hb'), ?_⟩
    dsimp only
    have hfree : (releaseBytes (setZone w.pages (allocIdx b.1) z) (pageCount b.2*2^12)).free =
        (w.pages.free+pageCount b.2*2^12)%2^64 := rfl
    rw [hfree, hI.free]
    omega

end Idle

section Opening

variable {log2ui : ℕ → ℕ} {h : Handover} {prior : ℕ → BuddyAllocator} {priorLow : BuddyAllocator}
  {w : Frames}

theorem initZone_total (prior : BuddyAllocator) (i : ℕ) : (initZone log2ui h prior i).total =
    freeMemorySize (buddy log2ui) (initZone log2ui h prior i).manager/2^12 := by
  unfold initZone
  simp -implicitDefEqProofs only

theorem initLow_total (prior : BuddyAllocator) : (initLow log2ui h prior).total =
    freeMemorySize (buddyLow log2ui) (initLow log2ui h prior).manager/2^12%2^16 := by
  unfold initLow
  simp -implicitDefEqProofs only

theorem initLow_max (prior : BuddyAllocator) : (initLow log2ui h prior).maxMemReq =
    maxBlockReq (buddyLow log2ui) (initLow log2ui h prior).manager/2^12%2^16 := by
  unfold initLow
  simp -implicitDefEqProofs only

theorem maxBlockReq_le (B : Build) (s : BuddyAllocator) : maxBlockReq B s/2^12 ≤ 2^B.depth := by
  rcases maxBlockReq_cases B s with ⟨h0, -⟩ | ⟨m, -, hmax, -⟩
  · rw [h0]
    exact Nat.zero_le _
  · rw [hmax, show 4096 = 2^12 from rfl, Nat.mul_div_cancel _ (by decide)]
    exact Nat.pow_le_pow_right (by decide) (Nat.sub_le _ _)

/-- The low allocator has at most 1024 pages, so 16 bits hold its counters. -/
theorem initLow_counted (hS : LowSession log2ui h priorLow (initLow log2ui h priorLow).manager []) :
    ZoneCounted (buddyLow log2ui) (initLow log2ui h priorLow) := by
  obtain ⟨A, hA⟩ := hS
  have hdepth : (buddyLow log2ui).depth = 10 := rfl
  refine ⟨?_, ?_⟩
  · have hle := freePageSet_le (buddyLow log2ui) (initLow log2ui h priorLow).manager
    have hbytes := freeMemorySize_eq hA.inv
    dsimp only at hbytes
    rw [hdepth] at hle
    rw [initLow_total, hbytes]
    omega
  · have hle := maxBlockReq_le (buddyLow log2ui) (initLow log2ui h priorLow).manager
    rw [hdepth] at hle
    rw [initLow_max, Nat.mod_eq_of_lt (by omega)]
    exact largest_max hA.inv

theorem open_low (log2ui : ℕ → ℕ) (h : Handover) (prior : ℕ → BuddyAllocator)
    (priorLow : BuddyAllocator) : (openFrames log2ui h prior priorLow).pages.lowZoneAllocator =
      initLow log2ui h priorLow := rfl

theorem open_zone (log2ui : ℕ → ℕ) (h : Handover) (prior : ℕ → BuddyAllocator)
    (priorLow : BuddyAllocator) (i : ℕ) :
    (openFrames log2ui h prior priorLow).pages.zoneAllocators i =
      initZone log2ui h (prior i) i := rfl

theorem open_total (prior : BuddyAllocator) (hlog : Log2Contract log2ui)
    (hW : Windows log2ui h priorLow) {i : ℕ} (hi : i < h.totalAllocators) :
    (initZone log2ui h prior i).total = zoneFreePages log2ui (initZone log2ui h prior i) := by
  have hinv : FramesInv log2ui h priorLow (openFrames log2ui h (fun _ => prior) priorLow) :=
    open_inv hlog hW
  obtain ⟨A, hA⟩ := hinv.zone i hi
  have hbytes := freeMemorySize_eq hA.inv
  rw [open_zone] at hbytes
  dsimp only at hbytes
  rw [initZone_total, zoneFreePages, hbytes]
  omega

/-- The sum over the zones that `pfa_init` forms. -/
theorem sumZones_eq {zone : ℕ → ManagedZone} {n : ℕ} (hn : n < 2^16)
    (ht : ∀ i < n, (zone i).total = zoneFreePages log2ui (zone i)) :
    sumZones zone n = 2^12*∑ i ∈ Finset.range n, zoneFreePages log2ui (zone i) := by
  have hloop := range_loop (fun free i => (free+(zone i).total*2^12%2^64)%2^64)
    (fun k free => free = 2^12*∑ i ∈ Finset.range k, zoneFreePages log2ui (zone i) ∧
      ∑ i ∈ Finset.range k, zoneFreePages log2ui (zone i) ≤ k*2^16) n 0 (by simp) (by
      rintro k hk free ⟨rfl, hle⟩
      have hone := zoneFreePages_le log2ui (zone k)
      rw [ht k hk, Finset.sum_range_succ]
      constructor
      · omega
      · omega)
  exact hloop.1

/-- The low pages are added where the bytes are counted. -/
theorem open_free (hlog : Log2Contract log2ui) (hW : Windows log2ui h priorLow) :
    (openFrames log2ui h prior priorLow).pages.free =
      2^12*zonesFree log2ui (openFrames log2ui h prior priorLow).pages+
        (freePageSet (buddyLow log2ui) (initLow log2ui h priorLow).manager).ncard := by
  have hinv : FramesInv log2ui h priorLow (openFrames log2ui h prior priorLow) := open_inv hlog hW
  have hn := hW.allocators
  have hlow := (initLow_counted (open_low log2ui h prior priorLow ▸ hinv.low)).total
  have hle := freePageSet_le (buddyLow log2ui) (initLow log2ui h priorLow).manager
  have hdepth : (buddyLow log2ui).depth = 10 := rfl
  have hlt := zonesFree_lt log2ui (hinv.zoneCount ▸ hn)
  rw [hdepth] at hle
  have hsum := sumZones_eq hn (fun i hi => open_total (prior i) hlog hW hi)
  have hzones : zonesFree log2ui (openFrames log2ui h prior priorLow).pages =
      ∑ i ∈ Finset.range h.totalAllocators,
        zoneFreePages log2ui (initZone log2ui h (prior i) i) := by
    rw [zonesFree, hinv.zoneCount]
    rfl
  have hfree : (openFrames log2ui h prior priorLow).pages.free =
      (sumZones (fun i => initZone log2ui h (prior i) i) h.totalAllocators+
        (initLow log2ui h priorLow).total)%2^64 := rfl
  rw [hzones] at hlt ⊢
  rw [hfree, hsum, hlow]
  omega

theorem freeBytes_eq (hF : FramesInv log2ui h priorLow w) : freeBytes log2ui w.pages =
    2^12*zonesFree log2ui w.pages+
      2^12*(freePageSet (buddyLow log2ui) w.pages.lowZoneAllocator.manager).ncard := by
  obtain ⟨A, hA⟩ := hF.low
  rw [freeBytes, freeMemorySize_eq hA.inv, zonesFree, Finset.mul_sum]
  congr 1
  apply Finset.sum_congr rfl
  intro i hi
  rw [Finset.mem_range, hF.zoneCount] at hi
  obtain ⟨A', hA'⟩ := hF.zone i hi
  rw [freeMemorySize_eq hA'.inv]
  rfl

/-- At the start the free pages of the low allocator are those marked for it. -/
theorem open_low_pages (hlog : Log2Contract log2ui) (hW : Windows log2ui h priorLow) :
    freePageSet (buddyLow log2ui) (initLow log2ui h priorLow).manager =
      markedPages (buddyLow log2ui) priorLow 0 h.lowMemZones := by
  have hO := regions_opened (B := buddyLow log2ui) hlog (fun _ => 0) (fun _ => 0) hW.tame
    (by decide) hW.low
  rw [← initFreeRegions_eq] at hO
  exact freePageSet_of_tiling hO.tiling

end Opening

/-- What `free` and `reserved` add up to after `pfa_init`. -/
def openedBytes (log2ui : ℕ → ℕ) (h : Handover) (prior : ℕ → BuddyAllocator)
    (priorLow : BuddyAllocator) : ℕ :=
  ((openFrames log2ui h prior priorLow).pages.free+
    (openFrames log2ui h prior priorLow).pages.reserved)%2^64

section Runs

variable {log2ui : ℕ → ℕ} {h : Handover} {prior : ℕ → BuddyAllocator} {priorLow : BuddyAllocator}
  {w : Frames} {c : ℕ}

theorem open_counters (hlog : Log2Contract log2ui) (hW : Windows log2ui h priorLow) :
    CountersInv log2ui (openedBytes log2ui h prior priorLow)
      (openFrames log2ui h prior priorLow) := by
  have hinv : FramesInv log2ui h priorLow (openFrames log2ui h prior priorLow) := open_inv hlog hW
  refine ⟨?_, rfl, ?_⟩
  · intro i hi
    rw [hinv.zoneCount] at hi
    exact open_total (prior i) hlog hW hi
  · intro b hb
    cases hb

theorem open_idle (hlog : Log2Contract log2ui) (hW : Windows log2ui h priorLow)
    (h0 : markedPages (buddyLow log2ui) priorLow 0 h.lowMemZones = ∅) :
    LowIdle log2ui (initLow log2ui h priorLow) (openFrames log2ui h prior priorLow) := by
  refine ⟨rfl, ?_, ?_⟩
  · intro b hb
    cases hb
  · rw [open_free hlog hW, open_low_pages hlog hW, h0, Set.ncard_empty, Nat.add_zero]

/-- In every run `free` and `reserved` add up to the same number, and every normal zone counts
its free pages. -/
theorem frames_counters (hlog : Log2Contract log2ui) (hW : Windows log2ui h priorLow)
    (hw : FramesReachable log2ui (openFrames log2ui h prior priorLow) w) :
    CountersInv log2ui (openedBytes log2ui h prior priorLow) w := by
  refine frames_run hlog hW (open_counters hlog hW) ?_ hw
  intro w w' _ hF hC hE
  exact hC.step hE hF hlog hW

/-- A low allocator that has no page at the start never comes into play. -/
theorem frames_idle (hlog : Log2Contract log2ui) (hW : Windows log2ui h priorLow)
    (h0 : markedPages (buddyLow log2ui) priorLow 0 h.lowMemZones = ∅)
    (hw : FramesReachable log2ui (openFrames log2ui h prior priorLow) w) :
    LowIdle log2ui (initLow log2ui h priorLow) w := by
  refine frames_run hlog hW (open_idle hlog hW h0) ?_ hw
  intro w w' hreach hF hI hE
  exact hI.step hE hF (frames_counters hlog hW hreach) hlog hW h0

theorem accounted_of_idle (hF : FramesInv log2ui h priorLow w) (hC : CountersInv log2ui c w)
    (hI : LowIdle log2ui (initLow log2ui h priorLow) w)
    (hlow : ZoneCounted (buddyLow log2ui) (initLow log2ui h priorLow))
    (h0 : markedPages (buddyLow log2ui) priorLow 0 h.lowMemZones = ∅) :
    Accounted log2ui c w.pages := by
  refine ⟨?_, hC.constant, ?_, ?_⟩
  · rw [hI.free, freeBytes_eq hF, LowSession.empty hF.low h0, Set.ncard_empty, Nat.mul_zero,
      Nat.add_zero]
  · rw [hI.low]
    exact hlow
  · intro i hi
    have hi' : i < h.totalAllocators := hF.zoneCount ▸ hi
    obtain ⟨A, hA⟩ := hF.zone i hi'
    refine ⟨hC.total i hi, ?_⟩
    rw [hF.max i hi']
    exact largest_max hA.inv

/-- Right counters at the start mean that no low page is free. -/
theorem empty_of_accounted (hlog : Log2Contract log2ui) (hW : Windows log2ui h priorLow)
    (hacc : Accounted log2ui c (openFrames log2ui h prior priorLow).pages) :
    markedPages (buddyLow log2ui) priorLow 0 h.lowMemZones = ∅ := by
  have hinv : FramesInv log2ui h priorLow (openFrames log2ui h prior priorLow) := open_inv hlog hW
  have hbytes := hacc.free
  rw [freeBytes_eq hinv, open_free hlog hW, open_low] at hbytes
  rw [← open_low_pages hlog hW, ← Set.ncard_eq_zero (freePageSet_finite _ _)]
  omega

end Runs

/-- In every run all counters are right in every state exactly if the low allocator is given
no page: no low zone, and no stale node below it. -/
theorem accounts_iff (log2ui : ℕ → ℕ) (hlog : Log2Contract log2ui) (h : Handover)
    (prior : ℕ → BuddyAllocator) (priorLow : BuddyAllocator) (hW : Windows log2ui h priorLow) :
    (∃ c, ∀ w, FramesReachable log2ui (openFrames log2ui h prior priorLow) w →
      Accounted log2ui c w.pages) ↔
    markedPages (buddyLow log2ui) priorLow 0 h.lowMemZones = ∅ := by
  constructor
  · rintro ⟨c, hacc⟩
    exact empty_of_accounted hlog hW (hacc _ .start)
  · intro h0
    have hopen : FramesInv log2ui h priorLow (openFrames log2ui h prior priorLow) :=
      open_inv hlog hW
    have hlow := initLow_counted (open_low log2ui h prior priorLow ▸ hopen.low)
    refine ⟨openedBytes log2ui h prior priorLow, fun w hw => ?_⟩
    exact accounted_of_idle (frames_inv hlog hW hw) (frames_counters hlog hW hw)
      (frames_idle hlog hW h0 hw) hlow h0

section Small

/-- One free page below 4 MiB. -/
def lowPageMap : List Descriptor := [⟨7, 0x100000, 1⟩, ⟨7, 0x400000, 32768⟩, ⟨0, 0x8400000, 32768⟩]

def lowPageZones : Handover := ⟨1, [⟨0x507000, 32768⟩], [⟨0x100000, 1⟩]⟩

theorem lowPageMap_zones : pfaInitZones lowPageMap = .ok lowPageZones := by decide +kernel

theorem lowPageZones_windows : Windows Nat.log2 lowPageZones zeroMemory := by
  apply oneZone_windows
  intro z hz
  rw [List.mem_singleton.mp hz]
  exact ⟨by decide, by decide, by decide, by decide⟩

theorem leakZones_unmarked :
    markedPages (buddyLow Nat.log2) zeroMemory 0 leakZones.lowMemZones = ∅ := by
  have hb : Blank (buddyLow Nat.log2) zeroMemory := blank_of_zero _ _ (fun _ _ => rfl)
  rw [markedPages, blank_stale hb, Set.union_empty]
  apply Set.eq_empty_of_forall_notMem
  rintro p ⟨z, hz, -⟩
  cases hz

theorem accounts_leak : ∃ c, ∀ w, FramesReachable Nat.log2
    (openFrames Nat.log2 leakZones (fun _ => zeroMemory) zeroMemory) w →
    Accounted Nat.log2 c w.pages :=
  (accounts_iff Nat.log2 log2_contract leakZones (fun _ => zeroMemory) zeroMemory
    leakZones_windows).mpr leakZones_unmarked

/-- With one low page `pfa_init` adds 1 to the free bytes and not 4096. -/
theorem low_page_miscounted : pfaInitZones lowPageMap = .ok lowPageZones ∧
    ¬ ∃ c, ∀ w, FramesReachable Nat.log2
      (openFrames Nat.log2 lowPageZones (fun _ => zeroMemory) zeroMemory) w →
      Accounted Nat.log2 c w.pages := by
  refine ⟨lowPageMap_zones, ?_⟩
  rintro ⟨c, hacc⟩
  have hempty := empty_of_accounted log2_contract lowPageZones_windows (hacc _ .start)
  have hpage : 0x100 ∈ markedPages (buddyLow Nat.log2) zeroMemory 0 lowPageZones.lowMemZones := by
    refine Or.inl ⟨⟨0x100000, 1⟩, List.mem_singleton.mpr rfl, ?_⟩
    exact ⟨by decide, by decide⟩
  rw [hempty] at hpage
  exact hpage

end Small

end BruhOS.FrameCounters
