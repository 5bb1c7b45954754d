import BruhOS.FrameRuns

/-!
# Whether a request for normal memory is answered

The loop over the zones waits at each of them until its largest block is large
enough. With nobody else running, a wait that does not end at once does not end
at all, so the first zone decides: it serves the request, or the call never
returns, whatever the later zones have free.
-/

set_option autoImplicit false

namespace BruhOS.FrameAnswers
open BruhOS.BlockTree BruhOS.StdMath BruhOS.BuddyMachine BruhOS.BuddyLists BruhOS.BuddyOperations
open BruhOS.BuddyInit BruhOS.BuddyRuns BruhOS.BuddySafety BruhOS.BuddyRegions BruhOS.BuddySummaries
open BruhOS.BuddyFailures BruhOS.PfaInit BruhOS.ZoneLocks BruhOS.PageFrames BruhOS.FrameLocks
open BruhOS.FrameFrees BruhOS.FrameRuns BruhOS.PfaCoverage

/-- The request rounds to nothing, or to more pages than a window has. -/
def Excessive (count : ℕ) : Prop := round2 count = 0 ∨ 65536 < round2 count

instance (count : ℕ) : Decidable (Excessive count) := inferInstanceAs (Decidable (_ ∨ _))

/-- A zone has a free block for the request. -/
def ZoneServes (log2ui : ℕ → ℕ) (p : PageFrameAllocator) (count i : ℕ) : Prop :=
  CanServe (buddy log2ui) (p.zoneAllocators i).manager (round2 count)

/-- The result is a block of free pages, taken from the lowest zone that has one. -/
structure FromLowest (log2ui : ℕ → ℕ) (p : PageFrameAllocator) (count i : ℕ)
    (r : ℕ × PageFrameAllocator) : Prop where
  zone : i < p.zoneCount
  serves : ZoneServes log2ui p count i
  lowest : ∀ j < i, ¬ ZoneServes log2ui p count j
  taken : allocPages (buddy log2ui) (p.zoneAllocators i).manager (round2 count) =
    (r.1, (r.2.zoneAllocators i).manager)
  free : ∀ a, r.1 ≤ a → a < r.1+round2 count*2^12 →
    Free (buddy log2ui) (p.zoneAllocators i).manager a

/-- The call returns, and what it returns is right. -/
structure Answers (log2ui : ℕ → ℕ) (p : PageFrameAllocator) (count type : ℕ) : Prop where
  returns : ∃ fuel r, pfaAllocPages log2ui fuel p count type = some r
  block : ∀ fuel r, pfaAllocPages log2ui fuel p count type = some r → r.1 ≠ 0 →
    ∃ i, FromLowest log2ui p count i r
  null : ∀ fuel r, pfaAllocPages log2ui fuel p count type = some r →
    (r.1 = 0 ↔ Excessive count ∨ ∀ i < p.zoneCount, ¬ ZoneServes log2ui p count i)

section Block

theorem holds_of_size {B : Build} {ptr lvl n a : ℕ} (hsize : B.blockSize lvl = n) (hle : ptr ≤ a)
    (hlt : a < ptr+n) : BlockHolds B ⟨ptr, lvl⟩ a := by
  subst hsize
  exact ⟨hle, hlt⟩

variable {B : Build} {s : BuddyAllocator} {A P : Set ℕ} {start : ℕ}

/-- The pages that an allocation hands out were free. -/
theorem alloc_block_free (hlog : Log2Contract B.log2ui) (hs : start < 2^64)
    (ha : start%2^(B.depth+12) = 0) (h : Inv B s A P) (hst : s.start = start) {count : ℕ}
    (hc : count < 2^32) {r : ℕ × BuddyAllocator} (hr : allocPages B s count = r) (hne : r.1 ≠ 0)
    {a : ℕ} (hb : BlockHolds B ⟨r.1, B.requestLevel count⟩ a) : Free B s a := by
  rcases alloc_found hlog h hc with ⟨heq, -⟩ |
    ⟨m, o, A', hadm, hdeep, hlev, hpage, hreq, hol, -, haddr, -⟩
  · rw [hr] at heq
    rw [heq] at hne
    exact absurd rfl hne
  · rw [hr] at haddr
    have hm : m ≤ B.depth := hdeep.le.trans (requestLevel_spec hlog hc hadm).1
    obtain ⟨hfree, -⟩ := tail_free h hm hdeep.nonempty
    have hblock : blockOf B s o = ⟨r.1, B.requestLevel count⟩ := by
      rw [blockOf, haddr, hreq]
    rw [← hblock, block_holds_iff hlog hs ha hst hol] at hb
    -- The block lies below the free node whose first page is its own.
    have hunder : Under (s.free m) o := by
      have hpo := firstPage_mem B.depth o hol
      have hpf := firstPage_mem B.depth (s.free m) hfree.1
      rw [← hpage] at hpf
      rcases comparable_of_common_page hpf hpo with hu | hu
      · exact hu
      · have hle : level (s.free m) ≤ level o := by
          rw [hlev, hreq]
          exact hdeep.le
        rw [under_eq_of_level hu hle]
        exact under_refl _
    exact ⟨s.free m, hfree, (block_holds_iff hlog hs ha hst hfree.1 a).mpr
      ⟨hb.1, pages_mono hunder hb.2⟩⟩

end Block

section Requests

variable {log2ui : ℕ → ℕ} {h : Handover} {priorLow : BuddyAllocator} {w : Frames} {count type : ℕ}

/-- The check at the entry of `pfa_alloc_pages`. -/
theorem excessive_iff (hc : count < 2^32) :
    Excessive count ↔ pageCount count*2^12 > managedMem ∨ pageCount count = 0 := by
  unfold Excessive managedMem
  rcases Nat.eq_zero_or_pos count with rfl | hpos
  · decide
  have hround := round2_eq_clog count hpos (by omega)
  have hclog : Nat.clog 2 count ≤ 32 := (Nat.clog_le_iff_le_pow (by decide)).mpr hc.le
  rcases hclog.lt_or_eq with hlt | heq
  · have hsmall : 2^Nat.clog 2 count < 2^32 := Nat.pow_lt_pow_right (by decide) hlt
    have hpc : pageCount count = round2 count := by
      rw [pageCount, hround, Nat.mod_eq_of_lt hsmall]
    rw [hpc]
    omega
  · rw [pageCount, hround, heq]
    decide

theorem round2_of_fits (hc : count < 2^32) (hex : ¬ Excessive count) :
    round2 count = pageCount count := by
  rw [excessive_iff hc, not_or] at hex
  exact round2_of_pageCount hc hex.2

theorem allocZone_manager {p : PageFrameAllocator} {i : ℕ} {r : ℕ × BuddyAllocator}
    (hr : allocPages (buddy log2ui) (p.zoneAllocators i).manager count = r) :
    ((allocZone log2ui i count p).2.zoneAllocators i).manager = r.2 := by
  rw [allocZone_eq, hr]
  simp -implicitDefEqProofs only [setZone_zone, Function.update_self, setUsing_manager,
    setCounters_manager, setManager_manager]

theorem taken_pair {z : ℕ × BuddyAllocator} {ptr : ℕ} {m : BuddyAllocator} (hp : ptr = z.1)
    (hm : m = z.2) : z = (ptr, m) := by
  rw [hp, hm]

theorem zone_wait (hF : FramesInv log2ui h priorLow w) (hn : 0 < w.pages.zoneCount) (n : ℕ) :
    ((w.pages.zoneAllocators 0).isusing || decide ((w.pages.zoneAllocators 0).maxMemReq < n)) =
      decide ((w.pages.zoneAllocators 0).maxMemReq < n) := by
  rw [hF.flags.normal 0 hn, Bool.false_or]

/-- With a zone in the allocator the call returns exactly what its first zone gives. -/
theorem alloc_first_iff (hF : FramesInv log2ui h priorLow w) (hlog : Log2Contract log2ui)
    (hW : Windows log2ui h priorLow) (hn : 0 < w.pages.zoneCount) (hc : count < 2^32)
    (hex : ¬ Excessive count) (ht : memLocation type ≠ DMA_LOW) (fuel : ℕ)
    (r : ℕ × PageFrameAllocator) :
    pfaAllocPages log2ui fuel w.pages count type = some r ↔
      0 < fuel ∧ ZoneServes log2ui w.pages count 0 ∧
      r = allocZone log2ui 0 (pageCount count) w.pages := by
  have hok := (excessive_iff hc).not.mp hex
  obtain ⟨n, hn'⟩ : ∃ n, w.pages.zoneCount = n+1 := Nat.exists_eq_succ_of_ne_zero hn.ne'
  have hi : 0 < h.totalAllocators := hF.zoneCount ▸ hn
  obtain ⟨hserve, hmax⟩ := hF.serves_iff hlog hW hi hc hok
  rw [ZoneServes, round2_of_fits hc hex, hmax, pfaAllocPages, if_neg hok, if_neg ht, hn']
  generalize hz : allocPages (buddy log2ui) (w.pages.zoneAllocators 0).manager
    (pageCount count) = z at hserve
  have hne : ¬ (w.pages.zoneAllocators 0).maxMemReq < pageCount count →
      (allocZone log2ui 0 (pageCount count) w.pages).1 ≠ 0 := by
    intro hge
    rw [allocZone_result hz]
    exact hserve.mpr (hmax.mpr hge)
  constructor
  · intro hr
    obtain ⟨hge, heq⟩ := zoneLoop_some hne hr
    refine ⟨Nat.pos_of_ne_zero ?_, hge, heq⟩
    rintro rfl
    rw [zoneLoop] at hr
    cases hr
  · rintro ⟨hfuel, hge, rfl⟩
    obtain ⟨fuel, rfl⟩ := Nat.exists_eq_succ_of_ne_zero hfuel.ne'
    have hwait : ((w.pages.zoneAllocators 0).isusing ||
        decide ((w.pages.zoneAllocators 0).maxMemReq < pageCount count)) = false := by
      rw [zone_wait hF hn, decide_eq_false hge]
    rw [zoneLoop, waitWhile_clear hwait, Option.bind_some]
    exact if_neg (hne hge)

/-- The result of the first zone is its block. -/
theorem first_lowest (hF : FramesInv log2ui h priorLow w) (hlog : Log2Contract log2ui)
    (hW : Windows log2ui h priorLow) (hn : 0 < w.pages.zoneCount) (hc : count < 2^32)
    (hex : ¬ Excessive count) (hserves : ZoneServes log2ui w.pages count 0) :
    (allocZone log2ui 0 (pageCount count) w.pages).1 ≠ 0 ∧
    FromLowest log2ui w.pages count 0 (allocZone log2ui 0 (pageCount count) w.pages) := by
  have hok := (excessive_iff hc).not.mp hex
  have hpc : pageCount count < 2^32 := Nat.mod_lt _ (by decide)
  have hround := round2_of_fits hc hex
  have hi : 0 < h.totalAllocators := hF.zoneCount ▸ hn
  obtain ⟨hserve, -⟩ := hF.serves_iff hlog hW hi hc hok
  obtain ⟨A, hA⟩ := hF.zone 0 hi
  have hreg := hW.regions hi
  generalize hz : allocPages (buddy log2ui) (w.pages.zoneAllocators 0).manager
    (pageCount count) = z at hserve
  have hne : z.1 ≠ 0 := by
    rw [hserve, ← hround]
    exact hserves
  have hresult := allocZone_result hz
  have hsize : (buddy log2ui).blockSize ((buddy log2ui).requestLevel (pageCount count)) =
      round2 count*2^12 := by
    obtain ⟨hlev, hpow⟩ := requestLevel_spec hlog hpc (admitted_window hc hok)
    rw [blockSize_eq hlev, hpow, pageCount_pageCount hc, hround]
  have hmanager := allocZone_manager hz
  have htaken : allocPages (buddy log2ui) (w.pages.zoneAllocators 0).manager (round2 count) = z := by
    rw [hround, hz]
  generalize allocZone log2ui 0 (pageCount count) w.pages = r at hresult hmanager ⊢
  refine ⟨by rw [hresult]; exact hne, hn, hserves, fun j hj => absurd hj (Nat.not_lt_zero j), ?_, ?_⟩
  · exact htaken.trans (taken_pair hresult hmanager)
  · intro a hle hlt
    rw [hresult] at hle hlt
    exact alloc_block_free hlog hreg.word hreg.aligned hA.inv hA.start hpc hz hne
      (holds_of_size hsize hle hlt)

end Requests

section Decision

variable {log2ui : ℕ → ℕ} {h : Handover} {priorLow : BuddyAllocator} {w : Frames} {count type : ℕ}

/-- A request that is answered with null whatever the fuel. -/
theorem null_answers {p : PageFrameAllocator}
    (hout : ∀ fuel, pfaAllocPages log2ui fuel p count type = some (0, p))
    (hnull : Excessive count ∨ ∀ i < p.zoneCount, ¬ ZoneServes log2ui p count i) :
    Answers log2ui p count type := by
  refine ⟨⟨0, _, hout 0⟩, ?_, ?_⟩
  · intro fuel r hr hne
    rw [hout] at hr
    cases hr
    exact absurd rfl hne
  · intro fuel r hr
    rw [hout] at hr
    cases hr
    exact ⟨fun _ => hnull, fun _ => rfl⟩

theorem excessive_answers (log2ui : ℕ → ℕ) (p : PageFrameAllocator) (type : ℕ) (hc : count < 2^32)
    (hex : Excessive count) : Answers log2ui p count type := by
  refine null_answers ?_ (Or.inl hex)
  intro fuel
  rw [pfaAllocPages, if_pos ((excessive_iff hc).mp hex)]

/-- Without a normal zone every request is answered with null. -/
theorem no_zone_answers {p : PageFrameAllocator} (hn : p.zoneCount = 0) (hc : count < 2^32)
    (hex : ¬ Excessive count) (ht : memLocation type ≠ DMA_LOW) : Answers log2ui p count type := by
  refine null_answers ?_ (Or.inr ?_)
  · intro fuel
    rw [pfaAllocPages, if_neg ((excessive_iff hc).not.mp hex), if_neg ht, hn, zoneLoop]
  · intro i hi
    rw [hn] at hi
    exact absurd hi (Nat.not_lt_zero i)

theorem answers_iff_first (hF : FramesInv log2ui h priorLow w) (hlog : Log2Contract log2ui)
    (hW : Windows log2ui h priorLow) (hc : count < 2^32) (ht : memLocation type ≠ DMA_LOW) :
    Answers log2ui w.pages count type ↔
      Excessive count ∨ w.pages.zoneCount = 0 ∨ ZoneServes log2ui w.pages count 0 := by
  by_cases hex : Excessive count
  · exact ⟨fun _ => Or.inl hex, fun _ => excessive_answers log2ui _ type hc hex⟩
  rcases Nat.eq_zero_or_pos w.pages.zoneCount with h0 | hn
  · exact ⟨fun _ => Or.inr (Or.inl h0), fun _ => no_zone_answers h0 hc hex ht⟩
  have hout := alloc_first_iff hF hlog hW hn hc hex ht
  constructor
  · intro hA
    obtain ⟨fuel, r, hr⟩ := hA.returns
    exact Or.inr (Or.inr ((hout fuel r).mp hr).2.1)
  · intro hcase
    have hserves : ZoneServes log2ui w.pages count 0 :=
      (hcase.resolve_left hex).resolve_left hn.ne'
    obtain ⟨hne, hfrom⟩ := first_lowest hF hlog hW hn hc hex hserves
    refine ⟨⟨1, _, (hout 1 _).mpr ⟨Nat.one_pos, hserves, rfl⟩⟩, ?_, ?_⟩
    · intro fuel r hr _
      rw [((hout fuel r).mp hr).2.2]
      exact ⟨0, hfrom⟩
    · intro fuel r hr
      rw [((hout fuel r).mp hr).2.2]
      constructor
      · intro h0
        exact absurd h0 hne
      · rintro (hbad | hnone)
        · exact absurd hbad hex
        · exact absurd hserves (hnone 0 hn)

end Decision

/-- In every reachable state a request for normal memory is answered exactly when it is refused
at the entry, when there is no zone at all, or when the first zone can serve it. -/
theorem answers_iff (log2ui : ℕ → ℕ) (hlog : Log2Contract log2ui) (h : Handover)
    (prior : ℕ → BuddyAllocator) (priorLow : BuddyAllocator) (hW : Windows log2ui h priorLow)
    (w : Frames) (hw : FramesReachable log2ui (openFrames log2ui h prior priorLow) w)
    (count type : ℕ) (hc : count < 2^32) (ht : memLocation type ≠ DMA_LOW) :
    Answers log2ui w.pages count type ↔
      Excessive count ∨ w.pages.zoneCount = 0 ∨ ZoneServes log2ui w.pages count 0 :=
  answers_iff_first (frames_inv hlog hW hw) hlog hW hc ht

section Opened

variable {B : Build} {start : ℕ} {zones : List MemZone}

/-- An allocator that was given a page serves a request for one. -/
theorem open_serves (hlog : Log2Contract B.log2ui) (hr : Regions B start zones)
    {prior : BuddyAllocator} (hb : Blank B prior) {p : ℕ} (hp : p ∈ zonesPages start zones) :
    CanServe B (buddyAllocInitFreeRegions B prior start zones) 1 := by
  obtain ⟨A, hinv, hown, -⟩ := regions_inv hlog prior start zones hb hr.word hr.inside
  obtain ⟨o, ho, -⟩ := (hinv.tiling.cover p).mp hp
  refine ⟨o, ?_, Nat.one_le_two_pow⟩
  by_contra hf
  have hmem : o ∈ owned B (buddyAllocInitFreeRegions B prior start zones) A := ⟨ho, hf⟩
  rw [hown] at hmem
  exact hmem

theorem open_empty (hlog : Log2Contract B.log2ui) (hr : Regions B start [])
    {prior : BuddyAllocator} (hb : Blank B prior) (n : ℕ) :
    ¬ CanServe B (buddyAllocInitFreeRegions B prior start []) n := by
  obtain ⟨A, hinv, -, -⟩ := regions_inv hlog prior start [] hb hr.word hr.inside
  rintro ⟨o, ho, -⟩
  have hpage := hinv.tiling.pages_subset (hinv.free_subset ho) (firstPage_mem B.depth o ho.1)
  obtain ⟨z, hz, -⟩ := hpage
  cases hz

theorem open_manager (log2ui : ℕ → ℕ) (h : Handover) (prior : ℕ → BuddyAllocator)
    (priorLow : BuddyAllocator) (i : ℕ) :
    ((openFrames log2ui h prior priorLow).pages.zoneAllocators i).manager =
      buddyAllocInitFreeRegions (buddy log2ui) (prior i) (managedMem*i) (h.zoneStack i) := rfl

/-- A fresh zone with a page serves a request for one. -/
theorem open_zone_serves {log2ui : ℕ → ℕ} (hlog : Log2Contract log2ui) {h : Handover}
    {prior : ℕ → BuddyAllocator} {priorLow : BuddyAllocator} (hW : Windows log2ui h priorLow)
    {i : ℕ} (hi : i < h.totalAllocators) {p : ℕ}
    (hp : p ∈ zonesPages (managedMem*i) (h.zoneStack i)) :
    ZoneServes log2ui (openFrames log2ui h prior priorLow).pages 1 i := by
  have hround : round2 1 = 1 := by decide
  rw [ZoneServes, open_manager, hround]
  exact open_serves hlog (hW.regions hi) (blank_buddy log2ui (prior i)) hp

end Opened

section Small

/-- The first window is reserved, the second one is free. -/
def laterMap : List Descriptor := [⟨0, 0, 65536⟩, ⟨7, 0x10000000, 65536⟩]

def laterZones : Handover := ⟨2, [⟨0x10208000, 65016⟩, ⟨0x20000000, 520⟩], []⟩

/-- What `pfa_init` derives from `leakMap`. -/
def leakZones : Handover := ⟨1, [⟨0x507000, 32768⟩], []⟩

theorem laterMap_zones : pfaInitZones laterMap = .ok laterZones := by decide +kernel

theorem tame_zero (zones : List MemZone) : Tame (buddyLow Nat.log2) zeroMemory 0 zones :=
  tame_of_blank (blank_of_zero _ _ (fun _ _ => rfl)) 0 zones

theorem laterZones_stacks : laterZones.zoneStack 0 = [] ∧
    laterZones.zoneStack 1 = [⟨0x10208000, 65016⟩] := by decide +kernel

theorem laterZones_windows : Windows Nat.log2 laterZones zeroMemory := by
  refine ⟨by decide, ?_, ?_, ?_, tame_zero _⟩
  · intro i hi z hz
    obtain rfl | rfl : i = 0 ∨ i = 1 := by
      have : i < 2 := hi
      omega
    · rw [laterZones_stacks.1] at hz
      cases hz
    · rw [laterZones_stacks.2, List.mem_singleton] at hz
      rw [hz]
      exact ⟨by decide, by decide, by decide, by decide⟩
  · intro i z hz
    obtain ⟨-, hmem, -⟩ := mem_zoneStack.mp hz
    have hall : ∀ z ∈ laterZones.freeZones, lowLimit ≤ z.mem := by decide
    exact hall z hmem
  · intro z hz
    cases hz

/-- The normal zone of `leakMap` with any low zones beside it. -/
theorem oneZone_windows {low : List MemZone} (hlow : ∀ z ∈ low, ZoneInside (buddyLow Nat.log2) 0 z) :
    Windows Nat.log2 ⟨1, [⟨0x507000, 32768⟩], low⟩ zeroMemory := by
  have hstack : (⟨1, [⟨0x507000, 32768⟩], low⟩ : Handover).zoneStack 0 = [⟨0x507000, 32768⟩] := by
    rw [Handover.zoneStack, if_pos (by decide : 0 < 1)]
    dsimp only
    decide +kernel
  refine ⟨(by decide : 1 < 2^16), ?_, ?_, hlow, tame_zero _⟩
  · intro i hi z hz
    obtain rfl : i = 0 := by
      have : i < 1 := hi
      omega
    rw [hstack, List.mem_singleton] at hz
    rw [hz]
    exact ⟨by decide, by decide, by decide, by decide⟩
  · intro i z hz
    obtain ⟨-, hmem, -⟩ := mem_zoneStack.mp hz
    have hall : ∀ z ∈ [(⟨0x507000, 32768⟩ : MemZone)], lowLimit ≤ z.mem := by decide
    exact hall z hmem

theorem leakZones_windows : Windows Nat.log2 leakZones zeroMemory :=
  oneZone_windows (fun _ hz => absurd hz List.not_mem_nil)

theorem answers_leak :
    Answers Nat.log2 (openFrames Nat.log2 leakZones (fun _ => zeroMemory) zeroMemory).pages 1 1 := by
  have hserves : ZoneServes Nat.log2
      (openFrames Nat.log2 leakZones (fun _ => zeroMemory) zeroMemory).pages 1 0 := by
    apply open_zone_serves (p := 0x507) log2_contract leakZones_windows (by decide)
    refine ⟨⟨0x507000, 32768⟩, ?_, by decide, by decide⟩
    decide +kernel
  exact (answers_iff Nat.log2 log2_contract leakZones (fun _ => zeroMemory) zeroMemory
    leakZones_windows _ .start 1 1 (by decide) (by decide)).mpr (Or.inr (Or.inr hserves))

/-- The first zone of `laterMap` has no page and the second one has; a request never returns. -/
theorem first_zone_blocks : pfaInitZones laterMap = .ok laterZones ∧
    ZoneServes Nat.log2
      (openFrames Nat.log2 laterZones (fun _ => zeroMemory) zeroMemory).pages 1 1 ∧
    ¬ Answers Nat.log2
      (openFrames Nat.log2 laterZones (fun _ => zeroMemory) zeroMemory).pages 1 1 := by
  have hW := laterZones_windows
  refine ⟨laterMap_zones, ?_, ?_⟩
  · apply open_zone_serves (p := 0x208) log2_contract hW (by decide)
    rw [laterZones_stacks.2]
    exact ⟨⟨0x10208000, 65016⟩, List.mem_singleton.mpr rfl, by decide, by decide⟩
  · rw [answers_iff_first (open_inv log2_contract hW) log2_contract hW (by decide) (by decide)]
    rintro (hex | h0 | hserves)
    · exact absurd hex (by decide)
    · have hn : (openFrames Nat.log2 laterZones (fun _ => zeroMemory) zeroMemory).pages.zoneCount =
          laterZones.totalAllocators := (open_inv log2_contract hW).zoneCount
      rw [h0] at hn
      exact absurd hn (by decide)
    · rw [ZoneServes, open_manager, laterZones_stacks.1] at hserves
      have hr := hW.regions (i := 0) (by decide)
      rw [laterZones_stacks.1] at hr
      exact open_empty log2_contract hr (blank_buddy Nat.log2 zeroMemory) _ hserves

end Small

end BruhOS.FrameAnswers
