import BruhOS.BuddySummaries
import BruhOS.PageFrames

/-!
# What a failed allocation leaves behind

An allocation that finds no block changes nothing. One that finds the block at
address zero returns the same null pointer, but the block is off its list and
nobody holds it. This happens in exactly the states in which the tail of the
list that the search stops at has that address.
-/

set_option autoImplicit false

namespace BruhOS.BuddyFailures
open BruhOS.BlockTree BruhOS.StdMath BruhOS.BuddyMachine BruhOS.BuddyLists BruhOS.BuddyOperations
open BruhOS.BuddyInit BruhOS.BuddyRuns BruhOS.BuddySafety BruhOS.BuddyRegions BruhOS.BuddySummaries
open BruhOS.PfaInit BruhOS.ZoneLocks BruhOS.PageFrames

/-- The block that serves the request starts at address zero. -/
def TakesNull (B : Build) (s : BuddyAllocator) (count : ℕ) : Prop :=
  Admitted B count ∧ ∃ m, Deepest s (B.requestLevel count) m ∧ getAddress B s (s.free m) = 0

def NoLeak (B : Build) (s : BuddyAllocator) (count : ℕ) : Prop :=
  (allocPages B s count).1 = 0 → (allocPages B s count).2 = s

section Failure

variable {B : Build} {s : BuddyAllocator} {A P : Set ℕ}

theorem deepest_unique {lvl m k : ℕ} (h : Deepest s lvl m) (h' : Deepest s lvl k) : m = k := by
  rcases Nat.lt_trichotomy m k with hlt | heq | hgt
  · exact absurd (h.above k hlt h'.le) h'.nonempty
  · exact heq
  · exact absurd (h'.above m hgt h.le) h.nonempty

/-- A block that was handed out is not in the tiling of the same state without it. -/
theorem owned_changes {s' : BuddyAllocator} {A' : Set ℕ} {o : ℕ} (h : Inv B s A P)
    (h' : Inv B s' A' P) (hown : owned B s' A' = insert o (owned B s A))
    (ho : o ∉ owned B s A) : s' ≠ s := by
  rintro rfl
  have hoA' : o ∈ owned B s' A' := by
    rw [hown]
    exact Set.mem_insert o _
  -- `A'` is `A` with one more tile, but the first page of that tile has a tile in `A` already.
  have hsub : A ⊆ A' := by
    intro a ha
    by_cases hf : a ∈ freeNodes B s'
    · exact h'.free_subset hf
    · have : a ∈ owned B s' A' := hown ▸ Set.mem_insert_of_mem o ⟨ha, hf⟩
      exact this.1
  have hpage := firstPage_mem B.depth o (h'.tiling.bound o hoA'.1)
  obtain ⟨a, ha, hpa⟩ := (h.tiling.cover _).mp (h'.tiling.pages_subset hoA'.1 hpage)
  have heq := h'.tiling.disjoint (hsub ha) hoA'.1 hpa hpage
  exact ho ⟨heq ▸ ha, hoA'.2⟩

theorem noLeak_iff (hlog : Log2Contract B.log2ui) (h : Inv B s A P) {count : ℕ}
    (hc : count < 2^32) : NoLeak B s count ↔ ¬ TakesNull B s count := by
  rcases alloc_found hlog h hc with ⟨heq, hnone⟩ |
    ⟨m, o, A', hadm, hdeep, hlev, hpage, -, hol, -, haddr, -, hinv, hown, ho⟩
  · constructor
    · rintro - ⟨hadm, m, hdeep, -⟩
      exact hdeep.nonempty (hnone hadm m hdeep.le)
    · rintro - -
      rw [heq]
  · have hnull : (allocPages B s count).1 = getAddress B s (s.free m) := by
      have hm : level (s.free m) ≤ B.depth := by
        have := hdeep.le
        have := (requestLevel_spec hlog hc hadm).1
        omega
      rw [haddr, getAddress_eq hlog hol, getAddress_eq hlog hm, hpage]
    have hne := owned_changes h hinv hown ho
    constructor
    · rintro hleak ⟨-, k, hk, h0⟩
      rw [deepest_unique hk hdeep, ← hnull] at h0
      exact hne (hleak h0)
    · intro htake h0
      exact absurd ⟨hadm, m, hdeep, hnull ▸ h0⟩ htake

/-- The tail of a list with a block is a free node of its level. -/
theorem tail_free (h : Inv B s A P) {m : ℕ} (hm : m ≤ B.depth) (hne : s.size m ≠ 0) :
    s.free m ∈ freeNodes B s ∧ level (s.free m) = m := by
  obtain ⟨F, hR⟩ := h.rep
  rcases List.eq_nil_or_concat (F m) with hF | ⟨xs, f, hF⟩
  · exact absurd ((hR.size_eq_zero_iff hm).mpr hF) hne
  · rw [List.concat_eq_append] at hF
    obtain ⟨htail, -, hlev⟩ := hR.last_of_size hm hF
    rw [htail]
    exact ⟨hR.free_of_mem hm (by simp [hF]), hlev⟩

/-- No block of a session over regions without page zero is at address zero. -/
theorem not_takesNull (hlog : Log2Contract B.log2ui) {start : ℕ} {zones : List MemZone}
    (hr : Regions B start zones) {w : Session}
    (h : SessionInv B start (zonesPages start zones) A w) {count : ℕ} (hc : count < 2^32) :
    ¬ TakesNull B w.mman count := by
  rintro ⟨hadm, m, hdeep, h0⟩
  have hm : m ≤ B.depth := hdeep.le.trans (requestLevel_spec hlog hc hadm).1
  obtain ⟨hfree, -⟩ := tail_free h.inv hm hdeep.nonempty
  exact address_ne_null hlog hr.word hr.aligned hr.inside hr.nonnull w.mman h.start _ hfree.1
    (h.inv.tiling.pages_subset (h.inv.free_subset hfree)) h0

end Failure

section Frames

variable {log2ui : ℕ → ℕ}

theorem pageCount_pageCount {count : ℕ} (hc : count < 2^32) :
    pageCount (pageCount count) = pageCount count := by
  rcases pageCount_cases count hc with h0 | ⟨-, -, hp, hle⟩
  · rw [h0]
    decide
  · have hlt : 2^(Nat.clog 2 count) < 2^32 := Nat.pow_lt_pow_right (by decide) (by omega)
    rw [hp, pageCount, round2_eq_clog _ (by positivity) (by omega), Nat.clog_pow 2 _ (by decide),
      Nat.mod_eq_of_lt hlt]

/-- The low allocator refuses what `pfa_alloc_pages` refuses. -/
theorem not_admitted_of_refused {count : ℕ} (hc : count < 2^32)
    (h : pageCount count*2^12 > managedMem ∨ pageCount count = 0) :
    ¬ Admitted (buddyLow log2ui) (pageCount count) := by
  intro hadm
  apply hadm
  rw [pageCount_pageCount hc]
  rcases h with hbig | h0
  · left
    have hdepth : (buddyLow log2ui).depth = 10 := rfl
    unfold managedMem at hbig
    rw [hdepth]
    omega
  · exact Or.inr h0

theorem setLow_unchanged {p : PageFrameAllocator} (hp : p.lowZoneAllocator.isusing = false)
    (m : BuddyAllocator) :
    setLow p ((p.lowZoneAllocator.setManager m).setUsing false) = p ↔
      m = p.lowZoneAllocator.manager := by
  constructor
  · intro heq
    have := congrArg (fun q => q.lowZoneAllocator.manager) heq
    exact this
  · rintro rfl
    have hz : (p.lowZoneAllocator.setManager p.lowZoneAllocator.manager).setUsing false =
        p.lowZoneAllocator := by
      rw [← hp]
      rfl
    rw [hz]
    rfl

theorem pfaAllocPages_low {p : PageFrameAllocator} (hp : p.lowZoneAllocator.isusing = false)
    {count type : ℕ} (ht : memLocation type = DMA_LOW)
    (hok : ¬ (pageCount count*2^12 > managedMem ∨ pageCount count = 0)) {r : ℕ × BuddyAllocator}
    (hr : allocPages (buddyLow log2ui) p.lowZoneAllocator.manager (pageCount count) = r)
    (fuel : ℕ) : pfaAllocPages log2ui (fuel+1) p count type =
      some (r.1, setLow p ((p.lowZoneAllocator.setManager r.2).setUsing false)) := by
  rw [pfaAllocPages, if_neg hok, if_pos ht, waitWhile_clear hp, Option.map_some, allocLow_eq, hr]

/-- A failed low allocation of the page frame allocator changes nothing at all. -/
def NoLowLeak (log2ui : ℕ → ℕ) (p : PageFrameAllocator) (count type : ℕ) : Prop :=
  ∀ fuel r, pfaAllocPages log2ui fuel p count type = some r → r.1 = 0 → r.2 = p

theorem served_low {p : PageFrameAllocator} (hp : p.lowZoneAllocator.isusing = false)
    {count type : ℕ} (ht : memLocation type = DMA_LOW)
    (hok : ¬ (pageCount count*2^12 > managedMem ∨ pageCount count = 0)) {r : ℕ × BuddyAllocator}
    (hr : allocPages (buddyLow log2ui) p.lowZoneAllocator.manager (pageCount count) = r) :
    NoLowLeak log2ui p count type ↔ (r.1 = 0 → r.2 = p.lowZoneAllocator.manager) := by
  have hserve := pfaAllocPages_low hp ht hok hr
  constructor
  · intro hleak h0
    exact (setLow_unchanged hp _).mp (hleak 1 _ (hserve 0) h0)
  · intro hleak fuel out hout h0
    cases fuel with
    | zero =>
      rw [pfaAllocPages, if_neg hok, if_pos ht] at hout
      cases hout
    | succ fuel =>
      rw [hserve] at hout
      cases hout
      exact (setLow_unchanged hp _).mpr (hleak h0)

theorem noLowLeak_iff (hlog : Log2Contract log2ui) {p : PageFrameAllocator} {A P : Set ℕ}
    (h : Inv (buddyLow log2ui) p.lowZoneAllocator.manager A P)
    (hp : p.lowZoneAllocator.isusing = false) {count type : ℕ} (hc : count < 2^32)
    (ht : memLocation type = DMA_LOW) : NoLowLeak log2ui p count type ↔
      ¬ TakesNull (buddyLow log2ui) p.lowZoneAllocator.manager (pageCount count) := by
  have hpc : pageCount count < 2^32 := Nat.mod_lt _ (by decide)
  by_cases hbad : pageCount count*2^12 > managedMem ∨ pageCount count = 0
  · constructor
    · rintro - ⟨hadm, -⟩
      exact not_admitted_of_refused hc hbad hadm
    · rintro - fuel r hr -
      rw [pfaAllocPages, if_pos hbad] at hr
      cases hr
      rfl
  · rw [← noLeak_iff hlog h hpc, NoLeak]
    exact served_low hp ht hbad rfl

end Frames

/-- In every state of every run a failed allocation changes nothing, unless the block it took was
the one at address zero; `pfa_alloc_pages` hands the failures of the low allocator on. -/
theorem failure_unchanged_iff (log2ui : ℕ → ℕ) (hlog : Log2Contract log2ui) :
    (∀ prior start zones w, start < 2^64 → (∀ z ∈ zones, ZoneInside (buddy log2ui) start z) →
      Reachable (buddy log2ui) (openSession (buddy log2ui) prior start zones) w →
      ∀ count < 2^32, NoLeak (buddy log2ui) w.mman count ↔
        ¬ TakesNull (buddy log2ui) w.mman count) ∧
    (∀ prior zones w, Tame (buddyLow log2ui) prior 0 zones →
      (∀ z ∈ zones, ZoneInside (buddyLow log2ui) 0 z) →
      Reachable (buddyLow log2ui) (openSession (buddyLow log2ui) prior 0 zones) w →
      (∀ count < 2^32, NoLeak (buddyLow log2ui) w.mman count ↔
        ¬ TakesNull (buddyLow log2ui) w.mman count) ∧
      ∀ p : PageFrameAllocator, p.lowZoneAllocator.manager = w.mman →
        p.lowZoneAllocator.isusing = false →
        ∀ count < 2^32, ∀ type, memLocation type = DMA_LOW →
          (NoLowLeak log2ui p count type ↔
            ¬ TakesNull (buddyLow log2ui) w.mman (pageCount count))) := by
  constructor
  · intro prior start zones w hs hz hw count hc
    obtain ⟨A, hA⟩ := tame_run hlog (tame_of_blank (blank_buddy log2ui prior) start zones) hs hz hw
    exact noLeak_iff hlog hA.inv hc
  · intro prior zones w ht hz hw
    obtain ⟨A, hA⟩ := tame_run hlog ht (by decide) hz hw
    refine ⟨fun count hc => noLeak_iff hlog hA.inv hc, ?_⟩
    rintro p hp hfree count hc type htype
    rw [← hp]
    exact noLowLeak_iff hlog (hp ▸ hA.inv) hfree hc htype

/-- A request that is too large, in a window at 256 MiB. -/
theorem failure_unchanged_window :
    NoLeak (buddy Nat.log2) (openSession (buddy Nat.log2) zeroMemory 0x10000000
      [⟨0x10000000, 3⟩]).mman 4 := by
  have hr : Regions (buddy Nat.log2) 0x10000000 [⟨0x10000000, 3⟩] := by
    refine ⟨by decide, by decide, ?_, ?_⟩
    · intro z hz
      rw [List.mem_singleton.mp hz]
      exact ⟨by decide, by decide, by decide, by decide⟩
    · rintro ⟨z, hz, hle, -⟩
      rw [List.mem_singleton.mp hz] at hle
      exact absurd hle (by decide)
  obtain ⟨A, hA, -⟩ := open_exact log2_contract hr (blank_buddy Nat.log2 zeroMemory)
  exact ((failure_unchanged_iff Nat.log2 log2_contract).1 _ _ _ _ hr.word hr.inside .start 4
    (by decide)).mpr (not_takesNull log2_contract hr hA (by decide))

theorem page_zero_taken {r : BuddyAllocator} (h : Opened (buddyLow Nat.log2) 0 {0} r) :
    ¬ NoLeak (buddyLow Nat.log2) r 1 := by
  have hinv := h.inv.1
  obtain ⟨hne, hlow⟩ := onlyPages_of_single hinv
    (by rw [freePageSet_of_tiling h.tiling, Set.ncard_singleton])
  obtain ⟨hfree, hlev⟩ := tail_free hinv le_rfl hne
  rw [noLeak_iff log2_contract hinv (by decide), not_not]
  have hreq : (buddyLow Nat.log2).requestLevel 1 = 10 := by decide
  refine ⟨by decide, 10, ⟨hreq.ge, hne, fun j h1 h2 => by omega⟩, ?_⟩
  have hpage := h.tiling.pages_subset hfree (firstPage_mem _ _ hfree.1)
  rw [Set.mem_singleton_iff] at hpage
  have haddr := getAddress_eq (s := r) (B := buddyLow Nat.log2) log2_contract hfree.1
  rw [hpage, h.start] at haddr
  exact haddr

/-- With page zero alone in the low zones, the allocation of a page takes it and returns null. -/
theorem failure_leaks_page_zero :
    ¬ NoLeak (buddyLow Nat.log2) (openSession (buddyLow Nat.log2) zeroMemory 0 [⟨0, 1⟩]).mman 1 := by
  have hz : ∀ z ∈ [(⟨0, 1⟩ : MemZone)], ZoneInside (buddyLow Nat.log2) 0 z := by
    intro z hz
    rw [List.mem_singleton.mp hz]
    exact ⟨by decide, by decide, by decide, by decide⟩
  have hblank : Blank (buddyLow Nat.log2) zeroMemory :=
    blank_of_zero _ _ (fun o _ => rfl)
  have hO := regions_opened (B := buddyLow Nat.log2) log2_contract (fun _ => 0) (fun _ => 0)
    (tame_of_blank hblank 0 _) (by decide) hz
  have hpages : zonesPages 0 [⟨0, 1⟩] = {0} := by
    ext p
    simp only [zonesPages, zonePages, List.mem_singleton, exists_eq_left, Set.mem_ofPred_eq,
      Set.mem_singleton_iff]
    omega
  rw [← initFreeRegions_eq, markedPages, blank_stale hblank, Set.union_empty, hpages] at hO
  exact page_zero_taken hO

end BruhOS.BuddyFailures
