import BruhOS.BuddyRuns

/-!
# Allocation safety and canonical coalescing

Blocks and zones are compared byte by byte. For a region aligned to its size
no block address wraps, and when page zero is not offered none is null. Every
tile handed out is then known to its holder: the bytes held and the bytes free
partition the zones, and the held blocks alone determine the free nodes.
-/

set_option autoImplicit false

namespace BruhOS.BuddySafety
open BruhOS.BlockTree BruhOS.StdMath BruhOS.BuddyMachine BruhOS.BuddyOperations
open BruhOS.BuddyInit BruhOS.BuddyRuns

def BlockHolds (B : Build) (b : Block) (a : ℕ) : Prop :=
  b.ptr ≤ a ∧ a < b.ptr+B.blockSize b.lvl

def ZoneHolds (z : MemZone) (a : ℕ) : Prop := z.mem ≤ a ∧ a < z.mem+z.pages*2^12

instance (z : MemZone) (a : ℕ) : Decidable (ZoneHolds z a) :=
  inferInstanceAs (Decidable (_ ∧ _))

def Offered (zones : List MemZone) (a : ℕ) : Prop := ∃ z ∈ zones, ZoneHolds z a

def Held (B : Build) (w : Session) (a : ℕ) : Prop := ∃ b ∈ w.live, BlockHolds B b a

def Free (B : Build) (s : BuddyAllocator) (a : ℕ) : Prop :=
  ∃ o ∈ freeNodes B s, BlockHolds B (blockOf B s o) a

section Region

variable {B : Build} {start : ℕ} {zones : List MemZone}

theorem region_end (hs : start < 2^64) (ha : start%2^(B.depth+12) = 0) :
    start+2^B.depth*2^12 ≤ 2^64 := by
  have hd := B.depth_le
  have hdvd : 2^(B.depth+12) ∣ 2^64-start := by
    apply Nat.dvd_sub
    · exact pow_dvd_pow 2 (by omega)
    · exact Nat.dvd_of_mod_eq_zero ha
  have hle := Nat.le_of_dvd (by omega) hdvd
  rw [← pow_add]
  omega

theorem region_page (ha : start%2^(B.depth+12) = 0) : start%2^12 = 0 := by
  have hdvd : 2^12 ∣ 2^(B.depth+12) := pow_dvd_pow 2 (by omega)
  exact Nat.mod_eq_zero_of_dvd (hdvd.trans (Nat.dvd_of_mod_eq_zero ha))

theorem blockSize_eq {l : ℕ} (hl : l ≤ B.depth) : B.blockSize l = 2^(B.depth-l)*2^12 := by
  rw [Build.blockSize, ← pow_add]
  congr 1
  omega

/-- In a region that ends inside the address space the address of a block is exact. -/
theorem address_exact (hlog : Log2Contract B.log2ui) (he : start+2^B.depth*2^12 ≤ 2^64)
    {s : BuddyAllocator} (h : s.start = start) {o : ℕ} (ho : level o ≤ B.depth) :
    getAddress B s o = start+firstPage B.depth o*2^12 := by
  have h2 := firstPage_lt ho
  have hpos : 0 < 2^(B.depth-level o) := by positivity
  rw [getAddress_eq hlog ho, h]
  omega

theorem block_address (hlog : Log2Contract B.log2ui) (hs : start < 2^64)
    (ha : start%2^(B.depth+12) = 0) {s : BuddyAllocator} (h : s.start = start) {o : ℕ}
    (ho : level o ≤ B.depth) : getAddress B s o = start+firstPage B.depth o*2^12 :=
  address_exact hlog (region_end hs ha) h ho

theorem block_aligned (hlog : Log2Contract B.log2ui) (hs : start < 2^64)
    (ha : start%2^(B.depth+12) = 0) {s : BuddyAllocator} (h : s.start = start) {o : ℕ}
    (ho : level o ≤ B.depth) : B.blockSize (level o) ∣ getAddress B s o := by
  rw [block_address hlog hs ha h ho]
  apply Nat.dvd_add
  · have hdvd : B.blockSize (level o) ∣ 2^(B.depth+12) := pow_dvd_pow 2 (by omega)
    exact hdvd.trans (Nat.dvd_of_mod_eq_zero ha)
  · rw [blockSize_eq ho, firstPage, Nat.mul_assoc]
    exact Dvd.intro_left _ rfl

theorem exact_holds_iff (hlog : Log2Contract B.log2ui) (he : start+2^B.depth*2^12 ≤ 2^64)
    {s : BuddyAllocator} (h : s.start = start) {o : ℕ} (ho : level o ≤ B.depth) (a : ℕ) :
    BlockHolds B (blockOf B s o) a ↔ start ≤ a ∧ (a-start)/2^12 ∈ pages B.depth o := by
  simp only [mem_pages_iff _ _ _ ho, BlockHolds, blockOf, address_exact hlog he h ho,
    blockSize_eq ho]
  omega

theorem block_holds_iff (hlog : Log2Contract B.log2ui) (hs : start < 2^64)
    (ha : start%2^(B.depth+12) = 0) {s : BuddyAllocator} (h : s.start = start) {o : ℕ}
    (ho : level o ≤ B.depth) (a : ℕ) :
    BlockHolds B (blockOf B s o) a ↔ start ≤ a ∧ (a-start)/2^12 ∈ pages B.depth o :=
  exact_holds_iff hlog (region_end hs ha) h ho a

theorem zone_holds_iff (h1 : start%2^12 = 0) {z : MemZone} (hz : ZoneInside B start z)
    (a : ℕ) : ZoneHolds z a ↔ start ≤ a ∧ (a-start)/2^12 ∈ zonePages start z := by
  have h2 := hz.aligned
  have h3 := hz.lower
  rw [ZoneHolds, zonePages, Set.mem_ofPred_eq]
  omega

theorem offered_page_iff (ha : start%2^12 = 0) (hz : ∀ z ∈ zones, ZoneInside B start z)
    (a : ℕ) : Offered zones a ↔ start ≤ a ∧ (a-start)/2^12 ∈ zonesPages start zones := by
  constructor
  · rintro ⟨z, hm, hza⟩
    obtain ⟨h1, h2⟩ := (zone_holds_iff ha (hz z hm) a).mp hza
    exact ⟨h1, z, hm, h2⟩
  · rintro ⟨h1, z, hm, h2⟩
    exact ⟨z, hm, (zone_holds_iff ha (hz z hm) a).mpr ⟨h1, h2⟩⟩

theorem offered_iff (ha : start%2^(B.depth+12) = 0) (hz : ∀ z ∈ zones, ZoneInside B start z)
    (a : ℕ) : Offered zones a ↔ start ≤ a ∧ (a-start)/2^12 ∈ zonesPages start zones :=
  offered_page_iff (region_page ha) hz a

/-- Page zero is not offered, so no offered block has the null address. -/
theorem address_ne_null (hlog : Log2Contract B.log2ui) (hs : start < 2^64)
    (ha : start%2^(B.depth+12) = 0) (hz : ∀ z ∈ zones, ZoneInside B start z)
    (h0 : ¬ Offered zones 0) (s : BuddyAllocator) (h : s.start = start) (o : ℕ)
    (ho : level o ≤ B.depth) (hP : pages B.depth o ⊆ zonesPages start zones) :
    getAddress B s o ≠ 0 := by
  intro hnull
  rw [block_address hlog hs ha h ho] at hnull
  apply h0
  rw [offered_iff ha hz]
  have hf : firstPage B.depth o = 0 := by omega
  have hm := hP (firstPage_mem B.depth o ho)
  rw [hf] at hm
  have hst : start = 0 := by omega
  subst hst
  exact ⟨le_rfl, hm⟩

end Region

section Ownership

variable {B : Build} {start : ℕ} {P A : Set ℕ} {w : Session}

/-- The tiles handed out are those whose blocks are held. -/
theorem owned_iff (hlog : Log2Contract B.log2ui) (h : SessionInv B start P A w)
    (he : Exact B A w) (o : ℕ) :
    o ∈ owned B w.mman A ↔ level o ≤ B.depth ∧ blockOf B w.mman o ∈ w.live := by
  constructor
  · intro ho
    exact ⟨h.inv.tiling.bound o ho.1, he o ho⟩
  · rintro ⟨hl, hb⟩
    obtain ⟨o', ho', heq⟩ := h.held _ hb
    rw [blockOf_injective hlog hl (h.inv.tiling.bound o' ho'.1) heq]
    exact ho'

/-- The pages of `P` that no held block covers. -/
def remaining (B : Build) (start : ℕ) (P : Set ℕ) (live : List Block) : Set ℕ :=
  {p | p ∈ P ∧ ∀ o, level o ≤ B.depth → p ∈ pages B.depth o →
    (⟨(start+firstPage B.depth o*2^12)%2^64, level o⟩ : Block) ∉ live}

theorem blockOf_eq (hlog : Log2Contract B.log2ui) {s : BuddyAllocator} (h : s.start = start)
    {o : ℕ} (ho : level o ≤ B.depth) :
    blockOf B s o = ⟨(start+firstPage B.depth o*2^12)%2^64, level o⟩ := by
  rw [blockOf, getAddress_eq hlog ho, h]

/-- The free nodes tile the remaining pages. -/
theorem free_tiling (hlog : Log2Contract B.log2ui) (h : SessionInv B start P A w)
    (he : Exact B A w) :
    Tiling B.depth (freeNodes B w.mman) (remaining B start P w.live) where
  bound a ha := ha.1
  antichain a ha b hb := h.inv.tiling.antichain a (h.inv.free_subset ha) b (h.inv.free_subset hb)
  cover p := by
    constructor
    · rintro ⟨hp, hn⟩
      obtain ⟨a, ha, hpa⟩ := (h.inv.tiling.cover p).mp hp
      refine ⟨a, ?_, hpa⟩
      by_contra hf
      have hl := h.inv.tiling.bound a ha
      have hm := he a ⟨ha, hf⟩
      rw [blockOf_eq hlog h.start hl] at hm
      exact hn a hl hpa hm
    · rintro ⟨a, ha, hpa⟩
      have haA := h.inv.free_subset ha
      refine ⟨h.inv.tiling.pages_subset haA hpa, ?_⟩
      intro o ho hpo hm
      rw [← blockOf_eq hlog h.start ho] at hm
      have hoA := (owned_iff hlog h he o).mpr ⟨ho, hm⟩
      exact hoA.2 (h.inv.tiling.disjoint haA hoA.1 hpa hpo ▸ ha)

theorem rep_size_eq {s t : BuddyAllocator} {F G : ℕ → List ℕ} (hs : Rep B s F) (ht : Rep B t G)
    (h : freeNodes B s = freeNodes B t) {l : ℕ} (hl : l ≤ B.depth) : s.size l = t.size l := by
  rw [hs.size l hl, ht.size l hl]
  apply List.Perm.length_eq
  rw [List.perm_ext_iff_of_nodup (hs.nodup l hl) (ht.nodup l hl)]
  intro o
  constructor
  · intro ho
    have hlev := hs.level l hl o ho
    have hm := hs.free_of_mem hl ho
    rw [h, ht.mem_free_iff, hlev] at hm
    exact hm.2
  · intro ho
    have hlev := ht.level l hl o ho
    have hm := ht.free_of_mem hl ho
    rw [← h, hs.mem_free_iff, hlev] at hm
    exact hm.2

/-- The held blocks determine the free nodes and the list sizes. -/
theorem free_determined (hlog : Log2Contract B.log2ui) (h : SessionInv B start P A w)
    (he : Exact B A w) {A' : Set ℕ} {w' : Session} (h' : SessionInv B start P A' w')
    (he' : Exact B A' w') (hlive : ∀ b, b ∈ w.live ↔ b ∈ w'.live) :
    freeNodes B w.mman = freeNodes B w'.mman ∧ ∀ l ≤ B.depth, w.mman.size l = w'.mman.size l := by
  have hrem : remaining B start P w.live = remaining B start P w'.live := by
    ext p
    simp only [remaining, Set.mem_ofPred_eq, hlive]
  have hfree : freeNodes B w.mman = freeNodes B w'.mman := by
    apply (free_tiling hlog h he).unique _ h.inv.twinFree h'.inv.twinFree
    rw [hrem]
    exact free_tiling hlog h' he'
  obtain ⟨F, hF⟩ := h.inv.rep
  obtain ⟨G, hG⟩ := h'.inv.rep
  exact ⟨hfree, fun l hl => rep_size_eq hF hG hfree hl⟩

end Ownership

/-- What a caller of `buddy_alloc_init_free_regions` promises. -/
structure Regions (B : Build) (start : ℕ) (zones : List MemZone) : Prop where
  word : start < 2^64
  aligned : start%2^(B.depth+12) = 0
  inside : ∀ z ∈ zones, ZoneInside B start z
  nonnull : ¬ Offered zones 0

def openSession (B : Build) (prior : BuddyAllocator) (start : ℕ) (zones : List MemZone) : Session :=
  ⟨buddyAllocInitFreeRegions B prior start zones, []⟩

section Runs

variable {B : Build} {start : ℕ} {zones : List MemZone} {prior : BuddyAllocator} {w : Session}

theorem open_exact (hlog : Log2Contract B.log2ui) (hr : Regions B start zones)
    (hb : Blank B prior) : ∃ A, SessionInv B start (zonesPages start zones) A
      (openSession B prior start zones) ∧ Exact B A (openSession B prior start zones) := by
  obtain ⟨A, h1, h2, h3⟩ := regions_inv hlog prior start zones hb hr.word hr.inside
  refine ⟨A, ⟨h1, h3, List.nodup_nil, by simp [openSession]⟩, ?_⟩
  intro o ho
  simp [openSession, h2] at ho

theorem run_exact (hlog : Log2Contract B.log2ui) (hr : Regions B start zones)
    (hb : Blank B prior) (h : Reachable B (openSession B prior start zones) w) :
    ∃ A, SessionInv B start (zonesPages start zones) A w ∧ Exact B A w :=
  reachable_exact hlog hr.word
    (fun s hs o ho hP => address_ne_null hlog hr.word hr.aligned hr.inside hr.nonnull s hs o ho hP)
    (open_exact hlog hr hb) h

end Runs

/-- Safety of a session over the zones it was opened with. -/
structure Safe (B : Build) (zones : List MemZone) (w : Session) : Prop where
  result : ∀ count < 2^32, (allocPages B w.mman count).1 ≠ 0 →
    B.blockSize (B.requestLevel count) = round2 count*2^12 ∧
    round2 count*2^12 ∣ (allocPages B w.mman count).1 ∧
    ∀ a, BlockHolds B ⟨(allocPages B w.mman count).1, B.requestLevel count⟩ a → Offered zones a
  apart : w.live.Pairwise (fun b c => ∀ a, ¬ (BlockHolds B b a ∧ BlockHolds B c a))
  cover : ∀ a, Offered zones a ↔ Held B w a ∨ Free B w.mman a
  disjoint : ∀ a, ¬ (Held B w a ∧ Free B w.mman a)

section Safety

variable {B : Build} {start : ℕ} {zones : List MemZone} {A : Set ℕ} {w : Session}

theorem held_iff (hlog : Log2Contract B.log2ui) (hr : Regions B start zones)
    (h : SessionInv B start (zonesPages start zones) A w) (he : Exact B A w) (a : ℕ) :
    Held B w a ↔ start ≤ a ∧ ∃ o ∈ owned B w.mman A, (a-start)/2^12 ∈ pages B.depth o := by
  constructor
  · rintro ⟨b, hb, hba⟩
    obtain ⟨o, ho, rfl⟩ := h.held b hb
    obtain ⟨h1, h2⟩ := (block_holds_iff hlog hr.word hr.aligned h.start
      (h.inv.tiling.bound o ho.1) a).mp hba
    exact ⟨h1, o, ho, h2⟩
  · rintro ⟨h1, o, ho, h2⟩
    exact ⟨_, he o ho, (block_holds_iff hlog hr.word hr.aligned h.start
      (h.inv.tiling.bound o ho.1) a).mpr ⟨h1, h2⟩⟩

theorem free_iff (hlog : Log2Contract B.log2ui) (hr : Regions B start zones)
    (h : SessionInv B start (zonesPages start zones) A w) (a : ℕ) :
    Free B w.mman a ↔ start ≤ a ∧ ∃ o ∈ freeNodes B w.mman, (a-start)/2^12 ∈ pages B.depth o := by
  constructor
  · rintro ⟨o, ho, hoa⟩
    obtain ⟨h1, h2⟩ := (block_holds_iff hlog hr.word hr.aligned h.start ho.1 a).mp hoa
    exact ⟨h1, o, ho, h2⟩
  · rintro ⟨h1, o, ho, h2⟩
    exact ⟨o, ho, (block_holds_iff hlog hr.word hr.aligned h.start ho.1 a).mpr ⟨h1, h2⟩⟩

theorem round2_of_pageCount {count : ℕ} (hc : count < 2^32) (h : pageCount count ≠ 0) :
    round2 count = pageCount count := by
  rcases pageCount_cases count hc with h0 | ⟨hpos, hle, hp, -⟩
  · exact absurd h0 h
  · rw [hp, round2_eq_clog count hpos (by omega)]

theorem result_safe (hlog : Log2Contract B.log2ui) (hr : Regions B start zones)
    (h : SessionInv B start (zonesPages start zones) A w) {count : ℕ} (hc : count < 2^32)
    (hne : (allocPages B w.mman count).1 ≠ 0) :
    B.blockSize (B.requestLevel count) = round2 count*2^12 ∧
    round2 count*2^12 ∣ (allocPages B w.mman count).1 ∧
    ∀ a, BlockHolds B ⟨(allocPages B w.mman count).1, B.requestLevel count⟩ a →
      Offered zones a := by
  rcases alloc_spec hlog h.inv hc with hs | ⟨o, A', h1, h2, h3, h4, -, h6, h7, -⟩
  · rw [hs] at hne
    exact absurd rfl hne
  have hpos : 0 < 2^(B.depth-level o) := by positivity
  have hround : round2 count*2^12 = B.blockSize (level o) := by
    rw [round2_of_pageCount hc (by omega), ← h3, blockSize_eq h2]
  have hoA : o ∈ A' := by
    have : o ∈ owned B (allocPages B w.mman count).2 A' := by rw [h7]; exact Or.inl rfl
    exact this.1
  rw [h4, ← h1, hround]
  refine ⟨rfl, block_aligned hlog hr.word hr.aligned h.start h2, ?_⟩
  intro a ha
  obtain ⟨hle, hp⟩ := (block_holds_iff hlog hr.word hr.aligned h.start h2 a).mp ha
  rw [offered_iff hr.aligned hr.inside]
  exact ⟨hle, h6.tiling.pages_subset hoA hp⟩

theorem held_apart (hlog : Log2Contract B.log2ui) (hr : Regions B start zones)
    (h : SessionInv B start (zonesPages start zones) A w) :
    w.live.Pairwise (fun b c => ∀ a, ¬ (BlockHolds B b a ∧ BlockHolds B c a)) := by
  apply h.nodup.imp_of_mem
  intro b c hb hc hne a hboth
  obtain ⟨o, ho, rfl⟩ := h.held b hb
  obtain ⟨o', ho', rfl⟩ := h.held c hc
  have hp := (block_holds_iff hlog hr.word hr.aligned h.start
    (h.inv.tiling.bound o ho.1) a).mp hboth.1
  have hp' := (block_holds_iff hlog hr.word hr.aligned h.start
    (h.inv.tiling.bound o' ho'.1) a).mp hboth.2
  exact hne (by rw [h.inv.tiling.disjoint ho.1 ho'.1 hp.2 hp'.2])

theorem safe_of_inv (hlog : Log2Contract B.log2ui) (hr : Regions B start zones)
    (h : SessionInv B start (zonesPages start zones) A w) (he : Exact B A w) :
    Safe B zones w where
  result _ hc hne := result_safe hlog hr h hc hne
  apart := held_apart hlog hr h
  cover a := by
    rw [offered_iff hr.aligned hr.inside, held_iff hlog hr h he, free_iff hlog hr h,
      h.inv.tiling.cover]
    constructor
    · rintro ⟨hle, o, ho, hp⟩
      by_cases hf : o ∈ freeNodes B w.mman
      · exact Or.inr ⟨hle, o, hf, hp⟩
      · exact Or.inl ⟨hle, o, ⟨ho, hf⟩, hp⟩
    · rintro (⟨hle, o, ho, hp⟩ | ⟨hle, o, ho, hp⟩)
      · exact ⟨hle, o, ho.1, hp⟩
      · exact ⟨hle, o, h.inv.free_subset ho, hp⟩
  disjoint a := by
    rw [held_iff hlog hr h he, free_iff hlog hr h]
    rintro ⟨⟨-, o, ho, hp⟩, -, o', ho', hp'⟩
    have := h.inv.tiling.disjoint ho.1 (h.inv.free_subset ho') hp hp'
    exact ho.2 (this ▸ ho')

end Safety

/-- Every run of `buddy.c` over well-placed zones is safe. -/
theorem allocation_safety (log2ui : ℕ → ℕ) (hlog : Log2Contract log2ui) (start : ℕ)
    (zones : List MemZone) (hr : Regions (buddy log2ui) start zones) (prior : BuddyAllocator)
    (w : Session)
    (h : Reachable (buddy log2ui) (openSession (buddy log2ui) prior start zones) w) :
    Safe (buddy log2ui) zones w := by
  obtain ⟨A, hA, he⟩ := run_exact hlog hr (blank_buddy log2ui prior) h
  exact safe_of_inv hlog hr hA he

/-- One region of 1024 pages at 4 MiB. -/
theorem oneZone : Regions (buddy Nat.log2) 0 [⟨0x400000, 1024⟩] where
  word := by decide
  aligned := by decide
  inside := by
    intro z hz
    rw [List.mem_singleton.mp hz]
    exact ⟨by decide, by decide, by decide, by decide⟩
  nonnull := by
    rintro ⟨z, hz, hle, -⟩
    rw [List.mem_singleton.mp hz] at hle
    exact absurd hle (by decide)

theorem allocation_safety_run :
    Safe (buddy Nat.log2) [⟨0x400000, 1024⟩] (step (buddy Nat.log2)
      (openSession (buddy Nat.log2) zeroMemory 0 [⟨0x400000, 1024⟩]) (.alloc 3)) :=
  allocation_safety Nat.log2 log2_contract 0 _ oneZone zeroMemory _
    (.step .start (by decide : 3 < 2^32))

def freePageSet (B : Build) (s : BuddyAllocator) : Set ℕ :=
  {p | ∃ o ∈ freeNodes B s, p ∈ pages B.depth o}

/-- The free nodes are the maximal aligned blocks of the free pages, and the
only decomposition of these pages without a pair of buddies. -/
structure Canonical (B : Build) (s : BuddyAllocator) : Prop where
  noBuddies : ∀ o ∈ freeNodes B s, o ≠ 0 → getBuddy o ∉ freeNodes B s
  tiles : Tiling B.depth (freeNodes B s) (freePageSet B s)
  maximal : ∀ o, o ∈ freeNodes B s ↔ MaximalBlock B.depth (freePageSet B s) o
  unique : ∀ S, Tiling B.depth S (freePageSet B s) → TwinFree S → S = freeNodes B s

theorem canonical_of_inv {B : Build} {s : BuddyAllocator} {A P : Set ℕ} (h : Inv B s A P) :
    Canonical B s := by
  have ht := h.tiling.part h.free_subset
  refine ⟨?_, ht, ht.canonical h.twinFree, fun S hS hT => hS.unique ht hT h.twinFree⟩
  intro o ho hne hb
  apply h.twinFree ((o-1)/2)
  rcases buddy_cases ho.1 hne with ⟨hk, hkb⟩ | ⟨hk, hkb⟩
  · rw [← hk, ← hkb]
    exact ⟨ho, hb⟩
  · rw [← hk, ← hkb]
    exact ⟨hb, ho⟩

end BruhOS.BuddySafety
