import BruhOS.BuddyRegions

/-!
# Summaries of the free lists

Three functions summarise the sizes of the lists: the bytes that are free, the
largest block and whether anything is left. The first two agree with the tree
and with the search of an allocation in every state. The third stops one level
too early and does not see single pages.
-/

set_option autoImplicit false

namespace BruhOS.BuddySummaries
open BruhOS.BlockTree BruhOS.StdMath BruhOS.BuddyMachine BruhOS.BuddyLists BruhOS.BuddyOperations
open BruhOS.BuddyInit BruhOS.BuddyRuns BruhOS.BuddySafety BruhOS.BuddyRegions BruhOS.CountedLoop

/-- An allocation gets past its two exits that return null. -/
def AllocFinds (B : Build) (s : BuddyAllocator) (count : ℕ) : Prop :=
  Admitted B count ∧
    (searchLoop B (B.requestLevel count) (s.free (B.requestLevel count)) 0 s).2.1 ≠
      B.head (searchLoop B (B.requestLevel count) (s.free (B.requestLevel count)) 0 s).1

instance (B : Build) (s : BuddyAllocator) (count : ℕ) : Decidable (AllocFinds B s count) :=
  inferInstanceAs (Decidable (_ ∧ _))

/-- The summaries of a state are true. -/
structure Truthful (B : Build) (s : BuddyAllocator) : Prop where
  finds : ∀ count, 1 ≤ count → count ≤ 65536 →
    (AllocFinds B s count ↔ round2 count*4096 ≤ maxBlockReq B s)
  size : freeMemorySize B s = 4096*(freePageSet B s).ncard
  full : isBuddyFull B s = true ↔ freeMemorySize B s = 0
  none : freeMemorySize B s = 0 ↔ maxBlockReq B s = 0

/-- Something is free, and all of it is on the list of single pages. -/
def OnlyPages (B : Build) (s : BuddyAllocator) : Prop :=
  s.size B.depth ≠ 0 ∧ ∀ l < B.depth, s.size l = 0

instance (B : Build) (s : BuddyAllocator) : Decidable (OnlyPages B s) :=
  inferInstanceAs (Decidable (_ ∧ ∀ l < B.depth, _))

section Loops

variable {B : Build} {s : BuddyAllocator}

theorem skipEmpty_spec (s : BuddyAllocator) (n i : ℕ) :
    i ≤ skipEmpty s n i ∧ skipEmpty s n i ≤ i+n ∧
      (∀ j, i ≤ j → j < skipEmpty s n i → s.size j = 0) ∧
      (skipEmpty s n i < i+n → s.size (skipEmpty s n i) ≠ 0) := by
  induction n generalizing i with
  | zero =>
    refine ⟨le_rfl, le_rfl, ?_, ?_⟩
    · intro j h1 h2
      rw [skipEmpty] at h2
      omega
    · intro h
      rw [skipEmpty] at h
      omega
  | succ n ih =>
    rw [skipEmpty]
    by_cases hz : s.size i = 0
    · obtain ⟨h1, h2, h3, h4⟩ := ih (i+1)
      rw [if_pos hz]
      refine ⟨by omega, by omega, ?_, fun h => h4 (by omega)⟩
      intro j hj hlt
      obtain rfl | hij : j = i ∨ i+1 ≤ j := by omega
      · exact hz
      · exact h3 j hij hlt
    · rw [if_neg hz]
      exact ⟨le_rfl, by omega, fun j h1 h2 => by omega, fun _ => hz⟩

/-- The largest block has the size of the first level with a block. -/
theorem maxBlockReq_cases (B : Build) (s : BuddyAllocator) :
    (maxBlockReq B s = 0 ∧ ∀ l ≤ B.depth, s.size l = 0) ∨
    ∃ m ≤ B.depth, maxBlockReq B s = 2^(B.depth-m)*4096 ∧ s.size m ≠ 0 ∧
      ∀ l < m, s.size l = 0 := by
  obtain ⟨-, h2, h3, h4⟩ := skipEmpty_spec s (B.depth+1) 0
  unfold maxBlockReq
  generalize skipEmpty s (B.depth+1) 0 = i at h2 h3 h4
  by_cases hi : i = B.depth+1
  · left
    simp only [hi, ne_eq, not_true, if_false, Nat.mul_zero, true_and]
    intro l hl
    exact h3 l (Nat.zero_le _) (by omega)
  · right
    refine ⟨i, by omega, ?_, h4 (by omega), fun l hl => h3 l (Nat.zero_le _) hl⟩
    simp only [ne_eq, hi, not_false_eq_true, if_true, Nat.mul_one]
    exact blockSize_eq (by omega)

theorem fullLoop_iff (s : BuddyAllocator) (n i : ℕ) (b : Bool) :
    fullLoop s n i b = true ↔ b = true ∧ ∀ j, i ≤ j → j < i+n → s.size j = 0 := by
  induction n generalizing i b with
  | zero =>
    rw [fullLoop]
    exact ⟨fun h => ⟨h, fun j h1 h2 => by omega⟩, fun h => h.1⟩
  | succ n ih =>
    rw [fullLoop]
    cases b with
    | false => simp
    | true =>
      rw [if_pos rfl, ih, Bool.true_and, beq_iff_eq]
      constructor
      · rintro ⟨hi, hrest⟩
        refine ⟨rfl, fun j h1 h2 => ?_⟩
        obtain rfl | hij : j = i ∨ i+1 ≤ j := by omega
        · exact hi
        · exact hrest j hij (by omega)
      · rintro ⟨-, hall⟩
        exact ⟨hall i le_rfl (by omega), fun j h1 h2 => hall j (by omega) (by omega)⟩

theorem isBuddyFull_iff (B : Build) (s : BuddyAllocator) :
    isBuddyFull B s = true ↔ ∀ l < B.depth, s.size l = 0 := by
  rw [isBuddyFull, fullLoop_iff]
  exact ⟨fun h l hl => h.2 l (Nat.zero_le _) (by omega),
    fun h => ⟨rfl, fun j _ hj => h j (by omega)⟩⟩

end Loops

section Pages

variable {B : Build} {s : BuddyAllocator} {A P : Set ℕ} {F : ℕ → List ℕ}

/-- The free nodes, level by level. -/
def freeFinset (B : Build) (F : ℕ → List ℕ) : Finset ℕ :=
  (Finset.range (B.depth+1)).biUnion (fun l => (F l).toFinset)

theorem coe_freeFinset (h : Rep B s F) : (freeFinset B F : Set ℕ) = freeNodes B s := by
  ext o
  rw [h.mem_free_iff, freeFinset]
  simp only [Finset.coe_biUnion, Finset.mem_coe, Finset.coe_range, Set.mem_iUnion, Set.mem_Iio,
    List.mem_toFinset, exists_prop]
  constructor
  · rintro ⟨l, hl, ho⟩
    have hlev := h.level l (by omega) o ho
    rw [hlev]
    exact ⟨by omega, ho⟩
  · rintro ⟨hl, ho⟩
    exact ⟨level o, by omega, ho⟩

/-- The sizes of the lists add up to the free pages. -/
theorem sum_sizes (h : Inv B s A P) (hR : Rep B s F) :
    (freePageSet B s).ncard = ∑ l ∈ Finset.range (B.depth+1), s.size l*2^(B.depth-l) := by
  have ht : Tiling B.depth (freeFinset B F : Set ℕ) (freePageSet B s) := by
    rw [coe_freeFinset hR]
    exact h.tiling.part h.free_subset
  rw [ht.ncard, freeFinset, Finset.sum_biUnion]
  · apply Finset.sum_congr rfl
    intro l hl
    have hld : l ≤ B.depth := by
      rw [Finset.mem_range] at hl
      omega
    have hconst : ∀ o ∈ (F l).toFinset, 2^(B.depth-level o) = 2^(B.depth-l) := by
      intro o ho
      rw [hR.level l hld o (List.mem_toFinset.mp ho)]
    rw [Finset.sum_congr rfl hconst, Finset.sum_const, smul_eq_mul,
      List.toFinset_card_of_nodup (hR.nodup l hld), hR.size l hld]
  · intro a ha b hb hab
    rw [Function.onFun, Finset.disjoint_left]
    intro o hoa hob
    rw [Finset.coe_range, Set.mem_Iio] at ha hb
    have h1 := hR.level a (by omega) o (List.mem_toFinset.mp hoa)
    have h2 := hR.level b (by omega) o (List.mem_toFinset.mp hob)
    exact hab (h1.symm.trans h2)

theorem freePageSet_subset (B : Build) (s : BuddyAllocator) :
    freePageSet B s ⊆ (Finset.range (2^B.depth) : Finset ℕ) := by
  rintro p ⟨o, -, hp⟩
  rw [Finset.coe_range]
  exact hp.1

theorem freePageSet_finite (B : Build) (s : BuddyAllocator) : (freePageSet B s).Finite :=
  (Finset.finite_toSet _).subset (freePageSet_subset B s)

theorem freePageSet_le (B : Build) (s : BuddyAllocator) : (freePageSet B s).ncard ≤ 2^B.depth := by
  calc (freePageSet B s).ncard ≤ ((Finset.range (2^B.depth) : Finset ℕ) : Set ℕ).ncard :=
        Set.ncard_le_ncard (freePageSet_subset B s) (Finset.finite_toSet _)
    _ = 2^B.depth := by rw [Set.ncard_coe_finset, Finset.card_range]

theorem freeMemorySize_eq (h : Inv B s A P) :
    freeMemorySize B s = 4096*(freePageSet B s).ncard := by
  obtain ⟨F, hR⟩ := h.rep
  have hsum := sum_sizes h hR
  have hle := freePageSet_le B s
  have hbytes := region_bytes B
  have hterm : ∀ l ∈ Finset.range (B.depth+1), s.size l*B.blockSize l =
      4096*(s.size l*2^(B.depth-l)) := by
    intro l hl
    rw [Finset.mem_range] at hl
    rw [blockSize_eq (by omega)]
    ring
  have hloop := range_loop (fun S i => (S+s.size i*B.blockSize i)%2^64)
    (fun k S => S = (∑ i ∈ Finset.range k, s.size i*B.blockSize i)%2^64) (B.depth+1) 0
    (by simp) (by
      intro k _ S hS
      rw [hS, Finset.sum_range_succ, Nat.mod_add_mod])
  rw [Finset.sum_congr rfl hterm, ← Finset.mul_sum, ← hsum] at hloop
  rw [freeMemorySize, hloop]
  exact Nat.mod_eq_of_lt (by omega)

theorem freeMemorySize_eq_zero_iff (h : Inv B s A P) :
    freeMemorySize B s = 0 ↔ ∀ l ≤ B.depth, s.size l = 0 := by
  obtain ⟨F, hR⟩ := h.rep
  rw [freeMemorySize_eq h, sum_sizes h hR, Nat.mul_eq_zero, Finset.sum_eq_zero_iff]
  constructor
  · intro hz l hl
    have := hz.resolve_left (by decide) l (Finset.mem_range.mpr (by omega))
    exact (Nat.mul_eq_zero.mp this).resolve_right (by positivity)
  · intro hz
    right
    intro l hl
    rw [Finset.mem_range] at hl
    rw [hz l (by omega), Nat.zero_mul]

theorem maxBlockReq_eq_zero_iff (B : Build) (s : BuddyAllocator) :
    maxBlockReq B s = 0 ↔ ∀ l ≤ B.depth, s.size l = 0 := by
  rcases maxBlockReq_cases B s with ⟨h0, hz⟩ | ⟨m, hm, hmax, hne, -⟩
  · exact ⟨fun _ => hz, fun _ => h0⟩
  · have hpos : 0 < 2^(B.depth-m) := by positivity
    constructor
    · intro h0
      omega
    · intro hz
      exact absurd (hz m hm) hne

end Pages

section Counts

variable {B : Build} {s t : BuddyAllocator} {A A' P : Set ℕ} {o : ℕ}

/-- A page is free if no tile that is handed out covers it. -/
theorem freePage_iff (h : Inv B s A P) (p : ℕ) :
    p ∈ freePageSet B s ↔ p ∈ P ∧ ∀ x ∈ owned B s A, p ∉ pages B.depth x := by
  constructor
  · rintro ⟨a, ha, hp⟩
    have haA := h.free_subset ha
    refine ⟨h.tiling.pages_subset haA hp, ?_⟩
    intro x hx hpx
    exact hx.2 (h.tiling.disjoint haA hx.1 hp hpx ▸ ha)
  · rintro ⟨hp, hn⟩
    obtain ⟨a, ha, hpa⟩ := (h.tiling.cover p).mp hp
    refine ⟨a, ?_, hpa⟩
    by_contra hf
    exact hn a ⟨ha, hf⟩ hpa

theorem freePages_taken (h : Inv B s A P) (h' : Inv B t A' P)
    (hown : owned B t A' = insert o (owned B s A)) :
    freePageSet B t = freePageSet B s \ pages B.depth o := by
  ext p
  rw [Set.mem_sdiff, freePage_iff h, freePage_iff h', hown]
  constructor
  · rintro ⟨hp, hn⟩
    exact ⟨⟨hp, fun x hx => hn x (Or.inr hx)⟩, hn o (Or.inl rfl)⟩
  · rintro ⟨⟨hp, hn⟩, ho⟩
    refine ⟨hp, ?_⟩
    rintro x (rfl | hx)
    · exact ho
    · exact hn x hx

theorem pages_ncard (D : ℕ) {o : ℕ} (ho : level o ≤ D) : (pages D o).ncard = 2^(D-level o) := by
  have hIco : pages D o = (Finset.Ico (firstPage D o) (firstPage D o+2^(D-level o)) : Finset ℕ) := by
    ext p
    rw [mem_pages_iff D o p ho, Finset.coe_Ico, Set.mem_Ico]
  rw [hIco, Set.ncard_coe_finset, Nat.card_Ico, Nat.add_sub_cancel_left]

/-- Handing out a block takes its pages from the free ones, and no others. -/
theorem taken_count (h : Inv B s A P) (h' : Inv B t A' P)
    (hown : owned B t A' = insert o (owned B s A)) (ho : o ∉ owned B s A) :
    (freePageSet B t).ncard+2^(B.depth-level o) = (freePageSet B s).ncard := by
  have hoA : o ∈ owned B t A' := by
    rw [hown]
    exact Set.mem_insert o _
  have hsub : pages B.depth o ⊆ freePageSet B s := by
    intro p hp
    rw [freePage_iff h]
    refine ⟨h'.tiling.pages_subset hoA.1 hp, ?_⟩
    intro x hx hpx
    have hxA : x ∈ owned B t A' := by
      rw [hown]
      exact Set.mem_insert_of_mem o hx
    exact ho (h'.tiling.disjoint hxA.1 hoA.1 hpx hp ▸ hx)
  rw [freePages_taken h h' hown, ← pages_ncard B.depth (h'.tiling.bound o hoA.1)]
  exact Set.ncard_sdiff_add_ncard_of_subset hsub (freePageSet_finite B s)

/-- A request that is served takes as many pages as it asks for, rounded up. -/
theorem alloc_count (hlog : Log2Contract B.log2ui) (h : Inv B s A P) {count : ℕ}
    (hc : count < 2^32) (hne : (allocPages B s count).1 ≠ 0) :
    2^(B.depth-B.requestLevel count) = pageCount count ∧
      (freePageSet B (allocPages B s count).2).ncard+pageCount count = (freePageSet B s).ncard := by
  rcases alloc_spec hlog h hc with heq | ⟨o, A', hlev, -, hpow, -, -, hinv, hown, ho⟩
  · rw [heq] at hne
    exact absurd rfl hne
  · have hcount := taken_count h hinv hown ho
    rw [hpow] at hcount
    rw [← hlev]
    exact ⟨hpow, hcount⟩

/-- A block that is given back returns the pages of its level. -/
theorem free_count (hlog : Log2Contract B.log2ui) {start : ℕ} {w : Session}
    (h : SessionInv B start P A w) (hs : start < 2^64) {b : Block} (hb : b ∈ w.live)
    (hok : (freePages B w.mman b.ptr b.lvl).1 = kernelSuccess) :
    (freePageSet B (freePages B w.mman b.ptr b.lvl).2).ncard =
      (freePageSet B w.mman).ncard+2^(B.depth-b.lvl) := by
  obtain ⟨o, ho, rfl⟩ := h.held b hb
  rcases free_spec hlog h.inv ho (by rw [h.start]; exact hs) with hr | ⟨A', -, -, hinv, hown⟩
  · rw [blockOf, hr] at hok
    exact absurd hok (by decide : ¬ kernelInvalidInput = kernelSuccess)
  · have hback : owned B w.mman A = insert o (owned B (freePages B w.mman
        (blockOf B w.mman o).ptr (blockOf B w.mman o).lvl).2 A') := by
      rw [blockOf, hown, Set.insert_sdiff_singleton, Set.insert_eq_of_mem ho]
    have hout : o ∉ owned B (freePages B w.mman (blockOf B w.mman o).ptr
        (blockOf B w.mman o).lvl).2 A' := by
      rw [blockOf, hown]
      exact fun hx => hx.2 rfl
    exact (taken_count hinv h.inv hback hout).symm

end Counts

section Search

variable {B : Build} {s : BuddyAllocator} {A P : Set ℕ} {F : ℕ → List ℕ}

/-- The search finds a block if and only if a list at or above its level has one. -/
theorem allocFinds_iff (hlog : Log2Contract B.log2ui) (hR : Rep B s F) {count : ℕ}
    (hc : count < 2^32) : AllocFinds B s count ↔
      Admitted B count ∧ ∃ m ≤ B.requestLevel count, s.size m ≠ 0 := by
  unfold AllocFinds
  refine and_congr_right (fun ha => ?_)
  obtain ⟨hl, -⟩ := requestLevel_spec hlog hc ha
  generalize B.requestLevel count = lvl at hl
  rcases List.eq_nil_or_concat (F lvl) with hF | ⟨xs, f, hF⟩
  · rw [(hR.tail_eq_head_iff hl).mpr hF]
    rcases searchLoop_spec hlog hR lvl 0 hl with ⟨hs, hnone⟩ | ⟨m, f, xs, hm, hFm, -, hs⟩
    · rw [hs]
      constructor
      · intro h
        exact absurd rfl h
      · rintro ⟨m, hm, hne⟩
        apply absurd _ hne
        apply (hR.size_eq_zero_iff (by omega)).mpr
        obtain rfl | hlt : m = lvl ∨ m < lvl := by omega
        · exact hF
        · exact hnone m hlt
    · obtain ⟨-, hsz, hlev⟩ := hR.last_of_size (by omega) hFm
      have hne : f ≠ B.head m := (offset_lt_head B m (by omega)).ne
      rw [hs]
      exact ⟨fun _ => ⟨m, by omega, hsz⟩, fun _ => hne⟩
  · rw [List.concat_eq_append] at hF
    obtain ⟨htail, hsz, hlev⟩ := hR.last_of_size hl hF
    have hne : f ≠ B.head lvl := (offset_lt_head B lvl (by omega)).ne
    rw [htail, searchLoop_stop lvl f 0 hne]
    exact ⟨fun _ => ⟨lvl, le_rfl, hsz⟩, fun _ => hne⟩

theorem finds_iff_max (hlog : Log2Contract B.log2ui) (hR : Rep B s F) {count : ℕ}
    (h1 : 1 ≤ count) (h2 : count ≤ 65536) :
    AllocFinds B s count ↔ round2 count*4096 ≤ maxBlockReq B s := by
  have hc : count < 2^32 := by omega
  obtain ⟨hp, hr, -⟩ := pageCount_of_le h1 h2
  have hpc : pageCount count = round2 count := hp.trans hr.symm
  have hpos : 0 < round2 count := by
    rw [hr]
    positivity
  rw [allocFinds_iff hlog hR hc]
  rcases maxBlockReq_cases B s with ⟨h0, hz⟩ | ⟨m, hm, hmax, hne, hbelow⟩
  · constructor
    · rintro ⟨ha, m, hm, hne⟩
      obtain ⟨hl, -⟩ := requestLevel_spec hlog hc ha
      exact absurd (hz m (by omega)) hne
    · intro hle
      omega
  · rw [hmax]
    constructor
    · rintro ⟨ha, l, hl, hsz⟩
      obtain ⟨-, hpow⟩ := requestLevel_spec hlog hc ha
      have hml : m ≤ l := by
        by_contra hlt
        exact hsz (hbelow l (by omega))
      rw [← hpc, ← hpow]
      apply Nat.mul_le_mul_right
      exact Nat.pow_le_pow_right (by decide) (by omega)
    · intro hle
      have hle' : round2 count ≤ 2^(B.depth-m) := by omega
      have hD : 2^(B.depth-m) ≤ 2^B.depth := Nat.pow_le_pow_right (by decide) (by omega)
      have ha : Admitted B count := by
        rintro (hx | hx) <;> omega
      obtain ⟨hl, hpow⟩ := requestLevel_spec hlog hc ha
      refine ⟨ha, m, ?_, hne⟩
      rw [← hpc, ← hpow] at hle'
      have := (Nat.pow_le_pow_iff_right (by decide : 1 < 2)).mp hle'
      omega

/-- Only the third summary can be wrong, and it is wrong on single pages. -/
theorem truthful_iff (hlog : Log2Contract B.log2ui) (h : Inv B s A P) :
    Truthful B s ↔ ¬ OnlyPages B s := by
  obtain ⟨F, hR⟩ := h.rep
  constructor
  · rintro ht ⟨hne, hz⟩
    have h0 := ht.full.mp ((isBuddyFull_iff B s).mpr hz)
    exact hne ((freeMemorySize_eq_zero_iff h).mp h0 _ le_rfl)
  · intro ho
    refine ⟨fun count h1 h2 => finds_iff_max hlog hR h1 h2, freeMemorySize_eq h, ?_, ?_⟩
    · rw [isBuddyFull_iff, freeMemorySize_eq_zero_iff h]
      constructor
      · intro hz l hl
        by_contra hne
        obtain rfl | hlt : l = B.depth ∨ l < B.depth := by omega
        · exact ho ⟨hne, hz⟩
        · exact hne (hz l hlt)
      · intro hz l hl
        exact hz l (by omega)
    · rw [freeMemorySize_eq_zero_iff h, maxBlockReq_eq_zero_iff]

theorem onlyPages_of_single (h : Inv B s A P) (hcard : (freePageSet B s).ncard = 1) :
    OnlyPages B s := by
  obtain ⟨F, hR⟩ := h.rep
  have hsum := sum_sizes h hR
  rw [hcard] at hsum
  have hlow : ∀ l < B.depth, s.size l = 0 := by
    intro l hl
    by_contra hne
    have hterm : s.size l*2^(B.depth-l) ≤ 1 := by
      rw [hsum]
      exact Finset.single_le_sum (f := fun l => s.size l*2^(B.depth-l))
        (fun _ _ => Nat.zero_le _) (Finset.mem_range.mpr (by omega))
    have hpow : 2^1 ≤ 2^(B.depth-l) := Nat.pow_le_pow_right (by decide) (by omega)
    have := Nat.mul_le_mul (Nat.one_le_iff_ne_zero.mpr hne) hpow
    omega
  refine ⟨fun h0 => ?_, hlow⟩
  rw [Finset.sum_eq_zero] at hsum
  · omega
  · intro l hl
    rw [Finset.mem_range] at hl
    obtain rfl | hlt : l = B.depth ∨ l < B.depth := by omega
    · rw [h0, Nat.zero_mul]
    · rw [hlow l hlt, Nat.zero_mul]

end Search

section Runs

variable {B : Build}

theorem inv_of_reachable (hlog : Log2Contract B.log2ui) {ok : BuddyAllocator → Prop}
    (hok : ∀ s, ok s → Blank B s) {s : BuddyAllocator} {w : Session} (h : Initial B ok s)
    (hw : Reachable B ⟨s, []⟩ w) : ∃ A P, Inv B w.mman A P := by
  obtain ⟨start, P, A, hs, hA⟩ := initial_inv hlog hok h
  obtain ⟨A', hA'⟩ := reachable_inv hlog hs ⟨A, hA⟩ hw
  exact ⟨A', P, hA'.inv⟩

/-- A session over tame memory, along every run. -/
theorem tame_run (hlog : Log2Contract B.log2ui) {prior : BuddyAllocator} {start : ℕ}
    {zones : List MemZone} (ht : Tame B prior start zones) (hs : start < 2^64)
    (hz : ∀ z ∈ zones, ZoneInside B start z) {w : Session}
    (h : Reachable B (openSession B prior start zones) w) :
    ∃ A, SessionInv B start (markedPages B prior start zones) A w := by
  have hO := regions_opened hlog (fun _ => 0) (fun _ => 0) ht hs hz
  rw [← initFreeRegions_eq] at hO
  exact reachable_inv hlog hs ⟨_, hO.inv.1, hO.start, List.nodup_nil, by simp [openSession]⟩ h

end Runs

/-- In every state of every run the summaries are true unless all that is free is single pages:
from any prior memory for `buddy.c`, for `buddyLow.c` from a zeroed node array and, when it is
given zones, from memory whose leaves outside of them held one of the two named states. -/
theorem summaries_truthful_iff (log2ui : ℕ → ℕ) (hlog : Log2Contract log2ui) :
    (∀ s w, Initial (buddy log2ui) (fun _ => True) s → Reachable (buddy log2ui) ⟨s, []⟩ w →
      (Truthful (buddy log2ui) w.mman ↔ ¬ OnlyPages (buddy log2ui) w.mman)) ∧
    (∀ s w, Initial (buddyLow log2ui) ZeroMap s → Reachable (buddyLow log2ui) ⟨s, []⟩ w →
      (Truthful (buddyLow log2ui) w.mman ↔ ¬ OnlyPages (buddyLow log2ui) w.mman)) ∧
    (∀ prior zones w, Tame (buddyLow log2ui) prior 0 zones →
      (∀ z ∈ zones, ZoneInside (buddyLow log2ui) 0 z) →
      Reachable (buddyLow log2ui) (openSession (buddyLow log2ui) prior 0 zones) w →
      (Truthful (buddyLow log2ui) w.mman ↔ ¬ OnlyPages (buddyLow log2ui) w.mman)) := by
  refine ⟨?_, ?_, ?_⟩
  · intro s w h hw
    obtain ⟨A, P, hinv⟩ := inv_of_reachable hlog (fun s _ => blank_buddy log2ui s) h hw
    exact truthful_iff hlog hinv
  · intro s w h hw
    obtain ⟨A, P, hinv⟩ := inv_of_reachable hlog
      (fun s hs => blank_of_zero (buddyLow log2ui) s hs) h hw
    exact truthful_iff hlog hinv
  · intro prior zones w ht hz hw
    obtain ⟨A, hA⟩ := tame_run hlog ht (by decide) hz hw
    exact truthful_iff hlog hA.inv

theorem whole_not_onlyPages (log2ui : ℕ → ℕ) (s : BuddyAllocator) (start : ℕ) :
    ¬ OnlyPages (buddy log2ui) (buddyAllocInit (buddy log2ui) s start) := by
  rintro ⟨-, hz⟩
  obtain ⟨hR, -⟩ := init_rep s start (blank_buddy log2ui s)
  have h0 := (hR.size_eq_zero_iff (Nat.zero_le _)).mp (hz 0 (by decide : 0 < 16))
  rw [Function.update_self] at h0
  exact absurd h0 (List.cons_ne_nil _ _)

/-- The whole region as one block, at 256 MiB. -/
theorem summaries_truthful_whole :
    Truthful (buddy Nat.log2) (buddyAllocInit (buddy Nat.log2) zeroMemory 0x10000000) :=
  ((summaries_truthful_iff Nat.log2 log2_contract).1 _ _ (.whole trivial (by decide)) .start).mpr
    (whole_not_onlyPages _ _ _)

/-- A single free page makes `isBuddyFull` true. -/
theorem summaries_miss_page :
    ¬ Truthful (buddy Nat.log2)
      (buddyAllocInitFreeRegions (buddy Nat.log2) zeroMemory 0 [⟨0x400000, 1⟩]) := by
  have hz : ∀ z ∈ [(⟨0x400000, 1⟩ : MemZone)], ZoneInside (buddy Nat.log2) 0 z := by
    intro z hz
    rw [List.mem_singleton.mp hz]
    exact ⟨by decide, by decide, by decide, by decide⟩
  have hblank := blank_buddy Nat.log2 zeroMemory
  have hO := regions_opened (B := buddy Nat.log2) log2_contract (fun _ => 0) (fun _ => 0)
    (tame_of_blank hblank 0 _) (by decide) hz
  rw [← initFreeRegions_eq, markedPages, blank_stale hblank, Set.union_empty] at hO
  have hpages : zonesPages 0 [⟨0x400000, 1⟩] = {1024} := by
    ext p
    simp only [zonesPages, zonePages, List.mem_singleton, exists_eq_left, Set.mem_ofPred_eq,
      Set.mem_singleton_iff]
    omega
  rw [truthful_iff log2_contract hO.inv.1, not_not]
  apply onlyPages_of_single hO.inv.1
  rw [freePageSet_of_tiling hO.tiling, hpages, Set.ncard_singleton]

end BruhOS.BuddySummaries
