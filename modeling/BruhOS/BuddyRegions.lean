import BruhOS.BuddySafety

/-!
# What initialisation leaves in the tree

`buddy_alloc_init_free_regions` turns a list of zones into the maximal free
blocks of their pages, whatever the memory and the stack held before. The
version for low memory clears the inner nodes only. Its result depends on the
states the leaves had before: a stale leaf outside of the zones is a page that
counts as free afterwards, and without one nothing of the prior memory is left.
-/

set_option autoImplicit false

namespace BruhOS.BuddyRegions
open BruhOS.LinkedRing BruhOS.BlockTree BruhOS.StdMath BruhOS.BuddyMachine BruhOS.BuddyLists
open BruhOS.BuddyOperations BruhOS.BuddyInit BruhOS.BuddyRuns BruhOS.BuddySafety
open BruhOS.CountedLoop

/-- The free nodes are the maximal blocks of the zones, and the lists hold exactly them. Pages
are counted from `start`; the bytes agree when `start` is the start of a page and the region
ends inside the address space. -/
structure MaximalFree (B : Build) (start : ℕ) (zones : List MemZone) (r : BuddyAllocator) :
    Prop where
  covers : freePageSet B r = zonesPages start zones
  bytes : start%2^12 = 0 → start+2^B.depth*2^12 ≤ 2^64 → ∀ a, Free B r a ↔ Offered zones a
  maximal : ∀ o, o ∈ freeNodes B r ↔ MaximalBlock B.depth (zonesPages start zones) o
  noBuddies : ∀ o ∈ freeNodes B r, o ≠ 0 → getBuddy o ∉ freeNodes B r
  lists : FreeLists B r

section Maximal

variable {B : Build} {start : ℕ} {zones : List MemZone}

theorem freePageSet_of_tiling {r : BuddyAllocator} {P : Set ℕ}
    (h : Tiling B.depth (freeNodes B r) P) : freePageSet B r = P := by
  ext p
  exact (h.cover p).symm

theorem free_bytes_iff (hlog : Log2Contract B.log2ui) (he : start+2^B.depth*2^12 ≤ 2^64)
    {r : BuddyAllocator} (h : r.start = start) (a : ℕ) :
    Free B r a ↔ start ≤ a ∧ (a-start)/2^12 ∈ freePageSet B r := by
  constructor
  · rintro ⟨o, ho, hoa⟩
    obtain ⟨h1, h2⟩ := (exact_holds_iff hlog he h ho.1 a).mp hoa
    exact ⟨h1, o, ho, h2⟩
  · rintro ⟨h1, o, ho, h2⟩
    exact ⟨o, ho, (exact_holds_iff hlog he h ho.1 a).mpr ⟨h1, h2⟩⟩

theorem maximalFree_of_opened (hlog : Log2Contract B.log2ui)
    (hz : ∀ z ∈ zones, ZoneInside B start z) {r : BuddyAllocator}
    (h : Opened B start (zonesPages start zones) r) : MaximalFree B start zones r := by
  have hinv := h.inv.1
  have hcov := freePageSet_of_tiling h.tiling
  refine ⟨hcov, ?_, ?_, (canonical_of_inv hinv).noBuddies, freeLists_of_inv hinv⟩
  · intro ha he a
    rw [free_bytes_iff hlog he h.start, hcov, offered_page_iff ha hz]
  · intro o
    rw [(canonical_of_inv hinv).maximal o, hcov]

theorem freeList_length_mono (s : BuddyAllocator) {k n : ℕ} (h : k ≤ n) :
    (freeList s k).length ≤ (freeList s n).length := by
  obtain ⟨m, rfl⟩ := Nat.exists_eq_add_of_le h
  induction m with
  | zero => exact le_rfl
  | succ m ih =>
    have := ih (Nat.le_add_right k m)
    rw [← Nat.add_assoc, freeList_succ, List.length_append]
    omega

end Maximal

/-- For every prior content of the memory and of the stack the free nodes end up as the maximal
blocks of the zones; the 16-bit counter is the number of free nodes, and no pass of the
collecting loop writes behind its `count+1` entries. -/
theorem free_regions_maximal (log2ui : ℕ → ℕ) (hlog : Log2Contract log2ui)
    (indices lg2idx : ℕ → ℕ) (prior : BuddyAllocator) (start : ℕ) (hstart : start < 2^64)
    (zones : List MemZone) (hz : ∀ z ∈ zones, ZoneInside (buddy log2ui) start z) :
    MaximalFree (buddy log2ui) start zones
      (initFreeRegionsOn (buddy log2ui) indices lg2idx prior start zones) ∧
    freeCount (buddy log2ui) (settledRegions (buddy log2ui) prior start zones) =
      (freeList (settledRegions (buddy log2ui) prior start zones) (nodes 16)).length ∧
    ∀ k ≤ nodes 16, (collectOn (buddy log2ui) (settledRegions (buddy log2ui) prior start zones)
      ⟨indices, lg2idx, 0⟩ k).idx ≤
        freeCount (buddy log2ui) (settledRegions (buddy log2ui) prior start zones) := by
  have hblank := blank_buddy log2ui prior
  have htame := tame_of_blank hblank start zones
  obtain ⟨-, hset, -⟩ := settledRegions_spec hlog htame hstart hz
  have hcount := freeCount_eq hset
  refine ⟨?_, hcount, ?_⟩
  · have hO := regions_opened hlog indices lg2idx htame hstart hz
    rw [markedPages, blank_stale hblank, Set.union_empty] at hO
    exact maximalFree_of_opened hlog hz hO
  · intro k hk
    rw [hcount, (collectOn_spec hset.clean indices lg2idx k hk).1]
    exact freeList_length_mono _ hk

/-- Two zones that overlap, in a region at 256 MiB. -/
theorem free_regions_maximal_overlap :
    MaximalFree (buddy Nat.log2) 0x10000000 [⟨0x10000000, 3⟩, ⟨0x10002000, 4⟩]
      (initFreeRegionsOn (buddy Nat.log2) (fun _ => 7) (fun _ => 9) zeroMemory 0x10000000
        [⟨0x10000000, 3⟩, ⟨0x10002000, 4⟩]) := by
  refine (free_regions_maximal Nat.log2 log2_contract _ _ zeroMemory _ (by decide) _ ?_).1
  intro z hz
  fin_cases hz
  · exact ⟨by decide, by decide, by decide, by decide⟩
  · exact ⟨by decide, by decide, by decide, by decide⟩

section Stale

variable {B : Build}

/-- Some node that covers page `p` is not used. -/
def Covered (B : Build) (p : ℕ) (s : BuddyAllocator) : Prop :=
  ∃ o, level o ≤ B.depth ∧ p ∈ pages B.depth o ∧ s.state o ≠ USED

/-- The nodes before `k` are still used, and page `p` is covered. -/
def KeepsCover (B : Build) (p k : ℕ) (s : BuddyAllocator) : Prop :=
  (∀ o < k, s.state o = USED) ∧ Covered B p s

theorem settle_covers {p k : ℕ} (hk : k < 2^B.depth-1) {s : BuddyAllocator}
    (h : KeepsCover B p (k+1) s) : KeepsCover B p k (settle s k) := by
  obtain ⟨hzero, o, ho, hp, hs⟩ := h
  have hlev := (lt_inner_iff B.depth k).mp hk
  have hok : o ≠ k := fun he => hs (he ▸ hzero k (by omega))
  rw [KeepsCover, Covered, settle_state]
  by_cases hb : (s.state (k*2+1) != 0 && s.state (k*2+2) != 0) = true
  · rw [if_pos hb]
    constructor
    · intro x hx
      rw [Function.update_of_ne (by omega), Function.update_of_ne (by omega),
        Function.update_of_ne (by omega)]
      exact hzero x (by omega)
    · -- The children hand their pages over to their parent.
      by_cases hchild : o = k*2+1 ∨ o = k*2+2
      · refine ⟨k, hlev.le, ?_, ?_⟩
        · refine pages_mono ?_ hp
          rcases hchild with rfl | rfl
          · rw [Nat.mul_comm]
            exact under_left k
          · rw [Nat.mul_comm]
            exact under_right k
        · rw [Function.update_of_ne (by omega), Function.update_of_ne (by omega),
            Function.update_self]
          decide
      · rw [not_or] at hchild
        refine ⟨o, ho, hp, ?_⟩
        rw [Function.update_of_ne hchild.2, Function.update_of_ne hchild.1,
          Function.update_of_ne hok]
        exact hs
  · rw [if_neg hb]
    constructor
    · intro x hx
      rw [Function.update_of_ne (by omega)]
      exact hzero x (by omega)
    · exact ⟨o, ho, hp, by rw [Function.update_of_ne hok]; exact hs⟩

/-- A stale page is still covered when the nodes are counted. -/
theorem stale_settled (hlog : Log2Contract B.log2ui) {s : BuddyAllocator} {start : ℕ}
    {zones : List MemZone} (hstart : start < 2^64) (hz : ∀ z ∈ zones, ZoneInside B start z)
    {p : ℕ} (hp : p ∈ stalePages B s) : Covered B p (settledRegions B s start zones) := by
  obtain ⟨-, r2, r3⟩ := reset_spec hlog s start
  obtain ⟨-, m2, m3⟩ := marked_state (B := B) (popEntry B (buddyAllocInit B s start) 0).2 zones
    (by rw [r2]; exact hz) (by rw [r2]; exact hstart)
  rw [r2] at m2 m3
  refine (settleTree_rule (KeepsCover B p) (fun k hk t ht => settle_covers hk ht) ?_).2
  constructor
  · intro o ho
    have hlev := (lt_inner_iff B.depth o).mp ho
    have hclear := B.inner_cleared
    rw [m3 o (fun q hq he => by
      have := level_leaf B.depth q (by
        obtain ⟨z, hzm, hq⟩ := hq
        exact (hz z hzm).page_lt hq)
      rw [← he] at this
      omega), r3 o hlev.le, if_pos (by omega)]
  · obtain ⟨hlt, hclear, hne⟩ := hp
    have hlev := (level_leaf B.depth p hlt).le
    refine ⟨leaf B.depth p, hlev, ⟨hlt, under_refl _⟩, ?_⟩
    by_cases hpz : p ∈ zonesPages start zones
    · rw [m2 p hpz]
      decide
    · rw [m3 _ (fun q hq he => by
        have : p = q := by
          unfold leaf at he
          omega
        exact hpz (this ▸ hq)), r3 _ hlev, if_neg (by omega)]
      exact hne

/-- The sum of the states of the first `k` nodes, which the collecting loop adds up. -/
def weight (s : BuddyAllocator) (k : ℕ) : ℕ := ∑ i ∈ Finset.range k, (s.state i).val

theorem weight_succ (s : BuddyAllocator) (k : ℕ) :
    weight s (k+1) = weight s k+(s.state k).val := Finset.sum_range_succ _ k

theorem weight_mono (s : BuddyAllocator) {k n : ℕ} (h : k ≤ n) : weight s k ≤ weight s n :=
  Finset.sum_le_sum_of_subset (Finset.range_subset_range.mpr h)

theorem weight_le (s : BuddyAllocator) (k : ℕ) : weight s k ≤ 3*k := by
  induction k with
  | zero => exact le_rfl
  | succ k ih =>
    have := (s.state k).isLt
    rw [weight_succ]
    omega

theorem freeCount_weight {s : BuddyAllocator} (hsmall : 3*nodes B.depth < 2^16) :
    freeCount B s = weight s (nodes B.depth) := by
  have hle := weight_le s (nodes B.depth)
  have hloop := range_loop (fun c i => (c+(s.state i).val)%2^16)
    (fun k c => c = weight s k%2^16) (nodes B.depth) 0 (by simp [weight]) (by
      intro k hk c hc
      rw [hc, weight_succ]
      omega)
  rw [Nat.mod_eq_of_lt (by omega)] at hloop
  exact hloop

/-- Every node that is not used is entered at the sum of the states before it. -/
theorem collectOn_index (s : BuddyAllocator) (indices lg2idx : ℕ → ℕ) (k : ℕ) :
    (collectOn B s ⟨indices, lg2idx, 0⟩ k).idx = weight s k ∧
    ∀ o < k, s.state o ≠ 0 → (collectOn B s ⟨indices, lg2idx, 0⟩ k).indices (weight s o) = o := by
  refine range_loop (collectStep B s) (fun k c => c.idx = weight s k ∧
    ∀ o < k, s.state o ≠ 0 → c.indices (weight s o) = o) k ⟨indices, lg2idx, 0⟩
    ⟨by simp [weight], by simp⟩ ?_
  rintro k - c ⟨h1, h2⟩
  refine ⟨by rw [collectStep, weight_succ, h1], ?_⟩
  intro o ho hs
  simp only [collectStep, h1]
  obtain rfl | hlt : o = k ∨ o < k := by omega
  · rw [Function.update_self]
  · have hpos : 0 < (s.state o).val := Nat.pos_of_ne_zero (fun hv => hs (Fin.ext hv))
    have hle := weight_mono s (show o+1 ≤ k by omega)
    rw [weight_succ] at hle
    rw [Function.update_of_ne (by omega)]
    exact h2 o hlt hs

/-- The entries that are pushed are free afterwards. -/
theorem pushed_free (s : BuddyAllocator) (lvl entry : ℕ → ℕ) (n : ℕ) :
    ∀ j < n, ((List.range n).foldl (fun s i => pushEntry B s (lvl i) (entry i)) s).state
      (entry j) = FREE := by
  refine range_loop (fun s i => pushEntry B s (lvl i) (entry i))
    (fun k t => ∀ j < k, t.state (entry j) = FREE) n s (by simp) ?_
  intro k _ t ht j hj
  rw [pushEntry_state]
  by_cases he : entry j = entry k
  · rw [he, Function.update_self]
  · rw [Function.update_of_ne he]
    exact ht j (by
      have : j ≠ k := fun hjk => he (by rw [hjk])
      omega)

/-- A page with a stale state is free after the initialisation. -/
theorem stale_free (hlog : Log2Contract B.log2ui) (hsmall : 3*nodes B.depth < 2^16)
    (indices lg2idx : ℕ → ℕ) {s : BuddyAllocator} {start : ℕ} {zones : List MemZone}
    (hstart : start < 2^64) (hz : ∀ z ∈ zones, ZoneInside B start z) {p : ℕ}
    (hp : p ∈ stalePages B s) :
    p ∈ freePageSet B (initFreeRegionsOn B indices lg2idx s start zones) := by
  obtain ⟨o, ho, hpo, hs⟩ := stale_settled hlog hstart hz hp
  have hlt := (lt_nodes_iff B.depth o).mpr ho
  rw [initFreeRegionsOn]
  generalize settledRegions B s start zones = t at hs
  refine ⟨o, ⟨ho, ?_⟩, hpo⟩
  have hidx := (collectOn_index (B := B) t indices lg2idx (nodes B.depth)).2 o hlt hs
  have hin : weight t o < freeCount B t := by
    have hpos : 0 < (t.state o).val := Nat.pos_of_ne_zero (fun hv => hs (Fin.ext hv))
    have hle := weight_mono t (show o+1 ≤ nodes B.depth by omega)
    rw [weight_succ] at hle
    rw [freeCount_weight hsmall]
    omega
  have hfree := pushed_free (B := B) t
    (fun i => (collectOn B t ⟨indices, lg2idx, 0⟩ (nodes B.depth)).lg2idx i%2^8)
    (collectOn B t ⟨indices, lg2idx, 0⟩ (nodes B.depth)).indices (freeCount B t) _ hin
  rw [hidx] at hfree
  exact hfree

end Stale

/-- Every stale page lies in a zone. -/
def Unstale (B : Build) (s : BuddyAllocator) (start : ℕ) (zones : List MemZone) : Prop :=
  stalePages B s ⊆ zonesPages start zones

/-- The free pages are those of the zones, and the lists describe exactly the free nodes. -/
structure ExactFree (B : Build) (start : ℕ) (zones : List MemZone) (r : BuddyAllocator) :
    Prop where
  covers : freePageSet B r = zonesPages start zones
  lists : FreeLists B r

/-- The same states, lists, tails and sizes. -/
structure SameAllocator (B : Build) (r r' : BuddyAllocator) : Prop where
  states : ∀ o < nodes B.depth, r.state o = r'.state o
  lists : ∃ F, Lists B r F ∧ Lists B r' F
  tails : ∀ l ≤ B.depth, r.free l = r'.free l
  sizes : ∀ l ≤ B.depth, r.size l = r'.size l

section Repeat

variable {B : Build} {start : ℕ} {zones : List MemZone} {s s' : BuddyAllocator}

theorem Unstale.opened (hlog : Log2Contract B.log2ui) (indices lg2idx : ℕ → ℕ)
    (h : Unstale B s start zones) (hstart : start < 2^64)
    (hz : ∀ z ∈ zones, ZoneInside B start z) :
    Opened B start (zonesPages start zones)
      (initFreeRegionsOn B indices lg2idx s start zones) := by
  have hO := regions_opened hlog indices lg2idx
    (fun p hp hpz => absurd (h hp) hpz : Tame B s start zones) hstart hz
  rw [markedPages, Set.union_eq_left.mpr h] at hO
  exact hO

theorem exactFree_of_opened {r : BuddyAllocator} (h : Opened B start (zonesPages start zones) r) :
    ExactFree B start zones r :=
  ⟨freePageSet_of_tiling h.tiling, freeLists_of_inv h.inv.1⟩

/-- The pages determine a fresh allocator. -/
theorem sameAllocator_of_opened {P : Set ℕ} {r r' : BuddyAllocator} (h : Opened B start P r)
    (h' : Opened B start P r') : SameAllocator B r r' := by
  have hfree := h.tiling.unique h'.tiling h.twinFree h'.twinFree
  have hstate : ∀ o < nodes B.depth, r.state o = r'.state o := by
    intro o ho
    have hlev := (lt_nodes_iff B.depth o).mp ho
    have hiff : r.state o = FREE ↔ r'.state o = FREE := by
      constructor
      · intro hs
        exact (hfree.subset ⟨hlev, hs⟩).2
      · intro hs
        exact (hfree.symm.subset ⟨hlev, hs⟩).2
    rcases h.clean o hlev with hs | hs
    · rw [hs, hiff.mp hs]
    · rcases h'.clean o hlev with hs' | hs'
      · rw [hs', hiff.mpr hs']
      · rw [hs, hs']
  have hlist : freeList r (nodes B.depth) = freeList r' (nodes B.depth) := by
    apply List.filter_congr
    intro o ho
    rw [hstate o (List.mem_range.mp ho)]
  have hL := h.lists
  rw [hlist] at hL
  refine ⟨hstate, ⟨_, hL, h'.lists⟩, ?_, ?_⟩
  · intro l hl
    rw [hL.tail l hl, h'.lists.tail l hl]
  · intro l hl
    rw [hL.size l hl, h'.lists.size l hl]

theorem freePageSet_congr {r r' : BuddyAllocator} (h : SameAllocator B r r') :
    freePageSet B r = freePageSet B r' := by
  ext p
  constructor
  · rintro ⟨o, ⟨ho, hs⟩, hp⟩
    exact ⟨o, ⟨ho, (h.states o ((lt_nodes_iff B.depth o).mpr ho)).symm.trans hs⟩, hp⟩
  · rintro ⟨o, ⟨ho, hs⟩, hp⟩
    exact ⟨o, ⟨ho, (h.states o ((lt_nodes_iff B.depth o).mpr ho)).trans hs⟩, hp⟩

end Repeat

theorem low_nodes_small (log2ui : ℕ → ℕ) : 3*nodes (buddyLow log2ui).depth < 2^16 := by
  show 3*nodes 10 < 2^16
  decide

/-- The initialisation of the low memory allocator is exact if and only if no leaf outside of the
zones held a state before, and from such memory two runs agree if and only if the other memory
is such, too. -/
theorem low_regions_iff (log2ui : ℕ → ℕ) (hlog : Log2Contract log2ui) (zones : List MemZone)
    (hz : ∀ z ∈ zones, ZoneInside (buddyLow log2ui) 0 z) :
    (∀ indices lg2idx prior,
      ExactFree (buddyLow log2ui) 0 zones
        (initFreeRegionsOn (buddyLow log2ui) indices lg2idx prior 0 zones) ↔
      Unstale (buddyLow log2ui) prior 0 zones) ∧
    ∀ indices lg2idx prior indices' lg2idx' prior', Unstale (buddyLow log2ui) prior 0 zones →
      (SameAllocator (buddyLow log2ui)
        (initFreeRegionsOn (buddyLow log2ui) indices lg2idx prior 0 zones)
        (initFreeRegionsOn (buddyLow log2ui) indices' lg2idx' prior' 0 zones) ↔
      Unstale (buddyLow log2ui) prior' 0 zones) := by
  have hstart : 0 < 2^64 := by decide
  have hstale : ∀ indices lg2idx prior,
      freePageSet (buddyLow log2ui)
        (initFreeRegionsOn (buddyLow log2ui) indices lg2idx prior 0 zones) = zonesPages 0 zones →
      Unstale (buddyLow log2ui) prior 0 zones := by
    intro indices lg2idx prior hcov p hp
    rw [← hcov]
    exact stale_free hlog (low_nodes_small log2ui) indices lg2idx hstart hz hp
  constructor
  · intro indices lg2idx prior
    constructor
    · intro h
      exact hstale indices lg2idx prior h.covers
    · intro h
      exact exactFree_of_opened (h.opened hlog indices lg2idx hstart hz)
  · intro indices lg2idx prior indices' lg2idx' prior' h
    have hO := h.opened hlog indices lg2idx hstart hz
    constructor
    · intro hsame
      apply hstale indices' lg2idx' prior'
      rw [← freePageSet_congr hsame]
      exact freePageSet_of_tiling hO.tiling
    · intro h'
      exact sameAllocator_of_opened hO (h'.opened hlog indices' lg2idx' hstart hz)

/-- Memory in which the leaf of page 5 looks free. -/
def staleMemory : BuddyAllocator :=
  { zeroMemory with
    linkedmap := Function.update zeroMemory.linkedmap (leaf 10 5) ⟨0, 0, FREE⟩ }

theorem stale_five : 5 ∈ stalePages (buddyLow Nat.log2) staleMemory :=
  ⟨by decide, by decide, by decide⟩

theorem unstale_zero : Unstale (buddyLow Nat.log2) zeroMemory 0 [] := by
  rintro p ⟨-, -, hne⟩
  exact absurd rfl hne

theorem low_regions_exact_zero :
    ExactFree (buddyLow Nat.log2) 0 []
      (initFreeRegionsOn (buddyLow Nat.log2) (fun _ => 0) (fun _ => 0) zeroMemory 0 []) := by
  obtain ⟨h, -⟩ := low_regions_iff Nat.log2 log2_contract [] (fun z hz => absurd hz List.not_mem_nil)
  exact (h _ _ _).mpr unstale_zero

/-- Without any zone, page 5 is free after the initialisation, and it is not when the memory
was zero. -/
theorem low_regions_depend :
    ¬ ExactFree (buddyLow Nat.log2) 0 []
      (initFreeRegionsOn (buddyLow Nat.log2) (fun _ => 0) (fun _ => 0) staleMemory 0 []) ∧
    ¬ SameAllocator (buddyLow Nat.log2)
      (initFreeRegionsOn (buddyLow Nat.log2) (fun _ => 0) (fun _ => 0) zeroMemory 0 [])
      (initFreeRegionsOn (buddyLow Nat.log2) (fun _ => 0) (fun _ => 0) staleMemory 0 []) := by
  have hz : ∀ z ∈ ([] : List MemZone), ZoneInside (buddyLow Nat.log2) 0 z :=
    fun z hz => absurd hz List.not_mem_nil
  have hfive := stale_free log2_contract (low_nodes_small Nat.log2) (fun _ => 0) (fun _ => 0)
    (by decide) hz stale_five
  have hnone : zonesPages 0 [] = ∅ := by
    apply Set.eq_empty_of_forall_notMem
    rintro p ⟨z, hzm, -⟩
    exact absurd hzm List.not_mem_nil
  constructor
  · intro h
    rw [h.covers, hnone] at hfive
    exact Set.notMem_empty 5 hfive
  · intro h
    rw [← freePageSet_congr h, freePageSet_of_tiling
      (unstale_zero.opened log2_contract _ _ (by decide) hz).tiling, hnone] at hfive
    exact Set.notMem_empty 5 hfive

end BruhOS.BuddyRegions
