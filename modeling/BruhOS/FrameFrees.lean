import BruhOS.FrameLocks
import BruhOS.NodeCodec

/-!
# Which block a free gives back

`pfa_free` computes the node of a block from its address and its size. The
number of the allocator is cut to 16 bits and not compared with the number of
zones, and the distance to the start of the region is divided with rounding.
A success says nothing about the address unless it is a multiple of the size
inside the region of an existing zone.
-/

set_option autoImplicit false

namespace BruhOS.FrameFrees
open BruhOS.StdMath BruhOS.BlockTree BruhOS.BuddyMachine BruhOS.BuddyLists BruhOS.BuddyOperations
open BruhOS.BuddyRuns BruhOS.BuddySafety BruhOS.BuddyInit BruhOS.PfaInit BruhOS.ZoneLocks
open BruhOS.PageFrames BruhOS.FrameLocks

section Node

variable {B : Build} {s : BuddyAllocator}

/-- The node is in the tree and is the block of these bytes. -/
structure NodeIs (B : Build) (s : BuddyAllocator) (o ptr bytes : ℕ) : Prop where
  inTree : o < nodes B.depth
  address : getAddress B s o = ptr
  size : B.blockSize (B.getLevel o) = bytes

/-- The address is a multiple of the size, counted from the start of the region, and the block
ends inside the region. -/
structure BlockAt (B : Build) (s : BuddyAllocator) (ptr bytes : ℕ) : Prop where
  aligned : (ptr-s.start)%bytes = 0
  inside : ptr-s.start+bytes ≤ 2^(B.depth+12)

theorem blockSize_level {l k : ℕ} (hl : l ≤ B.depth) (hk : k ≤ B.depth) :
    B.blockSize l = 2^k*2^12 ↔ l = B.depth-k := by
  rw [Build.blockSize, ← pow_add, Nat.pow_right_inj (le_refl 2)]
  omega

theorem firstPage_bytes {o k : ℕ} (hk : k ≤ B.depth) (ho : level o = B.depth-k) :
    firstPage B.depth o*2^12 = (o+1-2^(level o))*(2^k*2^12) := by
  rw [firstPage, ho, Nat.sub_sub_self hk, Nat.mul_assoc]

/-- The node computed for an address of the region is its block exactly when there is one. -/
theorem freeOffset_node_iff (hlog : Log2Contract B.log2ui) {ptr k : ℕ} (hk : k ≤ B.depth)
    (hle : s.start ≤ ptr) (hptr : ptr < 2^64) :
    NodeIs B s (freeOffset B s ptr (B.depth-k)) ptr (2^k*2^12) ↔ BlockAt B s ptr (2^k*2^12) := by
  constructor
  · intro h
    generalize freeOffset B s ptr (B.depth-k) = o at h
    have ho : level o ≤ B.depth := (lt_nodes_iff B.depth o).mp h.inTree
    have hsize := h.size
    rw [getLevel_eq B hlog ho, blockSize_level ho hk] at hsize
    have haddr := h.address
    rw [getAddress_eq hlog ho] at haddr
    have hfp := firstPage_lt ho
    have hreg := region_bytes B
    have hpos : 0 < 2^(B.depth-level o) := by positivity
    have hnowrap : ptr-s.start = firstPage B.depth o*2^12 := by omega
    constructor
    · rw [hnowrap, firstPage_bytes hk hsize]
      exact Nat.mul_mod_left _ _
    · rw [hsize, Nat.sub_sub_self hk] at hfp
      rw [hnowrap, pow_add, ← Nat.add_mul]
      exact Nat.mul_le_mul_right _ hfp
  · intro h
    obtain ⟨q, hq⟩ := Nat.dvd_of_mod_eq_zero h.aligned
    have hq' : q < 2^(B.depth-k) := by
      have hin := h.inside
      have hregion : 2^(B.depth+12) = 2^k*2^12*2^(B.depth-k) := by
        rw [← pow_add, ← pow_add]
        congr 1
        omega
      rw [hq, hregion, ← Nat.mul_succ] at hin
      exact Nat.le_of_mul_le_mul_left hin (by positivity)
    have hlevel : level (2^(B.depth-k)-1+q) = B.depth-k := level_leaf _ _ hq'
    have ho : level (2^(B.depth-k)-1+q) ≤ B.depth := by
      rw [hlevel]
      exact Nat.sub_le _ _
    have hpos : 0 < 2^(B.depth-k) := by positivity
    have hfirst : s.start+firstPage B.depth (2^(B.depth-k)-1+q)*2^12 = ptr := by
      rw [firstPage_bytes hk hlevel, hlevel]
      have hidx : 2^(B.depth-k)-1+q+1-2^(B.depth-k) = q := by omega
      rw [hidx, Nat.mul_comm q, ← hq]
      omega
    have hoff := freeOffset_eq (s := s) ho hfirst.symm
    rw [hlevel] at hoff
    rw [hoff]
    refine ⟨(lt_nodes_iff B.depth _).mpr ho, ?_, ?_⟩
    · rw [getAddress_eq hlog ho, hfirst, Nat.mod_eq_of_lt hptr]
    · rw [getLevel_eq B hlog ho, blockSize_level ho hk]
      exact hlevel

end Node

section Selected

variable (log2ui : ℕ → ℕ) (p : PageFrameAllocator) (ptr blockSize : ℕ)

/-- The allocator that a free of the address is handed to. -/
def selected : Build × BuddyAllocator :=
  if ptr < lowLimit then (buddyLow log2ui, p.lowZoneAllocator.manager)
  else (buddy log2ui, (p.zoneAllocators (allocIdx ptr)).manager)

/-- The node that the allocator pushes on its free list. -/
def freedNode : ℕ :=
  freeOffset (selected log2ui p ptr).1 (selected log2ui p ptr).2 ptr
    (freeLevel log2ui (selected log2ui p ptr).1.depth (pageCount blockSize))

/-- The allocator exists, and the node is the block of the rounded size at the address. -/
structure Manages : Prop where
  zone : ¬ ptr < lowLimit → allocIdx ptr < p.zoneCount
  node : NodeIs (selected log2ui p ptr).1 (selected log2ui p ptr).2
    (freedNode log2ui p ptr blockSize) ptr (pageCount blockSize*2^12)

end Selected

section Free

variable {log2ui : ℕ → ℕ} {p : PageFrameAllocator} {ptr blockSize : ℕ}

theorem freeLevel_eq (hlog : Log2Contract log2ui) {depth k : ℕ} (hd : depth ≤ 16) (hk : k ≤ depth) :
    freeLevel log2ui depth (2^k) = depth-k := by
  have hlt : 2^k < 2^32 := Nat.pow_lt_pow_right (by decide) (by omega)
  rw [freeLevel, hlog _ (by positivity) hlt, Nat.log2_two_pow]
  omega

/-- A size that passes the checks is a power of two that fits the allocator. -/
theorem freed_size (log2ui : ℕ → ℕ) (p : PageFrameAllocator) (hbs : blockSize < 2^32) (hok : ¬ BadFree ptr (pageCount blockSize)) :
    ∃ k, pageCount blockSize = 2^k ∧ k ≤ (selected log2ui p ptr).1.depth := by
  unfold BadFree at hok
  rw [not_or, not_or, not_or] at hok
  obtain ⟨hptr, hbig, hlow, hzero⟩ := hok
  rcases pageCount_cases blockSize hbs with h0 | ⟨-, -, hpow, -⟩
  · exact absurd h0 hzero
  · refine ⟨Nat.clog 2 blockSize, hpow, ?_⟩
    rw [hpow] at hbig hlow
    generalize Nat.clog 2 blockSize = k at *
    have h16 : k ≤ 16 := (Nat.pow_le_pow_iff_right (by decide)).mp (Nat.not_lt.mp hbig)
    unfold selected
    by_cases hl : ptr < lowLimit
    · rw [if_pos hl]
      have hend : ptr+2^k*2^12 ≤ lowLimit := by
        by_contra hgt
        exact hlow ⟨hl, by omega⟩
      unfold lowLimit at hend
      have h10 : 2^k ≤ 2^10 := by omega
      exact (Nat.pow_le_pow_iff_right (by decide)).mp h10
    · rw [if_neg hl]
      exact h16

/-- A free that succeeds was not rejected by its allocator. -/
theorem freed_accepted {fuel : ℕ} {q : PageFrameAllocator}
    (h : pfaFree log2ui fuel p ptr blockSize = some (kernelSuccess, q)) :
    ¬ BadFree ptr (pageCount blockSize) ∧
    ¬ Rejects (selected log2ui p ptr).1 (selected log2ui p ptr).2 ptr
      (freeLevel log2ui (selected log2ui p ptr).1.depth (pageCount blockSize)) := by
  unfold selected
  rcases pfaFree_some h with ⟨-, hr⟩ | ⟨hok, hlow, hr⟩ | ⟨hok, hlow, hr⟩
  · exact absurd (congrArg Prod.fst hr) (show kernelSuccess ≠ kernelBadData by decide)
  · rw [if_pos hlow]
    refine ⟨hok, fun hrej => ?_⟩
    rw [freeLow_rejects hrej] at hr
    exact absurd (congrArg Prod.fst hr) (show kernelSuccess ≠ kernelInvalidInput by decide)
  · rw [if_neg hlow]
    refine ⟨hok, fun hrej => ?_⟩
    rw [freeZone_rejects hrej] at hr
    exact absurd (congrArg Prod.fst hr) (show kernelSuccess ≠ kernelInvalidInput by decide)

theorem selected_log2 : (selected log2ui p ptr).1.log2ui = log2ui := by
  unfold selected
  split <;> rfl

theorem freedNode_iff (hlog : Log2Contract log2ui) (hptr : ptr < 2^64) (hbs : blockSize < 2^32)
    (hok : ¬ BadFree ptr (pageCount blockSize)) (hle : (selected log2ui p ptr).2.start ≤ ptr) :
    NodeIs (selected log2ui p ptr).1 (selected log2ui p ptr).2 (freedNode log2ui p ptr blockSize) ptr
        (pageCount blockSize*2^12) ↔
      BlockAt (selected log2ui p ptr).1 (selected log2ui p ptr).2 ptr
        (pageCount blockSize*2^12) := by
  obtain ⟨k, hpow, hk⟩ := freed_size log2ui p hbs hok
  rw [freedNode, hpow, freeLevel_eq hlog (selected log2ui p ptr).1.depth_le hk]
  refine freeOffset_node_iff ?_ hk hle hptr
  rw [selected_log2]
  exact hlog

end Free

/-- A successful free gives back the block at its address exactly when the zone exists and the
address is a multiple of the rounded size inside the region. -/
theorem free_managed_iff (log2ui : ℕ → ℕ) (hlog : Log2Contract log2ui) (p q : PageFrameAllocator)
    (fuel ptr blockSize : ℕ) (hptr : ptr < 2^64) (hbs : blockSize < 2^32)
    (h : pfaFree log2ui fuel p ptr blockSize = some (kernelSuccess, q)) :
    Manages log2ui p ptr blockSize ↔
      (¬ ptr < lowLimit → allocIdx ptr < p.zoneCount) ∧
      BlockAt (selected log2ui p ptr).1 (selected log2ui p ptr).2 ptr
        (pageCount blockSize*2^12) := by
  obtain ⟨hok, hacc⟩ := freed_accepted h
  have hle : (selected log2ui p ptr).2.start ≤ ptr := by
    by_contra hlt
    exact hacc (Or.inr (Or.inl (by omega)))
  have hnode := freedNode_iff (p := p) hlog hptr hbs hok hle
  exact ⟨fun hm => ⟨hm.zone, hnode.mp hm.node⟩, fun hc => ⟨hc.1, hnode.mpr hc.2⟩⟩

section Small

/-- In the example every page-aligned free above 4 MiB goes through. -/
theorem oneWindow_frees (ptr blockSize : ℕ) (hok : ¬ BadFree ptr (pageCount blockSize))
    (hlow : ¬ ptr < lowLimit) (hreach : ptr < 2^28) (hpage : ptr%2^12 = 0)
    (hlvl : freeLevel Nat.log2 16 (pageCount blockSize) ≤ 16) :
    ∃ q, pfaFree Nat.log2 1 oneWindow ptr blockSize = some (kernelSuccess, q) := by
  have hin : InReach oneWindow ptr := Or.inr (by
    show ptr < 2^28*1
    omega)
  have hidx : allocIdx ptr = 0 := by
    unfold allocIdx
    omega
  have hacc : ¬ Rejects (buddy Nat.log2) (oneWindow.zoneAllocators (allocIdx ptr)).manager ptr
      (freeLevel Nat.log2 16 (pageCount blockSize)) := by
    rw [hidx]
    rintro (h0 | hlt | hoff | hdeep)
    · exact hok (Or.inl h0)
    · rw [oneWindow_start] at hlt
      exact Nat.not_lt_zero _ hlt
    · exact hoff hpage
    · exact Nat.not_lt.mpr hlvl hdeep
  rw [pfaFree_eq oneWindow_flags (by decide) hin 0, if_neg hok, if_neg hlow, freeZone_accepts hacc]
  exact ⟨_, rfl⟩

theorem oneWindow_selected : (selected Nat.log2 oneWindow 0x401000).2.start = 0 := by
  rw [selected, if_neg (by decide)]
  exact oneWindow_start

/-- Two pages at an odd page: the block before is given back, and the call succeeds. -/
theorem free_unaligned :
    (∃ q, pfaFree Nat.log2 1 oneWindow 0x401000 2 = some (kernelSuccess, q)) ∧
    ¬ Manages Nat.log2 oneWindow 0x401000 2 := by
  have hok : ¬ BadFree 0x401000 (pageCount 2) := by decide
  refine ⟨oneWindow_frees 0x401000 2 hok (by decide) (by decide) (by decide) (by decide), fun hm => ?_⟩
  have hblock := (freedNode_iff log2_contract (by decide) (by decide) hok
    (by rw [oneWindow_selected]; decide)).mp hm.node
  have haligned := hblock.aligned
  rw [oneWindow_selected] at haligned
  exact absurd haligned (by decide)

theorem free_page : Manages Nat.log2 oneWindow 0x401000 1 := by
  obtain ⟨q, hq⟩ := oneWindow_frees 0x401000 1 (by decide) (by decide)
    (by decide) (by decide) (by decide)
  refine (free_managed_iff Nat.log2 log2_contract oneWindow q 1 0x401000 1 (by decide) (by decide)
    hq).mpr ⟨fun _ => by decide, ?_, ?_⟩
  · rw [oneWindow_selected]
    decide
  · rw [oneWindow_selected, selected, if_neg (by decide)]
    decide

end Small

end BruhOS.FrameFrees
