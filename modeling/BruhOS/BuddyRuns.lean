import Mathlib.Data.Set.Card
import BruhOS.BuddyInit

/-!
# Runs of a buddy allocator

A session is an allocator together with the blocks its callers hold, each
known by its address and its level. Callers allocate any number of pages and
return blocks they hold. Every session reachable from an initialisation keeps
the invariant of the allocator; when the region is aligned and page zero is
not offered, the blocks held are exactly the tiles handed out, so held and free
pages partition the pages offered, and the free nodes are determined by them.
-/

set_option autoImplicit false

namespace BruhOS.BuddyRuns
open BruhOS.LinkedRing BruhOS.BlockTree BruhOS.StdMath BruhOS.BuddyMachine BruhOS.BuddyLists
open BruhOS.BuddyOperations BruhOS.BuddyInit

structure Block where
  ptr : ℕ
  lvl : ℕ
  deriving DecidableEq, Repr

structure Session where
  mman : BuddyAllocator
  live : List Block

inductive Op where
  | alloc (count : ℕ)
  | free (b : Block)
  deriving DecidableEq, Repr

def step (B : Build) (w : Session) : Op → Session
  | .alloc count =>
    let r := allocPages B w.mman count
    ⟨r.2, if r.1 = 0 then w.live else ⟨r.1, B.requestLevel count⟩::w.live⟩
  | .free b =>
    let r := freePages B w.mman b.ptr b.lvl
    ⟨r.2, if r.1 = kernelSuccess then w.live.erase b else w.live⟩

def Allowed (w : Session) : Op → Prop
  | .alloc count => count < 2^32
  | .free b => b ∈ w.live

inductive Reachable (B : Build) (w₀ : Session) : Session → Prop
  | start : Reachable B w₀ w₀
  | step {w : Session} {op : Op} : Reachable B w₀ w → Allowed w op →
      Reachable B w₀ (step B w op)

/-- The two initialisations, over memory whose prior content satisfies `ok`. -/
inductive Initial (B : Build) (ok : BuddyAllocator → Prop) : BuddyAllocator → Prop
  | whole {prior : BuddyAllocator} {start : ℕ} : ok prior → start < 2^64 →
      Initial B ok (buddyAllocInit B prior start)
  | regions {prior : BuddyAllocator} {start : ℕ} {zones : List MemZone} : ok prior →
      start < 2^64 → (∀ z ∈ zones, ZoneInside B start z) →
      Initial B ok (buddyAllocInitFreeRegions B prior start zones)

def blockOf (B : Build) (s : BuddyAllocator) (o : ℕ) : Block := ⟨getAddress B s o, level o⟩

theorem blockOf_injective {B : Build} {s : BuddyAllocator} (hlog : Log2Contract B.log2ui)
    {a b : ℕ} (ha : level a ≤ B.depth) (hb : level b ≤ B.depth)
    (h : blockOf B s a = blockOf B s b) : a = b := by
  obtain ⟨hp, hl⟩ := Block.mk.inj h
  rw [getAddress_eq hlog ha, getAddress_eq hlog hb] at hp
  have h1 := firstPage_lt ha
  have h2 := firstPage_lt hb
  have h3 := region_bytes B
  have hw1 : 0 < 2^(B.depth-level a) := by positivity
  have hw2 : 0 < 2^(B.depth-level b) := by positivity
  have hf : firstPage B.depth a = firstPage B.depth b := by omega
  unfold firstPage at hf
  rw [← hl] at hf
  have := Nat.eq_of_mul_eq_mul_right hw1 hf
  have h4 := (level_bounds a).1
  have h5 := (level_bounds b).1
  rw [← hl] at h5
  omega

/-- Every block held is a tile that is handed out, and no block is held twice. -/
structure SessionInv (B : Build) (start : ℕ) (P A : Set ℕ) (w : Session) : Prop where
  inv : Inv B w.mman A P
  start : w.mman.start = start
  nodup : w.live.Nodup
  held : ∀ b ∈ w.live, ∃ o ∈ owned B w.mman A, b = blockOf B w.mman o

/-- Every tile that is handed out is held. -/
def Exact (B : Build) (A : Set ℕ) (w : Session) : Prop :=
  ∀ o ∈ owned B w.mman A, blockOf B w.mman o ∈ w.live

section Steps

variable {B : Build} {start : ℕ} {P A : Set ℕ} {w : Session}

theorem blockOf_start {s t : BuddyAllocator} (h : t.start = s.start) (o : ℕ) :
    blockOf B t o = blockOf B s o := by
  rw [blockOf, blockOf, getAddress_start o h]

theorem alloc_step (hlog : Log2Contract B.log2ui) (h : SessionInv B start P A w) {count : ℕ}
    (hc : count < 2^32) :
    ∃ A', SessionInv B start P A' (step B w (.alloc count)) ∧
      ((∀ o, level o ≤ B.depth → pages B.depth o ⊆ P → getAddress B w.mman o ≠ 0) →
        Exact B A w → Exact B A' (step B w (.alloc count))) := by
  rcases alloc_spec hlog h.inv hc with hs | ⟨o, A', h1, h2, -, h4, h5, h6, h7, h8⟩
  · have hw : step B w (.alloc count) = w := by
      simp [step, hs]
    rw [hw]
    exact ⟨A, h, fun _ he => he⟩
  generalize ha : allocPages B w.mman count = r at h4 h5 h6 h7
  obtain ⟨p, s⟩ := r
  simp only at h4 h5 h6 h7
  have hw : step B w (.alloc count) =
      ⟨s, if p = 0 then w.live else ⟨p, B.requestLevel count⟩::w.live⟩ := by
    simp only [step, ha]
  have hnew : blockOf B s o = ⟨p, B.requestLevel count⟩ := by
    rw [blockOf_start h5, blockOf, ← h4, h1]
  -- A block held before is a tile different from the new one.
  have hfresh : blockOf B s o ∉ w.live := by
    intro hm
    obtain ⟨o', ho', he⟩ := h.held _ hm
    rw [blockOf_start h5] at he
    have := blockOf_injective hlog h2 (h.inv.tiling.bound o' ho'.1) he
    exact h8 (this ▸ ho')
  have hold : ∀ b ∈ w.live, ∃ o' ∈ owned B s A', b = blockOf B s o' := by
    intro b hb
    obtain ⟨o', ho', he⟩ := h.held b hb
    exact ⟨o', by rw [h7]; exact Or.inr ho', by rw [he, blockOf_start h5]⟩
  rw [hw]
  refine ⟨A', ⟨h6, h5.trans h.start, ?_, ?_⟩, ?_⟩
  · show (if p = 0 then w.live else _).Nodup
    split
    · exact h.nodup
    · exact List.nodup_cons.mpr ⟨hnew ▸ hfresh, h.nodup⟩
  · show ∀ b ∈ (if p = 0 then w.live else _), _
    split
    · exact hold
    · intro b hb
      rcases List.mem_cons.mp hb with rfl | hb
      · exact ⟨o, by rw [h7]; exact Or.inl rfl, hnew.symm⟩
      · exact hold b hb
  · intro hne he o' ho'
    have hoA : o ∈ A' := by
      have : o ∈ owned B s A' := by rw [h7]; exact Or.inl rfl
      exact this.1
    have hp : p ≠ 0 := by
      rw [h4]
      exact hne o h2 (h6.tiling.pages_subset hoA)
    show blockOf B s o' ∈ (if p = 0 then w.live else _)
    rw [if_neg hp]
    have hm : o' ∈ insert o (owned B w.mman A) := by rw [← h7]; exact ho'
    rcases hm with rfl | hm
    · rw [hnew]
      simp
    · rw [blockOf_start h5]
      exact List.mem_cons_of_mem _ (he o' hm)

theorem free_step (hlog : Log2Contract B.log2ui) (h : SessionInv B start P A w)
    (hs : start < 2^64) {b : Block} (hb : b ∈ w.live) :
    ∃ A', SessionInv B start P A' (step B w (.free b)) ∧
      (Exact B A w → Exact B A' (step B w (.free b))) := by
  obtain ⟨o, ho, rfl⟩ := h.held b hb
  have hoD := h.inv.tiling.bound o ho.1
  rcases free_spec hlog h.inv ho (by rw [h.start]; exact hs) with hr | ⟨A', h1, h2, h3, h4⟩
  · have hw : step B w (.free (blockOf B w.mman o)) = w := by
      have hne : kernelInvalidInput ≠ kernelSuccess := by decide
      simp [step, blockOf, hr, hne]
    rw [hw]
    exact ⟨A, h, fun he => he⟩
  generalize hf : freePages B w.mman (getAddress B w.mman o) (level o) = r at h1 h2 h3 h4
  obtain ⟨code, s⟩ := r
  simp only at h1 h2 h3 h4
  have hw : step B w (.free (blockOf B w.mman o)) =
      ⟨s, w.live.erase (blockOf B w.mman o)⟩ := by
    simp [step, blockOf, hf, h1]
  rw [hw]
  refine ⟨A', ⟨h3, h2.trans h.start, h.nodup.erase _, ?_⟩, ?_⟩
  · intro b hb
    obtain ⟨hne, hb⟩ := (List.Nodup.mem_erase_iff h.nodup).mp hb
    obtain ⟨o', ho', rfl⟩ := h.held b hb
    refine ⟨o', ?_, (blockOf_start h2 o').symm⟩
    rw [h4]
    refine ⟨ho', ?_⟩
    rintro rfl
    exact hne rfl
  · intro he o' ho'
    rw [h4] at ho'
    rw [blockOf_start h2]
    apply (List.Nodup.mem_erase_iff h.nodup).mpr
    refine ⟨?_, he o' ho'.1⟩
    intro heq
    exact ho'.2 (blockOf_injective hlog (h.inv.tiling.bound o' ho'.1.1) hoD heq)

/-- The session invariant along every run. -/
theorem reachable_inv (hlog : Log2Contract B.log2ui) {w₀ : Session} (hs : start < 2^64)
    (h₀ : ∃ A, SessionInv B start P A w₀) (h : Reachable B w₀ w) :
    ∃ A, SessionInv B start P A w := by
  induction h with
  | start => exact h₀
  | @step w op _ ha ih =>
    obtain ⟨A, hA⟩ := ih
    cases op with
    | alloc count =>
      obtain ⟨A', h1, -⟩ := alloc_step hlog hA ha
      exact ⟨A', h1⟩
    | free b =>
      obtain ⟨A', h1, -⟩ := free_step hlog hA hs ha
      exact ⟨A', h1⟩

/-- When no offered block has the null address, nothing is lost along a run. -/
theorem reachable_exact (hlog : Log2Contract B.log2ui) {w₀ : Session} (hs : start < 2^64)
    (hne : ∀ s : BuddyAllocator, s.start = start → ∀ o, level o ≤ B.depth →
      pages B.depth o ⊆ P → getAddress B s o ≠ 0)
    (h₀ : ∃ A, SessionInv B start P A w₀ ∧ Exact B A w₀) (h : Reachable B w₀ w) :
    ∃ A, SessionInv B start P A w ∧ Exact B A w := by
  induction h with
  | start => exact h₀
  | @step w op _ ha ih =>
    obtain ⟨A, hA, hE⟩ := ih
    cases op with
    | alloc count =>
      obtain ⟨A', h1, h2⟩ := alloc_step hlog hA ha
      exact ⟨A', h1, h2 (hne w.mman hA.start) hE⟩
    | free b =>
      obtain ⟨A', h1, h2⟩ := free_step hlog hA hs ha
      exact ⟨A', h1, h2 hE⟩

end Steps

/-- The representation of the free lists: the ring of each level holds exactly
its free nodes, and no free node lies below another. -/
structure FreeLists (B : Build) (s : BuddyAllocator) : Prop where
  ring : ∀ l ≤ B.depth, ∃ ring : List ℕ,
    Linked s.next s.prev (B.head l) ring (B.head l) ∧ ring.Nodup ∧
    (∀ o, o ∈ ring ↔ levelStart l ≤ o ∧ o ≤ levelEnd l ∧ s.state o = FREE) ∧
    s.free l = lastOf (B.head l) ring ∧ s.size l = ring.length
  antichain : ∀ a < nodes B.depth, ∀ b < nodes B.depth, s.state a = FREE → s.state b = FREE →
    Under a b → a = b

section Representation

variable {B : Build}

theorem level_range_iff (o l : ℕ) : level o = l ↔ levelStart l ≤ o ∧ o ≤ levelEnd l := by
  have hpos : 0 < 2^l := by positivity
  rw [level_eq_iff, levelEnd, levelStart, pow_succ]
  omega

theorem freeLists_of_inv {s : BuddyAllocator} {A P : Set ℕ} (h : Inv B s A P) : FreeLists B s := by
  obtain ⟨F, hR⟩ := h.rep
  constructor
  · intro l hl
    refine ⟨F l, hR.ring l hl, hR.nodup l hl, ?_, hR.tail l hl, hR.size l hl⟩
    intro o
    rw [← and_assoc, ← level_range_iff]
    constructor
    · intro ho
      exact ⟨hR.level l hl o ho, (hR.free_of_mem hl ho).2⟩
    · rintro ⟨rfl, hs⟩
      exact (hR.mem_free_iff.mp ⟨hl, hs⟩).2
  · intro a ha b hb hsa hsb hu
    exact h.tiling.antichain a (h.free_subset ⟨(lt_nodes_iff _ _).mp ha, hsa⟩)
      b (h.free_subset ⟨(lt_nodes_iff _ _).mp hb, hsb⟩) hu

/-- A session that has just been initialised. -/
theorem initial_inv (hlog : Log2Contract B.log2ui) {ok : BuddyAllocator → Prop}
    (hok : ∀ s, ok s → Blank B s) {s : BuddyAllocator} (h : Initial B ok s) :
    ∃ start P A, start < 2^64 ∧ SessionInv B start P A ⟨s, []⟩ := by
  cases h with
  | @whole prior start hp hs =>
    exact ⟨start, _, _, hs, (init_inv prior start (hok _ hp)).1,
      (init_rep prior start (hok _ hp)).2, List.nodup_nil, by simp⟩
  | @regions prior start zones hp hs hz =>
    obtain ⟨A, h1, -, h3⟩ := regions_inv hlog prior start zones (hok _ hp) hs hz
    exact ⟨start, _, A, hs, h1, h3, List.nodup_nil, by simp⟩

theorem freeLists_of_reachable (hlog : Log2Contract B.log2ui) {ok : BuddyAllocator → Prop}
    (hok : ∀ s, ok s → Blank B s) {s : BuddyAllocator} {w : Session} (h : Initial B ok s)
    (hw : Reachable B ⟨s, []⟩ w) : FreeLists B w.mman := by
  obtain ⟨start, P, A, hs, hA⟩ := initial_inv hlog hok h
  obtain ⟨A', hA'⟩ := reachable_inv hlog hs ⟨A, hA⟩ hw
  exact freeLists_of_inv hA'.inv

end Representation

/-- The node array of the low memory allocator before its initialisation. -/
def ZeroMap (s : BuddyAllocator) : Prop := ∀ o < nodes 10, s.linkedmap o = ⟨0, 0, USED⟩

/-- Every state that either allocator reaches has well-formed free lists: from
any prior memory content for `buddy.c`, from a zeroed node array for
`buddyLow.c`. -/
theorem free_list_representation (log2ui : ℕ → ℕ) (hlog : Log2Contract log2ui) :
    (∀ s w, Initial (buddy log2ui) (fun _ => True) s →
      Reachable (buddy log2ui) ⟨s, []⟩ w → FreeLists (buddy log2ui) w.mman) ∧
    (∀ s w, Initial (buddyLow log2ui) ZeroMap s →
      Reachable (buddyLow log2ui) ⟨s, []⟩ w → FreeLists (buddyLow log2ui) w.mman) := by
  constructor
  · intro s w h hw
    exact freeLists_of_reachable hlog (fun s _ => blank_buddy log2ui s) h hw
  · intro s w h hw
    exact freeLists_of_reachable hlog (fun s hs => blank_of_zero (buddyLow log2ui) s hs) h hw

def zeroMemory : BuddyAllocator := ⟨0, fun _ => ⟨0, 0, USED⟩, fun _ => 0, fun _ => 0⟩

theorem free_list_representation_run :
    FreeLists (buddy Nat.log2) (step (buddy Nat.log2)
      ⟨buddyAllocInitFreeRegions (buddy Nat.log2) zeroMemory 0 [⟨0x400000, 1024⟩], []⟩
      (.alloc 3)).mman ∧
    FreeLists (buddyLow Nat.log2) (step (buddyLow Nat.log2)
      ⟨buddyAllocInit (buddyLow Nat.log2) zeroMemory 0, []⟩ (.alloc 1000)).mman := by
  obtain ⟨h1, h2⟩ := free_list_representation Nat.log2 log2_contract
  refine ⟨h1 _ _ (.regions trivial (by decide) ?_) (.step .start (by decide : 3 < 2^32)),
    h2 _ _ (.whole (fun o _ => rfl) (by decide)) (.step .start (by decide : 1000 < 2^32))⟩
  intro z hz
  rw [List.mem_singleton.mp hz]
  exact ⟨by decide, by decide, by decide, by decide⟩

end BruhOS.BuddyRuns
