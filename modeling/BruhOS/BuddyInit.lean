import BruhOS.CountedLoop
import BruhOS.BuddyOperations

/-!
# Initialisation from a list of free regions

The free regions are first marked page by page on the deepest level. Every
inner node, from the last to the first, then takes over from its children when
both are free; this keeps the marked pages tiled and ends without a free pair
of buddies. The surviving nodes are counted, collected in tree order and
pushed on the lists. The 16-bit counter does not wrap, because the parents of
the surviving nodes are pairwise different.
-/

set_option autoImplicit false

namespace BruhOS.BuddyInit
open BruhOS.LinkedRing BruhOS.BlockTree BruhOS.StdMath BruhOS.BuddyMachine BruhOS.BuddyLists
open BruhOS.BuddyOperations BruhOS.CountedLoop

/-- The part of the node array that initialisation does not clear holds no
stale state. For the build of `buddy.c` this part is empty. -/
def Blank (B : Build) (s : BuddyAllocator) : Prop :=
  ∀ o, B.cleared ≤ o → level o ≤ B.depth → s.state o = USED

theorem blank_buddy (log2ui : ℕ → ℕ) (s : BuddyAllocator) : Blank (buddy log2ui) s := by
  intro o h1 h2
  have h3 : level o ≤ 16 := h2
  have h4 := (lt_nodes_iff 16 o).mpr h3
  have h5 : 2^17-1 ≤ o := h1
  have h6 : nodes 16 = 2^17-1 := by decide
  omega

theorem blank_of_zero (B : Build) (s : BuddyAllocator)
    (h : ∀ o < nodes B.depth, s.linkedmap o = ⟨0, 0, USED⟩) : Blank B s := by
  intro o _ ho
  rw [BuddyAllocator.state, h o ((lt_nodes_iff B.depth o).mpr ho)]

section Empty

variable {B : Build}

def initLevels (B : Build) (s : BuddyAllocator) (n : ℕ) : BuddyAllocator :=
  (List.range n).foldl (initLevel B) s

theorem initLevels_succ (s : BuddyAllocator) (n : ℕ) :
    initLevels B s (n+1) = initLevel B (initLevels B s n) n := by
  simp [initLevels, List.range_succ]

theorem initLevels_spec (s : BuddyAllocator) (n : ℕ) (hn : n ≤ B.depth+1) :
    (∀ i < n, (initLevels B s n).linkedmap (B.head i) = ⟨B.head i, B.head i, USED⟩ ∧
      (initLevels B s n).free i = B.head i ∧ (initLevels B s n).size i = 0) ∧
    (∀ o, (∀ i < n, o ≠ B.head i) → (initLevels B s n).linkedmap o = s.linkedmap o) ∧
    (initLevels B s n).start = s.start := by
  induction n with
  | zero => simp [initLevels]
  | succ n ih =>
    obtain ⟨h1, h2, h3⟩ := ih (by omega)
    have hfit := head_fits B (l := n) (by omega)
    rw [initLevels_succ]
    refine ⟨?_, ?_, h3⟩
    · intro i hi
      by_cases hin : i = n
      · subst hin
        simp [initLevel, setSize, setFree, hfit]
      · have hne : B.head i ≠ B.head n := by unfold Build.head; omega
        simpa [initLevel, setSize, setFree, hin, hne] using h1 i (by omega)
    · intro o ho
      have hne := ho n (by omega)
      simpa [initLevel, setSize, setFree, hne] using h2 o (fun i hi => ho i (by omega))

/-- The state before the first push: every list is empty, and the nodes that were not cleared
keep their state. -/
theorem empty_lists (s : BuddyAllocator) (start : ℕ) :
    Lists B (initLevels B (clearNodes B { s with start := start }) (B.depth+1)) (fun _ => []) ∧
    ∀ o, level o ≤ B.depth →
      (initLevels B (clearNodes B { s with start := start }) (B.depth+1)).state o =
        if o < B.cleared then USED else s.state o := by
  obtain ⟨h1, h2, -⟩ := initLevels_spec (B := B) (clearNodes B { s with start := start })
    (B.depth+1) le_rfl
  refine ⟨⟨⟨?_, ?_, ?_, ?_⟩, ?_⟩, ?_⟩
  · intro l hl
    have := (h1 l (by omega)).1
    simp [Linked, BuddyAllocator.next, BuddyAllocator.prev, this]
  · simp
  · simp
  · intro l hl
    simpa using (h1 l (by omega)).2.2
  · intro l hl
    simpa [lastOf] using (h1 l (by omega)).2.1
  · intro o ho
    have hne : ∀ i < B.depth+1, o ≠ B.head i := fun i _ => (offset_lt_head B i ho).ne
    rw [BuddyAllocator.state, h2 o hne]
    simp only [clearNodes]
    split
    · rfl
    · rfl

theorem empty_rep (s : BuddyAllocator) (start : ℕ) (hb : Blank B s) :
    Rep B (initLevels B (clearNodes B { s with start := start }) (B.depth+1)) (fun _ => []) := by
  obtain ⟨h1, h2⟩ := empty_lists (B := B) s start
  refine ⟨h1, ?_⟩
  intro o ho
  rw [h2 o ho, if_neg List.not_mem_nil]
  split
  · rfl
  · exact hb o (by omega) ho

theorem buddyAllocInit_eq (s : BuddyAllocator) (start : ℕ) :
    buddyAllocInit B s start =
      pushEntry B (initLevels B (clearNodes B { s with start := start }) (B.depth+1)) 0 0 := by
  unfold buddyAllocInit
  rfl

theorem init_rep (s : BuddyAllocator) (start : ℕ) (hb : Blank B s) :
    Rep B (buddyAllocInit B s start) (Function.update (fun _ => []) 0 [0]) ∧
    (buddyAllocInit B s start).start = start := by
  have hR := empty_rep s start hb
  have h0 : level 0 = 0 := (level_zero_iff 0).mpr rfl
  rw [buddyAllocInit_eq]
  constructor
  · refine hR.push (Nat.zero_le _) h0 ?_
    rw [hR.mem_free_iff]
    simp
  · rw [pushEntry_start, (initLevels_spec _ _ le_rfl).2.2]
    rfl

theorem under_root (b : ℕ) : Under 0 b := by
  have hb := level_bounds b
  refine ⟨level b, ?_⟩
  rw [pow_succ] at hb
  rw [Nat.div_eq_iff (by positivity)]
  omega

/-- `buddy_alloc_init` makes the whole region one free block. -/
theorem init_inv (s : BuddyAllocator) (start : ℕ) (hb : Blank B s) :
    Inv B (buddyAllocInit B s start) {0} {p | p < 2^B.depth} ∧
    owned B (buddyAllocInit B s start) {0} = ∅ := by
  obtain ⟨hR, -⟩ := init_rep s start hb
  have h0 : level 0 = 0 := (level_zero_iff 0).mpr rfl
  have hfree : freeNodes B (buddyAllocInit B s start) = {0} := by
    ext o
    rw [hR.mem_free_iff, Set.mem_singleton_iff]
    constructor
    · rintro ⟨-, hm⟩
      by_cases hl : level o = 0
      · exact (level_zero_iff o).mp hl
      · simp [hl] at hm
    · rintro rfl
      simp [h0]
  refine ⟨⟨⟨_, hR⟩, ⟨?_, ?_, ?_⟩, hfree.le, ?_⟩, ?_⟩
  · rintro a rfl
    omega
  · rintro a rfl b rfl -
    rfl
  · intro p
    constructor
    · intro hp
      exact ⟨0, rfl, hp, under_root _⟩
    · rintro ⟨a, rfl, hp⟩
      exact hp.1
  · rw [hfree]
    rintro j ⟨h1, -⟩
    have : 2*j+1 = 0 := h1
    omega
  · rw [owned, hfree]
    simp

end Empty

section Marking

variable {B : Build}

/-- Only state fields differ. -/
structure SameLists (s t : BuddyAllocator) : Prop where
  next : t.next = s.next
  prev : t.prev = s.prev
  free : t.free = s.free
  size : t.size = s.size
  start : t.start = s.start

theorem SameLists.refl (s : BuddyAllocator) : SameLists s s := ⟨rfl, rfl, rfl, rfl, rfl⟩

theorem SameLists.trans {s t u : BuddyAllocator} (h : SameLists s t) (k : SameLists t u) :
    SameLists s u :=
  ⟨k.next.trans h.next, k.prev.trans h.prev, k.free.trans h.free, k.size.trans h.size,
    k.start.trans h.start⟩

theorem sameLists_setState (s : BuddyAllocator) (o : ℕ) (v : BlockState) :
    SameLists s (setState s o v) := by
  constructor <;> simp

theorem SameLists.lists {s t : BuddyAllocator} {F : ℕ → List ℕ} (h : SameLists s t)
    (hL : Lists B s F) : Lists B t F := by
  refine ⟨⟨?_, hL.nodup, hL.level, ?_⟩, ?_⟩
  · rw [h.next, h.prev]
    exact hL.ring
  · rw [h.size]
    exact hL.size
  · rw [h.free]
    exact hL.tail

theorem markZone_spec (s : BuddyAllocator) (z : MemZone) :
    SameLists s (markZone B s z) ∧ ∀ o, (markZone B s z).state o =
      if zoneOffset B s.start z ≤ o ∧ o < zoneOffset B s.start z+z.pages then FREE
      else s.state o := by
  apply range_loop (I := fun k t => SameLists s t ∧ ∀ o, t.state o =
    if zoneOffset B s.start z ≤ o ∧ o < zoneOffset B s.start z+k then FREE else s.state o)
  · exact ⟨SameLists.refl s, fun o => by rw [if_neg (by omega)]⟩
  · rintro k - t ⟨h1, h2⟩
    refine ⟨h1.trans (sameLists_setState t _ _), ?_⟩
    intro o
    rw [setState_state, h1.start]
    by_cases ho : o = zoneOffset B s.start z+k
    · rw [ho, Function.update_self, if_pos (by omega)]
    · rw [Function.update_of_ne ho, h2 o]
      congr 1
      simp only [eq_iff_iff]
      omega

/-- A page aligned zone inside the managed region. -/
structure ZoneInside (B : Build) (start : ℕ) (z : MemZone) : Prop where
  aligned : z.mem%2^12 = 0
  lower : start ≤ z.mem
  upper : z.mem+z.pages*2^12 ≤ start+2^B.depth*2^12
  word : z.mem < 2^64

/-- The pages of a zone, counted from the start of the region. -/
def zonePages (start : ℕ) (z : MemZone) : Set ℕ :=
  {p | (z.mem-start)/2^12 ≤ p ∧ p < (z.mem-start)/2^12+z.pages}

def zonesPages (start : ℕ) (zones : List MemZone) : Set ℕ :=
  {p | ∃ z ∈ zones, p ∈ zonePages start z}

theorem ZoneInside.page_lt {start p : ℕ} {z : MemZone} (h : ZoneInside B start z)
    (hp : p ∈ zonePages start z) : p < 2^B.depth := by
  have h1 := h.lower
  have h2 := h.upper
  have h3 : p < (z.mem-start)/2^12+z.pages := hp.2
  omega

theorem ZoneInside.offset {start : ℕ} {z : MemZone} (h : ZoneInside B start z)
    (hs : start < 2^64) (hp : 0 < z.pages) :
    zoneOffset B start z = leaf B.depth ((z.mem-start)/2^12) := by
  have h1 := h.lower
  have h2 := h.upper
  have h3 := h.word
  have h4 := region_bytes B
  have hpos : 0 < 2^B.depth := by positivity
  have hsub : (z.mem+(2^64-start))%2^64 = z.mem-start := by omega
  rw [zoneOffset, hsub, levelStart, leaf]
  omega

/-- All state fields of the tree hold one of the two named values. -/
def Clean (B : Build) (s : BuddyAllocator) : Prop :=
  ∀ o, level o ≤ B.depth → s.state o = FREE ∨ s.state o = USED

/-- The offsets written for a zone are the leaves of its pages. -/
theorem ZoneInside.range_iff {start : ℕ} {z : MemZone} (h : ZoneInside B start z)
    (hs : start < 2^64) (o : ℕ) :
    (zoneOffset B start z ≤ o ∧ o < zoneOffset B start z+z.pages) ↔
      ∃ p ∈ zonePages start z, o = leaf B.depth p := by
  rcases Nat.eq_zero_or_pos z.pages with hp0 | hp0
  · constructor
    · rintro ⟨ha, hb⟩
      omega
    · rintro ⟨p, hp, -⟩
      have ha : (z.mem-start)/2^12 ≤ p := hp.1
      have hb : p < (z.mem-start)/2^12+z.pages := hp.2
      omega
  · rw [h.offset hs hp0]
    constructor
    · rintro ⟨ha, hb⟩
      refine ⟨o-(2^B.depth-1), ⟨?_, ?_⟩, ?_⟩ <;> unfold leaf at * <;> omega
    · rintro ⟨p, ⟨ha, hb⟩, rfl⟩
      unfold leaf
      omega

/-- Marking sets the leaves of the zones and nothing else. -/
theorem marked_state (s : BuddyAllocator) (zones : List MemZone)
    (hz : ∀ z ∈ zones, ZoneInside B s.start z) (hs : s.start < 2^64) :
    SameLists s (zones.foldl (markZone B) s) ∧
    (∀ p ∈ zonesPages s.start zones, (zones.foldl (markZone B) s).state (leaf B.depth p) = FREE) ∧
    ∀ o, (∀ p ∈ zonesPages s.start zones, o ≠ leaf B.depth p) →
      (zones.foldl (markZone B) s).state o = s.state o := by
  apply list_loop (I := fun ys t => SameLists s t ∧
    (∀ p ∈ zonesPages s.start ys, t.state (leaf B.depth p) = FREE) ∧
    ∀ o, (∀ p ∈ zonesPages s.start ys, o ≠ leaf B.depth p) → t.state o = s.state o)
  · refine ⟨SameLists.refl s, ?_, fun o _ => rfl⟩
    rintro p ⟨z, hz, -⟩
    exact absurd hz (by simp)
  · rintro ys z zs t hxs ⟨h1, h2, h3⟩
    have hzin := hz z (by rw [hxs]; simp)
    obtain ⟨k1, k2⟩ := markZone_spec (B := B) t z
    rw [h1.start] at k2
    refine ⟨h1.trans k1, ?_, ?_⟩
    · rintro p ⟨w, hw, hp⟩
      rw [k2]
      split
      next => rfl
      next hr =>
        apply h2 p
        rcases List.mem_append.mp hw with hw | hw
        · exact ⟨w, hw, hp⟩
        · rw [List.mem_singleton.mp hw] at hp
          exact absurd ((hzin.range_iff hs _).mpr ⟨p, hp, rfl⟩) hr
    · intro o ho
      rw [k2, if_neg]
      · exact h3 o (fun p ⟨w, hw, hp⟩ => ho p ⟨w, by simp [hw], hp⟩)
      · intro hr
        obtain ⟨p, hp, he⟩ := (hzin.range_iff hs o).mp hr
        exact ho p ⟨z, by simp, hp⟩ he

/-- Pages whose node is not cleared and holds a stale state. -/
def stalePages (B : Build) (s : BuddyAllocator) : Set ℕ :=
  {p | p < 2^B.depth ∧ B.cleared ≤ leaf B.depth p ∧ s.state (leaf B.depth p) ≠ USED}

/-- Outside of the zones a stale state is one of the two named ones. -/
def Tame (B : Build) (s : BuddyAllocator) (start : ℕ) (zones : List MemZone) : Prop :=
  ∀ p ∈ stalePages B s, p ∉ zonesPages start zones → s.state (leaf B.depth p) = FREE

theorem blank_stale {s : BuddyAllocator} (h : Blank B s) : stalePages B s = ∅ := by
  apply Set.eq_empty_of_forall_notMem
  rintro p ⟨h1, h2, h3⟩
  exact h3 (h _ h2 (level_leaf B.depth p h1).le)

theorem tame_of_blank {s : BuddyAllocator} (h : Blank B s) (start : ℕ) (zones : List MemZone) :
    Tame B s start zones := by
  intro p hp
  rw [blank_stale h] at hp
  exact absurd hp (Set.notMem_empty p)

/-- The pages that count as free: those of the zones and the stale ones. -/
def markedPages (B : Build) (s : BuddyAllocator) (start : ℕ) (zones : List MemZone) : Set ℕ :=
  zonesPages start zones ∪ stalePages B s

theorem markedPages_lt {s : BuddyAllocator} {start : ℕ} {zones : List MemZone}
    (hz : ∀ z ∈ zones, ZoneInside B start z) {p : ℕ} (hp : p ∈ markedPages B s start zones) :
    p < 2^B.depth := by
  rcases hp with ⟨z, hzm, hp⟩ | hp
  · exact (hz z hzm).page_lt hp
  · exact hp.1

/-- `t` is the allocator after the reset, `s` the memory before it. -/
theorem marked_spec {s t : BuddyAllocator} {start : ℕ} {zones : List MemZone}
    (hz : ∀ z ∈ zones, ZoneInside B start z) (hs : start < 2^64) (hst : t.start = start)
    (ht : Tame B s start zones) (hstate : ∀ o, level o ≤ B.depth →
      t.state o = if o < B.cleared then USED else s.state o) :
    SameLists t (zones.foldl (markZone B) t) ∧ Clean B (zones.foldl (markZone B) t) ∧
    ∀ o, o ∈ freeNodes B (zones.foldl (markZone B) t) ↔
      ∃ p ∈ markedPages B s start zones, o = leaf B.depth p := by
  obtain ⟨m1, m2, m3⟩ := marked_state (B := B) t zones (by rw [hst]; exact hz)
    (by rw [hst]; exact hs)
  rw [hst] at m2 m3
  -- A node that is not a leaf of a zone is used unless it is a stale leaf.
  have hother : ∀ o, level o ≤ B.depth → (∀ p ∈ zonesPages start zones, o ≠ leaf B.depth p) →
      (∃ p ∈ stalePages B s, o = leaf B.depth p ∧
        (zones.foldl (markZone B) t).state o = FREE) ∨
      (∀ p ∈ stalePages B s, o ≠ leaf B.depth p) ∧
        (zones.foldl (markZone B) t).state o = USED := by
    intro o ho hn
    rw [m3 o hn, hstate o ho]
    by_cases hst : ∃ p ∈ stalePages B s, o = leaf B.depth p
    · obtain ⟨p, hp, rfl⟩ := hst
      left
      refine ⟨p, hp, rfl, ?_⟩
      rw [if_neg (not_lt.mpr hp.2.1)]
      exact ht p hp (fun hpz => hn p hpz rfl)
    · right
      refine ⟨fun p hp he => hst ⟨p, hp, he⟩, ?_⟩
      by_cases hc : o < B.cleared
      · rw [if_pos hc]
      · rw [if_neg hc]
        by_contra hne
        have hinner := B.inner_cleared
        have hlt := (lt_nodes_iff B.depth o).mpr ho
        have hpos : 0 < 2^B.depth := by positivity
        rw [nodes, pow_succ] at hlt
        have hleaf : leaf B.depth (o-(2^B.depth-1)) = o := by
          unfold leaf
          omega
        refine hst ⟨o-(2^B.depth-1), ⟨by omega, ?_, ?_⟩, hleaf.symm⟩
        · rw [hleaf]
          omega
        · rw [hleaf]
          exact hne
  refine ⟨m1, ?_, ?_⟩
  · intro o ho
    by_cases hz : ∃ p ∈ zonesPages start zones, o = leaf B.depth p
    · obtain ⟨p, hp, rfl⟩ := hz
      exact Or.inl (m2 p hp)
    · rcases hother o ho (fun p hp he => hz ⟨p, hp, he⟩) with ⟨p, -, -, hf⟩ | ⟨-, hu⟩
      · exact Or.inl hf
      · exact Or.inr hu
  · intro o
    constructor
    · rintro ⟨ho, hf⟩
      by_cases hz : ∃ p ∈ zonesPages start zones, o = leaf B.depth p
      · obtain ⟨p, hp, rfl⟩ := hz
        exact ⟨p, Or.inl hp, rfl⟩
      · rcases hother o ho (fun p hp he => hz ⟨p, hp, he⟩) with ⟨p, hp, he, -⟩ | ⟨-, hu⟩
        · exact ⟨p, Or.inr hp, he⟩
        · rw [hu] at hf
          exact absurd hf (by decide)
    · rintro ⟨p, hp, rfl⟩
      have hlev := (level_leaf B.depth p (markedPages_lt hz hp)).le
      refine ⟨hlev, ?_⟩
      by_cases hpz : p ∈ zonesPages start zones
      · exact m2 p hpz
      · have hps : p ∈ stalePages B s := hp.resolve_left hpz
        have hn : ∀ q ∈ zonesPages start zones, leaf B.depth p ≠ leaf B.depth q := by
          intro q hq he
          have : p = q := by
            unfold leaf at he
            omega
          exact hpz (this ▸ hq)
        rcases hother _ hlev hn with ⟨q, -, -, hf⟩ | ⟨hno, -⟩
        · exact hf
        · exact absurd rfl (hno p hps)

end Marking

section Settling

variable {B : Build}

theorem Clean.ne_zero_iff {s : BuddyAllocator} (h : Clean B s) {o : ℕ} (ho : level o ≤ B.depth) :
    (s.state o != 0) = true ↔ o ∈ freeNodes B s := by
  rcases h o ho with hs | hs
  · exact ⟨fun _ => ⟨ho, hs⟩, fun _ => by rw [hs]; decide⟩
  · constructor
    · intro hx
      rw [hs] at hx
      exact absurd hx (by decide)
    · rintro ⟨-, hx⟩
      rw [hs] at hx
      exact absurd hx (by decide)

theorem settle_sameLists (s : BuddyAllocator) (o : ℕ) : SameLists s (settle s o) :=
  ((sameLists_setState s _ _).trans (sameLists_setState _ _ _)).trans (sameLists_setState _ _ _)

theorem settle_state (s : BuddyAllocator) (o : ℕ) : (settle s o).state =
    if (s.state (o*2+1) != 0 && s.state (o*2+2) != 0) = true then
      Function.update (Function.update (Function.update s.state o FREE) (o*2+1) USED) (o*2+2) USED
    else Function.update s.state o USED := by
  have h1 : o*2+1 ≠ o := by omega
  have h2 : o*2+2 ≠ o := by omega
  have h3 : o*2+2 ≠ o*2+1 := by omega
  by_cases hb : (s.state (o*2+1) != 0 && s.state (o*2+2) != 0) = true
  · simp [settle, hb]
  · simp only [settle, hb]
    funext x
    by_cases hx2 : x = o*2+2
    · simp [hx2]
    · by_cases hx1 : x = o*2+1
      · simp [hx1]
      · simp [hx2]

/-- The nodes from `k` on are settled: the free nodes tile the marked pages, no
free node is left before `k` and no settled node has two free children. -/
structure Settled (B : Build) (P : Set ℕ) (k : ℕ) (s : BuddyAllocator) : Prop where
  clean : Clean B s
  tiling : Tiling B.depth (freeNodes B s) P
  after : ∀ o ∈ freeNodes B s, k ≤ o
  twins : ∀ j, k ≤ j → ¬ (2*j+1 ∈ freeNodes B s ∧ 2*j+2 ∈ freeNodes B s)

theorem settle_step {P : Set ℕ} {k : ℕ} {s : BuddyAllocator} (hk : k < 2^B.depth-1)
    (h : Settled B P (k+1) s) : Settled B P k (settle s k) := by
  have hlev := (lt_inner_iff B.depth k).mp hk
  have hl1 : level (2*k+1) ≤ B.depth := by rw [level_left]; omega
  have hl2 : level (2*k+2) ≤ B.depth := by rw [level_right]; omega
  have hst := settle_state s k
  have e1 : k*2+1 = 2*k+1 := by omega
  have e2 : k*2+2 = 2*k+2 := by omega
  rw [e1, e2] at hst
  have hboth : (s.state (2*k+1) != 0 && s.state (2*k+2) != 0) = true ↔
      2*k+1 ∈ freeNodes B s ∧ 2*k+2 ∈ freeNodes B s := by
    rw [Bool.and_eq_true, h.clean.ne_zero_iff hl1, h.clean.ne_zero_iff hl2]
  have hkn : k ∉ freeNodes B s := fun hm => by
    have := h.after k hm
    omega
  by_cases hb : 2*k+1 ∈ freeNodes B s ∧ 2*k+2 ∈ freeNodes B s
  · rw [if_pos (hboth.mpr hb)] at hst
    have hfree : freeNodes B (settle s k) = mergeAt (freeNodes B s) k := by
      ext x
      show level x ≤ B.depth ∧ (settle s k).state x = FREE ↔ _
      rw [hst]
      simp only [mergeAt, Set.mem_union, Set.mem_sdiff, Set.mem_insert_iff, Set.mem_singleton_iff]
      by_cases hx2 : x = 2*k+2
      · have : 2*k+2 ≠ k := by omega
        simp [hx2, USED, FREE, this]
      · by_cases hx1 : x = 2*k+1
        · have : 2*k+1 ≠ k := by omega
          simp [hx1, USED, FREE, this]
        · by_cases hxk : x = k
          · subst hxk
            simp [hx1, hx2, hlev.le]
          · simp [hx1, hx2, hxk, freeNodes]
    refine ⟨?_, hfree ▸ h.tiling.merge hb.1 hb.2, ?_, ?_⟩
    · intro o ho
      rw [hst]
      have := h.clean o ho
      simp only [Function.update_apply]
      split_ifs <;> simp_all
    · rw [hfree]
      rintro o (⟨ho, -⟩ | rfl)
      · have := h.after o ho
        omega
      · exact le_refl _
    · rw [hfree]
      rintro j hj ⟨h1, h2⟩
      have hjk : j ≠ k := by
        rintro rfl
        rcases h1 with ⟨-, h1⟩ | h1
        · exact h1 (Or.inl rfl)
        · have : 2*j+1 = j := h1
          omega
      rcases h1 with ⟨h1, -⟩ | h1
      · rcases h2 with ⟨h2, -⟩ | h2
        · exact h.twins j (by omega) ⟨h1, h2⟩
        · have : 2*j+2 = k := h2
          omega
      · have : 2*j+1 = k := h1
        omega
  · rw [if_neg (fun hx => hb (hboth.mp hx))] at hst
    have hfree : freeNodes B (settle s k) = freeNodes B s := by
      ext x
      show level x ≤ B.depth ∧ (settle s k).state x = FREE ↔ _
      rw [hst]
      by_cases hxk : x = k
      · subst hxk
        simp [hkn, USED, FREE]
      · simp [hxk, freeNodes]
    refine ⟨?_, hfree ▸ h.tiling, ?_, ?_⟩
    · intro o ho
      rw [hst]
      have := h.clean o ho
      simp only [Function.update_apply]
      split_ifs <;> simp_all
    · rw [hfree]
      intro o ho
      have := h.after o ho
      omega
    · rw [hfree]
      intro j hj
      obtain rfl | hlt : j = k ∨ k < j := by omega
      · exact hb
      · exact h.twins j (by omega)

/-- A level is settled from its last node to its first. -/
theorem settleLevel_rule (I : ℕ → BuddyAllocator → Prop)
    (step : ∀ k < 2^B.depth-1, ∀ t, I (k+1) t → I k (settle t k)) {i : ℕ} {s : BuddyAllocator}
    (hi : i < B.depth) (h : I (2^(i+1)-1) s) : I (2^i-1) (settleLevel s i) := by
  have hpow : 2^(i+1) ≤ 2^B.depth := Nat.pow_le_pow_right (by decide) (by omega)
  have hpos : 0 < 2^i := by positivity
  have hsucc : 2^(i+1) = 2*2^i := by rw [pow_succ]; omega
  have hloop := range_loop (fun t k => settle t (levelEnd i-k))
    (fun k t => I (2^(i+1)-1-k) t) (2^i) s h (by
      intro k hk t ht
      have hoff : levelEnd i-k = 2^(i+1)-1-(k+1) := by
        unfold levelEnd levelStart
        omega
      rw [hoff]
      apply step _ (by omega)
      have : 2^(i+1)-1-(k+1)+1 = 2^(i+1)-1-k := by omega
      rw [this]
      exact ht)
  have hend : 2^(i+1)-1-2^i = 2^i-1 := by omega
  rw [hend] at hloop
  exact hloop

/-- What every pass of the bottom-up loop passes on to the next node holds at the root. -/
theorem settleTree_rule (I : ℕ → BuddyAllocator → Prop)
    (step : ∀ k < 2^B.depth-1, ∀ t, I (k+1) t → I k (settle t k)) {s : BuddyAllocator}
    (h : I (2^B.depth-1) s) : I 0 (settleTree B s) := by
  have hloop := range_loop (fun t k => settleLevel t (B.depth-1-k))
    (fun k t => I (2^(B.depth-k)-1) t) B.depth s h (by
      intro k hk t ht
      have e1 : B.depth-k = B.depth-1-k+1 := by omega
      have e2 : B.depth-(k+1) = B.depth-1-k := by omega
      rw [e1] at ht
      rw [e2]
      exact settleLevel_rule I step (by omega) ht)
  rw [Nat.sub_self] at hloop
  exact hloop

theorem settleTree_spec {P : Set ℕ} {s : BuddyAllocator} (h : Settled B P (2^B.depth-1) s) :
    SameLists s (settleTree B s) ∧ Settled B P 0 (settleTree B s) :=
  settleTree_rule (fun k t => SameLists s t ∧ Settled B P k t)
    (fun k hk t ht => ⟨ht.1.trans (settle_sameLists t k), settle_step hk ht.2⟩)
    ⟨SameLists.refl s, h⟩

/-- The marked leaves before any node is settled. -/
theorem marked_settled {P : Set ℕ} {s : BuddyAllocator} (hc : Clean B s)
    (hP : ∀ p ∈ P, p < 2^B.depth)
    (hf : ∀ o, o ∈ freeNodes B s ↔ ∃ p ∈ P, o = leaf B.depth p) :
    Settled B P (2^B.depth-1) s := by
  refine ⟨hc, ⟨fun a ha => ha.1, ?_, ?_⟩, ?_, ?_⟩
  · intro a ha b hb hu
    obtain ⟨p, hp, rfl⟩ := (hf a).mp ha
    obtain ⟨q, hq, rfl⟩ := (hf b).mp hb
    apply under_eq_of_level hu
    rw [level_leaf _ _ (hP p hp), level_leaf _ _ (hP q hq)]
  · intro p
    constructor
    · intro hp
      exact ⟨leaf B.depth p, (hf _).mpr ⟨p, hp, rfl⟩, hP p hp, under_refl _⟩
    · rintro ⟨a, ha, hpa⟩
      obtain ⟨q, hq, rfl⟩ := (hf a).mp ha
      have heq := under_eq_of_level hpa.2 (by
        rw [level_leaf _ _ (hP q hq), level_leaf _ _ hpa.1])
      have : q = p := by
        unfold leaf at heq
        omega
      exact this ▸ hq
  · intro o ho
    obtain ⟨p, hp, rfl⟩ := (hf o).mp ho
    unfold leaf
    omega
  · rintro j hj ⟨h1, -⟩
    have := (lt_nodes_iff B.depth _).mpr h1.1
    have hpos : 0 < 2^B.depth := by positivity
    rw [nodes, pow_succ] at this
    omega

end Settling

section Collecting

variable {B : Build}

/-- The free nodes among the first `n` offsets, in tree order. -/
def freeList (s : BuddyAllocator) (n : ℕ) : List ℕ :=
  (List.range n).filter (fun o => s.state o = FREE)

theorem freeList_succ (s : BuddyAllocator) (n : ℕ) :
    freeList s (n+1) = freeList s n++(if s.state n = FREE then [n] else []) := by
  rw [freeList, List.range_succ, List.filter_append]
  by_cases h : s.state n = FREE <;> simp [freeList, h]

theorem mem_freeList (s : BuddyAllocator) (o : ℕ) :
    o ∈ freeList s (nodes B.depth) ↔ o ∈ freeNodes B s := by
  simp [freeList, freeNodes, lt_nodes_iff]

theorem freeList_nodup (s : BuddyAllocator) (n : ℕ) : (freeList s n).Nodup :=
  List.nodup_range.filter _

/-- Distinct free nodes have distinct parents, so fewer than `2^depth` are free. -/
theorem freeList_length {P : Set ℕ} {s : BuddyAllocator} (h : Settled B P 0 s) :
    (freeList s (nodes B.depth)).length < 2^B.depth := by
  have hpos : 2 ≤ 2^B.depth := by
    calc 2 = 2^1 := by norm_num
      _ ≤ 2^B.depth := Nat.pow_le_pow_right (by decide) B.depth_pos
  have hmem := fun o => mem_freeList (B := B) s o
  rw [← List.toFinset_card_of_nodup (freeList_nodup s _)]
  by_cases h0 : 0 ∈ freeNodes B s
  · have hone : (freeList s (nodes B.depth)).toFinset ⊆ {0} := by
      intro o ho
      rw [List.mem_toFinset, hmem] at ho
      rw [Finset.mem_singleton]
      exact (h.tiling.antichain 0 h0 o ho (under_root o)).symm
    have := Finset.card_le_card hone
    rw [Finset.card_singleton] at this
    omega
  · have hcard : (freeList s (nodes B.depth)).toFinset.card ≤ (Finset.range (2^B.depth-1)).card := by
      apply Finset.card_le_card_of_injOn (fun o => (o-1)/2)
      · intro o ho
        rw [Finset.mem_coe, List.mem_toFinset, hmem] at ho
        have hne : o ≠ 0 := fun hx => h0 (hx ▸ ho)
        have hl := level_parent o hne
        rw [Finset.coe_range, Set.mem_Iio]
        apply (lt_inner_iff B.depth ((o-1)/2)).mpr
        have := ho.1
        omega
      · intro a ha b hb hab
        rw [Finset.mem_coe, List.mem_toFinset, hmem] at ha hb
        have hane : a ≠ 0 := fun hx => h0 (hx ▸ ha)
        have hbne : b ≠ 0 := fun hx => h0 (hx ▸ hb)
        have hpar : (a-1)/2 = (b-1)/2 := hab
        by_contra hne
        apply h.twins ((a-1)/2) (Nat.zero_le _)
        obtain ⟨e1, e2⟩ | ⟨e1, e2⟩ : (a = 2*((a-1)/2)+1 ∧ b = 2*((a-1)/2)+2) ∨
            (b = 2*((a-1)/2)+1 ∧ a = 2*((a-1)/2)+2) := by omega
        · rw [← e1, ← e2]
          exact ⟨ha, hb⟩
        · rw [← e1, ← e2]
          exact ⟨hb, ha⟩
    rw [Finset.card_range] at hcard
    omega

theorem clean_val {s : BuddyAllocator} (hc : Clean B s) {o : ℕ} (ho : level o ≤ B.depth) :
    (s.state o).val = if s.state o = FREE then 1 else 0 := by
  rcases hc o ho with h | h <;> rw [h] <;> decide

theorem freeCount_eq {P : Set ℕ} {s : BuddyAllocator} (h : Settled B P 0 s) :
    freeCount B s = (freeList s (nodes B.depth)).length := by
  have hlt := freeList_length h
  have hd : 2^B.depth ≤ 2^16 := Nat.pow_le_pow_right (by decide) B.depth_le
  have hloop := range_loop (fun c i => (c+(s.state i).val)%2^16)
    (fun k c => c = (freeList s k).length%2^16) (nodes B.depth) 0 (by simp [freeList]) (by
      intro k hk c hI
      rw [hI, freeList_succ, List.length_append, clean_val h.clean ((lt_nodes_iff _ _).mp hk)]
      split <;> simp)
  rw [Nat.mod_eq_of_lt (by omega)] at hloop
  exact hloop

/-- After `k` passes the arrays hold the free nodes among the first `k`, whatever they held
before. -/
theorem collectOn_spec {s : BuddyAllocator} (hc : Clean B s) (indices lg2idx : ℕ → ℕ) (k : ℕ)
    (hk : k ≤ nodes B.depth) :
    (collectOn B s ⟨indices, lg2idx, 0⟩ k).idx = (freeList s k).length ∧
    (List.range (freeList s k).length).map (collectOn B s ⟨indices, lg2idx, 0⟩ k).indices =
      freeList s k ∧
    ∀ j < (freeList s k).length, (collectOn B s ⟨indices, lg2idx, 0⟩ k).lg2idx j =
      B.log2ui ((collectOn B s ⟨indices, lg2idx, 0⟩ k).indices j+1) := by
  have hloop := range_loop (collectStep B s)
    (fun k c => c.idx = (freeList s k).length ∧
      (List.range c.idx).map c.indices = freeList s k ∧
      ∀ j < c.idx, c.lg2idx j = B.log2ui (c.indices j+1))
    k ⟨indices, lg2idx, 0⟩ (by simp [freeList]) (by
      rintro k hk' c ⟨h1, h2, h3⟩
      have hkeep : (List.range c.idx).map (Function.update c.indices c.idx k) =
          (List.range c.idx).map c.indices := by
        apply List.map_congr_left
        intro j hj
        rw [Function.update_of_ne (by have := List.mem_range.mp hj; omega)]
      have hval := clean_val hc ((lt_nodes_iff B.depth k).mp (by omega))
      rw [freeList_succ]
      by_cases hf : s.state k = FREE
      · rw [if_pos hf] at hval ⊢
        refine ⟨by simp [collectStep, hval, h1], ?_, ?_⟩
        · simp only [collectStep, hval, List.range_succ, List.map_append, hkeep, h2]
          simp
        · intro j hj
          simp only [collectStep, hval] at hj ⊢
          by_cases hjk : j = c.idx
          · simp [hjk]
          · rw [Function.update_of_ne hjk, Function.update_of_ne hjk]
            exact h3 j (by omega)
      · rw [if_neg hf] at hval ⊢
        refine ⟨by simp [collectStep, hval, h1], ?_, ?_⟩
        · simp only [collectStep, hval, Nat.add_zero, hkeep, h2, List.append_nil]
        · intro j hj
          simp only [collectStep, hval, Nat.add_zero] at hj ⊢
          rw [Function.update_of_ne (by omega), Function.update_of_ne (by omega)]
          exact h3 j hj)
  obtain ⟨h1, h2, h3⟩ := hloop
  rw [h1] at h2 h3
  exact ⟨h1, h2, h3⟩

/-- Pushing a list of new nodes in order. -/
theorem pushAll_lists (xs : List ℕ) {s : BuddyAllocator} {F : ℕ → List ℕ} (h : Lists B s F)
    (hn : xs.Nodup) (hx : ∀ o ∈ xs, level o ≤ B.depth ∧ o ∉ F (level o)) :
    let t := xs.foldl (fun s o => pushEntry B s (level o) o) s
    Lists B t (fun l => F l++xs.filter (fun o => level o = l)) ∧ t.start = s.start ∧
      ∀ o, t.state o = if o ∈ xs then FREE else s.state o := by
  induction xs generalizing s F with
  | nil => simpa using h
  | cons x xs ih =>
    obtain ⟨hxn, hn⟩ := List.nodup_cons.mp hn
    obtain ⟨hxl, hxF⟩ := hx x (by simp)
    have hpush := push_lists h hxl rfl hxF
    obtain ⟨h1, h2, h3⟩ := ih hpush hn (by
      intro o ho
      obtain ⟨hol, hoF⟩ := hx o (by simp [ho])
      have hne : o ≠ x := fun he => hxn (he ▸ ho)
      refine ⟨hol, ?_⟩
      by_cases hl : level o = level x
      · rw [hl] at hoF ⊢
        simp [hoF, hne]
      · rw [Function.update_of_ne hl]
        exact hoF)
    refine ⟨?_, h2.trans pushEntry_start, ?_⟩
    · have hF : (fun l => Function.update F (level x) (F (level x)++[x]) l ++
          xs.filter (fun o => level o = l)) = fun l => F l++(x::xs).filter (fun o => level o = l) := by
        funext l
        by_cases hl : l = level x
        · subst hl
          simp
        · rw [Function.update_of_ne hl, List.filter_cons_of_neg]
          simpa using fun he => hl he.symm
      rw [hF] at h1
      exact h1
    · intro o
      show (xs.foldl (fun s o => pushEntry B s (level o) o) (pushEntry B s (level x) x)).state o = _
      rw [h3 o, pushEntry_state]
      by_cases ho : o = x
      · simp [ho]
      · simp [ho]

end Collecting

section Regions

variable {B : Build}

/-- The reset of the allocator: the lists are empty, and so is the tree where it is cleared. -/
theorem reset_spec (hlog : Log2Contract B.log2ui) (s : BuddyAllocator) (start : ℕ) :
    Lists B (popEntry B (buddyAllocInit B s start) 0).2 (fun _ => []) ∧
    (popEntry B (buddyAllocInit B s start) 0).2.start = start ∧
    ∀ o, level o ≤ B.depth → (popEntry B (buddyAllocInit B s start) 0).2.state o =
      if o < B.cleared then USED else s.state o := by
  obtain ⟨hL, hstate⟩ := empty_lists (B := B) s start
  have h0 : level 0 = 0 := (level_zero_iff 0).mpr rfl
  have hpush := push_lists hL (Nat.zero_le _) h0 List.not_mem_nil
  obtain ⟨-, hpop, hps, hpst⟩ := pop_lists hlog hpush (Nat.zero_le _)
    (Function.update_self (0 : ℕ) ([]++[0]) (fun _ => ([] : List ℕ)))
  have hF : Function.update (Function.update (fun _ => []) 0 ([]++[0])) 0 [] =
      (fun _ => [] : ℕ → List ℕ) := by
    funext l
    by_cases hl : l = 0 <;> simp [hl]
  rw [hF] at hpop
  have hclear : 0 < B.cleared := by
    have h1 := B.inner_cleared
    have h2 : 2^1 ≤ 2^B.depth := Nat.pow_le_pow_right (by decide) B.depth_pos
    omega
  rw [buddyAllocInit_eq]
  refine ⟨hpop, ?_, ?_⟩
  · rw [hpst, pushEntry_start, (initLevels_spec _ _ le_rfl).2.2]
    rfl
  · intro o ho
    rw [hps, pushEntry_state]
    by_cases ho0 : o = 0
    · subst ho0
      rw [Function.update_self, if_pos hclear]
    · rw [Function.update_of_ne ho0, Function.update_of_ne ho0, hstate o ho]

/-- The tree in which the free nodes are counted. -/
theorem settledRegions_spec (hlog : Log2Contract B.log2ui) {s : BuddyAllocator} {start : ℕ}
    {zones : List MemZone} (ht : Tame B s start zones) (hstart : start < 2^64)
    (hz : ∀ z ∈ zones, ZoneInside B start z) :
    Lists B (settledRegions B s start zones) (fun _ => []) ∧
    Settled B (markedPages B s start zones) 0 (settledRegions B s start zones) ∧
    (settledRegions B s start zones).start = start := by
  obtain ⟨r1, r2, r3⟩ := reset_spec hlog s start
  obtain ⟨m1, m2, m3⟩ := marked_spec hz hstart r2 ht r3
  obtain ⟨w1, w2⟩ := settleTree_spec (marked_settled m2 (fun p hp => markedPages_lt hz hp) m3)
  exact ⟨w1.lists (m1.lists r1), w2, by rw [settledRegions, w1.start, m1.start, r2]⟩

/-- A freshly initialised allocator: its free nodes are the maximal blocks of `P`, and each list
holds those of its level in tree order. -/
structure Opened (B : Build) (start : ℕ) (P : Set ℕ) (r : BuddyAllocator) : Prop where
  lists : Lists B r (fun l => (freeList r (nodes B.depth)).filter (fun o => level o = l))
  clean : Clean B r
  tiling : Tiling B.depth (freeNodes B r) P
  twinFree : TwinFree (freeNodes B r)
  start : r.start = start

theorem regions_opened (hlog : Log2Contract B.log2ui) (indices lg2idx : ℕ → ℕ)
    {s : BuddyAllocator} {start : ℕ} {zones : List MemZone} (ht : Tame B s start zones)
    (hstart : start < 2^64) (hz : ∀ z ∈ zones, ZoneInside B start z) :
    Opened B start (markedPages B s start zones)
      (initFreeRegionsOn B indices lg2idx s start zones) := by
  obtain ⟨hL, w, hst⟩ := settledRegions_spec hlog ht hstart hz
  obtain ⟨-, c1, c2⟩ := collectOn_spec w.clean indices lg2idx (nodes B.depth) le_rfl
  generalize ht2 : settledRegions B s start zones = t at hL w hst c1 c2
  have hlev : ∀ o ∈ freeList t (nodes B.depth), level o ≤ B.depth := fun o ho =>
    ((mem_freeList t o).mp ho).1
  -- The loop over the arrays pushes the collected nodes at their own levels.
  have hpush : initFreeRegionsOn B indices lg2idx s start zones =
      (freeList t (nodes B.depth)).foldl (fun s o => pushEntry B s (level o) o) t := by
    simp only [initFreeRegionsOn, ht2, freeCount_eq w]
    conv_rhs => rw [← c1, List.foldl_map]
    apply List.foldl_ext
    intro u j hj
    rw [List.mem_range] at hj
    have hmem : (collectOn B t ⟨indices, lg2idx, 0⟩ (nodes B.depth)).indices j ∈
        freeList t (nodes B.depth) := c1 ▸ List.mem_map_of_mem (List.mem_range.mpr hj)
    have hl := hlev _ hmem
    have hsmall := offset_small B hl
    have hd := B.depth_le
    rw [c2 j hj, hlog _ (by omega) (by omega)]
    congr 1
    exact Nat.mod_eq_of_lt (by unfold level at hl; omega)
  obtain ⟨p1, p2, p3⟩ := pushAll_lists (freeList t (nodes B.depth)) hL
    (freeList_nodup t _) (fun o ho => ⟨hlev o ho, by simp⟩)
  rw [← hpush] at p1 p2 p3
  generalize initFreeRegionsOn B indices lg2idx s start zones = r at p1 p2 p3
  have hstate : ∀ o, level o ≤ B.depth → r.state o = t.state o := by
    intro o ho
    rw [p3 o]
    split
    next hm => exact ((mem_freeList (B := B) t o).mp hm).2.symm
    next => rfl
  have hfree : freeNodes B r = freeNodes B t := by
    ext o
    constructor
    · rintro ⟨h1, h2⟩
      exact ⟨h1, (hstate o h1).symm.trans h2⟩
    · rintro ⟨h1, h2⟩
      exact ⟨h1, (hstate o h1).trans h2⟩
  have hlist : freeList r (nodes B.depth) = freeList t (nodes B.depth) := by
    apply List.filter_congr
    intro o ho
    rw [hstate o ((lt_nodes_iff B.depth o).mp (List.mem_range.mp ho))]
  refine ⟨?_, ?_, hfree ▸ w.tiling, ?_, p2.trans hst⟩
  · rw [hlist]
    simpa using p1
  · intro o ho
    rw [hstate o ho]
    exact w.clean o ho
  · rw [hfree]
    exact fun j => w.twins j (Nat.zero_le _)

theorem Opened.inv {start : ℕ} {P : Set ℕ} {r : BuddyAllocator} (h : Opened B start P r) :
    Inv B r (freeNodes B r) P ∧ owned B r (freeNodes B r) = ∅ := by
  refine ⟨⟨⟨_, h.lists, ?_⟩, h.tiling, le_rfl, h.twinFree⟩, Set.sdiff_self⟩
  intro o ho
  have hm : o ∈ freeList r (nodes B.depth) ↔ r.state o = FREE :=
    (mem_freeList (B := B) r o).trans ⟨fun hx => hx.2, fun hx => ⟨ho, hx⟩⟩
  rcases h.clean o ho with hs | hs
  · rw [if_pos (by simp [hm.mpr hs]), hs]
  · rw [if_neg, hs]
    simp only [List.mem_filter, hm, hs]
    exact fun hx => absurd hx.1 (by decide)

/-- Arrays that hold zeros before the loop. -/
theorem initFreeRegions_eq (s : BuddyAllocator) (start : ℕ) (zones : List MemZone) :
    buddyAllocInitFreeRegions B s start zones =
      initFreeRegionsOn B (fun _ => 0) (fun _ => 0) s start zones := by
  unfold buddyAllocInitFreeRegions initFreeRegionsOn
  rfl

/-- Initialisation from free regions yields a state whose free nodes tile
exactly the pages of the regions; nothing is handed out yet. -/
theorem regions_inv (hlog : Log2Contract B.log2ui) (s : BuddyAllocator) (start : ℕ)
    (zones : List MemZone) (hb : Blank B s) (hstart : start < 2^64)
    (hz : ∀ z ∈ zones, ZoneInside B start z) :
    ∃ A, Inv B (buddyAllocInitFreeRegions B s start zones) A (zonesPages start zones) ∧
      owned B (buddyAllocInitFreeRegions B s start zones) A = ∅ ∧
      (buddyAllocInitFreeRegions B s start zones).start = start := by
  have hO := regions_opened hlog (fun _ => 0) (fun _ => 0) (tame_of_blank hb start zones) hstart hz
  rw [← initFreeRegions_eq, markedPages, blank_stale hb, Set.union_empty] at hO
  exact ⟨_, hO.inv.1, hO.inv.2, hO.start⟩

end Regions

end BruhOS.BuddyInit
