import BruhOS.PagingMaps
import BruhOS.VasTree

/-!
# Regions that do not overlap

The comparator of the tree adds a number of pages to an address in bytes. Of
two regions without a common byte it still says which comes first, so a run
that only asks for regions apart from all others keeps the tree in the order of
the addresses. It takes two regions for apart as soon as the second starts
behind the first few bytes of the first.

A run takes pages for the node list and for the page tables from the same
allocator. `L` bounds the number of pages it hands out.
-/

set_option autoImplicit false

namespace BruhOS.Vas

open BruhOS.PointerTree

section Supply

variable (off : ℕ) (pfaAllocPage : ℕ → ℕ)

/-- The first `L` pages are distinct pages of the address space. -/
structure Supply (L : ℕ) : Prop where
  laid : ∀ k < L, Laid (page off pfaAllocPage k)
  distinct : ∀ k < L, ∀ l < L, page off pfaAllocPage k = page off pfaAllocPage l → k = l

/-- Should the next node be the last free one, there is a page to take, and it
does not lie directly below the first page of the list. -/
def Room (L : ℕ) (s : State) : Prop := ∀ used total, load32 s.mem (s.alloc+36) = some used →
  load32 s.mem (s.alloc+32) = some total → used+1 = total →
  s.tables.taken < L ∧ page off pfaAllocPage s.tables.taken+4096 ≠ s.alloc ∧ total+63 < 2^32

/-- A sound state whose pages came from the allocator and whose live nodes are in the tree. -/
structure Managed (L : ℕ) (avl : Avl) (s : State) (P F : List ℕ) (T : NodeTree) (reg : ℕ → Region) :
    Prop where
  sound : Sound avl s P F T reg
  taken : ∀ p ∈ P, ∃ k < s.tables.taken, k < L ∧ p = page off pfaAllocPage k
  live : ∀ x ∈ s.live, x+24 ∈ T.inorder

end Supply

section Managing

variable {avl : Avl} {off : ℕ} {pfaAllocPage : ℕ → ℕ} {fuel L : ℕ} {s : State} {P F : List ℕ}
  {f : ℕ} {T : NodeTree} {reg : ℕ → Region} {r : Region}

theorem room_taken (h : Managed off pfaAllocPage L avl s P (f::F) T reg)
    (hroom : Room off pfaAllocPage L s) (hF : F = []) : s.tables.taken < L := by
  obtain ⟨used, total, hused, htotal, hsum, -⟩ := h.sound.list.counts
  rw [hF] at hsum
  exact (hroom used total hused htotal hsum).1

theorem takes_of_room (h : Managed off pfaAllocPage L avl s P (f::F) T reg)
    (hs : Supply off pfaAllocPage L) (hroom : Room off pfaAllocPage L s) (hF : F = []) :
    Takes s.mem s.alloc P (page off pfaAllocPage s.tables.taken) := by
  obtain ⟨used, total, hused, htotal, hsum, -⟩ := h.sound.list.counts
  rw [hF] at hsum
  obtain ⟨hL, hap, hlt⟩ := hroom used total hused htotal hsum
  constructor
  · exact (hs.laid _ hL).placed
  · intro hmem
    obtain ⟨k, hk, -, heq⟩ := h.taken _ hmem
    have := hs.distinct _ hL k (by omega) heq
    omega
  · exact hap
  · intro total' htotal'
    rw [htotal] at htotal'
    simp only [Option.some.injEq] at htotal'
    omega

theorem mapRegion_taken (off : ℕ) (pfaAllocPage : ℕ → ℕ) (Table : ℕ) (s : State) (r : Region) :
    s.tables.taken ≤ (mapRegion off pfaAllocPage Table s r).tables.taken := by
  unfold mapRegion Paging.toVirtualFlag
  exact Paging.vtopLoop_taken _ _

/-- A request that meets no record that compares equal adds one node to the tree. -/
theorem managed_alloc (Table : ℕ) (h : Managed off pfaAllocPage L avl s P F T reg) (hc : avl.Correct)
    (hs : Supply off pfaAllocPage L) (hr : r.Fits) (hroom : Room off pfaAllocPage L s)
    (hfuel : T.inorder.length < fuel) {pl : Place}
    (hfind : T.find (compare r reg) .root = .inr pl) :
    ∃ f F₀ m' k s' P' F' T', vasAlloc off pfaAllocPage avl Table fuel s r = some (r.address, s') ∧
      F = f::F₀ ∧ Prepared s.mem m' (page off pfaAllocPage s.tables.taken) k P F₀ P' F' ∧
      (∀ a, (∀ q ∈ (f+24)::T.inorder, a < q ∨ q+24 ≤ a) → s'.mem a = setRecord m' f r a) ∧
      f+24 ∉ T.inorder ∧ T'.inorder = (T.insert (compare r reg) (f+24)).inorder ∧
      Managed off pfaAllocPage L avl s' P' F' T' (fun q => if q = f+24 then r else reg q) := by
  obtain ⟨f, F, rfl⟩ := List.exists_cons_of_ne_nil h.sound.list.nonempty
  obtain ⟨m', k, P', F', T', heq, hprep, hsame, hin, hsound⟩ :=
    vasAlloc_accepted Table h.sound hc hr (takes_of_room h hs hroom) hfuel hfind
  refine ⟨f, F, m', k, _, P', F', T', heq, rfl, hprep, hsame, h.sound.new_node, hin, hsound, ?_, ?_⟩
  · -- the mapping takes further pages, and never gives one back
    have hmono : s.tables.taken+k ≤ (mapRegion off pfaAllocPage Table
        (insertAt avl (s.handOut (setRecord m' f r) f k) pl f) r).tables.taken :=
      mapRegion_taken off pfaAllocPage Table (insertAt avl (s.handOut (setRecord m' f r) f k) pl f) r
    intro p hp
    rcases hprep with ⟨rfl, -, -⟩ | ⟨hk, hF, rfl, -⟩
    · obtain ⟨l, hl, hpl⟩ := h.taken p hp
      exact ⟨l, by omega, hpl⟩
    · rcases List.mem_cons.mp hp with hp | hp
      · exact ⟨s.tables.taken, by omega, room_taken h hroom hF, hp⟩
      · obtain ⟨l, hl, hpl⟩ := h.taken p hp
        exact ⟨l, by omega, hpl⟩
  · intro x hx
    rw [hin, mem_insert T (f+24) hfind]
    have hx : x ∈ f::s.live := hx
    rcases List.mem_cons.mp hx with hx | hx
    · exact Or.inl (by rw [hx])
    · exact Or.inr (h.live x hx)

theorem managed_create {m : Cells} {tables : Paging.State} (hc : avl.Correct)
    (hs : Supply off pfaAllocPage L) (hL : tables.taken < L) :
    Managed off pfaAllocPage L avl (createNodeList off pfaAllocPage m tables)
      [page off pfaAllocPage tables.taken] (pageSlots (page off pfaAllocPage tables.taken))
      .nil reg := by
  constructor
  · constructor
    · exact createNodeList_list (hs.laid _ hL).placed
    · rfl
    · exact hc.kept_nil _
    · exact List.nodup_nil
    · simp [NodeTree.inorder]
    · simp [NodeTree.inorder]
  · intro p hp
    rw [List.mem_singleton] at hp
    exact ⟨tables.taken, Nat.lt_succ_self _, hL, hp⟩
  · intro x hx
    simp [createNodeList] at hx

end Managing

/-- The bytes of a region. -/
def Region.Covers (r : Region) (b : ℕ) : Prop := r.address ≤ b ∧ b < r.address+r.extent*4096

def Region.Apart (r r' : Region) : Prop := ∀ b, ¬ (r.Covers b ∧ r'.Covers b)

/-- A region that a caller may ask for. -/
structure Region.Asked (r : Region) : Prop where
  fits : r.Fits
  aligned : r.address % 4096 = 0
  nonempty : 1 ≤ r.extent
  bounded : r.address+r.extent*4096 ≤ 2^64

/-- The first region ends where the second starts, or before. -/
def Region.Before (r r' : Region) : Prop := r.address+r.extent*4096 ≤ r'.address

section Order

variable {r r' r'' : Region}

theorem before_or_after (h : r.Asked) (h' : r'.Asked) (hap : r.Apart r') :
    r.Before r' ∨ r'.Before r := by
  by_contra hboth
  simp only [Region.Before, not_or, not_le] at hboth
  have := h.nonempty
  have := h'.nonempty
  rcases Nat.le_total r.address r'.address with hle | hle
  · exact hap r'.address ⟨⟨hle, hboth.1⟩, ⟨le_refl _, by omega⟩⟩
  · exact hap r.address ⟨⟨le_refl _, by omega⟩, ⟨hle, hboth.2⟩⟩

theorem Region.Before.apart (h : r.Before r') : r.Apart r' := by
  intro b hb
  have := hb.1.2
  have := hb.2.1
  simp only [Region.Before] at h
  omega

theorem Region.Before.trans (h : r.Before r') (h' : r'.Before r'') : r.Before r'' := by
  simp only [Region.Before] at *
  omega

theorem Region.Before.address_lt (h : r.Before r') (hr : r.Asked) : r.address < r'.address := by
  have := hr.nonempty
  simp only [Region.Before] at h
  omega

theorem sortRegion_before (h : r.Before r') (hr : r.Asked) (hr' : r'.Asked) :
    sortRegion r.address r.extent r'.address r'.extent = -1 := by
  have h1 := hr.nonempty
  have h2 := hr'.nonempty
  have h3 := hr.bounded
  have h4 := hr'.bounded
  simp only [Region.Before] at h
  rw [sortRegion, Nat.mod_eq_of_lt (by omega), Nat.mod_eq_of_lt (by omega), if_pos (by omega),
    if_neg (by omega)]
  rfl

theorem sortRegion_after (h : r'.Before r) (hr : r.Asked) (hr' : r'.Asked) :
    sortRegion r.address r.extent r'.address r'.extent = 1 := by
  have h1 := hr.nonempty
  have h2 := hr'.nonempty
  have h3 := hr.bounded
  have h4 := hr'.bounded
  simp only [Region.Before] at h
  rw [sortRegion, Nat.mod_eq_of_lt (by omega), Nat.mod_eq_of_lt (by omega), if_neg (by omega),
    if_pos (by omega)]
  rfl

end Order

/-- The records of the tree in memory, in order: no byte is in two of them, and
the addresses increase. -/
def RegionsApart (s : State) : Prop := ∃ (T : NodeTree) (rs : List Region), Rep s.mem 0 s.root T ∧
  T.inorder.map (region s.mem) = rs.map some ∧ rs.Pairwise Region.Apart ∧
  rs.Pairwise (fun r r' => r.address < r'.address)

section Runs

variable (off : ℕ) (pfaAllocPage : ℕ → ℕ) (avl : Avl) (Table fuel L : ℕ)

/-- A request is apart from every record of the tree; the lookup of a free finds nothing. -/
def Meets (s : State) : Op → Prop
  | .alloc r => r.Asked ∧ Room off pfaAllocPage L s ∧ ∀ T, Rep s.mem 0 s.root T →
      ∀ q ∈ T.inorder, ∀ r', region s.mem q = some r' → r.Apart r'
  | .free ptr => lookupByAddress fuel s ptr = some 0

def MeetsAll : List Op → State → Prop
  | [], _ => True
  | op::ops, s => Meets off pfaAllocPage fuel L s op ∧
      ∀ s', step off pfaAllocPage avl Table fuel s op = some s' → MeetsAll ops s'

variable {off pfaAllocPage avl Table fuel L} {s : State}

/-- A managed state of at most `n` regions in the order of their addresses. -/
def Ordered (off : ℕ) (pfaAllocPage : ℕ → ℕ) (L : ℕ) (avl : Avl) (n : ℕ)
    (s : State) : Prop :=
  ∃ P F T reg, Managed off pfaAllocPage L avl s P F T reg ∧ T.inorder.length ≤ n ∧
    (∀ q ∈ T.inorder, (reg q).Asked) ∧
    T.inorder.Pairwise (fun q q' => (reg q).Before (reg q'))

theorem Ordered.apart {n : ℕ} (h : Ordered off pfaAllocPage L avl n s) : RegionsApart s := by
  obtain ⟨P, F, T, reg, hman, -, hasked, hpair⟩ := h
  refine ⟨T, T.inorder.map reg, hman.sound.rep, ?_, ?_, ?_⟩
  · rw [List.map_map]
    apply List.map_congr_left
    intro q hq
    exact hman.sound.records q hq
  · rw [List.pairwise_map]
    exact hpair.imp Region.Before.apart
  · rw [List.pairwise_map]
    apply List.Pairwise.imp_of_mem _ hpair
    intro q q' hq hq' hb
    exact hb.address_lt (hasked q hq)

theorem ordered_alloc (Table : ℕ) {n : ℕ} {r : Region} (h : Ordered off pfaAllocPage L avl n s)
    (hc : avl.Correct) (hs : Supply off pfaAllocPage L) (hn : n < fuel)
    (hm : Meets off pfaAllocPage fuel L s (.alloc r)) :
    ∃ s', vasAlloc off pfaAllocPage avl Table fuel s r = some (r.address, s') ∧
      Ordered off pfaAllocPage L avl (n+1) s' := by
  obtain ⟨P, F, T, reg, hman, hlen, hasked, hpair⟩ := h
  obtain ⟨hr, hroom, hapart⟩ := hm
  have hside : ∀ q ∈ T.inorder, (r.Before (reg q) ∧ compare r reg q = -1) ∨
      ((reg q).Before r ∧ compare r reg q = 1) := by
    intro q hq
    rcases before_or_after hr (hasked q hq)
      (hapart T hman.sound.rep q hq _ (hman.sound.records q hq)) with hb | hb
    · exact Or.inl ⟨hb, sortRegion_before hb hr (hasked q hq)⟩
    · exact Or.inr ⟨hb, sortRegion_after hb hr (hasked q hq)⟩
  -- no record compares equal, so the search ends at a vacant place
  obtain ⟨pl, hfind⟩ : ∃ pl, T.find (compare r reg) .root = .inr pl := by
    cases hf : T.find (compare r reg) .root with
    | inl q =>
      obtain ⟨hq, hzero⟩ := find_mem T .root hf
      rcases hside q hq with ⟨-, h1⟩ | ⟨-, h1⟩
      · rw [hzero] at h1
        exact absurd h1 (by decide)
      · rw [hzero] at h1
        exact absurd h1 (by decide)
    | inr pl => exact ⟨pl, rfl⟩
  have hfuel : T.inorder.length < fuel := by omega
  obtain ⟨f, -, -, -, s', P', F', T', heq, -, -, -, hnew, hin, hman'⟩ :=
    managed_alloc Table hman hc hs hr.fits hroom hfuel hfind
  have hlt : ∀ q ∈ T.inorder, compare r reg q < 0 → r.Before (reg q) := by
    intro q hq hneg
    rcases hside q hq with ⟨hb, -⟩ | ⟨-, h1⟩
    · exact hb
    · omega
  have hgt : ∀ q ∈ T.inorder, 0 < compare r reg q → (reg q).Before r := by
    intro q hq hpos
    rcases hside q hq with ⟨-, h1⟩ | ⟨hb, -⟩
    · omega
    · exact hb
  obtain ⟨before, after, hsplit, hins, hbefore, hafter⟩ :=
    insert_inorder T (f+24) hfind hpair
      (by
        intro x hx z hz hneg hxz
        rw [compare, sortRegion_before ((hlt x hx hneg).trans hxz) hr (hasked z hz)]
        decide)
      (by
        intro x hx z hz hpos hzx
        rw [compare, sortRegion_after (hzx.trans (hgt x hx hpos)) hr (hasked z hz)]
        decide)
  have hmem : ∀ q, q ∈ T'.inorder ↔ q = f+24 ∨ q ∈ T.inorder := by
    intro q
    rw [hin, mem_insert T (f+24) hfind]
  have hold : ∀ q ∈ T.inorder, (if q = f+24 then r else reg q) = reg q := by
    intro q hq
    have hne : q ≠ f+24 := fun heq => hnew (heq ▸ hq)
    rw [if_neg hne]
  refine ⟨s', heq, P', F', T', _, hman', ?_, ?_, ?_⟩
  · rw [hin, (insert_perm T (f+24) hfind).length_eq, List.length_cons]
    omega
  · intro q hq
    rcases (hmem q).mp hq with hq | hq
    · rw [if_pos hq]
      exact hr
    · rw [hold q hq]
      exact hasked q hq
  · rw [hin, hins, List.pairwise_append, List.pairwise_cons]
    rw [hsplit, List.pairwise_append] at hpair
    have hin1 : ∀ q ∈ before, q ∈ T.inorder := fun q hq => by simp [hsplit, hq]
    have hin2 : ∀ q ∈ after, q ∈ T.inorder := fun q hq => by simp [hsplit, hq]
    refine ⟨?_, ⟨?_, ?_⟩, ?_⟩
    · apply List.Pairwise.imp_of_mem _ hpair.1
      intro x y hx hy hxy
      rwa [hold x (hin1 x hx), hold y (hin1 y hy)]
    · intro y hy
      rw [if_pos rfl, hold y (hin2 y hy)]
      exact hlt y (hin2 y hy) (hafter y hy)
    · apply List.Pairwise.imp_of_mem _ hpair.2.1
      intro x y hx hy hxy
      rwa [hold x (hin2 x hx), hold y (hin2 y hy)]
    · intro x hx y hy
      rw [hold x (hin1 x hx)]
      rcases List.mem_cons.mp hy with hy | hy
      · rw [if_pos hy]
        exact hgt x (hin1 x hx) (hbefore x hx)
      · rw [hold y (hin2 y hy)]
        exact hpair.2.2 x hx y hy

theorem ordered_step (Table : ℕ) {n : ℕ} (h : Ordered off pfaAllocPage L avl n s) (hc : avl.Correct)
    (hs : Supply off pfaAllocPage L) (hn : n < fuel) (op : Op)
    (hm : Meets off pfaAllocPage fuel L s op) :
    ∃ s', step off pfaAllocPage avl Table fuel s op = some s' ∧
      Ordered off pfaAllocPage L avl (n+1) s' := by
  cases op with
  | alloc r =>
    obtain ⟨s', heq, hord⟩ := ordered_alloc Table h hc hs hn hm
    exact ⟨s', by simp [step, heq], hord⟩
  | free ptr =>
    have hlook : lookupByAddress fuel s ptr = some 0 := hm
    obtain ⟨P, F, T, reg, hman, hlen, hrest⟩ := h
    exact ⟨s, by simp [step, vasFree, hlook], P, F, T, reg, hman, by omega, hrest⟩

theorem ordered_run (ops : List Op) (n : ℕ) (s : State) (h : Ordered off pfaAllocPage L avl n s)
    (hc : avl.Correct) (hs : Supply off pfaAllocPage L) (hn : n+ops.length < fuel+1)
    (hm : MeetsAll off pfaAllocPage avl Table fuel L ops s) :
    ∃ s', run off pfaAllocPage avl Table fuel ops s = some s' ∧
      Ordered off pfaAllocPage L avl (n+ops.length) s' := by
  refine run_invariant ?_ ops n s h hn hm
  intro n s op ops h hn hm
  obtain ⟨s', heq, hord⟩ := ordered_step Table h hc hs hn op hm.1
  exact ⟨s', heq, hord, hm.2 s' heq⟩

end Runs

section Examples

theorem risingPages_supply : Supply higherHalf risingPages 64 := by
  constructor
  · intro k hk
    rw [risingPages_page k hk]
    refine ⟨?_, ?_, ?_⟩ <;> omega
  · intro k hk l hl heq
    rw [risingPages_page k hk, risingPages_page l hl] at heq
    omega

/-- Nodes and pages of zeros, and no region. -/
def emptyVas : State := createNodeList higherHalf risingPages (fun _ => some 0) noTables

def runEmpty (ops : List Op) : Option State := run higherHalf risingPages plain 0x10000 4 ops emptyVas

theorem runEmpty_eq {ops : List Op} (h : (runEmpty ops).isSome = true) :
    runEmpty ops = some ((runEmpty ops).getD emptyVas) := by
  cases hr : runEmpty ops with
  | none =>
    rw [hr] at h
    exact absurd h (by decide)
  | some s => rfl

/-- Two pages, and one page that is the second of them. -/
def overlapping : List Op := [.alloc ⟨0x400000, 2, 3⟩, .alloc ⟨0x401000, 1, 3⟩]

def slot0 : ℕ := 0xffff800000100040

/-- Two regions that touch, and a free. -/
def touching : List Op := [.alloc ⟨0x400000, 2, 3⟩, .alloc ⟨0x402000, 1, 3⟩, .free 0x400000]

theorem room_of_counts {s : State} (used total : ℕ) (hu : load32 s.mem (s.alloc+36) = some used)
    (ht : load32 s.mem (s.alloc+32) = some total) (hne : used+1 ≠ total) :
    Room higherHalf risingPages 64 s := by
  intro used' total' hu' ht' heq
  rw [hu, Option.some.injEq] at hu'
  rw [ht, Option.some.injEq] at ht'
  omega

theorem touching_meets : MeetsAll higherHalf risingPages plain 0x10000 4 64 touching emptyVas := by
  refine ⟨⟨?_, ?_, ?_⟩, ?_⟩
  · exact ⟨⟨by decide, by decide, by decide⟩, by decide, by decide, by decide⟩
  · exact room_of_counts 0 63 (by decide +kernel) (by decide +kernel) (by decide)
  · intro T hT q hq
    have hnil : Rep emptyVas.mem 0 emptyVas.root .nil := rfl
    rw [rep_unique T _ 0 0 _ hT hnil] at hq
    simp [NodeTree.inorder] at hq
  · intro s hstep
    have hs : (runEmpty [.alloc ⟨0x400000, 2, 3⟩]).getD emptyVas = s := by
      simp [runEmpty, run, hstep]
    refine ⟨⟨?_, ?_, ?_⟩, ?_⟩
    · exact ⟨⟨by decide, by decide, by decide⟩, by decide, by decide, by decide⟩
    · rw [← hs]
      exact room_of_counts 1 63 (by decide +kernel) (by decide +kernel) (by decide)
    · have hroot : s.root = slot0+24 := by rw [← hs]; decide +kernel
      have hl : load64 s.mem (slot0+24) = some 0 := by rw [← hs]; decide +kernel
      have hr : load64 s.mem (slot0+24+8) = some 0 := by rw [← hs]; decide +kernel
      have hb : load64 s.mem (slot0+24+16) = some 1 := by rw [← hs]; decide +kernel
      have h0 : region s.mem (slot0+24) = some ⟨0x400000, 2, 3⟩ := by rw [← hs]; decide +kernel
      have hrep : Rep s.mem 0 s.root (.node .nil (slot0+24) .nil) :=
        ⟨hroot, by decide, 0, 0, 1, by decide, hl, hr, hb, rfl, rfl⟩
      intro T hT q hq r' hr'
      rw [rep_unique T _ 0 0 _ hT hrep] at hq
      simp only [NodeTree.inorder, List.nil_append, List.mem_singleton] at hq
      rw [hq, h0, Option.some.injEq] at hr'
      rw [← hr']
      intro byte hbyte
      simp only [Region.Covers] at hbyte
      omega
    · intro s' hstep'
      have hs' : (runEmpty [.alloc ⟨0x400000, 2, 3⟩, .alloc ⟨0x402000, 1, 3⟩]).getD emptyVas = s' := by
        simp [runEmpty, run, hstep, hstep']
      refine ⟨?_, fun _ _ => trivial⟩
      show lookupByAddress 4 s' 0x400000 = some 0
      rw [← hs']
      decide +kernel

end Examples

end BruhOS.Vas
