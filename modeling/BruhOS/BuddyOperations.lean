import BruhOS.BuddyLists

/-!
# Splitting and merging as moves on a tiling

A state of the allocator stands for a tiling of the managed pages: its tiles
are the nodes marked free and the nodes handed out. Taking a block, splitting
it, returning it and merging it with its buddy keep the tiling, and leave no
pair of free buddies behind. The specifications below are the only facts about
`alloc_pages` and `free_pages` used elsewhere.
-/

set_option autoImplicit false

namespace BruhOS.BuddyOperations
open BruhOS.LinkedRing BruhOS.BlockTree BruhOS.StdMath BruhOS.BuddyMachine BruhOS.BuddyLists

/-- The lists hold exactly the nodes whose state field says free. -/
structure Rep (B : Build) (s : BuddyAllocator) (F : ℕ → List ℕ) : Prop
    extends Lists B s F where
  state : ∀ o, BlockTree.level o ≤ B.depth →
    s.state o = if o ∈ F (BlockTree.level o) then FREE else USED

def freeNodes (B : Build) (s : BuddyAllocator) : Set ℕ :=
  {o | level o ≤ B.depth ∧ s.state o = FREE}

section Rep

variable {B : Build} {s : BuddyAllocator} {F : ℕ → List ℕ} {l e o : ℕ} {xs ys : List ℕ}

theorem Rep.mem_free_iff (h : Rep B s F) : o ∈ freeNodes B s ↔
    level o ≤ B.depth ∧ o ∈ F (level o) := by
  constructor
  · rintro ⟨hl, hs⟩
    refine ⟨hl, ?_⟩
    by_contra hn
    rw [h.state o hl, if_neg hn] at hs
    exact absurd hs (by decide)
  · rintro ⟨hl, hm⟩
    exact ⟨hl, by rw [h.state o hl, if_pos hm]⟩

theorem Rep.free_of_mem (h : Rep B s F) (hl : l ≤ B.depth) (ho : o ∈ F l) :
    o ∈ freeNodes B s := by
  have hlev := h.level l hl o ho
  rw [h.mem_free_iff, hlev]
  exact ⟨hl, ho⟩

theorem Rep.state_ne_zero_iff (h : Rep B s F) (hl : level o ≤ B.depth) :
    (s.state o != 0) = true ↔ o ∈ freeNodes B s := by
  rw [h.mem_free_iff, h.state o hl]
  by_cases hm : o ∈ F (level o)
  · rw [if_pos hm]
    exact ⟨fun _ => ⟨hl, hm⟩, fun _ => by decide⟩
  · rw [if_neg hm]
    exact ⟨fun hx => absurd hx (by decide), fun hx => absurd hx.2 hm⟩

theorem Rep.push (h : Rep B s F) (hl : l ≤ B.depth) (he : level e = l)
    (hn : e ∉ freeNodes B s) : Rep B (pushEntry B s l e) (Function.update F l (F l++[e])) := by
  have hnF : e ∉ F l := fun hm => hn (h.free_of_mem hl hm)
  refine ⟨push_lists h.toLists hl he hnF, ?_⟩
  intro o ho
  rw [pushEntry_state]
  by_cases hoe : o = e
  · subst hoe
    rw [he]
    simp
  · rw [Function.update_of_ne hoe, h.state o ho]
    by_cases hol : level o = l
    · rw [hol, Function.update_self]
      simp [hoe]
    · rw [Function.update_of_ne hol]

theorem Rep.pop (hlog : Log2Contract B.log2ui) (h : Rep B s F) (hl : l ≤ B.depth)
    (hF : F l = xs++[e]) : (popEntry B s l).1 = e ∧
      Rep B (popEntry B s l).2 (Function.update F l xs) ∧
      (popEntry B s l).2.start = s.start := by
  obtain ⟨h1, h2, h3, h4⟩ := pop_lists hlog h.toLists hl hF
  refine ⟨h1, ⟨h2, ?_⟩, h4⟩
  have hlev := h.level l hl e (by simp [hF])
  have hnd := h.nodup l hl
  rw [hF, List.nodup_append] at hnd
  intro o ho
  rw [h3]
  by_cases hoe : o = e
  · subst hoe
    have hnx : o ∉ xs := fun hx => hnd.2.2 o hx o (by simp) rfl
    rw [hlev]
    simp [hnx]
  · rw [Function.update_of_ne hoe, h.state o ho]
    by_cases hol : level o = l
    · rw [hol, Function.update_self, hF]
      simp [hoe]
    · rw [Function.update_of_ne hol]

theorem Rep.remove (hlog : Log2Contract B.log2ui) (h : Rep B s F) (hl : l ≤ B.depth)
    (hF : F l = xs++e::ys) (hys : ys ≠ []) :
    Rep B (removeEntry B s e) (Function.update F l (xs++ys)) := by
  refine ⟨remove_lists hlog h.toLists hl hF hys, ?_⟩
  have hlev := h.level l hl e (by simp [hF])
  have hnd := h.nodup l hl
  rw [hF] at hnd
  intro o ho
  rw [removeEntry_state]
  by_cases hoe : o = e
  · subst hoe
    have hnx : o ∉ xs++ys := (List.nodup_middle.mp hnd |> List.nodup_cons.mp).1
    rw [hlev]
    simp only [Function.update_self, if_neg hnx]
  · rw [Function.update_of_ne hoe, h.state o ho]
    by_cases hol : level o = l
    · rw [hol, Function.update_self, hF]
      simp [hoe]
    · rw [Function.update_of_ne hol]

theorem freeNodes_push (he : level e ≤ B.depth) :
    freeNodes B (pushEntry B s l e) = insert e (freeNodes B s) := by
  ext o
  simp only [freeNodes, pushEntry_state, Set.mem_ofPred_eq, Set.mem_insert_iff]
  by_cases hoe : o = e
  · simp [hoe, he]
  · simp [hoe]

theorem freeNodes_remove : freeNodes B (removeEntry B s e) = freeNodes B s \ {e} := by
  ext o
  simp only [freeNodes, removeEntry_state, Set.mem_ofPred_eq, Set.mem_sdiff, Set.mem_singleton_iff]
  by_cases hoe : o = e
  · simp [hoe, USED, FREE]
  · simp [hoe]

theorem freeNodes_pop (hlog : Log2Contract B.log2ui) (h : Lists B s F) (hl : l ≤ B.depth)
    (hF : F l = xs++[e]) : freeNodes B (popEntry B s l).2 = freeNodes B s \ {e} := by
  have hs := (pop_lists hlog h hl hF).2.2.1
  ext o
  simp only [freeNodes, hs, Set.mem_ofPred_eq, Set.mem_sdiff, Set.mem_singleton_iff]
  by_cases hoe : o = e
  · simp [hoe, USED, FREE]
  · simp [hoe]

end Rep

/-- The invariant of the allocator: `A` tiles the pages `P`, the free nodes are
tiles and no two of them are buddies. -/
structure Inv (B : Build) (s : BuddyAllocator) (A P : Set ℕ) : Prop where
  rep : ∃ F, Rep B s F
  tiling : Tiling B.depth A P
  free_subset : freeNodes B s ⊆ A
  twinFree : TwinFree (freeNodes B s)

/-- The tiles that are handed out. -/
def owned (B : Build) (s : BuddyAllocator) (A : Set ℕ) : Set ℕ := A \ freeNodes B s

section Search

variable {B : Build} {s : BuddyAllocator} {F : ℕ → List ℕ}

theorem searchLoop_stop (lvl block k : ℕ) (h : block ≠ B.head lvl) :
    searchLoop B lvl block k s = (lvl, block, k, s) := by
  cases lvl with
  | zero => rfl
  | succ lvl => rw [searchLoop, if_neg h]

/-- From an empty level the search climbs to the first level above with a
block and pops it, or ends at the empty top level. -/
theorem searchLoop_spec (hlog : Log2Contract B.log2ui) (h : Rep B s F) (lvl k : ℕ)
    (hl : lvl ≤ B.depth) :
    (searchLoop B lvl (B.head lvl) k s = (0, B.head 0, k+lvl, s) ∧ ∀ j < lvl, F j = []) ∨
    ∃ m f xs, m < lvl ∧ F m = xs++[f] ∧ (∀ j, m < j → j < lvl → F j = []) ∧
      searchLoop B lvl (B.head lvl) k s = (m, f, k+(lvl-m), (popEntry B s m).2) := by
  induction lvl generalizing k with
  | zero => exact Or.inl ⟨rfl, by simp⟩
  | succ lvl ih =>
    rw [searchLoop, if_pos rfl]
    rcases List.eq_nil_or_concat (F lvl) with hF | ⟨xs, f, hF⟩
    · rw [pop_empty h.toLists (by omega) hF]
      have hpast : ∀ j, j ≤ lvl → (j < lvl → F j = []) → F j = [] := by
        intro j hj hlt
        obtain rfl | hlt' : j = lvl ∨ j < lvl := by omega
        · exact hF
        · exact hlt hlt'
      rcases ih (k+1) (by omega) with ⟨hs, hnone⟩ | ⟨m, f, xs, hm, hF', hnone, hs⟩
      · left
        refine ⟨?_, fun j hj => hpast j (by omega) (hnone j)⟩
        show searchLoop B lvl (B.head lvl) (k+1) s = _
        rw [hs]
        congr 3
        omega
      · right
        refine ⟨m, f, xs, by omega, hF', fun j hmj hj => hpast j (by omega) (hnone j hmj), ?_⟩
        show searchLoop B lvl (B.head lvl) (k+1) s = _
        rw [hs]
        congr 3
        omega
    · right
      rw [List.concat_eq_append] at hF
      have hpop := (h.pop hlog (by omega) hF).1
      have hlev := h.level lvl (by omega) f (by simp [hF])
      have hne : f ≠ B.head lvl := (offset_lt_head B lvl (by omega)).ne
      refine ⟨lvl, f, xs, by omega, hF, fun j h1 h2 => by omega, ?_⟩
      simp only [hpop]
      rw [searchLoop_stop lvl f (k+1) hne]
      congr 3
      omega

end Search

section Split

variable {B : Build} {s : BuddyAllocator} {A P : Set ℕ}

/-- A free block that is off its list is handed out. -/
theorem Inv.take (h : Inv B s A P) {t : BuddyAllocator} {f : ℕ} (ht : ∃ F, Rep B t F)
    (hfree : freeNodes B t = freeNodes B s \ {f}) (hf : f ∈ freeNodes B s) :
    Inv B t A P ∧ owned B t A = insert f (owned B s A) ∧ f ∉ owned B s A := by
  refine ⟨⟨ht, h.tiling, ?_, ?_⟩, ?_, fun hx => hx.2 hf⟩
  · rw [hfree]
    exact fun o ho => h.free_subset ho.1
  · rw [hfree]
    exact h.twinFree.mono (fun o ho => ho.1)
  · rw [owned, owned, hfree]
    ext o
    have := @h.free_subset o
    by_cases hof : o = f
    · simp [hof, h.free_subset hf]
    · simp [hof]

/-- Taking a free block keeps the tiling and hands the block out. -/
theorem take_inv (hlog : Log2Contract B.log2ui) (h : Inv B s A P) {F : ℕ → List ℕ}
    (hR : Rep B s F) {l f : ℕ} {xs : List ℕ} (hl : l ≤ B.depth) (hF : F l = xs++[f]) :
    Inv B (popEntry B s l).2 A P ∧
    owned B (popEntry B s l).2 A = insert f (owned B s A) ∧ f ∉ owned B s A :=
  h.take ⟨_, (hR.pop hlog hl hF).2.1⟩ (freeNodes_pop hlog hR.toLists hl hF)
    (hR.free_of_mem hl (by simp [hF]))

/-- A block that is split: one child stays out, the other becomes free. -/
theorem split_step (hlog : Log2Contract B.log2ui) (h : Inv B s A P) {o c d : ℕ}
    (hcd : (c = 2*o+1 ∧ d = 2*o+2) ∨ (c = 2*o+2 ∧ d = 2*o+1))
    (ho : o ∈ owned B s A) (hl : level o < B.depth) :
    let s' := pushEntry B s (level o+1) d
    let s'' := pushEntry B s' (level o+1) c
    (popEntry B s'' (level o+1)).1 = c ∧
    (popEntry B s'' (level o+1)).2.start = s.start ∧
    Inv B (popEntry B s'' (level o+1)).2 (splitAt A o) P ∧
    owned B (popEntry B s'' (level o+1)).2 (splitAt A o) = insert c (owned B s A \ {o}) := by
  obtain ⟨F, hR⟩ := h.rep
  obtain ⟨hoA, hof⟩ := ho
  intro s' s''
  have hpair : ({2*o+1, 2*o+2} : Set ℕ) = {c, d} := by
    rcases hcd with ⟨rfl, rfl⟩ | ⟨rfl, rfl⟩
    · rfl
    · exact Set.pair_comm _ _
  have hlevel : level c = level o+1 ∧ level d = level o+1 := by
    rcases hcd with ⟨rfl, rfl⟩ | ⟨rfl, rfl⟩
    · exact ⟨level_left o, level_right o⟩
    · exact ⟨level_right o, level_left o⟩
  have hne : c ≠ d := by omega
  -- Neither child is a tile, since its parent is one.
  have hchild : c ∉ A ∧ d ∉ A := by
    have hnot : ∀ x, Under o x → o < x → x ∉ A := fun x hu hx hm => by
      have := h.tiling.antichain o hoA x hm hu
      omega
    rcases hcd with ⟨rfl, rfl⟩ | ⟨rfl, rfl⟩
    · exact ⟨hnot _ (under_left o) (by omega), hnot _ (under_right o) (by omega)⟩
    · exact ⟨hnot _ (under_right o) (by omega), hnot _ (under_left o) (by omega)⟩
  have hcf : c ∉ freeNodes B s := fun hm => hchild.1 (h.free_subset hm)
  have hR1 : Rep B s' _ := hR.push (l := level o+1) (by omega) hlevel.2
    (fun hm => hchild.2 (h.free_subset hm))
  have hfree1 : freeNodes B s' = insert d (freeNodes B s) := freeNodes_push (by omega)
  have hn1 : c ∉ freeNodes B s' := by
    rw [hfree1]
    rintro (hm | hm)
    · exact hne hm
    · exact hcf hm
  have hR2 : Rep B s'' _ := hR1.push (l := level o+1) (by omega) hlevel.1 hn1
  have hfree2 : freeNodes B s'' = insert c (freeNodes B s') := freeNodes_push (by omega)
  have hF2 := Function.update_self (level o+1)
    (Function.update F (level o+1) (F (level o+1)++[d]) (level o+1)++[c])
    (Function.update F (level o+1) (F (level o+1)++[d]))
  obtain ⟨hp1, hp2, hp3⟩ := hR2.pop hlog (by omega) hF2
  have hfree3 := freeNodes_pop hlog hR2.toLists (by omega) hF2
  have hfree : freeNodes B (popEntry B s'' (level o+1)).2 = insert d (freeNodes B s) := by
    rw [hfree3, hfree2, Set.insert_sdiff_of_mem _ (Set.mem_singleton _),
      Set.sdiff_singleton_eq_self hn1, hfree1]
  refine ⟨hp1, by rw [hp3, pushEntry_start, pushEntry_start],
    ⟨⟨_, hp2⟩, h.tiling.split hoA hl, ?_, ?_⟩, ?_⟩
  · rw [hfree, splitAt, hpair]
    rintro x (rfl | hx)
    · exact Or.inr (Or.inr rfl)
    · refine Or.inl ⟨h.free_subset hx, ?_⟩
      rintro rfl
      exact hof hx
  · -- The free child has its buddy out.
    rw [hfree]
    rintro j ⟨hj1 | hj1, hj2 | hj2⟩
    · omega
    · have hc : c = 2*j+2 := by omega
      exact hcf (hc ▸ hj2)
    · have hc : c = 2*j+1 := by omega
      exact hcf (hc ▸ hj1)
    · exact h.twinFree j ⟨hj1, hj2⟩
  · rw [owned, owned, hfree, splitAt, hpair]
    ext x
    have hx := @h.free_subset x
    simp only [Set.mem_sdiff, Set.mem_union, Set.mem_insert_iff, Set.mem_singleton_iff]
    by_cases hx1 : x = c
    · subst hx1
      simp [hcf, hne]
    · by_cases hx2 : x = d
      · subst hx2
        simp [hchild.2, hne.symm]
      · simp [hx1, hx2]
        tauto

/-- The left child starts where its parent does. -/
theorem firstPage_left {D o : ℕ} (h : level o < D) : firstPage D (2*o+1) = firstPage D o := by
  have hb := (level_bounds o).1
  obtain ⟨d, hd⟩ : ∃ d, D-level o = d+1 := ⟨D-level o-1, by omega⟩
  have hsub : 2*o+1+1-2^(level o+1) = 2*(o+1-2^(level o)) := by
    rw [pow_succ]
    omega
  rw [firstPage, firstPage, level_left, hsub, hd, show D-(level o+1) = d by omega, pow_succ]
  ring

theorem splitLoop_spec (hlog : Log2Contract B.log2ui) (k i o : ℕ) (h : Inv B s A P)
    (ho : o ∈ owned B s A) (hi : level o = i) (hk : i+k ≤ B.depth) :
    ∃ b A', (splitLoop B k i o s).1 = b ∧ level b = i+k ∧ Under o b ∧
      firstPage B.depth b = firstPage B.depth o ∧
      (splitLoop B k i o s).2.start = s.start ∧ Inv B (splitLoop B k i o s).2 A' P ∧
      owned B (splitLoop B k i o s).2 A' = insert b (owned B s A \ {o}) := by
  induction k generalizing i o s A with
  | zero =>
    refine ⟨o, A, rfl, hi, under_refl o, rfl, rfl, h, ?_⟩
    ext x
    by_cases hx : x = o
    · simp [hx, splitLoop, ho]
    · simp [hx, splitLoop]
  | succ k ih =>
    subst hi
    obtain ⟨hp, hstart, hinv, hown⟩ := split_step hlog h (c := o*2+1) (d := o*2+2)
      (Or.inl ⟨by omega, by omega⟩) ho (by omega)
    have hc : o*2+1 = 2*o+1 := by omega
    simp only [splitLoop]
    generalize popEntry B (pushEntry B (pushEntry B s (level o+1) (o*2+2)) (level o+1) (o*2+1))
      (level o+1) = r at hp hstart hinv hown ⊢
    rw [hc] at hp hown
    rw [hp]
    obtain ⟨b, A', h1, h2, h3, hfp, h4, h5, h6⟩ := ih (level o+1) (2*o+1) hinv
      (by rw [hown]; exact Or.inl rfl) (level_left o) (by omega)
    refine ⟨b, A', h1, by rw [h2]; omega, under_trans (under_left o) h3,
      hfp.trans (firstPage_left (by omega)), by rw [h4, hstart], h5, ?_⟩
    rw [h6, hown]
    have hn : 2*o+1 ∉ owned B s A := fun hm => by
      have := h.tiling.antichain o ho.1 _ hm.1 (under_left o)
      omega
    ext x
    by_cases hx : x = 2*o+1
    · simp [hx, hn]
    · simp [hx]

end Split

section Alloc

variable {B : Build} {s : BuddyAllocator} {A P : Set ℕ}

theorem getAddress_start {s' : BuddyAllocator} (o : ℕ) (h : s'.start = s.start) :
    getAddress B s' o = getAddress B s o := by
  simp only [getAddress, h]

/-- The level computed for an admitted request holds blocks of its size. -/
theorem requestLevel_spec (hlog : Log2Contract B.log2ui) {count : ℕ} (hc : count < 2^32)
    (h : ¬ (pageCount count > 2^B.depth ∨ pageCount count = 0)) :
    B.requestLevel count ≤ B.depth ∧ 2^(B.depth-B.requestLevel count) = pageCount count := by
  rcases pageCount_cases count hc with h0 | ⟨-, -, hp, hle⟩
  · exact absurd (Or.inr h0) h
  have hlt : 2^(Nat.clog 2 count) < 2^32 := Nat.pow_lt_pow_right (by decide) (by omega)
  have hcD : Nat.clog 2 count ≤ B.depth := by
    by_contra hgt
    apply h
    left
    rw [hp]
    exact Nat.pow_lt_pow_right (by decide) (by omega)
  have hlev : B.requestLevel count = B.depth-Nat.clog 2 count := by
    rw [Build.requestLevel, hp, hlog _ (by positivity) hlt, Nat.log2_two_pow]
  rw [hlev, hp]
  refine ⟨by omega, ?_⟩
  congr 1
  omega

/-- The checks at the entry of an allocation let the request pass. -/
def Admitted (B : Build) (count : ℕ) : Prop :=
  ¬ (pageCount count > 2^B.depth ∨ pageCount count = 0)

instance (B : Build) (count : ℕ) : Decidable (Admitted B count) :=
  inferInstanceAs (Decidable (¬ _))

/-- `m` is the deepest level at or above `lvl` with a block on its list. -/
structure Deepest (s : BuddyAllocator) (lvl m : ℕ) : Prop where
  le : m ≤ lvl
  nonempty : s.size m ≠ 0
  above : ∀ j, m < j → j ≤ lvl → s.size j = 0

theorem Rep.last_of_size {F : ℕ → List ℕ} (h : Rep B s F) {m f : ℕ} {xs : List ℕ}
    (hm : m ≤ B.depth) (hF : F m = xs++[f]) : s.free m = f ∧ s.size m ≠ 0 ∧ level f = m := by
  refine ⟨?_, ?_, h.level m hm f (by simp [hF])⟩
  · rw [h.tail m hm, hF, lastOf_append_cons]
    rfl
  · intro hz
    have hnil := (h.size_eq_zero_iff hm).mp hz
    rw [hF] at hnil
    simp at hnil

/-- An allocation finds no block and changes nothing, or it takes the last block of the deepest
list that can serve it and hands out a part of it that starts at the same page. -/
theorem alloc_found (hlog : Log2Contract B.log2ui) (h : Inv B s A P) {count : ℕ}
    (hc : count < 2^32) :
    (allocPages B s count = (0, s) ∧
      (Admitted B count → ∀ m ≤ B.requestLevel count, s.size m = 0)) ∨
    ∃ m o A', Admitted B count ∧ Deepest s (B.requestLevel count) m ∧ level (s.free m) = m ∧
      firstPage B.depth o = firstPage B.depth (s.free m) ∧
      level o = B.requestLevel count ∧ level o ≤ B.depth ∧
      2^(B.depth-level o) = pageCount count ∧
      (allocPages B s count).1 = getAddress B s o ∧
      (allocPages B s count).2.start = s.start ∧ Inv B (allocPages B s count).2 A' P ∧
      owned B (allocPages B s count).2 A' = insert o (owned B s A) ∧ o ∉ owned B s A := by
  by_cases hreq : pageCount count > 2^B.depth ∨ pageCount count = 0
  · left
    rw [allocPages, if_pos hreq]
    exact ⟨rfl, fun ha => absurd hreq ha⟩
  obtain ⟨hl, hpow⟩ := requestLevel_spec hlog hc hreq
  obtain ⟨F, hR⟩ := h.rep
  generalize hlv : B.requestLevel count = lvl at hl hpow
  have hsize : ∀ j ≤ lvl, F j = [] → s.size j = 0 := fun j hj hF =>
    (hR.size_eq_zero_iff (hj.trans hl)).mpr hF
  rw [allocPages, if_neg hreq]
  simp only [hlv]
  rcases List.eq_nil_or_concat (F lvl) with hF | ⟨xs, f, hF⟩
  · rw [(hR.tail_eq_head_iff hl).mpr hF]
    have hupto : ∀ j ≤ lvl, (j < lvl → F j = []) → s.size j = 0 := by
      intro j hj hlt
      obtain rfl | hlt' : j = lvl ∨ j < lvl := by omega
      · exact hsize j hj hF
      · exact hsize j hj (hlt hlt')
    rcases searchLoop_spec hlog hR lvl 0 hl with ⟨hs, hnone⟩ | ⟨m, f, xs, hm, hFm, hnone, hs⟩
    · left
      simp only [hs, if_pos]
      exact ⟨trivial, fun _ m hm => hupto m hm (hnone m)⟩
    · right
      have hlm : m ≤ B.depth := by omega
      obtain ⟨htail, hsz, hlev⟩ := hR.last_of_size hlm hFm
      have hne : f ≠ B.head m := (offset_lt_head B m (by omega)).ne
      obtain ⟨hinv, hown, hfn⟩ := take_inv hlog h hR hlm hFm
      obtain ⟨b, A', h1, h2, h3, hfp, h4, h5, h6⟩ := splitLoop_spec hlog (0+(lvl-m)) m f hinv
        (by rw [hown]; exact Or.inl rfl) hlev (by omega)
      have hlb : level b = lvl := by omega
      have hstart : (splitLoop B (0+(lvl-m)) m f (popEntry B s m).2).2.start = s.start := by
        rw [h4]
        exact (hR.pop hlog hlm hFm).2.2
      have hs0 : ¬ (0+(lvl-m) = 0) := by omega
      simp only [hs, if_neg hne, if_neg hs0]
      have hff : f ∈ freeNodes B s := hR.free_of_mem hlm (by simp [hFm])
      refine ⟨m, b, A', hreq, ⟨hm.le, hsz, fun j h1 h2 => hupto j h2 (hnone j h1)⟩,
        by rw [htail, hlev], by rw [htail, hfp], hlb, by omega, by rw [hlb, hpow], ?_, hstart, h5,
        ?_, ?_⟩
      · rw [h1]
        exact getAddress_start b hstart
      · rw [h6, hown, Set.insert_sdiff_of_mem _ (Set.mem_singleton f)]
        congr 1
        exact Set.sdiff_singleton_eq_self hfn
      · intro hb
        have := h.tiling.antichain f (h.free_subset hff) b hb.1 h3
        exact hfn (this ▸ hb)
  · right
    rw [List.concat_eq_append] at hF
    obtain ⟨htail, hsz, hlev⟩ := hR.last_of_size hl hF
    have hne : f ≠ B.head lvl := (offset_lt_head B lvl (by omega)).ne
    obtain ⟨hinv, hown, hfn⟩ := take_inv hlog h hR hl hF
    obtain ⟨hp1, -, hp3⟩ := hR.pop hlog hl hF
    refine ⟨lvl, f, A, hreq, ⟨le_rfl, hsz, fun j h1 h2 => by omega⟩, by rw [htail, hlev],
      by rw [htail], hlev, by omega, by rw [hlev, hpow], ?_⟩
    rw [htail]
    simp only [searchLoop_stop lvl f 0 hne, if_neg hne, splitLoop, if_pos]
    refine ⟨?_, hp3, hinv, hown, hfn⟩
    rw [hp1]
    exact getAddress_start f hp3

/-- An allocation changes nothing and returns null, or it hands out one block
of the requested size that was not handed out before. -/
theorem alloc_spec (hlog : Log2Contract B.log2ui) (h : Inv B s A P) {count : ℕ}
    (hc : count < 2^32) : allocPages B s count = (0, s) ∨
    ∃ o A', level o = B.requestLevel count ∧ level o ≤ B.depth ∧
      2^(B.depth-level o) = pageCount count ∧
      (allocPages B s count).1 = getAddress B s o ∧
      (allocPages B s count).2.start = s.start ∧ Inv B (allocPages B s count).2 A' P ∧
      owned B (allocPages B s count).2 A' = insert o (owned B s A) ∧ o ∉ owned B s A := by
  rcases alloc_found hlog h hc with ⟨hs, -⟩ | ⟨-, o, A', -, -, -, -, hrest⟩
  · exact Or.inl hs
  · exact Or.inr ⟨o, A', hrest⟩

end Alloc

section Free

variable {B : Build} {s : BuddyAllocator} {A P : Set ℕ}

theorem getBuddy_left (q : ℕ) (h : q < 2^17) : getBuddy (2*q+1) = 2*q+2 := by
  rw [getBuddy, if_pos (by omega)]
  omega

theorem getBuddy_right (q : ℕ) (h : q < 2^17) : getBuddy (2*q+2) = 2*q+1 := by
  rw [getBuddy, if_pos (by omega)]
  omega

/-- A node and its buddy are the two children of its parent. -/
theorem buddy_cases {o : ℕ} (ho : level o ≤ B.depth) (h0 : o ≠ 0) :
    (o = 2*((o-1)/2)+1 ∧ getBuddy o = 2*((o-1)/2)+2) ∨
    (o = 2*((o-1)/2)+2 ∧ getBuddy o = 2*((o-1)/2)+1) := by
  have hs := offset_small B ho
  rcases Nat.even_or_odd' o with ⟨k, hk | hk⟩
  · right
    have he : o = 2*((o-1)/2)+2 := by omega
    refine ⟨he, ?_⟩
    rw [he]
    have := getBuddy_right ((o-1)/2) (by omega)
    rwa [← he] at this ⊢
  · left
    have he : o = 2*((o-1)/2)+1 := by omega
    refine ⟨he, ?_⟩
    have := getBuddy_left ((o-1)/2) (by omega)
    rwa [← he] at this

theorem buddy_level {o : ℕ} (ho : level o ≤ B.depth) (h0 : o ≠ 0) :
    level (getBuddy o) = level o ∧ getBuddy o ≠ o := by
  rcases buddy_cases ho h0 with ⟨h1, h2⟩ | ⟨h1, h2⟩
  · rw [h2]
    refine ⟨?_, by omega⟩
    conv_rhs => rw [h1]
    rw [level_left, level_right]
  · rw [h2]
    refine ⟨?_, by omega⟩
    conv_rhs => rw [h1]
    rw [level_left, level_right]

/-- The condition on which `try_merge` works: all is well except that the
block at `o`, the last of its list, may have a free buddy. -/
structure Pending (B : Build) (s : BuddyAllocator) (A P : Set ℕ) (o : ℕ) : Prop where
  rep : ∃ F xs, Rep B s F ∧ F (level o) = xs++[o]
  bound : level o ≤ B.depth
  tiling : Tiling B.depth A P
  free_subset : freeNodes B s ⊆ A
  twinFree : TwinFree (freeNodes B s \ {o})

theorem Pending.settled {o : ℕ} (h : Pending B s A P o)
    (hb : o = 0 ∨ getBuddy o ∉ freeNodes B s) : Inv B s A P := by
  obtain ⟨F, xs, hR, -⟩ := h.rep
  refine ⟨⟨F, hR⟩, h.tiling, h.free_subset, ?_⟩
  rintro j ⟨h1, h2⟩
  by_cases hj : 2*j+1 = o ∨ 2*j+2 = o
  · have h0 : o ≠ 0 := by omega
    have hnb := hb.resolve_left h0
    rcases buddy_cases h.bound h0 with ⟨e1, e2⟩ | ⟨e1, e2⟩
    · have : j = (o-1)/2 := by omega
      exact hnb (by rw [e2, ← this]; exact h2)
    · have : j = (o-1)/2 := by omega
      exact hnb (by rw [e2, ← this]; exact h1)
  · rw [not_or] at hj
    exact h.twinFree j ⟨⟨h1, hj.1⟩, ⟨h2, hj.2⟩⟩

/-- One pass of the merge loop replaces two free buddies by their parent. -/
theorem merge_step (hlog : Log2Contract B.log2ui) {o lvl : ℕ} (h : Pending B s A P o)
    (hl : level o = lvl+1) (hb : getBuddy o ∈ freeNodes B s) :
    let s' := (popEntry B (removeEntry B s (getBuddy o)) (lvl+1)).2
    let q := (o-1)/2
    level q = lvl ∧ (pushEntry B s' lvl q).start = s.start ∧
    Pending B (pushEntry B s' lvl q) (mergeAt A q) P q ∧
    owned B (pushEntry B s' lvl q) (mergeAt A q) = owned B s A := by
  intro s' q
  obtain ⟨F, xs, hR, hF⟩ := h.rep
  have hlD : lvl+1 ≤ B.depth := hl ▸ h.bound
  have h0 : o ≠ 0 := by
    rintro rfl
    rw [(level_zero_iff 0).mpr rfl] at hl
    omega
  obtain ⟨hblev, hbne⟩ := buddy_level h.bound h0
  have hqlev : level q = lvl := by
    have := level_parent o h0
    show level ((o-1)/2) = lvl
    omega
  rw [hl] at hF hblev
  have hof : o ∈ freeNodes B s := hR.free_of_mem hlD (by simp [hF])
  have hbF : getBuddy o ∈ xs := by
    have hm := (hR.mem_free_iff.mp hb).2
    rw [hblev, hF, List.mem_append, List.mem_singleton] at hm
    exact hm.resolve_right hbne
  obtain ⟨us, vs, hxs⟩ := List.append_of_mem hbF
  have hF1 : F (lvl+1) = us++getBuddy o::(vs++[o]) := by rw [hF, hxs]; simp
  have hR1 := hR.remove hlog hlD hF1 (by simp)
  have hF2 : Function.update F (lvl+1) (us++(vs++[o])) (lvl+1) = (us++vs)++[o] := by simp
  obtain ⟨-, hR2, hs2⟩ := hR1.pop hlog hlD hF2
  have hfree2 : freeNodes B s' = (freeNodes B s \ {getBuddy o}) \ {o} := by
    rw [← freeNodes_remove (B := B)]
    exact freeNodes_pop hlog hR1.toLists hlD hF2
  -- The two buddies are the children of `q`, and `q` itself is no tile.
  have hchildren : ({2*q+1, 2*q+2} : Set ℕ) = {getBuddy o, o} ∧ 2*q+1 ∈ A ∧ 2*q+2 ∈ A := by
    have hoA := h.free_subset hof
    have hbA := h.free_subset hb
    rcases buddy_cases h.bound h0 with ⟨e1, e2⟩ | ⟨e1, e2⟩
    · show ({2*((o-1)/2)+1, 2*((o-1)/2)+2} : Set ℕ) = _ ∧ 2*((o-1)/2)+1 ∈ A ∧
        2*((o-1)/2)+2 ∈ A
      rw [← e1, ← e2, Set.pair_comm]
      exact ⟨rfl, hoA, hbA⟩
    · show ({2*((o-1)/2)+1, 2*((o-1)/2)+2} : Set ℕ) = _ ∧ 2*((o-1)/2)+1 ∈ A ∧
        2*((o-1)/2)+2 ∈ A
      rw [← e1, ← e2]
      exact ⟨rfl, hbA, hoA⟩
  obtain ⟨hpair, hlA, hrA⟩ := hchildren
  have hqA : q ∉ A := fun hm => by
    have := h.tiling.antichain q hm _ hlA (under_left q)
    omega
  have hqn : q ∉ freeNodes B s' := by
    rw [hfree2]
    exact fun hm => hqA (h.free_subset hm.1.1)
  have hR3 := hR2.push (l := lvl) (by omega) hqlev hqn
  have hfree3 : freeNodes B (pushEntry B s' lvl q) =
      insert q ((freeNodes B s \ {getBuddy o}) \ {o}) := by
    rw [← hfree2]
    exact freeNodes_push (by omega)
  refine ⟨hqlev, ?_, ⟨⟨_, F lvl, hR3, ?_⟩, by omega, h.tiling.merge hlA hrA, ?_, ?_⟩, ?_⟩
  · rw [pushEntry_start]
    show (popEntry B (removeEntry B s (getBuddy o)) (lvl+1)).2.start = s.start
    rw [hs2, removeEntry_start]
  · rw [hqlev, Function.update_self]
    simp
  · rw [hfree3, mergeAt, hpair]
    rintro x (rfl | ⟨⟨hx, hxb⟩, hxo⟩)
    · exact Or.inr rfl
    · refine Or.inl ⟨h.free_subset hx, ?_⟩
      rintro (hx | hx)
      · exact hxb hx
      · exact hxo hx
  · rw [hfree3]
    apply h.twinFree.mono
    rintro x ⟨rfl | ⟨⟨hx, -⟩, hxo⟩, hxq⟩
    · exact absurd rfl hxq
    · exact ⟨hx, hxo⟩
  · rw [owned, owned, hfree3, mergeAt, hpair]
    ext x
    simp only [Set.mem_sdiff, Set.mem_union, Set.mem_insert_iff, Set.mem_singleton_iff]
    by_cases hxq : x = q
    · simp [hxq, hqA]
    · by_cases hxb : x = getBuddy o
      · simp [hxb, hb]
      · by_cases hxo : x = o
        · simp [hxo, hof]
        · simp [hxq, hxb, hxo]

theorem mergeLoop_spec (hlog : Log2Contract B.log2ui) (lvl o : ℕ) (c : Bool)
    (h : Pending B s A P o) (hl : level o = lvl)
    (hc : o ≠ 0 → (c = true ↔ getBuddy o ∈ freeNodes B s)) :
    ∃ A', Inv B (mergeLoop B lvl o c s) A' P ∧
      owned B (mergeLoop B lvl o c s) A' = owned B s A ∧
      (mergeLoop B lvl o c s).start = s.start := by
  induction lvl generalizing o c s A with
  | zero => exact ⟨A, h.settled (Or.inl ((level_zero_iff o).mp hl)), rfl, rfl⟩
  | succ lvl ih =>
    have h0 : o ≠ 0 := by
      rintro rfl
      rw [(level_zero_iff 0).mpr rfl] at hl
      omega
    by_cases hb : getBuddy o ∈ freeNodes B s
    · obtain ⟨hq, hstart, hpend, hown⟩ := merge_step hlog h hl hb
      rw [mergeLoop, if_pos ((hc h0).mpr hb)]
      generalize ht : pushEntry B (popEntry B (removeEntry B s (getBuddy o)) (lvl+1)).2 lvl
        ((o-1)/2) = t at hstart hpend hown
      simp only [ht]
      generalize (o-1)/2 = q at hq hpend hown
      obtain ⟨F, xs, hR, hF⟩ := hpend.rep
      have hqf : q ∈ freeNodes B t := hR.free_of_mem hpend.bound (by simp [hF])
      have hcond : q ≠ 0 → ((t.state (getBuddy q) != 0 && t.state q != 0) = true ↔
          getBuddy q ∈ freeNodes B t) := by
        intro hq0
        have hbl := (buddy_level hpend.bound hq0).1.le.trans hpend.bound
        rw [Bool.and_eq_true, hR.state_ne_zero_iff hbl, hR.state_ne_zero_iff hpend.bound]
        exact ⟨fun hx => hx.1, fun hx => ⟨hx, hqf⟩⟩
      obtain ⟨A', h1, h2, h3⟩ := ih q _ hpend hq hcond
      exact ⟨A', h1, h2.trans hown, h3.trans hstart⟩
    · have hcf : c ≠ true := fun hx => hb ((hc h0).mp hx)
      rw [mergeLoop, if_neg hcf]
      exact ⟨A, h.settled (Or.inr hb), rfl, rfl⟩

/-- The byte offset of a block inside the managed region. -/
theorem getAddress_eq (hlog : Log2Contract B.log2ui) {o : ℕ} (ho : level o ≤ B.depth) :
    getAddress B s o = (s.start+firstPage B.depth o*2^12)%2^64 := by
  have hb := level_bounds o
  have hs := offset_small B ho
  have hidx : getIndex o (level o) = o+1-2^(level o) := by
    rw [getIndex]
    omega
  have hsize : B.blockSize (level o) = 2^(B.depth-level o)*2^12 := by
    rw [Build.blockSize, ← pow_add]
    congr 1
    omega
  rw [getAddress, getLevel_eq B hlog ho, hidx, hsize, firstPage, Nat.mul_assoc]

theorem firstPage_lt {o : ℕ} (ho : level o ≤ B.depth) :
    firstPage B.depth o+2^(B.depth-level o) ≤ 2^B.depth := by
  have hb := (level_bounds o).2
  rw [pow_succ] at hb
  have hidx : o+1-2^(level o)+1 ≤ 2^(level o) := by omega
  have hmul := Nat.mul_le_mul_right (2^(B.depth-level o)) hidx
  rw [← pow_add, Nat.add_sub_of_le ho, Nat.add_mul, Nat.one_mul] at hmul
  rw [firstPage]
  exact hmul

theorem region_bytes (B : Build) : 2^B.depth*2^12 ≤ 2^28 := by
  rw [← pow_add]
  exact Nat.pow_le_pow_right (by decide) (by have := B.depth_le; omega)

/-- The address of a block that does not wrap leads back to its node. -/
theorem freeOffset_eq {o ptr : ℕ} (ho : level o ≤ B.depth)
    (hptr : ptr = s.start+firstPage B.depth o*2^12) : freeOffset B s ptr (level o) = o := by
  have hb := (level_bounds o).1
  have hs := offset_small B ho
  have hsub : ptr-s.start = (o+1-2^(level o))*2^(12+B.depth-level o) := by
    rw [hptr, Nat.add_sub_cancel_left, firstPage, Nat.mul_assoc, ← pow_add]
    congr 2
    omega
  rw [freeOffset, hsub, Nat.mul_div_cancel _ (by positivity), levelStart]
  have hpos : 0 < 2^(level o) := by positivity
  omega

/-- Returning a block that is handed out: the call is refused and changes
nothing, or the block and no other is given back. -/
theorem free_spec (hlog : Log2Contract B.log2ui) (h : Inv B s A P) {o : ℕ}
    (ho : o ∈ owned B s A) (hstart : s.start < 2^64) :
    freePages B s (getAddress B s o) (level o) = (kernelInvalidInput, s) ∨
    ∃ A', (freePages B s (getAddress B s o) (level o)).1 = kernelSuccess ∧
      (freePages B s (getAddress B s o) (level o)).2.start = s.start ∧
      Inv B (freePages B s (getAddress B s o) (level o)).2 A' P ∧
      owned B (freePages B s (getAddress B s o) (level o)).2 A' = owned B s A \ {o} := by
  have hD := h.tiling.bound o ho.1
  by_cases hrej : getAddress B s o = 0 ∨ getAddress B s o < s.start ∨
      getAddress B s o%2^12 ≠ 0 ∨ level o > B.depth
  · left
    rw [freePages, if_pos hrej]
  right
  have haddr := getAddress_eq (s := s) hlog hD
  have hfp := firstPage_lt hD
  have hreg := region_bytes B
  have hnowrap : getAddress B s o = s.start+firstPage B.depth o*2^12 := by
    rw [not_or, not_or] at hrej
    have hge := hrej.2.1
    have hpos : 0 < 2^(B.depth-level o) := by positivity
    rw [haddr] at hge ⊢
    omega
  have hoff := freeOffset_eq (s := s) hD hnowrap
  obtain ⟨F, hR⟩ := h.rep
  have hR1 := hR.push hD rfl ho.2
  have hfree1 : freeNodes B (pushEntry B s (level o) o) = insert o (freeNodes B s) :=
    freeNodes_push hD
  have hpend : Pending B (pushEntry B s (level o) o) A P o := by
    refine ⟨⟨_, F (level o), hR1, by simp⟩, hD, h.tiling, ?_, ?_⟩
    · rw [hfree1]
      rintro x (rfl | hx)
      · exact ho.1
      · exact h.free_subset hx
    · rw [hfree1, Set.insert_sdiff_of_mem _ (Set.mem_singleton o)]
      exact h.twinFree.mono (fun x hx => hx.1)
  obtain ⟨A', h1, h2, h3⟩ := mergeLoop_spec hlog (level o) o
    ((pushEntry B s (level o) o).state (getBuddy o) != 0) hpend rfl (by
      intro h0
      exact hR1.state_ne_zero_iff ((buddy_level hD h0).1.le.trans hD))
  rw [freePages, if_neg hrej]
  simp only [hoff, tryMerge]
  refine ⟨A', trivial, by rw [h3, pushEntry_start], h1, ?_⟩
  rw [h2, owned, owned, hfree1]
  ext x
  by_cases hx : x = o
  · simp [hx]
  · simp [hx]

end Free

end BruhOS.BuddyOperations
