import Mathlib.Data.Nat.Log
import Mathlib.Data.Set.Card
import Mathlib.Data.Set.Finite.Basic
import Mathlib.Algebra.BigOperators.Group.Finset.Basic
import Mathlib.Order.Interval.Finset.Nat
import Mathlib.Tactic

/-!
# Aligned blocks of a complete binary tree

The nodes of a tree of depth `D` are numbered breadth first from zero, so the
children of `o` are `2*o+1` and `2*o+2`. A node stands for the aligned run of
leaves below it. A tiling is a set of nodes, none below another, whose runs
cover a given set of leaves; splitting a node and merging two siblings keep
a tiling. A tiling without a pair of siblings is determined by its leaves.
-/

set_option autoImplicit false

namespace BruhOS.BlockTree

def level (o : ℕ) : ℕ := Nat.log2 (o+1)

def nodes (D : ℕ) : ℕ := 2^(D+1)-1

def leaf (D p : ℕ) : ℕ := 2^D-1+p

/-- `b` is `a` or lies below `a`. -/
def Under (a b : ℕ) : Prop := ∃ k, (b+1)/2^k = a+1

theorem level_eq_iff (o l : ℕ) : level o = l ↔ 2^l ≤ o+1 ∧ o+1 < 2^(l+1) :=
  Nat.log2_eq_iff (by omega)

theorem level_bounds (o : ℕ) : 2^(level o) ≤ o+1 ∧ o+1 < 2^(level o+1) :=
  (level_eq_iff o _).mp rfl

theorem level_left (o : ℕ) : level (2*o+1) = level o+1 := by
  have h := level_bounds o
  rw [level_eq_iff, pow_succ, pow_succ]
  rw [pow_succ] at h
  omega

theorem level_right (o : ℕ) : level (2*o+2) = level o+1 := by
  have h := level_bounds o
  rw [level_eq_iff, pow_succ, pow_succ]
  rw [pow_succ] at h
  omega

theorem level_parent (o : ℕ) (h : o ≠ 0) : level o = level ((o-1)/2)+1 := by
  rcases Nat.even_or_odd' o with ⟨k, rfl | rfl⟩
  · have he : 2*k = 2*((2*k-1)/2)+2 := by omega
    rw [he, level_right]
    congr 2
    omega
  · rw [level_left]
    congr 2
    omega

theorem level_zero_iff (o : ℕ) : level o = 0 ↔ o = 0 := by
  rw [level_eq_iff]
  omega

theorem lt_nodes_iff (D o : ℕ) : o < nodes D ↔ level o ≤ D := by
  have hp : 0 < 2^(D+1) := by positivity
  rw [nodes, level, ← Nat.lt_succ_iff, Nat.log2_lt (by omega)]
  omega

theorem lt_inner_iff (D o : ℕ) : o < 2^D-1 ↔ level o < D := by
  have hp : 0 < 2^D := by positivity
  rw [level, Nat.log2_lt (by omega)]
  omega

theorem level_leaf (D p : ℕ) (hp : p < 2^D) : level (leaf D p) = D := by
  have h : 0 < 2^D := by positivity
  rw [level_eq_iff, leaf, pow_succ]
  omega

theorem under_refl (a : ℕ) : Under a a := ⟨0, by simp⟩

theorem under_trans {a b c : ℕ} (hab : Under a b) (hbc : Under b c) : Under a c := by
  obtain ⟨i, hi⟩ := hab
  obtain ⟨j, hj⟩ := hbc
  refine ⟨j+i, ?_⟩
  rw [pow_add, ← Nat.div_div_eq_div_mul, hj, hi]

theorem under_le {a b : ℕ} (h : Under a b) : a ≤ b := by
  obtain ⟨k, hk⟩ := h
  have := Nat.div_le_self (b+1) (2^k)
  omega

theorem under_antisymm {a b : ℕ} (hab : Under a b) (hba : Under b a) : a = b :=
  le_antisymm (under_le hab) (under_le hba)

/-- Two nodes above a common node are comparable. -/
theorem under_comparable {a b c : ℕ} (ha : Under a c) (hb : Under b c) :
    Under a b ∨ Under b a := by
  obtain ⟨i, hi⟩ := ha
  obtain ⟨j, hj⟩ := hb
  rcases le_total i j with h | h
  · right
    refine ⟨j-i, ?_⟩
    rw [← hi, Nat.div_div_eq_div_mul, ← pow_add, Nat.add_sub_of_le h, hj]
  · left
    refine ⟨i-j, ?_⟩
    rw [← hj, Nat.div_div_eq_div_mul, ← pow_add, Nat.add_sub_of_le h, hi]

theorem under_left (o : ℕ) : Under o (2*o+1) := ⟨1, by omega⟩

theorem under_right (o : ℕ) : Under o (2*o+2) := ⟨1, by omega⟩

theorem under_left_iff (a o : ℕ) : Under a (2*o+1) ↔ a = 2*o+1 ∨ Under a o := by
  constructor
  · rintro ⟨k, hk⟩
    cases k with
    | zero => left; simp at hk; omega
    | succ k =>
      right
      refine ⟨k, ?_⟩
      rw [← hk, pow_succ', ← Nat.div_div_eq_div_mul]
      congr 1
      omega
  · rintro (rfl | h)
    · exact under_refl _
    · exact under_trans h (under_left o)

theorem under_right_iff (a o : ℕ) : Under a (2*o+2) ↔ a = 2*o+2 ∨ Under a o := by
  constructor
  · rintro ⟨k, hk⟩
    cases k with
    | zero => left; simp at hk; omega
    | succ k =>
      right
      refine ⟨k, ?_⟩
      rw [← hk, pow_succ', ← Nat.div_div_eq_div_mul]
      congr 1
      omega
  · rintro (rfl | h)
    · exact under_refl _
    · exact under_trans h (under_right o)

/-- Whatever lies below a node is the node or lies below one of its children. -/
theorem under_cases {o b : ℕ} (h : Under o b) : b = o ∨ Under (2*o+1) b ∨ Under (2*o+2) b := by
  obtain ⟨k, hk⟩ := h
  cases k with
  | zero => left; simp at hk; omega
  | succ k =>
    right
    rw [pow_succ, ← Nat.div_div_eq_div_mul] at hk
    rcases Nat.even_or_odd' ((b+1)/2^k) with ⟨m, hm | hm⟩
    · exact Or.inl ⟨k, by omega⟩
    · exact Or.inr ⟨k, by omega⟩

theorem under_level {a b : ℕ} (h : Under a b) : level a ≤ level b := by
  have hle := under_le h
  rw [level, level, Nat.le_log2 (by omega)]
  have := Nat.log2_self_le (n := a+1) (by omega)
  omega

theorem under_eq_of_level {a b : ℕ} (h : Under a b) (hl : level b ≤ level a) : a = b := by
  obtain ⟨k, hk⟩ := h
  cases k with
  | zero => simp at hk; omega
  | succ k =>
    exfalso
    have h1 := (level_bounds a).1
    have h2 := (level_bounds b).2
    have h3 : 2^(level b) ≤ 2^(level a) := Nat.pow_le_pow_right (by omega) hl
    have h4 : 2 ≤ 2^(k+1) := by
      rw [pow_succ]
      have : 0 < 2^k := by positivity
      omega
    have h5 : (b+1)/2^(k+1) ≤ (b+1)/2 := Nat.div_le_div_left h4 (by omega)
    rw [pow_succ] at h2
    omega

/-- Two nodes of one level above a common node are equal. -/
theorem under_unique {a b c : ℕ} (ha : Under a c) (hb : Under b c) (hl : level a = level b) :
    a = b := by
  rcases under_comparable ha hb with h | h
  · exact under_eq_of_level h hl.ge
  · exact (under_eq_of_level h hl.le).symm

theorem under_parent {o : ℕ} (h : o ≠ 0) : Under ((o-1)/2) o := ⟨1, by omega⟩

/-- The leaves below a node. -/
def pages (D o : ℕ) : Set ℕ := {p | p < 2^D ∧ Under o (leaf D p)}

def firstPage (D o : ℕ) : ℕ := (o+1-2^(level o))*2^(D-level o)

theorem leaf_shift (D p k : ℕ) (hk : k ≤ D) : (leaf D p+1)/2^k = 2^(D-k)+p/2^k := by
  have hD : 2^D = 2^k*2^(D-k) := by rw [← pow_add, Nat.add_sub_of_le hk]
  have hpos : 0 < 2^D := by positivity
  have hleaf : leaf D p+1 = 2^k*2^(D-k)+p := by unfold leaf; omega
  rw [hleaf, Nat.mul_add_div (by positivity)]

theorem page_shift_lt (D p k : ℕ) (hk : k ≤ D) (hp : p < 2^D) : p/2^k < 2^(D-k) := by
  rw [Nat.div_lt_iff_lt_mul (by positivity), ← pow_add, Nat.sub_add_cancel hk]
  exact hp

theorem under_leaf_iff (D o p : ℕ) (ho : level o ≤ D) (hp : p < 2^D) :
    Under o (leaf D p) ↔ p/2^(D-level o) = o+1-2^(level o) := by
  have hb := (level_bounds o).1
  constructor
  · rintro ⟨k, hk⟩
    have hkD : k ≤ D := by
      by_contra hlt
      have h2 : leaf D p+1 < 2^k := by
        have hpos : 0 < 2^D := by positivity
        calc leaf D p+1 < 2^(D+1) := by rw [leaf, pow_succ]; omega
          _ ≤ 2^k := Nat.pow_le_pow_right (by omega) (by omega)
      rw [Nat.div_eq_of_lt h2] at hk
      omega
    have hval := leaf_shift D p k hkD
    have hsmall := page_shift_lt D p k hkD hp
    generalize hq : p/2^k = q at hval hsmall
    have hl : level o = D-k := by
      rw [level_eq_iff, pow_succ]
      omega
    have hkl : k = D-level o := by omega
    rw [← hkl, hl, hq]
    omega
  · intro h
    refine ⟨D-level o, ?_⟩
    have hl : D-(D-level o) = level o := by omega
    rw [leaf_shift D p _ (by omega), h, hl]
    omega

/-- The leaves below a node form the aligned run of its level. -/
theorem mem_pages_iff (D o p : ℕ) (ho : level o ≤ D) :
    p ∈ pages D o ↔ firstPage D o ≤ p ∧ p < firstPage D o+2^(D-level o) := by
  have hw : 0 < 2^(D-level o) := by positivity
  have hrun : p/2^(D-level o) = o+1-2^(level o) ↔
      firstPage D o ≤ p ∧ p < firstPage D o+2^(D-level o) := by
    rw [Nat.div_eq_iff hw, firstPage]
    omega
  constructor
  · rintro ⟨hp, hu⟩
    exact hrun.mp ((under_leaf_iff D o p ho hp).mp hu)
  · intro h
    have hp : p < 2^D := by
      have hb := (level_bounds o).2
      rw [pow_succ] at hb
      have hidx : o+1-2^(level o)+1 ≤ 2^(level o) := by omega
      have hmul := Nat.mul_le_mul_right (2^(D-level o)) hidx
      rw [← pow_add, Nat.add_sub_of_le ho, Nat.add_mul, Nat.one_mul] at hmul
      rw [firstPage] at h
      omega
    exact ⟨hp, (under_leaf_iff D o p ho hp).mpr (hrun.mpr h)⟩

theorem firstPage_mem (D o : ℕ) (ho : level o ≤ D) : firstPage D o ∈ pages D o := by
  have hw : 0 < 2^(D-level o) := by positivity
  rw [mem_pages_iff D o _ ho]
  omega

theorem pages_mono {D a b : ℕ} (h : Under a b) : pages D b ⊆ pages D a :=
  fun _ hp => ⟨hp.1, under_trans h hp.2⟩

/-- Two nodes that share a leaf are comparable. -/
theorem comparable_of_common_page {D a b p : ℕ} (ha : p ∈ pages D a) (hb : p ∈ pages D b) :
    Under a b ∨ Under b a :=
  under_comparable ha.2 hb.2

theorem pages_split (D o : ℕ) (ho : level o < D) :
    pages D o = pages D (2*o+1) ∪ pages D (2*o+2) := by
  ext p
  constructor
  · rintro ⟨hp, hu⟩
    rcases under_cases hu with h | h | h
    · have := level_leaf D p hp
      rw [h] at this
      omega
    · exact Or.inl ⟨hp, h⟩
    · exact Or.inr ⟨hp, h⟩
  · rintro (h | h)
    · exact pages_mono (under_left o) h
    · exact pages_mono (under_right o) h

/-- Pairwise incomparable nodes whose leaves are exactly `P`. -/
structure Tiling (D : ℕ) (A P : Set ℕ) : Prop where
  bound : ∀ a ∈ A, level a ≤ D
  antichain : ∀ a ∈ A, ∀ b ∈ A, Under a b → a = b
  cover : ∀ p, p ∈ P ↔ ∃ a ∈ A, p ∈ pages D a

theorem Tiling.disjoint {D : ℕ} {A P : Set ℕ} (h : Tiling D A P) {a b p : ℕ}
    (ha : a ∈ A) (hb : b ∈ A) (hpa : p ∈ pages D a) (hpb : p ∈ pages D b) : a = b := by
  rcases comparable_of_common_page hpa hpb with hu | hu
  · exact h.antichain a ha b hb hu
  · exact (h.antichain b hb a ha hu).symm

theorem Tiling.pages_subset {D : ℕ} {A P : Set ℕ} (h : Tiling D A P) {a : ℕ} (ha : a ∈ A) :
    pages D a ⊆ P :=
  fun p hp => (h.cover p).mpr ⟨a, ha, hp⟩

/-- A part of a tiling tiles the leaves it covers. -/
theorem Tiling.part {D : ℕ} {A B P : Set ℕ} (h : Tiling D A P) (hB : B ⊆ A) :
    Tiling D B {p | ∃ b ∈ B, p ∈ pages D b} where
  bound a ha := h.bound a (hB ha)
  antichain a ha b hb := h.antichain a (hB ha) b (hB hb)
  cover _ := Iff.rfl

/-- The leaves of a finite tiling, counted tile by tile. -/
theorem Tiling.ncard {D : ℕ} {S : Finset ℕ} {P : Set ℕ} (h : Tiling D (S : Set ℕ) P) :
    P.ncard = ∑ o ∈ S, 2^(D-level o) := by
  have hP : P = (S.biUnion (fun o => Finset.Ico (firstPage D o) (firstPage D o+2^(D-level o))) :
      Finset ℕ) := by
    ext p
    rw [h.cover]
    simp only [Finset.coe_biUnion, Finset.mem_coe, Set.mem_iUnion, Finset.coe_Ico, Set.mem_Ico,
      exists_prop]
    constructor
    · rintro ⟨o, ho, hp⟩
      exact ⟨o, ho, (mem_pages_iff D o p (h.bound o ho)).mp hp⟩
    · rintro ⟨o, ho, hp⟩
      exact ⟨o, ho, (mem_pages_iff D o p (h.bound o ho)).mpr hp⟩
  rw [hP, Set.ncard_coe_finset, Finset.card_biUnion]
  · apply Finset.sum_congr rfl
    intro o _
    rw [Nat.card_Ico, Nat.add_sub_cancel_left]
  · intro a ha b hb hab
    rw [Function.onFun, Finset.disjoint_left]
    intro p hpa hpb
    rw [Finset.mem_Ico] at hpa hpb
    exact hab (h.disjoint ha hb ((mem_pages_iff D a p (h.bound a ha)).mpr hpa)
      ((mem_pages_iff D b p (h.bound b hb)).mpr hpb))

def splitAt (A : Set ℕ) (o : ℕ) : Set ℕ := (A \ {o}) ∪ {2*o+1, 2*o+2}

theorem Tiling.split {D : ℕ} {A P : Set ℕ} (h : Tiling D A P) {o : ℕ} (ho : o ∈ A)
    (hl : level o < D) : Tiling D (splitAt A o) P where
  bound := by
    rintro a (⟨ha, -⟩ | rfl | rfl)
    · exact h.bound a ha
    · rw [level_left]; omega
    · rw [level_right]; omega
  antichain := by
    -- A node comparable with a child of `o` is a child itself or comparable with `o`.
    have below : ∀ a ∈ A \ {o}, ∀ c, Under o c → ¬ Under a c := by
      rintro a ⟨ha, hne⟩ c hc hu
      rcases under_comparable hu hc with hx | hx
      · exact hne (h.antichain a ha o ho hx)
      · exact hne (h.antichain o ho a ha hx).symm
    have above : ∀ a ∈ A \ {o}, ∀ c, Under o c → ¬ Under c a := by
      rintro a ⟨ha, hne⟩ c hc hu
      exact hne (h.antichain o ho a ha (under_trans hc hu)).symm
    rintro a (ha | rfl | rfl) b (hb | rfl | rfl) hu
    · exact h.antichain a ha.1 b hb.1 hu
    · exact absurd hu (below a ha _ (under_left o))
    · exact absurd hu (below a ha _ (under_right o))
    · exact absurd hu (above b hb _ (under_left o))
    · rfl
    · exact under_eq_of_level hu (by rw [level_left, level_right])
    · exact absurd hu (above b hb _ (under_right o))
    · exact under_eq_of_level hu (by rw [level_left, level_right])
    · rfl
  cover p := by
    rw [h.cover]
    constructor
    · rintro ⟨a, ha, hp⟩
      by_cases hao : a = o
      · rw [hao, pages_split D o hl] at hp
        rcases hp with hp | hp
        · exact ⟨2*o+1, Or.inr (Or.inl rfl), hp⟩
        · exact ⟨2*o+2, Or.inr (Or.inr rfl), hp⟩
      · exact ⟨a, Or.inl ⟨ha, hao⟩, hp⟩
    · rintro ⟨a, ⟨ha, -⟩ | rfl | rfl, hp⟩
      · exact ⟨a, ha, hp⟩
      · exact ⟨o, ho, pages_mono (under_left o) hp⟩
      · exact ⟨o, ho, pages_mono (under_right o) hp⟩

def mergeAt (A : Set ℕ) (o : ℕ) : Set ℕ := (A \ {2*o+1, 2*o+2}) ∪ {o}

theorem Tiling.merge {D : ℕ} {A P : Set ℕ} (h : Tiling D A P) {o : ℕ}
    (hl : 2*o+1 ∈ A) (hr : 2*o+2 ∈ A) : Tiling D (mergeAt A o) P where
  bound := by
    rintro a (⟨ha, -⟩ | rfl)
    · exact h.bound a ha
    · have := h.bound _ hl
      rw [level_left] at this
      omega
  antichain := by
    rintro a (⟨ha, hna⟩ | rfl) b (⟨hb, hnb⟩ | rfl) hu
    · exact h.antichain a ha b hb hu
    · exact absurd (Or.inl (h.antichain a ha _ hl (under_trans hu (under_left _)))) hna
    · rcases under_cases hu with hx | hx | hx
      · exact hx.symm
      · exact absurd (Or.inl (h.antichain _ hl b hb hx).symm) hnb
      · exact absurd (Or.inr (h.antichain _ hr b hb hx).symm) hnb
    · rfl
  cover p := by
    have hlt : level o < D := by
      have := h.bound _ hl
      rw [level_left] at this
      omega
    rw [h.cover]
    constructor
    · rintro ⟨a, ha, hp⟩
      by_cases hc : a = 2*o+1 ∨ a = 2*o+2
      · refine ⟨o, Or.inr rfl, ?_⟩
        rcases hc with rfl | rfl
        · exact pages_mono (under_left o) hp
        · exact pages_mono (under_right o) hp
      · exact ⟨a, Or.inl ⟨ha, hc⟩, hp⟩
    · rintro ⟨a, ⟨ha, -⟩ | rfl, hp⟩
      · exact ⟨a, ha, hp⟩
      · rw [pages_split D a hlt] at hp
        rcases hp with hp | hp
        · exact ⟨_, hl, hp⟩
        · exact ⟨_, hr, hp⟩

/-- No node has both children in the set. -/
def TwinFree (S : Set ℕ) : Prop := ∀ o, ¬ (2*o+1 ∈ S ∧ 2*o+2 ∈ S)

theorem TwinFree.mono {S T : Set ℕ} (h : TwinFree T) (hS : S ⊆ T) : TwinFree S :=
  fun o ho => h o ⟨hS ho.1, hS ho.2⟩

/-- In a twin free tiling every block of covered leaves lies in one tile. -/
theorem Tiling.block_in_tile {D : ℕ} {A P : Set ℕ} (h : Tiling D A P) (ht : TwinFree A)
    (o : ℕ) (ho : level o ≤ D) (hP : pages D o ⊆ P) : ∃ a ∈ A, Under a o := by
  -- The induction climbs from the leaves: `n` is the height of the block.
  obtain ⟨n, hn⟩ : ∃ n, D-level o = n := ⟨_, rfl⟩
  induction n generalizing o with
  | zero =>
    obtain ⟨a, ha, hp⟩ := (h.cover _).mp (hP (firstPage_mem D o ho))
    rcases comparable_of_common_page hp (firstPage_mem D o ho) with hu | hu
    · exact ⟨a, ha, hu⟩
    · have hlt := h.bound a ha
      rw [under_eq_of_level hu (by omega)]
      exact ⟨a, ha, under_refl a⟩
  | succ n ih =>
    have hlt : level o < D := by omega
    rw [pages_split D o hlt] at hP
    obtain ⟨a, ha, hau⟩ := ih (2*o+1) (by rw [level_left]; omega)
      (fun p hp => hP (Or.inl hp)) (by rw [level_left]; omega)
    obtain ⟨b, hb, hbu⟩ := ih (2*o+2) (by rw [level_right]; omega)
      (fun p hp => hP (Or.inr hp)) (by rw [level_right]; omega)
    rcases (under_left_iff a o).mp hau with rfl | hau
    · rcases (under_right_iff b o).mp hbu with rfl | hbu
      · exact absurd ⟨ha, hb⟩ (ht o)
      · exact ⟨b, hb, hbu⟩
    · exact ⟨a, ha, hau⟩

/-- A maximal aligned block among the leaves `P`. -/
def MaximalBlock (D : ℕ) (P : Set ℕ) (o : ℕ) : Prop :=
  level o ≤ D ∧ pages D o ⊆ P ∧ ∀ b, Under b o → pages D b ⊆ P → b = o

/-- A twin free tiling is the set of maximal aligned blocks of its leaves. -/
theorem Tiling.canonical {D : ℕ} {A P : Set ℕ} (h : Tiling D A P) (ht : TwinFree A) (o : ℕ) :
    o ∈ A ↔ MaximalBlock D P o := by
  constructor
  · intro ho
    refine ⟨h.bound o ho, h.pages_subset ho, ?_⟩
    intro b hb hP
    have hbD : level b ≤ D := (under_level hb).trans (h.bound o ho)
    obtain ⟨a, ha, hab⟩ := h.block_in_tile ht b hbD hP
    have hao := h.antichain a ha o ho (under_trans hab hb)
    exact under_antisymm hb (hao ▸ hab)
  · rintro ⟨hD, hP, hmax⟩
    obtain ⟨a, ha, hao⟩ := h.block_in_tile ht o hD hP
    rw [← hmax a hao (h.pages_subset ha)]
    exact ha

/-- Two twin free tilings of the same leaves are equal. -/
theorem Tiling.unique {D : ℕ} {A B P : Set ℕ} (hA : Tiling D A P) (hB : Tiling D B P)
    (ta : TwinFree A) (tb : TwinFree B) : A = B := by
  ext o
  rw [hA.canonical ta, hB.canonical tb]

end BruhOS.BlockTree
