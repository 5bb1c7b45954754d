import BruhOS.AvlRotate

/-!
# Insertion

The new node hangs at a vacant place, and the balancing of the source climbs
from it to the root. It computes the balanced tree that `grow` does, with the
fuel that the length of the path needs.
-/

set_option autoImplicit false

namespace BruhOS.AvlTree
open PointerTree BalancedTree HTree

section Place

variable {N : List ℕ} {m₀ m : Cells} {root x : ℕ} {f : Frame ℕ} {c : List (Frame ℕ)}
  {t d e : HTree ℕ} {s : Side} {b b' : Tilt}

theorem holds_cons : Holds N m₀ m root (f::c) t ↔
    Holds N m₀ m root c (bend f.side t f.item f.tilt f.sibling) := by
  rw [← holds_fill, ← holds_fill c]
  rfl

theorem among_cons : Among N (f::c) t ↔ Among N c (bend f.side t f.item f.tilt f.sibling) :=
  ⟨fun h => ⟨h.fit, h.sub, h.nodup⟩, fun h => ⟨h.fit, h.sub, h.nodup⟩⟩

theorem Holds.parent (h : Holds N m₀ m root c t) (ha : Among N c t) (ht : t ≠ .nil) :
    avlGetParent m t.ptr = some (owner 0 c) := by
  cases t with
  | nil => exact absurd rfl ht
  | node l x b r =>
    obtain ⟨-, -, -, hup, -, -⟩ := h.shape
    exact h.sees.getParent (ha.tree (ptr_mem _ ht)) hup (fit_points ha.fit ha.owner).1

theorem Holds.top (h : Holds N m₀ m root c (bend s d x b e))
    (ha : Among N c (bend s d x b e)) : avlGetBalanceFactor m x = some b.factor := by
  obtain ⟨-, -, -, hup, -, -⟩ := shape_bend.mp h.shape
  exact h.sees.getBalanceFactor (ha.tree (by simp)) hup (fit_points ha.fit ha.owner).1

theorem Holds.factor (h : Holds N m₀ m root (f::c) t) (ha : Among N (f::c) t) :
    avlGetBalanceFactor m f.item = some f.tilt.factor :=
  (holds_cons.mp h).top (among_cons.mp ha)

theorem Holds.item_ne (h : Holds N m₀ m root (f::c) t) : f.item ≠ 0 :=
  h.path.1

/-- The comparison with a child finds the side of a node. -/
theorem Holds.side (h : Holds N m₀ m root (f::c) t) (ha : Among N (f::c) t) (ht : t ≠ .nil)
    (s : Side) : ∃ q, avlGetChild m f.item s.sign = some q ∧ (t.ptr = q ↔ f.side = s) := by
  obtain ⟨-, hplace, hsib, -, -, -⟩ := h.path
  have hchild := h.sees.getChild (ha.path (by simp [nodes] : f.item ∈ nodes (f::c))) s
  by_cases hs : f.side = s
  · rw [hs] at hplace
    exact ⟨_, hchild.trans hplace, by simp [hs]⟩
  · have hother : f.side.other = s := by
      cases hf : f.side <;> cases s <;> simp [hf, Side.other] at hs ⊢
    rw [hother] at hsib
    refine ⟨_, hchild.trans hsib, ?_⟩
    have hne : t.ptr ≠ f.sibling.ptr := by
      intro he
      by_cases hnil : f.sibling = .nil
      · rw [hnil] at he
        exact ht ((ptr_eq_zero h.shape).mp he)
      · have hmem : f.sibling.ptr ∈ nodes (f::c) := by simp [nodes, ptr_mem f.sibling hnil]
        exact (nodup_fill.mp ha.nodup).2.2 (ptr_mem t ht) (he ▸ hmem)
    simp [hne, hs]

theorem Holds.sign (h : Holds N m₀ m root (f::c) t) (ha : Among N (f::c) t) (ht : t ≠ .nil) :
    ∃ l, left m f.item = some l ∧ (if t.ptr = l then -1 else 1) = f.side.sign ∧
      (t.ptr == l) = decide (f.side = .left) := by
  obtain ⟨l, hchild, hiff⟩ := h.side ha ht .left
  have hl : left m f.item = some l := hchild
  refine ⟨l, hl, ?_, ?_⟩
  · cases hside : f.side with
    | left => rw [if_pos (hiff.mpr hside), Side.sign]
    | right => rw [if_neg (fun he => by rw [hiff.mp he] at hside; cases hside), Side.sign]
  · rw [Bool.eq_iff_iff, beq_iff_eq, decide_eq_true_iff]
    exact hiff

/-- An adjusted balance factor is a tilt again. -/
theorem adjust_spec (b' : Tilt) (amount : ℤ) (h : Holds N m₀ m root c (bend s d x b e))
    (ha : Among N c (bend s d x b e)) (hb : b.factor+amount = b'.factor) :
    ∃ m', avlAdjustBalanceFactor m x amount = some m' ∧
      Holds N m₀ m' root c (bend s d x b' e) := by
  have hxN : x ∈ N := ha.tree (by simp)
  have ha' : Among N c (bend s d x b' e) := ha.reorder (bend_inorder_congr rfl rfl b')
  obtain ⟨hnT, hnc, hTc⟩ := nodup_fill.mp ha.nodup
  simp only [nodup_bend] at hnT
  obtain ⟨hxd, hxe, -⟩ := hnT
  have hpath := h.path
  rw [ptr_bend] at hpath
  obtain ⟨hx0, hxs, hxo, hxu, hd, he⟩ := shape_bend.mp h.shape
  have hP := fit_points ha.fit ha.owner
  have hb' := b'.bits_le
  refine ⟨_, h.sees.adjust hxN hxu hP.2 hb,
    (h.sees.put ha.fit hxN .up (by omega)).holds ha' ?_ ?_⟩
  · rw [ptr_bend]
    exact (path_set (fun hv => hTc (by simp) hv)).mpr hpath
  · rw [shape_bend]
    refine ⟨hx0, ?_, ?_, set_self, (shape_set hxd).mpr hd, (shape_set hxe).mpr he⟩
    · rw [set_of_field_ne (by simp), hxs]
    · rw [set_of_field_ne (by simp), hxo]

/-- The same for a node whose place on a side of its parent is looked at. -/
theorem adjust_below (b' : Tilt) (amount : ℤ) {y : ℕ} {a : Tilt} {g : HTree ℕ}
    (h : Holds N m₀ m root c (bend s d y a (bend s e x b g)))
    (ha : Among N c (bend s d y a (bend s e x b g))) (hb : b.factor+amount = b'.factor) :
    ∃ m', avlAdjustBalanceFactor m x amount = some m' ∧
      Holds N m₀ m' root c (bend s d y a (bend s e x b' g)) := by
  rw [← bend_other] at h ha ⊢
  obtain ⟨m', hadj, h'⟩ := adjust_spec b' amount
    (holds_cons (f := ⟨s.other, y, a, d⟩).mpr h) (among_cons (f := ⟨s.other, y, a, d⟩).mpr ha) hb
  exact ⟨m', hadj, holds_cons (f := ⟨s.other, y, a, d⟩).mp h'⟩

/-- The double rotation is two single ones, apart from the balance factors. -/
theorem double_rotation_is_two {x y z : ℕ} {a k : Tilt} {g w : HTree ℕ}
    (h : Holds N m₀ m root c (bend s (bend s d y b (bend s e z k g)) x a w))
    (ha : Among N c (bend s (bend s d y b (bend s e z k g)) x a w)) :
    ∃ m₁ r₁ m₂ r₂ m₃, avlRotate m root y s.sign = some (m₁, r₁) ∧
      avlRotate m₁ r₁ x (-s.sign) = some (m₂, r₂) ∧
      avlDoDoubleRotate m root y x (-s.sign) = some (m₃, r₂, z) ∧
      ∀ v ∈ (fill c (bend s (bend s d y b (bend s e z k g)) x a w)).inorder,
        left m₃ v = left m₂ v ∧ right m₃ v = right m₂ v ∧
          avlGetParent m₃ v = avlGetParent m₂ v := by
  have hinner : bend s d y b (bend s e z k g) =
      bend s.other (bend s.other g z k e) y b d := by
    rw [bend_other, bend_other]
  obtain ⟨m₃, r₃, e₃, h₃⟩ := avlDoDoubleRotate_spec h ha
  have hstart := h
  have hamong := ha
  rw [hinner] at hstart hamong
  obtain ⟨m₁, r₁, e₁, h₁⟩ := avlRotate_spec (holds_cons (f := ⟨s, x, a, w⟩).mpr hstart)
    (among_cons (f := ⟨s, x, a, w⟩).mpr hamong)
  rw [← Side.neg_sign, neg_neg] at e₁
  have h₁' := holds_cons.mp h₁
  rw [bend_other, bend_other] at h₁'
  have horder : (bend s (bend s (bend s d y b e) z k g) x a w).inorder =
      (bend s (bend s d y b (bend s e z k g)) x a w).inorder :=
    bend_inorder_congr (bend_assoc _ _ _).symm rfl _
  obtain ⟨m₂, r₂, e₂, h₂⟩ := avlRotate_spec h₁' (ha.reorder horder)
  have herase : erase (bend s (bend s d y (s.nearTilt k) e) z .level
      (bend s g x (s.farTilt k) w)) = erase (bend s (bend s d y b e) z k (bend s g x a w)) := by
    cases s <;> rfl
  have hfull₂ := (holds_fill c _).mpr h₂
  have hfull₃ := (holds_fill c _).mpr h₃
  have hroot : r₃ = r₂ := by
    have hp₂ : r₂ = _ := hfull₂.path
    have hp₃ : r₃ = _ := hfull₃.path
    rw [hp₂, hp₃, ptr_erase (erase_fill_congr c herase)]
  refine ⟨m₁, r₁, m₂, r₂, m₃, e₁, e₂, hroot ▸ e₃, ?_⟩
  intro v hv
  have hv₃ : v ∈ (fill c (bend s (bend s d y (s.nearTilt k) e) z .level
      (bend s g x (s.farTilt k) w))).inorder := by
    rw [← inorder_erase, erase_fill_congr c herase, inorder_erase]
    rw [fill_inorder_congr c ((bend_assoc _ _ _).trans horder)]
    exact hv
  have hal : ∀ u ∈ (fill c (bend s (bend s d y (s.nearTilt k) e) z .level
      (bend s g x (s.farTilt k) w))).inorder, u % 8 = 0 := by
    intro u hu
    apply ha.fit.aligned
    rw [← inorder_erase, erase_fill_congr c herase, inorder_erase] at hu
    rw [fill_inorder_congr c ((bend_assoc _ _ _).trans horder)] at hu
    exact ha.sub u hu
  obtain ⟨hl, hr, p, i, j, hp, hu₃, hu₂⟩ := shape_words _ _ 0 (erase_fill_congr c herase)
    hfull₃.shape hfull₂.shape rfl hal v hv₃
  have hvN := ha.sub v hv
  refine ⟨hl, hr, ?_⟩
  rw [h₃.sees.getParent hvN hu₃ hp, h₂.sees.getParent hvN hu₂ hp]

/-- A left child with a right child, in memory. -/
def zigzag : Cells := fun a =>
  if a = 64 then some 128 else if a = 132 then some 0 else if a = 136 then some 192
  else if a = 144 then some 66 else if a = 208 then some 129
  else if 64 ≤ a ∧ a < 216 then some 0 else none

theorem double_rotation_is_two_zigzag : ∃ m₁ r₁ m₂ r₂ m₃,
    avlRotate zigzag 64 128 (-1) = some (m₁, r₁) ∧ avlRotate m₁ r₁ 64 1 = some (m₂, r₂) ∧
      avlDoDoubleRotate zigzag 64 128 64 1 = some (m₃, r₂, 192) ∧
      ∀ v ∈ [128, 192, 64], left m₃ v = left m₂ v ∧ right m₃ v = right m₂ v ∧
        avlGetParent m₃ v = avlGetParent m₂ v := by
  have hholds : Holds [64, 128, 192] zigzag zigzag 64 []
      (.node (.node .nil 128 .right (.node .nil 192 .level .nil)) 64 .left .nil) :=
    ⟨fun _ _ => rfl, rfl, by decide, rfl, rfl, rfl, ⟨by decide, rfl, rfl, rfl, trivial,
      ⟨by decide, rfl, rfl, rfl, trivial, trivial⟩⟩, trivial⟩
  have hamong : Among [64, 128, 192] []
      (.node (.node .nil 128 .right (.node .nil 192 .level .nil)) 64 .left .nil) := by
    refine ⟨⟨by decide, by decide, by simp⟩, ?_, ?_⟩
    · simp [fill, inorder]
    · simp [fill, inorder]
  exact double_rotation_is_two (s := .left) (d := .nil) (e := .nil) (g := .nil) (w := .nil)
    hholds hamong

end Place

section Growth

variable {N : List ℕ} {m₀ m : Cells} {root : ℕ} {f : Frame ℕ} {c : List (Frame ℕ)} {t : HTree ℕ}

theorem sign_ne (s : Side) : s.sign ≠ 0 := by
  cases s <;> decide

theorem other_factor (s : Side) : s.other.tilt.factor+s.sign = 0 := by
  cases s <;> rfl

theorem growth_level (h : Holds N m₀ m root (f::c) t) (ha : Among N (f::c) t)
    (hb : f.tilt = .level) :
    ∃ m', avlHandleSubtreeGrowth m root t.ptr f.item f.side.sign = some (m', root, false) ∧
      Holds N m₀ m' root c (bend f.side t f.item f.side.tilt f.sibling) := by
  obtain ⟨m', hadj, h'⟩ := adjust_spec f.side.tilt f.side.sign
    (holds_cons.mp h) (among_cons.mp ha) (by simp [hb])
  refine ⟨m', ?_, h'⟩
  simp only [avlHandleSubtreeGrowth, h.factor ha, hb, hadj, Tilt.factor_level, if_true,
    Option.bind_eq_bind, Option.bind_some, Option.pure_def]

theorem growth_even (h : Holds N m₀ m root (f::c) t) (ha : Among N (f::c) t)
    (hb : f.tilt = f.side.other.tilt) :
    ∃ m', avlHandleSubtreeGrowth m root t.ptr f.item f.side.sign = some (m', root, true) ∧
      Holds N m₀ m' root c (bend f.side t f.item .level f.sibling) := by
  obtain ⟨m', hadj, h'⟩ := adjust_spec .level f.side.sign
    (holds_cons.mp h) (among_cons.mp ha) (by rw [hb, other_factor]; rfl)
  refine ⟨m', ?_, h'⟩
  have hne : f.side.other.tilt.factor ≠ 0 := by
    rw [Side.factor_tilt]
    exact sign_ne _
  simp only [avlHandleSubtreeGrowth, h.factor ha, hb, hadj, hne, other_factor, if_true, if_false,
    Option.bind_eq_bind, Option.bind_some, Option.pure_def]

/-- The growth that needs a rotation, of a subtree that is itself taller on one side. -/
theorem growth_rotate (h : Holds N m₀ m root (f::c) t) (ha : Among N (f::c) t)
    (hb : f.tilt = f.side.tilt) (ht : t.IsAvl) (hl : t.tilt ≠ .level) :
    ∃ m' root', avlHandleSubtreeGrowth m root t.ptr f.item f.side.sign =
        some (m', root', true) ∧
      Holds N m₀ m' root' c (rotate f.side t f.item f.sibling) := by
  obtain ⟨s, x, a, g⟩ := f
  have hnode := holds_cons.mp h
  have hamong := among_cons.mp ha
  have hfactor := h.factor ha
  simp only at hb
  simp only [hb] at hnode hamong hfactor
  have hne : s.tilt.factor ≠ 0 := by
    rw [Side.factor_tilt]
    exact sign_ne _
  have hsum : s.tilt.factor+s.sign ≠ 0 := by
    cases s <;> decide
  rcases bend_cases s t with rfl | ⟨d, y, k, e, rfl⟩
  · exact absurd rfl hl
  have hy := (holds_cons (f := ⟨s, x, s.tilt, g⟩).mpr hnode)
  obtain ⟨hy0, -, -, hyu, -, -⟩ := shape_bend.mp hy.shape
  have hx8 := fit_points ha.fit (Or.inr (hamong.tree (by simp : x ∈ _)))
  have hyN : y ∈ N := hamong.tree (by simp)
  have hfy := hy.sees.getBalanceFactor hyN hyu hx8.1
  rcases s.tilt_cases k with rfl | rfl | rfl
  · exact absurd tilt_bend hl
  · obtain ⟨m1, root1, e1, h1⟩ := avlRotate_spec hnode hamong
    have ha1 : Among N c (bend s d y s.tilt (bend s e x s.tilt g)) :=
      hamong.reorder (bend_assoc _ _ _)
    obtain ⟨m2, e2, h2⟩ := adjust_below .level (-s.sign) h1 ha1 (by simp)
    have ha2 : Among N c (bend s d y s.tilt (bend s e x .level g)) :=
      hamong.reorder (bend_assoc _ _ _)
    obtain ⟨m3, e3, h3⟩ := adjust_spec .level (-s.sign) h2 ha2 (by simp)
    refine ⟨m3, root1, ?_, rotate_single ▸ h3⟩
    have hpos : 0 < s.sign*s.tilt.factor := by
      rw [Side.sign_factor, Side.excess_tilt]
      decide
    simp only [avlHandleSubtreeGrowth, hfactor, hne, hsum, ptr_bend, hfy, hpos, e1, e2, e3,
      if_true, if_false, Option.bind_eq_bind, Option.bind_some, Option.pure_def]
  · rcases bend_cases s e with rfl | ⟨p, z, i, q, rfl⟩
    · rw [balanced_bend, Side.excess_other] at ht
      simp only [height] at ht
      omega
    · obtain ⟨m1, root1, e1, h1⟩ := avlDoDoubleRotate_spec hnode hamong
      refine ⟨m1, root1, ?_, rotate_double ▸ h1⟩
      have hneg : ¬ 0 < s.sign*s.other.tilt.factor := by
        rw [Side.sign_factor, Side.excess_other]
        decide
      simp only [avlHandleSubtreeGrowth, hfactor, hne, hsum, ptr_bend, hfy, hneg, e1,
        if_false, Option.bind_eq_bind, Option.bind_some, Option.pure_def]

/-- The loop climbs the path as `grow` does. -/
theorem growthLoop_spec (c : List (Frame ℕ)) (fuel : ℕ) (m : Cells) (root : ℕ) (t : HTree ℕ)
    (h : Holds N m₀ m root c t) (ha : Among N c t) {k : ℕ} (hc : Fits c k) (ht : t.IsAvl)
    (hk : t.height = k+1) (hl : t.tilt ≠ .level) (hfuel : c.length < fuel) :
    ∃ m' root', growthLoop fuel m root t.ptr = some (m', root') ∧
      Holds N m₀ m' root' [] (grow c t) := by
  induction c generalizing fuel m root t k with
  | nil =>
    obtain ⟨fuel, rfl⟩ : ∃ n, fuel = n+1 := ⟨fuel-1, by omega⟩
    have hnil : t ≠ .nil := fun he => hl (by rw [he]; rfl)
    refine ⟨m, root, ?_, h⟩
    simp [growthLoop, h.parent ha hnil, owner]
  | cons f c ih =>
    obtain ⟨fuel, rfl⟩ : ∃ n, fuel = n+1 := ⟨fuel-1, by omega⟩
    have hnil : t ≠ .nil := fun he => hl (by rw [he]; rfl)
    obtain ⟨l, hleft, hsign, -⟩ := h.sign ha hnil
    have hparent := h.parent ha hnil
    rw [owner] at hparent
    have hstep : growthLoop (fuel+1) m root t.ptr =
        (avlHandleSubtreeGrowth m root t.ptr f.item f.side.sign).bind (fun r =>
          if r.2.2 then some (r.1, r.2.1) else growthLoop fuel r.1 r.2.1 f.item) := by
      simp only [growthLoop, hparent, hleft, hsign, h.item_ne, if_false, Option.bind_eq_bind,
        Option.bind_some, Option.pure_def]
    obtain ⟨hf, hsib, hc⟩ := hc
    rw [hstep, grow]
    rcases f.side.tilt_cases f.tilt with hb | hb | hb
    · obtain ⟨m1, e1, h1⟩ := growth_level h ha hb
      rw [hb, Side.excess_level] at hf
      rw [show max k f.sibling.height+1 = k+1 by omega] at hc
      have hbal : (bend f.side t f.item f.side.tilt f.sibling).IsAvl := by
        rw [balanced_bend, Side.excess_tilt]
        exact ⟨by omega, ht, hsib⟩
      have hheight : (bend f.side t f.item f.side.tilt f.sibling).height = k+1+1 := by
        rw [height_bend]
        omega
      obtain ⟨m2, root2, e2, h2⟩ := ih fuel m1 root _ h1
        ((among_cons.mp ha).reorder (bend_inorder_congr rfl rfl _))
        hc hbal hheight (by rw [tilt_bend]; exact Side.tilt_ne_level _) (by simpa using hfuel)
      rw [ptr_bend] at e2
      refine ⟨m2, root2, ?_, ?_⟩
      · rw [e1]
        simpa using e2
      · rw [if_pos hb]
        exact h2
    · obtain ⟨m1, root1, e1, h1⟩ := growth_rotate h ha hb ht hl
      refine ⟨m1, root1, by rw [e1]; rfl, ?_⟩
      rw [if_neg (by rw [hb]; exact Side.tilt_ne_level _), if_pos hb]
      exact (holds_fill c _).mpr h1
    · obtain ⟨m1, e1, h1⟩ := growth_even h ha hb
      refine ⟨m1, root, by rw [e1]; rfl, ?_⟩
      rw [if_neg (by rw [hb]; exact Side.tilt_ne_level _),
        if_neg (by rw [hb]; exact Side.other_tilt_ne _)]
      exact (holds_fill c _).mpr h1

end Growth

section Linking

variable {N : List ℕ} {m₀ m : Cells} {root y : ℕ} {p : List (Frame ℕ)} {t : HTree ℕ} {pl : Place}

/-- The pointer variable at the end of a path from the variable `pl`. -/
def placeOf (pl : Place) : List (Frame ℕ) → Place
  | [] => pl
  | f::_ =>
    match f.side with
    | .left => .left f.item
    | .right => .right f.item

/-- A search that finds a vacant place has gone down a path to it. -/
theorem find_path {cmp : ℕ → ℤ} (t : HTree ℕ) (pl₀ : Place) (h : (erase t).find cmp pl₀ = .inr pl) :
    ∃ p, t = fill p .nil ∧ pl = placeOf pl₀ p ∧
      ∀ y b, erase (fill p (.node .nil y b .nil)) = (erase t).insert cmp y := by
  induction t generalizing pl₀ with
  | nil =>
    simp only [erase, NodeTree.find, Sum.inr.injEq] at h
    exact ⟨[], rfl, h.symm, fun y b => rfl⟩
  | node l x b r ihl ihr =>
    simp only [erase, NodeTree.find] at h
    split_ifs at h with h1 h2
    · obtain ⟨p, hp, hpl, hins⟩ := ihl _ h
      refine ⟨p++[⟨.left, x, b, r⟩], ?_, ?_, ?_⟩
      · rw [fill_append, ← hp]
        rfl
      · rw [hpl]
        cases p <;> rfl
      · intro y b'
        rw [fill_append, erase, NodeTree.insert, if_pos h1, ← hins y b']
        rfl
    · obtain ⟨p, hp, hpl, hins⟩ := ihr _ h
      refine ⟨p++[⟨.right, x, b, l⟩], ?_, ?_, ?_⟩
      · rw [fill_append, ← hp]
        rfl
      · rw [hpl]
        cases p <;> rfl
      · intro y b'
        rw [fill_append, erase, NodeTree.insert, if_neg h1, if_pos h2, ← hins y b']
        rfl

/-- The new node is in its place, without children. -/
theorem leaf_holds (h : Holds N m₀ m root p .nil) (ha : Among N p (.node .nil y .level .nil))
    (hy : y ≠ 0) : Holds N m₀ (leaf m root (placeOf .root p) y) (topOf root p y) p
      (.node .nil y .level .nil) := by
  have hN := ha.fit
  have hyN : y ∈ N := ha.tree (by simp [inorder])
  obtain ⟨-, hnp, hyp⟩ := nodup_fill.mp ha.nodup
  have hynp : y ∉ nodes p := fun hv => hyp (by simp [inorder]) hv
  have hP := fit_points hN ha.owner
  have hy8 := fit_points hN (Or.inr hyN)
  have hlink : Sees N m₀ (link m root (placeOf .root p) y).1
      (set (redirect (wordsOf m) p y) y .up (owner 0 p+1)) := by
    cases p with
    | nil => exact h.sees.put hN hyN .up (by decide)
    | cons f c =>
      have hfN : f.item ∈ N := ha.path (by simp [nodes])
      have hput := (h.sees.put hN hfN f.side.field (v := y) (by omega)).put hN hyN .up
        (v := f.item+1) (by rw [owner] at hP; omega)
      have hor : f.item ||| 1 = f.item+1 := or_one hP.1
      cases hside : f.side with
      | left =>
        rw [placeOf, hside, link, hor]
        rw [hside] at hput
        simp only [redirect, hside]
        exact hput
      | right =>
        rw [placeOf, hside, link, hor]
        rw [hside] at hput
        simp only [redirect, hside]
        exact hput
  have hleaf := (hlink.put hN hyN .left (v := 0) (by decide)).put hN hyN .right (v := 0)
    (by decide)
  have hpath := path_redirect y h.path hnp
  refine Sees.holds (W := _) hleaf ha ?_ ?_
  · exact (path_set hynp).mpr ((path_set hynp).mpr ((path_set hynp).mpr hpath))
  · refine ⟨hy, ?_, ?_, ?_, trivial, trivial⟩
    · rw [set_of_field_ne (by simp), set_self]
      rfl
    · rw [set_self]
      rfl
    · rw [set_of_field_ne (by simp), set_of_field_ne (by simp), set_self]
      rfl

theorem link_root_eq (p : List (Frame ℕ)) :
    (link m root (placeOf .root p) y).2 = topOf root p y := by
  cases p with
  | nil => rfl
  | cons f c =>
    obtain ⟨side, item, tilt, sibling⟩ := f
    cases side <;> rfl

/-- The balancing after an insertion computes the grown tree. -/
theorem rebalance_spec {fuel : ℕ} (h : Holds N m₀ m root p .nil)
    (ha : Among N p (.node .nil y .level .nil)) (hy : y ≠ 0) (hp : Fits p 0)
    (hfuel : p.length ≤ fuel) :
    ∃ m' root', avlTreeRebalanceAfterInsert fuel (link m root (placeOf .root p) y).1
        (link m root (placeOf .root p) y).2 y = some (m', root') ∧
      Holds N m₀ m' root' [] (grow p (.node .nil y .level .nil)) := by
  have hleaf := leaf_holds h ha hy
  have hparent := hleaf.parent ha (by simp)
  rw [leaf, HTree.ptr] at hparent
  rw [link_root_eq]
  cases p with
  | nil =>
    refine ⟨_, _, ?_, hleaf⟩
    simp [avlTreeRebalanceAfterInsert, hparent, owner, leaf]
  | cons f c =>
    obtain ⟨l, hleft, hsign, -⟩ := hleaf.sign ha (by simp)
    rw [leaf] at hleft
    rw [HTree.ptr] at hsign
    have hstep : avlTreeRebalanceAfterInsert fuel (link m root (placeOf .root (f::c)) y).1
        (topOf root (f::c) y) y =
        (avlAdjustBalanceFactor (leaf m root (placeOf .root (f::c)) y) f.item f.side.sign).bind
          (fun m' => (avlGetBalanceFactor m' f.item).bind (fun factor =>
            if factor = 0 then some (m', topOf root (f::c) y)
            else growthLoop fuel m' (topOf root (f::c) y) f.item)) := by
      simp only [avlTreeRebalanceAfterInsert, hparent, hleft, hsign, owner, hleaf.item_ne,
        if_false, Option.bind_eq_bind, Option.bind_some, Option.pure_def, leaf]
    obtain ⟨hf, hsib, hc⟩ := hp
    rw [hstep, grow]
    rcases f.side.tilt_cases f.tilt with hb | hb | hb
    · obtain ⟨m1, e1, h1⟩ := adjust_spec f.side.tilt f.side.sign
        (holds_cons.mp hleaf) (among_cons.mp ha) (by simp [hb])
      rw [hb, Side.excess_level] at hf
      rw [show max 0 f.sibling.height+1 = 1 by omega] at hc
      have hfactor := h1.top ((among_cons.mp ha).reorder (bend_inorder_congr rfl rfl _))
      have hne : f.side.tilt.factor ≠ 0 := by
        rw [Side.factor_tilt]
        exact sign_ne _
      have hbal : (bend f.side (.node .nil y .level .nil) f.item f.side.tilt
          f.sibling).IsAvl := by
        rw [balanced_bend, Side.excess_tilt]
        exact ⟨by simp only [height]; omega, by simp [IsAvl, height], hsib⟩
      obtain ⟨m2, root2, e2, h2⟩ := growthLoop_spec c fuel m1 _ _ h1
        ((among_cons.mp ha).reorder (bend_inorder_congr rfl rfl _)) hc hbal
        (by simp only [height_bend, height]; omega)
        (by rw [tilt_bend]; exact Side.tilt_ne_level _)
        (by simp only [List.length_cons] at hfuel; omega)
      rw [ptr_bend] at e2
      refine ⟨m2, root2, ?_, ?_⟩
      · rw [e1, Option.bind_some, hfactor, Option.bind_some, if_neg hne, e2]
      · rw [if_pos hb]
        exact h2
    · rw [hb, Side.excess_tilt] at hf
      omega
    · obtain ⟨m1, e1, h1⟩ := adjust_spec .level f.side.sign
        (holds_cons.mp hleaf) (among_cons.mp ha) (by rw [hb, other_factor]; rfl)
      have hfactor := h1.top ((among_cons.mp ha).reorder (bend_inorder_congr rfl rfl _))
      refine ⟨m1, topOf root (f::c) y, ?_, ?_⟩
      · rw [e1, Option.bind_some, hfactor, Option.bind_some, if_pos Tilt.factor_level]
      · rw [if_neg (by rw [hb]; exact Side.tilt_ne_level _),
          if_neg (by rw [hb]; exact Side.other_tilt_ne _)]
        exact (holds_fill c _).mpr h1

end Linking

end BruhOS.AvlTree
