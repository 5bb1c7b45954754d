import BruhOS.AvlInsert

/-!
# Removal

A node with two children changes places with its successor first, so that what
is unlinked has at most one child. The loop of the source then climbs from the
place that became lower and computes what `shrink` does.
-/

set_option autoImplicit false

namespace BruhOS.AvlTree
open PointerTree BalancedTree HTree

section Shrink

variable {N : List ℕ} {m₀ m : Cells} {root : ℕ} {f : Frame ℕ} {c : List (Frame ℕ)} {t : HTree ℕ}
  {ld : Bool}

theorem shrink_level (ld : Bool) (h : Holds N m₀ m root (f::c) t) (ha : Among N (f::c) t)
    (hb : f.tilt = .level) :
    ∃ m', avlHandleSubtreeShrink m root f.item (-f.side.sign) ld = some (m', root, 0, ld) ∧
      Holds N m₀ m' root c (bend f.side t f.item f.side.other.tilt f.sibling) := by
  obtain ⟨m', hadj, h'⟩ := adjust_spec f.side.other.tilt (-f.side.sign)
    (holds_cons.mp h) (among_cons.mp ha) (by simp [hb, Side.neg_sign])
  refine ⟨m', ?_, h'⟩
  simp only [avlHandleSubtreeShrink, h.factor ha, hb, hadj, Tilt.factor_level, if_true,
    Option.bind_eq_bind, Option.bind_some, Option.pure_def]

theorem shrink_lower (ld : Bool) (h : Holds N m₀ m root (f::c) t) (ha : Among N (f::c) t)
    (hb : f.tilt = f.side.tilt) :
    ∃ m', avlHandleSubtreeShrink m root f.item (-f.side.sign) ld =
        shrunkParent m' root f.item ld ∧
      Holds N m₀ m' root c (bend f.side t f.item .level f.sibling) := by
  obtain ⟨m', hadj, h'⟩ := adjust_spec .level (-f.side.sign)
    (holds_cons.mp h) (among_cons.mp ha) (by simp [hb])
  refine ⟨m', ?_, h'⟩
  have hne : f.side.tilt.factor ≠ 0 := by
    rw [Side.factor_tilt]
    exact sign_ne _
  have hsum : f.side.tilt.factor+-f.side.sign = 0 := by simp
  simp only [avlHandleSubtreeShrink, h.factor ha, hb, hadj, hne, hsum, if_true, if_false,
    Option.bind_eq_bind, Option.bind_some]

/-- The other subtree is too tall by two: the whole stays as tall when that subtree is level. -/
theorem shrink_rotate (ld : Bool) (h : Holds N m₀ m root (f::c) t) (ha : Among N (f::c) t)
    (hb : f.tilt = f.side.other.tilt) (hs : f.sibling.IsAvl) (hnil : f.sibling ≠ .nil) :
    ∃ m' root', avlHandleSubtreeShrink m root f.item (-f.side.sign) ld =
        (if f.sibling.tilt = .level then some (m', root', 0, ld)
          else shrunkParent m' root' (rotate f.side.other f.sibling f.item t).ptr ld) ∧
      Holds N m₀ m' root' c (rotate f.side.other f.sibling f.item t) := by
  obtain ⟨s', x, a, g⟩ := f
  obtain ⟨s, rfl⟩ : ∃ s : Side, s' = s.other := ⟨s'.other, (Side.other_other _).symm⟩
  have hnode := holds_cons.mp h
  have hamong := among_cons.mp ha
  have hfactor := h.factor ha
  simp only [Side.other_other] at hb hs hnil ⊢
  simp only [hb, bend_other] at hnode hamong hfactor
  have hsign : -s.other.sign = s.sign := by rw [Side.neg_sign, Side.other_other]
  have hne : s.tilt.factor ≠ 0 := by
    rw [Side.factor_tilt]
    exact sign_ne _
  have hsum : s.tilt.factor+s.sign ≠ 0 := by
    cases s <;> decide
  rcases bend_cases s g with rfl | ⟨d, y, k, e, rfl⟩
  · exact absurd rfl hnil
  obtain ⟨-, hxs, -, -, hg, -⟩ := shape_bend.mp hnode.shape
  obtain ⟨-, -, -, hyu, -, -⟩ := shape_bend.mp hg
  have hxN : x ∈ N := hamong.tree (by simp)
  have hyN : y ∈ N := hamong.tree (by simp)
  have hx8 := fit_points ha.fit (Or.inr hxN)
  rw [ptr_bend] at hxs
  have hchild : avlGetChild m x s.sign = some y := by rw [h.sees.getChild hxN, hxs]
  have hfy := h.sees.getBalanceFactor hyN hyu hx8.1
  have hstep : avlHandleSubtreeShrink m root x (-s.other.sign) ld =
      if 0 ≤ s.sign*k.factor then
        (avlRotate m root x (-s.sign)).bind (fun r =>
          (avlGetBalanceFactor r.1 y).bind (fun factor =>
            if factor = 0 then
              (avlAdjustBalanceFactor r.1 y (-s.sign)).bind (fun m => some (m, r.2, 0, ld))
            else (avlAdjustBalanceFactor r.1 x (-s.sign)).bind (fun m =>
              (avlAdjustBalanceFactor m y (-s.sign)).bind (fun m =>
                shrunkParent m r.2 y ld))))
      else (avlDoDoubleRotate m root y x (-s.sign)).bind (fun r =>
        shrunkParent r.1 r.2.1 r.2.2 ld) := by
    rw [hsign]
    simp only [avlHandleSubtreeShrink, hfactor, hne, hsum, hchild, hfy, if_false,
      Option.bind_eq_bind, Option.bind_some, Option.pure_def]
  rw [hstep]
  rcases s.tilt_cases k with rfl | rfl | rfl
  · obtain ⟨m1, root1, e1, h1⟩ := avlRotate_spec hnode hamong
    have ha1 : Among N c (bend s d y .level (bend s e x s.tilt t)) :=
      hamong.reorder (bend_assoc _ _ _)
    obtain ⟨m2, e2, h2⟩ := adjust_spec s.other.tilt (-s.sign) h1 ha1
      (by simp [Side.neg_sign])
    refine ⟨m2, root1, ?_, rotate_level ▸ h2⟩
    rw [if_pos (by simp), if_pos tilt_bend, e1, Option.bind_some, h1.top ha1, Option.bind_some,
      if_pos Tilt.factor_level, e2, Option.bind_some]
  · obtain ⟨m1, root1, e1, h1⟩ := avlRotate_spec hnode hamong
    have ha1 : Among N c (bend s d y s.tilt (bend s e x s.tilt t)) :=
      hamong.reorder (bend_assoc _ _ _)
    obtain ⟨m2, e2, h2⟩ := adjust_below .level (-s.sign) h1 ha1 (by simp)
    have ha2 : Among N c (bend s d y s.tilt (bend s e x .level t)) :=
      hamong.reorder (bend_assoc _ _ _)
    obtain ⟨m3, e3, h3⟩ := adjust_spec .level (-s.sign) h2 ha2 (by simp)
    refine ⟨m3, root1, ?_, rotate_single ▸ h3⟩
    have hpos : 0 ≤ s.sign*s.tilt.factor := by
      rw [Side.sign_factor, Side.excess_tilt]
      decide
    rw [if_pos hpos, if_neg (by simp), e1, Option.bind_some, h1.top ha1, Option.bind_some,
      if_neg hne, e2, Option.bind_some, e3, Option.bind_some, rotate_single, ptr_bend]
  · rcases bend_cases s e with rfl | ⟨p, z, i, q, rfl⟩
    · rw [balanced_bend, Side.excess_other] at hs
      simp only [height] at hs
      omega
    · obtain ⟨m1, root1, e1, h1⟩ := avlDoDoubleRotate_spec hnode hamong
      refine ⟨m1, root1, ?_, rotate_double ▸ h1⟩
      have hneg : ¬ 0 ≤ s.sign*s.other.tilt.factor := by
        rw [Side.sign_factor, Side.excess_other]
        decide
      rw [if_neg hneg, if_neg (by simp), e1, Option.bind_some, rotate_double, ptr_bend]

/-- What a subtree that became lower reports to the loop. -/
theorem shrunkParent_spec (h : Holds N m₀ m root c t) (ha : Among N c t) (ht : t ≠ .nil) :
    shrunkParent m root t.ptr ld =
      match c with
      | [] => some (m, root, 0, ld)
      | f::_ => some (m, root, f.item, decide (f.side = .left)) := by
  have hparent := h.parent ha ht
  cases c with
  | nil => simp [shrunkParent, hparent, owner]
  | cons f c =>
    obtain ⟨l, hleft, -, hside⟩ := h.sign ha ht
    simp only [shrunkParent, hparent, owner, hleft, hside, h.item_ne, if_false,
      Option.bind_eq_bind, Option.bind_some, Option.pure_def]

theorem shrink_sign (s : Side) : (if decide (s = .left) = true then 1 else -1) = -s.sign := by
  cases s <;> rfl

/-- The loop climbs the path as `shrink` does. -/
theorem shrinkLoop_spec (c : List (Frame ℕ)) (f : Frame ℕ) (c' : List (Frame ℕ)) (hfc : c = f::c')
    (fuel : ℕ) (m : Cells) (root : ℕ) (t : HTree ℕ) (h : Holds N m₀ m root c t)
    (ha : Among N c t) {k : ℕ} (hc : Fits c (k+1)) (ht : t.IsAvl) (hk : t.height = k)
    (hfuel : c.length ≤ fuel) :
    ∃ m' root', shrinkLoop fuel m root f.item (decide (f.side = .left)) = some (m', root') ∧
      Holds N m₀ m' root' [] (shrink c t) := by
  induction c generalizing f c' fuel m root t k with
  | nil => exact absurd hfc (by simp)
  | cons f₀ c ih =>
    obtain ⟨rfl, -⟩ := List.cons.inj hfc
    rw [List.length_cons] at hfuel
    obtain ⟨fuel, rfl⟩ : ∃ n, fuel = n+1 := ⟨fuel-1, by omega⟩
    have hstep : shrinkLoop (fuel+1) m root f₀.item (decide (f₀.side = .left)) =
        (avlHandleSubtreeShrink m root f₀.item (-f₀.side.sign) (decide (f₀.side = .left))).bind
          (fun r => if r.2.2.1 = 0 then some (r.1, r.2.1)
            else shrinkLoop fuel r.1 r.2.1 r.2.2.1 r.2.2.2) := by
      rw [shrinkLoop, shrink_sign]
      rfl
    -- the loop goes on from a subtree that became lower
    have hup : ∀ (m₁ : Cells) (root₁ : ℕ) (t₁ : HTree ℕ) (k₁ : ℕ), Holds N m₀ m₁ root₁ c t₁ →
        Among N c t₁ → t₁ ≠ .nil → Fits c (k₁+1) → t₁.IsAvl → t₁.height = k₁ →
        ∃ m' root', (shrunkParent m₁ root₁ t₁.ptr (decide (f₀.side = .left))).bind
          (fun r => if r.2.2.1 = 0 then some (r.1, r.2.1)
            else shrinkLoop fuel r.1 r.2.1 r.2.2.1 r.2.2.2) = some (m', root') ∧
          Holds N m₀ m' root' [] (shrink c t₁) := by
      intro m₁ root₁ t₁ k₁ h₁ ha₁ hnil hc₁ ht₁ hk₁
      rw [shrunkParent_spec h₁ ha₁ hnil]
      cases c with
      | nil => exact ⟨m₁, root₁, rfl, h₁⟩
      | cons f₁ c₁ =>
        obtain ⟨m', root', e', h'⟩ := ih f₁ c₁ rfl fuel m₁ root₁ t₁ h₁ ha₁ hc₁ ht₁ hk₁
          (by simpa using hfuel)
        refine ⟨m', root', ?_, h'⟩
        simp only [Option.bind_some, h₁.item_ne, if_false, e']
    obtain ⟨hf, hsib, hc⟩ := hc
    rw [hstep, shrink]
    rcases f₀.side.tilt_cases f₀.tilt with hb | hb | hb
    · obtain ⟨m₁, e₁, h₁⟩ := shrink_level (decide (f₀.side = .left)) h ha hb
      refine ⟨m₁, root, by rw [e₁]; rfl, ?_⟩
      rw [if_pos hb]
      exact (holds_fill c _).mpr h₁
    · obtain ⟨m₁, e₁, h₁⟩ := shrink_lower (decide (f₀.side = .left)) h ha hb
      rw [hb, Side.excess_tilt] at hf
      rw [show max (k+1) f₀.sibling.height+1 = k+1+1 by omega] at hc
      rw [if_neg (by rw [hb]; exact Side.tilt_ne_level _), if_pos hb, e₁]
      have hbal : (bend f₀.side t f₀.item .level f₀.sibling).IsAvl := by
        rw [balanced_bend, Side.excess_level]
        exact ⟨by omega, ht, hsib⟩
      have hgo := hup m₁ root _ (k+1) h₁
        ((among_cons.mp ha).reorder (bend_inorder_congr rfl rfl _)) bend_ne_nil hc hbal
        (by rw [height_bend]; omega)
      rwa [ptr_bend] at hgo
    · have hnil : f₀.sibling ≠ .nil := by
        intro hn
        rw [hb, Side.excess_other, hn, height] at hf
        omega
      obtain ⟨m₁, root₁, e₁, h₁⟩ := shrink_rotate (decide (f₀.side = .left)) h ha hb hsib hnil
      rw [hb, Side.excess_other] at hf
      rw [show max (k+1) f₀.sibling.height+1 = k+3 by omega] at hc
      rw [if_neg (by rw [hb]; exact Side.tilt_ne_level _),
        if_neg (by rw [hb]; exact Side.other_tilt_ne _), e₁]
      obtain ⟨hbal, hheight⟩ :=
        rotate_spec (s := f₀.side.other) (x := f₀.item) hsib ht (by omega)
      have hamong : Among N c (rotate f₀.side.other f₀.sibling f₀.item t) := by
        apply (among_cons.mp ha).reorder
        rw [rotate_inorder _ _ _ _ f₀.tilt, bend_other]
      split_ifs at hheight ⊢ with hlevel
      · exact ⟨m₁, root₁, rfl, (holds_fill c _).mpr h₁⟩
      · have hne : rotate f₀.side.other f₀.sibling f₀.item t ≠ .nil := by
          intro hn
          rw [hn, height] at hheight
          omega
        exact hup m₁ root₁ _ (k+2) h₁ hamong hne hc hbal (by omega)

end Shrink

section Unlink

variable {N : List ℕ} {m₀ m : Cells} {W : Words} {root x y : ℕ} {c p : List (Frame ℕ)}
  {l r t B : HTree ℕ} {a b : Tilt} {fuel : ℕ}

theorem Among.shorten {t' : HTree ℕ} (h : Among N c t) (hs : t'.inorder.Sublist t.inorder) :
    Among N c t' := by
  have hfill : (fill c t').inorder.Sublist (fill c t).inorder := by
    rw [inorder_fill, inorder_fill]
    exact (hs.append_left _).append_right _
  exact ⟨h.fit, fun z hz => h.sub z (hfill.subset hz), h.nodup.sublist hfill⟩

/-- A subtree takes the place of the tree it is in. -/
theorem replace_spec (h : Holds N m₀ m root c t) (ha : Among N c t) (ht : t ≠ .nil)
    (hB : Shape (wordsOf m) x B) (hx : x % 8 = 0) (hs : B.inorder.Sublist t.inorder) :
    ∃ m₁ m₂, avlReplaceChild m root (owner 0 c) t.ptr B.ptr = some (m₁, topOf root c B.ptr) ∧
      setParentIf m₁ B.ptr (owner 0 c) = some m₂ ∧
      Holds N m₀ m₂ (topOf root c B.ptr) c B := by
  have hN := ha.fit
  have haB := ha.shorten hs
  obtain ⟨hnB, hnc, hBc⟩ := nodup_fill.mp haB.nodup
  have htc : t.ptr ∉ nodes c := fun hv => (nodup_fill.mp ha.nodup).2.2 (ptr_mem t ht) hv
  have hBp := fit_points hN haB.ptr
  obtain ⟨m₁, e₁, h₁⟩ := h.sees.replaceChild hN (fun z hz => ha.path hz) h.path
    (fun he => ht ((ptr_eq_zero h.shape).mp he)) htc (q := B.ptr) (by omega)
  obtain ⟨m₂, e₂, h₂⟩ := h₁.adopt hN (fun z hz => haB.tree hz)
    ((shape_redirect hBc).mpr hB) hx ha.owner
  refine ⟨m₁, m₂, e₁, e₂, h₂.holds haB ?_ ?_⟩
  · exact (path_adopt hBc).mpr (path_redirect _ h.path hnc)
  · exact shape_adopt ((shape_redirect hBc).mpr hB) hnB

/-- The loop of the swap ends at the first node of the subtree. -/
theorem descend_spec (r : HTree ℕ) {P : ℕ} (h : Shape (wordsOf m) P r)
    (hs : r.spine = some (p, y, a, B)) (hp : p ≠ []) (hfuel : p.length ≤ fuel) :
    descend fuel m r.ptr = some (owner 0 p, y) := by
  induction r generalizing P p y a B fuel with
  | nil => exact absurd hs (by simp [spine])
  | node l' x' b' r' ihl _ =>
    obtain ⟨-, hl, -, -, hL, -⟩ := h
    have hleft : left m x' = some l'.ptr := hl
    rw [spine] at hs
    cases hs' : l'.spine with
    | none =>
      rw [hs'] at hs
      simp only [Option.some.injEq, Prod.mk.injEq] at hs
      exact absurd hs.1.symm hp
    | some q =>
      obtain ⟨p', y', a', B'⟩ := q
      rw [hs'] at hs
      simp only [Option.some.injEq, Prod.mk.injEq] at hs
      obtain ⟨rfl, rfl, rfl, rfl⟩ := hs
      obtain ⟨fuel, rfl⟩ : ∃ n, fuel = n+1 := by
        refine ⟨fuel-1, ?_⟩
        simp only [List.length_append, List.length_singleton] at hfuel
        omega
      cases l' with
      | nil => exact absurd hs' (by simp [spine])
      | node l₁ x₁ b₁ r₁ =>
        have hleft₁ : left m x₁ = some l₁.ptr := hL.2.1
        rw [HTree.ptr] at hleft ⊢
        by_cases hp' : p' = []
        · have hfill := fill_spine _ hs'
          rw [hp', fill] at hfill
          injection hfill with h₁ h₂
          rw [h₁, h₂] at hleft₁
          simp [descend, hleft, hleft₁, HTree.ptr, hp', owner, h₂]
        · have hgo := ihl hL hs' hp' (show _ ≤ fuel by simpa using hfuel)
          have hne : l₁.ptr ≠ 0 := by
            intro he
            have hnil := (ptr_eq_zero hL.2.2.2.2.1).mp he
            rw [hnil, spine] at hs'
            simp only [spine, Option.some.injEq, Prod.mk.injEq] at hs'
            exact hp' hs'.1.symm
          rw [HTree.ptr] at hgo
          simp only [descend, hleft, hleft₁, hne, if_false, Option.bind_eq_bind,
            Option.bind_some, hgo]
          cases p' with
          | nil => exact absurd rfl hp'
          | cons f p' => rfl

/-- The successor is out of the right subtree, which hangs below it. -/
theorem detachSuccessor_spec (h : Holds N m₀ m root c (.node l x b r))
    (ha : Among N c (.node l x b r)) (hs : r.spine = some (p, y, a, B))
    (hfuel : p.length ≤ fuel) :
    ∃ m' W, detachSuccessor fuel m x = some (m', y, owner y p, decide (p ≠ [])) ∧
      Sees N m₀ m' W ∧ (∀ v, v ∉ r.inorder → W v = wordsOf m v) ∧ Shape W y (fill p B) ∧
      W y .right = some (fill p B).ptr := by
  have hN := ha.fit
  obtain ⟨hx0, hxl, hxr, hxu, hl, hr⟩ := h.shape
  have hxN : x ∈ N := ha.tree (by simp [inorder])
  have hfill := fill_spine r hs
  have hrN : ∀ v ∈ r.inorder, v ∈ N := fun v hv => ha.tree (by simp [inorder, hv])
  have hright : right m x = some r.ptr := hxr
  obtain ⟨hpath, hnode⟩ := (shape_fill p (.node .nil y a B)).mp ⟨rfl, hfill ▸ hr⟩
  obtain ⟨hy0, hyl, hyr, hyu, -, hB⟩ := hnode
  have hyr' : right m y = some B.ptr := hyr
  obtain ⟨hnT, -, -⟩ := nodup_fill.mp ha.nodup
  simp only [inorder, List.nodup_append', List.nodup_cons] at hnT
  obtain ⟨-, ⟨hxr', hnr⟩, -⟩ := hnT
  rw [hfill, nodup_fill] at hnr
  obtain ⟨hnyB, hnp, hyBp⟩ := hnr
  simp only [inorder, List.nil_append, List.nodup_cons] at hnyB
  obtain ⟨hyB, hnB⟩ := hnyB
  have hin : ∀ v, v ∈ r.inorder ↔ (v = y ∨ v ∈ B.inorder) ∨ v ∈ nodes p := by
    intro v
    rw [hfill, mem_fill]
    simp [inorder]
  have hyN : y ∈ N := hrN y ((hin y).mpr (by simp))
  have hBN : ∀ v ∈ B.inorder, v ∈ N := fun v hv => hrN v ((hin v).mpr (by simp [hv]))
  have hx8 := fit_points hN (Or.inr hxN)
  have hy8 := fit_points hN (Or.inr hyN)
  cases p with
  | nil =>
    have hptr : r.ptr = y := by rw [hfill]; rfl
    have hleft : left m y = some 0 := hyl
    refine ⟨m, wordsOf m, ?_, h.sees, fun _ _ => rfl, hB, hyr⟩
    simp [detachSuccessor, hright, hptr, hleft, owner]
  | cons f p =>
    have hside := spine_side r hs f (by simp)
    have hyf : y ≠ f.item := fun he => hyBp (by simp [inorder] : y ∈ _) (by simp [nodes, he])
    have hfr : f.item ∈ r.inorder := (hin _).mpr (Or.inr (by simp [nodes]))
    have hfN := hrN _ hfr
    have hxf : x ≠ f.item := fun he => hxr' (he ▸ hfr)
    have hxy : x ≠ y := fun he => hxr' (he ▸ (hin y).mpr (by simp))
    have hBfp : B.inorder.Disjoint (nodes (f::p)) := fun v hv => hyBp (by simp [inorder, hv])
    have hxB : x ∉ B.inorder := fun hv => hxr' ((hin x).mpr (by simp [hv]))
    -- the right subtree has a left child
    obtain ⟨q, hleft, hq⟩ : ∃ q, left m r.ptr = some q ∧ q ≠ 0 := by
      cases r with
      | nil => exact absurd hs (by simp [spine])
      | node l₁ x₁ b₁ r₁ =>
        refine ⟨l₁.ptr, hr.2.1, fun he => ?_⟩
        have hnil := (ptr_eq_zero hr.2.2.2.2.1).mp he
        rw [hnil] at hs
        simp [spine] at hs
    have hdesc := descend_spec r hr hs (by simp) hfuel
    rw [owner] at hdesc
    have hBp : B.ptr < 2^64 := by
      by_cases hnil : B = .nil
      · rw [hnil]
        decide
      · have := hN.bounded _ (hBN _ (ptr_mem B hnil))
        omega
    have h₁ := h.sees.put hN hfN .left hBp
    have hW₁ : set (wordsOf m) f.item .left B.ptr = redirect (wordsOf m) (f::p) B.ptr := by
      rw [redirect, hside, Side.field]
    rw [hW₁] at h₁
    have hf8 := fit_points hN (Or.inr hfN)
    obtain ⟨m₂, e₂, h₂⟩ := h₁.adopt hN hBN ((shape_redirect hBfp).mpr hB) hy8.1 (Or.inr hfN)
    -- the subtree without the successor
    have hpath₂ := path_redirect B.ptr hpath hnp
    rw [topOf, ← hfill] at hpath₂
    have hB₂ := shape_adopt (q := f.item) ((shape_redirect (q := B.ptr) hBfp).mpr hB) hnB
    obtain ⟨hRptr, hR⟩ := (shape_fill (f::p) B).mpr ⟨(path_adopt hBfp).mpr hpath₂, hB₂⟩
    have hrow₂ : ∀ v, v ∉ r.inorder →
        adopt (redirect (wordsOf m) (f::p) B.ptr) B f.item v = wordsOf m v := by
      intro v hv
      rw [adopt_row (fun hvB => hv ((hin v).mpr (by simp [hvB]))),
        redirect_row (fun hvn => hv ((hin v).mpr (Or.inr hvn)))]
    have hright₂ : right m₂ x = some r.ptr := by
      rw [h₂.right hxN, hrow₂ x hxr', hxr]
    have hrp : r.ptr < 2^64 := by
      have := hN.bounded _ (hrN _ (ptr_mem r (fun hn => by rw [hn] at hs; simp [spine] at hs)))
      omega
    have h₃ := h₂.put hN hyN .right hrp
    have hright₃ : right (store64 m₂ (y+8) r.ptr) x = some r.ptr := by
      have := h₃.right hxN
      rw [set_of_ne hxy, hrow₂ x hxr', hxr] at this
      exact this
    have hyR : y ∉ (fill (f::p) B).inorder := by
      rw [mem_fill, not_or]
      exact ⟨hyB, fun hv => hyBp (by simp [inorder]) hv⟩
    have hRr : ∀ v ∈ (fill (f::p) B).inorder, v ∈ r.inorder := by
      intro v hv
      rw [mem_fill] at hv
      exact (hin v).mpr (hv.imp Or.inr id)
    have hnR : (fill (f::p) B).inorder.Nodup := nodup_fill.mpr ⟨hnB, hnp, hBfp⟩
    have hR₃ := (shape_set (f := .right) (v := r.ptr) hyR).mpr hR
    obtain ⟨m₄, e₄, h₄⟩ := h₃.adopt hN (fun v hv => hrN v (hRr v hv)) hR₃ hx8.1
      (q := y) (Or.inr hyN)
    have hrp0 : r.ptr ≠ 0 := by
      intro he
      rw [(ptr_eq_zero hr).mp he] at hs
      simp [spine] at hs
    rw [← hRptr, setParentIf, if_neg hrp0] at e₄
    refine ⟨m₄, _, ?_, h₄, ?_, shape_adopt hR₃ hnR, ?_⟩
    · have hq' : store64 m (f.item+Field.left.off) B.ptr = store64 m f.item B.ptr := rfl
      rw [hq'] at e₂
      simp only [detachSuccessor, hright, hleft, hq, hdesc, hyr', e₂, hright₂, hright₃,
        Option.bind_eq_bind, Option.bind_some, if_false, Option.pure_def]
      have h8 : store64 m₂ (y+Field.right.off) r.ptr = store64 m₂ (y+8) r.ptr := rfl
      rw [h8] at e₄
      simp [e₄, owner]
    · intro v hv
      rw [adopt_row (fun hvR => hv (hRr v hvR)),
        set_row (fun he => hv ((hin v).mpr (Or.inl (Or.inl he)))), hrow₂ v hv]
    · rw [adopt_row hyR, set_self, hRptr]

/-- The successor stands where the node stood, with its tilt. -/
theorem swap_spec (h : Holds N m₀ m root c (.node l x b r)) (ha : Among N c (.node l x b r))
    (hs : r.spine = some (p, y, a, B)) (hl : l ≠ .nil) (hfuel : p.length ≤ fuel) :
    ∃ m', avlTreeSwapWithSuccessor fuel m root x =
        some (m', topOf root c y, owner y p, decide (p ≠ [])) ∧
      Holds N m₀ m' (topOf root c y) c (.node l y b (fill p B)) := by
  have hN := ha.fit
  obtain ⟨hx0, hxl, -, hxu, hlS, hr⟩ := h.shape
  have hxN : x ∈ N := ha.tree (by simp [inorder])
  obtain ⟨hnT, hnc, hTc⟩ := nodup_fill.mp ha.nodup
  simp only [inorder, List.nodup_append', List.nodup_cons] at hnT
  obtain ⟨hnl, ⟨hxr, hnr⟩, hlr⟩ := hnT
  have hxl' : x ∉ l.inorder := fun hv => hlr hv (by simp)
  have hlr' : l.inorder.Disjoint r.inorder := fun v hv hv' => hlr hv (by simp [hv'])
  have hfill := fill_spine r hs
  have hyr : y ∈ r.inorder := by
    rw [hfill, mem_fill]
    simp [inorder]
  have hyB : y ∉ (fill p B).inorder := by
    rw [hfill, nodup_fill] at hnr
    rw [mem_fill, not_or]
    simp only [inorder, List.nil_append, List.nodup_cons] at hnr
    exact ⟨hnr.1.1, fun hv => hnr.2.2 (by simp) hv⟩
  have hBr : (fill p B).inorder.Sublist r.inorder := by
    rw [hfill, inorder_fill, inorder_fill]
    exact ((List.sublist_cons_self y B.inorder).append_left _).append_right _
  have hyN : y ∈ N := ha.tree (by simp [inorder, hyr])
  have hxy : x ≠ y := fun he => hxr (he ▸ hyr)
  have hyl : y ∉ l.inorder := fun hv => hlr' hv hyr
  have hyc : y ∉ nodes c := fun hv => hTc (by simp [inorder, hyr]) hv
  have hxc : x ∉ nodes c := fun hv => hTc (by simp [inorder]) hv
  have hlc : l.inorder.Disjoint (nodes c) := fun v hv => hTc (by simp [inorder, hv])
  have hrc : r.inorder.Disjoint (nodes c) := fun v hv => hTc (by simp [inorder, hv])
  have hBl : (fill p B).inorder.Disjoint l.inorder := fun v hv hv' => hlr' hv' (hBr.subset hv)
  have hBc : (fill p B).inorder.Disjoint (nodes c) := fun v hv => hrc (hBr.subset hv)
  have hx8 := fit_points hN (Or.inr hxN)
  have hy8 := fit_points hN (Or.inr hyN)
  have hP := fit_points hN ha.owner
  have hb := b.bits_le
  have hlp : l.ptr < 2^64 := by
    have := hN.bounded _ (ha.tree (by simp [inorder, ptr_mem l hl] : l.ptr ∈ _))
    omega
  obtain ⟨m₁, W₁, e₁, h₁, hrow, hB, hyR⟩ := detachSuccessor_spec h ha hs hfuel
  have hrowx := hrow x hxr
  have hy0 : y ≠ 0 := by
    obtain ⟨-, hshape⟩ := (shape_fill p (.node .nil y a B)).mp ⟨rfl, hfill ▸ hr⟩
    exact hshape.1
  -- the left subtree hangs below the successor
  have h₂ := h₁.put hN hyN .left hlp
  have hl₁ : left m₁ x = some l.ptr := by rw [h₁.left hxN, hrowx, hxl]
  have hl₂ : left (store64 m₁ y l.ptr) x = some l.ptr := by
    have hword := h₂.left hxN
    rw [set_of_ne hxy, hrowx, hxl] at hword
    exact hword
  have hlS₂ : Shape (set W₁ y .left l.ptr) x l := by
    rw [shape_set hyl, shape_congr l x (fun v hv => hrow v (fun hv' => hlr' hv hv'))]
    exact hlS
  obtain ⟨m₃, e₃, h₃⟩ := h₂.adopt hN (fun v hv => ha.tree (by simp [inorder, hv])) hlS₂ hx8.1
    (q := y) (Or.inr hyN)
  rw [setParentIf, if_neg (fun he => hl ((ptr_eq_zero hlS).mp he))] at e₃
  have hxu₃ : adopt (set W₁ y .left l.ptr) l y x .up = some (owner 0 c+b.bits) := by
    rw [adopt_row hxl', set_of_ne hxy, hrowx, hxu]
  have hw₃ : parentBalance m₃ x = some (owner 0 c+b.bits) := (h₃.up hxN).trans hxu₃
  have h₄ := h₃.put hN hyN .up (v := owner 0 c+b.bits) (by omega)
  have hP₄ := h₄.getParent hxN (by rw [set_of_ne hxy, hxu₃]) hP.1
  have hpath₄ : PathShape (set (adopt (set W₁ y .left l.ptr) l y) y .up (owner 0 c+b.bits)) 0
      root c x := by
    rw [path_set hyc, path_adopt hlc, path_set hyc]
    exact (path_congr c x (fun v hv => hrow v (fun hv' => hrc hv' hv))).mpr h.path
  obtain ⟨m₅, e₅, h₅⟩ := h₄.replaceChild hN (fun z hz => ha.path hz) hpath₄ hx0 hxc
    (q := y) (by omega)
  have ha' : Among N c (.node l y b (fill p B)) := ha.shorten (spine_sublist hs)
  refine ⟨m₅, ?_, h₅.holds ha' (path_redirect _ hpath₄ hnc) ?_⟩
  · have hput : store64 m₁ (y+Field.left.off) l.ptr = store64 m₁ y l.ptr := rfl
    have hput' : ∀ v, store64 m₃ (y+Field.up.off) v = store64 m₃ (y+16) v := fun _ => rfl
    rw [hput] at e₃
    rw [hput'] at hP₄ e₅
    simp only [avlTreeSwapWithSuccessor, e₁, hl₁, hl₂, e₃, hw₃, hP₄, e₅, Option.bind_eq_bind,
      Option.bind_some, Option.pure_def]
  · obtain ⟨-, -, hTc'⟩ := nodup_fill.mp ha'.nodup
    rw [shape_redirect hTc']
    refine ⟨hy0, ?_, ?_, set_self, ?_, ?_⟩
    · rw [set_of_field_ne (by simp), adopt_row hyl, set_self]
    · rw [set_of_field_ne (by simp), adopt_row hyl, set_of_field_ne (by simp), hyR]
    · rw [shape_set hyl]
      exact shape_adopt hlS₂ hnl
    · rw [shape_set hyB, shape_adopt_other hBl, shape_set hyB]
      exact hB

/-- The removal computes the tree without the node. -/
theorem remove_spec (h : Holds N m₀ m root c (.node l x b r)) (ha : Among N c (.node l x b r))
    (hb : (fill c (.node l x b r)).IsAvl) (hfuel : (fill c (.node l x b r)).height ≤ fuel) :
    ∃ m' root', avlTreeRemove fuel m root x = some (m', root') ∧
      Holds N m₀ m' root' [] (remove c l b r) := by
  have hN := ha.fit
  obtain ⟨hx0, hxl, hxr, hxu, hlS, hrS⟩ := h.shape
  have hxN : x ∈ N := ha.tree (by simp [inorder])
  have hleft : left m x = some l.ptr := hxl
  have hright : right m x = some r.ptr := hxr
  have hx8 := fit_points hN (Or.inr hxN)
  have hdepth := length_le_height c (.node l x b r)
  -- a node with one child at most is replaced by that child
  have hone : ∀ t, l.ptr = 0 ∨ r.ptr = 0 → t.ptr = (if l.ptr ≠ 0 then l.ptr else r.ptr) →
      Shape (wordsOf m) x t → t.inorder.Sublist (HTree.node l x b r).inorder → t.IsAvl →
      Fits c (t.height+1) → ∃ m' root', avlTreeRemove fuel m root x = some (m', root') ∧
        Holds N m₀ m' root' [] (shrink c t) := by
    intro t hlr ht hS hsub hbal hfits
    obtain ⟨m₁, m₂, e₁, e₂, h₂⟩ := replace_spec h ha (by simp) hS hx8.1 hsub
    have hparent := h.parent ha (by simp)
    rw [HTree.ptr] at e₁ hparent
    have hcond : ¬ (l.ptr ≠ 0 ∧ r.ptr ≠ 0) := by tauto
    cases c with
    | nil =>
      refine ⟨m₂, t.ptr, ?_, h₂⟩
      rw [owner] at hparent e₁ e₂
      have hm₁ : m₁ = m := by
        simp only [avlReplaceChild, if_true, Option.some.injEq, Prod.mk.injEq] at e₁
        exact e₁.1.symm
      rw [hm₁] at e₂
      simp only [avlTreeRemove, hleft, hright, if_neg hcond, hparent, ← ht, e₂, if_true,
        Option.bind_eq_bind, Option.bind_some, Option.pure_def]
    | cons f c =>
      obtain ⟨q, hq, -, hside⟩ := h.sign ha (by simp)
      rw [HTree.ptr] at hside
      have hitem := h.item_ne
      have hm₁ : (if x = q then store64 m f.item t.ptr else store64 m (f.item+8) t.ptr) = m₁ := by
        simp only [avlReplaceChild, owner, hitem, if_false, hq, Option.map_some,
          Option.some.injEq] at e₁
        split_ifs at e₁ ⊢ <;> exact (Prod.mk.injEq _ _ _ _ ▸ e₁).1
      obtain ⟨m₃, root₃, e₃, h₃⟩ := shrinkLoop_spec (f::c) f c rfl fuel m₂ _ t h₂
        (ha.shorten hsub) hfits hbal rfl (by omega)
      refine ⟨m₃, root₃, ?_, h₃⟩
      rw [owner] at hparent e₂
      rw [topOf] at e₃
      simp only [avlTreeRemove, hleft, hright, if_neg hcond, hparent, hitem, hq, ← ht, hm₁, e₂,
        hside, e₃, if_false, Option.bind_eq_bind, Option.bind_some]
  obtain ⟨hc, -, hl, hr⟩ := (balanced_fill _ _).mp hb
  rcases remove_cases c l b r with ⟨rfl, hrem⟩ | ⟨rfl, hrem⟩ | ⟨p, y, a, B, hnil, hspine, hrem⟩
  · rw [hrem]
    simp only [height, Nat.zero_max] at hc
    exact hone r (Or.inl rfl) (by simp [HTree.ptr]) hrS (by simp [inorder]) hr hc
  · rw [hrem]
    simp only [height, Nat.max_zero] at hc
    refine hone l (Or.inr rfl) ?_ hlS (by simp [inorder]) hl hc
    split_ifs with hz
    · rfl
    · simpa [HTree.ptr] using hz
  · rw [hrem]
    have hfill := fill_spine r hspine
    have hpr : p.length < r.height := by
      have := length_le_height p (.node .nil y a B)
      rw [← hfill, height] at this
      omega
    rw [height] at hdepth
    obtain ⟨m₁, e₁, h₁⟩ := swap_spec h ha hspine hnil (show _ ≤ fuel by omega)
    obtain ⟨hfits, hB⟩ := spine_fits hb hspine
    have hl0 : l.ptr ≠ 0 := fun he => hnil ((ptr_eq_zero hlS).mp he)
    have hr0 : r.ptr ≠ 0 := by
      intro he
      rw [(ptr_eq_zero hrS).mp he] at hspine
      simp [spine] at hspine
    have hpath : Holds N m₀ m₁ (topOf root c y) (p++⟨.right, y, b, l⟩::c) B := by
      rw [← holds_fill, fill_append, holds_fill, holds_cons]
      exact h₁
    have hamong : Among N (p++⟨.right, y, b, l⟩::c) B := by
      have ha' : Among N c (.node l y b (fill p B)) := ha.shorten (spine_sublist hspine)
      refine ⟨hN, ?_, ?_⟩
      · rw [fill_append]
        exact ha'.sub
      · rw [fill_append]
        exact ha'.nodup
    have hstart : ∃ f₀ c₀, p++⟨.right, y, b, l⟩::c = f₀::c₀ ∧ owner y p = f₀.item ∧
        decide (p ≠ []) = decide (f₀.side = .left) := by
      cases p with
      | nil => exact ⟨_, _, rfl, rfl, rfl⟩
      | cons f p =>
        refine ⟨f, _, rfl, rfl, ?_⟩
        simp [spine_side r hspine f (by simp)]
    obtain ⟨f₀, c₀, hfc, howner, hside⟩ := hstart
    obtain ⟨m₂, root₂, e₂, h₂⟩ := shrinkLoop_spec _ f₀ c₀ hfc fuel m₁ _ B hpath hamong hfits hB rfl
      (by simp only [List.length_append, List.length_cons]; omega)
    refine ⟨m₂, root₂, ?_, h₂⟩
    simp only [avlTreeRemove, hleft, hright, hl0, hr0, e₁, howner, hside, e₂, ne_eq,
      not_false_eq_true, and_self, if_true, Option.bind_eq_bind, Option.bind_some]

end Unlink

end BruhOS.AvlTree
