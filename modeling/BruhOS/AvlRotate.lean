import BruhOS.AvlStore

/-!
# Rotations in memory

Every function of the library reads and stores single words. A rotation turns
the words of one tree into those of another with the same nodes, below the
same path, and touches no other memory.
-/

set_option autoImplicit false

namespace BruhOS.AvlTree
open PointerTree BalancedTree HTree

/-- The nodes of a tree and the path to it are among apart ones. -/
structure Among (N : List ℕ) (c : List (Frame ℕ)) (t : HTree ℕ) : Prop where
  fit : Fit N
  sub : ∀ z ∈ (fill c t).inorder, z ∈ N
  nodup : (fill c t).inorder.Nodup

/-- The memory holds a tree at the end of a path, and is otherwise what it was. -/
structure Holds (N : List ℕ) (m₀ m : Cells) (root : ℕ) (c : List (Frame ℕ)) (t : HTree ℕ) :
    Prop where
  frame : ∀ a, (∀ x ∈ N, a < x ∨ x+24 ≤ a) → m a = m₀ a
  path : PathShape (wordsOf m) 0 root c t.ptr
  shape : Shape (wordsOf m) (owner 0 c) t

section Pointers

variable {N : List ℕ} {m₀ m : Cells} {W : Words} {root x y p q : ℕ} {c : List (Frame ℕ)}
  {t : HTree ℕ}

theorem fit_apart (hN : Fit N) (hx : x ∈ N) (hy : y ∈ N) (hne : x ≠ y) :
    x+24 ≤ y ∨ y+24 ≤ x := by
  have : Std.Symm (fun x y : ℕ => x+24 ≤ y ∨ y+24 ≤ x) := ⟨fun _ _ h => h.symm⟩
  exact hN.apart.forall hx hy hne

theorem fit_points (hN : Fit N) (h : Points N p) : p % 8 = 0 ∧ p+24 ≤ 2^64 := by
  rcases h with rfl | h
  · exact ⟨rfl, by decide⟩
  · exact ⟨hN.aligned p h, hN.bounded p h⟩

theorem Among.tree (h : Among N c t) {z : ℕ} (hz : z ∈ t.inorder) : z ∈ N :=
  h.sub z (mem_fill.mpr (Or.inl hz))

theorem Among.path (h : Among N c t) {z : ℕ} (hz : z ∈ nodes c) : z ∈ N :=
  h.sub z (mem_fill.mpr (Or.inr hz))

theorem Among.ptr (h : Among N c t) : Points N t.ptr := by
  by_cases ht : t = .nil
  · exact Or.inl (by rw [ht]; rfl)
  · exact Or.inr (h.tree (ptr_mem t ht))

theorem Among.owner (h : Among N c t) : Points N (owner 0 c) := by
  rcases owner_mem c with hz | hz
  · exact Or.inl hz
  · exact Or.inr (h.path hz)

theorem Among.congr {c' : List (Frame ℕ)} {t' : HTree ℕ} (h : Among N c t)
    (he : (fill c' t').inorder.Perm (fill c t).inorder) : Among N c' t' :=
  ⟨h.fit, fun z hz => h.sub z (he.mem_iff.mp hz), he.nodup_iff.mpr h.nodup⟩

theorem Among.reorder {t' : HTree ℕ} (h : Among N c t) (he : t'.inorder = t.inorder) :
    Among N c t' := by
  apply h.congr
  rw [fill_inorder_congr c he]

theorem Holds.sees (h : Holds N m₀ m root c t) : Sees N m₀ m (wordsOf m) :=
  ⟨fun _ _ _ => rfl, h.frame⟩

theorem Sees.holds (h : Sees N m₀ m W) (ha : Among N c t) (hc : PathShape W 0 root c t.ptr)
    (ht : Shape W (AvlTree.owner 0 c) t) : Holds N m₀ m root c t := by
  have hrow : ∀ z ∈ N, wordsOf m z = W z := fun z hz => funext (h.words z hz)
  refine ⟨h.frame, ?_, ?_⟩
  · exact (path_congr c _ (fun z hz => hrow z (ha.path hz))).mpr hc
  · exact (shape_congr t _ (fun z hz => hrow z (ha.tree hz))).mpr ht

theorem holds_fill (c : List (Frame ℕ)) (t : HTree ℕ) :
    Holds N m₀ m root [] (fill c t) ↔ Holds N m₀ m root c t := by
  have hfill : (root = (fill c t).ptr ∧ Shape (wordsOf m) 0 (fill c t)) ↔
      PathShape (wordsOf m) 0 root c t.ptr ∧ Shape (wordsOf m) (owner 0 c) t := shape_fill c t
  constructor
  · rintro ⟨hframe, hpath, hshape⟩
    obtain ⟨hc, ht⟩ := hfill.mp ⟨hpath, hshape⟩
    exact ⟨hframe, hc, ht⟩
  · rintro ⟨hframe, hpath, hshape⟩
    obtain ⟨hc, ht⟩ := hfill.mpr ⟨hpath, hshape⟩
    exact ⟨hframe, hc, ht⟩

end Pointers

section Words

variable {N : List ℕ} {m₀ m : Cells} {W : Words} {root x p q v : ℕ} {s : Side} {b b' : Tilt}

theorem Sees.put (h : Sees N m₀ m W) (hN : Fit N) (hx : x ∈ N) (f : Field) (hv : v < 2^64) :
    Sees N m₀ (store64 m (x+f.off) v) (set W x f v) := by
  have hoff : ∀ g : Field, g.off = 0 ∨ g.off = 8 ∨ g.off = 16 := by
    intro g
    cases g <;> simp [Field.off]
  constructor
  · intro y hy g
    have hf := hoff f
    have hg := hoff g
    by_cases hyx : y = x
    · rw [hyx]
      by_cases hgf : g = f
      · rw [hgf, set_self]
        exact load64_store64 hv
      · have hne : g.off ≠ f.off := by
          cases f <;> cases g <;> simp [Field.off] at hgf ⊢
        rw [set_of_field_ne hgf, load64_store64_of_ne (by omega) (by omega) (by omega)]
        exact h.words x hx g
    · have hap := fit_apart hN hy hx hyx
      rw [set_of_ne hyx, load64_store64_of_ne (by omega) (by omega) (by omega)]
      exact h.words y hy g
  · intro a ha
    have hax := ha x hx
    have hf := hoff f
    rw [store64_of_ne (by omega) (by omega)]
    exact h.frame a ha

theorem Sees.left (h : Sees N m₀ m W) (hx : x ∈ N) : left m x = W x .left :=
  h.words x hx .left

theorem Sees.right (h : Sees N m₀ m W) (hx : x ∈ N) : right m x = W x .right :=
  h.words x hx .right

theorem Sees.up (h : Sees N m₀ m W) (hx : x ∈ N) : parentBalance m x = W x .up :=
  h.words x hx .up

theorem Sees.getChild (h : Sees N m₀ m W) (hx : x ∈ N) (s : Side) :
    avlGetChild m x s.sign = W x s.field := by
  cases s with
  | left => exact h.left hx
  | right => exact h.right hx

theorem setChild_eq (s : Side) : avlSetChild m x s.sign v = store64 m (x+s.field.off) v := by
  cases s <;> rfl

theorem Sees.getParent (h : Sees N m₀ m W) (hx : x ∈ N) (hw : W x .up = some (p+b.bits))
    (hp : p % 8 = 0) : avlGetParent m x = some p := by
  have hb := b.bits_le
  rw [avlGetParent, h.up hx, hw, Option.map_some, Option.some.injEq]
  omega

theorem Sees.getBalanceFactor (h : Sees N m₀ m W) (hx : x ∈ N)
    (hw : W x .up = some (p+b.bits)) (hp : p % 8 = 0) :
    avlGetBalanceFactor m x = some b.factor := by
  have hb := b.bits_le
  rw [avlGetBalanceFactor, h.up hx, hw, Option.map_some, Option.some.injEq, ← b.bits_factor,
    show (p+b.bits) % 4 = b.bits by omega]

theorem or_bits (hq : q % 8 = 0) (b : Tilt) : q ||| b.bits = q+b.bits := by
  have h8 : q = 2^3*(q/8) := by omega
  have hb := b.bits_le
  rw [h8, ← Nat.two_pow_add_eq_or_of_lt (by omega)]

theorem Sees.setParent (h : Sees N m₀ m W) (hx : x ∈ N) (hw : W x .up = some (p+b.bits))
    (hp : p % 8 = 0) (hq : q % 8 = 0) :
    avlSetParent m x q = some (store64 m (x+Field.up.off) (q+b.bits)) := by
  have hb := b.bits_le
  rw [avlSetParent, h.up hx, hw, Option.map_some, show (p+b.bits) % 4 = b.bits by omega,
    or_bits hq]
  rfl

theorem setParentBalance_eq (hq : q % 8 = 0) (b : Tilt) :
    avlSetParentBalance m x q b.factor = store64 m (x+Field.up.off) (q+b.bits) := by
  have hb := b.bits_le
  have hbits : ((b.factor+1) % 2^64).toNat = b.bits := by
    rw [← b.bits_factor]
    omega
  rw [avlSetParentBalance, hbits, or_bits hq]
  rfl

theorem Sees.adjust (h : Sees N m₀ m W) (hx : x ∈ N) (hw : W x .up = some (p+b.bits))
    (hp : p+24 ≤ 2^64) {amount : ℤ} (ha : b.factor+amount = b'.factor) :
    avlAdjustBalanceFactor m x amount = some (store64 m (x+Field.up.off) (p+b'.bits)) := by
  have hb' := b'.bits_le
  have hsum : (((p+b.bits : ℕ) : ℤ)+amount) % 2^64 = ((p+b'.bits : ℕ) : ℤ) := by
    rw [← b.bits_factor, ← b'.bits_factor] at ha
    omega
  rw [avlAdjustBalanceFactor, h.up hx, hw, Option.map_some, hsum, Int.toNat_natCast]
  rfl

/-- The pointer to the place is redirected, whether it is the root or in a node. -/
theorem Sees.replaceChild {c : List (Frame ℕ)} (h : Sees N m₀ m W) (hN : Fit N)
    (hsub : ∀ z ∈ nodes c, z ∈ N) (hc : PathShape W 0 root c x) (hx : x ≠ 0) (hxc : x ∉ nodes c)
    (hq : q < 2^64) : ∃ m', avlReplaceChild m root (owner 0 c) x q = some (m', topOf root c q) ∧
      Sees N m₀ m' (redirect W c q) := by
  cases c with
  | nil => exact ⟨m, by simp [avlReplaceChild, owner, topOf], h⟩
  | cons f c =>
    obtain ⟨hf, hplace, hsib, -, -, -⟩ := hc
    have hfN : f.item ∈ N := hsub _ (by simp [nodes])
    have hput := h.put hN hfN f.side.field hq
    have hne : f.sibling.ptr ≠ x := by
      by_cases hs : f.sibling = .nil
      · rw [hs]
        exact hx.symm
      · have hmem : f.sibling.ptr ∈ nodes (f::c) := by simp [nodes, ptr_mem f.sibling hs]
        exact fun he => hxc (he ▸ hmem)
    refine ⟨_, ?_, hput⟩
    rw [avlReplaceChild, owner, if_neg hf, h.left hfN, topOf]
    cases hside : f.side with
    | left =>
      rw [hside, Side.field] at hplace
      rw [hplace, Option.map_some, if_pos rfl]
      rfl
    | right =>
      rw [hside, Side.other, Side.field] at hsib
      rw [hsib, Option.map_some, if_neg hne.symm]
      rfl

/-- `if (E) avl_set_parent(E, q)` -/
theorem Sees.adopt {t : HTree ℕ} (h : Sees N m₀ m W) (hN : Fit N) (hsub : ∀ z ∈ t.inorder, z ∈ N)
    (ht : Shape W p t) (hp : p % 8 = 0) (hq : Points N q) :
    ∃ m', setParentIf m t.ptr q = some m' ∧ Sees N m₀ m' (adopt W t q) := by
  cases t with
  | nil => exact ⟨m, rfl, h⟩
  | node l x b r =>
    obtain ⟨hx, -, -, hup, -, -⟩ := ht
    have hxN := hsub x (by simp [inorder])
    have hq' := fit_points hN hq
    have hb := b.bits_le
    refine ⟨_, ?_, h.put hN hxN .up (by omega)⟩
    rw [setParentIf, HTree.ptr, if_neg hx]
    exact h.setParent hxN hup hp hq'.1

end Words

section Rotations

variable {N : List ℕ} {m₀ m : Cells} {root x y z : ℕ} {s : Side} {a b k : Tilt}
  {c : List (Frame ℕ)} {d e f g : HTree ℕ}

/-- The single rotation updates pointers and no balance factor. -/
theorem avlRotate_spec (h : Holds N m₀ m root c (bend s (bend s d y b e) x a g))
    (ha : Among N c (bend s (bend s d y b e) x a g)) :
    ∃ m' root', avlRotate m root x (-s.sign) = some (m', root') ∧
      Holds N m₀ m' root' c (bend s d y b (bend s e x a g)) := by
  have hN := ha.fit
  have horder : (bend s d y b (bend s e x a g)).inorder =
      (bend s (bend s d y b e) x a g).inorder := bend_assoc _ _ _
  have ha' : Among N c (bend s d y b (bend s e x a g)) := ha.reorder horder
  obtain ⟨hnT, hnc, hTc⟩ := nodup_fill.mp ha.nodup
  have hTc' : (bend s d y b (bend s e x a g)).inorder.Disjoint (nodes c) := horder ▸ hTc
  have hsub : ∀ z ∈ (bend s (bend s d y b e) x a g).inorder, z ∈ N := fun z hz => ha.tree hz
  have hout : ∀ z ∈ (bend s (bend s d y b e) x a g).inorder, z ∉ nodes c := fun z hz => hTc hz
  simp only [nodup_bend, mem_bend, not_or] at hnT
  obtain ⟨⟨hxy, hxd, hxe⟩, hxg, ⟨hyd, hye, -, hne, hde⟩, -, hdg⟩ := hnT
  have hyg : y ∉ g.inorder := fun hz => hdg (by simp) hz
  have hde' : d.inorder.Disjoint e.inorder := hde
  have heg : e.inorder.Disjoint g.inorder := fun _ hz hz' => hdg (by simp [hz]) hz'
  have hxN := hsub x (by simp)
  have hyN := hsub y (by simp)
  have hpath := h.path
  rw [ptr_bend] at hpath
  obtain ⟨hx0, hxs, hxo, hxu, hnear, hg⟩ := shape_bend.mp h.shape
  obtain ⟨hy0, hys, hyo, hyu, hd, he⟩ := shape_bend.mp hnear
  rw [ptr_bend] at hxs
  have hP := fit_points hN ha.owner
  have hx8 := fit_points hN (Or.inr hxN)
  have hy8 := fit_points hN (Or.inr hyN)
  have he8 : e.ptr+24 ≤ 2^64 := by
    by_cases hnil : e = .nil
    · rw [hnil]
      decide
    · exact hN.bounded _ (hsub _ (by simp [ptr_mem e hnil]))
  have hab := a.bits_le
  have hbb := b.bits_le
  -- the stores in the order of the source
  have h0 := h.sees
  have h1 := h0.put hN hxN s.field (v := e.ptr) (by omega)
  have hu1 : set (wordsOf m) x s.field e.ptr x .up = some (owner 0 c+a.bits) := by
    rw [set_of_field_ne (by simp), hxu]
  have e2 := h1.setParent hxN hu1 hP.1 hy8.1
  have h2 := h1.put hN hxN .up (v := y+a.bits) (by omega)
  have h3 := h2.put hN hyN s.other.field (v := x) (by omega)
  have hu3 : set (set (set (wordsOf m) x s.field e.ptr) x .up (y+a.bits)) y s.other.field x y .up =
      some (x+b.bits) := by
    rw [set_of_field_ne (by simp), set_of_ne (Ne.symm hxy), set_of_ne (Ne.symm hxy), hyu]
  have e4 := h3.setParent hyN hu3 hx8.1 hP.1
  have h4 := h3.put hN hyN .up (v := owner 0 c+b.bits) (by omega)
  have hshape : ∀ {t : HTree ℕ} {p : ℕ}, x ∉ t.inorder → y ∉ t.inorder → Shape (wordsOf m) p t →
      Shape (set (set (set (set (wordsOf m) x s.field e.ptr) x .up (y+a.bits)) y
        s.other.field x) y .up (owner 0 c+b.bits)) p t := by
    intro t p htx hty ht
    exact (shape_set hty).mpr ((shape_set hty).mpr ((shape_set htx).mpr ((shape_set htx).mpr ht)))
  obtain ⟨m5, e5, h5⟩ := h4.adopt hN (fun z hz => hsub z (by simp [hz])) (hshape hxe hye he)
    hy8.1 (q := x) (Or.inr hxN)
  have hxc := hout x (by simp)
  have hyc := hout y (by simp)
  have hec : e.inorder.Disjoint (nodes c) := fun z hz => hTc (by simp [hz])
  have hpath5 := (path_adopt (p := x) hec).mpr
    ((path_set (f := .up) (v := owner 0 c+b.bits) hyc).mpr
    ((path_set (f := s.other.field) (v := x) hyc).mpr
      ((path_set (f := .up) (v := y+a.bits) hxc).mpr
        ((path_set (f := s.field) (v := e.ptr) hxc).mpr hpath))))
  obtain ⟨m6, e6, h6⟩ := h5.replaceChild hN (fun z hz => ha.path hz) hpath5 hx0 hxc
    (q := y) (by omega)
  have eB : avlGetChild m x (-(-s.sign)) = some y := by
    rw [neg_neg, h0.getChild hxN, hxs]
  have eE : avlGetChild m y (-s.sign) = some e.ptr := by
    rw [Side.neg_sign, h0.getChild hyN, hyo]
  have e1 : avlSetChild m x (-(-s.sign)) e.ptr = store64 m (x+s.field.off) e.ptr := by
    rw [neg_neg, setChild_eq]
  have e3 : ∀ m', avlSetChild m' y (-s.sign) x = store64 m' (y+s.other.field.off) x := by
    intro m'
    rw [Side.neg_sign, setChild_eq]
  refine ⟨m6, topOf root c y, ?_, h6.holds ha' ?_ ?_⟩
  · simp only [avlRotate, eB, eE, h0.getParent hxN hxu hP.1, e1, e2, e3, e4, e5, e6,
      Option.bind_eq_bind, Option.bind_some]
  · rw [ptr_bend]
    exact path_redirect _ hpath5 hnc
  · rw [shape_redirect hTc', shape_bend, shape_bend, ptr_bend, adopt_row hxe, adopt_row hye,
      shape_adopt_other hde', shape_adopt_other heg.symm]
    have hx4 : ∀ k, set (set (set (set (wordsOf m) x s.field e.ptr) x .up (y+a.bits)) y
        s.other.field x) y .up (owner 0 c+b.bits) x k =
        set (set (wordsOf m) x s.field e.ptr) x .up (y+a.bits) x k := by
      intro k
      rw [set_of_ne hxy, set_of_ne hxy]
    refine ⟨hy0, ?_, ?_, set_self, hshape hxd hyd hd, hx0, ?_, ?_, ?_, ?_, hshape hxg hyg hg⟩
    · rw [set_of_field_ne (by simp), set_of_field_ne (by simp), set_of_ne (Ne.symm hxy),
        set_of_ne (Ne.symm hxy), hys]
    · rw [set_of_field_ne (by simp), set_self]
    · rw [hx4, set_of_field_ne (by simp), set_self]
    · rw [hx4, set_of_field_ne (by simp), set_of_field_ne (by simp), hxo]
    · rw [hx4, set_self]
    · exact shape_adopt (hshape hxe hye he) hne

theorem near_factor (s : Side) (k : Tilt) :
    (if -s.sign*k.factor ≤ 0 then 0 else -k.factor) = (s.nearTilt k).factor := by
  cases s <;> cases k <;> rfl

theorem far_factor (s : Side) (k : Tilt) :
    (if 0 ≤ -s.sign*k.factor then 0 else -k.factor) = (s.farTilt k).factor := by
  cases s <;> cases k <;> rfl

/-- The double rotation updates the balance factors too. -/
theorem avlDoDoubleRotate_spec
    (h : Holds N m₀ m root c (bend s (bend s d y b (bend s f z k g)) x a e))
    (ha : Among N c (bend s (bend s d y b (bend s f z k g)) x a e)) :
    ∃ m' root', avlDoDoubleRotate m root y x (-s.sign) = some (m', root', z) ∧
      Holds N m₀ m' root' c
        (bend s (bend s d y (s.nearTilt k) f) z .level (bend s g x (s.farTilt k) e)) := by
  have hN := ha.fit
  have horder : (bend s (bend s d y (s.nearTilt k) f) z .level
      (bend s g x (s.farTilt k) e)).inorder =
      (bend s (bend s d y b (bend s f z k g)) x a e).inorder := by
    cases s <;> simp [bend, inorder]
  have ha' : Among N c (bend s (bend s d y (s.nearTilt k) f) z .level
      (bend s g x (s.farTilt k) e)) := ha.reorder horder
  obtain ⟨hnT, hnc, hTc⟩ := nodup_fill.mp ha.nodup
  have hTc' : (bend s (bend s d y (s.nearTilt k) f) z .level
      (bend s g x (s.farTilt k) e)).inorder.Disjoint (nodes c) := horder ▸ hTc
  have hsub : ∀ v ∈ (bend s (bend s d y b (bend s f z k g)) x a e).inorder, v ∈ N :=
    fun v hv => ha.tree hv
  simp only [nodup_bend, mem_bend, not_or] at hnT
  obtain ⟨⟨hxy, hxd, hxz, hxf, hxg⟩, hxe, ⟨hyd, ⟨hyz, hyf, hyg⟩, -, ⟨hzf, hzg, hnf, hng, hfg⟩,
    hdr⟩, -, hle⟩ := hnT
  have hzd : z ∉ d.inorder := fun hv => hdr hv (by simp)
  have hdf : d.inorder.Disjoint f.inorder := fun _ hv hv' => hdr hv (by simp [hv'])
  have hdg : d.inorder.Disjoint g.inorder := fun _ hv hv' => hdr hv (by simp [hv'])
  have hye : y ∉ e.inorder := fun hv => hle (by simp) hv
  have hze : z ∉ e.inorder := fun hv => hle (by simp) hv
  have hfe : f.inorder.Disjoint e.inorder := fun _ hv hv' => hle (by simp [hv]) hv'
  have hge : g.inorder.Disjoint e.inorder := fun _ hv hv' => hle (by simp [hv]) hv'
  have hxN := hsub x (by simp)
  have hyN := hsub y (by simp)
  have hzN := hsub z (by simp)
  have hptr : ∀ t : HTree ℕ, (∀ v ∈ t.inorder, v ∈ N) → t.ptr < 2^64 := by
    intro t ht
    by_cases hnil : t = .nil
    · rw [hnil]
      decide
    · have := hN.bounded _ (ht _ (ptr_mem t hnil))
      omega
  have hpath := h.path
  rw [ptr_bend] at hpath
  obtain ⟨hx0, hxs, hxo, hxu, hnear, he⟩ := shape_bend.mp h.shape
  obtain ⟨hy0, hys, hyo, hyu, hd, hin⟩ := shape_bend.mp hnear
  obtain ⟨hz0, hzs, hzo, hzu, hf, hg⟩ := shape_bend.mp hin
  rw [ptr_bend] at hxs hyo
  have hP := fit_points hN ha.owner
  have hx8 := fit_points hN (Or.inr hxN)
  have hy8 := fit_points hN (Or.inr hyN)
  have hz8 := fit_points hN (Or.inr hzN)
  have hnb := (s.nearTilt k).bits_le
  have hfb := (s.farTilt k).bits_le
  -- the stores in the order of the source
  have h0 := h.sees
  have h1 := h0.put hN hxN s.field (hptr g (fun v hv => hsub v (by simp [hv])))
  have h2 := h1.put hN hxN .up (v := z+(s.farTilt k).bits) (by omega)
  have h3 := h2.put hN hyN s.other.field (hptr f (fun v hv => hsub v (by simp [hv])))
  have h4 := h3.put hN hyN .up (v := z+(s.nearTilt k).bits) (by omega)
  have h5 := h4.put hN hzN s.other.field (v := x) (by omega)
  have h6 := h5.put hN hzN s.field (v := y) (by omega)
  have h7 := h6.put hN hzN .up (v := owner 0 c+Tilt.level.bits) (by simp [Tilt.bits]; omega)
  generalize hW : set (set (set (set (set (set (set (wordsOf m) x s.field g.ptr) x .up
    (z+(s.farTilt k).bits)) y s.other.field f.ptr) y .up (z+(s.nearTilt k).bits)) z s.other.field
    x) z s.field y) z .up (owner 0 c+Tilt.level.bits) = W at h7
  have hother : ∀ v, v ≠ x → v ≠ y → v ≠ z → W v = wordsOf m v := by
    intro v hvx hvy hvz
    rw [← hW, set_row hvz, set_row hvz, set_row hvz, set_row hvy, set_row hvy, set_row hvx,
      set_row hvx]
  have hrowx : W x s.field = some g.ptr ∧ W x s.other.field = some e.ptr ∧
      W x .up = some (z+(s.farTilt k).bits) := by
    rw [← hW]
    simp [set, hxy, hxz, hxo]
  have hrowy : W y s.field = some d.ptr ∧ W y s.other.field = some f.ptr ∧
      W y .up = some (z+(s.nearTilt k).bits) := by
    rw [← hW]
    simp [set, Ne.symm hxy, hyz, hys]
  have hrowz : W z s.field = some y ∧ W z s.other.field = some x ∧
      W z .up = some (owner 0 c+Tilt.level.bits) := by
    rw [← hW]
    simp [set]
  have hshape : ∀ {t : HTree ℕ} {p : ℕ}, x ∉ t.inorder → y ∉ t.inorder → z ∉ t.inorder →
      Shape (wordsOf m) p t → Shape W p t := by
    intro t p htx hty htz ht
    exact (shape_congr t p (fun v hv => hother v (fun he => htx (he ▸ hv))
      (fun he => hty (he ▸ hv)) (fun he => htz (he ▸ hv)))).mpr ht
  have hg7 := hshape hxg hyg hzg hg
  obtain ⟨m8, e8, h8⟩ := h7.adopt hN (fun v hv => hsub v (by simp [hv])) hg7 hz8.1
    (q := x) (Or.inr hxN)
  have hf8 := (shape_adopt_other (p := x) hfg).mpr (hshape hxf hyf hzf hf)
  obtain ⟨m9, e9, h9⟩ := h8.adopt hN (fun v hv => hsub v (by simp [hv])) hf8 hz8.1
    (q := y) (Or.inr hyN)
  have hgc : g.inorder.Disjoint (nodes c) := fun v hv => hTc (by simp [hv])
  have hfc : f.inorder.Disjoint (nodes c) := fun v hv => hTc (by simp [hv])
  have hpath7 : PathShape W 0 root c x := by
    apply (path_congr c x _).mpr hpath
    intro v hv
    exact hother v (fun he => hTc (by simp [he]) hv) (fun he => hTc (by simp [he]) hv)
      (fun he => hTc (by simp [he]) hv)
  have hpath9 := (path_adopt (p := y) hfc).mpr ((path_adopt (p := x) hgc).mpr hpath7)
  obtain ⟨m10, e10, h10⟩ := h9.replaceChild hN (fun v hv => ha.path hv) hpath9 hx0
    (fun hv => hTc (by simp) hv) (q := z) (by omega)
  have eE : avlGetChild m y (-s.sign) = some z := by
    rw [Side.neg_sign, h0.getChild hyN, hyo]
  have eF : avlGetChild m z (-(-s.sign)) = some f.ptr := by
    rw [neg_neg, h0.getChild hzN, hzs]
  have eG : avlGetChild m z (-s.sign) = some g.ptr := by
    rw [Side.neg_sign, h0.getChild hzN, hzo]
  have hnearSet : ∀ m' v t, avlSetChild m' v (-(-s.sign)) t = store64 m' (v+s.field.off) t := by
    intro m' v t
    rw [neg_neg, setChild_eq]
  have hfarSet : ∀ m' v t, avlSetChild m' v (-s.sign) t = store64 m' (v+s.other.field.off) t := by
    intro m' v t
    rw [Side.neg_sign, setChild_eq]
  refine ⟨m10, topOf root c z, ?_, h10.holds ha' ?_ ?_⟩
  · have e7 : ∀ m', avlSetParentBalance m' z (owner 0 c) 0 =
        store64 m' (z+Field.up.off) (owner 0 c+Tilt.level.bits) :=
      fun m' => setParentBalance_eq (b := .level) hP.1
    simp only [avlDoDoubleRotate, eE, eF, eG, h0.getParent hxN hxu hP.1,
      h0.getBalanceFactor hzN hzu hy8.1, near_factor, far_factor, hnearSet, hfarSet,
      setParentBalance_eq hz8.1, e7, e8, e9, e10, Option.bind_eq_bind, Option.bind_some,
      Option.pure_def]
  · rw [ptr_bend]
    exact path_redirect _ hpath9 hnc
  · rw [shape_redirect hTc', shape_bend, shape_bend, shape_bend, ptr_bend, ptr_bend,
      adopt_row hzf, adopt_row hzg, adopt_row hyf, adopt_row hyg, adopt_row hxf, adopt_row hxg,
      shape_adopt_other hdf, shape_adopt_other hdg, shape_adopt_other hfg.symm,
      shape_adopt_other hfe.symm, shape_adopt_other hge.symm]
    refine ⟨hz0, hrowz.1, hrowz.2.1, hrowz.2.2, ⟨hy0, hrowy.1, hrowy.2.1, hrowy.2.2,
      hshape hxd hyd hzd hd, ?_⟩, hx0, hrowx.1, hrowx.2.1, hrowx.2.2, ?_, hshape hxe hye hze he⟩
    · exact shape_adopt hf8 hnf
    · exact shape_adopt hg7 hng

end Rotations

end BruhOS.AvlTree
