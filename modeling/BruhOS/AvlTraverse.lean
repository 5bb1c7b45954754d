import BruhOS.AvlRemove

/-!
# Traversals

The library walks a tree without a stack, by the words of the nodes. One step
in order goes from a node to the next one towards a side. The steps in
postorder read no node that has been visited, so a visited node may be freed.
-/

set_option autoImplicit false

namespace BruhOS.AvlTree
open PointerTree BalancedTree HTree

section InOrder

variable {N : List ℕ} {m₀ m : Cells} {root x : ℕ} {c : List (Frame ℕ)} {t near far : HTree ℕ}
  {b : Tilt} {fuel : ℕ}

/-- The descent towards a side ends at the first node in the order away from it. -/
theorem outermost_spec (s : Side) (t : HTree ℕ) {P : ℕ} (h : Shape (wordsOf m) P t) (ht : t ≠ .nil)
    (hfuel : t.height ≤ fuel) :
    outermost fuel m t.ptr s.sign = some ((t.order s.other).headD 0) := by
  induction fuel generalizing t P with
  | zero =>
    cases t with
    | nil => exact absurd rfl ht
    | node l x b r => exact absurd hfuel (by simp [height])
  | succ fuel ih =>
    rcases bend_cases s t with rfl | ⟨a, x, b, d, rfl⟩
    · exact absurd rfl ht
    · obtain ⟨-, hchild, -, -, ha, -⟩ := shape_bend.mp h
      have hget : avlGetChild m x s.sign = some a.ptr := by
        cases s <;> exact hchild
      have horder : (bend s a x b d).order s.other = a.order s.other++x::d.order s.other := by
        rw [← bend_other, order_bend]
      rw [height_bend] at hfuel
      rw [ptr_bend, horder]
      by_cases hnil : a = .nil
      · simp [outermost, hget, hnil, order_nil, HTree.ptr]
      · have hne : a.ptr ≠ 0 := fun he => hnil ((ptr_eq_zero ha).mp he)
        have hgo := ih a ha hnil (by omega)
        simp only [outermost, hget, hne, if_false, Option.bind_eq_bind, Option.bind_some, hgo]
        cases horder' : a.order s.other with
        | nil => exact absurd horder' (order_ne_nil hnil)
        | cons z zs => rfl

theorem ascend_spec (s : Side) (c : List (Frame ℕ)) (t : HTree ℕ) (h : Holds N m₀ m root c t)
    (ha : Among N c t) (ht : t ≠ .nil) (hfuel : c.length < fuel) :
    ascend fuel m t.ptr s.sign = some ((ahead s c).headD 0) := by
  induction c generalizing t fuel with
  | nil =>
    obtain ⟨fuel, rfl⟩ : ∃ n, fuel = n+1 := ⟨fuel-1, by omega⟩
    simp [ascend, h.parent ha ht, owner, ahead]
  | cons f c ih =>
    obtain ⟨fuel, rfl⟩ : ∃ n, fuel = n+1 := ⟨fuel-1, by omega⟩
    have hparent := h.parent ha ht
    rw [owner] at hparent
    obtain ⟨q, hchild, hiff⟩ := h.side ha ht s
    by_cases hs : f.side = s
    · have hgo := ih _ (holds_cons.mp h) (among_cons.mp ha) bend_ne_nil
        (show _ < fuel by simpa using hfuel)
      rw [ptr_bend] at hgo
      rw [← hiff.mpr hs] at hchild
      simp only [ascend, hparent, h.item_ne, hchild, if_true, if_false, Option.bind_eq_bind,
        Option.bind_some, hgo, ahead, hs]
    · have hne : t.ptr ≠ q := fun he => hs (hiff.mp he)
      simp [ascend, hparent, h.item_ne, hchild, hne, ahead, hs]

/-- One step of an in-order traversal, from the node at the end of a path. -/
theorem next_spec (s : Side) (h : Holds N m₀ m root c (bend s near x b far))
    (ha : Among N c (bend s near x b far)) (hfuel : (fill c (bend s near x b far)).height ≤ fuel) :
    avlTreeNextOrPrevInOrder fuel m x s.sign = some ((near.order s++ahead s c).headD 0) := by
  obtain ⟨-, hchild, -, -, hn, -⟩ := shape_bend.mp h.shape
  have hget : avlGetChild m x s.sign = some near.ptr := by
    cases s <;> exact hchild
  have hdepth := length_le_height c (bend s near x b far)
  rw [height_bend] at hdepth
  by_cases hnil : near = .nil
  · have hgo := ascend_spec s c _ h ha bend_ne_nil (show _ < fuel by omega)
    rw [ptr_bend] at hgo
    simp only [avlTreeNextOrPrevInOrder, hget, hnil, HTree.ptr, hgo, Option.bind_eq_bind,
      Option.bind_some, ne_eq, not_true_eq_false, if_false, order_nil, List.nil_append]
  · have hne : near.ptr ≠ 0 := fun he => hnil ((ptr_eq_zero hn).mp he)
    have hgo := outermost_spec s.other near hn hnil (show _ ≤ fuel by omega)
    rw [Side.other_other, ← Side.neg_sign] at hgo
    simp only [avlTreeNextOrPrevInOrder, hget, hne, hgo, Option.bind_eq_bind, Option.bind_some,
      ne_eq, not_false_eq_true, if_true]
    cases horder : near.order s with
    | nil => exact absurd horder (order_ne_nil hnil)
    | cons z zs => rfl

end InOrder

section Loops

variable {N : List ℕ} {m₀ m : Cells} {root x : ℕ} {c : List (Frame ℕ)} {t : HTree ℕ} {fuel : ℕ}

theorem nonzero_of_shape {W : Words} (t : HTree ℕ) {P : ℕ} (h : Shape W P t) : 0 ∉ t.inorder := by
  induction t generalizing P with
  | nil => simp [inorder]
  | node l x b r ihl ihr =>
    obtain ⟨hx, -, -, -, hl, hr⟩ := h
    simp only [inorder, List.mem_append, List.mem_cons, not_or]
    exact ⟨ihl hl, hx.symm, ihr hr⟩

theorem split_unique (xs xs' : List ℕ) (x : ℕ) {ys ys' : List ℕ} (h : xs++x::ys = xs'++x::ys')
    (hn : (xs++x::ys).Nodup) : ys = ys' := by
  have hx : x ∉ xs := fun hm => (List.nodup_append'.mp hn).2.2 hm (by simp)
  have hx' : x ∉ xs' := fun hm => (List.nodup_append'.mp (h ▸ hn)).2.2 hm (by simp)
  have hdrop : ∀ zs ws : List ℕ, x ∉ zs → (zs++x::ws).dropWhile (fun z => z ≠ x) = x::ws := by
    intro zs ws hz
    induction zs with
    | nil => simp
    | cons z zs ih =>
      simp only [List.mem_cons, not_or] at hz
      rw [List.cons_append, List.dropWhile_cons_of_pos (by simp [Ne.symm hz.1])]
      exact ih hz.2
  have heq := congrArg (List.dropWhile (fun z => z ≠ x)) h
  rw [hdrop xs ys hx, hdrop xs' ys' hx'] at heq
  exact (List.cons.inj heq).2

/-- The step from a node in the middle of the order. -/
theorem next_of_split (s : Side) (h : Holds N m₀ m root [] t) (ha : Among N [] t)
    (hfuel : t.height ≤ fuel) {xs ys : List ℕ} (hsplit : t.order s = xs++x::ys) :
    avlTreeNextOrPrevInOrder fuel m x s.sign = some (ys.headD 0) := by
  have hx : x ∈ t.inorder := by
    rw [← mem_order (s := s), hsplit]
    simp
  obtain ⟨c, l, b, r, hfill⟩ := exists_path t hx
  obtain ⟨near, far, hbend⟩ : ∃ near far, HTree.node l x b r = bend s near x b far := by
    cases s with
    | left => exact ⟨l, r, rfl⟩
    | right => exact ⟨r, l, rfl⟩
  rw [hbend] at hfill
  rw [hfill] at h hfuel
  have ha' : Among N c (bend s near x b far) := ⟨ha.fit, fun z hz => ha.sub z (by rwa [hfill]),
    by have := ha.nodup; rwa [hfill] at this⟩
  have hn : (t.order s).Nodup := by
    cases s with
    | left => exact List.nodup_reverse.mpr ha.nodup
    | right => exact ha.nodup
  rw [next_spec s ((holds_fill c _).mp h) ha' hfuel]
  have horder := hsplit
  rw [hfill, order_fill, order_bend] at horder
  have hys : near.order s++ahead s c = ys := by
    apply split_unique ((ahead s.other c).reverse++far.order s) xs x
    · simpa using horder
    · rw [hsplit, ← horder] at hn
      simpa using hn
  rw [hys]

theorem forEachFrom_spec (s : Side) (h : Holds N m₀ m root [] t) (ha : Among N [] t)
    (hfuel : t.height ≤ fuel) (xs ys : List ℕ) (hsplit : t.order s = xs++ys) {n : ℕ}
    (hn : ys.length < n) : forEachFrom fuel m s.sign n (ys.headD 0) = some ys := by
  induction ys generalizing xs n with
  | nil =>
    obtain ⟨n, rfl⟩ : ∃ k, n = k+1 := ⟨n-1, by omega⟩
    rfl
  | cons y ys ih =>
    obtain ⟨n, rfl⟩ : ∃ k, n = k+1 := ⟨n-1, by omega⟩
    have hy : y ≠ 0 := by
      intro hy
      apply nonzero_of_shape t h.shape
      rw [← mem_order (s := s), hsplit, hy]
      simp
    have hgo := ih (xs++[y]) (by simp [hsplit]) (n := n) (by simpa using hn)
    simp only [forEachFrom, List.headD_cons, hy, if_false, next_of_split s h ha hfuel hsplit,
      Option.bind_eq_bind, Option.bind_some, hgo, Option.pure_def]

/-- The loop over a tree sees its nodes in order, or in the reverse order. -/
theorem forEach_spec (s : Side) (h : Holds N m₀ m root [] t) (ha : Among N [] t)
    (hfuel : t.height ≤ fuel) {n : ℕ} (hn : t.inorder.length < n) :
    avlTreeForEachInOrder fuel m s.sign n root = some (t.order s) := by
  have hroot : root = t.ptr := h.path
  have hlen : (t.order s).length = t.inorder.length := by
    cases s <;> simp [order]
  have hfirst : avlTreeFirstOrLastInOrder fuel m root (-s.sign) = some ((t.order s).headD 0) := by
    rw [hroot, avlTreeFirstOrLastInOrder]
    by_cases hnil : t = .nil
    · simp [hnil, HTree.ptr, order_nil]
    · rw [if_neg (fun he => hnil ((ptr_eq_zero h.shape).mp he)), Side.neg_sign,
        outermost_spec s.other t h.shape hnil hfuel, Side.other_other]
  rw [avlTreeForEachInOrder, hfirst]
  exact forEachFrom_spec s h ha hfuel [] (t.order s) rfl (by omega)

end Loops

section Postorder

variable {N : List ℕ} {m₀ m m' : Cells} {root : ℕ} {c : List (Frame ℕ)} {t : HTree ℕ} {fuel : ℕ}

/-- The descent to a leaf ends at the first node in postorder. -/
theorem deepest_spec (t : HTree ℕ) {P : ℕ} (h : Shape (wordsOf m) P t) (ht : t ≠ .nil)
    (hfuel : t.height ≤ fuel) : deepest fuel m t.ptr = some (t.postorder.headD 0) := by
  induction t generalizing P fuel with
  | nil => exact absurd rfl ht
  | node l x b r ihl ihr =>
    obtain ⟨-, hxl, hxr, -, hl, hr⟩ := h
    have hleft : left m x = some l.ptr := hxl
    have hright : right m x = some r.ptr := hxr
    rw [height] at hfuel
    obtain ⟨fuel, rfl⟩ : ∃ n, fuel = n+1 := ⟨fuel-1, by omega⟩
    have hpost : ∀ t : HTree ℕ, t ≠ .nil → t.postorder ≠ [] := by
      intro t ht
      cases t with
      | nil => exact absurd rfl ht
      | node l x b r => simp [postorder]
    change deepest (fuel+1) m x = _
    by_cases hnl : l = .nil
    · have hl0 : l.ptr = 0 := by rw [hnl, HTree.ptr]
      by_cases hnr : r = .nil
      · simp [deepest, HTree.ptr, hleft, hright, hnl, hnr, postorder]
      · have hne : r.ptr ≠ 0 := fun he => hnr ((ptr_eq_zero hr).mp he)
        have hgo := ihr hr hnr (show _ ≤ fuel by omega)
        simp only [deepest, hleft, hright, hl0, hne, hgo, Option.bind_eq_bind, Option.bind_some,
          ne_eq, not_true_eq_false, not_false_eq_true, if_true, if_false]
        rw [hnl, postorder, postorder, List.nil_append]
        cases hr' : r.postorder with
        | nil => exact absurd hr' (hpost r hnr)
        | cons z zs => rfl
    · have hne : l.ptr ≠ 0 := fun he => hnl ((ptr_eq_zero hl).mp he)
      have hgo := ihl hl hnl (show _ ≤ fuel by omega)
      simp only [deepest, hleft, hne, hgo, Option.bind_eq_bind, Option.bind_some, ne_eq,
        not_false_eq_true, if_true]
      rw [postorder]
      cases hl' : l.postorder with
      | nil => exact absurd hl' (hpost l hnl)
      | cons z zs => rfl

/-- One step of the postorder reads the nodes that are still to come, and no others. -/
theorem nextPost_spec (m' : Cells) (h : Holds N m₀ m root c t) (ha : Among N c t) (ht : t ≠ .nil)
    (hm : ∀ v ∈ later c, wordsOf m' v = wordsOf m v) (hfuel : (fill c t).height ≤ fuel) :
    avlTreeNextInPostorder fuel m' t.ptr (owner 0 c) = some ((later c).headD 0) := by
  cases c with
  | nil => simp [avlTreeNextInPostorder, owner, later]
  | cons f c =>
    obtain ⟨hf, hplace, hother, -, hsib, -⟩ := h.path
    have hfm : f.item ∈ later (f::c) := by
      rw [later]
      split <;> simp
    have hrow := hm f.item hfm
    obtain ⟨q, hchild, hiff⟩ := h.side ha ht .left
    have hleft : left m' f.item = some q := by
      have hq : wordsOf m f.item .left = some q := hchild
      rw [← hrow] at hq
      exact hq
    have hdepth := length_le_height c (bend f.side t f.item f.tilt f.sibling)
    rw [height_bend] at hdepth
    rw [fill] at hfuel
    cases hside : f.side with
    | left =>
      rw [hside, Side.other, Side.field, ← hrow] at hother
      have hright : right m' f.item = some f.sibling.ptr := hother
      have heq : t.ptr = q := hiff.mpr hside
      simp only [avlTreeNextInPostorder, owner, hf, hleft, heq, hright, if_true, if_false,
        Option.bind_eq_bind, Option.bind_some, later, hside]
      by_cases hnil : f.sibling = .nil
      · simp [hnil, HTree.ptr, postorder]
      · have hne : f.sibling.ptr ≠ 0 := fun he => hnil ((ptr_eq_zero hsib).mp he)
        have hsib' : Shape (wordsOf m') f.item f.sibling := by
          apply (shape_congr f.sibling f.item _).mpr hsib
          intro v hv
          apply hm v
          simp only [later, hside, List.mem_append]
          exact Or.inl ((postorder_perm f.sibling).mem_iff.mpr hv)
        have hgo := deepest_spec f.sibling hsib' hnil (show _ ≤ fuel by omega)
        simp only [hne, ne_eq, not_false_eq_true, if_true, hgo]
        cases hp : f.sibling.postorder with
        | nil =>
          have hmem := (postorder_perm f.sibling).mem_iff.mpr (ptr_mem f.sibling hnil)
          rw [hp] at hmem
          exact absurd hmem (by simp)
        | cons z zs => rfl
    | right =>
      have hne : t.ptr ≠ q := fun he => by rw [hiff.mp he] at hside; cases hside
      simp [avlTreeNextInPostorder, owner, hf, hleft, hne, later, hside]

/-- The body leaves the nodes alone that come after the one it is called for. -/
def Spares (body : Cells → ℕ → Cells) (L : List ℕ) : Prop :=
  ∀ xs cur ys, L = xs++cur::ys → ∀ m, ∀ v ∈ ys, wordsOf (body m cur) v = wordsOf m v

theorem postorderFrom_spec {body : Cells → ℕ → Cells} (h : Holds N m₀ m root [] t)
    (ha : Among N [] t) (hfuel : t.height ≤ fuel) (hb : Spares body t.postorder) (xs ys : List ℕ)
    (hsplit : t.postorder = xs++ys) (hm : ∀ v ∈ ys, wordsOf m' v = wordsOf m v) {n : ℕ}
    (hn : ys.length < n) :
    postorderFrom fuel body n m' (ys.headD 0) = some (ys, ys.foldl body m') := by
  induction ys generalizing xs m' n with
  | nil =>
    obtain ⟨n, rfl⟩ : ∃ k, n = k+1 := ⟨n-1, by omega⟩
    rfl
  | cons y ys ih =>
    obtain ⟨n, rfl⟩ : ∃ k, n = k+1 := ⟨n-1, by omega⟩
    have hyt : y ∈ t.inorder := by
      rw [← (postorder_perm t).mem_iff, hsplit]
      simp
    have hy : y ≠ 0 := fun he => nonzero_of_shape t h.shape (he ▸ hyt)
    obtain ⟨c, l, b, r, hfill⟩ := exists_path t hyt
    have hc : Holds N m₀ m root c (.node l y b r) := (holds_fill c _).mp (hfill ▸ h)
    have ha' : Among N c (.node l y b r) := ⟨ha.fit, fun z hz => ha.sub z (by rwa [hfill]),
      by have := ha.nodup; rwa [hfill] at this⟩
    have hlater : later c = ys := by
      have horder := hsplit
      rw [hfill, postorder_fill, postorder] at horder
      have hnod : t.postorder.Nodup := (postorder_perm t).nodup_iff.mpr ha.nodup
      apply split_unique (earlier c++(l.postorder++r.postorder)) xs y
      · simpa using horder
      · rw [hsplit, ← horder] at hnod
        simpa using hnod
    have hparent : avlGetParent m' y = some (owner 0 c) := by
      have hrow : parentBalance m' y = parentBalance m y :=
        congrFun (hm y (by simp)) Field.up
      rw [avlGetParent, hrow]
      exact hc.parent ha' (by simp)
    have hm' : ∀ v ∈ ys, wordsOf (body m' y) v = wordsOf m v := by
      intro v hv
      rw [hb xs y ys hsplit m' v hv, hm v (by simp [hv])]
    have hnext := nextPost_spec (body m' y) hc ha' (by simp)
      (by rw [hlater]; exact hm') (show _ ≤ fuel by rwa [← hfill])
    rw [HTree.ptr, hlater] at hnext
    have hgo := ih (xs++[y]) (by simp [hsplit]) hm' (n := n) (by simpa using hn)
    simp only [postorderFrom, List.headD_cons, hy, if_false, hparent, hnext, hgo,
      Option.bind_eq_bind, Option.bind_some, Option.pure_def, List.foldl_cons]

/-- The loop sees every node after its children, whatever its body does to the nodes it has seen. -/
theorem forEachPost_spec {body : Cells → ℕ → Cells} (h : Holds N m₀ m root [] t)
    (ha : Among N [] t) (hfuel : t.height ≤ fuel) (hb : Spares body t.postorder) {n : ℕ}
    (hn : t.inorder.length < n) : avlTreeForEachInPostorder fuel m body n root =
      some (t.postorder, t.postorder.foldl body m) := by
  have hroot : root = t.ptr := h.path
  have hfirst : avlTreeFirstInPostorder fuel m root = some (t.postorder.headD 0) := by
    rw [hroot, avlTreeFirstInPostorder]
    by_cases hnil : t = .nil
    · simp [hnil, HTree.ptr, postorder]
    · rw [if_neg (fun he => hnil ((ptr_eq_zero h.shape).mp he)),
        deepest_spec t h.shape hnil hfuel]
  rw [avlTreeForEachInPostorder, hfirst]
  exact postorderFrom_spec h ha hfuel hb [] t.postorder rfl (fun _ _ => rfl)
    (by rw [(postorder_perm t).length_eq]; exact hn)

end Postorder

end BruhOS.AvlTree
