import BruhOS.AvlRuns

/-!
# What the users of the library get

The results are about every run of calls from the empty tree, with any keys and
any comparison callback that agrees with them.
-/

set_option autoImplicit false

namespace BruhOS.AvlTree
open PointerTree BalancedTree HTree

section Words

variable {N : List ℕ} {W : Words} {m₀ m : Cells} {root x q : ℕ} {c : List (Frame ℕ)} {t : HTree ℕ}

theorem shape_at {P : ℕ} (h : Shape W P t) (hx : x ∈ t.inorder) : ∃ c l b r,
    t = fill c (.node l x b r) ∧ Shape W (owner P c) (.node l x b r) := by
  obtain ⟨c, l, b, r, rfl⟩ := exists_path t hx
  exact ⟨c, l, b, r, rfl, ((shape_fill c _).mp ⟨rfl, h⟩).2⟩

/-- A child comes before its parent in postorder. -/
theorem child_before {P : ℕ} (h : Shape W P t) (hx : x ∈ t.inorder)
    (hq : W x .left = some q ∨ W x .right = some q) (hq0 : q ≠ 0) : [q, x].Sublist t.postorder := by
  obtain ⟨c, l, b, r, rfl, -, hl, hr, -⟩ := shape_at h hx
  have hsub : ∀ u : HTree ℕ, u.ptr = q → [q].Sublist u.postorder := by
    intro u hu
    have hmem : q ∈ u.inorder := by
      rw [← hu]
      apply ptr_mem
      rintro rfl
      exact hq0 hu.symm
    exact List.singleton_sublist.mpr ((postorder_perm u).mem_iff.mpr hmem)
  have hnode : [q, x].Sublist (l.postorder++(r.postorder++[x])) := by
    rcases hq with hq | hq
    · rw [hl, Option.some.injEq] at hq
      exact (hsub l hq).append (List.sublist_append_right _ _)
    · rw [hr, Option.some.injEq] at hq
      have hright : [q, x].Sublist (r.postorder++[x]) :=
        (hsub r hq).append (List.Sublist.refl [x])
      exact hright.trans (List.sublist_append_right _ _)
  rw [postorder_fill, postorder]
  exact (hnode.trans (List.sublist_append_right _ _)).trans (List.sublist_append_left _ _)

/-- The word of a linked node names another node, or none. -/
theorem linked_up (hN : Fit t.inorder) (h : Shape W 0 t) (hx : x ∈ t.inorder) :
    W x .up ≠ some x := by
  obtain ⟨c, l, b, r, hfill, hx0, -, -, hup, -⟩ := shape_at h hx
  have hb := b.bits_le
  have hx8 := hN.aligned x hx
  rw [hup, Ne, Option.some.injEq]
  have hnodup := fit_nodup hN
  rw [hfill, nodup_fill] at hnodup
  rcases owner_mem c with ho | ho
  · omega
  · have ho8 := hN.aligned _ (by rw [hfill, mem_fill]; exact Or.inr ho : owner 0 c ∈ t.inorder)
    have hne : owner 0 c ≠ x := fun he => hnodup.2.2 (by simp [inorder]) (he ▸ ho)
    omega

end Words

section Results

variable {κ : Type} [LinearOrder κ]

/-- Every run ends, with the answers of the run on lists, and leaves other memory alone. -/
theorem runs_match_lists (fuel : ℕ) (hfuel : 88 ≤ fuel) (key : ℕ → κ) (cmp : ℕ → ℕ → ℤ)
    (hc : Compares key cmp) (N : List ℕ) (hN : Fit N) (m : Cells) (ops : List Op)
    (hops : AdmitsAll key N ops ([], [])) :
    ∃ m' root', run fuel cmp ops (m, 0) = some ((m', root'), (listRun key ops ([], [])).2) ∧
      (∃ t, Shape (wordsOf m') 0 t ∧ root' = t.ptr ∧
        t.inorder = (listRun key ops ([], [])).1.1 ∧
        t.inorder.Pairwise (fun x y => key x < key y)) ∧
      ∀ p, (∀ x ∈ N, p < x ∨ x+24 ≤ p) → m' p = m p := by
  obtain ⟨⟨m', root'⟩, t, hrun, h⟩ := run_models hN hc hfuel ops (m, 0) ([], []) .nil
    (models_empty m) hops
  exact ⟨m', root', hrun, ⟨t, h.shape, h.root, h.list, h.list ▸ h.sorted⟩, h.frame⟩

/-- The stored balance factors are the differences of the heights, none is out of range,
and the height is logarithmic: at most 87 in any memory. -/
theorem runs_stay_balanced (fuel : ℕ) (hfuel : 88 ≤ fuel) (key : ℕ → κ) (cmp : ℕ → ℕ → ℤ)
    (hc : Compares key cmp) (N : List ℕ) (hN : Fit N) (m : Cells) (ops : List Op)
    (hops : AdmitsAll key N ops ([], [])) (m' : Cells) (root' : ℕ) (outs : List ℕ)
    (hrun : run fuel cmp ops (m, 0) = some ((m', root'), outs)) :
    ∃ t, Shape (wordsOf m') 0 t ∧ root' = t.ptr ∧
      (∀ c l x b r, t = fill c (.node l x b r) →
        avlGetBalanceFactor m' x = some ((r.height : ℤ)-l.height)) ∧
      Nat.fib (t.height+2) ≤ t.inorder.length+1 ∧ t.height ≤ 87 := by
  obtain ⟨t, h⟩ := run_reached hN hc hfuel ops hops hrun
  refine ⟨t, h.shape, h.root, ?_, fib_height_le t h.balanced, h.height hN⟩
  intro c l x b r hfill
  have hbal := h.balanced
  have ha : Among t.inorder c (.node l x b r) :=
    ⟨h.fit hN, fun z hz => hfill ▸ hz, hfill ▸ fit_nodup (h.fit hN)⟩
  have hholds : Holds t.inorder m' m' root' c (.node l x b r) := by
    rw [← holds_fill, ← hfill]
    exact ⟨fun _ _ => rfl, h.root, h.shape⟩
  rw [hfill, balanced_fill] at hbal
  obtain ⟨-, hlr, -, -⟩ := hbal
  have hfactor := Holds.top (s := .left) hholds ha
  have hb : b.factor = Side.right.excess b := by cases b <;> rfl
  rw [hfactor, hb, Option.some.injEq]
  omega

/-- The loops over a tree see the nodes in the order of their keys, and in the reverse order. -/
theorem runs_traverse (fuel : ℕ) (hfuel : 88 ≤ fuel) (key : ℕ → κ) (cmp : ℕ → ℕ → ℤ)
    (hc : Compares key cmp) (N : List ℕ) (hN : Fit N) (m : Cells) (ops : List Op)
    (hops : AdmitsAll key N ops ([], [])) (m' : Cells) (root' : ℕ) (outs : List ℕ)
    (hrun : run fuel cmp ops (m, 0) = some ((m', root'), outs)) (n : ℕ)
    (hn : (listRun key ops ([], [])).1.1.length < n) :
    avlTreeForEachInOrder fuel m' 1 n root' = some (listRun key ops ([], [])).1.1 ∧
      avlTreeForEachInOrder fuel m' (-1) n root' =
        some (listRun key ops ([], [])).1.1.reverse := by
  obtain ⟨t, h⟩ := run_reached hN hc hfuel ops hops hrun
  have hheight := h.height hN
  have ha := h.among hN
  have hholds := h.holds
  rw [← h.list] at hn ⊢
  exact ⟨forEach_spec .right hholds ha (by omega) hn, forEach_spec .left hholds ha (by omega) hn⟩

/-- The postorder loop sees every node once and after its children, also when its body frees
or reuses the nodes it has seen. -/
theorem runs_postorder (fuel : ℕ) (hfuel : 88 ≤ fuel) (key : ℕ → κ) (cmp : ℕ → ℕ → ℤ)
    (hc : Compares key cmp) (N : List ℕ) (hN : Fit N) (m : Cells) (ops : List Op)
    (hops : AdmitsAll key N ops ([], [])) (m' : Cells) (root' : ℕ) (outs : List ℕ)
    (hrun : run fuel cmp ops (m, 0) = some ((m', root'), outs)) (n : ℕ)
    (hn : (listRun key ops ([], [])).1.1.length < n) :
    ∃ vs, vs.Perm (listRun key ops ([], [])).1.1 ∧
      (∀ x ∈ vs, ∀ q, left m' x = some q ∨ right m' x = some q → q ≠ 0 → [q, x].Sublist vs) ∧
      ∀ body, Spares body vs →
        avlTreeForEachInPostorder fuel m' body n root' = some (vs, vs.foldl body m') := by
  obtain ⟨t, h⟩ := run_reached hN hc hfuel ops hops hrun
  have hheight := h.height hN
  have ha := h.among hN
  have hholds := h.holds
  rw [← h.list] at hn ⊢
  refine ⟨t.postorder, postorder_perm t, ?_, fun body hb =>
    forEachPost_spec hholds ha (by omega) hb hn⟩
  intro x hx q hq hq0
  exact child_before h.shape ((postorder_perm t).mem_iff.mp hx) hq hq0

/-- A node of the tree is never taken for unlinked, and a mark lasts until the node is inserted. -/
theorem runs_marks (fuel : ℕ) (hfuel : 88 ≤ fuel) (key : ℕ → κ) (cmp : ℕ → ℕ → ℤ)
    (hc : Compares key cmp) (N : List ℕ) (hN : Fit N) (m : Cells) (ops : List Op)
    (hops : AdmitsAll key N ops ([], [])) (m' : Cells) (root' : ℕ) (outs : List ℕ)
    (hrun : run fuel cmp ops (m, 0) = some ((m', root'), outs)) :
    (∀ x ∈ (listRun key ops ([], [])).1.1, avlTreeNodeIsUnlinked m' x = some false) ∧
      ∀ x ∈ (listRun key ops ([], [])).1.2, avlTreeNodeIsUnlinked m' x = some true := by
  obtain ⟨t, h⟩ := run_reached hN hc hfuel ops hops hrun
  constructor
  · intro x hx
    rw [← h.list] at hx
    obtain ⟨c, l, b, r, -, -, -, -, hup, -⟩ := shape_at h.shape hx
    have hne := linked_up (h.fit hN) h.shape hx
    have hword : parentBalance m' x = some (owner 0 c+b.bits) := hup
    rw [hup, Ne, Option.some.injEq] at hne
    rw [avlTreeNodeIsUnlinked, hword, Option.map_some, beq_eq_false_iff_ne.mpr hne]
  · intro x hx
    obtain ⟨-, -, hmark⟩ := h.marks x hx
    rw [avlTreeNodeIsUnlinked, hmark, Option.map_some, beq_self_eq_true]

end Results

section Examples

def threeNodes : List ℕ := [64, 128, 192]

/-- Among them a node that is marked after its removal. -/
def fewCalls : List Op :=
  [.insert 64, .insert 128, .insert 192, .remove 128, .setUnlinked 128, .lookup 64]

theorem threeNodes_fit : Fit threeNodes := by
  refine ⟨by decide, by decide, ?_⟩
  simp [threeNodes]

theorem compares_addresses : Compares (fun x : ℕ => x) (fun x y => (x : ℤ)-y) :=
  ⟨fun x y => by omega, fun x y => by omega⟩

theorem fewCalls_admitted : AdmitsAll (fun x : ℕ => x) threeNodes fewCalls ([], []) := by
  refine ⟨⟨by decide, by decide, by decide⟩, ⟨by decide, by decide, by decide⟩,
    ⟨by decide, by decide, by decide⟩, ?_, ⟨by decide, ?_⟩, trivial, trivial⟩
  · simp [Admits, listStep, equalTo]
  · simp [listStep, equalTo]

theorem fewCalls_run : ∃ m' root' outs,
    run 88 (fun x y => (x : ℤ)-y) fewCalls (fun _ => none, 0) = some ((m', root'), outs) := by
  obtain ⟨⟨m', root'⟩, t, hrun, -⟩ := run_models threeNodes_fit compares_addresses (le_refl 88)
    fewCalls _ _ .nil (models_empty (fun _ => none)) fewCalls_admitted
  exact ⟨m', root', _, hrun⟩

theorem runs_match_lists_few : ∃ m' root',
    run 88 (fun x y => (x : ℤ)-y) fewCalls (fun _ => none, 0) =
      some ((m', root'), (listRun (fun x : ℕ => x) fewCalls ([], [])).2) ∧
    (∃ t, Shape (wordsOf m') 0 t ∧ root' = t.ptr ∧
      t.inorder = (listRun (fun x : ℕ => x) fewCalls ([], [])).1.1 ∧
      t.inorder.Pairwise (fun x y => x < y)) ∧
    ∀ p, (∀ x ∈ threeNodes, p < x ∨ x+24 ≤ p) → m' p = none :=
  runs_match_lists 88 (le_refl 88) (fun x : ℕ => x) _ compares_addresses threeNodes threeNodes_fit
    (fun _ => none) fewCalls fewCalls_admitted

theorem runs_stay_balanced_few : ∃ m' root' t, Shape (wordsOf m') 0 t ∧ root' = t.ptr ∧
    (∀ c l x b r, t = fill c (.node l x b r) →
      avlGetBalanceFactor m' x = some ((r.height : ℤ)-l.height)) ∧
    Nat.fib (t.height+2) ≤ t.inorder.length+1 ∧ t.height ≤ 87 := by
  obtain ⟨m', root', outs, hrun⟩ := fewCalls_run
  exact ⟨m', root', runs_stay_balanced 88 (le_refl 88) (fun x : ℕ => x) _ compares_addresses
    threeNodes threeNodes_fit (fun _ => none) fewCalls fewCalls_admitted m' root' outs hrun⟩

theorem runs_traverse_few : ∃ m' root',
    avlTreeForEachInOrder 88 m' 1 3 root' = some [64, 192] ∧
      avlTreeForEachInOrder 88 m' (-1) 3 root' = some [192, 64] := by
  obtain ⟨m', root', outs, hrun⟩ := fewCalls_run
  have hlist : (listRun (fun x : ℕ => x) fewCalls ([], [])).1.1 = [64, 192] := by
    simp [listRun, fewCalls, listStep, equalTo]
  have htraverse := runs_traverse 88 (le_refl 88) (fun x : ℕ => x) _ compares_addresses threeNodes
    threeNodes_fit (fun _ => none) fewCalls fewCalls_admitted m' root' outs hrun 3
    (by rw [hlist]; decide)
  rw [hlist] at htraverse
  exact ⟨m', root', htraverse⟩

theorem runs_postorder_few : ∃ m' root' vs, vs.Perm [64, 192] ∧
    (∀ x ∈ vs, ∀ q, left m' x = some q ∨ right m' x = some q → q ≠ 0 → [q, x].Sublist vs) ∧
    ∀ body, Spares body vs →
      avlTreeForEachInPostorder 88 m' body 3 root' = some (vs, vs.foldl body m') := by
  obtain ⟨m', root', outs, hrun⟩ := fewCalls_run
  have hlist : (listRun (fun x : ℕ => x) fewCalls ([], [])).1.1 = [64, 192] := by
    simp [listRun, fewCalls, listStep, equalTo]
  have hpost := runs_postorder 88 (le_refl 88) (fun x : ℕ => x) _ compares_addresses threeNodes
    threeNodes_fit (fun _ => none) fewCalls fewCalls_admitted m' root' outs hrun 3
    (by rw [hlist]; decide)
  rw [hlist] at hpost
  exact ⟨m', root', hpost⟩

theorem runs_marks_few : ∃ m', avlTreeNodeIsUnlinked m' 64 = some false ∧
    avlTreeNodeIsUnlinked m' 128 = some true := by
  obtain ⟨m', root', outs, hrun⟩ := fewCalls_run
  obtain ⟨hlinked, hmarked⟩ := runs_marks 88 (le_refl 88) (fun x : ℕ => x) _ compares_addresses
    threeNodes threeNodes_fit (fun _ => none) fewCalls fewCalls_admitted m' root' outs hrun
  exact ⟨m', hlinked 64 (by simp [listRun, fewCalls, listStep, equalTo]),
    hmarked 128 (by simp [listRun, fewCalls, listStep, equalTo])⟩

end Examples

end BruhOS.AvlTree
