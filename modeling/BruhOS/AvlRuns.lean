import Mathlib.Data.List.Sort
import Mathlib.Tactic.NormNum.NatFib
import BruhOS.AvlTraverse

/-!
# The library as an ordered list

In 64-bit memory no balanced tree is taller than 87, so every loop of the
library ends after that many steps. From the empty tree, a run of insertions,
removals, lookups and marks does to memory what the same run does to a list in
the order of the keys.
-/

set_option autoImplicit false

namespace BruhOS.AvlTree
open PointerTree BalancedTree HTree

section Count

variable {N xs : List ℕ} {m₀ m : Cells} {root x : ℕ} {c : List (Frame ℕ)} {t : HTree ℕ}

theorem fit_nodup (h : Fit xs) : xs.Nodup :=
  h.apart.imp (fun hxy he => by omega)

theorem fit_subset (hN : Fit N) (hn : xs.Nodup) (hs : ∀ x ∈ xs, x ∈ N) : Fit xs := by
  refine ⟨fun x hx => hN.aligned x (hs x hx), fun x hx => hN.bounded x (hs x hx), ?_⟩
  exact hn.pairwise_of_forall_ne
    (fun x hx y hy hne => fit_apart hN (hs x hx) (hs y hy) hne)

/-- Memory has room for no more than so many nodes. -/
theorem fit_length (h : Fit xs) : xs.length ≤ 2^61 := by
  have hnodup : (xs.map (fun x => x/8)).Nodup := by
    apply List.Nodup.map_on _ (fit_nodup h)
    intro x hx y hy hxy
    have := h.aligned x hx
    have := h.aligned y hy
    omega
  have hsub : (xs.map (fun x => x/8)).toFinset ⊆ Finset.range (2^61) := by
    intro z hz
    simp only [List.mem_toFinset, List.mem_map] at hz
    obtain ⟨x, hx, rfl⟩ := hz
    have := h.bounded x hx
    rw [Finset.mem_range]
    omega
  have hcard := Finset.card_le_card hsub
  rwa [List.toFinset_card_of_nodup hnodup, List.length_map, Finset.card_range] at hcard

/-- No balanced tree in memory is taller than 87. -/
theorem height_le (hN : Fit t.inorder) (hb : t.IsAvl) : t.height ≤ 87 := by
  by_contra hlt
  have hfib := fib_height_le t hb
  have hlen := fit_length hN
  have hmono : Nat.fib 90 ≤ Nat.fib (t.height+2) := Nat.fib_mono (by omega)
  have h90 : Nat.fib 90 = 2880067194370816120 := by norm_num
  omega

end Count

section Library

variable {m : Cells}

theorem rep_of_shape (t : HTree ℕ) (P : ℕ) (h : Shape (wordsOf m) P t) :
    Rep m P t.ptr (erase t) := by
  induction t generalizing P with
  | nil => rfl
  | node l x b r ihl ihr =>
    obtain ⟨hx, hl, hr, hu, hL, hR⟩ := h
    exact ⟨rfl, hx, l.ptr, r.ptr, b.bits, b.bits_le, hl, hr, hu, ihl x hL, ihr x hR⟩

/-- The functions behind the region tree. -/
def library (fuel : ℕ) : Avl where
  rebalance m root x := (avlTreeRebalanceAfterInsert fuel m root x).getD (m, root)
  remove m root x := (avlTreeRemove fuel m root x).getD (m, root)
  Kept m root T := ∃ t, erase t = T ∧ t.IsAvl ∧ root = t.ptr ∧ Shape (wordsOf m) 0 t

/-- The balancing is what the users of the library rely on. -/
theorem library_spec {fuel : ℕ} (hfuel : 87 ≤ fuel) : (library fuel).Correct where
  kept_nil m := ⟨.nil, rfl, trivial, rfl, trivial⟩
  kept_congr := by
    rintro m m' root T hm ⟨t, rfl, hb, hroot, ht⟩
    refine ⟨t, rfl, hb, hroot, (shape_congr t 0 (fun x hx => ?_)).mpr ht⟩
    rw [inorder_erase] at hm
    funext f
    have hoff : f.off ≤ 16 := by cases f <;> simp [Field.off]
    exact load64_congr (hm x hx _ (by omega) (by omega)) (hm x hx _ (by omega) (by omega))
  insert := by
    rintro m root T cmp y pl - ⟨t, rfl, hb, hroot, ht⟩ hy hfit hfind
    rw [inorder_erase] at hfit
    obtain ⟨p, rfl, rfl, hins⟩ := find_path t .root hfind
    have hnodup := fit_nodup hfit
    have ha : Among (y::(fill p .nil).inorder) p (.node .nil y .level .nil) := by
      have hperm : (fill p (.node .nil y .level .nil)).inorder.Perm (y::(fill p .nil).inorder) :=
        (fill_perm p _).trans ((fill_perm p .nil).symm.cons y)
      exact ⟨hfit, fun z hz => hperm.mem_iff.mp hz, hperm.nodup_iff.mpr hnodup⟩
    have hholds : Holds (y::(fill p .nil).inorder) m m root p .nil :=
      (holds_fill p .nil).mp ⟨fun _ _ => rfl, hroot, ht⟩
    obtain ⟨hfits, -⟩ := (balanced_fill p .nil).mp hb
    have hheight := height_le (fit_subset hfit (List.nodup_cons.mp hnodup).2 (by simp +contextual))
      hb
    have hdepth := length_le_height p (.nil : HTree ℕ)
    obtain ⟨m', root', heq, h'⟩ := rebalance_spec hholds ha hy hfits (show _ ≤ fuel by omega)
    have hgrow := grow_balanced p (.node .nil y .level .nil) hfits (by simp [IsAvl, height])
      rfl (fun _ => rfl)
    have hreb : (library fuel).rebalance (link m root (placeOf .root p) y).1
        (link m root (placeOf .root p) y).2 y = (m', root') := by
      change (avlTreeRebalanceAfterInsert fuel _ _ y).getD _ = _
      rw [heq, Option.getD_some]
    rw [hreb]
    refine ⟨erase (grow p (.node .nil y .level .nil)), ?_, ⟨_, rfl, hgrow, h'.path, h'.shape⟩, ?_,
      ?_⟩
    · have hrep := rep_of_shape _ 0 h'.shape
      rwa [← show root' = _ from h'.path] at hrep
    · rw [inorder_erase, grow_inorder, ← inorder_erase, hins]
    · intro a ha'
      rw [inorder_erase] at ha'
      exact h'.frame a ha'

end Library

section Search

variable {m : Cells} {c : ℕ → ℤ} {cmp : ℕ → Option ℤ} {fuel : ℕ}

/-- A search of a held tree compares once at each level. -/
theorem walk_spec (t : HTree ℕ) {P : ℕ} (pl : Place) (h : Shape (wordsOf m) P t)
    (hcmp : ∀ x ∈ t.inorder, cmp x = some (c x)) (hfuel : t.height < fuel) :
    walk cmp m fuel pl t.ptr = some ((erase t).find c pl) := by
  induction t generalizing P pl fuel with
  | nil =>
    obtain ⟨fuel, rfl⟩ : ∃ n, fuel = n+1 := ⟨fuel-1, by omega⟩
    rfl
  | node l x b r ihl ihr =>
    obtain ⟨hx, hl, hr, -, hL, hR⟩ := h
    have hleft : load64 m x = some l.ptr := hl
    have hright : load64 m (x+8) = some r.ptr := hr
    obtain ⟨fuel, rfl⟩ : ∃ n, fuel = n+1 := ⟨fuel-1, by omega⟩
    rw [height] at hfuel
    have hgoL := ihl (.left x) hL (fun y hy => hcmp y (by simp [inorder, hy]))
      (show _ < fuel by omega)
    have hgoR := ihr (.right x) hR (fun y hy => hcmp y (by simp [inorder, hy]))
      (show _ < fuel by omega)
    change walk cmp m (fuel+1) pl x = _
    simp only [walk, hx, if_false, hcmp x (by simp [inorder]), hleft, hright, Option.bind_some,
      hgoL, hgoR, erase, NodeTree.find]
    split_ifs <;> rfl

theorem seek_spec (t : HTree ℕ) {P : ℕ} (pl : Place) (h : Shape (wordsOf m) P t)
    (hcmp : ∀ x ∈ t.inorder, cmp x = some (c x)) (hfuel : t.height < fuel) :
    seek cmp m fuel t.ptr = some (((erase t).find c pl).elim id (fun _ => 0)) := by
  induction t generalizing P pl fuel with
  | nil =>
    obtain ⟨fuel, rfl⟩ : ∃ n, fuel = n+1 := ⟨fuel-1, by omega⟩
    rfl
  | node l x b r ihl ihr =>
    obtain ⟨hx, hl, hr, -, hL, hR⟩ := h
    have hleft : load64 m x = some l.ptr := hl
    have hright : load64 m (x+8) = some r.ptr := hr
    obtain ⟨fuel, rfl⟩ : ∃ n, fuel = n+1 := ⟨fuel-1, by omega⟩
    rw [height] at hfuel
    have hgoL := ihl (.left x) hL (fun y hy => hcmp y (by simp [inorder, hy]))
      (show _ < fuel by omega)
    have hgoR := ihr (.right x) hR (fun y hy => hcmp y (by simp [inorder, hy]))
      (show _ < fuel by omega)
    change seek cmp m (fuel+1) x = _
    simp only [seek, hx, if_false, hcmp x (by simp [inorder]), hleft, hright, Option.bind_some,
      hgoL, hgoR, erase, NodeTree.find]
    split_ifs <;> rfl

end Search

section Machine

variable {κ : Type} [LinearOrder κ]

/-- What the source asks of a comparison callback. -/
structure Compares (key : ℕ → κ) (cmp : ℕ → ℕ → ℤ) : Prop where
  lt : ∀ x y, cmp x y < 0 ↔ key x < key y
  gt : ∀ x y, 0 < cmp x y ↔ key y < key x

inductive Op where
  | insert (item : ℕ)
  | remove (node : ℕ)
  | lookup (node : ℕ)
  | setUnlinked (node : ℕ)
  deriving DecidableEq, Repr

/-- A call on the memory and the root pointer, and the pointer it returns. -/
def step (fuel : ℕ) (cmp : ℕ → ℕ → ℤ) (s : Cells × ℕ) : Op → Option ((Cells × ℕ) × ℕ)
  | .insert x => (avlTreeInsert fuel (fun q => some (cmp x q)) s.1 s.2 x).map
      (fun r => ((r.1, r.2.1), r.2.2))
  | .remove x => (avlTreeRemove fuel s.1 s.2 x).map (fun s => (s, 0))
  | .lookup x => (avlTreeLookup fuel (fun q => some (cmp x q)) s.1 s.2).map (fun q => (s, q))
  | .setUnlinked x => some ((avlTreeNodeSetUnlinked s.1 x, s.2), 0)

def run (fuel : ℕ) (cmp : ℕ → ℕ → ℤ) : List Op → Cells × ℕ → Option ((Cells × ℕ) × List ℕ)
  | [], s => some (s, [])
  | op::ops, s => do
    let (s, out) ← step fuel cmp s op
    let (s, outs) ← run fuel cmp ops s
    return (s, out::outs)

/-- The nodes in the order of their keys, and the nodes marked as unlinked. -/
abbrev Lists := List ℕ × List ℕ

def equalTo (key : ℕ → κ) (L : List ℕ) (x : ℕ) : Option ℕ :=
  L.find? (fun y => decide (key y = key x))

def listStep (key : ℕ → κ) (s : Lists) : Op → Lists × ℕ
  | .insert x =>
    match equalTo key s.1 x with
    | some y => (s, y)
    | none => ((s.1.orderedInsert (fun a b => key a ≤ key b) x, s.2.filter (fun y => y ≠ x)), 0)
  | .remove x => ((s.1.erase x, s.2), 0)
  | .lookup x => (s, (equalTo key s.1 x).getD 0)
  | .setUnlinked x => ((s.1, x::s.2), 0)

def listRun (key : ℕ → κ) : List Op → Lists → Lists × List ℕ
  | [], s => (s, [])
  | op::ops, s =>
    let r := listStep key s op
    let rs := listRun key ops r.1
    (rs.1, r.2::rs.2)

/-- A node that is inserted or marked is not in the tree, one that is removed is. -/
def Admits (N : List ℕ) (s : Lists) : Op → Prop
  | .insert x => x ∈ N ∧ x ≠ 0 ∧ x ∉ s.1
  | .remove x => x ∈ s.1
  | .lookup _ => True
  | .setUnlinked x => x ∈ N ∧ x ∉ s.1

def AdmitsAll (key : ℕ → κ) (N : List ℕ) : List Op → Lists → Prop
  | [], _ => True
  | op::ops, s => Admits N s op ∧ AdmitsAll key N ops (listStep key s op).1

/-- Memory and root pointer hold a balanced tree of the listed nodes, and the marked nodes their
marks; what is not a node is as it was. -/
structure Models (key : ℕ → κ) (N : List ℕ) (m₀ : Cells) (s : Cells × ℕ) (a : Lists)
    (t : HTree ℕ) : Prop where
  root : s.2 = t.ptr
  shape : Shape (wordsOf s.1) 0 t
  balanced : t.IsAvl
  list : t.inorder = a.1
  sorted : a.1.Pairwise (fun x y => key x < key y)
  pool : ∀ x ∈ a.1, x ∈ N
  marks : ∀ x ∈ a.2, x ∈ N ∧ x ∉ a.1 ∧ parentBalance s.1 x = some x
  frame : ∀ p, (∀ x ∈ N, p < x ∨ x+24 ≤ p) → s.1 p = m₀ p

variable {key : ℕ → κ} {cmp : ℕ → ℕ → ℤ} {N L xs : List ℕ} {m m' m₀ : Cells} {s : Cells × ℕ}
  {a : Lists} {t : HTree ℕ} {x y : ℕ} {fuel : ℕ}

/-- A node that is none of the nodes written to keeps its words. -/
theorem row_kept (hN : Fit N) (hs : ∀ z ∈ xs, z ∈ N) (hy : y ∈ N) (hyx : y ∉ xs)
    (hm : ∀ p, (∀ z ∈ xs, p < z ∨ z+24 ≤ p) → m' p = m p) : wordsOf m' y = wordsOf m y := by
  have hcell : ∀ p, y ≤ p → p < y+24 → m' p = m p := by
    intro p h1 h2
    apply hm p
    intro z hz
    have := fit_apart hN hy (hs z hz) (fun he => hyx (he ▸ hz))
    omega
  funext f
  have hoff : f.off ≤ 16 := by cases f <;> simp [Field.off]
  exact load64_congr (hcell _ (by omega) (by omega)) (hcell _ (by omega) (by omega))

theorem equalTo_eq (h : L.Pairwise (fun x y => key x < key y)) (hy : y ∈ L) (hk : key y = key x) :
    equalTo key L x = some y := by
  induction L with
  | nil => exact absurd hy (by simp)
  | cons z L ih =>
    rw [List.pairwise_cons] at h
    rw [equalTo, List.find?_cons]
    rcases List.mem_cons.mp hy with rfl | hy
    · simp [hk]
    · have hlt := h.1 y hy
      rw [hk] at hlt
      simp only [hlt.ne, decide_false]
      exact ih h.2 hy

theorem orderedInsert_split (ys zs : List ℕ) (hy : ∀ y ∈ ys, key y < key x)
    (hz : ∀ z ∈ zs, key x < key z) :
    (ys++zs).orderedInsert (fun a b => key a ≤ key b) x = ys++x::zs := by
  induction ys with
  | nil =>
    cases zs with
    | nil => rfl
    | cons z zs => exact List.orderedInsert_cons_of_le _ _ (hz z (by simp)).le
  | cons y ys ih =>
    have hlt := hy y (by simp)
    rw [List.cons_append, List.orderedInsert_cons, if_neg (not_le.mpr hlt),
      ih (fun z hz' => hy z (by simp [hz']))]
    rfl

/-- What a search of a sorted tree says of the list. -/
theorem find_list (hc : Compares key cmp) (T : NodeTree)
    (hs : T.inorder.Pairwise (fun x y => key x < key y)) :
    (∀ q, T.find (cmp x) .root = .inl q → equalTo key T.inorder x = some q) ∧
      ∀ pl, T.find (cmp x) .root = .inr pl → equalTo key T.inorder x = none ∧
        (T.insert (cmp x) x).inorder =
          T.inorder.orderedInsert (fun a b => key a ≤ key b) x := by
  constructor
  · intro q hq
    obtain ⟨hmem, hzero⟩ := find_mem T _ hq
    apply equalTo_eq hs hmem
    have hlt := hc.lt x q
    have hgt := hc.gt x q
    rw [hzero] at hlt hgt
    exact le_antisymm (not_lt.mp (fun h => absurd (hlt.mpr h) (by omega)))
      (not_lt.mp (fun h => absurd (hgt.mpr h) (by omega)))
  · intro pl hpl
    obtain ⟨ys, zs, hL, hins, hy, hz⟩ := insert_inorder T x hpl hs
      (fun u _ v _ hu huv => (hc.lt x v).mpr (((hc.lt x u).mp hu).trans huv))
      (fun u _ v _ hu huv => (hc.gt x v).mpr (huv.trans ((hc.gt x u).mp hu)))
    refine ⟨?_, ?_⟩
    · rw [equalTo, List.find?_eq_none]
      intro u hu
      rw [hL, List.mem_append] at hu
      rw [decide_eq_true_iff]
      rcases hu with hu | hu
      · exact ((hc.gt x u).mp (hy u hu)).ne
      · exact ((hc.lt x u).mp (hz u hu)).ne'
    · rw [hins, hL, orderedInsert_split ys zs (fun u hu => (hc.gt x u).mp (hy u hu))
        (fun u hu => (hc.lt x u).mp (hz u hu))]

theorem Models.fit (h : Models key N m₀ s a t) (hN : Fit N) : Fit t.inorder := by
  apply fit_subset hN
  · rw [h.list]
    apply h.sorted.imp
    intro u v hlt he
    rw [he] at hlt
    exact lt_irrefl _ hlt
  · rw [h.list]
    exact h.pool

theorem Models.height (h : Models key N m₀ s a t) (hN : Fit N) : t.height ≤ 87 :=
  height_le (h.fit hN) h.balanced

/-- A result of the library that writes to some nodes of the pool only. -/
theorem Models.update {a' : Lists} {t' : HTree ℕ} {root' : ℕ} (h : Models key N m₀ s a t)
    (hN : Fit N) (hx : ∀ z ∈ xs, z ∈ N) (h' : Holds xs s.1 m' root' [] t') (hb : t'.IsAvl)
    (hl : t'.inorder = a'.1) (hs : a'.1.Pairwise (fun x y => key x < key y))
    (hp : ∀ z ∈ a'.1, z ∈ N) (hm : ∀ z ∈ a'.2, z ∈ a.2 ∧ z ∉ a'.1 ∧ z ∉ xs) :
    Models key N m₀ (m', root') a' t' := by
  refine ⟨h'.path, h'.shape, hb, hl, hs, hp, ?_, ?_⟩
  · intro z hz
    obtain ⟨hza, hzl, hzx⟩ := hm z hz
    obtain ⟨hzN, -, hmark⟩ := h.marks z hza
    have hrow := row_kept hN hx hzN hzx h'.frame
    exact ⟨hzN, hzl, (congrFun hrow .up).trans hmark⟩
  · intro p hp'
    exact (h'.frame p (fun z hz => hp' z (hx z hz))).trans (h.frame p hp')

theorem step_insert (h : Models key N m₀ s a t) (hN : Fit N) (hc : Compares key cmp)
    (hfuel : 88 ≤ fuel) (hx : Admits N a (.insert x)) :
    ∃ s' t', step fuel cmp s (.insert x) = some (s', (listStep key a (.insert x)).2) ∧
      Models key N m₀ s' (listStep key a (.insert x)).1 t' := by
  obtain ⟨hxN, hx0, hxL⟩ := hx
  have hheight := h.height hN
  have hsorted := h.sorted
  rw [← h.list, ← inorder_erase] at hsorted
  have hwalk : walk (fun q => some (cmp x q)) s.1 fuel .root t.ptr =
      some ((erase t).find (cmp x) .root) :=
    walk_spec t .root h.shape (fun _ _ => rfl) (by omega)
  rw [← h.root] at hwalk
  obtain ⟨hinl, hinr⟩ := find_list (x := x) hc (erase t) hsorted
  rw [inorder_erase, h.list] at hinl hinr
  cases hfind : (erase t).find (cmp x) .root with
  | inl q =>
    have heq := hinl q hfind
    refine ⟨s, t, ?_, ?_⟩
    · simp [step, avlTreeInsert, hwalk, hfind, listStep, heq]
    · simp only [listStep, heq]
      exact h
  | inr pl =>
    obtain ⟨hnone, hins⟩ := hinr pl hfind
    obtain ⟨p, hfill, hpl, herase⟩ := find_path t .root hfind
    have htN : ∀ z ∈ x::t.inorder, z ∈ N := by
      intro z hz
      rcases List.mem_cons.mp hz with rfl | hz
      · exact hxN
      · exact h.pool z (h.list ▸ hz)
    have hnodup : (x::t.inorder).Nodup :=
      List.nodup_cons.mpr ⟨by rw [h.list]; exact hxL, fit_nodup (h.fit hN)⟩
    have ha : Among (x::t.inorder) p (.node .nil x .level .nil) := by
      have hperm : (fill p (.node .nil x .level .nil)).inorder.Perm (x::t.inorder) := by
        rw [hfill]
        exact (fill_perm p _).trans ((fill_perm p .nil).symm.cons x)
      exact ⟨fit_subset hN hnodup htN, fun z hz => hperm.mem_iff.mp hz,
        hperm.nodup_iff.mpr hnodup⟩
    have hholds : Holds (x::t.inorder) s.1 s.1 s.2 p .nil := by
      rw [← holds_fill, ← hfill]
      exact ⟨fun _ _ => rfl, h.root, h.shape⟩
    have hbal := h.balanced
    rw [hfill] at hbal hheight
    obtain ⟨hfits, -⟩ := (balanced_fill p .nil).mp hbal
    have hdepth := length_le_height p (.nil : HTree ℕ)
    obtain ⟨m', root', heq, h'⟩ := rebalance_spec hholds ha hx0 hfits (show _ ≤ fuel by omega)
    have hgrow := grow_balanced p (.node .nil x .level .nil) hfits (by simp [IsAvl, height])
      rfl (fun _ => rfl)
    have horder : (grow p (.node .nil x .level .nil)).inorder =
        a.1.orderedInsert (fun a b => key a ≤ key b) x := by
      rw [grow_inorder, ← inorder_erase, herase, hins]
    have hperm : (a.1.orderedInsert (fun a b => key a ≤ key b) x).Perm (x::a.1) :=
      List.perm_orderedInsert _ _ _
    refine ⟨(m', root'), grow p (.node .nil x .level .nil), ?_, ?_⟩
    · rw [← hpl] at heq
      simp [step, avlTreeInsert, hwalk, hfind, listStep, hnone, heq]
    · simp only [listStep, hnone]
      refine h.update hN htN h' hgrow horder ?_ ?_ ?_
      · obtain ⟨ys, zs, hL, hins', hy, hz⟩ := insert_inorder (erase t) x hfind hsorted
          (fun u _ v _ hu huv => (hc.lt x v).mpr (((hc.lt x u).mp hu).trans huv))
          (fun u _ v _ hu huv => (hc.gt x v).mpr (huv.trans ((hc.gt x u).mp hu)))
        rw [← hins, hins']
        rw [hL, List.pairwise_append] at hsorted
        rw [List.pairwise_append, List.pairwise_cons]
        refine ⟨hsorted.1, ⟨fun z hz' => (hc.lt x z).mp (hz z hz'), hsorted.2.1⟩, ?_⟩
        intro u hu v hv
        rcases List.mem_cons.mp hv with rfl | hv
        · exact (hc.gt v u).mp (hy u hu)
        · exact hsorted.2.2 u hu v hv
      · intro z hz
        rcases List.mem_cons.mp (hperm.mem_iff.mp hz) with rfl | hz
        · exact hxN
        · exact h.pool z hz
      · intro z hz
        rw [List.mem_filter, decide_eq_true_iff] at hz
        have hzL := (h.marks z hz.1).2.1
        have hznot : z ∉ x::a.1 := by
          rw [List.mem_cons, not_or]
          exact ⟨hz.2, hzL⟩
        exact ⟨hz.1, fun hm => hznot (hperm.mem_iff.mp hm), by rw [h.list]; exact hznot⟩

theorem step_remove (h : Models key N m₀ s a t) (hN : Fit N) (hfuel : 88 ≤ fuel)
    (hx : Admits N a (.remove x)) :
    ∃ s' t', step fuel cmp s (.remove x) = some (s', (listStep key a (.remove x)).2) ∧
      Models key N m₀ s' (listStep key a (.remove x)).1 t' := by
  have hheight := h.height hN
  have hxt : x ∈ t.inorder := h.list ▸ hx
  obtain ⟨c, l, b, r, hfill⟩ := exists_path t hxt
  have htN : ∀ z ∈ t.inorder, z ∈ N := fun z hz => h.pool z (h.list ▸ hz)
  have hnodup := fit_nodup (h.fit hN)
  have ha : Among t.inorder c (.node l x b r) :=
    ⟨h.fit hN, fun z hz => hfill ▸ hz, hfill ▸ hnodup⟩
  have hholds : Holds t.inorder s.1 s.1 s.2 c (.node l x b r) := by
    rw [← holds_fill, ← hfill]
    exact ⟨fun _ _ => rfl, h.root, h.shape⟩
  have hbal := h.balanced
  rw [hfill] at hbal hheight
  obtain ⟨m', root', heq, h'⟩ := remove_spec hholds ha hbal (show _ ≤ fuel by omega)
  have hlist : (remove c l b r).inorder = a.1.erase x := by
    have hL := h.list
    rw [hfill, inorder_fill, inorder] at hL
    rw [hfill, inorder_fill, inorder] at hnodup
    have hxb : x ∉ before c++l.inorder := by
      intro hm
      have hd := (List.nodup_append'.mp (by simpa using hnodup :
        (before c++l.inorder++x::(r.inorder++after c)).Nodup)).2.2
      exact hd hm (by simp)
    rw [remove_inorder, ← hL]
    have hassoc : before c++(l.inorder++x::r.inorder)++after c =
        (before c++l.inorder)++x::(r.inorder++after c) := by simp
    rw [hassoc, List.erase_append_right _ hxb, List.erase_cons_head]
    simp
  have hsub : (a.1.erase x).Sublist a.1 := List.erase_sublist
  refine ⟨(m', root'), remove c l b r, by simp [step, heq, listStep], ?_⟩
  refine h.update hN htN h' (remove_balanced hbal) hlist (h.sorted.sublist hsub)
    (fun z hz => h.pool z (hsub.subset hz)) ?_
  intro z hz
  have hzL := (h.marks z hz).2.1
  exact ⟨hz, fun hm => hzL (hsub.subset hm), by rw [h.list]; exact hzL⟩

theorem step_lookup (h : Models key N m₀ s a t) (hN : Fit N) (hc : Compares key cmp)
    (hfuel : 88 ≤ fuel) :
    step fuel cmp s (.lookup x) = some (s, (listStep key a (.lookup x)).2) := by
  have hheight := h.height hN
  have hsorted := h.sorted
  rw [← h.list, ← inorder_erase] at hsorted
  have hseek : seek (fun q => some (cmp x q)) s.1 fuel t.ptr =
      some (((erase t).find (cmp x) .root).elim id (fun _ => 0)) :=
    seek_spec t .root h.shape (fun _ _ => rfl) (by omega)
  rw [← h.root] at hseek
  obtain ⟨hinl, hinr⟩ := find_list (x := x) hc (erase t) hsorted
  rw [inorder_erase, h.list] at hinl hinr
  rw [step, avlTreeLookup, hseek, listStep]
  cases hfind : (erase t).find (cmp x) .root with
  | inl q => simp [hinl q hfind]
  | inr pl => simp [(hinr pl hfind).1]

theorem step_setUnlinked (h : Models key N m₀ s a t) (hN : Fit N)
    (hx : Admits N a (.setUnlinked x)) :
    Models key N m₀ (avlTreeNodeSetUnlinked s.1 x, s.2) (listStep key a (.setUnlinked x)).1 t := by
  obtain ⟨hxN, hxL⟩ := hx
  have hframe : ∀ p, (∀ z ∈ [x], p < z ∨ z+24 ≤ p) → avlTreeNodeSetUnlinked s.1 x p = s.1 p := by
    intro p hp
    have := hp x (by simp)
    exact store64_of_ne (by omega) (by omega)
  have hrow : ∀ z ∈ N, z ≠ x → wordsOf (avlTreeNodeSetUnlinked s.1 x) z = wordsOf s.1 z :=
    fun z hz hne => row_kept hN (by simpa using hxN) hz (by simpa using hne) hframe
  have hlist := h.list
  refine ⟨h.root, ?_, h.balanced, hlist, h.sorted, h.pool, ?_, ?_⟩
  · apply (shape_congr t 0 _).mpr h.shape
    intro z hz
    rw [hlist] at hz
    exact hrow z (h.pool z hz) (fun he => hxL (he ▸ hz))
  · intro z hz
    have hx8 := hN.bounded x hxN
    by_cases hzx : z = x
    · rw [hzx]
      exact ⟨hxN, hxL, load64_store64 (by omega)⟩
    · have hza : z ∈ a.2 := (List.mem_cons.mp hz).resolve_left hzx
      obtain ⟨hzN, hzL, hmark⟩ := h.marks z hza
      exact ⟨hzN, hzL, (congrFun (hrow z hzN hzx) .up).trans hmark⟩
  · intro p hp
    have hkeep := hframe p (fun z hz => hp z (by simpa [List.mem_singleton.mp hz] using hxN))
    exact hkeep.trans (h.frame p hp)

/-- Every call does to memory what it does to the lists. -/
theorem step_models (h : Models key N m₀ s a t) (hN : Fit N) (hc : Compares key cmp)
    (hfuel : 88 ≤ fuel) (op : Op) (hop : Admits N a op) :
    ∃ s' t', step fuel cmp s op = some (s', (listStep key a op).2) ∧
      Models key N m₀ s' (listStep key a op).1 t' := by
  cases op with
  | insert x => exact step_insert h hN hc hfuel hop
  | remove x => exact step_remove h hN hfuel hop
  | lookup x => exact ⟨s, t, step_lookup h hN hc hfuel, h⟩
  | setUnlinked x => exact ⟨_, t, rfl, step_setUnlinked h hN hop⟩

theorem run_models (hN : Fit N) (hc : Compares key cmp) (hfuel : 88 ≤ fuel) (ops : List Op)
    (s : Cells × ℕ) (a : Lists) (t : HTree ℕ) (h : Models key N m₀ s a t)
    (hops : AdmitsAll key N ops a) :
    ∃ s' t', run fuel cmp ops s = some (s', (listRun key ops a).2) ∧
      Models key N m₀ s' (listRun key ops a).1 t' := by
  induction ops generalizing s a t with
  | nil => exact ⟨s, t, rfl, h⟩
  | cons op ops ih =>
    obtain ⟨hop, hops⟩ := hops
    obtain ⟨s₁, t₁, heq, h₁⟩ := step_models h hN hc hfuel op hop
    obtain ⟨s₂, t₂, hrun, h₂⟩ := ih s₁ _ t₁ h₁ hops
    refine ⟨s₂, t₂, ?_, h₂⟩
    simp only [run, heq, hrun, Option.bind_eq_bind, Option.bind_some, Option.pure_def, listRun]

theorem models_empty (m : Cells) : Models key N m (m, 0) ([], []) .nil :=
  ⟨rfl, trivial, trivial, rfl, List.Pairwise.nil, by simp, by simp, fun _ _ => rfl⟩

/-- What a run from the empty tree has reached. -/
theorem run_reached (hN : Fit N) (hc : Compares key cmp) (hfuel : 88 ≤ fuel) (ops : List Op)
    (hops : AdmitsAll key N ops ([], [])) {root : ℕ} {outs : List ℕ}
    (hrun : run fuel cmp ops (m, 0) = some ((m', root), outs)) :
    ∃ t, Models key N m (m', root) (listRun key ops ([], [])).1 t := by
  obtain ⟨s', t, hrun', h⟩ := run_models hN hc hfuel ops (m, 0) ([], []) .nil (models_empty m) hops
  rw [hrun'] at hrun
  simp only [Option.some.injEq, Prod.mk.injEq] at hrun
  obtain ⟨rfl, -⟩ := hrun
  exact ⟨t, h⟩

theorem Models.among (h : Models key N m₀ s a t) (hN : Fit N) : Among t.inorder [] t :=
  ⟨h.fit hN, fun _ hz => hz, fit_nodup (h.fit hN)⟩

theorem Models.holds (h : Models key N m₀ s a t) : Holds t.inorder s.1 s.1 s.2 [] t :=
  ⟨fun _ _ => rfl, h.root, h.shape⟩

end Machine

end BruhOS.AvlTree
