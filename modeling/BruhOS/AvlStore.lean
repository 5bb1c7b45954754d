import BruhOS.BalancedTree
import BruhOS.AvlTree

/-!
# Nodes as records of three words

Nodes that lie apart are seen as independent words: a store to one word of a
node changes what is seen there and nothing else. `Shape` says which tree the
words describe, and `PathShape` which path leads to a place.
-/

set_option autoImplicit false

namespace BruhOS.AvlTree
open PointerTree BalancedTree

inductive Field where
  | left
  | right
  | up
  deriving DecidableEq, Repr

def Field.off : Field → ℕ
  | .left => 0
  | .right => 8
  | .up => 16

abbrev Words := ℕ → Field → Option ℕ

def wordsOf (m : Cells) : Words := fun x f => load64 m (x+f.off)

def set (W : Words) (x : ℕ) (f : Field) (v : ℕ) : Words :=
  fun y g => if y = x ∧ g = f then some v else W y g

/-- The memory shows the words of the nodes, and otherwise what it was. -/
structure Sees (N : List ℕ) (m₀ m : Cells) (W : Words) : Prop where
  words : ∀ x ∈ N, ∀ f, load64 m (x+f.off) = W x f
  frame : ∀ a, (∀ x ∈ N, a < x ∨ x+24 ≤ a) → m a = m₀ a

end BruhOS.AvlTree

namespace BruhOS.BalancedTree
open AvlTree HTree

def Side.field : Side → Field
  | .left => .left
  | .right => .right

def Side.sign : Side → ℤ
  | .left => -1
  | .right => 1

/-- The low bits of `parent_balance`. -/
def Tilt.bits : Tilt → ℕ
  | .left => 0
  | .level => 1
  | .right => 2

def Tilt.factor : Tilt → ℤ
  | .left => -1
  | .level => 0
  | .right => 1

/-- The pointer to a tree. -/
def HTree.ptr : HTree ℕ → ℕ
  | .nil => 0
  | .node _ x _ _ => x

section Sides

variable (s : Side) (b : Tilt)

@[simp] theorem Side.other_field_ne : s.other.field ≠ s.field := by
  cases s <;> simp [other, field]

@[simp] theorem Side.field_ne_other : s.field ≠ s.other.field :=
  s.other_field_ne.symm

@[simp] theorem Side.field_ne_up : s.field ≠ .up := by
  cases s <;> simp [field]

@[simp] theorem Side.up_ne_field : .up ≠ s.field :=
  s.field_ne_up.symm

theorem Side.neg_sign : -s.sign = s.other.sign := by
  cases s <;> rfl

theorem Side.sign_factor : s.sign*b.factor = s.excess b := by
  cases s <;> cases b <;> rfl

@[simp] theorem Side.factor_tilt : s.tilt.factor = s.sign := by
  cases s <;> rfl

theorem Tilt.bits_le : b.bits ≤ 2 := by
  cases b <;> simp [bits]

theorem Tilt.bits_factor : (b.bits : ℤ)-1 = b.factor := by
  cases b <;> rfl

@[simp] theorem Tilt.factor_level : Tilt.level.factor = 0 := rfl

@[simp] theorem ptr_bend {l r : HTree ℕ} {x : ℕ} : (bend s l x b r).ptr = x := by
  cases s <;> rfl

theorem ptr_mem (t : HTree ℕ) (h : t ≠ .nil) : t.ptr ∈ t.inorder := by
  cases t with
  | nil => exact absurd rfl h
  | node l x b r => simp [ptr, inorder]

end Sides

end BruhOS.BalancedTree

namespace BruhOS.AvlTree
open PointerTree BalancedTree HTree

/-- The words of a tree below the parent `p`. -/
def Shape (W : Words) : ℕ → HTree ℕ → Prop
  | _, .nil => True
  | p, .node l x b r => x ≠ 0 ∧ W x .left = some l.ptr ∧ W x .right = some r.ptr ∧
      W x .up = some (p+b.bits) ∧ Shape W x l ∧ Shape W x r

/-- The tree without its balance factors. -/
def erase : HTree ℕ → NodeTree
  | .nil => .nil
  | .node l x _ r => .node (erase l) x (erase r)

/-- The node above a place, of a path below the parent `P`. -/
def owner (P : ℕ) : List (Frame ℕ) → ℕ
  | [] => P
  | f::_ => f.item

/-- The words of a path from a place that holds `q` to the pointer `root`. -/
def PathShape (W : Words) (P root : ℕ) : List (Frame ℕ) → ℕ → Prop
  | [], q => root = q
  | f::c, q => f.item ≠ 0 ∧ W f.item f.side.field = some q ∧
      W f.item f.side.other.field = some f.sibling.ptr ∧
      W f.item .up = some (owner P c+f.tilt.bits) ∧ Shape W f.item f.sibling ∧
      PathShape W P root c f.item

/-- `if (E) avl_set_parent(E, parent)` on the words. -/
def adopt (W : Words) (t : HTree ℕ) (p : ℕ) : Words :=
  match t with
  | .nil => W
  | .node _ x b _ => set W x .up (p+b.bits)

/-- `avl_replace_child` on the words and the root pointer. -/
def redirect (W : Words) (c : List (Frame ℕ)) (q : ℕ) : Words :=
  match c with
  | [] => W
  | f::_ => set W f.item f.side.field q

def topOf (root : ℕ) (c : List (Frame ℕ)) (q : ℕ) : ℕ :=
  match c with
  | [] => q
  | _::_ => root

/-- A pointer to a node, or none. -/
def Points (N : List ℕ) (p : ℕ) : Prop := p = 0 ∨ p ∈ N

section Words

variable {W : Words} {x y p q v P root : ℕ} {f g : Field} {s : Side} {b b' : Tilt}
  {a d t : HTree ℕ} {c : List (Frame ℕ)}

@[simp] theorem set_self : set W x f v x f = some v := by
  simp [set]

theorem set_of_ne (h : y ≠ x) : set W x f v y g = W y g := by
  simp [set, h]

theorem set_of_field_ne (h : g ≠ f) : set W x f v y g = W y g := by
  simp [set, h]

theorem shape_congr {W' : Words} (t : HTree ℕ) (p : ℕ) (h : ∀ z ∈ t.inorder, W' z = W z) :
    Shape W' p t ↔ Shape W p t := by
  induction t generalizing p with
  | nil => exact Iff.rfl
  | node l x b r ihl ihr =>
    have hx := h x (by simp [inorder])
    rw [Shape, Shape, hx, ihl x (fun z hz => h z (by simp [inorder, hz])),
      ihr x (fun z hz => h z (by simp [inorder, hz]))]

theorem path_congr {W' : Words} (c : List (Frame ℕ)) (q : ℕ) (h : ∀ z ∈ nodes c, W' z = W z) :
    PathShape W' P root c q ↔ PathShape W P root c q := by
  induction c generalizing q with
  | nil => exact Iff.rfl
  | cons f c ih =>
    have hf := h f.item (by simp [nodes])
    rw [PathShape, PathShape, hf, ih _ (fun z hz => h z (by simp [nodes, hz])),
      shape_congr f.sibling f.item (fun z hz => h z (by simp [nodes, hz]))]

theorem set_row (h : y ≠ x) : set W x f v y = W y :=
  funext (fun _ => set_of_ne h)

theorem shape_set (h : x ∉ t.inorder) : Shape (set W x f v) p t ↔ Shape W p t :=
  shape_congr t p (fun _ hz => set_row (fun he => h (he ▸ hz)))

theorem path_set (h : x ∉ nodes c) :
    PathShape (set W x f v) P root c q ↔ PathShape W P root c q :=
  path_congr c q (fun _ hz => set_row (fun he => h (he ▸ hz)))

theorem shape_bend : Shape W p (bend s a x b d) ↔ x ≠ 0 ∧ W x s.field = some a.ptr ∧
    W x s.other.field = some d.ptr ∧ W x .up = some (p+b.bits) ∧ Shape W x a ∧ Shape W x d := by
  cases s with
  | left => exact Iff.rfl
  | right =>
    simp only [bend, Shape, Side.field, Side.other]
    constructor
    · rintro ⟨hx, hl, hr, hp, hL, hR⟩
      exact ⟨hx, hr, hl, hp, hR, hL⟩
    · rintro ⟨hx, hl, hr, hp, hL, hR⟩
      exact ⟨hx, hr, hl, hp, hR, hL⟩

theorem adopt_row (h : y ∉ t.inorder) : adopt W t p y = W y := by
  cases t with
  | nil => rfl
  | node l x b r => exact set_row (fun he => h (by simp [inorder, he]))

theorem shape_adopt_other (h : t.inorder.Disjoint d.inorder) :
    Shape (adopt W d p) q t ↔ Shape W q t :=
  shape_congr t q (fun _ hz => adopt_row (fun hz' => h hz hz'))

theorem path_adopt (h : d.inorder.Disjoint (nodes c)) :
    PathShape (adopt W d p) P root c q ↔ PathShape W P root c q :=
  path_congr c q (fun _ hz => adopt_row (fun hz' => h hz' hz))

/-- The tree hangs below its new parent. -/
theorem shape_adopt (h : Shape W p t) (hn : t.inorder.Nodup) : Shape (adopt W t q) q t := by
  cases t with
  | nil => trivial
  | node l x b r =>
    obtain ⟨hx, hl, hr, hp, hL, hR⟩ := h
    simp only [inorder, List.nodup_append', List.nodup_cons] at hn
    have hxl : x ∉ l.inorder := fun hm => hn.2.2 hm (by simp)
    refine ⟨hx, ?_, ?_, set_self, (shape_set hxl).mpr hL, (shape_set hn.2.1.1).mpr hR⟩
    · rw [adopt, set_of_field_ne (by simp), hl]
    · rw [adopt, set_of_field_ne (by simp), hr]

theorem redirect_row (h : y ∉ nodes c) : redirect W c q y = W y := by
  cases c with
  | nil => rfl
  | cons f c => exact set_row (fun he => h (by simp [nodes, he]))

theorem shape_redirect (h : t.inorder.Disjoint (nodes c)) :
    Shape (redirect W c q) p t ↔ Shape W p t :=
  shape_congr t p (fun _ hz => redirect_row (fun hz' => h hz hz'))

/-- The path leads to the new pointer. -/
theorem path_redirect (q' : ℕ) (h : PathShape W P root c q) (hn : (nodes c).Nodup) :
    PathShape (redirect W c q') P (topOf root c q') c q' := by
  cases c with
  | nil => rfl
  | cons f c =>
    obtain ⟨hf, -, hsib, hup, hS, hc⟩ := h
    simp only [nodes, List.nodup_cons, List.mem_append, not_or] at hn
    refine ⟨hf, set_self, ?_, ?_, (shape_set hn.1.1).mpr hS, (path_set hn.1.2).mpr hc⟩
    · rw [redirect, set_of_field_ne (by simp), hsib]
    · rw [redirect, set_of_field_ne (by simp), hup]

/-- A tree in memory is a path and the subtree at its end. -/
theorem shape_fill (c : List (Frame ℕ)) (t : HTree ℕ) :
    (root = (fill c t).ptr ∧ Shape W P (fill c t)) ↔
      PathShape W P root c t.ptr ∧ Shape W (owner P c) t := by
  induction c generalizing t with
  | nil => exact Iff.rfl
  | cons f c ih =>
    rw [fill, ih, ptr_bend, shape_bend, PathShape, owner]
    tauto

theorem owner_mem (c : List (Frame ℕ)) : owner 0 c = 0 ∨ owner 0 c ∈ nodes c := by
  cases c with
  | nil => exact Or.inl rfl
  | cons f c => exact Or.inr (by simp [owner, nodes])

theorem ptr_eq_zero {t : HTree ℕ} (h : Shape W p t) : t.ptr = 0 ↔ t = .nil := by
  cases t with
  | nil => simp [ptr]
  | node l x b r => simpa [ptr] using h.1

theorem inorder_erase (t : HTree ℕ) : (erase t).inorder = t.inorder := by
  induction t with
  | nil => rfl
  | node l x b r ihl ihr => simp [erase, NodeTree.inorder, inorder, ihl, ihr]

theorem ptr_erase {t t' : HTree ℕ} (h : erase t = erase t') : t.ptr = t'.ptr := by
  cases t <;> cases t' <;> simp_all [erase, ptr]

theorem erase_fill_congr (c : List (Frame ℕ)) {t t' : HTree ℕ} (h : erase t = erase t') :
    erase (fill c t) = erase (fill c t') := by
  induction c generalizing t t' with
  | nil => exact h
  | cons f c ih =>
    apply ih
    cases f.side <;> simp [bend, erase, h]

/-- Trees that differ in their tilts only differ in the low bits of the third words only. -/
theorem shape_words {W' : Words} (t t' : HTree ℕ) (P : ℕ) (he : erase t = erase t')
    (h : Shape W P t) (h' : Shape W' P t') (hP : P % 8 = 0) (hx : ∀ v ∈ t.inorder, v % 8 = 0) :
    ∀ v ∈ t.inorder, W v .left = W' v .left ∧ W v .right = W' v .right ∧
      ∃ (p : ℕ) (b b' : Tilt), p % 8 = 0 ∧ W v .up = some (p+b.bits) ∧
        W' v .up = some (p+b'.bits) := by
  induction t generalizing t' P with
  | nil => simp [inorder]
  | node l x b r ihl ihr =>
    cases t' with
    | nil => exact absurd he (by simp [erase])
    | node l' x' b' r' =>
      simp only [erase, NodeTree.node.injEq] at he
      obtain ⟨hel, rfl, her⟩ := he
      obtain ⟨-, hl, hr, hu, hL, hR⟩ := h
      obtain ⟨-, hl', hr', hu', hL', hR'⟩ := h'
      have hx8 := hx x (by simp [inorder])
      intro v hv
      simp only [inorder, List.mem_append, List.mem_cons] at hv
      rcases hv with hv | rfl | hv
      · exact ihl l' x hel hL hL' hx8 (fun w hw => hx w (by simp [inorder, hw])) v hv
      · exact ⟨by rw [hl, hl', ptr_erase hel], by rw [hr, hr', ptr_erase her], P, b, b', hP,
          hu, hu'⟩
      · exact ihr r' x her hR hR' hx8 (fun w hw => hx w (by simp [inorder, hw])) v hv

end Words

end BruhOS.AvlTree
