import Mathlib.Data.List.Nodup
import Mathlib.Data.Nat.Fib.Basic
import Mathlib.Tactic.Ring

/-!
# Height-balanced trees

A node keeps the side on which it is taller by one. An insertion makes one
subtree taller and a removal makes one lower; both are repaired on the way up
from the place where they happened, so a tree is looked at together with the
path from a place in it to the root. Everything is stated for one side of a
node, and holds of the other by the same words.
-/

set_option autoImplicit false

namespace BruhOS.BalancedTree

inductive Side where
  | left
  | right
  deriving DecidableEq, Repr

/-- The side on which a node is taller. -/
inductive Tilt where
  | left
  | level
  | right
  deriving DecidableEq, Repr

namespace Side

def other : Side → Side
  | left => right
  | right => left

def tilt : Side → Tilt
  | left => .left
  | right => .right

/-- By how much the subtree on a side is taller than the other one. -/
def excess : Side → Tilt → ℤ
  | left, .left => 1
  | left, .level => 0
  | left, .right => -1
  | right, .left => -1
  | right, .level => 0
  | right, .right => 1

/-- The tilts of the two nodes that part the children of a node with tilt `b`. -/
def nearTilt (s : Side) (b : Tilt) : Tilt := if b = s.other.tilt then s.tilt else .level

def farTilt (s : Side) (b : Tilt) : Tilt := if b = s.tilt then s.other.tilt else .level

variable (s : Side) (b : Tilt)

@[simp] theorem other_other : s.other.other = s := by
  cases s <;> rfl

@[simp] theorem excess_tilt : s.excess s.tilt = 1 := by
  cases s <;> rfl

@[simp] theorem excess_level : s.excess .level = 0 := by
  cases s <;> rfl

@[simp] theorem excess_other : s.excess s.other.tilt = -1 := by
  cases s <;> rfl

@[simp] theorem other_excess : s.other.excess b = -s.excess b := by
  cases s <;> cases b <;> rfl

@[simp] theorem tilt_ne_level : s.tilt ≠ .level := by
  cases s <;> simp [tilt]

@[simp] theorem other_tilt_ne : s.other.tilt ≠ s.tilt := by
  cases s <;> simp [tilt, other]

@[simp] theorem tilt_ne_other : s.tilt ≠ s.other.tilt :=
  s.other_tilt_ne.symm

theorem tilt_cases : b = .level ∨ b = s.tilt ∨ b = s.other.tilt := by
  cases s <;> cases b <;> simp [tilt, other]

theorem excess_le : -1 ≤ s.excess b ∧ s.excess b ≤ 1 := by
  cases s <;> cases b <;> simp [excess]

end Side

inductive HTree (α : Type) where
  | nil
  | node (l : HTree α) (x : α) (b : Tilt) (r : HTree α)
  deriving DecidableEq, Repr

/-- A node of the path to a place: the side the place is on, and what hangs on the other side. -/
structure Frame (α : Type) where
  side : Side
  item : α
  tilt : Tilt
  sibling : HTree α
  deriving DecidableEq, Repr

variable {α : Type}

namespace HTree

def inorder : HTree α → List α
  | nil => []
  | node l x _ r => l.inorder++x::r.inorder

/-- The order towards a side. -/
def order (s : Side) (t : HTree α) : List α :=
  match s with
  | .left => t.inorder.reverse
  | .right => t.inorder

def postorder : HTree α → List α
  | nil => []
  | node l x _ r => l.postorder++(r.postorder++[x])

def height : HTree α → ℕ
  | nil => 0
  | node l _ _ r => max l.height r.height+1

/-- The tilts tell the differences of the heights. -/
def IsAvl : HTree α → Prop
  | nil => True
  | node l _ b r => (r.height : ℤ) = l.height+Side.right.excess b ∧ l.IsAvl ∧ r.IsAvl

def tilt : HTree α → Tilt
  | nil => .level
  | node _ _ b _ => b

/-- A node by its subtree on a side and the other one. -/
def bend (s : Side) (near : HTree α) (x : α) (b : Tilt) (far : HTree α) : HTree α :=
  match s with
  | .left => node near x b far
  | .right => node far x b near

def parts (s : Side) : HTree α → Option (HTree α × α × Tilt × HTree α)
  | nil => none
  | node l x b r =>
    match s with
    | .left => some (l, x, b, r)
    | .right => some (r, x, b, l)

/-- A node whose near subtree is taller than the far one by two. -/
def rotate (s : Side) (near : HTree α) (x : α) (far : HTree α) : HTree α :=
  match near.parts s with
  | none => bend s near x s.tilt far
  | some (d, y, b, e) =>
    if b = s.tilt then bend s d y .level (bend s e x .level far)
    else if b = .level then bend s d y s.other.tilt (bend s e x s.tilt far)
    else
      match e.parts s with
      | none => bend s near x s.tilt far
      | some (f, z, a, g) =>
        bend s (bend s d y (s.nearTilt a) f) z .level (bend s g x (s.farTilt a) far)

/-- The way down to the first node in the order, with its tilt and its other child. -/
def spine : HTree α → Option (List (Frame α) × α × Tilt × HTree α)
  | nil => none
  | node l x b r =>
    match l.spine with
    | none => some ([], x, b, r)
    | some (p, y, a, t) => some (p++[⟨.left, x, b, r⟩], y, a, t)

end HTree

open HTree

/-- The tree with a subtree at the place. -/
def fill : List (Frame α) → HTree α → HTree α
  | [], t => t
  | f::c, t => fill c (bend f.side t f.item f.tilt f.sibling)

/-- The subtree at the place became taller by one. -/
def grow : List (Frame α) → HTree α → HTree α
  | [], t => t
  | f::c, t =>
    if f.tilt = .level then grow c (bend f.side t f.item f.side.tilt f.sibling)
    else if f.tilt = f.side.tilt then fill c (rotate f.side t f.item f.sibling)
    else fill c (bend f.side t f.item .level f.sibling)

/-- The subtree at the place became lower by one. -/
def shrink : List (Frame α) → HTree α → HTree α
  | [], t => t
  | f::c, t =>
    if f.tilt = .level then fill c (bend f.side t f.item f.side.other.tilt f.sibling)
    else if f.tilt = f.side.tilt then shrink c (bend f.side t f.item .level f.sibling)
    else if f.sibling.tilt = .level then fill c (rotate f.side.other f.sibling f.item t)
    else shrink c (rotate f.side.other f.sibling f.item t)

/-- The tree without the node at the place, whose children and tilt are given. -/
def remove (c : List (Frame α)) (l : HTree α) (b : Tilt) (r : HTree α) : HTree α :=
  match l, r.spine with
  | .nil, _ => shrink c r
  | _, none => shrink c l
  | l, some (p, y, _, t) => shrink (p++⟨.right, y, b, l⟩::c) t

/-- The path is balanced around a place of the height. -/
def Fits : List (Frame α) → ℕ → Prop
  | [], _ => True
  | f::c, h => (h : ℤ) = f.sibling.height+f.side.excess f.tilt ∧ f.sibling.IsAvl ∧
      Fits c (max h f.sibling.height+1)

def nodes : List (Frame α) → List α
  | [] => []
  | f::c => f.item::(f.sibling.inorder++nodes c)

/-- What comes after the place in the order towards a side. -/
def ahead (s : Side) : List (Frame α) → List α
  | [] => []
  | f::c => if f.side = s then ahead s c else f.item::(f.sibling.order s++ahead s c)

/-- What comes after the place in the order of children before parents. -/
def later : List (Frame α) → List α
  | [] => []
  | f::c =>
    match f.side with
    | .left => f.sibling.postorder++f.item::later c
    | .right => f.item::later c

def earlier : List (Frame α) → List α
  | [] => []
  | f::c =>
    match f.side with
    | .left => earlier c
    | .right => earlier c++f.sibling.postorder

/-- What comes before the place in the order, and what comes after it. -/
def before : List (Frame α) → List α
  | [] => []
  | f::c =>
    match f.side with
    | .left => before c
    | .right => before c++f.sibling.inorder++[f.item]

def after : List (Frame α) → List α
  | [] => []
  | f::c =>
    match f.side with
    | .left => f.item::(f.sibling.inorder++after c)
    | .right => after c

section Bend

variable {s : Side} {a d e t : HTree α} {x y : α} {b : Tilt}

theorem bend_cases (s : Side) (t : HTree α) : t = nil ∨ ∃ a x b d, t = bend s a x b d := by
  cases t with
  | nil => exact Or.inl rfl
  | node l x b r =>
    right
    cases s with
    | left => exact ⟨l, x, b, r, rfl⟩
    | right => exact ⟨r, x, b, l, rfl⟩

@[simp] theorem parts_bend : (bend s a x b d).parts s = some (a, x, b, d) := by
  cases s <;> rfl

@[simp] theorem tilt_bend : (bend s a x b d).tilt = b := by
  cases s <;> rfl

@[simp] theorem bend_ne_nil : bend s a x b d ≠ nil := by
  cases s <;> simp [bend]

theorem bend_other : bend s.other a x b d = bend s d x b a := by
  cases s <;> rfl

@[simp] theorem height_bend : (bend s a x b d).height = max a.height d.height+1 := by
  cases s with
  | left => rfl
  | right => rw [bend, height, max_comm]

@[simp] theorem balanced_bend : (bend s a x b d).IsAvl ↔
    (a.height : ℤ) = d.height+s.excess b ∧ a.IsAvl ∧ d.IsAvl := by
  cases s with
  | left =>
    have hside := Side.other_excess .right b
    simp only [Side.other] at hside
    simp only [bend, IsAvl, hside]
    constructor
    · rintro ⟨h, ha, hd⟩
      exact ⟨by omega, ha, hd⟩
    · rintro ⟨h, ha, hd⟩
      exact ⟨by omega, ha, hd⟩
  | right =>
    simp only [bend, IsAvl]
    tauto

@[simp] theorem mem_bend {z : α} :
    z ∈ (bend s a x b d).inorder ↔ z = x ∨ z ∈ a.inorder ∨ z ∈ d.inorder := by
  cases s <;> simp [bend, inorder] <;> tauto

theorem bend_perm : (bend s a x b d).inorder.Perm (x::(a.inorder++d.inorder)) := by
  cases s with
  | left => exact List.perm_middle
  | right => exact List.perm_middle.trans (List.perm_append_comm.cons x)

@[simp] theorem nodup_bend : (bend s a x b d).inorder.Nodup ↔
    x ∉ a.inorder ∧ x ∉ d.inorder ∧ a.inorder.Nodup ∧ d.inorder.Nodup ∧
      a.inorder.Disjoint d.inorder := by
  rw [bend_perm.nodup_iff]
  simp only [List.nodup_cons, List.mem_append, List.nodup_append', not_or]
  tauto

theorem bend_inorder_congr {a' d' : HTree α} (ha : a'.inorder = a.inorder)
    (hd : d'.inorder = d.inorder) (b' : Tilt) :
    (bend s a' x b' d').inorder = (bend s a x b d).inorder := by
  cases s <;> simp [bend, inorder, ha, hd]

/-- The two ways to hang three subtrees below two nodes. -/
theorem bend_assoc {g : HTree α} (a' b' c' : Tilt) : (bend s d y a' (bend s e x b g)).inorder =
    (bend s (bend s d y b' e) x c' g).inorder := by
  cases s <;> simp [bend, inorder]

/-- A rotation keeps the order. -/
theorem rotate_inorder (s : Side) (near : HTree α) (x : α) (far : HTree α) (b : Tilt) :
    (rotate s near x far).inorder = (bend s near x b far).inorder := by
  rcases bend_cases s near with rfl | ⟨d, y, a, e, rfl⟩
  · exact bend_inorder_congr rfl rfl _
  · rcases bend_cases s e with rfl | ⟨f, z, a', g, rfl⟩
    · simp only [rotate, parts_bend]
      split_ifs <;> cases s <;> simp [bend, inorder, parts]
    · simp only [rotate, parts_bend]
      split_ifs <;> cases s <;> simp [bend, inorder]

end Bend

section Rotate

variable {s : Side} {d e f g near far : HTree α} {x y z : α} {a b : Tilt}

theorem rotate_single : rotate s (bend s d y s.tilt e) x far =
    bend s d y .level (bend s e x .level far) := by
  simp [rotate]

theorem rotate_level : rotate s (bend s d y .level e) x far =
    bend s d y s.other.tilt (bend s e x s.tilt far) := by
  simp [rotate, s.tilt_ne_level.symm]

theorem rotate_double : rotate s (bend s d y s.other.tilt (bend s f z a g)) x far =
    bend s (bend s d y (s.nearTilt a) f) z .level (bend s g x (s.farTilt a) far) := by
  simp [rotate]

theorem near_excess (s : Side) (a : Tilt) : s.excess (s.nearTilt a) = max 0 (-s.excess a) := by
  cases s <;> cases a <;> rfl

theorem far_excess (s : Side) (a : Tilt) : s.excess (s.farTilt a) = -max 0 (s.excess a) := by
  cases s <;> cases a <;> rfl

/-- A rotation repairs a difference of two. -/
theorem rotate_spec (hn : near.IsAvl) (hf : far.IsAvl) (hh : near.height = far.height+2) :
    (rotate s near x far).IsAvl ∧ (rotate s near x far).height =
      if near.tilt = .level then far.height+3 else far.height+2 := by
  rcases bend_cases s near with rfl | ⟨d, y, b, e, rfl⟩
  · simp [height] at hh
  rw [balanced_bend] at hn
  obtain ⟨hde, hd, he⟩ := hn
  rw [height_bend] at hh
  rcases s.tilt_cases b with rfl | rfl | rfl
  · simp only [Side.excess_level] at hde
    simp only [rotate_level, balanced_bend, height_bend, tilt_bend, Side.excess_other,
      Side.excess_tilt, if_true]
    exact ⟨⟨by omega, hd, by omega, he, hf⟩, by omega⟩
  · simp only [Side.excess_tilt] at hde
    simp only [rotate_single, balanced_bend, height_bend, tilt_bend, Side.excess_level,
      Side.tilt_ne_level, if_false]
    exact ⟨⟨by omega, hd, by omega, he, hf⟩, by omega⟩
  · simp only [Side.excess_other] at hde
    rcases bend_cases s e with rfl | ⟨f, z, a, g, rfl⟩
    · simp only [height] at hde hh
      omega
    · rw [balanced_bend] at he
      obtain ⟨hfg, hf', hg⟩ := he
      have hle := s.excess_le a
      simp only [height_bend] at hde hh
      simp only [rotate_double, balanced_bend, height_bend, tilt_bend, Side.excess_level,
        near_excess, far_excess, Side.tilt_ne_level, if_false]
      exact ⟨⟨by omega, ⟨by omega, hd, hf'⟩, by omega, hg, hf⟩, by omega⟩

end Rotate

section Path

variable {c p : List (Frame α)} {f : Frame α} {t t' : HTree α} {x : α} {h : ℕ}

theorem fill_append (p c : List (Frame α)) (t : HTree α) : fill (p++c) t = fill c (fill p t) := by
  induction p generalizing t with
  | nil => rfl
  | cons f p ih => exact ih _

theorem inorder_fill (c : List (Frame α)) (t : HTree α) :
    (fill c t).inorder = before c++t.inorder++after c := by
  induction c generalizing t with
  | nil => simp [fill, before, after]
  | cons f c ih =>
    obtain ⟨side, item, tilt, sibling⟩ := f
    rw [fill, ih]
    cases side <;> simp [bend, inorder, before, after]

theorem fill_inorder_congr (c : List (Frame α)) (ht : t'.inorder = t.inorder) :
    (fill c t').inorder = (fill c t).inorder := by
  rw [inorder_fill, inorder_fill, ht]

theorem fill_perm (c : List (Frame α)) (t : HTree α) :
    (fill c t).inorder.Perm (t.inorder++nodes c) := by
  induction c generalizing t with
  | nil => simp [fill, nodes]
  | cons f c ih =>
    apply (ih _).trans
    apply (bend_perm.append_right _).trans
    simp only [nodes, List.cons_append, List.append_assoc]
    exact List.perm_middle.symm

theorem mem_fill {z : α} : z ∈ (fill c t).inorder ↔ z ∈ t.inorder ∨ z ∈ nodes c := by
  rw [(fill_perm c t).mem_iff, List.mem_append]

theorem nodup_fill : (fill c t).inorder.Nodup ↔
    t.inorder.Nodup ∧ (nodes c).Nodup ∧ t.inorder.Disjoint (nodes c) := by
  rw [(fill_perm c t).nodup_iff, List.nodup_append']

theorem balanced_fill (c : List (Frame α)) (t : HTree α) :
    (fill c t).IsAvl ↔ Fits c t.height ∧ t.IsAvl := by
  induction c generalizing t with
  | nil => simp [fill, Fits]
  | cons f c ih =>
    rw [fill, ih, height_bend, balanced_bend, Fits]
    tauto

theorem fits_append (p c : List (Frame α)) (t : HTree α) :
    Fits (p++c) t.height ↔ Fits p t.height ∧ Fits c (fill p t).height := by
  induction p generalizing t with
  | nil => simp [fill, Fits]
  | cons f p ih =>
    have := ih (bend f.side t f.item f.tilt f.sibling)
    rw [height_bend] at this
    simp only [List.cons_append, Fits, fill, this]
    tauto

theorem grow_inorder (c : List (Frame α)) (t : HTree α) :
    (grow c t).inorder = (fill c t).inorder := by
  induction c generalizing t with
  | nil => rfl
  | cons f c ih =>
    rw [grow, fill]
    split_ifs
    · rw [ih]
      exact fill_inorder_congr c (bend_inorder_congr rfl rfl _)
    · exact fill_inorder_congr c (rotate_inorder _ _ _ _ _)
    · exact fill_inorder_congr c (bend_inorder_congr rfl rfl _)

theorem shrink_inorder (c : List (Frame α)) (t : HTree α) :
    (shrink c t).inorder = (fill c t).inorder := by
  induction c generalizing t with
  | nil => rfl
  | cons f c ih =>
    have hrot : (rotate f.side.other f.sibling f.item t).inorder =
        (bend f.side t f.item f.tilt f.sibling).inorder := by
      rw [rotate_inorder _ _ _ _ f.tilt, bend_other]
    rw [shrink, fill]
    split_ifs
    · exact fill_inorder_congr c (bend_inorder_congr rfl rfl _)
    · rw [ih]
      exact fill_inorder_congr c (bend_inorder_congr rfl rfl _)
    · exact fill_inorder_congr c hrot
    · rw [ih]
      exact fill_inorder_congr c hrot

/-- A path that is balanced around a lower subtree is repaired, unless the
taller one is level without being a single node. -/
theorem grow_balanced (c : List (Frame α)) (t : HTree α) (hc : Fits c h) (ht : t.IsAvl)
    (hh : t.height = h+1) (hl : t.tilt = .level → h = 0) : (grow c t).IsAvl := by
  induction c generalizing t h with
  | nil => exact ht
  | cons f c ih =>
    obtain ⟨hf, hsib, hc⟩ := hc
    rw [grow]
    rcases f.side.tilt_cases f.tilt with hb | hb | hb
    · rw [if_pos hb]
      rw [hb, Side.excess_level] at hf
      rw [show max h f.sibling.height+1 = h+1 by omega] at hc
      apply ih _ hc
      · rw [balanced_bend, Side.excess_tilt]
        exact ⟨by omega, ht, hsib⟩
      · rw [height_bend]
        omega
      · intro hlevel
        rw [tilt_bend] at hlevel
        exact absurd hlevel (Side.tilt_ne_level _)
    · rw [if_neg (by rw [hb]; exact Side.tilt_ne_level _), if_pos hb]
      rw [hb, Side.excess_tilt] at hf
      rw [show max h f.sibling.height+1 = f.sibling.height+2 by omega] at hc
      obtain ⟨hbal, hheight⟩ := rotate_spec (s := f.side) (x := f.item) ht hsib (by omega)
      rw [if_neg (fun hlevel => by have := hl hlevel; omega)] at hheight
      rw [balanced_fill, hheight]
      exact ⟨hc, hbal⟩
    · rw [if_neg (by rw [hb]; exact Side.tilt_ne_level _),
        if_neg (by rw [hb]; exact Side.other_tilt_ne _)]
      rw [hb, Side.excess_other] at hf
      rw [balanced_fill, height_bend, balanced_bend, Side.excess_level]
      refine ⟨?_, by omega, ht, hsib⟩
      rwa [show max t.height f.sibling.height+1 = max h f.sibling.height+1 by omega]

theorem shrink_balanced (c : List (Frame α)) (t : HTree α) (hc : Fits c (h+1)) (ht : t.IsAvl)
    (hh : t.height = h) : (shrink c t).IsAvl := by
  induction c generalizing t h with
  | nil => exact ht
  | cons f c ih =>
    obtain ⟨hf, hsib, hc⟩ := hc
    rw [shrink]
    rcases f.side.tilt_cases f.tilt with hb | hb | hb
    · rw [if_pos hb]
      rw [hb, Side.excess_level] at hf
      rw [balanced_fill, height_bend, balanced_bend, Side.excess_other]
      refine ⟨?_, by omega, ht, hsib⟩
      rwa [show max t.height f.sibling.height+1 = max (h+1) f.sibling.height+1 by omega]
    · rw [if_neg (by rw [hb]; exact Side.tilt_ne_level _), if_pos hb]
      rw [hb, Side.excess_tilt] at hf
      rw [show max (h+1) f.sibling.height+1 = h+1+1 by omega] at hc
      apply ih _ hc
      · rw [balanced_bend, Side.excess_level]
        exact ⟨by omega, ht, hsib⟩
      · rw [height_bend]
        omega
    · rw [if_neg (by rw [hb]; exact Side.tilt_ne_level _),
        if_neg (by rw [hb]; exact Side.other_tilt_ne _)]
      rw [hb, Side.excess_other] at hf
      rw [show max (h+1) f.sibling.height+1 = h+3 by omega] at hc
      obtain ⟨hbal, hheight⟩ :=
        rotate_spec (s := f.side.other) (x := f.item) hsib ht (by omega)
      split_ifs at hheight ⊢ with hlevel
      · rw [balanced_fill, hheight, hh]
        exact ⟨hc, hbal⟩
      · exact ih _ hc hbal (by omega)

end Path

section Spine

variable {c p : List (Frame α)} {l r t : HTree α} {x y : α} {a b : Tilt}

theorem spine_none (t : HTree α) (h : t.spine = none) : t = .nil := by
  cases t with
  | nil => rfl
  | node l x b r =>
    rw [spine] at h
    cases hs : l.spine <;> rw [hs] at h <;> exact absurd h (by simp)

theorem fill_spine (r : HTree α) (h : r.spine = some (p, y, a, t)) :
    r = fill p (.node .nil y a t) := by
  induction r generalizing p y a t with
  | nil => exact absurd h (by simp [spine])
  | node l x b r ihl ihr =>
    rw [spine] at h
    cases hs : l.spine with
    | none =>
      rw [hs] at h
      simp only [Option.some.injEq, Prod.mk.injEq] at h
      obtain ⟨rfl, rfl, rfl, rfl⟩ := h
      rw [spine_none l hs]
      rfl
    | some q =>
      obtain ⟨p', y', a', t'⟩ := q
      rw [hs] at h
      simp only [Option.some.injEq, Prod.mk.injEq] at h
      obtain ⟨rfl, rfl, rfl, rfl⟩ := h
      rw [fill_append, ← ihl hs]
      rfl

theorem spine_side (r : HTree α) (h : r.spine = some (p, y, a, t)) : ∀ f ∈ p, f.side = .left := by
  induction r generalizing p y a t with
  | nil => exact absurd h (by simp [spine])
  | node l x b r ihl ihr =>
    rw [spine] at h
    cases hs : l.spine with
    | none =>
      rw [hs] at h
      simp only [Option.some.injEq, Prod.mk.injEq] at h
      simp [← h.1]
    | some q =>
      obtain ⟨p', y', a', t'⟩ := q
      rw [hs] at h
      simp only [Option.some.injEq, Prod.mk.injEq] at h
      intro f hf
      rw [← h.1] at hf
      simp only [List.mem_append, List.mem_singleton] at hf
      rcases hf with hf | rfl
      · exact ihl hs f hf
      · rfl

theorem before_eq_nil (p : List (Frame α)) (h : ∀ f ∈ p, f.side = .left) : before p = [] := by
  induction p with
  | nil => rfl
  | cons f p ih =>
    rw [before, h f (by simp)]
    exact ih (fun f' hf' => h f' (by simp [hf']))

/-- The successor in the place of a node, and its other child in the place of the successor. -/
theorem spine_sublist (h : r.spine = some (p, y, a, t)) :
    (HTree.node l y b (fill p t)).inorder.Sublist (HTree.node l x b r).inorder := by
  simp only [inorder]
  apply List.Sublist.append_left
  apply List.Sublist.cons x
  rw [fill_spine r h, inorder_fill, inorder_fill, before_eq_nil p (spine_side r h)]
  simp [inorder]

theorem remove_left : remove c .nil b r = shrink c r := rfl

theorem remove_right (l : HTree α) : remove c l b .nil = shrink c l := by
  cases l <;> rfl

theorem remove_swap (hl : l ≠ .nil) (h : r.spine = some (p, y, a, t)) :
    remove c l b r = shrink (p++⟨.right, y, b, l⟩::c) t := by
  cases l with
  | nil => exact absurd rfl hl
  | node l' x' b' r' => simp [remove, h]

/-- A removal unlinks the node, or the first one after it, whose child takes its place. -/
theorem remove_cases (c : List (Frame α)) (l : HTree α) (b : Tilt) (r : HTree α) :
    (l = .nil ∧ remove c l b r = shrink c r) ∨ (r = .nil ∧ remove c l b r = shrink c l) ∨
      ∃ p y a t, l ≠ .nil ∧ r.spine = some (p, y, a, t) ∧
        remove c l b r = shrink (p++⟨.right, y, b, l⟩::c) t := by
  by_cases hl : l = .nil
  · rw [hl]
    exact Or.inl ⟨rfl, remove_left⟩
  · cases hr : r.spine with
    | none =>
      rw [spine_none r hr]
      exact Or.inr (Or.inl ⟨rfl, remove_right l⟩)
    | some q =>
      obtain ⟨p, y, a, t⟩ := q
      exact Or.inr (Or.inr ⟨p, y, a, t, hl, rfl, remove_swap hl hr⟩)

/-- The removal takes the node out of the order and nothing else. -/
theorem remove_inorder (c : List (Frame α)) (l : HTree α) (b : Tilt) (r : HTree α) :
    (remove c l b r).inorder = before c++(l.inorder++r.inorder)++after c := by
  rcases remove_cases c l b r with ⟨rfl, hrem⟩ | ⟨rfl, hrem⟩ | ⟨p, y, a, t, -, hspine, hrem⟩
  · rw [hrem, shrink_inorder, inorder_fill]
    rfl
  · rw [hrem, shrink_inorder, inorder_fill]
    simp [inorder]
  · have hr := fill_spine r hspine
    have hp := before_eq_nil p (spine_side r hspine)
    rw [hrem, shrink_inorder, fill_append, fill, inorder_fill, hr, inorder_fill]
    simp only [bend, inorder, inorder_fill, hp]
    simp

/-- The path to the place of the first node after the removed one, which takes over its tilt. -/
theorem spine_fits (h : (fill c (.node l x b r)).IsAvl) (hs : r.spine = some (p, y, a, t)) :
    Fits (p++⟨.right, y, b, l⟩::c) (t.height+1) ∧ t.IsAvl := by
  rw [balanced_fill] at h
  obtain ⟨hc, hlr, hl, hr⟩ := h
  have hfill := fill_spine r hs
  have hr' := hr
  rw [hfill, balanced_fill] at hr'
  obtain ⟨hp, -, -, ht⟩ := hr'
  have hle := Side.right.excess_le b
  have hnode : (HTree.node .nil y a t).height = t.height+1 := by simp [height]
  rw [height] at hc
  rw [← hnode, fits_append, ← hfill, Fits]
  refine ⟨⟨hp, by simp only; omega, hl, ?_⟩, ht⟩
  rwa [max_comm]

theorem remove_balanced (h : (fill c (.node l x b r)).IsAvl) : (remove c l b r).IsAvl := by
  rcases remove_cases c l b r with ⟨rfl, hrem⟩ | ⟨rfl, hrem⟩ | ⟨p, y, a, t, -, hspine, hrem⟩
  · obtain ⟨hc, -, -, hr⟩ := (balanced_fill _ _).mp h
    simp only [height, Nat.zero_max] at hc
    rw [hrem]
    exact shrink_balanced c r hc hr rfl
  · obtain ⟨hc, -, hl, -⟩ := (balanced_fill _ _).mp h
    simp only [height, Nat.max_zero] at hc
    rw [hrem]
    exact shrink_balanced c l hc hl rfl
  · obtain ⟨hfits, ht⟩ := spine_fits h hspine
    rw [hrem]
    exact shrink_balanced _ t hfits ht rfl

end Spine

section Order

variable {s : Side} {c : List (Frame α)} {a d t : HTree α} {x : α} {b : Tilt}

theorem order_bend : (bend s a x b d).order s = d.order s++x::a.order s := by
  cases s <;> simp [bend, order, inorder]

theorem order_nil : (nil : HTree α).order s = [] := by
  cases s <;> rfl

theorem mem_order {z : α} : z ∈ t.order s ↔ z ∈ t.inorder := by
  cases s <;> simp [order]

theorem order_ne_nil (h : t ≠ nil) : t.order s ≠ [] := by
  cases t with
  | nil => exact absurd rfl h
  | node l x b r => cases s <;> simp [order, inorder]

theorem ahead_right (c : List (Frame α)) : ahead .right c = after c := by
  induction c with
  | nil => rfl
  | cons f c ih =>
    obtain ⟨side, item, tilt, sibling⟩ := f
    cases side <;> simp [ahead, after, order, ih]

theorem ahead_left (c : List (Frame α)) : ahead .left c = (before c).reverse := by
  induction c with
  | nil => rfl
  | cons f c ih =>
    obtain ⟨side, item, tilt, sibling⟩ := f
    cases side <;> simp [ahead, before, order, ih]

/-- The order goes through what is behind the place, the subtree, and what is ahead. -/
theorem order_fill (s : Side) (c : List (Frame α)) (t : HTree α) :
    (fill c t).order s = (ahead s.other c).reverse++t.order s++ahead s c := by
  cases s with
  | left => simp [order, inorder_fill, Side.other, ahead_left, ahead_right]
  | right => simp [order, inorder_fill, Side.other, ahead_left, ahead_right]

theorem postorder_fill (c : List (Frame α)) (t : HTree α) :
    (fill c t).postorder = earlier c++t.postorder++later c := by
  induction c generalizing t with
  | nil => simp [fill, earlier, later]
  | cons f c ih =>
    obtain ⟨side, item, tilt, sibling⟩ := f
    rw [fill, ih]
    cases side <;> simp [bend, postorder, earlier, later]

theorem postorder_perm (t : HTree α) : t.postorder.Perm t.inorder := by
  induction t with
  | nil => exact List.Perm.refl _
  | node l x b r ihl ihr =>
    rw [postorder, inorder]
    apply ihl.append
    exact List.perm_append_comm.trans (ihr.cons x)

/-- Every node of a tree is at the end of some path. -/
theorem exists_path (t : HTree α) (h : x ∈ t.inorder) : ∃ c l b r, t = fill c (.node l x b r) := by
  induction t with
  | nil => exact absurd h (by simp [inorder])
  | node l y b r ihl ihr =>
    simp only [inorder, List.mem_append, List.mem_cons] at h
    rcases h with h | rfl | h
    · obtain ⟨c, l', b', r', hfill⟩ := ihl h
      refine ⟨c++[⟨.left, y, b, r⟩], l', b', r', ?_⟩
      rw [fill_append, ← hfill]
      rfl
    · exact ⟨[], l, b, r, rfl⟩
    · obtain ⟨c, l', b', r', hfill⟩ := ihr h
      refine ⟨c++[⟨.right, y, b, l⟩], l', b', r', ?_⟩
      rw [fill_append, ← hfill]
      rfl

end Order

section Height

/-- The height is at most logarithmic in the number of the nodes. -/
theorem fib_height_le (t : HTree α) (h : t.IsAvl) : Nat.fib (t.height+2) ≤ t.inorder.length+1 := by
  induction t with
  | nil => simp [height, inorder]
  | node l x b r ihl ihr =>
    obtain ⟨hlr, hl, hr⟩ := h
    have hle := Side.right.excess_le b
    have hL := ihl hl
    have hR := ihr hr
    simp only [height, inorder, List.length_append, List.length_cons]
    -- the lower subtree is at most one lower than the taller one
    have hfib : Nat.fib (max l.height r.height+1+2) ≤
        Nat.fib (l.height+2)+Nat.fib (r.height+2) := by
      rcases le_total l.height r.height with hmax | hmax
      · rw [max_eq_right hmax, Nat.fib_add_two, show r.height+1+1 = r.height+2 by ring]
        have hmono : Nat.fib (r.height+1) ≤ Nat.fib (l.height+2) := Nat.fib_mono (by omega)
        omega
      · rw [max_eq_left hmax, Nat.fib_add_two, show l.height+1+1 = l.height+2 by ring]
        have hmono : Nat.fib (l.height+1) ≤ Nat.fib (r.height+2) := Nat.fib_mono (by omega)
        omega
    omega

theorem length_le_height (c : List (Frame α)) (t : HTree α) :
    c.length+t.height ≤ (fill c t).height := by
  induction c generalizing t with
  | nil => simp [fill]
  | cons f c ih =>
    have := ih (bend f.side t f.item f.tilt f.sibling)
    rw [height_bend] at this
    simp only [List.length_cons, fill]
    omega

end Height

end BruhOS.BalancedTree
