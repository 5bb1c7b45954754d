import Mathlib.Data.List.Nodup
import Mathlib.Logic.Function.Basic

/-!
# Doubly linked rings over an addressed store

A store gives every address a successor and a predecessor. A chain leaves an
anchor, visits a list of addresses and arrives at a second anchor; a ring
arrives where it started. Every statement speaks about the two link maps
only, so payload carried by the cells never enters.
-/

set_option autoImplicit false

namespace BruhOS.LinkedRing

variable {α : Type*}

/-- The links agree in both directions along the whole chain. -/
def Linked (next prev : α → α) : α → List α → α → Prop
  | a, [], b => next a = b ∧ prev b = a
  | a, x::xs, b => next a = x ∧ prev x = a ∧ Linked next prev x xs b

/-- The last address before the chain arrives, the anchor if it visits none. -/
def lastOf : α → List α → α
  | a, [] => a
  | _, x::xs => lastOf x xs

theorem lastOf_mem (a : α) (xs : List α) : lastOf a xs ∈ a :: xs := by
  induction xs generalizing a with
  | nil => simp [lastOf]
  | cons x xs ih => exact List.mem_cons_of_mem _ (ih x)

@[simp] theorem lastOf_append_cons (a y : α) (xs ys : List α) :
    lastOf a (xs++y::ys) = lastOf y ys := by
  induction xs generalizing a with
  | nil => rfl
  | cons x xs ih => exact ih x

theorem lastOf_eq_anchor (a : α) (xs : List α) (hn : (a::xs).Nodup) :
    lastOf a xs = a ↔ xs = [] := by
  cases xs with
  | nil => simp [lastOf]
  | cons x xs =>
    simp only [reduceCtorEq, iff_false]
    intro h
    exact (List.nodup_cons.mp hn).1 (h ▸ lastOf_mem x xs)

theorem linked_append (next prev : α → α) (a y b : α) (xs ys : List α) :
    Linked next prev a (xs++y::ys) b ↔
      Linked next prev a xs y ∧ Linked next prev y ys b := by
  induction xs generalizing a with
  | nil => simp [Linked, and_assoc]
  | cons x xs ih => simp [Linked, ih, and_assoc]

theorem linked_arrival (next prev : α → α) (a b : α) (xs : List α)
    (h : Linked next prev a xs b) : next (lastOf a xs) = b ∧ prev b = lastOf a xs := by
  induction xs generalizing a with
  | nil => exact h
  | cons x xs ih => exact ih x h.2.2

/-- A chain only depends on the successors of what it leaves and on the
predecessors of what it reaches. -/
theorem linked_congr (next prev next' prev' : α → α) (a b : α) (xs : List α)
    (hn : ∀ x ∈ a::xs, next' x = next x) (hp : ∀ x ∈ b::xs, prev' x = prev x)
    (h : Linked next prev a xs b) : Linked next' prev' a xs b := by
  induction xs generalizing a with
  | nil => exact ⟨(hn a (by simp)).trans h.1, (hp b (by simp)).trans h.2⟩
  | cons x xs ih =>
    refine ⟨(hn a (by simp)).trans h.1, (hp x (by simp)).trans h.2.1, ih x ?_ ?_ h.2.2⟩
    · intro y hy
      exact hn y (List.mem_cons_of_mem _ hy)
    · intro y hy
      rcases List.mem_cons.mp hy with rfl | hy
      · exact hp y (by simp)
      · exact hp y (by simp [hy])

/-- Redirecting the last link of a chain to a new destination. -/
theorem linked_retarget (next prev next' prev' : α → α) (a b c : α) (xs : List α)
    (hd : (a::xs).Nodup) (h : Linked next prev a xs b)
    (hn : ∀ x ∈ a::xs, x ≠ lastOf a xs → next' x = next x)
    (hp : ∀ x ∈ xs, prev' x = prev x)
    (hc : next' (lastOf a xs) = c) (hb : prev' c = lastOf a xs) :
    Linked next' prev' a xs c := by
  induction xs generalizing a with
  | nil => exact ⟨hc, hb⟩
  | cons x xs ih =>
    obtain ⟨hax, hd⟩ := List.nodup_cons.mp hd
    have hne : a ≠ lastOf x xs := fun h => hax (h ▸ lastOf_mem x xs)
    refine ⟨(hn a (by simp) hne).trans h.1, (hp x (by simp)).trans h.2.1, ?_⟩
    exact ih x hd h.2.2 (fun y hy => hn y (List.mem_cons_of_mem _ hy))
      (fun y hy => hp y (List.mem_cons_of_mem _ hy)) hc hb

/-- Appending a fresh address to a ring writes four links. -/
theorem ring_append (next prev next' prev' : α → α) (a e : α) (xs : List α)
    (hd : (a::xs).Nodup) (h : Linked next prev a xs a)
    (hn : ∀ x ∈ a::xs, x ≠ lastOf a xs → next' x = next x)
    (hp : ∀ x ∈ xs, prev' x = prev x)
    (hl : next' (lastOf a xs) = e) (he : prev' e = lastOf a xs)
    (hen : next' e = a) (hap : prev' a = e) : Linked next' prev' a (xs++[e]) a := by
  rw [linked_append]
  exact ⟨linked_retarget next prev next' prev' a a e xs hd h hn hp hl he, hen, hap⟩

/-- Unlinking an address of a ring writes two links. -/
theorem ring_remove (next prev next' prev' : α → α) (a e : α) (xs ys : List α)
    (hd : (a::(xs++e::ys)).Nodup) (h : Linked next prev a (xs++e::ys) a)
    (hn : ∀ x, x ≠ prev e → next' x = next x) (hp : ∀ x, x ≠ next e → prev' x = prev x)
    (hl : next' (prev e) = next e) (hr : prev' (next e) = prev e) :
    Linked next' prev' a (xs++ys) a := by
  obtain ⟨h1, h2⟩ := (linked_append next prev a e a xs ys).mp h
  have hpe : prev e = lastOf a xs := (linked_arrival next prev a e xs h1).2
  have hda : (a::xs).Nodup := by
    refine hd.sublist ?_
    exact List.Sublist.cons_cons a (List.sublist_append_left xs _)
  have hn' : ∀ x ∈ a::xs, x ≠ lastOf a xs → next' x = next x :=
    fun x _ hx => hn x (hpe ▸ hx)
  cases ys with
  | nil =>
    have hne : next e = a := h2.1
    have hp' : ∀ x ∈ xs, prev' x = prev x := by
      intro x hx
      refine hp x ?_
      rintro rfl
      exact (List.nodup_cons.mp hda).1 (hne ▸ hx)
    rw [hne] at hl hr
    rw [List.append_nil]
    exact linked_retarget next prev next' prev' a e a xs hda h1 hn' hp'
      (hpe ▸ hl) (hpe ▸ hr)
  | cons y ys =>
    have hne : next e = y := h2.1
    rw [hne] at hl hr hp
    have hxy : y ∉ xs ∧ y ≠ a ∧ y ∉ ys ∧ ∀ x ∈ y::ys, x ∉ a::xs := by
      simp only [List.nodup_cons, List.nodup_append, List.mem_append, List.mem_cons] at hd
      grind
    rw [linked_append]
    constructor
    · refine linked_retarget next prev next' prev' a e y xs hda h1 hn' ?_ (hpe ▸ hl) (hpe ▸ hr)
      intro x hx
      exact hp x (fun h => hxy.1 (h ▸ hx))
    · refine linked_congr next prev next' prev' y a ys ?_ ?_ h2.2.2
      · intro x hx
        refine hn x (fun h => hxy.2.2.2 x hx ?_)
        rw [h, hpe]
        exact lastOf_mem a xs
      · intro x hx
        refine hp x ?_
        rintro rfl
        rcases List.mem_cons.mp hx with h | h
        · exact hxy.2.1 h
        · exact hxy.2.2.1 h

end BruhOS.LinkedRing
