import Mathlib.Logic.Function.Iterate
import Mathlib.Tactic

/-!
# Walks that restart

A walk follows a path as long as the path is open, and continues from a
restart point when it closes. Such a walk is a sequence of segments, and the
place it has reached after any number of steps is read off the lengths of
the segments before.
-/

set_option autoImplicit false

namespace BruhOS.Restart

structure Walk (σ : Type*) where
  next : σ → σ
  path : σ → ℕ → σ
  Open : σ → ℕ → Prop
  restart : σ → σ
  path_zero : ∀ a, path a 0 = a
  open_zero : ∀ a, Open a 0
  open_of_succ : ∀ a m, Open a (m+1) → Open a m
  next_open : ∀ a m, Open a (m+1) → next (path a m) = path a (m+1)
  next_closed : ∀ a m, Open a m → ¬ Open a (m+1) → next (path a m) = restart a

namespace Walk

variable {σ : Type*} (w : Walk σ) {a b : σ} {c d m n : ℕ}

/-- The path from `a` closes with its step number `c`. -/
def Fills (a : σ) (c : ℕ) : Prop := w.Open a (c-1) ∧ ¬ w.Open a c

theorem open_of_le (h : w.Open a n) (hm : m ≤ n) : w.Open a m := by
  induction n, hm using Nat.le_induction with
  | base => exact h
  | succ n _ ih => exact ih (w.open_of_succ a n h)

theorem fills_pos (h : w.Fills a c) : 0 < c := by
  apply Nat.pos_of_ne_zero
  intro hc
  subst hc
  exact h.2 h.1

theorem open_iff_lt (h : w.Fills a c) : w.Open a m ↔ m < c := by
  have hpos := w.fills_pos h
  constructor
  · intro hm
    by_contra hc
    exact h.2 (w.open_of_le hm (by omega))
  · intro hm
    exact w.open_of_le h.1 (by omega)

theorem fills_unique (h : w.Fills a c) (h' : w.Fills a d) : c = d := by
  have hc := w.open_iff_lt h (m := d)
  have hd := w.open_iff_lt h' (m := c)
  by_contra hne
  rcases Nat.lt_or_gt_of_ne hne with hlt | hlt
  · exact h.2 (hd.mpr hlt)
  · exact h'.2 (hc.mpr hlt)

/-- After `m` steps the path is still open, or it has closed before. -/
theorem open_or_fills (a : σ) (m : ℕ) : w.Open a m ∨ ∃ c r, w.Fills a c ∧ m = c+r := by
  induction m with
  | zero => exact Or.inl (w.open_zero a)
  | succ m ih =>
    rcases ih with h | ⟨c, r, hc, rfl⟩
    · by_cases hs : w.Open a (m+1)
      · exact Or.inl hs
      · exact Or.inr ⟨m+1, 0, ⟨h, hs⟩, rfl⟩
    · exact Or.inr ⟨c, r+1, hc, rfl⟩

theorem iterate_open (h : w.Open a m) : w.next^[m] a = w.path a m := by
  induction m with
  | zero => exact (w.path_zero a).symm
  | succ m ih =>
    rw [Function.iterate_succ_apply', ih (w.open_of_succ a m h), w.next_open a m h]

theorem iterate_fills (h : w.Fills a c) : w.next^[c] a = w.restart a := by
  obtain ⟨c, rfl⟩ : ∃ k, c = k+1 := ⟨c-1, by have := w.fills_pos h; omega⟩
  have hopen : w.Open a c := h.1
  rw [Function.iterate_succ_apply', w.iterate_open hopen]
  exact w.next_closed a c hopen h.2

/-- The walk behind a segment is the walk from its restart point. -/
theorem iterate_after (h : w.Fills a c) (m : ℕ) :
    w.next^[c+m] a = w.next^[m] (w.restart a) := by
  rw [Nat.add_comm, Function.iterate_add_apply, w.iterate_fills h]

/-- Segments of one length behind the first. -/
theorem iterate_segments (h : w.Fills a c) (hs : ∀ b, w.Fills (w.restart b) d) (j : ℕ) :
    w.next^[c+j*d] a = w.restart^[j+1] a := by
  induction j with
  | zero => rw [Nat.zero_mul, Nat.add_zero, w.iterate_fills h, Function.iterate_one]
  | succ j ih =>
    have hlen : c+(j+1)*d = d+(c+j*d) := by ring
    have hfill : w.Fills (w.restart^[j+1] a) d := by
      rw [Function.iterate_succ_apply']
      exact hs _
    rw [hlen, Function.iterate_add_apply, ih, w.iterate_fills hfill]
    exact (Function.iterate_succ_apply' _ _ _).symm

/-- Every number of steps ends in the first segment or in one of the equal segments behind. -/
theorem segment_cases (hs : ∀ b, w.Fills (w.restart b) d) (a : σ) (m : ℕ) :
    w.Open a m ∨ ∃ c j i, w.Fills a c ∧ i < d ∧ m = c+j*d+i := by
  rcases w.open_or_fills a m with h | ⟨c, r, hc, rfl⟩
  · exact Or.inl h
  · have hd := w.fills_pos (hs a)
    refine Or.inr ⟨c, r/d, r%d, hc, Nat.mod_lt r hd, ?_⟩
    rw [Nat.add_assoc, Nat.div_add_mod']

/-- A restart point that all segments share is left on its own path again. -/
theorem iterate_shared (hs : w.restart a = a) (m : ℕ) :
    ∃ r ≤ m, w.Open a r ∧ w.next^[m] a = w.path a r := by
  induction m using Nat.strong_induction_on with
  | _ m ih =>
    rcases w.open_or_fills a m with h | ⟨c, r, hc, rfl⟩
    · exact ⟨m, le_rfl, h, w.iterate_open h⟩
    · have hpos := w.fills_pos hc
      obtain ⟨r', hle, hopen, hr⟩ := ih r (by omega)
      refine ⟨r', by omega, hopen, ?_⟩
      rw [w.iterate_after hc, hs, hr]

end Walk

end BruhOS.Restart
