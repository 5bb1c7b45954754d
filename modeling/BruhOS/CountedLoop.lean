import Mathlib.Data.List.Basic
import Mathlib.Tactic

/-!
# Invariants of counted loops

A `for` loop over `0 … n-1` is a left fold over `List.range n`. An invariant
indexed by the number of completed passes is enough for the whole loop.
-/

set_option autoImplicit false

namespace BruhOS.CountedLoop

variable {σ α : Type*}

theorem range_loop (f : σ → ℕ → σ) (I : ℕ → σ → Prop) (n : ℕ) (s : σ) (h0 : I 0 s)
    (step : ∀ k < n, ∀ t, I k t → I (k+1) (f t k)) : I n ((List.range n).foldl f s) := by
  induction n with
  | zero => exact h0
  | succ n ih =>
    rw [List.range_succ, List.foldl_append]
    exact step n (by omega) _ (ih (fun k hk => step k (by omega)))

/-- The invariant of a pass over a list speaks about the elements visited. -/
theorem list_loop (f : σ → α → σ) (I : List α → σ → Prop) (xs : List α) (s : σ) (h0 : I [] s)
    (step : ∀ ys x zs t, xs = ys++x::zs → I ys t → I (ys++[x]) (f t x)) :
    I xs (xs.foldl f s) := by
  have hprefix : ∀ zs ys t, xs = ys++zs → I ys t → I xs (zs.foldl f t) := by
    intro zs
    induction zs with
    | nil =>
      intro ys t hxs ht
      rw [hxs, List.append_nil]
      exact ht
    | cons x zs ih =>
      intro ys t hxs ht
      exact ih (ys++[x]) (f t x) (by simp [hxs]) (step ys x zs t hxs ht)
  exact hprefix xs [] s rfl h0

end BruhOS.CountedLoop
