import Mathlib.Data.List.Basic
import Mathlib.Tactic

/-!
# Walks over records that state their own length

A walk starts at offset zero and moves on by the length the record itself
states, until it has passed the end of the area. Lengths and contents are
arbitrary: a record of length zero is visited forever. The body of the loop
may fail and may itself run out of steps. A walk that ends is the same as one
pass of the body over the list of visited offsets.
-/

set_option autoImplicit false

namespace BruhOS.RecordWalk

variable {σ ε : Type*}

/-- A computation with a step bound ends with a state. -/
def Ends (x : ℕ → Option (Except ε σ)) (s : σ) : Prop := ∃ fuel, x fuel = some (.ok s)

/-- More steps do not change an outcome. -/
def Monotone (x : ℕ → Option (Except ε σ)) : Prop :=
  ∀ fuel s, x fuel = some (.ok s) → x (fuel+1) = some (.ok s)

theorem Monotone.le {x : ℕ → Option (Except ε σ)} (h : Monotone x) {m n : ℕ} (hmn : m ≤ n) {s : σ}
    (hs : x m = some (.ok s)) : x n = some (.ok s) := by
  induction hmn with
  | refl => exact hs
  | step _ ih => exact h _ _ ih

section Walk

variable (size : ℕ) (len : ℕ → ℕ) (body : ℕ → ℕ → σ → Option (Except ε σ))

def walk : ℕ → ℕ → σ → Option (Except ε σ)
  | 0, _, _ => none
  | fuel+1, pos, s =>
    if pos < size then
      match body fuel pos s with
      | some (.ok s) => walk fuel (pos+len pos) s
      | stopped => stopped
    else some (.ok s)

/-- The first `n` offsets that a walk from `pos` visits. -/
def visitedFrom : ℕ → ℕ → List ℕ
  | 0, _ => []
  | n+1, pos => if pos < size then pos :: visitedFrom n (pos+len pos) else []

/-- An area of `size` bytes has at most as many records. -/
def visited : List ℕ := visitedFrom size len size 0

/-- One pass of the body over a list of offsets. -/
def Passes : List ℕ → σ → σ → Prop
  | [], s, s' => s' = s
  | p::ps, s, s' => ∃ t, Ends (fun fuel => body fuel p s) t ∧ Passes ps t s'

variable {size len body}

theorem walk_next {fuel pos : ℕ} {s t : σ} (hpos : pos < size)
    (hb : body fuel pos s = some (.ok t)) :
    walk size len body (fuel+1) pos s = walk size len body fuel (pos+len pos) t := by
  rw [walk, if_pos hpos, hb]

theorem walk_end {fuel pos : ℕ} {s : σ} (hpos : ¬ pos < size) :
    walk size len body (fuel+1) pos s = some (.ok s) := by
  rw [walk, if_neg hpos]

/-- A walk that ends inside the area has passed the record at its offset. -/
theorem walk_inside {fuel pos : ℕ} {s s' : σ} (hpos : pos < size)
    (h : walk size len body (fuel+1) pos s = some (.ok s')) :
    ∃ t, body fuel pos s = some (.ok t) ∧
      walk size len body fuel (pos+len pos) t = some (.ok s') := by
  rw [walk, if_pos hpos] at h
  cases hb : body fuel pos s with
  | none =>
    rw [hb] at h
    cases h
  | some out =>
    cases out with
    | error e =>
      rw [hb] at h
      cases h
    | ok t =>
      rw [hb] at h
      exact ⟨t, rfl, h⟩

theorem walk_mono (hm : ∀ pos s, Monotone (fun fuel => body fuel pos s)) (pos : ℕ) (s : σ) :
    Monotone (fun fuel => walk size len body fuel pos s) := by
  intro fuel
  induction fuel generalizing pos s with
  | zero =>
    intro s' h
    cases h
  | succ fuel ih =>
    intro s' h
    by_cases hpos : pos < size
    · obtain ⟨t, hb, hrest⟩ := walk_inside hpos h
      show walk size len body (fuel+1+1) pos s = _
      rw [walk_next hpos (hm pos s fuel t hb)]
      exact ih (pos+len pos) t s' hrest
    · show walk size len body (fuel+1+1) pos s = _
      rw [walk_end hpos]
      exact (walk_end hpos).symm.trans h

/-- A record of length zero inside the area is never left. -/
theorem walk_stays {pos : ℕ} (hpos : pos < size) (hlen : len pos = 0) (fuel : ℕ) (s s' : σ) :
    walk size len body fuel pos s ≠ some (.ok s') := by
  induction fuel generalizing s with
  | zero =>
    intro h
    cases h
  | succ fuel ih =>
    intro h
    obtain ⟨t, -, hrest⟩ := walk_inside hpos h
    rw [hlen] at hrest
    exact ih t hrest

theorem visitedFrom_outside {pos : ℕ} (hpos : ¬ pos < size) (n : ℕ) :
    visitedFrom size len n pos = [] := by
  cases n with
  | zero => rfl
  | succ n => rw [visitedFrom, if_neg hpos]

theorem visitedFrom_inside {n pos : ℕ} (hpos : pos < size) :
    visitedFrom size len (n+1) pos = pos :: visitedFrom size len n (pos+len pos) := by
  rw [visitedFrom, if_pos hpos]

theorem walk_passes {n pos : ℕ} {s s' : σ} (hn : size ≤ pos+n)
    (h : Ends (fun fuel => walk size len body fuel pos s) s') :
    (∀ p ∈ visitedFrom size len n pos, len p ≠ 0) ∧
      Passes body (visitedFrom size len n pos) s s' := by
  obtain ⟨fuel, h⟩ := h
  induction fuel generalizing n pos s with
  | zero => cases h
  | succ fuel ih =>
    by_cases hpos : pos < size
    · obtain ⟨n, rfl⟩ : ∃ k, n = k+1 := ⟨n-1, by omega⟩
      have hlen : len pos ≠ 0 := fun hlen => walk_stays hpos hlen (fuel+1) s s' h
      obtain ⟨t, hb, hrest⟩ := walk_inside hpos h
      obtain ⟨hlens, hpass⟩ := ih (show size ≤ pos+len pos+n by omega) hrest
      rw [visitedFrom_inside hpos]
      exact ⟨List.forall_mem_cons.mpr ⟨hlen, hlens⟩, t, ⟨fuel, hb⟩, hpass⟩
    · rw [visitedFrom_outside hpos]
      refine ⟨by simp, ?_⟩
      have heq := (walk_end hpos).symm.trans h
      cases heq
      rfl

theorem passes_walk (hm : ∀ pos s, Monotone (fun fuel => body fuel pos s)) {n pos : ℕ} {s s' : σ}
    (hn : size ≤ pos+n) (hlen : ∀ p ∈ visitedFrom size len n pos, len p ≠ 0)
    (h : Passes body (visitedFrom size len n pos) s s') :
    Ends (fun fuel => walk size len body fuel pos s) s' := by
  induction n generalizing pos s with
  | zero =>
    cases h
    exact ⟨1, walk_end (by omega)⟩
  | succ n ih =>
    by_cases hpos : pos < size
    · rw [visitedFrom_inside hpos] at hlen h
      obtain ⟨h0, hlens⟩ := List.forall_mem_cons.mp hlen
      obtain ⟨t, ⟨m, hb⟩, hpass⟩ := h
      obtain ⟨k, hrest⟩ := ih (show size ≤ pos+len pos+n by omega) hlens hpass
      refine ⟨max m k+1, ?_⟩
      show walk size len body (max m k+1) pos s = _
      rw [walk_next hpos ((hm pos s).le (le_max_left m k) hb)]
      exact (walk_mono hm _ t).le (le_max_right m k) hrest
    · rw [visitedFrom_outside hpos] at h
      cases h
      exact ⟨1, walk_end hpos⟩

/-- A walk ends exactly when no visited record has length zero and the body passes over all of
them. -/
theorem walk_ends_iff (hm : ∀ pos s, Monotone (fun fuel => body fuel pos s)) (s s' : σ) :
    Ends (fun fuel => walk size len body fuel 0 s) s' ↔
      (∀ p ∈ visited size len, len p ≠ 0) ∧ Passes body (visited size len) s s' :=
  ⟨walk_passes (by omega), fun h => passes_walk hm (by omega) h.1 h.2⟩

end Walk

end BruhOS.RecordWalk
