import BruhOS.AvlRuns
import BruhOS.VasRegions

/-!
# Regions in the library's tree

The region tree of a run is a tree of the library, so no insertion compares
more than 87 times, however long the run. Its loops end with a fuel that does
not depend on the number of calls.
-/

set_option autoImplicit false

namespace BruhOS.Vas

open BruhOS.PointerTree BruhOS.BalancedTree BruhOS.AvlTree

section Fuel

variable {off : ℕ} {pfaAllocPage : ℕ → ℕ} {k fuel fuel' L : ℕ} {s : State} {P F : List ℕ}
  {f : ℕ} {T : NodeTree} {reg : ℕ → Region} {r : Region}

/-- The tree of a sound state, with its balance factors. -/
theorem sound_tree (h : Sound (library k) s P (f::F) T reg) :
    ∃ t, erase t = T ∧ s.root = t.ptr ∧ Shape (wordsOf s.mem) 0 t ∧ t.IsAvl ∧
      t.height ≤ 87 := by
  obtain ⟨t, ht, hb, hroot, hshape⟩ := h.kept
  have hfit := h.fit (h.list.slots f (by simp)) h.new_node
  have hsub : Fit t.inorder := by
    rw [← inorder_erase, ht]
    exact fit_subset hfit h.nodup (fun x hx => by simp [hx])
  exact ⟨t, ht, hroot, hshape, hb, height_le hsub hb⟩

theorem seek_mono {cmp : ℕ → Option ℤ} {m : Cells} {q n : ℕ} (hle : fuel ≤ fuel')
    (h : seek cmp m fuel q = some n) : seek cmp m fuel' q = some n := by
  induction fuel generalizing fuel' q with
  | zero => exact absurd h (by simp [seek])
  | succ fuel ih =>
    obtain ⟨fuel', rfl⟩ : ∃ i, fuel' = i+1 := ⟨fuel'-1, by omega⟩
    rw [seek] at h ⊢
    split_ifs at h ⊢ with hq
    · exact h
    · cases hc : cmp q with
      | none =>
        rw [hc] at h
        exact absurd h (by simp)
      | some c =>
        simp only [hc] at h ⊢
        split_ifs at h ⊢ with h1 h2
        · obtain ⟨l, hl, hgo⟩ := Option.bind_eq_some_iff.mp h
          rw [hl, Option.bind_some]
          exact ih (by omega) hgo
        · obtain ⟨x, hx, hgo⟩ := Option.bind_eq_some_iff.mp h
          rw [hx, Option.bind_some]
          exact ih (by omega) hgo
        · exact h

/-- An insertion does not see how much fuel there is beyond the height of its tree. -/
theorem vasAlloc_fuel (Table : ℕ) (h : Managed off pfaAllocPage L (library k) s P F T reg)
    (hk : 87 ≤ k) (hs : Supply off pfaAllocPage L) (hr : r.Fits) (hroom : Room off pfaAllocPage L s)
    (hf : 88 ≤ fuel) (hf' : 88 ≤ fuel') :
    vasAlloc off pfaAllocPage (library k) Table fuel s r =
      vasAlloc off pfaAllocPage (library k) Table fuel' s r := by
  obtain ⟨f, F, rfl⟩ := List.exists_cons_of_ne_nil h.sound.list.nonempty
  have hfb := (h.sound.list.slots f (by simp)).bounds h.sound.list.laid
  obtain ⟨m', j, P', F', heq, -, -, hsound, hreg⟩ :=
    prepare_spec h.sound (library_spec hk) hr (takes_of_room h hs hroom)
  obtain ⟨f', F'', rfl⟩ := List.exists_cons_of_ne_nil hsound.list.nonempty
  obtain ⟨t, ht, hroot, hshape, -, hheight⟩ := sound_tree hsound
  have hwalk : ∀ i, 88 ≤ i →
      insertWalk i (s.handOut (setRecord m' f r) f j) f = some (T.find (compare r reg) .root) := by
    intro i hi
    rw [insertWalk, words_eq (by omega), hroot, ← ht]
    apply walk_spec t .root hshape _ (by omega)
    intro q hq
    rw [← inorder_erase, ht] at hq
    exact cmp_eq hreg (hsound.records q hq)
  simp only [vasAlloc, heq, Option.bind_eq_bind, Option.bind_some, hwalk fuel hf, hwalk fuel' hf']

theorem balanced_step (Table : ℕ) {n : ℕ} (h : Ordered off pfaAllocPage L (library k) n s)
    (hk : 87 ≤ k) (hs : Supply off pfaAllocPage L) (hf : 88 ≤ fuel) (op : Op)
    (hm : Meets off pfaAllocPage fuel L s op) :
    ∃ s', step off pfaAllocPage (library k) Table fuel s op = some s' ∧
      Ordered off pfaAllocPage L (library k) (n+1) s' := by
  have hm' : Meets off pfaAllocPage (fuel+n+1) L s op := by
    cases op with
    | alloc r => exact hm
    | free ptr => exact seek_mono (by omega) hm
  obtain ⟨s', heq, hord⟩ := ordered_step Table h (library_spec hk) hs (by omega) op hm'
  refine ⟨s', ?_, hord⟩
  cases op with
  | alloc r =>
    obtain ⟨P, F, T, reg, hman, -⟩ := h
    obtain ⟨hr, hroom, -⟩ := hm
    rw [step] at heq ⊢
    rwa [vasAlloc_fuel Table hman hk hs hr.fits hroom hf (by omega : 88 ≤ fuel+n+1)]
  | free ptr =>
    obtain ⟨hlook, hlook'⟩ := And.intro hm hm'
    simp only [Meets] at hlook hlook'
    simp only [step, vasFree, hlook, hlook'] at heq ⊢
    exact heq

end Fuel

end BruhOS.Vas
