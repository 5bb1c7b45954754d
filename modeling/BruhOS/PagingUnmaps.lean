import BruhOS.PagingMaps

/-!
# What unmapping removes

`unmapVirtual` follows the address fields of two entries and then clears a
present bit in the table it has reached, which is a page directory: the
descent ends one level above the page table. The entry cleared is the one at
the page's own index, so a whole region of 2 MiB is unmapped, or none.
-/

set_option autoImplicit false

namespace BruhOS.Paging

open BruhOS.TableTree

variable {off Table : ℕ}

/-- The tables that `unmapVirtual` reads or writes. -/
def unmapTouches (off : ℕ) (m : Tables) : List Index → ℕ → Index → List ℕ
  | [], table, i => if entryPtr table i = 0 then [] else [table]
  | j::js, table, i =>
    if entryPtr table i = 0 then []
    else table :: unmapTouches off m js (target off (m table i)) j

def touched (off Table : ℕ) (m : Tables) (va : ℕ) : List ℕ :=
  unmapTouches off m [index va 2, index va 1] (virt off Table) (index va 3)

/-- `unmapVirtual` removes the translation of the page and nothing else. -/
structure UnmapsExactly (off Table : ℕ) (m : Tables) (va : ℕ) : Prop where
  gone : walk off (unmapVirtual off Table va m) Table va = none
  others : ∀ va', ¬ SamePage va' va →
    walk off (unmapVirtual off Table va m) Table va' = walk off m Table va'
  absent : walk off m Table va = none → unmapVirtual off Table va m = m ∧
    ∀ t ∈ touched off Table m va, InTree off Table m t

/-- The page directory pointer table that the address field of the PML4 entry names. -/
def pointerTable (off Table : ℕ) (m : Tables) (va : ℕ) : ℕ :=
  target off (m (virt off Table) (index va 3))

/-- The page directory that the address fields of the two upper entries name. -/
def directory (off Table : ℕ) (m : Tables) (va : ℕ) : ℕ :=
  target off (m (pointerTable off Table m va) (index va 2))

/-- None of the three entries looked at is at the null pointer. -/
def NoNull (off Table : ℕ) (m : Tables) (va : ℕ) : Prop :=
  entryPtr (virt off Table) (index va 3) ≠ 0 ∧
  entryPtr (pointerTable off Table m va) (index va 2) ≠ 0 ∧
  entryPtr (directory off Table m va) (index va 1) ≠ 0

instance (off Table : ℕ) (m : Tables) (va : ℕ) : Decidable (NoNull off Table m va) :=
  inferInstanceAs (Decidable (_ ∧ _ ∧ _))

/-- The same region of 2 MiB. -/
def SameRegion (a b : ℕ) : Prop := a/2^21 % 2^27 = b/2^21 % 2^27

/-- The inputs on which `unmapVirtual` does what its name says. -/
def UnmapMeets (off Table : ℕ) (m : Tables) (va : ℕ) : Prop :=
  (walk off m Table va = none ∧ (∀ t ∈ touched off Table m va, InTree off Table m t) ∧
    (NoNull off Table m va → present (m (directory off Table m va) (index va 0)) = false)) ∨
  (walk off m Table va ≠ none ∧ NoNull off Table m va ∧ index va 0 = index va 1 ∧
    ∀ va', SameRegion va' va → ¬ SamePage va' va → walk off m Table va' = none)

section Call

variable {m : Tables} {va : ℕ}

theorem unmapVirtual_eq (m : Tables) (va : ℕ) : unmapVirtual off Table va m =
    if NoNull off Table m va then
      write m (directory off Table m va) (index va 0)
        (clearPresent (m (directory off Table m va) (index va 0)))
    else m := by
  unfold unmapVirtual NoNull
  simp only [unmapDescend]
  by_cases h1 : entryPtr (virt off Table) (index va 3) = 0
  · simp [h1]
  · by_cases h2 : entryPtr (pointerTable off Table m va) (index va 2) = 0
    · have h2' := h2
      unfold pointerTable at h2'
      simp [h1, h2, h2']
    · by_cases h3 : entryPtr (directory off Table m va) (index va 1) = 0
      · have h2' := h2
        have h3' := h3
        unfold directory at h3'
        unfold pointerTable at h2' h3'
        simp [h1, h2', h3', h3]
      · have h2' := h2
        have h3' := h3
        unfold directory at h3'
        unfold pointerTable at h2' h3'
        simp only [h1, h2', h3', h2, h3, if_false, not_false_eq_true, and_self, if_true, ne_eq]
        rfl

theorem clearPresent_eq_iff (e : ℕ) : clearPresent e = e ↔ present e = false := by
  simp only [clearPresent, present, Nat.testBit_zero, decide_eq_false_iff_not]
  omega

theorem child_clearPresent (e : ℕ) : child off (clearPresent e) = none := by
  have h : present (clearPresent e) = false := by
    simp [clearPresent, present]
  rw [child, h]
  rfl

theorem write_eq_iff (m : Tables) (t : ℕ) (i : Index) (e : ℕ) : write m t i e = m ↔ m t i = e := by
  constructor
  · intro h
    rw [← h, write_same]
  · intro h
    funext u j
    by_cases hu : u = t ∧ j = i
    · rw [hu.1, hu.2, write_same, h]
    · exact write_other e (by tauto)

theorem sameRegion_iff (a b : ℕ) : SameRegion a b ↔ upper a = upper b := by
  simp only [SameRegion, upper, index, List.cons.injEq, Fin.ext_iff, Fin.ofNat,
    Nat.shiftRight_eq_div_pow, and_true]
  constructor
  · intro h
    refine ⟨?_, ?_, ?_⟩ <;> omega
  · rintro ⟨h1, h2, h3⟩
    omega

/-- For a mapped address the fields lead to tables of the tree. -/
theorem directory_of_mapped (h : walk off m Table va ≠ none) :
    descend (child off) m (virt off Table) [index va 3, index va 2] =
      some (directory off Table m va) := by
  unfold walk leaf upper at h
  simp only [descend] at h ⊢
  cases h3 : child off (m (virt off Table) (index va 3)) with
  | none =>
    rw [h3] at h
    exact absurd rfl h
  | some t =>
    have ht : t = pointerTable off Table m va := by
      unfold child at h3
      split at h3
      · exact (Option.some.inj h3).symm
      · cases h3
    rw [h3] at h
    rw [Option.bind_some] at h ⊢
    cases h2 : child off (m t (index va 2)) with
    | none =>
      rw [h2] at h
      exact absurd rfl h
    | some u =>
      rw [Option.bind_some, directory, ← ht]
      unfold child at h2
      split at h2
      · exact h2.symm ▸ rfl
      · cases h2

/-- Clearing an entry of a page directory unmaps its region and nothing else. -/
theorem directory_walk (hT : TableTree off Table m) {p : List Index} {t : ℕ} (hlen : p.length = 2)
    (ht : descend (child off) m (virt off Table) p = some t) (i : Index) (x : ℕ) :
    walk off (write m t i (clearPresent (m t i))) Table x =
      if upper x = p++[i] then none else walk off m Table x := by
  unfold walk leaf
  by_cases hx : upper x = p++[i]
  · rw [if_pos hx, hx, descend_snoc (descend_write_self hT ht (by omega) _), write_same,
      child_clearPresent]
    rfl
  · have hd : descend (child off) (write m t i (clearPresent (m t i))) (virt off Table) (upper x) =
        descend (child off) m (virt off Table) (upper x) := by
      apply descend_write hT ht (by omega) _ (by simp [upper])
      intro hpre
      exact hx (hpre.eq_of_length (by simp [upper, hlen])).symm
    rw [if_neg hx, hd]
    cases hl : descend (child off) m (virt off Table) (upper x) with
    | none => rfl
    | some y =>
      have hy : y ≠ t := by
        rintro rfl
        have := congrArg List.length (hT p (upper x) y (by omega) (by simp [upper]) ht hl)
        simp [upper, hlen] at this
      rw [Option.map_some, Option.map_some, write_other _ (Or.inl hy)]

theorem directory_tree (hT : TableTree off Table m) {p : List Index} {t : ℕ} (hlen : p.length = 2)
    (ht : descend (child off) m (virt off Table) p = some t) (i : Index) :
    TableTree off Table (write m t i (clearPresent (m t i))) := by
  have hsub : ∀ q x, q.length ≤ 3 →
      descend (child off) (write m t i (clearPresent (m t i))) (virt off Table) q = some x →
      descend (child off) m (virt off Table) q = some x := by
    intro q x hq hx
    by_cases hpre : p++[i] <+: q
    · obtain ⟨r, rfl⟩ := hpre
      rw [descend_append, descend_snoc (descend_write_self hT ht (by omega) _), write_same,
        child_clearPresent] at hx
      cases hx
    · rwa [descend_write hT ht (by omega) _ (by omega) hpre] at hx
  intro q r x hq hr hdq hdr
  exact hT q r x hq hr (hsub q x hq hdq) (hsub r x hr hdr)

/-- The walks after the call, for an address that was mapped. -/
theorem unmapVirtual_walk (hT : TableTree off Table m) (h : walk off m Table va ≠ none)
    (hn : NoNull off Table m va) (x : ℕ) :
    walk off (unmapVirtual off Table va m) Table x =
      if upper x = [index va 3, index va 2, index va 0] then none else walk off m Table x := by
  rw [unmapVirtual_eq, if_pos hn]
  exact directory_walk hT rfl (directory_of_mapped h) (index va 0) x

theorem unmapVirtual_same (hn : ¬ NoNull off Table m va) : unmapVirtual off Table va m = m := by
  rw [unmapVirtual_eq, if_neg hn]

theorem unmapVirtual_eq_iff : unmapVirtual off Table va m = m ↔
    (NoNull off Table m va → present (m (directory off Table m va) (index va 0)) = false) := by
  by_cases hn : NoNull off Table m va
  · rw [unmapVirtual_eq, if_pos hn, write_eq_iff, eq_comm, clearPresent_eq_iff]
    exact ⟨fun h _ => h, fun h => h hn⟩
  · simp [unmapVirtual_same hn, hn]

theorem unmapsExactly_iff (hT : TableTree off Table m) :
    UnmapsExactly off Table m va ↔ UnmapMeets off Table m va := by
  by_cases hw : walk off m Table va = none
  · constructor
    · intro h
      obtain ⟨hsame, htouched⟩ := h.absent hw
      exact Or.inl ⟨hw, htouched, unmapVirtual_eq_iff.mp hsame⟩
    · rintro (⟨-, htouched, hclear⟩ | ⟨hne, -⟩)
      · have hsame := unmapVirtual_eq_iff.mpr hclear
        exact ⟨by rw [hsame, hw], fun va' _ => by rw [hsame], fun _ => ⟨hsame, htouched⟩⟩
      · exact absurd hw hne
  · constructor
    · intro h
      have hn : NoNull off Table m va := by
        by_contra hn
        have hgone := h.gone
        rw [unmapVirtual_same hn] at hgone
        exact hw hgone
      have hgone := h.gone
      rw [unmapVirtual_walk hT hw hn] at hgone
      have hidx : index va 0 = index va 1 := by
        by_contra hne
        rw [if_neg (by simp [upper, Ne.symm hne])] at hgone
        exact hw hgone
      refine Or.inr ⟨hw, hn, hidx, fun va' hreg hpage => ?_⟩
      rw [← h.others va' hpage, unmapVirtual_walk hT hw hn, if_pos]
      rw [(sameRegion_iff va' va).mp hreg, hidx]
      rfl
    · rintro (⟨hnone, -⟩ | ⟨-, hn, hidx, hothers⟩)
      · exact absurd hnone hw
      · have hregion : [index va 3, index va 2, index va 0] = upper va := by
          rw [hidx]
          rfl
        refine ⟨?_, fun va' hpage => ?_, fun hnone => absurd hnone hw⟩
        · rw [unmapVirtual_walk hT hw hn, if_pos hregion.symm]
        · rw [unmapVirtual_walk hT hw hn, hregion]
          by_cases hreg : upper va' = upper va
          · rw [if_pos hreg, hothers va' ((sameRegion_iff va' va).mpr hreg) hpage]
          · rw [if_neg hreg]

theorem unmapVirtual_tree (hT : TableTree off Table m) (h : UnmapMeets off Table m va) :
    TableTree off Table (unmapVirtual off Table va m) := by
  rcases h with ⟨-, -, hclear⟩ | ⟨hw, hn, -⟩
  · rw [unmapVirtual_eq_iff.mpr hclear]
    exact hT
  · rw [unmapVirtual_eq, if_pos hn]
    exact directory_tree hT rfl (directory_of_mapped hw) _

end Call

/-- Every step of `unVirtual` meets the condition. -/
def UnmapMeetsAll (off Table v : ℕ) : ℕ → ℕ → Tables → Prop
  | 0, _, _ => True
  | n+1, i, m => UnmapMeets off Table m ((v+i*4096) % 2^64) ∧
      UnmapMeetsAll off Table v n (i+1) (unmapVirtual off Table ((v+i*4096) % 2^64) m)

section Loop

variable {v : ℕ}

theorem unLoop_walk (n i : ℕ) (m : Tables) (hT : TableTree off Table m)
    (h : UnmapMeetsAll off Table v n i m) (x : ℕ) :
    ((∃ k, i ≤ k ∧ k < i+n ∧ SamePage x ((v+k*4096) % 2^64)) →
      walk off (unLoop off Table v n i m) Table x = none) ∧
    ((∀ k, i ≤ k → k < i+n → ¬ SamePage x ((v+k*4096) % 2^64)) →
      walk off (unLoop off Table v n i m) Table x = walk off m Table x) := by
  induction n generalizing i m with
  | zero =>
    constructor
    · rintro ⟨k, h1, h2, -⟩
      omega
    · intro _
      rfl
  | succ n ih =>
    obtain ⟨hgone, hothers, -⟩ := (unmapsExactly_iff hT).mpr h.1
    obtain ⟨ih1, ih2⟩ := ih (i+1) _ (unmapVirtual_tree hT h.1) h.2
    rw [unLoop]
    constructor
    · rintro ⟨k, h1, h2, hk⟩
      by_cases hlater : ∃ j, i+1 ≤ j ∧ j < i+1+n ∧ SamePage x ((v+j*4096) % 2^64)
      · exact ih1 hlater
      · have hki : k = i := by
          by_contra hne
          exact hlater ⟨k, by omega, by omega, hk⟩
        rw [ih2 (fun j h3 h4 hj => hlater ⟨j, h3, h4, hj⟩), walk_congr hk, hki, hgone]
    · intro hall
      rw [ih2 (fun j h3 h4 => hall j (by omega) (by omega)),
        hothers x (hall i (le_refl i) (by omega))]

end Loop

section Single

/-- The tables after one page is mapped below an empty PML4 at 0x10000. -/
def onePage (va : ℕ) : State :=
  mapVtop 0xffff800000000000 (fun a => 0x10000+(a+1)*4096) 0x10000 va 0x5000 3 ⟨fun _ _ => 0, 0⟩

theorem onePage_fresh (va : ℕ) (h : (onePage va).taken ≤ 3) :
    FreshPages 0xffff800000000000 (fun a => 0x10000+(a+1)*4096) 0x10000 (fun _ _ => 0) 0
      (onePage va).taken := by
  apply freshPages_empty
  · exact fun _ => rfl
  · omega
  · decide

end Single

end BruhOS.Paging
