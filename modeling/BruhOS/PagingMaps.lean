import BruhOS.PagingMachine

/-!
# Mapping updates exactly the requested translations

The tables below a PML4 form a tree. `map_vtop` links at most three fresh
tables and writes one leaf, so the walk of every other page stays as it was.
-/

set_option autoImplicit false

namespace BruhOS.Paging

open BruhOS.TableTree

variable {off : ℕ} {pfaAllocPage : ℕ → ℕ} {Table : ℕ}

/-- The tree of tables below `Table` has no shared table. -/
def TableTree (off Table : ℕ) (m : Tables) : Prop := Unshared (child off) m (virt off Table) 3

/-- The tree has the table. -/
def InTree (off Table : ℕ) (m : Tables) (t : ℕ) : Prop :=
  ∃ q : List Index, q.length ≤ 3 ∧ descend (child off) m (virt off Table) q = some t

/-- The pages returned by the calls `k` to `l-1` of `pfa_alloc_page` are physical pages, are
not part of the tree, and are not returned twice. -/
structure FreshPages (off : ℕ) (pfaAllocPage : ℕ → ℕ) (Table : ℕ) (m : Tables) (k l : ℕ) : Prop where
  aligned : ∀ a, k ≤ a → a < l → 4096 ∣ pfaAllocPage a
  bounded : ∀ a, k ≤ a → a < l → pfaAllocPage a < 2^52
  absent : ∀ a, k ≤ a → a < l → ∀ q, q.length ≤ 3 →
    descend (child off) m (virt off Table) q ≠ some (virt off (pfaAllocPage a))
  distinct : ∀ a b, k ≤ a → a < b → b < l → pfaAllocPage a ≠ pfaAllocPage b

section Entries

theorem samePage_iff (a b : ℕ) : SamePage a b ↔ upper a = upper b ∧ index a 0 = index b 0 := by
  simp only [SamePage, upper, index, List.cons.injEq, Fin.ext_iff, Fin.ofNat,
    Nat.shiftRight_eq_div_pow, and_true]
  constructor
  · intro h
    refine ⟨⟨?_, ?_, ?_⟩, ?_⟩ <;> omega
  · rintro ⟨⟨h1, h2, h3⟩, h4⟩
    omega

theorem SamePage.refl (a : ℕ) : SamePage a a := rfl

theorem walk_congr {a b : ℕ} (h : SamePage a b) (m : Tables) :
    walk off m Table a = walk off m Table b := by
  obtain ⟨hu, h0⟩ := (samePage_iff a b).mp h
  rw [walk, walk, hu, h0]

theorem samePage_wrap (x a : ℕ) : SamePage x (a % 2^64) ↔ SamePage x a := by
  simp only [SamePage]
  omega

@[simp] theorem child_zero (off : ℕ) : child off 0 = none := by
  simp [child, present]

theorem present_setAddress (e a : ℕ) : present (setAddress e a) = present e :=
  testBit_setAddress e a 0 (by omega)

theorem present_sanitizeFlags (flags : ℕ) : present (sanitizeFlags flags) = present flags :=
  testBit_sanitizeFlags flags 0 (by decide)

theorem present_leafEntry (flags pa : ℕ) : present (leafEntry flags pa) = present flags := by
  rw [leafEntry, present_setAddress, present_sanitizeFlags]

theorem address_leafEntry {pa : ℕ} (flags : ℕ) (hpa : pa < 2^52) :
    address (leafEntry flags pa) = pa/4096 := by
  rw [leafEntry, address_setAddress]
  omega

theorem flagBits_leafEntry (flags pa : ℕ) :
    flagBits (leafEntry flags pa) = sanitizeFlags flags := by
  rw [leafEntry, flagBits_setAddress, flagBits_sanitizeFlags]

theorem target_tableEntry {p : ℕ} (flags : ℕ) (ha : 4096 ∣ p) (hb : p < 2^52) :
    target off (tableEntry off flags (virt off p)) = virt off p := by
  have haddr : address (tableEntry off flags (virt off p))*2^12 = p := by
    rw [tableEntry, address_setAddress, phys_virt off p (by omega)]
    omega
  rw [target, haddr]

theorem child_tableEntry {p flags : ℕ} (hf : present flags = true) (ha : 4096 ∣ p)
    (hb : p < 2^52) :
    child off (tableEntry off (sanitizeFlags flags) (virt off p)) = some (virt off p) := by
  have hp : present (tableEntry off (sanitizeFlags flags) (virt off p)) = true := by
    rw [tableEntry, present_setAddress, present_sanitizeFlags, hf]
  rw [child, if_pos hp, target_tableEntry _ ha hb]

end Entries

section Step

variable {m : Tables} {k l : ℕ} {s : State} {va pa flags : ℕ}

theorem FreshPages.supply (h : FreshPages off pfaAllocPage Table m k l)
    (hf : present flags = true) :
    Supply (child off) (tableEntry off (sanitizeFlags flags)) (virt off Table) 3
      (fun a => virt off (pfaAllocPage a)) m k l := by
  refine ⟨h.absent, fun a ha hal => child_tableEntry hf (h.aligned a ha hal) (h.bounded a ha hal),
    fun a b ha hab hbl heq => h.distinct a b ha hab hbl ?_⟩
  have h1 := h.bounded a ha (by omega)
  have h2 := h.bounded b (by omega) hbl
  exact virt_injective (by omega) (by omega) heq

theorem FreshPages.of_supply (h : FreshPages off pfaAllocPage Table m k l) {m' : Tables} {k' : ℕ}
    (hk : k ≤ k')
    (hs : Supply (child off) (tableEntry off (sanitizeFlags flags)) (virt off Table) 3
      (fun a => virt off (pfaAllocPage a)) m' k' l) :
    FreshPages off pfaAllocPage Table m' k' l :=
  ⟨fun a ha hal => h.aligned a (by omega) hal, fun a ha hal => h.bounded a (by omega) hal,
    hs.absent, fun a b ha hab hbl => h.distinct a b (by omega) hab hbl⟩

theorem FreshPages.weaken {l' : ℕ} (h : FreshPages off pfaAllocPage Table m k l) (hl : l' ≤ l) :
    FreshPages off pfaAllocPage Table m k l' :=
  ⟨fun a ha hal => h.aligned a ha (by omega), fun a ha hal => h.bounded a ha (by omega),
    fun a ha hal => h.absent a ha (by omega), fun a b ha hab hbl => h.distinct a b ha hab (by omega)⟩

theorem mapVtop_taken : s.taken ≤ (mapVtop off pfaAllocPage Table va pa flags s).taken :=
  grow_taken _ _ _

/-- `map_vtop` is an assignment at the three upper indices of the address. -/
theorem mapVtop_assigns (hT : TableTree off Table s.mem) (hf : present flags = true)
    (hp : FreshPages off pfaAllocPage Table s.mem s.taken
      (mapVtop off pfaAllocPage Table va pa flags s).taken) :
    Assigns (child off) (tableEntry off (sanitizeFlags flags)) 0
      (fun k => virt off (pfaAllocPage k)) (virt off Table) 3 (upper va) (index va 0)
      (leafEntry flags pa) s :=
  ⟨child_zero off, hT, rfl, hp.supply hf⟩

theorem mapVtop_tree (hT : TableTree off Table s.mem) (hf : present flags = true)
    (hp : FreshPages off pfaAllocPage Table s.mem s.taken
      (mapVtop off pfaAllocPage Table va pa flags s).taken) :
    TableTree off Table (mapVtop off pfaAllocPage Table va pa flags s).mem :=
  (mapVtop_assigns hT hf hp).after

theorem mapVtop_fresh (hT : TableTree off Table s.mem) (hf : present flags = true)
    (hl : (mapVtop off pfaAllocPage Table va pa flags s).taken ≤ l)
    (hp : FreshPages off pfaAllocPage Table s.mem s.taken l) :
    FreshPages off pfaAllocPage Table (mapVtop off pfaAllocPage Table va pa flags s).mem
      (mapVtop off pfaAllocPage Table va pa flags s).taken l :=
  hp.of_supply mapVtop_taken ((mapVtop_assigns hT hf (hp.weaken hl)).rest (hp.supply hf))

/-- One call changes the walk of one page. -/
theorem mapVtop_walk (hT : TableTree off Table s.mem) (hf : present flags = true)
    (hp : FreshPages off pfaAllocPage Table s.mem s.taken
      (mapVtop off pfaAllocPage Table va pa flags s).taken) (x : ℕ) :
    walk off (mapVtop off pfaAllocPage Table va pa flags s).mem Table x =
      if SamePage x va then some (leafEntry flags pa) else walk off s.mem Table x := by
  have ha := mapVtop_assigns hT hf hp
  unfold walk
  by_cases hx : SamePage x va
  · obtain ⟨hu, h0⟩ := (samePage_iff x va).mp hx
    rw [if_pos hx, hu, h0]
    refine (congrArg (Option.filter present) ha.leaf_same).trans ?_
    rw [Option.filter_some, present_leafEntry, hf, if_pos rfl]
  · rw [if_neg hx]
    rcases ha.leaf_other (r := upper x) rfl (fun h => hx ((samePage_iff x va).mpr h)) with
      h | ⟨h1, h2⟩
    · exact congrArg (Option.filter present) h
    · rw [h1]
      exact (congrArg (Option.filter present) h2).trans rfl

end Step

section Loop

variable {s : State} {v p flags : ℕ}

theorem vtopLoop_taken (n i : ℕ) :
    s.taken ≤ (vtopLoop off pfaAllocPage Table v p flags n i s).taken := by
  induction n generalizing i s with
  | zero => exact le_refl _
  | succ n ih => exact le_trans mapVtop_taken (ih (i+1))

theorem page_ne {i k : ℕ} (hik : i < k) (hk : k < 2^32) :
    ¬ SamePage ((v+i*4096) % 2^64) ((v+k*4096) % 2^64) := by
  simp only [SamePage]
  omega

/-- The loop maps its pages one by one and leaves the others alone. -/
theorem vtopLoop_walk (n i : ℕ) (hn : i+n < 2^32) (hf : present flags = true)
    (hT : TableTree off Table s.mem)
    (hp : FreshPages off pfaAllocPage Table s.mem s.taken
      (vtopLoop off pfaAllocPage Table v p flags n i s).taken) :
    TableTree off Table (vtopLoop off pfaAllocPage Table v p flags n i s).mem ∧
    (∀ k, i ≤ k → k < i+n →
      walk off (vtopLoop off pfaAllocPage Table v p flags n i s).mem Table ((v+k*4096) % 2^64) =
        some (leafEntry flags ((p+k*4096) % 2^64))) ∧
    ∀ x, (∀ k, i ≤ k → k < i+n → ¬ SamePage x ((v+k*4096) % 2^64)) →
      walk off (vtopLoop off pfaAllocPage Table v p flags n i s).mem Table x =
        walk off s.mem Table x := by
  induction n generalizing i s with
  | zero => exact ⟨hT, fun k h1 h2 => absurd h2 (by omega), fun x _ => rfl⟩
  | succ n ih =>
    rw [vtopLoop] at hp ⊢
    set s1 := mapVtop off pfaAllocPage Table ((v+i*4096) % 2^64) ((p+i*4096) % 2^64) flags s
    have hmono : s1.taken ≤ (vtopLoop off pfaAllocPage Table v p flags n (i+1) s1).taken :=
      vtopLoop_taken n (i+1)
    have hp1 := hp.weaken hmono
    have hstep := mapVtop_walk hT hf hp1
    obtain ⟨htree, hmapped, hothers⟩ :=
      ih (i+1) (by omega) (mapVtop_tree hT hf hp1) (mapVtop_fresh hT hf hmono hp)
    refine ⟨htree, fun k h1 h2 => ?_, fun x hx => ?_⟩
    · by_cases hki : k = i
      · rw [hki, hothers _ (fun j hj1 hj2 => page_ne (by omega) (by omega)), hstep,
          if_pos (SamePage.refl _)]
      · exact hmapped k (by omega) (by omega)
    · rw [hothers x (fun k h1 h2 => hx k (by omega) (by omega)), hstep,
        if_neg (hx i (le_refl i) (by omega))]

end Loop

section Empty

variable {m : Tables}

theorem descend_empty {t : ℕ} (hm : ∀ i, m t i = 0) (q : List Index) (hq : q ≠ []) :
    descend (child off) m t q = none := by
  cases q with
  | nil => exact absurd rfl hq
  | cons i q => simp [descend, hm i]

/-- The tree of an empty PML4. -/
theorem tableTree_empty (hm : ∀ i, m (virt off Table) i = 0) : TableTree off Table m := by
  intro p q t _ _ hp hq
  have hnil : ∀ r : List Index, descend (child off) m (virt off Table) r = some t → r = [] := by
    intro r hr
    by_contra hne
    rw [descend_empty hm r hne] at hr
    cases hr
  rw [hnil p hp, hnil q hq]

/-- Consecutive physical pages behind an empty PML4. -/
theorem freshPages_empty (hm : ∀ i, m (virt off Table) i = 0) (k l : ℕ)
    (hT : Table+(l+1)*4096 ≤ 2^52) (ha : 4096 ∣ Table) :
    FreshPages off (fun a => Table+(a+1)*4096) Table m k l := by
  have hb : ∀ a, a < l → (a+1)*4096 ≤ l*4096 := fun a hal => Nat.mul_le_mul_right 4096 hal
  constructor
  · intro a _ _
    omega
  · intro a _ hal
    have := hb a hal
    omega
  · intro a _ hal q _ hd
    by_cases hq : q = []
    · have := hb a hal
      rw [hq] at hd
      have := virt_injective (by omega) (by omega) (Option.some.inj hd)
      omega
    · rw [descend_empty hm q hq] at hd
      cases hd
  · intro a b _ hab _
    omega

end Empty

end BruhOS.Paging
