import BruhOS.VasNodes

/-!
# The tree of regions

A state is sound when the words at the root hold a tree of nodes of the list
that are not free, each with its record. `vas_alloc` takes a free node, fills in
its record and compares its way down the tree: it either meets a record that
compares equal, or the tree gets the new node at a vacant place. What a refusal
does to the list is left to its own module.
-/

set_option autoImplicit false

namespace BruhOS.Vas

open BruhOS.PointerTree

/-- The fields of a region have their widths. -/
def Region.Fits (r : Region) : Prop := r.address < 2^64 ∧ r.extent < 2^32 ∧ r.flags < 2^64

/-- The nodes of the tree `T` hold the records `reg`; the free slots of the list are `F`. -/
structure Sound (avl : Avl) (s : State) (P F : List ℕ) (T : NodeTree) (reg : ℕ → Region) : Prop where
  list : NodeList s.mem s.alloc P F
  rep : Rep s.mem 0 s.root T
  kept : avl.Kept s.mem s.root T
  nodup : T.inorder.Nodup
  placed : ∀ q ∈ T.inorder, 24 ≤ q ∧ IsSlot P (q-24) ∧ q-24 ∉ F
  records : ∀ q ∈ T.inorder, region s.mem q = some (reg q)

section Frames

variable {m m' : Cells}

theorem entry_eq {q : ℕ} (h : 24 ≤ q) (hb : q < 2^64) : entry q = q-24 := by
  rw [entry]
  omega

theorem words_eq {n : ℕ} (h : n+24 < 2^64) : words n = n+24 := Nat.mod_eq_of_lt h

theorem region_congr {q : ℕ} (h : 24 ≤ q) (hb : q < 2^64)
    (hm : ∀ a, q-24 ≤ a → a < q → m' a = m a) : region m' q = region m q := by
  have h64 : ∀ a, q-24 ≤ a → a+8 ≤ q → load64 m' a = load64 m a := fun a h1 h2 =>
    load64_congr (hm a h1 (by omega)) (hm (a+4) (by omega) (by omega))
  rw [region, region, entry_eq h hb, h64 _ (by omega) (by omega), h64 _ (by omega) (by omega),
    load32, load32, hm _ (by omega) (by omega)]

theorem region_loads {q : ℕ} {r : Region} (h : region m q = some r) :
    load64 m (entry q) = some r.address ∧ load32 m (entry q+8) = some r.extent := by
  unfold region at h
  split at h
  · next h1 h2 _ =>
    simp only [Option.some.injEq] at h
    rw [h1, h2, ← h]
    exact ⟨rfl, rfl⟩
  · exact absurd h (by simp)

theorem cmp_eq {q q' : ℕ} {r r' : Region} (h : region m q = some r) (h' : region m q' = some r') :
    avlCmpVmSortRegion m q q' = some (sortRegion r.address r.extent r'.address r'.extent) := by
  simp [avlCmpVmSortRegion, region_loads h, region_loads h']

theorem setRecord_of_ne {n a : ℕ} {r : Region} (h : a < n ∨ n+24 ≤ a) : setRecord m n r a = m a := by
  rw [setRecord, store64_of_ne (by omega) (by omega), store32_of_ne (by omega),
    store32_of_ne (by omega), store64_of_ne (by omega) (by omega)]

theorem region_setRecord {n : ℕ} {r : Region} (hr : r.Fits) (hn : n+24 < 2^64) :
    region (setRecord m n r) (n+24) = some r := by
  have haddress : load64 (setRecord m n r) n = some r.address := by
    rw [setRecord, load64_store64_of_ne (by omega) (by omega) (by omega),
      load64_congr (store32_of_ne (by omega)) (store32_of_ne (by omega)),
      load64_congr (store32_of_ne (by omega)) (store32_of_ne (by omega)), load64_store64 hr.1]
  have hextent : load32 (setRecord m n r) (n+8) = some r.extent := by
    have hstore := load32_store32 (m := store64 m n r.address) (a := n+8) hr.2.1
    rw [setRecord, load32, store64_of_ne (by omega) (by omega), store32_of_ne (by omega)]
    exact hstore
  have hflags : load64 (setRecord m n r) (n+16) = some r.flags := by
    rw [setRecord, load64_store64 hr.2.2]
  rw [region, entry_eq (by omega) hn, Nat.add_sub_cancel, haddress, hextent, hflags]

end Frames

section Soundness

variable {avl : Avl} {s : State} {P F : List ℕ} {T : NodeTree} {reg : ℕ → Region}

theorem Sound.bounds (h : Sound avl s P F T reg) {q : ℕ} (hq : q ∈ T.inorder) :
    q % 64 = 24 ∧ 88 ≤ q ∧ q+40 ≤ 2^64 := by
  obtain ⟨h24, hslot, -⟩ := h.placed q hq
  have := hslot.aligned h.list.laid
  have := hslot.bounds h.list.laid
  omega

/-- Distinct lines of nodes and of another slot leave the words of the tree apart. -/
theorem Sound.fit (h : Sound avl s P F T reg) {f : ℕ} (hf : IsSlot P f) (hT : f+24 ∉ T.inorder) :
    Fit ((f+24)::T.inorder) := by
  have hfa := hf.aligned h.list.laid
  have hfb := hf.bounds h.list.laid
  constructor
  · intro x hx
    rcases List.mem_cons.mp hx with hx | hx
    · omega
    · have := h.bounds hx
      omega
  · intro x hx
    rcases List.mem_cons.mp hx with hx | hx
    · omega
    · have := h.bounds hx
      omega
  · rw [List.pairwise_cons]
    constructor
    · intro q hq
      have := h.bounds hq
      have hne : q ≠ f+24 := fun heq => hT (heq ▸ hq)
      omega
    · apply List.Pairwise.imp_of_mem _ h.nodup
      intro x y hx hy hne
      have := h.bounds hx
      have := h.bounds hy
      omega

/-- A memory that keeps the first bookkeeping line and the lines of the nodes. -/
theorem Sound.congr {s' : State} (h : Sound avl s P F T reg) (hc : avl.Correct)
    (hroot : s'.root = s.root) {P' F' : List ℕ} (hlist : NodeList s'.mem s'.alloc P' F')
    (hP : ∀ p ∈ P, p ∈ P') (hF : ∀ q ∈ T.inorder, q-24 ∉ F')
    (hm : ∀ q ∈ T.inorder, ∀ a, q-24 ≤ a → a < q+24 → s'.mem a = s.mem a) :
    Sound avl s' P' F' T reg := by
  constructor
  · exact hlist
  · rw [hroot]
    apply rep_congr T 0 s.root h.rep
    intro x hx a h1 h2
    exact hm x hx a (by omega) h2
  · rw [hroot]
    apply hc.kept_congr _ h.kept
    intro x hx a h1 h2
    exact hm x hx a (by omega) h2
  · exact h.nodup
  · intro q hq
    obtain ⟨h24, hslot, -⟩ := h.placed q hq
    exact ⟨h24, hslot.mono hP, hF q hq⟩
  · intro q hq
    have hb := h.bounds hq
    rw [region_congr (by omega) (by omega), h.records q hq]
    intro a h1 h2
    exact hm q hq a h1 (by omega)

end Soundness

section Alloc

variable {avl : Avl} {off : ℕ} {pfaAllocPage : ℕ → ℕ} {s : State} {P F : List ℕ} {f : ℕ} {T : NodeTree}
  {reg : ℕ → Region} {r : Region}

/-- What `alloc_node` leaves of the list after `k` growths: at most one, by one page. -/
def Prepared (m m' : Cells) (new k : ℕ) (P F P' F' : List ℕ) : Prop :=
  (P' = P ∧ F' = F ∧ ∀ a, (∀ p ∈ P, a < p ∨ p+64 ≤ a) → m' a = m a) ∨
    (k = 1 ∧ F = [] ∧ P' = new::P ∧ F' = pageSlots new ∧ new ∉ P ∧ Placed new ∧ Grown m m' P new)

/-- The slots of the old pages keep their lines. -/
theorem Prepared.slot {m m' : Cells} {new k x a : ℕ} {P' F' : List ℕ}
    (h : Prepared m m' new k P F P' F') (hP : ∀ p ∈ P, Placed p) (hx : IsSlot P x) (h1 : x ≤ a)
    (h2 : a < x+64) : m' a = m a := by
  have hxa := hx.aligned hP
  have hbook : ∀ p ∈ P, a < p ∨ p+64 ≤ a := by
    intro p hp
    have := (hP p hp).1
    have := hx.ne_page hP this
    omega
  rcases h with ⟨-, -, hsame⟩ | ⟨-, -, -, -, hfresh, hlaid, hgrown⟩
  · exact hsame a hbook
  · apply hgrown.same a _ hbook
    have hpage := hx.page hP
    have hne : x/4096*4096 ≠ new := fun heq => hfresh (heq ▸ hpage)
    have hrow := hx.ne_page hP (p := new+4096) (by have := hlaid.1; omega)
    have := hlaid.1
    omega

theorem Prepared.pages {m m' : Cells} {new k : ℕ} {P' F' : List ℕ}
    (h : Prepared m m' new k P F P' F') : ∀ p ∈ P, p ∈ P' := by
  intro p hp
  rcases h with ⟨rfl, -⟩ | ⟨-, -, rfl, -⟩
  · exact hp
  · exact List.mem_cons_of_mem _ hp

/-- A slot of the old pages that was not free is not free. -/
theorem Prepared.not_free {m m' : Cells} {new k x : ℕ} {P' F' : List ℕ}
    (h : Prepared m m' new k P F P' F') (hP : ∀ p ∈ P, Placed p) (hx : IsSlot P x) (hF : x ∉ F) :
    x ∉ F' := by
  rcases h with ⟨-, rfl, -⟩ | ⟨-, -, -, rfl, hfresh, hlaid, -⟩
  · exact hF
  · intro hmem
    obtain ⟨i, hi, hxi⟩ := mem_pageSlots.mp hmem
    apply hfresh
    have hpage := hx.page hP
    have := hlaid.1
    rwa [show x/4096*4096 = new by omega] at hpage

theorem allocNode_spec (h : NodeList s.mem s.alloc P (f::F))
    (ht : F = [] → Takes s.mem s.alloc P (page off pfaAllocPage s.tables.taken)) :
    ∃ m' k P' F', allocNode off pfaAllocPage s = some (f, s.handOut m' f k) ∧
      (∃ u, load32 m' (s.alloc+36) = some (u+1)) ∧ NodeList m' s.alloc P' F' ∧
      Prepared s.mem m' (page off pfaAllocPage s.tables.taken) k P F P' F' := by
  cases F with
  | nil =>
    obtain ⟨m', heq, hused, hlist, hgrown, -⟩ := allocNode_full h (ht rfl)
    exact ⟨m', 1, _, _, heq, hused, hlist, Or.inr ⟨rfl, rfl, rfl, rfl, (ht rfl).fresh, (ht rfl).laid, hgrown⟩⟩
  | cons g F =>
    obtain ⟨m', heq, hused, hlist, hsame, -⟩ := allocNode_more off pfaAllocPage h
    exact ⟨m', 0, P, g::F, heq, hused, hlist, Or.inl ⟨rfl, rfl, hsame⟩⟩

/-- The node list after the record has been filled in. -/
theorem NodeList.setRecord {m : Cells} {head : ℕ} (h : NodeList m head P F) (hf : IsSlot P f)
    (hF : f ∉ F) : NodeList (setRecord m f r) head P F := by
  have hfa := hf.aligned h.laid
  have hfh := hf.ne_page h.laid (h.laid head h.head_mem).1
  have hha := (h.laid head h.head_mem).1
  apply h.congr
  · intro a h1 h2
    exact setRecord_of_ne (by omega)
  · intro g hg a h1 h2
    have := (h.slots g hg).aligned h.laid
    have hne : g ≠ f := fun heq => hF (heq ▸ hg)
    exact setRecord_of_ne (by omega)

theorem prepare_spec (h : Sound avl s P (f::F) T reg) (hc : avl.Correct) (hr : r.Fits)
    (ht : F = [] → Takes s.mem s.alloc P (page off pfaAllocPage s.tables.taken)) :
    ∃ m' k P' F', prepare off pfaAllocPage s r = some (f, s.handOut (setRecord m' f r) f k) ∧
      (∃ u, load32 (setRecord m' f r) (s.alloc+36) = some (u+1)) ∧
      Prepared s.mem m' (page off pfaAllocPage s.tables.taken) k P F P' F' ∧
      Sound avl (s.handOut (setRecord m' f r) f k) P' F' T reg ∧
      region (setRecord m' f r) (f+24) = some r := by
  obtain ⟨m', k, P', F', heq, ⟨u, hu⟩, hlist, hprep⟩ := allocNode_spec h.list ht
  have hlaid := h.list.laid
  have hf : IsSlot P f := h.list.slots f (by simp)
  have hfb := hf.bounds hlaid
  have hfa := hf.aligned hlaid
  have hfF : f ∉ F' := hprep.not_free hlaid hf (List.nodup_cons.mp h.list.nodup).1
  refine ⟨m', k, P', F', ?_, ⟨u, ?_⟩, hprep, ?_, region_setRecord hr (by omega)⟩
  · rw [prepare, heq]
    rfl
  · have hhead := (hlaid _ h.list.head_mem).1
    have hne := hf.ne_page hlaid hhead
    rw [load32, setRecord_of_ne (by omega)]
    exact hu
  · have hlist' : NodeList (s.handOut (setRecord m' f r) f k).mem
        (s.handOut (setRecord m' f r) f k).alloc P' F' :=
      hlist.setRecord (hf.mono hprep.pages) hfF
    have hroot : (s.handOut (setRecord m' f r) f k).root = s.root := rfl
    apply h.congr hc hroot hlist' hprep.pages
    · intro q hq
      obtain ⟨-, hslot, hnot⟩ := h.placed q hq
      exact hprep.not_free hlaid hslot (fun hmem => hnot (List.mem_cons_of_mem _ hmem))
    · intro q hq a h1 h2
      obtain ⟨h24, hslot, hnot⟩ := h.placed q hq
      have hne : q-24 ≠ f := fun heq => hnot (by simp [heq])
      have := hslot.aligned hlaid
      have hstore : setRecord m' f r a = m' a := setRecord_of_ne (by omega)
      show setRecord m' f r a = s.mem a
      rw [hstore, hprep.slot hlaid hslot h1 (by omega)]

theorem insertAt_spec (h : Sound avl s P F T reg) (hc : avl.Correct) (hf : IsSlot P f) (hfF : f ∉ F)
    (hfT : f+24 ∉ T.inorder) (hreg : region s.mem (f+24) = some r) {c : ℕ → ℤ} {pl : Place}
    (hfind : T.find c .root = .inr pl) :
    ∃ T', Sound avl (insertAt avl s pl f) P F T' (fun q => if q = f+24 then r else reg q) ∧
      T'.inorder = (T.insert c (f+24)).inorder ∧
      ∀ a, (∀ q ∈ (f+24)::T.inorder, a < q ∨ q+24 ≤ a) →
        (insertAt avl s pl f).mem a = s.mem a := by
  have hlaid := h.list.laid
  have hfb := hf.bounds hlaid
  have hfa := hf.aligned hlaid
  have hfit := h.fit hf hfT
  obtain ⟨T', hrep, hkept, hin, hsame⟩ := hc.insert h.rep h.kept (by omega) hfit hfind
  have hw : words f = f+24 := words_eq (by omega)
  have hmem : ∀ q, q ∈ T'.inorder ↔ q = f+24 ∨ q ∈ T.inorder := by
    intro q
    rw [hin, mem_insert T (f+24) hfind]
  have hperm : T'.inorder.Nodup := by
    rw [hin]
    exact insert_nodup T hfind h.nodup hfT
  have hline : ∀ q, q ∈ (f+24)::T.inorder → q % 64 = 24 ∧ 24 ≤ q ∧ q < 2^64 := by
    intro q hq
    rcases List.mem_cons.mp hq with hq | hq
    · omega
    · have := h.bounds hq
      omega
  refine ⟨T', ?_, hin, ?_⟩
  · rw [← hw] at hrep hkept hsame
    constructor
    · apply h.list.congr
      · intro a h1 h2
        apply hsame
        intro q hq
        have hq' := hline q (hw ▸ hq)
        have := (hlaid _ h.list.head_mem).1
        have hslot : IsSlot P (q-24) := by
          rcases List.mem_cons.mp hq with hq | hq
          · rw [hq, hw, Nat.add_sub_cancel]
            exact hf
          · exact (h.placed q hq).2.1
        have := hslot.ne_page hlaid this
        omega
      · intro g hg a h1 h2
        apply hsame
        intro q hq
        have hq' := hline q (hw ▸ hq)
        have hga := (h.list.slots g hg).aligned hlaid
        have hne : q-24 ≠ g := by
          intro heq
          rcases List.mem_cons.mp hq with hq | hq
          · rw [hq, hw, Nat.add_sub_cancel] at heq
            exact hfF (heq ▸ hg)
          · exact (h.placed q hq).2.2 (heq ▸ hg)
        omega
    · exact hrep
    · exact hkept
    · exact hperm
    · intro q hq
      rcases (hmem q).mp hq with hq | hq
      · rw [hq, Nat.add_sub_cancel]
        exact ⟨by omega, hf, hfF⟩
      · exact h.placed q hq
    · intro q hq
      have hq24 : q ∈ (f+24)::T.inorder := by
        rcases (hmem q).mp hq with hq | hq
        · simp [hq]
        · simp [hq]
      have hql := hline q hq24
      have hkeep : region (insertAt avl s pl f).mem q = region s.mem q := by
        apply region_congr hql.2.1 hql.2.2
        intro a h1 h2
        apply hsame
        intro q' hq'
        have := hline q' (hw ▸ hq')
        omega
      rw [hkeep]
      rcases (hmem q).mp hq with hq | hq
      · rw [hq, if_pos rfl, hreg]
      · have hne : q ≠ f+24 := fun heq => hfT (heq ▸ hq)
        rw [if_neg hne, h.records q hq]
  · intro a ha
    rw [← hw] at hsame ha
    exact hsame a ha

end Alloc

section Outcomes

variable {avl : Avl} {off : ℕ} {pfaAllocPage : ℕ → ℕ} {fuel : ℕ} {s : State} {P F : List ℕ}
  {f : ℕ} {T : NodeTree} {reg : ℕ → Region} {r : Region}

/-- How a request compares with the records of the tree. -/
def compare (r : Region) (reg : ℕ → Region) (q : ℕ) : ℤ :=
  sortRegion r.address r.extent (reg q).address (reg q).extent

theorem Sound.new_node (h : Sound avl s P (f::F) T reg) : f+24 ∉ T.inorder := by
  intro hmem
  have := (h.placed _ hmem).2.2
  simp at this

/-- The search of the insertion finds what the search of the tree finds. -/
theorem insertWalk_eq (h : Sound avl s P F T reg) (hf : f+24 < 2^64)
    (hreg : region s.mem (f+24) = some r) (hfuel : T.inorder.length < fuel) :
    insertWalk fuel s f = some (T.find (compare r reg) .root) := by
  rw [insertWalk, words_eq hf]
  apply walk_eq T 0 s.root .root fuel h.rep _ hfuel
  intro q hq
  exact cmp_eq hreg (h.records q hq)

theorem vasAlloc_refused (Table : ℕ) (h : Sound avl s P (f::F) T reg) (hc : avl.Correct) (hr : r.Fits)
    (ht : F = [] → Takes s.mem s.alloc P (page off pfaAllocPage s.tables.taken))
    (hfuel : T.inorder.length < fuel) {q : ℕ} (hfind : T.find (compare r reg) .root = .inl q) :
    ∃ m' k P' F', Sound avl (s.handOut (setRecord m' f r) f k) P' F' T reg ∧
      (∃ u, load32 (setRecord m' f r) (s.alloc+36) = some (u+1)) ∧
      vasAlloc off pfaAllocPage avl Table fuel s r =
        (freeNode (s.handOut (setRecord m' f r) f k) q).bind (fun s => some (0, s)) := by
  have hfb := (h.list.slots f (by simp)).bounds h.list.laid
  obtain ⟨m', k, P', F', heq, hused, -, hsound, hreg⟩ := prepare_spec h hc hr ht
  refine ⟨m', k, P', F', hsound, hused, ?_⟩
  have hwalk : insertWalk fuel (s.handOut (setRecord m' f r) f k) f = some (.inl q) := by
    rw [← hfind]
    exact insertWalk_eq hsound (by omega) hreg hfuel
  simp only [vasAlloc, heq, Option.bind_eq_bind, Option.bind_some, hwalk]

theorem vasAlloc_accepted (Table : ℕ) (h : Sound avl s P (f::F) T reg) (hc : avl.Correct) (hr : r.Fits)
    (ht : F = [] → Takes s.mem s.alloc P (page off pfaAllocPage s.tables.taken))
    (hfuel : T.inorder.length < fuel) {pl : Place} (hfind : T.find (compare r reg) .root = .inr pl) :
    ∃ m' k P' F' T', vasAlloc off pfaAllocPage avl Table fuel s r = some (r.address,
        mapRegion off pfaAllocPage Table
          (insertAt avl (s.handOut (setRecord m' f r) f k) pl f) r) ∧
      Prepared s.mem m' (page off pfaAllocPage s.tables.taken) k P F P' F' ∧
      (∀ a, (∀ q ∈ (f+24)::T.inorder, a < q ∨ q+24 ≤ a) →
        (insertAt avl (s.handOut (setRecord m' f r) f k) pl f).mem a = setRecord m' f r a) ∧
      T'.inorder = (T.insert (compare r reg) (f+24)).inorder ∧
      Sound avl (mapRegion off pfaAllocPage Table
          (insertAt avl (s.handOut (setRecord m' f r) f k) pl f) r) P' F' T'
        (fun q => if q = f+24 then r else reg q) := by
  have hslot := h.list.slots f (by simp)
  have hfb := hslot.bounds h.list.laid
  obtain ⟨m', k, P', F', heq, -, hprep, hsound, hreg⟩ := prepare_spec h hc hr ht
  have hwalk : insertWalk fuel (s.handOut (setRecord m' f r) f k) f = some (.inr pl) := by
    rw [← hfind]
    exact insertWalk_eq hsound (by omega) hreg hfuel
  have hfF : f ∉ F' := hprep.not_free h.list.laid hslot (List.nodup_cons.mp h.list.nodup).1
  obtain ⟨T', hT', hin, hsame⟩ :=
    insertAt_spec hsound hc (hslot.mono hprep.pages) hfF h.new_node hreg hfind
  refine ⟨m', k, P', F', T', ?_, hprep, hsame, hin, ?_⟩
  · simp only [vasAlloc, heq, Option.bind_eq_bind, Option.bind_some, hwalk]
  · exact ⟨hT'.list, hT'.rep, hT'.kept, hT'.nodup, hT'.placed, hT'.records⟩

end Outcomes

end BruhOS.Vas
