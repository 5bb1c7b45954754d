import BruhOS.NodeRuns

/-!
# What the node allocator writes

The `memset` of `alloc_node` starts behind the bookkeeping line of the new page
and has the size of the whole page, so it clears the 64 bytes behind that page
too. Nobody notices when they are zero. When they belong to somebody else they
are lost, and when a page of the list begins there its bookkeeping is.
-/

set_option autoImplicit false

namespace BruhOS.Vas

open BruhOS.PointerTree

/-- A byte of memory, least significant byte of a cell first. -/
def byteAt (m : Cells) (a : ℕ) : Option ℕ := (m (a/4*4)).map (fun w => w/256^(a%4) % 256)

section Statements

variable (off : ℕ) (pfaAllocPage : ℕ → ℕ)

/-- The bytes outside the pages of the list are those of `m`. -/
def KeepsOutside (first : ℕ) (m : Cells) (s : State) : Prop :=
  ∀ a, (∀ p ∈ obtained off pfaAllocPage first (s.tables.taken-first), a < p ∨ p+4096 ≤ a) →
    byteAt s.mem a = byteAt m a

/-- A growth leaves the nodes of users alone, and of the bookkeeping of older pages writes only
the fields it maintains: the link of the last page, and in the first page the address of the
last one, the free pointer and the counters. -/
structure CleanGrowth (first : ℕ) (s s' : State) : Prop where
  live : ∀ x ∈ s'.live, ∀ a, x ≤ a → a < x+64 → byteAt s'.mem a = byteAt s.mem a
  headers : ∀ last, Tail s.mem s.alloc last →
    ∀ p ∈ obtained off pfaAllocPage first (s.tables.taken-first), ∀ a, p ≤ a → a < p+64 →
      a < last ∨ last+8 ≤ a → a < s.alloc+8 ∨ s.alloc+16 ≤ a →
      a < s.alloc+24 ∨ s.alloc+44 ≤ a → byteAt s'.mem a = byteAt s.mem a
  link : ∀ last, Tail s.mem s.alloc last →
    load64 s'.mem last = some (page off pfaAllocPage s.tables.taken)

/-- Every state of a run keeps the bytes outside its pages, and every growth is clean. -/
def OwnPages (first : ℕ) (m : Cells) : List NodeOp → State → Prop
  | [], s => KeepsOutside off pfaAllocPage first m s
  | op::ops, s => KeepsOutside off pfaAllocPage first m s ∧
      ∀ s', nodeStep off pfaAllocPage s op = some s' →
        (s'.tables.taken ≠ s.tables.taken → CleanGrowth off pfaAllocPage first s s') ∧
        OwnPages first m ops s'

/-- The 64 bytes behind the next page are zero already. -/
def ZeroBehind (s : State) : Prop := ∀ a, page off pfaAllocPage s.tables.taken+4096 ≤ a →
  a < page off pfaAllocPage s.tables.taken+4160 → byteAt s.mem a = some 0

/-- The growths that do no harm. -/
def Harmless (first : ℕ) (s : State) : Prop :=
  Supplied off pfaAllocPage first s ∧ ZeroBehind off pfaAllocPage s

end Statements

section Steps

variable {off : ℕ} {pfaAllocPage : ℕ → ℕ} {first n : ℕ} {s : State} {F : List ℕ} {f x a : ℕ}
  {m m' : Cells}

theorem byteAt_congr (h : m' (a/4*4) = m (a/4*4)) : byteAt m' a = byteAt m a := by
  rw [byteAt, byteAt, h]

theorem byteAt_zero (h : m (a/4*4) = some 0) : byteAt m a = some 0 := by
  rw [byteAt, h, Option.map_some, Nat.zero_div]

theorem Listed.count (h : Listed off pfaAllocPage first n s F) : s.tables.taken-first = n := by
  have := h.taken
  omega

/-- A slot lies in its page, behind the bookkeeping line. -/
theorem IsSlot.inside {P : List ℕ} (h : IsSlot P x) : ∃ p ∈ P, p+64 ≤ x ∧ x+64 ≤ p+4096 := by
  obtain ⟨p, hp, i, hi, rfl⟩ := h
  exact ⟨p, hp, by omega, by omega⟩

/-- The cells of older pages that a growth leaves alone. -/
theorem growth_same (h : Listed off pfaAllocPage first n s F)
    (ht : Takes s.mem s.alloc (obtained off pfaAllocPage first n) (page off pfaAllocPage s.tables.taken))
    (hap : page off pfaAllocPage s.tables.taken+4096 ∉ obtained off pfaAllocPage first n) {last : ℕ}
    (hl : Linked s.mem m' s.alloc last (page off pfaAllocPage s.tables.taken)) {p : ℕ}
    (hp : p ∈ obtained off pfaAllocPage first n) (h1 : p ≤ a) (h2 : a < p+4096)
    (h3 : a < last ∨ last+8 ≤ a) (h4 : a < s.alloc+8 ∨ s.alloc+16 ≤ a)
    (h5 : a < s.alloc+24 ∨ s.alloc+44 ≤ a) : m' a = s.mem a := by
  have hpa := (h.list.laid p hp).1
  have hna := ht.laid.1
  have hne : p ≠ page off pfaAllocPage s.tables.taken := fun heq => ht.fresh (heq ▸ hp)
  have hbelow : p ≠ page off pfaAllocPage s.tables.taken+4096 := fun heq => hap (heq ▸ hp)
  exact hl.same a (by omega) h4 h3 h5

theorem clean_growth (h : Listed off pfaAllocPage first n s [f])
    (hs : Supplied off pfaAllocPage first s)
    (hl : ∀ last, Tail s.mem s.alloc last →
      Linked s.mem m' s.alloc last (page off pfaAllocPage s.tables.taken)) :
    CleanGrowth off pfaAllocPage first s (s.handOut m' f 1) := by
  have ht := h.takes hs
  have hap := hs.apart
  have hhead := (h.list.laid _ h.list.head_mem).1
  constructor
  · intro x hx a h1 h2
    obtain ⟨last, hlast, htail⟩ := h.list.tail
    have hlaid := (h.list.laid last hlast).1
    have hslot : IsSlot (obtained off pfaAllocPage first n) x := by
      rcases List.mem_cons.mp hx with rfl | hx
      · exact h.list.slots x (by simp)
      · exact h.live_slot hx
    have hxa := hslot.aligned h.list.laid
    have hxh := hslot.ne_page h.list.laid hhead
    have hxl := hslot.ne_page h.list.laid hlaid
    obtain ⟨p, hp, h3, h4⟩ := hslot.inside
    rw [h.count] at hap
    exact byteAt_congr (growth_same h ht hap (hl last htail) hp (by omega) (by omega) (by omega)
      (by omega) (by omega))
  · intro last htail p hp a h1 h2 h3 h4 h5
    have hlaid := (h.list.laid last (htail.mem h.list)).1
    rw [h.count] at hp hap
    have hpa := (h.list.laid p hp).1
    exact byteAt_congr (growth_same h ht hap (hl last htail) hp (by omega) (by omega) (by omega)
      (by omega) (by omega))
  · intro last htail
    rw [h.count] at hap
    exact (hl last htail).link (fun heq => hap (heq ▸ htail.mem h.list))

/-- Outside the pages a growth changes the 64 bytes behind the new page, if they are not zero. -/
theorem growth_outside (h : Listed off pfaAllocPage first n s [f])
    (hs : Supplied off pfaAllocPage first s)
    (hl : ∀ last, Tail s.mem s.alloc last →
      Linked s.mem m' s.alloc last (page off pfaAllocPage s.tables.taken))
    (ha : ∀ p ∈ obtained off pfaAllocPage first (n+1), a < p ∨ p+4096 ≤ a) :
    byteAt m' a = if page off pfaAllocPage s.tables.taken+4096 ≤ a ∧
      a < page off pfaAllocPage s.tables.taken+4160 then some 0 else byteAt s.mem a := by
  obtain ⟨last, hlast, htail⟩ := h.list.tail
  have hl := hl last htail
  have hna := hs.aligned
  have hhead := (h.list.laid _ h.list.head_mem).1
  have hlaid := (h.list.laid last hlast).1
  have hpages : obtained off pfaAllocPage first (n+1) =
      page off pfaAllocPage s.tables.taken::obtained off pfaAllocPage first n := by
    rw [obtained, h.taken]
  rw [hpages] at ha
  have h1 := ha _ (List.mem_cons_self ..)
  have h2 := ha _ (List.mem_cons_of_mem _ h.list.head_mem)
  have h3 := ha _ (List.mem_cons_of_mem _ hlast)
  split
  · exact byteAt_zero (hl.behind _ (by omega) (by omega))
  · exact byteAt_congr (hl.same _ (by omega) (by omega) (by omega) (by omega))

end Steps

section Runs

variable {off : ℕ} {pfaAllocPage : ℕ → ℕ} {first n : ℕ} {s s₁ : State} {F : List ℕ} {f : ℕ}
  {m m' : Cells} {ops ops' : List NodeOp}

/-- A growth from a state that kept the outside keeps it exactly if the bytes behind were zero. -/
theorem growth_keeps_iff (h : Listed off pfaAllocPage first n s [f])
    (hs : Supplied off pfaAllocPage first s)
    (hl : ∀ last, Tail s.mem s.alloc last →
      Linked s.mem m' s.alloc last (page off pfaAllocPage s.tables.taken))
    (hk : KeepsOutside off pfaAllocPage first m s) :
    KeepsOutside off pfaAllocPage first m (s.handOut m' f 1) ↔ ZeroBehind off pfaAllocPage s := by
  have hcount : (s.handOut m' f 1).tables.taken-first = n+1 := by
    have := h.taken
    simp only [State.handOut]
    omega
  have hpages : obtained off pfaAllocPage first (n+1) =
      page off pfaAllocPage s.tables.taken::obtained off pfaAllocPage first n := by
    rw [obtained, h.taken]
  have hap := hs.apart
  have hna := hs.aligned
  rw [h.count] at hap
  rw [KeepsOutside, h.count] at hk
  rw [KeepsOutside, hcount]
  constructor
  · intro hkeep a h1 h2
    -- the line behind the new page is no part of the list
    have ha : ∀ p ∈ obtained off pfaAllocPage first (n+1), a < p ∨ p+4096 ≤ a := by
      intro p hp
      rw [hpages] at hp
      rcases List.mem_cons.mp hp with rfl | hp
      · omega
      · have hpa := (h.list.laid p hp).1
        have hne : p ≠ page off pfaAllocPage s.tables.taken+4096 := fun heq => hap (heq ▸ hp)
        omega
    have hafter := growth_outside h hs hl ha
    rw [if_pos ⟨h1, h2⟩] at hafter
    rw [hk a (fun p hp => ha p (hpages ▸ List.mem_cons_of_mem _ hp)), ← hkeep a ha]
    exact hafter
  · intro hz a ha
    have hbefore := hk a (fun p hp => ha p (hpages ▸ List.mem_cons_of_mem _ hp))
    have hafter := growth_outside h hs hl ha
    rw [← hbefore]
    by_cases hin : page off pfaAllocPage s.tables.taken+4096 ≤ a ∧
        a < page off pfaAllocPage s.tables.taken+4160
    · rw [if_pos hin] at hafter
      exact hafter.trans (hz a hin.1 hin.2).symm
    · rw [if_neg hin] at hafter
      exact hafter

/-- A step that takes no page and writes only within the pages. -/
theorem KeepsOutside.within (hk : KeepsOutside off pfaAllocPage first m s)
    (htaken : s₁.tables.taken = s.tables.taken)
    (hm : ∀ a, (∀ p ∈ obtained off pfaAllocPage first (s.tables.taken-first), a < p ∨ p+4096 ≤ a) →
      byteAt s₁.mem a = byteAt s.mem a) :
    KeepsOutside off pfaAllocPage first m s₁ := by
  intro a ha
  rw [htaken] at ha
  rw [hm a ha, hk a ha]

theorem keeps_step (h : Listed off pfaAllocPage first n s F)
    (hk : KeepsOutside off pfaAllocPage first m s) (op : NodeOp)
    (hp : Proper (Harmless off pfaAllocPage first) s op) :
    ∃ s' n' F', nodeStep off pfaAllocPage s op = some s' ∧ Listed off pfaAllocPage first n' s' F' ∧
      KeepsOutside off pfaAllocPage first m s' ∧
      (s'.tables.taken ≠ s.tables.taken → CleanGrowth off pfaAllocPage first s s') := by
  have hhead := (h.list.laid _ h.list.head_mem).1
  cases op with
  | alloc =>
    match F, h with
    | [], h => exact absurd rfl h.list.nonempty
    | [f], h =>
      obtain ⟨hs, hz⟩ := hp (h.fills_iff.mpr rfl)
      obtain ⟨m', heq, hlisted, hl⟩ := listed_full h (h.takes hs)
      exact ⟨_, _, _, by rw [nodeStep, heq]; rfl, hlisted, (growth_keeps_iff h hs hl hk).mpr hz,
        fun _ => clean_growth h hs hl⟩
    | f::g::F, h =>
      obtain ⟨m', heq, hlisted, hsame⟩ := listed_more h
      refine ⟨_, _, _, by rw [nodeStep, heq]; rfl, hlisted, ?_, fun hne => absurd rfl hne⟩
      apply hk.within
      · rfl
      intro a ha
      rw [h.count] at ha
      have := ha _ h.list.head_mem
      exact byteAt_congr (hsame _ (by omega))
  | free node =>
    obtain ⟨m', heq, hlisted, hsame⟩ := listed_free h hp
    refine ⟨_, _, _, heq, hlisted, ?_, fun hne => absurd rfl hne⟩
    apply hk.within
    · rfl
    intro a ha
    rw [h.count] at ha
    obtain ⟨p, hpm, h1, h2⟩ := (h.live_slot hp).inside
    have hpa := (h.list.laid p hpm).1
    have hna := (h.live_slot hp).aligned h.list.laid
    have := ha _ h.list.head_mem
    have := ha p hpm
    exact byteAt_congr (hsame _ (by omega) (by omega))
  | write node b v =>
    refine ⟨_, _, _, rfl, listed_write h hp.1 hp.2.1 hp.2.2, ?_, fun hne => absurd rfl hne⟩
    apply hk.within
    · rfl
    intro a ha
    rw [h.count] at ha
    obtain ⟨p, hpm, h1, h2⟩ := (h.live_slot hp.1).inside
    have hpa := (h.list.laid p hpm).1
    have := ha p hpm
    have := hp.2.1
    have := hp.2.2
    exact byteAt_congr (store32_of_ne (by omega))

theorem own_run (ops : List NodeOp) (h : Listed off pfaAllocPage first n s F)
    (hk : KeepsOutside off pfaAllocPage first m s)
    (hu : Uses off pfaAllocPage (Harmless off pfaAllocPage first) ops s) :
    OwnPages off pfaAllocPage first m ops s ∧
      ∃ s' n' F', nodeRun off pfaAllocPage ops s = some s' ∧
        Listed off pfaAllocPage first n' s' F' ∧ KeepsOutside off pfaAllocPage first m s' := by
  induction ops generalizing s n F with
  | nil => exact ⟨hk, s, n, F, rfl, h, hk⟩
  | cons op ops ih =>
    obtain ⟨s₁, n₁, F₁, heq, h₁, hk₁, hclean⟩ := keeps_step h hk op hu.1
    obtain ⟨hown, s', n', F', hrun, h', hk'⟩ := ih h₁ hk₁ (hu.2 s₁ heq)
    refine ⟨⟨hk, ?_⟩, s', n', F', by rw [nodeRun, heq, Option.bind_some, hrun], h', hk'⟩
    intro s₂ hs₂
    rw [heq, Option.some.injEq] at hs₂
    rw [← hs₂]
    exact ⟨hclean, hown⟩

theorem keeps_create (m : Cells) (tables : Paging.State)
    (ha : page off pfaAllocPage tables.taken % 4096 = 0) :
    KeepsOutside off pfaAllocPage tables.taken m (createNodeList off pfaAllocPage m tables) := by
  intro a hout
  have hcount : (createNodeList off pfaAllocPage m tables).tables.taken-tables.taken = 1 :=
    Nat.add_sub_cancel_left ..
  rw [hcount] at hout
  have := hout (page off pfaAllocPage tables.taken) (List.mem_cons_self ..)
  exact byteAt_congr (createNodeList_same rfl (by omega) (by omega) (by omega))

/-- A growth is as the list should grow exactly if the bytes behind its page are zero. -/
theorem own_growth_iff (h : Listed off pfaAllocPage first n s F)
    (hk : KeepsOutside off pfaAllocPage first m s) (hf : Fills s)
    (hs : Supplied off pfaAllocPage first s) :
    OwnPages off pfaAllocPage first m [.alloc] s ↔ ZeroBehind off pfaAllocPage s := by
  match F, h with
  | [], h => exact absurd rfl h.list.nonempty
  | f::g::F, h => exact absurd (h.fills_iff.mp hf) (by simp)
  | [f], h =>
    obtain ⟨m', heq, -, hl⟩ := listed_full h (h.takes hs)
    have hstep : nodeStep off pfaAllocPage s .alloc = some (s.handOut m' f 1) := by
      rw [nodeStep, heq]
      rfl
    rw [← growth_keeps_iff h hs hl hk]
    constructor
    · intro hown
      exact (hown.2 _ hstep).2
    · intro hkeep
      refine ⟨hk, ?_⟩
      intro s' hs'
      rw [hstep, Option.some.injEq] at hs'
      rw [← hs']
      exact ⟨fun _ => clean_growth h hs hl, hkeep⟩

theorem ownPages_append (h : OwnPages off pfaAllocPage first m (ops++ops') s)
    (hrun : nodeRun off pfaAllocPage ops s = some s₁) :
    OwnPages off pfaAllocPage first m ops' s₁ := by
  induction ops generalizing s with
  | nil =>
    rw [nodeRun, Option.some.injEq] at hrun
    exact hrun ▸ h
  | cons op ops ih =>
    rw [nodeRun, Option.bind_eq_some_iff] at hrun
    obtain ⟨s₂, hs₂, hrun⟩ := hrun
    exact ih (h.2 s₂ hs₂).2 hrun

/-- After 62 calls one free slot is left, and the next page is outside. -/
theorem risingPages_last (m : Cells) : ∃ s f,
    nodeRun higherHalf risingPages (List.replicate 62 .alloc)
      (createNodeList higherHalf risingPages m noTables) = some s ∧
    Listed higherHalf risingPages 0 1 s [f] ∧ KeepsOutside higherHalf risingPages 0 m s ∧
    (∀ C, Uses higherHalf risingPages C (List.replicate 62 .alloc)
      (createNodeList higherHalf risingPages m noTables)) ∧
    ∀ a, page higherHalf risingPages 1 ≤ a → byteAt s.mem a = byteAt m a := by
  have hcreate : Listed higherHalf risingPages 0 1 (createNodeList higherHalf risingPages m noTables) _ :=
    listed_create m noTables (by decide) (by decide)
  obtain ⟨s, hrun, h, -, huses, -⟩ := listed_allocs 62 hcreate (by rw [length_pageSlots]; decide)
  rw [drop_pageSlots] at h
  obtain ⟨-, s', n, F, hrun', -, hk⟩ := own_run _ hcreate (keeps_create m noTables (by decide)) (huses _)
  rw [hrun, Option.some.injEq] at hrun'
  rw [← hrun'] at hk
  refine ⟨s, _, hrun, h, hk, huses, ?_⟩
  intro a ha
  apply hk a
  rw [h.count]
  intro p hp
  rw [obtained, obtained, List.mem_singleton] at hp
  rw [hp, risingPages_page 0 (by decide)]
  rw [risingPages_page 1 (by decide)] at ha
  omega

end Runs

end BruhOS.Vas
