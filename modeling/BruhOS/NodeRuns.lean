import BruhOS.VasNodes

/-!
# Runs of the node allocator

A list is created, and nodes are handed out and given back in any order. Every
slot of its pages is on the free list or with a user, never both, and
`usedNodes` counts the users. The comparison of `alloc_node` takes a page
exactly when the free list would run empty.

Users write to their nodes between the calls, over the whole slot.
-/

set_option autoImplicit false

namespace BruhOS.Vas

open BruhOS.PointerTree

/-- A call, or a store of 32 bits by the owner of a node. -/
inductive NodeOp where
  | alloc
  | free (node : ℕ)
  | write (node a v : ℕ)
  deriving DecidableEq, Repr

section Runs

variable (off : ℕ) (pfaAllocPage : ℕ → ℕ)

def nodeStep (s : State) : NodeOp → Option State
  | .alloc => (allocNode off pfaAllocPage s).map Prod.snd
  | .free node => freeNode s node
  | .write _ a v => some { s with mem := store32 s.mem a v }

def nodeRun : List NodeOp → State → Option State
  | [], s => some s
  | op::ops, s => (nodeStep off pfaAllocPage s op).bind (nodeRun ops)

/-- `n` pages from number `first` on, the latest first. -/
def obtained (first : ℕ) : ℕ → List ℕ
  | 0 => []
  | n+1 => page off pfaAllocPage (first+n)::obtained first n

/-- The next call takes a page: `usedNodes < totalNodes` will not hold. -/
def Fills (s : State) : Prop := ∃ used total, load32 s.mem (s.alloc+36) = some used ∧
  load32 s.mem (s.alloc+32) = some total ∧ total ≤ (used+1) % 2^32

/-- What a caller may do, and what holds of the page that a call takes. -/
def Proper (C : State → Prop) (s : State) : NodeOp → Prop
  | .alloc => Fills s → C s
  | .free node => node ∈ s.live
  | .write node a _ => node ∈ s.live ∧ node ≤ a ∧ a < node+64

def Uses (C : State → Prop) : List NodeOp → State → Prop
  | [], _ => True
  | op::ops, s => Proper C s op ∧ ∀ s', nodeStep off pfaAllocPage s op = some s' → Uses C ops s'

/-- `pfa_alloc_page` returns a fresh page, not `NULL` and not directly below a page of the
list, and the nodes stay countable. -/
structure Supplied (first : ℕ) (s : State) : Prop where
  aligned : page off pfaAllocPage s.tables.taken % 4096 = 0
  nonzero : page off pfaAllocPage s.tables.taken ≠ 0
  fresh : page off pfaAllocPage s.tables.taken ∉ obtained off pfaAllocPage first (s.tables.taken-first)
  apart : page off pfaAllocPage s.tables.taken+4096 ∉
    obtained off pfaAllocPage first (s.tables.taken-first)
  room : 63*(s.tables.taken-first+1) < 2^32

/-- `n` pages from number `first` on, whose free slots are `F`. -/
structure Listed (first n : ℕ) (s : State) (F : List ℕ) : Prop where
  list : NodeList s.mem s.alloc (obtained off pfaAllocPage first n) F
  taken : s.tables.taken = first+n
  head : s.alloc = page off pfaAllocPage first
  used : load32 s.mem (s.alloc+36) = some s.live.length
  total : load32 s.mem (s.alloc+32) = some (63*n)
  pages : load32 s.mem (s.alloc+40) = some n
  sum : s.live.length+F.length = 63*n
  nodup : (F++s.live).Nodup
  slots : ∀ x, IsSlot (obtained off pfaAllocPage first n) x ↔ x ∈ F ∨ x ∈ s.live
  alone : n = 1 → load64 s.mem s.alloc = some 0
  grown : 1 < n → ∃ next, load64 s.mem s.alloc = some next ∧ next ≠ 0

end Runs

section Steps

variable {off : ℕ} {pfaAllocPage : ℕ → ℕ} {first n : ℕ} {s : State} {F P : List ℕ} {f g p x : ℕ}

theorem placed_page (k : ℕ) (ha : page off pfaAllocPage k % 4096 = 0)
    (hz : page off pfaAllocPage k ≠ 0) : Placed (page off pfaAllocPage k) := by
  have hlt : page off pfaAllocPage k < 2^64 := Nat.mod_lt _ (by decide)
  refine ⟨ha, by omega, ?_⟩
  omega

theorem Listed.page_pos (h : Listed off pfaAllocPage first n s F) : 0 < n := by
  have hF := List.length_pos_iff.mpr h.list.nonempty
  have := h.sum
  omega

/-- A call takes a page exactly when one free slot is left. -/
theorem Listed.fills_iff (h : Listed off pfaAllocPage first n s (f::F)) : Fills s ↔ F = [] := by
  obtain ⟨-, total, -, htotal, -, hlt⟩ := h.list.counts
  rw [h.total, Option.some.injEq] at htotal
  have hsum := h.sum
  rw [List.length_cons] at hsum
  constructor
  · rintro ⟨used, total', hused, htotal', hle⟩
    rw [h.used, Option.some.injEq] at hused
    rw [h.total, Option.some.injEq] at htotal'
    rw [← hused, ← htotal', Nat.mod_eq_of_lt (by omega)] at hle
    exact List.length_eq_zero_iff.mp (by omega)
  · intro hF
    refine ⟨_, _, h.used, h.total, ?_⟩
    rw [hF, List.length_nil] at hsum
    rw [Nat.mod_eq_of_lt (by omega)]
    omega

theorem Listed.takes (h : Listed off pfaAllocPage first n s F) (hs : Supplied off pfaAllocPage first s) :
    Takes s.mem s.alloc (obtained off pfaAllocPage first n) (page off pfaAllocPage s.tables.taken) := by
  have hn : s.tables.taken-first = n := by
    have := h.taken
    omega
  have hfresh := hs.fresh
  have hapart := hs.apart
  have hroom := hs.room
  rw [hn] at hfresh hapart hroom
  constructor
  · exact placed_page _ hs.aligned hs.nonzero
  · exact hfresh
  · intro heq
    exact hapart (heq ▸ h.list.head_mem)
  · intro total htotal
    rw [h.total, Option.some.injEq] at htotal
    omega

/-- While a free slot remains, `alloc_node` hands out the first one. -/
theorem listed_more (h : Listed off pfaAllocPage first n s (f::g::F)) :
    ∃ m', allocNode off pfaAllocPage s = some (f, s.handOut m' f 0) ∧
      Listed off pfaAllocPage first n (s.handOut m' f 0) (g::F) ∧
      ∀ a, a < s.alloc+24 ∨ s.alloc+40 ≤ a → m' a = s.mem a := by
  obtain ⟨m', heq, -, hlist, -, hcount, hsame⟩ := allocNode_more off pfaAllocPage h.list
  obtain ⟨-, total, -, htotal, -, hlt⟩ := h.list.counts
  rw [h.total, Option.some.injEq] at htotal
  have hfirst : load64 m' s.alloc = load64 s.mem s.alloc :=
    load64_congr (hsame _ (by omega)) (hsame _ (by omega))
  refine ⟨m', heq, ?_, hsame⟩
  constructor
  · exact hlist
  · exact h.taken
  · exact h.head
  · exact hcount.used _ h.used
  · exact hcount.total _ h.total
  · exact hcount.pages _ h.pages (by omega)
  · have hsum := h.sum
    simp only [State.handOut, List.length_cons] at hsum ⊢
    omega
  · have hnodup := h.nodup
    simp only [State.handOut, List.cons_append, List.nodup_cons, List.mem_append] at hnodup ⊢
    rw [List.nodup_middle]
    grind
  · intro x
    rw [h.slots x]
    simp only [State.handOut, List.mem_cons]
    tauto
  · intro hn
    exact hfirst.trans (h.alone hn)
  · intro hn
    obtain ⟨next, hnext, hne⟩ := h.grown hn
    exact ⟨next, hfirst.trans hnext, hne⟩

/-- With the last free slot `alloc_node` chains the slots of a new page. -/
theorem listed_full (h : Listed off pfaAllocPage first n s [f])
    (ht : Takes s.mem s.alloc (obtained off pfaAllocPage first n) (page off pfaAllocPage s.tables.taken)) :
    ∃ m', allocNode off pfaAllocPage s = some (f, s.handOut m' f 1) ∧
      Listed off pfaAllocPage first (n+1) (s.handOut m' f 1)
        (pageSlots (page off pfaAllocPage s.tables.taken)) ∧
      ∀ last, Tail s.mem s.alloc last →
        Linked s.mem m' s.alloc last (page off pfaAllocPage s.tables.taken) := by
  obtain ⟨m', heq, -, hlist, -, hcount, hlinked⟩ := allocNode_full h.list ht
  have hpages : obtained off pfaAllocPage first (n+1) =
      page off pfaAllocPage s.tables.taken::obtained off pfaAllocPage first n := by
    rw [obtained, h.taken]
  have hroom := ht.room _ h.total
  have hlaid := ht.laid
  refine ⟨m', heq, ?_, hlinked⟩
  constructor
  · rw [hpages]
    exact hlist
  · have := h.taken
    simp only [State.handOut]
    omega
  · exact h.head
  · exact hcount.used _ h.used
  · exact hcount.total _ h.total
  · exact hcount.pages _ h.pages (by omega)
  · have hsum := h.sum
    simp only [State.handOut, List.length_cons, List.length_nil, length_pageSlots] at hsum ⊢
    omega
  · -- the new slots lie in a new page, the others do not
    have hnodup := h.nodup
    simp only [List.cons_append, List.nil_append] at hnodup
    rw [List.nodup_append]
    refine ⟨pageSlots_nodup _, hnodup, ?_⟩
    intro x hx y hy hxy
    have hslot : IsSlot (obtained off pfaAllocPage first n) x :=
      (h.slots x).mpr (by simpa [hxy, State.handOut] using hy)
    have hpage := hslot.page h.list.laid
    obtain ⟨i, hi, rfl⟩ := mem_pageSlots.mp hx
    have := hlaid.1
    rw [show (page off pfaAllocPage s.tables.taken+64*(i+1))/4096*4096 =
      page off pfaAllocPage s.tables.taken by omega] at hpage
    exact ht.fresh hpage
  · intro x
    rw [hpages, isSlot_cons, h.slots x, or_comm]
    simp [State.handOut]
  · intro hn
    have := h.page_pos
    omega
  · intro _
    obtain ⟨last, hlast, htail⟩ := h.list.tail
    have hlink := hlinked last htail
    have hhead := h.list.laid _ h.list.head_mem
    have hap := head_apart hhead hlaid ht.apart
    rcases htail with ⟨-, rfl⟩ | ⟨next, hnext, hne, -, hlh⟩
    · exact ⟨_, hlink.link ht.apart, by have := hlaid.2.1; omega⟩
    · refine ⟨next, ?_, hne⟩
      have hl := (h.list.laid _ hlast).1
      have := hhead.1
      have hsame : ∀ a, s.alloc ≤ a → a < s.alloc+8 → m' a = s.mem a := fun a h1 h2 =>
        hlink.same a (by omega) (by omega) (by omega) (by omega)
      have hkeep : load64 m' s.alloc = load64 s.mem s.alloc :=
        load64_congr (hsame _ (by omega) (by omega)) (hsame _ (by omega) (by omega))
      exact hkeep.trans hnext

theorem Listed.live_slot (h : Listed off pfaAllocPage first n s F) (hx : x ∈ s.live) :
    IsSlot (obtained off pfaAllocPage first n) x := (h.slots x).mpr (Or.inr hx)

/-- A user's store meets no word of the list. -/
theorem listed_write {a v : ℕ} (h : Listed off pfaAllocPage first n s F) (hx : x ∈ s.live)
    (h1 : x ≤ a) (h2 : a < x+64) :
    Listed off pfaAllocPage first n { s with mem := store32 s.mem a v } F := by
  have hslot := h.live_slot hx
  have hxa := hslot.aligned h.list.laid
  have hhead := (h.list.laid _ h.list.head_mem).1
  have hne := hslot.ne_page h.list.laid hhead
  have hline : ∀ b, s.alloc ≤ b → b < s.alloc+64 → store32 s.mem a v b = s.mem b :=
    fun b h3 h4 => store32_of_ne (by omega)
  have h32 : ∀ k < 64, load32 (store32 s.mem a v) (s.alloc+k) = load32 s.mem (s.alloc+k) :=
    fun k hk => hline _ (by omega) (by omega)
  have hfirst : load64 (store32 s.mem a v) s.alloc = load64 s.mem s.alloc :=
    load64_congr (hline _ (by omega) (by omega)) (hline _ (by omega) (by omega))
  constructor
  · apply h.list.congr hline
    intro y hy b h3 h4
    have hya := (h.list.slots y hy).aligned h.list.laid
    have hxy : x ≠ y := fun heq => (List.disjoint_of_nodup_append h.nodup) hy (heq ▸ hx)
    exact store32_of_ne (by omega)
  · exact h.taken
  · exact h.head
  · exact (h32 36 (by decide)).trans h.used
  · exact (h32 32 (by decide)).trans h.total
  · exact (h32 40 (by decide)).trans h.pages
  · exact h.sum
  · exact h.nodup
  · exact h.slots
  · intro hn
    exact hfirst.trans (h.alone hn)
  · intro hn
    obtain ⟨next, hnext, hnz⟩ := h.grown hn
    exact ⟨next, hfirst.trans hnext, hnz⟩

/-- The stores of `free_node`. -/
def giveBack (m : Cells) (head node free used : ℕ) : Cells :=
  store32 (store64 (store64 m (node+48) free) (head+24) node) (head+36) (used+(2^32-1))

theorem giveBack_of_ne {m : Cells} {head node free used a : ℕ} (h1 : a < node+48 ∨ node+56 ≤ a)
    (h2 : a < head+24 ∨ head+40 ≤ a) : giveBack m head node free used a = m a := by
  rw [giveBack, store32_of_ne (by omega), store64_of_ne (by omega) (by omega),
    store64_of_ne (by omega) (by omega)]

section Given

variable {m : Cells} {head node free used : ℕ}

theorem giveBack_free (hn : node < 2^64) :
    load64 (giveBack m head node free used) (head+24) = some node := by
  rw [giveBack, load64_congr (store32_of_ne (by omega)) (store32_of_ne (by omega)),
    load64_store64 hn]

theorem giveBack_next (hap : node+64 ≤ head ∨ head+64 ≤ node) (hf : free < 2^64) :
    load64 (giveBack m head node free used) (node+48) = some free := by
  rw [giveBack, load64_congr (store32_of_ne (by omega)) (store32_of_ne (by omega)),
    load64_store64_of_ne (by omega) (by omega) (by omega), load64_store64 hf]

/-- The subtraction of one, made by the addition of a word of ones. -/
theorem giveBack_used (hu : used+1 < 2^32) :
    load32 (giveBack m head node free (used+1)) (head+36) = some used := by
  rw [giveBack, load32, store32, if_pos rfl, show used+1+(2^32-1) = used+2^32 by omega,
    Nat.add_mod_right, Nat.mod_eq_of_lt (by omega)]

theorem giveBack_total (hap : node+64 ≤ head ∨ head+64 ≤ node) :
    load32 (giveBack m head node free used) (head+32) = load32 m (head+32) := by
  rw [giveBack, load32, store32_of_ne (by omega), store64_of_ne (by omega) (by omega),
    store64_of_ne (by omega) (by omega), load32]

theorem giveBack_pages (hap : node+64 ≤ head ∨ head+64 ≤ node) :
    load32 (giveBack m head node free used) (head+40) = load32 m (head+40) :=
  giveBack_of_ne (by omega) (by omega)

/-- The list with the slot in front of its free ones. -/
theorem giveBack_list {P F : List ℕ} {total n : ℕ} (h : NodeList m head P F)
    (hslot : IsSlot P node) (hnF : node ∉ F) (hu : used+1 < 2^32) (ht : total < 2^32)
    (htotal : load32 m (head+32) = some total) (hpages : load32 m (head+40) = some n)
    (hsum : used+1+F.length = total) :
    NodeList (giveBack m head node (F.headD 0) (used+1)) head P (node::F) := by
  have hna := hslot.aligned h.laid
  have hnb := hslot.bounds h.laid
  have hhead := (h.laid _ h.head_mem).1
  have hne := hslot.ne_page h.laid hhead
  have hap : node+64 ≤ head ∨ head+64 ≤ node := by omega
  have hfree : F.headD 0 < 2^64 := by
    cases F with
    | nil => simp
    | cons f F =>
      have := (h.slots f (by simp)).bounds h.laid
      simp only [List.headD_cons]
      omega
  have hfirst : ∀ a, head ≤ a → a+8 ≤ head+16 →
      load64 (giveBack m head node (F.headD 0) (used+1)) a = load64 m a := fun a h1 h2 =>
    load64_congr (giveBack_of_ne (by omega) (by omega)) (giveBack_of_ne (by omega) (by omega))
  constructor
  · exact h.head_mem
  · exact h.laid
  · exact giveBack_free (by omega)
  · refine ⟨giveBack_next hap hfree, h.chain.congr F ?_⟩
    intro y hy a h1 h2
    have hya := (h.slots y hy).aligned h.laid
    have hyh := (h.slots y hy).ne_page h.laid hhead
    have hyn : y ≠ node := fun heq => hnF (heq ▸ hy)
    exact giveBack_of_ne (by omega) (by omega)
  · simp
  · exact List.nodup_cons.mpr ⟨hnF, h.nodup⟩
  · intro y hy
    rcases List.mem_cons.mp hy with rfl | hy
    · exact hslot
    · exact h.slots y hy
  · refine ⟨used, total, giveBack_used hu, (giveBack_total hap).trans htotal, ?_, ht⟩
    rw [List.length_cons]
    omega
  · exact ⟨n, (giveBack_pages hap).trans hpages⟩
  · rw [hfirst _ (by omega) (by omega), hfirst _ (by omega) (by omega)]
    exact h.append

end Given

theorem freeNode_eq {used free node : ℕ} (hused : load32 s.mem (s.alloc+36) = some used)
    (hpos : used ≠ 0) (hfree : load64 s.mem (s.alloc+24) = some free)
    (hap : node+64 ≤ s.alloc ∨ s.alloc+64 ≤ node) :
    freeNode s node = some { s with
      mem := giveBack s.mem s.alloc node free used, live := s.live.erase node } := by
  have hused' : load32 (store64 (store64 s.mem (node+48) free) (s.alloc+24) node) (s.alloc+36) =
      some used := by
    rw [load32, store64_of_ne (by omega) (by omega), store64_of_ne (by omega) (by omega)]
    exact hused
  simp only [freeNode, hused, hfree, hused', Option.bind_eq_bind, Option.bind_some, if_neg hpos,
    giveBack]

theorem listed_free {node : ℕ} (h : Listed off pfaAllocPage first n s F) (hx : node ∈ s.live) :
    ∃ m', freeNode s node = some { s with mem := m', live := s.live.erase node } ∧
      Listed off pfaAllocPage first n { s with mem := m', live := s.live.erase node } (node::F) ∧
      ∀ a, a < node+48 ∨ node+56 ≤ a → a < s.alloc+24 ∨ s.alloc+40 ≤ a → m' a = s.mem a := by
  obtain ⟨-, total, -, htotal, -, hlt⟩ := h.list.counts
  rw [h.total, Option.some.injEq] at htotal
  have hsum := h.sum
  have hslot := h.live_slot hx
  have hna := hslot.aligned h.list.laid
  have hhead := (h.list.laid _ h.list.head_mem).1
  have hne := hslot.ne_page h.list.laid hhead
  have hnodup := h.nodup
  have hnF : node ∉ F := fun hmem => (List.disjoint_of_nodup_append hnodup) hmem hx
  have herase : ∀ x, x ∈ s.live.erase node ↔ x ≠ node ∧ x ∈ s.live := fun x =>
    (List.Nodup.of_append_right hnodup).mem_erase_iff
  have hlength : s.live.length = (s.live.erase node).length+1 := by
    rw [List.length_erase_of_mem hx]
    have := List.length_pos_of_mem hx
    omega
  have hap : node+64 ≤ s.alloc ∨ s.alloc+64 ≤ node := by omega
  have heq := freeNode_eq h.used (by omega) h.list.free hap
  rw [hlength] at heq hsum
  have hlist := giveBack_list h.list hslot hnF (by omega) (htotal ▸ hlt) h.total h.pages
    (by omega : (s.live.erase node).length+1+F.length = 63*n)
  have hfirst : load64 (giveBack s.mem s.alloc node (F.headD 0) ((s.live.erase node).length+1))
      s.alloc = load64 s.mem s.alloc :=
    load64_congr (giveBack_of_ne (by omega) (by omega)) (giveBack_of_ne (by omega) (by omega))
  refine ⟨_, heq, ⟨hlist, h.taken, h.head, giveBack_used (by omega),
    (giveBack_total hap).trans h.total, (giveBack_pages hap).trans h.pages, ?_, ?_, ?_, ?_, ?_⟩,
    fun a h1 h2 => giveBack_of_ne h1 h2⟩
  · simp only [List.length_cons]
    omega
  · rw [List.cons_append, List.nodup_cons, List.mem_append, List.nodup_append]
    rw [List.nodup_append] at hnodup
    refine ⟨?_, hnodup.1, hnodup.2.1.erase node, ?_⟩
    · rintro (hmem | hmem)
      · exact hnF hmem
      · exact ((herase node).mp hmem).1 rfl
    · intro a ha b hb
      exact hnodup.2.2 a ha b ((herase b).mp hb).2
  · intro x
    rw [h.slots x, List.mem_cons, herase x]
    by_cases hxn : x = node
    · simp [hxn, hx]
    · simp [hxn]
  · intro hn
    exact hfirst.trans (h.alone hn)
  · intro hn
    obtain ⟨next, hnext, hnz⟩ := h.grown hn
    exact ⟨next, hfirst.trans hnext, hnz⟩

theorem listed_create (m : Cells) (tables : Paging.State)
    (ha : page off pfaAllocPage tables.taken % 4096 = 0) (hz : page off pfaAllocPage tables.taken ≠ 0) :
    Listed off pfaAllocPage tables.taken 1 (createNodeList off pfaAllocPage m tables)
      (pageSlots (page off pfaAllocPage tables.taken)) := by
  have hpages : obtained off pfaAllocPage tables.taken 1 = [page off pfaAllocPage tables.taken] := rfl
  have hhead : (createNodeList off pfaAllocPage m tables).alloc = page off pfaAllocPage tables.taken := rfl
  constructor
  · rw [hpages]
    exact createNodeList_list (placed_page _ ha hz)
  · rfl
  · rfl
  · rw [hhead]
    exact (createNodeList_counters rfl).1
  · rw [hhead]
    exact (createNodeList_counters rfl).2.1
  · rw [hhead]
    exact (createNodeList_counters rfl).2.2
  · exact (Nat.zero_add _).trans (length_pageSlots _)
  · exact (List.append_nil _).symm ▸ pageSlots_nodup _
  · intro x
    rw [hpages, isSlot_cons]
    simp [IsSlot, createNodeList]
  · intro _
    exact createNodeList_alone rfl
  · intro h
    exact absurd h (by decide)

end Steps

section Runs

variable {off : ℕ} {pfaAllocPage : ℕ → ℕ} {first n : ℕ} {s : State} {F : List ℕ}
  {C C' : State → Prop} {ops ops' : List NodeOp}

theorem nodeRun_append (ops ops' : List NodeOp) (s : State) :
    nodeRun off pfaAllocPage (ops++ops') s =
      (nodeRun off pfaAllocPage ops s).bind (nodeRun off pfaAllocPage ops') := by
  induction ops generalizing s with
  | nil => rfl
  | cons op ops ih =>
    rw [List.cons_append, nodeRun, nodeRun, Option.bind_assoc]
    congr 1
    funext s'
    exact ih s'

theorem uses_append (h : Uses off pfaAllocPage C ops s)
    (h' : ∀ s', nodeRun off pfaAllocPage ops s = some s' → Uses off pfaAllocPage C ops' s') :
    Uses off pfaAllocPage C (ops++ops') s := by
  induction ops generalizing s with
  | nil => exact h' s rfl
  | cons op ops ih =>
    refine ⟨h.1, fun s₁ hs₁ => ih (h.2 s₁ hs₁) ?_⟩
    intro s' hs'
    exact h' s' (by rw [nodeRun, hs₁, Option.bind_some, hs'])

theorem Uses.mono (h : Uses off pfaAllocPage C ops s) (hC : ∀ s, C s → C' s) :
    Uses off pfaAllocPage C' ops s := by
  induction ops generalizing s with
  | nil => trivial
  | cons op ops ih =>
    refine ⟨?_, fun s' hs' => ih (h.2 s' hs')⟩
    have hop := h.1
    cases op with
    | alloc => exact fun hf => hC s (hop hf)
    | free node => exact hop
    | write node a v => exact hop

/-- A step takes a page exactly if it fills the list. -/
theorem listed_step (h : Listed off pfaAllocPage first n s F) (op : NodeOp)
    (hp : Proper (Supplied off pfaAllocPage first) s op) :
    ∃ s' n' F', nodeStep off pfaAllocPage s op = some s' ∧ Listed off pfaAllocPage first n' s' F' ∧
      ((Proper (fun _ => False) s op ∧ n' = n) ∨ (¬ Proper (fun _ => False) s op ∧ n < n')) := by
  cases op with
  | alloc =>
    match F, h with
    | [], h => exact absurd rfl h.list.nonempty
    | [f], h =>
      have hf := h.fills_iff.mpr rfl
      obtain ⟨m', heq, hlisted, -⟩ := listed_full h (h.takes (hp hf))
      exact ⟨_, _, _, by rw [nodeStep, heq]; rfl, hlisted,
        Or.inr ⟨fun hnot => hnot hf, Nat.lt_succ_self n⟩⟩
    | f::g::F, h =>
      obtain ⟨m', heq, hlisted, -⟩ := listed_more h
      have hnot : ¬ Fills s := fun hf => absurd (h.fills_iff.mp hf) (by simp)
      exact ⟨_, _, _, by rw [nodeStep, heq]; rfl, hlisted, Or.inl ⟨hnot, rfl⟩⟩
  | free node =>
    obtain ⟨m', heq, hlisted, -⟩ := listed_free h hp
    exact ⟨_, _, _, heq, hlisted, Or.inl ⟨hp, rfl⟩⟩
  | write node a v =>
    exact ⟨_, _, _, rfl, listed_write h hp.1 hp.2.1 hp.2.2, Or.inl ⟨hp, rfl⟩⟩

theorem listed_run (ops : List NodeOp) (h : Listed off pfaAllocPage first n s F)
    (hu : Uses off pfaAllocPage (Supplied off pfaAllocPage first) ops s) :
    ∃ s' n' F', nodeRun off pfaAllocPage ops s = some s' ∧ Listed off pfaAllocPage first n' s' F' ∧
      ((Uses off pfaAllocPage (fun _ => False) ops s ∧ n' = n) ∨
        (¬ Uses off pfaAllocPage (fun _ => False) ops s ∧ n < n')) := by
  induction ops generalizing s n F with
  | nil => exact ⟨s, n, F, rfl, h, Or.inl ⟨trivial, rfl⟩⟩
  | cons op ops ih =>
    obtain ⟨s₁, n₁, F₁, heq, h₁, hstep⟩ := listed_step h op hu.1
    obtain ⟨s', n', F', hrun, h', hrest⟩ := ih h₁ (hu.2 s₁ heq)
    refine ⟨s', n', F', by rw [nodeRun, heq, Option.bind_some, hrun], h', ?_⟩
    rcases hstep with ⟨hp, hn⟩ | ⟨hp, hn⟩
    · rcases hrest with ⟨huses, hn'⟩ | ⟨huses, hn'⟩
      · refine Or.inl ⟨⟨hp, ?_⟩, hn'.trans hn⟩
        intro s₂ hs₂
        rw [heq, Option.some.injEq] at hs₂
        exact hs₂ ▸ huses
      · exact Or.inr ⟨fun hall => huses (hall.2 s₁ heq), hn ▸ hn'⟩
    · refine Or.inr ⟨fun hall => hp hall.1, ?_⟩
      rcases hrest with ⟨-, hn'⟩ | ⟨-, hn'⟩
      · omega
      · omega

/-- As long as a free slot remains behind them, calls take no page and write only the free
pointer and `usedNodes`. -/
theorem listed_allocs (k : ℕ) (h : Listed off pfaAllocPage first n s F) (hk : k < F.length) :
    ∃ s', nodeRun off pfaAllocPage (List.replicate k .alloc) s = some s' ∧
      Listed off pfaAllocPage first n s' (F.drop k) ∧ s'.alloc = s.alloc ∧
      (∀ C, Uses off pfaAllocPage C (List.replicate k .alloc) s) ∧
      ∀ a, a < s.alloc+24 ∨ s.alloc+40 ≤ a → s'.mem a = s.mem a := by
  induction k generalizing s F with
  | zero => exact ⟨s, rfl, h, rfl, fun _ => trivial, fun _ _ => rfl⟩
  | succ k ih =>
    match F, h, hk with
    | f::g::F, h, hk =>
      obtain ⟨m', heq, hlisted, hsame⟩ := listed_more h
      have hstep : nodeStep off pfaAllocPage s .alloc = some (s.handOut m' f 0) := by
        rw [nodeStep, heq]
        rfl
      simp only [List.length_cons] at hk
      obtain ⟨s', hrun, hl, halloc, huses, hrest⟩ := ih hlisted (by simp only [List.length_cons]; omega)
      refine ⟨s', ?_, hl, halloc, ?_, ?_⟩
      · rw [List.replicate_succ, nodeRun, hstep, Option.bind_some, hrun]
      · intro C
        rw [List.replicate_succ]
        refine ⟨fun hf => absurd (h.fills_iff.mp hf) (by simp), ?_⟩
        intro s₁ hs₁
        rw [hstep, Option.some.injEq] at hs₁
        exact hs₁ ▸ huses C
      · intro a ha
        exact (hrest a ha).trans (hsame a ha)
    | [f], h, hk => exact absurd hk (by simp)

/-- The books of the list: every slot is on the chain from `head->free` or live. -/
structure Accounted (off : ℕ) (pfaAllocPage : ℕ → ℕ) (first : ℕ) (s : State) : Prop where
  free : ∃ F used total pages, load64 s.mem (s.alloc+24) = some (F.headD 0) ∧ Chain s.mem F ∧
    F.Nodup ∧ F ≠ [] ∧ (∀ x, x ∈ F ↔
      IsSlot (obtained off pfaAllocPage first (s.tables.taken-first)) x ∧ x ∉ s.live) ∧
    load32 s.mem (s.alloc+36) = some used ∧ load32 s.mem (s.alloc+32) = some total ∧
    load32 s.mem (s.alloc+40) = some pages ∧ used+F.length = total ∧ total = 63*pages ∧
    pages = s.tables.taken-first
  live : s.live.Nodup ∧
    ∀ x ∈ s.live, IsSlot (obtained off pfaAllocPage first (s.tables.taken-first)) x
  alloc : (Fills s → Supplied off pfaAllocPage first s) → ∃ node s',
    allocNode off pfaAllocPage s = some (node, s') ∧ node ∉ s.live ∧ s'.live = node::s.live ∧
    IsSlot (obtained off pfaAllocPage first (s.tables.taken-first)) node

theorem Listed.accounted (h : Listed off pfaAllocPage first n s F) :
    Accounted off pfaAllocPage first s := by
  have hn : s.tables.taken-first = n := by
    have := h.taken
    omega
  have hdisjoint := List.disjoint_of_nodup_append h.nodup
  constructor
  · rw [hn]
    refine ⟨F, _, _, _, h.list.free, h.list.chain, h.list.nodup, h.list.nonempty, ?_, h.used,
      h.total, h.pages, h.sum, rfl, rfl⟩
    intro x
    rw [h.slots x]
    constructor
    · intro hx
      exact ⟨Or.inl hx, fun hl => hdisjoint hx hl⟩
    · rintro ⟨hx | hx, hl⟩
      · exact hx
      · exact absurd hx hl
  · rw [hn]
    exact ⟨List.Nodup.of_append_right h.nodup, fun x hx => h.live_slot hx⟩
  · intro hs
    rw [hn]
    match F, h with
    | [f], h =>
      obtain ⟨m', heq, -⟩ := listed_full h (h.takes (hs (h.fills_iff.mpr rfl)))
      exact ⟨f, _, heq, fun hl => hdisjoint (by simp) hl, rfl, h.list.slots f (by simp)⟩
    | f::g::F, h =>
      obtain ⟨m', heq, -⟩ := listed_more h
      exact ⟨f, _, heq, fun hl => hdisjoint (by simp) hl, rfl, h.list.slots f (by simp)⟩
    | [], h => exact absurd rfl h.list.nonempty

theorem drop_pageSlots (p : ℕ) : (pageSlots p).drop 62 = [p+64*63] := by
  rw [pageSlots, ← List.map_drop]
  rfl

theorem risingPages_supplied {s : State} (h : s.tables.taken = 1) :
    Supplied higherHalf risingPages 0 s := by
  have h0 := risingPages_page 0 (by decide)
  have h1 := risingPages_page 1 (by decide)
  constructor <;> simp only [h, obtained, h0, h1] <;> decide

theorem risingPages_uses (m : Cells) : Uses higherHalf risingPages (Supplied higherHalf risingPages 0)
    (List.replicate 62 .alloc++List.replicate 2 .alloc) (createNodeList higherHalf risingPages m noTables) := by
  have hcreate : Listed higherHalf risingPages 0 1 (createNodeList higherHalf risingPages m noTables) _ :=
    listed_create m noTables (by decide) (by decide)
  obtain ⟨s₁, hrun, h₁, -, huses, -⟩ := listed_allocs 62 hcreate (by rw [length_pageSlots]; decide)
  rw [drop_pageSlots] at h₁
  apply uses_append (huses _)
  intro s' hs'
  rw [hrun, Option.some.injEq] at hs'
  rw [← hs']
  have hsup := risingPages_supplied h₁.taken
  obtain ⟨m', heq, h₂, -⟩ := listed_full h₁ (h₁.takes hsup)
  obtain ⟨-, -, -, -, huses', -⟩ := listed_allocs 1 h₂ (by rw [length_pageSlots]; decide)
  refine ⟨fun _ => hsup, ?_⟩
  intro s₂ hs₂
  rw [nodeStep, heq] at hs₂
  exact Option.some.inj hs₂ ▸ huses' _

end Runs

end BruhOS.Vas
