import BruhOS.VasMachine
import Mathlib.Data.List.Nodup

/-!
# The node list

The slots of the list are lines of 64 bytes, and so is the bookkeeping of each
page. `alloc_node` writes to bookkeeping lines and, when the list is full, to
the lines of the page it takes; the `memset` of that page reaches one line
behind it, which must not be the bookkeeping of the first page.
-/

set_option autoImplicit false

namespace BruhOS.Vas

open BruhOS.PointerTree

def IsSlot (P : List ℕ) (x : ℕ) : Prop := ∃ p ∈ P, ∃ i < 63, x = p+64*(i+1)

/-- The free list from its first slot on. -/
def Chain (m : Cells) : List ℕ → Prop
  | [] => True
  | f::F => load64 m (f+48) = some (F.headD 0) ∧ Chain m F

/-- Where a page of the list may lie. -/
def Placed (p : ℕ) : Prop := p % 4096 = 0 ∧ 0 < p ∧ p+4096 ≤ 2^64

/-- A page that is not the last one of the address space. -/
def Laid (p : ℕ) : Prop := p % 4096 = 0 ∧ 0 < p ∧ p+8192 ≤ 2^64

theorem Laid.placed {p : ℕ} (h : Laid p) : Placed p := ⟨h.1, h.2.1, by have := h.2.2; omega⟩

/-- The list of the pages `P` whose free slots are `F`. -/
structure NodeList (m : Cells) (head : ℕ) (P F : List ℕ) : Prop where
  head_mem : head ∈ P
  laid : ∀ p ∈ P, Placed p
  free : load64 m (head+24) = some (F.headD 0)
  chain : Chain m F
  nonempty : F ≠ []
  nodup : F.Nodup
  slots : ∀ f ∈ F, IsSlot P f
  counts : ∃ used total, load32 m (head+36) = some used ∧ load32 m (head+32) = some total ∧
    used+F.length = total ∧ total < 2^32
  pages : ∃ n, load32 m (head+40) = some n
  append : load64 m head = some 0 ∨ ∃ next last, load64 m head = some next ∧ next ≠ 0 ∧
    load64 m (head+8) = some last ∧ last ∈ P ∧ last ≠ head

/-- The page that a full list takes: a new one, not directly below the first page. -/
structure Takes (m : Cells) (head : ℕ) (P : List ℕ) (new : ℕ) : Prop where
  laid : Placed new
  fresh : new ∉ P
  apart : new+4096 ≠ head
  room : ∀ total, load32 m (head+32) = some total → total+63 < 2^32

section Slots

variable {P : List ℕ} {x y p : ℕ}

theorem IsSlot.aligned (h : IsSlot P x) (hP : ∀ p ∈ P, Placed p) : x % 64 = 0 := by
  obtain ⟨p, hp, i, hi, rfl⟩ := h
  have := (hP p hp).1
  omega

theorem IsSlot.bounds (h : IsSlot P x) (hP : ∀ p ∈ P, Placed p) :
    64 ≤ x ∧ x+64 ≤ 2^64 := by
  obtain ⟨p, hp, i, hi, rfl⟩ := h
  have := (hP p hp).2.2
  omega

/-- A slot is not the bookkeeping line of a page. -/
theorem IsSlot.ne_page (h : IsSlot P x) (hP : ∀ p ∈ P, Placed p) (hp : p % 4096 = 0) : x ≠ p := by
  obtain ⟨p', hp', i, hi, rfl⟩ := h
  have := (hP p' hp').1
  omega

theorem IsSlot.page (h : IsSlot P x) (hP : ∀ p ∈ P, Placed p) : x/4096*4096 ∈ P := by
  obtain ⟨p, hp, i, hi, rfl⟩ := h
  have := (hP p hp).1
  rw [show (p+64*(i+1))/4096*4096 = p by omega]
  exact hp

theorem IsSlot.mono {P' : List ℕ} (h : IsSlot P x) (hP : ∀ p ∈ P, p ∈ P') : IsSlot P' x := by
  obtain ⟨p, hp, i, hi, hx⟩ := h
  exact ⟨p, hP p hp, i, hi, hx⟩

theorem Chain.congr {m m' : Cells} (F : List ℕ) (h : Chain m F)
    (hm : ∀ f ∈ F, ∀ a, f+48 ≤ a → a < f+56 → m' a = m a) : Chain m' F := by
  induction F with
  | nil => trivial
  | cons f F ih =>
    refine ⟨?_, ih h.2 (fun g hg => hm g (by simp [hg]))⟩
    have hcell := hm f (by simp)
    rw [load64_congr (hcell (f+48) (by omega) (by omega)) (hcell (f+48+4) (by omega) (by omega)), h.1]

end Slots

section Pages

variable {m : Cells}

theorem chainNodes_of_ne (n slot : ℕ) (m : Cells) (a : ℕ)
    (h : ∀ i < n, a < slot+64*i+48 ∨ slot+64*i+56 ≤ a) : chainNodes n slot m a = m a := by
  induction n generalizing slot m with
  | zero => rfl
  | succ n ih =>
    rw [chainNodes, ih]
    · have := h 0 (by omega)
      exact store64_of_ne (by omega) (by omega)
    · intro i hi
      have := h (i+1) (by omega)
      omega

theorem chainNodes_next (n slot : ℕ) (m : Cells) (i : ℕ) (hi : i < n)
    (hb : slot+64*(i+1) < 2^64) :
    load64 (chainNodes n slot m) (slot+64*i+48) = some (slot+64*(i+1)) := by
  induction n generalizing slot m i with
  | zero => omega
  | succ n ih =>
    rw [chainNodes]
    cases i with
    | zero =>
      have hsame : ∀ a, slot+48 ≤ a → a < slot+56 →
          chainNodes n (slot+64) (store64 m (slot+48) (slot+64)) a =
            store64 m (slot+48) (slot+64) a := by
        intro a h1 h2
        apply chainNodes_of_ne
        intro i _
        omega
      rw [show slot+64*0+48 = slot+48 by omega,
        load64_congr (hsame _ (by omega) (by omega)) (hsame _ (by omega) (by omega)),
        load64_store64 (by omega)]
    | succ i =>
      have := ih (slot+64) (store64 m (slot+48) (slot+64)) i (by omega) (by omega)
      rw [show slot+64*(i+1)+48 = slot+64+64*i+48 by omega, this]
      congr 1
      omega

/-- The slots of a page, in the order of its free list. -/
def pageSlots (p : ℕ) : List ℕ := (List.range 63).map (fun i => p+64*(i+1))

theorem mem_pageSlots {p x : ℕ} : x ∈ pageSlots p ↔ ∃ i < 63, x = p+64*(i+1) := by
  simp only [pageSlots, List.mem_map, List.mem_range, eq_comm]

theorem isSlot_cons {P : List ℕ} {p x : ℕ} : IsSlot (p::P) x ↔ IsSlot P x ∨ x ∈ pageSlots p := by
  constructor
  · rintro ⟨q, hq, i, hi, rfl⟩
    rcases List.mem_cons.mp hq with rfl | hq
    · exact Or.inr (mem_pageSlots.mpr ⟨i, hi, rfl⟩)
    · exact Or.inl ⟨q, hq, i, hi, rfl⟩
  · rintro (⟨q, hq, i, hi, rfl⟩ | hx)
    · exact ⟨q, List.mem_cons_of_mem _ hq, i, hi, rfl⟩
    · obtain ⟨i, hi, rfl⟩ := mem_pageSlots.mp hx
      exact ⟨p, by simp, i, hi, rfl⟩

theorem pageSlots_nodup (p : ℕ) : (pageSlots p).Nodup := by
  apply List.Nodup.map _ List.nodup_range
  intro i j h
  simp only at h
  omega

/-- A run of slots of which each links to the next and the last to nothing. -/
theorem chain_range (m : Cells) (p : ℕ) (n : ℕ) (i : ℕ)
    (hnext : ∀ j, i ≤ j → j+1 < i+n → load64 m (p+64*(j+1)+48) = some (p+64*(j+2)))
    (hlast : 0 < n → load64 m (p+64*(i+n)+48) = some 0) :
    Chain m ((List.range' i n).map (fun j => p+64*(j+1))) := by
  induction n generalizing i with
  | zero => trivial
  | succ n ih =>
    rw [List.range'_succ, List.map_cons]
    refine ⟨?_, ih (i+1) ?_ ?_⟩
    · cases n with
      | zero => simpa using hlast (by omega)
      | succ n =>
        rw [List.range'_succ, List.map_cons, List.headD_cons]
        exact hnext i (by omega) (by omega)
    · intro j h1 h2
      exact hnext j (by omega) (by omega)
    · intro _
      have := hlast (by omega)
      rwa [show i+1+n = i+(n+1) by omega]

theorem chain_pageSlots {m : Cells} {p : ℕ}
    (hnext : ∀ j, j < 62 → load64 m (p+64*(j+1)+48) = some (p+64*(j+2)))
    (hlast : load64 m (p+64*63+48) = some 0) : Chain m (pageSlots p) := by
  rw [pageSlots, List.range_eq_range']
  apply chain_range m p 63 0
  · intro j _ hj
    exact hnext j (by omega)
  · intro _
    exact hlast

end Pages

section Grow

/-- The new page after its slots have been chained. -/
def filled (m : Cells) (new : ℕ) : Cells :=
  store64 (chainNodes 63 (new+64) (clear m (new+64) 4096)) (new+64*63+48) 0

variable {m : Cells} {head new : ℕ}

theorem filled_out {a : ℕ} (h : a < new+64 ∨ new+4160 ≤ a) : filled m new a = m a := by
  rw [filled, store64_of_ne (by omega) (by omega), chainNodes_of_ne]
  · rw [clear, if_neg (by omega)]
  · intro i hi
    omega

theorem filled_zero {a : ℕ} (hn : new % 64 = 0) (h1 : new+64 ≤ a) (h2 : a < new+4160)
    (h3 : a % 64 < 48 ∨ 56 ≤ a % 64) : filled m new a = some 0 := by
  rw [filled, store64_of_ne (by omega) (by omega), chainNodes_of_ne]
  · rw [clear, if_pos (by omega)]
  · intro i hi
    omega

theorem filled_behind {a : ℕ} (h1 : new+4096 ≤ a) (h2 : a < new+4160) :
    filled m new a = some 0 := by
  rw [filled, store64_of_ne (by omega) (by omega), chainNodes_of_ne]
  · rw [clear, if_pos (by omega)]
  · intro i hi
    omega

theorem filled_next (hb : new+4096 ≤ 2^64) (j : ℕ) (hj : j < 62) :
    load64 (filled m new) (new+64*(j+1)+48) = some (new+64*(j+2)) := by
  have hchain := chainNodes_next 63 (new+64) (clear m (new+64) 4096) j (by omega) (by omega)
  rw [filled, load64_store64_of_ne (by omega) (by omega) (by omega),
    show new+64*(j+1)+48 = new+64+64*j+48 by omega, hchain]
  congr 1
  omega

theorem filled_last : load64 (filled m new) (new+64*63+48) = some 0 := by
  rw [filled, load64_store64 (by decide)]

theorem filled_chain (hb : new+4096 ≤ 2^64) : Chain (filled m new) (pageSlots new) :=
  chain_pageSlots (fun j hj => filled_next hb j hj) filled_last

/-- The bookkeeping line of the first page after a growth. -/
def bump (m : Cells) (head new total n : ℕ) : Cells :=
  store32 (store32 (store64 m (head+24) (new+64)) (head+32) (total+63)) (head+40) (n+1)

theorem bump_of_ne {total n a : ℕ} (h : a < head+24 ∨ head+44 ≤ a) :
    bump m head new total n a = m a := by
  rw [bump, store32_of_ne (by omega), store32_of_ne (by omega), store64_of_ne (by omega) (by omega)]

theorem bump_used {total n : ℕ} :
    load32 (bump m head new total n) (head+36) = load32 m (head+36) := by
  simp [bump, load32, store32, store64]

theorem bump_free {total n : ℕ} (hb : new+64 < 2^64) :
    load64 (bump m head new total n) (head+24) = some (new+64) := by
  rw [bump, load64_congr (store32_of_ne (by omega)) (store32_of_ne (by omega)),
    load64_congr (store32_of_ne (by omega)) (store32_of_ne (by omega)), load64_store64 hb]

theorem bump_total {total n : ℕ} (ht : total+63 < 2^32) :
    load32 (bump m head new total n) (head+32) = some (total+63) := by
  have := load32_store32 (m := store64 m (head+24) (new+64)) (a := head+32) ht
  rw [bump, load32, store32_of_ne (by omega)]
  exact this

theorem bump_pages {total n : ℕ} :
    load32 (bump m head new total n) (head+40) = some ((n+1) % 2^32) := by
  simp [bump, load32, store32]

/-- `last` is the page that the next one is appended to. -/
def Tail (m : Cells) (head last : ℕ) : Prop :=
  (load64 m head = some 0 ∧ last = head) ∨ ∃ next, load64 m head = some next ∧ next ≠ 0 ∧
    load64 m (head+8) = some last ∧ last ≠ head

/-- The memory after `new` has been appended to `last`. -/
structure Appended (m m' : Cells) (head last new : ℕ) : Prop where
  newest : load64 m' (head+8) = some new
  link : load64 m' last = some new
  first : ∃ next, load64 m' head = some next ∧ next ≠ 0
  same : ∀ a, a < head+8 ∨ head+16 ≤ a → a < last ∨ last+8 ≤ a → m' a = m a

theorem Tail.unique {last last' : ℕ} (h : Tail m head last) (h' : Tail m head last') :
    last = last' := by
  rcases h with ⟨h1, rfl⟩ | ⟨next, h1, hne, h2, -⟩ <;>
    rcases h' with ⟨h1', rfl⟩ | ⟨next', h1', hne', h2', -⟩
  · rfl
  · rw [h1, Option.some.injEq] at h1'
    exact absurd h1'.symm hne'
  · rw [h1', Option.some.injEq] at h1
    exact absurd h1.symm hne
  · rw [h2, Option.some.injEq] at h2'
    exact h2'

theorem Tail.congr {m' : Cells} {last : ℕ} (h : Tail m head last)
    (h0 : load64 m' head = load64 m head) (h8 : load64 m' (head+8) = load64 m (head+8)) :
    Tail m' head last := by
  rw [Tail, h0, h8]
  exact h

/-- `appendPage` writes two words of bookkeeping lines. -/
theorem appendPage_spec {last : ℕ} (h : Tail m head last)
    (hapart : last = head ∨ last+16 ≤ head ∨ head+16 ≤ last) (hn : new < 2^64) (hpos : 0 < new) :
    ∃ m', appendPage m head new = some m' ∧ Appended m m' head last new := by
  rcases h with ⟨h, rfl⟩ | ⟨next, hnext, hne, hlast, hlh⟩
  · refine ⟨store64 (store64 m (last+8) new) last new, ?_, ?_⟩
    · simp [appendPage, h]
    · constructor
      · rw [load64_store64_of_ne (by omega) (by omega) (by omega), load64_store64 hn]
      · exact load64_store64 hn
      · exact ⟨new, load64_store64 hn, by omega⟩
      · intro a h1 h2
        rw [store64_of_ne (by omega) (by omega), store64_of_ne (by omega) (by omega)]
  · have hlast' : load64 (store64 m last new) (head+8) = some last := by
      rw [load64_store64_of_ne (by omega) (by omega) (by omega), hlast]
    refine ⟨store64 (store64 m last new) (head+8) new, ?_, ?_⟩
    · simp [appendPage, hnext, hne, hlast, hlast', load64_store64 hn]
    · constructor
      · exact load64_store64 hn
      · rw [load64_store64_of_ne (by omega) (by omega) (by omega), load64_store64 hn]
      · refine ⟨next, ?_, hne⟩
        rw [load64_store64_of_ne (by omega) (by omega) (by omega),
          load64_store64_of_ne (by omega) (by omega) (by omega), hnext]
      · intro a h1 h2
        rw [store64_of_ne (by omega) (by omega), store64_of_ne (by omega) (by omega)]

theorem initPage_spec {total n : ℕ} (hlast : load64 m (head+8) = some new)
    (hapart : head+64 ≤ new+64 ∨ new+4160 ≤ head) (htotal : load32 m (head+32) = some total)
    (hpages : load32 m (head+40) = some n) :
    initPage m head = some (bump (filled m new) head new total n) := by
  have hclear : ∀ a, head ≤ a → a < head+64 → clear m (new+64) 4096 a = m a := by
    intro a h1 h2
    rw [clear, if_neg (by omega)]
  have hlast' : load64 (clear m (new+64) 4096) (head+8) = some new := by
    rw [load64_congr (hclear _ (by omega) (by omega)) (hclear _ (by omega) (by omega)), hlast]
  have htotal' : load32 (store64 (filled m new) (head+24) (new+64)) (head+32) = some total := by
    rw [load32, store64_of_ne (by omega) (by omega), filled_out (by omega)]
    exact htotal
  have hpages' : load32 (store32 (store64 (filled m new) (head+24) (new+64)) (head+32) (total+63))
      (head+40) = some n := by
    rw [load32, store32_of_ne (by omega), store64_of_ne (by omega) (by omega),
      filled_out (by omega)]
    exact hpages
  rw [filled] at htotal' hpages'
  simp only [initPage, hlast, hlast', Option.bind_eq_bind, Option.bind_some, htotal', hpages', bump,
    filled]

end Grow

section Alloc

variable {off : ℕ} {pfaAllocPage : ℕ → ℕ} {s : State} {P F : List ℕ} {f : ℕ}

/-- The state after a slot has been handed out, and `k` pages taken for it. -/
def State.handOut (s : State) (m : Cells) (f k : ℕ) : State :=
  { s with mem := m, live := f::s.live, tables := { s.tables with taken := s.tables.taken+k } }

/-- The bookkeeping after a slot has been taken off the free list. -/
def takeSlot (m : Cells) (head next used : ℕ) : Cells :=
  store32 (store64 m (head+24) next) (head+36) (used+1)

theorem takeSlot_of_ne {m : Cells} {head next used a : ℕ} (h : a < head+24 ∨ head+40 ≤ a) :
    takeSlot m head next used a = m a := by
  rw [takeSlot, store32_of_ne (by omega), store64_of_ne (by omega) (by omega)]

theorem takeSlot_free {m : Cells} {head next used : ℕ} (hn : next < 2^64) :
    load64 (takeSlot m head next used) (head+24) = some next := by
  rw [takeSlot, load64_congr (store32_of_ne (by omega)) (store32_of_ne (by omega)),
    load64_store64 hn]

theorem takeSlot_used (m : Cells) (head next : ℕ) {used : ℕ} (hu : used+1 < 2^32) :
    load32 (takeSlot m head next used) (head+36) = some (used+1) := by
  rw [takeSlot, load32_store32 hu]

theorem takeSlot_total (m : Cells) (head next used : ℕ) :
    load32 (takeSlot m head next used) (head+32) = load32 m (head+32) := by
  simp [takeSlot, load32, store32, store64]

/-- The steps of `alloc_node` up to its comparison. -/
theorem allocNode_eq {used total : ℕ} (h : NodeList s.mem s.alloc P (f::F))
    (hused : load32 s.mem (s.alloc+36) = some used)
    (htotal : load32 s.mem (s.alloc+32) = some total) (hu : used+1 < 2^32) :
    allocNode off pfaAllocPage s =
      if used+1 < total then
        some (f, s.handOut (takeSlot s.mem s.alloc (F.headD 0) used) f 0)
      else
        (appendPage (takeSlot s.mem s.alloc (F.headD 0) used) s.alloc
          (page off pfaAllocPage s.tables.taken)).bind (fun m => (initPage m s.alloc).bind (fun m =>
            some (f, s.handOut m f 1))) := by
  have hfree : load64 s.mem (s.alloc+24) = some f := h.free
  have hnext : load64 s.mem (f+48) = some (F.headD 0) := h.chain.1
  have hused' : load32 (store64 s.mem (s.alloc+24) (F.headD 0)) (s.alloc+36) = some used := by
    rw [load32, store64_of_ne (by omega) (by omega)]
    exact hused
  have hu' := takeSlot_used s.mem s.alloc (F.headD 0) hu
  have ht' := takeSlot_total s.mem s.alloc (F.headD 0) used
  rw [takeSlot] at hu' ht'
  rw [htotal] at ht'
  simp only [allocNode, hfree, hnext, hused', hu', ht', Option.bind_eq_bind, Option.bind_some,
    takeSlot]
  rfl

/-- The memory after a growth by the page `new`. -/
structure Grown (m m' : Cells) (P : List ℕ) (new : ℕ) : Prop where
  zero : ∀ a, new+64 ≤ a → a < new+4160 → a % 64 < 48 ∨ 56 ≤ a % 64 → m' a = some 0
  next : ∀ j, j < 62 → load64 m' (new+64*(j+1)+48) = some (new+64*(j+2))
  last : load64 m' (new+64*63+48) = some 0
  same : ∀ a, a < new+64 ∨ new+4160 ≤ a → (∀ p ∈ P, a < p ∨ p+64 ≤ a) → m' a = m a

/-- The counters after a node has been handed out and `k` pages taken. -/
structure Counted (m m' : Cells) (head k : ℕ) : Prop where
  used : ∀ u, load32 m (head+36) = some u → load32 m' (head+36) = some (u+1)
  total : ∀ t, load32 m (head+32) = some t → load32 m' (head+32) = some (t+63*k)
  pages : ∀ n, load32 m (head+40) = some n → n+k < 2^32 → load32 m' (head+40) = some (n+k)

/-- What a growth by the page `new` writes outside of it, when `last` was the last page: the
bookkeeping of the list, and zeros to the line behind `new`. -/
structure Linked (m m' : Cells) (head last new : ℕ) : Prop where
  newest : load64 m' (head+8) = some new
  free : load64 m' (head+24) = some (new+64)
  link : new+4096 ≠ last → load64 m' last = some new
  behind : ∀ a, new+4096 ≤ a → a < new+4160 → m' a = some 0
  same : ∀ a, a < new+64 ∨ new+4160 ≤ a → a < head+8 ∨ head+16 ≤ a → a < last ∨ last+8 ≤ a →
    a < head+24 ∨ head+44 ≤ a → m' a = m a

theorem NodeList.tail {m : Cells} {head : ℕ} (h : NodeList m head P F) :
    ∃ last ∈ P, Tail m head last := by
  rcases h.append with happ | ⟨next, last, h1, h2, h3, h4, h5⟩
  · exact ⟨head, h.head_mem, Or.inl ⟨happ, rfl⟩⟩
  · exact ⟨last, h4, Or.inr ⟨next, h1, h2, h3, h5⟩⟩

theorem NodeList.congr {m m' : Cells} {head : ℕ} (h : NodeList m head P F)
    (hh : ∀ a, head ≤ a → a < head+64 → m' a = m a)
    (hf : ∀ f ∈ F, ∀ a, f+48 ≤ a → a < f+56 → m' a = m a) : NodeList m' head P F := by
  have h64 : ∀ a, head ≤ a → a+8 ≤ head+64 → load64 m' a = load64 m a := fun a h1 h2 =>
    load64_congr (hh a h1 (by omega)) (hh (a+4) (by omega) (by omega))
  have h32 : ∀ a, head ≤ a → a < head+64 → load32 m' a = load32 m a := hh
  constructor
  · exact h.head_mem
  · exact h.laid
  · rw [h64 _ (by omega) (by omega), h.free]
  · exact h.chain.congr F hf
  · exact h.nonempty
  · exact h.nodup
  · exact h.slots
  · rw [h32 _ (by omega) (by omega), h32 _ (by omega) (by omega)]
    exact h.counts
  · rw [h32 _ (by omega) (by omega)]
    exact h.pages
  · rw [h64 _ (by omega) (by omega), h64 _ (by omega) (by omega)]
    exact h.append

theorem Tail.mem {m : Cells} {head last : ℕ} (ht : Tail m head last) (h : NodeList m head P F) :
    last ∈ P := by
  obtain ⟨last', hmem, ht'⟩ := h.tail
  rw [ht.unique ht']
  exact hmem

theorem takeSlot_append (m : Cells) (head next used : ℕ) :
    load64 (takeSlot m head next used) head = load64 m head ∧
      load64 (takeSlot m head next used) (head+8) = load64 m (head+8) := by
  constructor
  · exact load64_congr (takeSlot_of_ne (by omega)) (takeSlot_of_ne (by omega))
  · exact load64_congr (takeSlot_of_ne (by omega)) (takeSlot_of_ne (by omega))

theorem NodeList.slot_next (h : NodeList s.mem s.alloc P (f::F)) : F.headD 0 < 2^64 := by
  cases F with
  | nil => simp
  | cons g F =>
    have := (h.slots g (by simp)).bounds h.laid
    simp only [List.headD_cons]
    omega

theorem allocNode_more (off : ℕ) (pfaAllocPage : ℕ → ℕ) {g : ℕ} (h : NodeList s.mem s.alloc P (f::g::F)) :
    ∃ m', allocNode off pfaAllocPage s = some (f, s.handOut m' f 0) ∧
      (∃ u, load32 m' (s.alloc+36) = some (u+1)) ∧
      NodeList m' s.alloc P (g::F) ∧ (∀ a, (∀ p ∈ P, a < p ∨ p+64 ≤ a) → m' a = s.mem a) ∧
      Counted s.mem m' s.alloc 0 ∧
      ∀ a, a < s.alloc+24 ∨ s.alloc+40 ≤ a → m' a = s.mem a := by
  obtain ⟨used, total, hused, htotal, hsum, hlt⟩ := h.counts
  simp only [List.length_cons] at hsum
  have hsame : ∀ a, (∀ p ∈ P, a < p ∨ p+64 ≤ a) → takeSlot s.mem s.alloc g used a = s.mem a := by
    intro a ha
    have := ha s.alloc h.head_mem
    exact takeSlot_of_ne (by omega)
  have hkept : ∀ n, load32 s.mem (s.alloc+40) = some n →
      load32 (takeSlot s.mem s.alloc g used) (s.alloc+40) = some n := by
    intro n hn
    rw [load32, takeSlot_of_ne (by omega)]
    exact hn
  refine ⟨takeSlot s.mem s.alloc g used, ?_, ⟨used, takeSlot_used _ _ _ (by omega)⟩, ?_, hsame, ?_,
    fun a ha => takeSlot_of_ne ha⟩
  · rw [allocNode_eq h hused htotal (by omega), if_pos (by omega)]
    rfl
  · have hslots : ∀ x ∈ g::F, IsSlot P x := fun x hx => h.slots x (by simp [List.mem_cons.mp hx])
    constructor
    · exact h.head_mem
    · exact h.laid
    · exact takeSlot_free (by simpa using h.slot_next)
    · apply Chain.congr _ h.chain.2
      intro x hx a h1 h2
      apply hsame
      intro p hp
      have hx' := (hslots x hx).aligned h.laid
      have hne := (hslots x hx).ne_page h.laid (h.laid p hp).1
      have := (h.laid p hp).1
      omega
    · simp
    · exact (List.nodup_cons.mp h.nodup).2
    · exact hslots
    · refine ⟨used+1, total, takeSlot_used _ _ _ (by omega), ?_, ?_, hlt⟩
      · rw [takeSlot_total, htotal]
      · simp only [List.length_cons]
        omega
    · obtain ⟨n, hn⟩ := h.pages
      exact ⟨n, hkept n hn⟩
    · rw [(takeSlot_append s.mem s.alloc g used).1, (takeSlot_append s.mem s.alloc g used).2]
      exact h.append
  · constructor
    · intro u hu
      rw [hused, Option.some.injEq] at hu
      rw [takeSlot_used _ _ _ (by omega), hu]
    · intro t ht
      rw [takeSlot_total, ht]
      rfl
    · intro n hn _
      exact hkept n hn

theorem headD_pageSlots (p : ℕ) : (pageSlots p).headD 0 = p+64 := by
  simp [pageSlots, List.range_succ_eq_map]

theorem length_pageSlots (p : ℕ) : (pageSlots p).length = 63 := by
  simp [pageSlots]

/-- The first bookkeeping line is out of reach of the `memset`. -/
theorem head_apart {head new : ℕ} (hh : Placed head) (hn : Placed new) (hap : new+4096 ≠ head) :
    head+64 ≤ new+64 ∨ new+4160 ≤ head := by
  have := hh.1
  have := hn.1
  omega

/-- A growth from the memory `m`: a slot was taken, and `m1` is the memory with the new page
appended; `used`, `total` and `n` are the counts that the head held. -/
structure Growth (m m1 : Cells) (head last new used total n : ℕ) : Prop where
  usedAt : load32 m (head+36) = some used
  totalAt : load32 m (head+32) = some total
  pagesAt : load32 m (head+40) = some n
  appended : Appended (takeSlot m head 0 used) m1 head last new
  headPlaced : Placed head
  lastPlaced : Placed last
  newPlaced : Placed new
  distinct : head ≠ new ∧ last ≠ new
  apart : new+4096 ≠ head
  bound : used+1 < 2^32
  room : total+63 < 2^32

/-- The memory that the growth ends in. -/
def grownMem (m1 : Cells) (head new total n : ℕ) : Cells := bump (filled m1 new) head new total n

section Growing

variable {m m1 : Cells} {head last new used total n a : ℕ}

/-- The rest of the first bookkeeping line is as `takeSlot` left it. -/
theorem Growth.line (h : Growth m m1 head last new used total n) (h1 : head+16 ≤ a)
    (h2 : a < head+64) : m1 a = takeSlot m head 0 used a := by
  have hh := h.headPlaced.1
  have hl := h.lastPlaced.1
  exact h.appended.same a (by omega) (by omega)

theorem Growth.used_before (h : Growth m m1 head last new used total n) :
    load32 m1 (head+36) = some (used+1) := by
  rw [load32, h.line (by omega) (by omega)]
  exact takeSlot_used _ _ _ h.bound

theorem Growth.init (h : Growth m m1 head last new used total n) :
    initPage m1 head = some (grownMem m1 head new total n) := by
  apply initPage_spec h.appended.newest (head_apart h.headPlaced h.newPlaced h.apart)
  · rw [load32, h.line (by omega) (by omega)]
    exact (takeSlot_total m head 0 used).trans h.totalAt
  · rw [load32, h.line (by omega) (by omega), takeSlot_of_ne (by omega)]
    exact h.pagesAt

theorem grownMem_of_ne (h : a < head+24 ∨ head+44 ≤ a) :
    grownMem m1 head new total n a = filled m1 new a := bump_of_ne h

/-- What lies outside of the new page and of the first bookkeeping line. -/
theorem grownMem_out (h1 : a+8 ≤ new+64 ∨ new+4160 ≤ a) (h2 : a+8 ≤ head+24 ∨ head+44 ≤ a) :
    load64 (grownMem m1 head new total n) a = load64 m1 a := by
  rw [load64_congr (grownMem_of_ne (by omega)) (grownMem_of_ne (by omega)),
    load64_congr (filled_out (by omega)) (filled_out (by omega))]

theorem Growth.newest (h : Growth m m1 head last new used total n) :
    load64 (grownMem m1 head new total n) (head+8) = some new := by
  have hap := head_apart h.headPlaced h.newPlaced h.apart
  rw [grownMem_out (by omega) (by omega), h.appended.newest]

theorem Growth.counter (h : Growth m m1 head last new used total n) :
    load32 (grownMem m1 head new total n) (head+36) = some (used+1) := by
  have hap := head_apart h.headPlaced h.newPlaced h.apart
  rw [grownMem, bump_used, load32, filled_out (by omega)]
  exact h.used_before

theorem Growth.free (h : Growth m m1 head last new used total n) :
    load64 (grownMem m1 head new total n) (head+24) = some (new+64) :=
  bump_free (by have := h.newPlaced.2.2; omega)

theorem Growth.same (h : Growth m m1 head last new used total n)
    (h1 : a < new+64 ∨ new+4160 ≤ a) (h2 : a < head+8 ∨ head+16 ≤ a)
    (h3 : a < last ∨ last+8 ≤ a) (h4 : a < head+24 ∨ head+44 ≤ a) :
    grownMem m1 head new total n a = m a := by
  rw [grownMem_of_ne h4, filled_out h1, h.appended.same a h2 h3, takeSlot_of_ne (by omega)]

theorem Growth.list (h : Growth m m1 head last new used total n) {P : List ℕ} (hm : head ∈ P)
    (hP : ∀ p ∈ P, Placed p) (hsum : used+1 = total) :
    NodeList (grownMem m1 head new total n) head (new::P) (pageSlots new) := by
  have hap := head_apart h.headPlaced h.newPlaced h.apart
  constructor
  · exact List.mem_cons_of_mem _ hm
  · intro p hp
    rcases List.mem_cons.mp hp with hp | hp
    · rw [hp]
      exact h.newPlaced
    · exact hP p hp
  · rw [headD_pageSlots]
    exact h.free
  · apply Chain.congr _ (filled_chain (m := m1) h.newPlaced.2.2)
    intro x hx a h1 h2
    obtain ⟨i, hi, hx⟩ := mem_pageSlots.mp hx
    exact grownMem_of_ne (by omega)
  · intro hnil
    have := length_pageSlots new
    rw [hnil] at this
    simp at this
  · exact pageSlots_nodup new
  · intro x hx
    exact ⟨new, by simp, mem_pageSlots.mp hx⟩
  · refine ⟨used+1, total+63, h.counter, bump_total h.room, ?_, h.room⟩
    rw [length_pageSlots]
    omega
  · exact ⟨_, bump_pages⟩
  · right
    obtain ⟨next, hnext, hnz⟩ := h.appended.first
    refine ⟨next, new, ?_, hnz, h.newest, by simp, h.distinct.1.symm⟩
    rw [grownMem_out (by omega) (by omega), hnext]

theorem Growth.grown (h : Growth m m1 head last new used total n) {P : List ℕ} (hm : head ∈ P)
    (hl : last ∈ P) : Grown m (grownMem m1 head new total n) P new := by
  have hap := head_apart h.headPlaced h.newPlaced h.apart
  constructor
  · intro a h1 h2 h3
    have := h.newPlaced.1
    rw [grownMem_of_ne (by omega), filled_zero (by omega) h1 h2 h3]
  · intro j hj
    rw [load64_congr (grownMem_of_ne (by omega)) (grownMem_of_ne (by omega)),
      filled_next h.newPlaced.2.2 j hj]
  · rw [load64_congr (grownMem_of_ne (by omega)) (grownMem_of_ne (by omega)), filled_last]
  · intro a h1 h2
    have hhd := h2 _ hm
    have hld := h2 _ hl
    exact h.same h1 (by omega) (by omega) (by omega)

theorem Growth.counted (h : Growth m m1 head last new used total n) :
    Counted m (grownMem m1 head new total n) head 1 := by
  constructor
  · intro u hu
    rw [h.usedAt, Option.some.injEq] at hu
    rw [h.counter, hu]
  · intro t ht
    rw [h.totalAt, Option.some.injEq] at ht
    rw [grownMem, bump_total h.room, ← ht]
  · intro k hk hlt
    rw [h.pagesAt, Option.some.injEq] at hk
    rw [grownMem, bump_pages, hk, Nat.mod_eq_of_lt hlt]

theorem Growth.linked (h : Growth m m1 head last new used total n) :
    Linked m (grownMem m1 head new total n) head last new := by
  have hap := head_apart h.headPlaced h.newPlaced h.apart
  have hh := h.headPlaced.1
  have hl := h.lastPlaced.1
  have hn := h.newPlaced.1
  refine ⟨h.newest, h.free, ?_, ?_, fun a h1 h2 h3 h4 => h.same h1 h2 h3 h4⟩
  · intro hnext
    have hne := h.distinct.2
    rw [grownMem_out (by omega) (by omega), h.appended.link]
  · intro a h1 h2
    rw [grownMem_of_ne (by omega), filled_behind h1 h2]

end Growing

theorem allocNode_full (h : NodeList s.mem s.alloc P [f])
    (ht : Takes s.mem s.alloc P (page off pfaAllocPage s.tables.taken)) :
    ∃ m', allocNode off pfaAllocPage s = some (f, s.handOut m' f 1) ∧
      (∃ u, load32 m' (s.alloc+36) = some (u+1)) ∧
      NodeList m' s.alloc (page off pfaAllocPage s.tables.taken::P)
        (pageSlots (page off pfaAllocPage s.tables.taken)) ∧
      Grown s.mem m' P (page off pfaAllocPage s.tables.taken) ∧ Counted s.mem m' s.alloc 1 ∧
      ∀ last, Tail s.mem s.alloc last →
        Linked s.mem m' s.alloc last (page off pfaAllocPage s.tables.taken) := by
  generalize hnew : page off pfaAllocPage s.tables.taken = new at ht ⊢
  obtain ⟨used, total, hused, htotal, hsum, hlt⟩ := h.counts
  obtain ⟨n, hn⟩ := h.pages
  obtain ⟨last, hlmem, htail⟩ := h.tail
  simp only [List.length_cons, List.length_nil] at hsum
  have hhead := h.laid _ h.head_mem
  have hlast := h.laid _ hlmem
  have htail' := htail.congr (takeSlot_append s.mem s.alloc 0 used).1
    (takeSlot_append s.mem s.alloc 0 used).2
  have hline : last = s.alloc ∨ last+16 ≤ s.alloc ∨ s.alloc+16 ≤ last := by
    have := hhead.1
    have := hlast.1
    omega
  obtain ⟨m1, happend, happ⟩ := appendPage_spec htail' hline
    (by have := ht.laid.2.2; omega) ht.laid.2.1
  have hg : Growth s.mem m1 s.alloc last new used total n :=
    ⟨hused, htotal, hn, happ, hhead, hlast, ht.laid,
      ⟨fun heq => ht.fresh (heq ▸ h.head_mem), fun heq => ht.fresh (heq ▸ hlmem)⟩, ht.apart,
      by omega, ht.room total htotal⟩
  refine ⟨grownMem m1 s.alloc new total n, ?_, ⟨used, hg.counter⟩, hg.list h.head_mem h.laid hsum,
    hg.grown h.head_mem hlmem, hg.counted, ?_⟩
  · rw [allocNode_eq h hused htotal (by omega), if_neg (by omega)]
    simp only [List.headD_nil, hnew, happend, Option.bind_some, hg.init]
  · intro last' htail''
    rw [htail''.unique htail]
    exact hg.linked

end Alloc

section Create

variable {m : Cells} {off : ℕ} {pfaAllocPage : ℕ → ℕ} {tables : Paging.State}

/-- The bookkeeping line that `create_node_list` writes. -/
def firstLine (m : Cells) (head : ℕ) : Cells :=
  store32 (store32 (store32 (store64 (store64 (store64 m head 0) (head+16) (head+64)) (head+24)
    (head+64)) (head+32) 63) (head+36) 0) (head+40) 1

theorem firstLine_of_ne {head a : ℕ} (h : a < head ∨ head+44 ≤ a) : firstLine m head a = m a := by
  rw [firstLine, store32_of_ne (by omega), store32_of_ne (by omega), store32_of_ne (by omega),
    store64_of_ne (by omega) (by omega), store64_of_ne (by omega) (by omega),
    store64_of_ne (by omega) (by omega)]

theorem createNodeList_mem {head : ℕ} (hhead : page off pfaAllocPage tables.taken = head) :
    (createNodeList off pfaAllocPage m tables).mem =
      store64 (chainNodes 62 (head+64) (firstLine m head)) (head+64*63+48) 0 := by
  rw [← hhead]
  rfl

/-- Only the links of the slots are written. -/
theorem createNodeList_same {head : ℕ} (hhead : page off pfaAllocPage tables.taken = head)
    (hl : head % 64 = 0) {a : ℕ} (ha : head+64 ≤ a ∨ a < head)
    (hw : a < head ∨ head+4096 ≤ a ∨ a % 64 < 48 ∨ 56 ≤ a % 64) :
    (createNodeList off pfaAllocPage m tables).mem a = m a := by
  rw [createNodeList_mem hhead, store64_of_ne (by omega) (by omega), chainNodes_of_ne,
    firstLine_of_ne (by omega)]
  intro i hi
  omega

theorem createNodeList_next {head : ℕ} (hhead : page off pfaAllocPage tables.taken = head)
    (hb : head+4096 ≤ 2^64) (j : ℕ) (hj : j < 62) :
    load64 (createNodeList off pfaAllocPage m tables).mem (head+64*(j+1)+48) =
      some (head+64*(j+2)) := by
  have hchain := chainNodes_next 62 (head+64) (firstLine m head) j (by omega) (by omega)
  rw [createNodeList_mem hhead, load64_store64_of_ne (by omega) (by omega) (by omega),
    show head+64*(j+1)+48 = head+64+64*j+48 by omega, hchain]
  congr 1
  omega

theorem createNodeList_last {head : ℕ} (hhead : page off pfaAllocPage tables.taken = head) :
    load64 (createNodeList off pfaAllocPage m tables).mem (head+64*63+48) = some 0 := by
  rw [createNodeList_mem hhead, load64_store64 (by decide)]

/-- The stores behind the first bookkeeping line leave it alone. -/
theorem createNodeList_line {head : ℕ} (hhead : page off pfaAllocPage tables.taken = head) {a : ℕ}
    (h1 : head ≤ a) (h2 : a < head+64) :
    (createNodeList off pfaAllocPage m tables).mem a = firstLine m head a := by
  rw [createNodeList_mem hhead, store64_of_ne (by omega) (by omega), chainNodes_of_ne]
  intro i hi
  omega

theorem createNodeList_counters {head : ℕ} (hhead : page off pfaAllocPage tables.taken = head) :
    load32 (createNodeList off pfaAllocPage m tables).mem (head+36) = some 0 ∧
      load32 (createNodeList off pfaAllocPage m tables).mem (head+32) = some 63 ∧
      load32 (createNodeList off pfaAllocPage m tables).mem (head+40) = some 1 := by
  refine ⟨?_, ?_, ?_⟩
  · rw [load32, createNodeList_line hhead (by omega) (by omega)]
    simp [firstLine, store32]
  · rw [load32, createNodeList_line hhead (by omega) (by omega)]
    simp [firstLine, store32]
  · rw [load32, createNodeList_line hhead (by omega) (by omega)]
    simp [firstLine, store32]

theorem createNodeList_alone {head : ℕ} (hhead : page off pfaAllocPage tables.taken = head) :
    load64 (createNodeList off pfaAllocPage m tables).mem head = some 0 := by
  rw [load64_congr (createNodeList_line hhead (by omega) (by omega))
      (createNodeList_line hhead (by omega) (by omega)), firstLine,
    load64_congr (store32_of_ne (by omega)) (store32_of_ne (by omega)),
    load64_congr (store32_of_ne (by omega)) (store32_of_ne (by omega)),
    load64_congr (store32_of_ne (by omega)) (store32_of_ne (by omega)),
    load64_store64_of_ne (by omega) (by omega) (by omega),
    load64_store64_of_ne (by omega) (by omega) (by omega), load64_store64 (by decide)]

theorem createNodeList_list (hl : Placed (page off pfaAllocPage tables.taken)) :
    NodeList (createNodeList off pfaAllocPage m tables).mem
      (createNodeList off pfaAllocPage m tables).alloc
      [page off pfaAllocPage tables.taken] (pageSlots (page off pfaAllocPage tables.taken)) := by
  have halloc : (createNodeList off pfaAllocPage m tables).alloc = page off pfaAllocPage tables.taken :=
    rfl
  rw [halloc]
  generalize hhead : page off pfaAllocPage tables.taken = head at hl ⊢
  have hb := hl.2.2
  have hline : ∀ a, head ≤ a → a < head+64 →
      (createNodeList off pfaAllocPage m tables).mem a = firstLine m head a :=
    fun a h1 h2 => createNodeList_line hhead h1 h2
  obtain ⟨hused, htotal, hpages⟩ := createNodeList_counters (m := m) hhead
  constructor
  · simp
  · simpa using hl
  · rw [load64_congr (hline _ (by omega) (by omega)) (hline _ (by omega) (by omega)),
      headD_pageSlots, firstLine, load64_congr (store32_of_ne (by omega)) (store32_of_ne (by omega)),
      load64_congr (store32_of_ne (by omega)) (store32_of_ne (by omega)),
      load64_congr (store32_of_ne (by omega)) (store32_of_ne (by omega)), load64_store64 (by omega)]
  · exact chain_pageSlots (createNodeList_next hhead hb) (createNodeList_last hhead)
  · intro hnil
    have := length_pageSlots head
    rw [hnil] at this
    simp at this
  · exact pageSlots_nodup head
  · intro x hx
    exact ⟨head, by simp, mem_pageSlots.mp hx⟩
  · exact ⟨0, 63, hused, htotal, by rw [length_pageSlots], by decide⟩
  · exact ⟨1, hpages⟩
  · exact Or.inl (createNodeList_alone hhead)

end Create

section Examples

def higherHalf : ℕ := 0xffff800000000000

/-- Pages from 1 MiB on, one after the other. -/
def risingPages (k : ℕ) : ℕ := 0x100000+k*4096

def noTables : Paging.State := ⟨fun _ _ => 0, 0⟩

theorem risingPages_page (k : ℕ) (hk : k < 64) :
    page higherHalf risingPages k = 0xffff800000100000+k*4096 := by
  simp only [page, Paging.virt, risingPages, higherHalf]
  omega

end Examples

end BruhOS.Vas
