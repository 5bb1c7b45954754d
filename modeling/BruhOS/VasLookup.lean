import BruhOS.VasRefusal

/-!
# A free that cannot find its region

`vas->root` holds a pointer to tree words, and `lookup_by_address` adds 24 to it
once more. The search starts in the link of the root's slot: what it compares
with is the left child of the root, its left child is the link to the next slot
and its right child the padding behind it. From the next slot it goes on to the
number of pages of that slot's record, taken for a pointer.

Memory that the node list has not written is indeterminate here, and the pages
of the list lie above the first 4 GiB. The search then has no result, or finds
nothing, or returns the link it started from.
-/

set_option autoImplicit false

namespace BruhOS.Vas

open BruhOS.PointerTree

/-- What the node list has written to its lines. -/
structure Pristine (m : Cells) (P F : List ℕ) (T : NodeTree) : Prop where
  links : ∀ x, IsSlot P x → load64 m (x+48) = some 0 ∨
    (load64 m (x+48) = some (x+64) ∧ IsSlot P (x+64))
  pads : ∀ x, IsSlot P x → load64 m (x+56) = none ∨ load64 m (x+56) = some 0
  blanks : ∀ f ∈ F, load64 m (f+8) = none ∨ load64 m (f+8) = some 0
  extents : ∀ q ∈ T.inorder, ∃ e < 2^32, load64 m (q-16) = some e
  shared : ∀ x, IsSlot P x → x ∈ F ∨ x+24 ∈ T.inorder
  confined : ∀ a, m a ≠ none → ∃ p ∈ P, p ≤ a ∧ a < p+4160

section Search

variable {avl : Avl} {s : State} {P F : List ℕ} {T : NodeTree} {reg : ℕ → Region}

/-- One round of a lookup. -/
theorem seek_cases {cmp : ℕ → Option ℤ} {m : Cells} {fuel q n : ℕ}
    (h : seek cmp m fuel q = some n) : (q = 0 ∧ n = 0) ∨ (q ≠ 0 ∧ ∃ c fuel', cmp q = some c ∧
      ((c < 0 ∧ ∃ l, load64 m q = some l ∧ seek cmp m fuel' l = some n) ∨
        (0 < c ∧ ∃ r, load64 m (q+8) = some r ∧ seek cmp m fuel' r = some n) ∨
        (c = 0 ∧ n = q))) := by
  cases fuel with
  | zero => simp [seek] at h
  | succ fuel =>
    rw [seek] at h
    split_ifs at h with hq
    · simp only [Option.some.injEq] at h
      exact Or.inl ⟨hq, h.symm⟩
    · right
      refine ⟨hq, ?_⟩
      cases hc : cmp q with
      | none =>
        rw [hc] at h
        exact absurd h (by simp)
      | some c =>
        simp only [hc] at h
        refine ⟨c, fuel, rfl, ?_⟩
        split_ifs at h with h1 h2
        · obtain ⟨l, hl, hgo⟩ := Option.bind_eq_some_iff.mp h
          exact Or.inl ⟨h1, l, hl, hgo⟩
        · obtain ⟨r, hr, hgo⟩ := Option.bind_eq_some_iff.mp h
          exact Or.inr (Or.inl ⟨h2, r, hr, hgo⟩)
        · simp only [Option.some.injEq] at h
          exact Or.inr (Or.inr ⟨by omega, h.symm⟩)

theorem seek_zero {cmp : ℕ → Option ℤ} {m : Cells} {fuel n : ℕ} (h : seek cmp m fuel 0 = some n) :
    n = 0 := by
  rcases seek_cases h with ⟨-, hn⟩ | ⟨hne, -⟩
  · exact hn
  · exact absurd rfl hne

theorem cmpAddress_eq {m : Cells} {address q a : ℕ} {c : ℤ} (ha : load64 m (entry q) = some a)
    (hc : avlCmpVmAddress m address q = some c) :
    c = (if address < a then -1 else 0)+(if a < address then 1 else 0) := by
  rw [avlCmpVmAddress, ha, Option.map_some, Option.some.injEq] at hc
  exact hc.symm

theorem cmpAddress_load {m : Cells} {address q : ℕ} {c : ℤ}
    (hc : avlCmpVmAddress m address q = some c) : ∃ a, load64 m (entry q) = some a := by
  rw [avlCmpVmAddress, Option.map_eq_some_iff] at hc
  obtain ⟨a, ha, -⟩ := hc
  exact ⟨a, ha⟩

/-- A number of pages, taken for a pointer, leads out of the list. -/
theorem Pristine.no_pointer (h : Pristine s.mem P F T) (hP : ∀ p ∈ P, Laid p)
    (hhigh : ∀ p ∈ P, 2^32 ≤ p) {e : ℕ} (he : e < 2^32) :
    load64 s.mem (entry e) = none := by
  have hcell : s.mem (entry e) = none := by
    by_contra hne
    obtain ⟨p, hp, h1, h2⟩ := h.confined _ hne
    have := hhigh p hp
    have := (hP p hp).2.2
    simp only [entry] at h1 h2
    omega
  rw [load64, hcell]

theorem load64_of_none {m : Cells} {a n : ℕ} (h : load64 m a = none ∨ load64 m a = some 0)
    (hn : load64 m a = some n) : n = 0 := by
  rcases h with h | h
  · rw [h] at hn
    exact absurd hn (by simp)
  · rw [h, Option.some.injEq] at hn
    exact hn.symm

/-- The search for an address ends at nothing or at the link it started from. -/
theorem lookup_misses {fuel address n : ℕ} (h : Sound avl s P F T reg) (hp : Pristine s.mem P F T)
    (hlaid : ∀ p ∈ P, Laid p) (hhigh : ∀ p ∈ P, 2^32 ≤ p) (hT : T ≠ .nil)
    (ha : address % 4096 = 0) (hpos : address ≠ 0)
    (hl : lookupByAddress fuel s address = some n) : n = 0 ∨ n % 64 = 48 := by
  cases T with
  | nil => exact absurd rfl hT
  | node l x r =>
    obtain ⟨hroot, hx, ql, qr, b, hb, hleft, -, hpb, -, -⟩ := h.rep
    have hmem : x ∈ (NodeTree.node l x r).inorder := by simp [NodeTree.inorder]
    obtain ⟨h24, hslot, -⟩ := h.placed x hmem
    have hxb := h.bounds hmem
    have hbelow : x+4096 ≤ 2^64 := by
      obtain ⟨p, hp, i, hi, hx⟩ := hslot
      have := (hlaid p hp).2.2
      omega
    have hw : words s.root = x+24 := by rw [hroot, words_eq (by omega)]
    rw [lookupByAddress, hw] at hl
    rcases seek_cases hl with ⟨hz, -⟩ | ⟨-, c, fuel1, hc, hnext⟩
    · omega
    rcases hnext with ⟨-, l1, hl1, hgo⟩ | ⟨-, r1, hr1, hgo⟩ | ⟨-, hn⟩
    · -- below the left child: on to the slot that the link names
      have hlink := hp.links _ hslot
      rw [show x-24+48 = x+24 by omega, show x-24+64 = x+40 by omega] at hlink
      rcases hlink with hlink | ⟨hlink, hnextSlot⟩
      · rw [hl1, Option.some.injEq] at hlink
        rw [hlink] at hgo
        exact Or.inl (seek_zero hgo)
      · rw [hl1, Option.some.injEq] at hlink
        rw [hlink] at hgo
        rcases seek_cases hgo with ⟨hz, -⟩ | ⟨-, c2, fuel2, hc2, hnext2⟩
        · omega
        have hentry : load64 s.mem (entry (x+40)) = some b := by
          rw [entry_eq (by omega) (by omega), show x+40-24 = x+16 by omega, hpb, Nat.zero_add]
        have hc2' := cmpAddress_eq hentry hc2
        rw [if_neg (by omega), if_pos (by omega)] at hc2'
        rcases hnext2 with ⟨hneg, -⟩ | ⟨-, e, he, hgo2⟩ | ⟨hzero, -⟩
        · omega
        · -- above the balance factor of the root: on to the extent of that slot
          rcases hp.shared _ hnextSlot with hF | hT
          · rw [load64_of_none (hp.blanks _ hF) he] at hgo2
            exact Or.inl (seek_zero hgo2)
          · obtain ⟨e', he', hload⟩ := hp.extents _ hT
            rw [show x+40+24-16 = x+40+8 by omega, he, Option.some.injEq] at hload
            by_cases hz : e = 0
            · rw [hz] at hgo2
              exact Or.inl (seek_zero hgo2)
            · rcases seek_cases hgo2 with ⟨hz', -⟩ | ⟨-, c3, fuel3, hc3, -⟩
              · exact absurd hz' hz
              obtain ⟨a, ha'⟩ := cmpAddress_load hc3
              rw [hp.no_pointer hlaid hhigh (by omega)] at ha'
              exact absurd ha' (by simp)
        · omega
    · -- above the left child: on to the padding
      have hpad := hp.pads _ hslot
      rw [show x-24+56 = x+24+8 by omega] at hpad
      rw [load64_of_none hpad hr1] at hgo
      exact Or.inl (seek_zero hgo)
    · right
      omega

end Search

section Steps

variable {avl : Avl} {off : ℕ} {pfaAllocPage : ℕ → ℕ} {fuel L : ℕ} {s : State} {P F : List ℕ}
  {T : NodeTree} {reg : ℕ → Region} {r : Region} {f new k : ℕ} {m m' M : Cells} {P' F' : List ℕ}

/-- The lines that an accepted request writes to: the record and the tree words. -/
structure Writes (m' M : Cells) (P : List ℕ) (T : NodeTree) (f : ℕ) (r : Region) : Prop where
  node : IsSlot P f
  nodes : ∀ q ∈ T.inorder, 24 ≤ q ∧ IsSlot P (q-24)
  same : ∀ a, (∀ q ∈ (f+24)::T.inorder, a < q ∨ q+24 ≤ a) → M a = setRecord m' f r a

/-- Links and padding of a line are not written. -/
theorem Writes.tail (h : Writes m' M P T f r) (hP : ∀ p ∈ P, Placed p) {x a : ℕ} (hx : x % 64 = 0)
    (h1 : x+48 ≤ a) (h2 : a < x+64) : M a = m' a := by
  have hfa := h.node.aligned hP
  rw [h.same, setRecord_of_ne (by omega)]
  intro q hq
  rcases List.mem_cons.mp hq with hq | hq
  · omega
  · obtain ⟨h24, hslot⟩ := h.nodes q hq
    have := hslot.aligned hP
    omega

/-- A line that is none of the nodes' is not written. -/
theorem Writes.other (h : Writes m' M P T f r) (hP : ∀ p ∈ P, Placed p) {x a : ℕ} (hx : x % 64 = 0)
    (hf : x ≠ f) (hT : x+24 ∉ T.inorder) (h1 : x ≤ a) (h2 : a < x+64) : M a = m' a := by
  have hfa := h.node.aligned hP
  rw [h.same, setRecord_of_ne (by omega)]
  intro q hq
  rcases List.mem_cons.mp hq with hq | hq
  · omega
  · obtain ⟨h24, hslot⟩ := h.nodes q hq
    have := hslot.aligned hP
    have hne : q ≠ x+24 := fun heq => hT (heq ▸ hq)
    omega

/-- Everything written lies in a page of the list. -/
theorem Writes.inside (h : Writes m' M P T f r) {a : ℕ} (ha : M a ≠ m' a) :
    ∃ p ∈ P, p ≤ a ∧ a < p+4160 := by
  by_contra hout
  simp only [not_exists, not_and, not_lt] at hout
  apply ha
  have hline : ∀ x, IsSlot P x → a < x ∨ x+64 ≤ a := by
    intro x hx
    obtain ⟨p, hp, i, hi, hxi⟩ := hx
    by_contra hin
    have := hout p hp (by omega)
    omega
  have hfl := hline f h.node
  rw [h.same, setRecord_of_ne (by omega)]
  intro q hq
  rcases List.mem_cons.mp hq with hq | hq
  · omega
  · obtain ⟨h24, hslot⟩ := h.nodes q hq
    have := hline _ hslot
    omega

theorem load64_setRecord_extent (hr : r.Fits) (f : ℕ) :
    load64 (setRecord m' f r) (f+8) = some r.extent := by
  have hlo : setRecord m' f r (f+8) = some r.extent := by
    rw [setRecord, store64_of_ne (by omega) (by omega), store32_of_ne (by omega), store32,
      if_pos rfl, Nat.mod_eq_of_lt hr.2.1]
  have hhi : setRecord m' f r (f+8+4) = some 0 := by
    rw [setRecord, store64_of_ne (by omega) (by omega), store32, if_pos (by omega), Nat.zero_mod]
  rw [load64, hlo, hhi]
  simp

/-- The memory of the list before the record is filled in. -/
theorem Prepared.confined (h : Prepared m m' new k P F P' F')
    (hc : ∀ a, m a ≠ none → ∃ p ∈ P, p ≤ a ∧ a < p+4160) (a : ℕ) (ha : m' a ≠ none) :
    ∃ p ∈ P', p ≤ a ∧ a < p+4160 := by
  rcases h with ⟨rfl, -, hsame⟩ | ⟨-, -, rfl, -, -, -, hgrown⟩
  · by_cases hbook : ∀ p ∈ P', a < p ∨ p+64 ≤ a
    · exact hc a (hsame a hbook ▸ ha)
    · simp only [not_forall, not_or, not_lt, not_le] at hbook
      obtain ⟨p, hp, h1, h2⟩ := hbook
      exact ⟨p, hp, h1, by omega⟩
  · by_cases hnew : a < new+64 ∨ new+4160 ≤ a
    · by_cases hbook : ∀ p ∈ P, a < p ∨ p+64 ≤ a
      · obtain ⟨p, hp, h1⟩ := hc a (hgrown.same a hnew hbook ▸ ha)
        exact ⟨p, by simp [hp], h1⟩
      · simp only [not_forall, not_or, not_lt, not_le] at hbook
        obtain ⟨p, hp, h1, h2⟩ := hbook
        exact ⟨p, by simp [hp], h1, by omega⟩
    · exact ⟨new, by simp, by omega, by omega⟩

/-- A slot of the list after a growth is an old one, or one of the new page. -/
theorem Grown.link (h : Grown m m' P new) (i : ℕ) (hi : i < 63) :
    load64 m' (new+64*(i+1)+48) = some 0 ∨
      (load64 m' (new+64*(i+1)+48) = some (new+64*(i+1)+64) ∧
        IsSlot (new::P) (new+64*(i+1)+64)) := by
  by_cases hlast : i = 62
  · left
    rw [hlast]
    exact h.last
  · right
    refine ⟨?_, new, by simp, i+1, by omega, by omega⟩
    rw [h.next i (by omega)]
    congr 1

theorem Grown.zeros (h : Grown m m' P new) (hn : new % 4096 = 0) {a : ℕ} (h1 : new+64 ≤ a)
    (h2 : a+8 ≤ new+4160) (h3 : a % 64+8 ≤ 48 ∨ 56 ≤ a % 64) (h4 : a % 8 = 0) :
    load64 m' a = some 0 := by
  rw [load64, h.zero a h1 (by omega) (by omega), h.zero (a+4) (by omega) (by omega) (by omega)]
  rfl

section Accepted

/-- The tail of an old line is as before the request. -/
theorem Writes.tail_kept (hw : Writes m' M P T f r) (hP : ∀ p ∈ P, Placed p)
    (hprep : Prepared m m' new k P F P' F') {x a : ℕ} (hx : IsSlot P x) (h1 : x+48 ≤ a)
    (h2 : a+8 ≤ x+64) : load64 M a = load64 m a := by
  have hxa := hx.aligned hP
  apply load64_congr
  · rw [hw.tail hP hxa h1 (by omega), hprep.slot hP hx (by omega) (by omega)]
  · rw [hw.tail hP hxa (by omega) (by omega), hprep.slot hP hx (by omega) (by omega)]

/-- The tail of any line is as the list left it. -/
theorem Writes.tail_load (hw : Writes m' M P T f r) (hP : ∀ p ∈ P, Placed p) {x a : ℕ}
    (hx : x % 64 = 0) (h1 : x+48 ≤ a) (h2 : a+8 ≤ x+64) : load64 M a = load64 m' a :=
  load64_congr (hw.tail hP hx h1 (by omega)) (hw.tail hP hx (by omega) (by omega))

theorem Pristine.links_accepted (h : Pristine m P (f::F) T) (hP : ∀ p ∈ P, Placed p)
    (hw : Writes m' M P T f r) (hprep : Prepared m m' new k P F P' F') {x : ℕ}
    (hx : IsSlot P' x) : load64 M (x+48) = some 0 ∨
      (load64 M (x+48) = some (x+64) ∧ IsSlot P' (x+64)) := by
  have hold : IsSlot P x → load64 M (x+48) = some 0 ∨
      (load64 M (x+48) = some (x+64) ∧ IsSlot P' (x+64)) := by
    intro hx
    rw [hw.tail_kept hP hprep hx (by omega) (by omega)]
    rcases h.links x hx with h0 | ⟨h1, h2⟩
    · exact Or.inl h0
    · exact Or.inr ⟨h1, h2.mono hprep.pages⟩
  rcases hprep with ⟨rfl, -, -⟩ | ⟨-, -, rfl, -, -, hlaid, hgrown⟩
  · exact hold hx
  · rcases isSlot_cons.mp hx with hx | hx
    · exact hold hx
    · obtain ⟨i, hi, hxi⟩ := mem_pageSlots.mp hx
      have hna := hlaid.1
      rw [hw.tail_load hP (x := x) (by omega) (by omega) (by omega), hxi]
      exact hgrown.link i hi

theorem Pristine.pads_accepted (h : Pristine m P (f::F) T) (hP : ∀ p ∈ P, Placed p)
    (hw : Writes m' M P T f r) (hprep : Prepared m m' new k P F P' F') {x : ℕ}
    (hx : IsSlot P' x) : load64 M (x+56) = none ∨ load64 M (x+56) = some 0 := by
  have hold : IsSlot P x → load64 M (x+56) = none ∨ load64 M (x+56) = some 0 := by
    intro hx
    rw [hw.tail_kept hP hprep hx (by omega) (by omega)]
    exact h.pads x hx
  rcases hprep with ⟨rfl, -, -⟩ | ⟨-, -, rfl, -, -, hlaid, hgrown⟩
  · exact hold hx
  · rcases isSlot_cons.mp hx with hx | hx
    · exact hold hx
    · obtain ⟨i, hi, hxi⟩ := mem_pageSlots.mp hx
      have hna := hlaid.1
      right
      rw [hw.tail_load hP (x := x) (by omega) (by omega) (by omega),
        hgrown.zeros hna (by omega) (by omega) (by omega) (by omega)]

/-- The extent of a line that is not a node's is as the list left it. -/
theorem Writes.blank (hw : Writes m' M P T f r) (hP : ∀ p ∈ P, Placed p) {x : ℕ}
    (hx : x % 64 = 0) (hf : x ≠ f) (hT : x+24 ∉ T.inorder) :
    load64 M (x+8) = load64 m' (x+8) :=
  load64_congr (hw.other hP hx hf hT (by omega) (by omega))
    (hw.other hP hx hf hT (by omega) (by omega))

theorem Pristine.blanks_accepted (h : Pristine m P (f::F) T) (hP : ∀ p ∈ P, Placed p)
    (hnodup : (f::F).Nodup) (hplaced : ∀ q ∈ T.inorder, q-24 ∉ f::F)
    (hslots : ∀ g ∈ F, IsSlot P g) (hw : Writes m' M P T f r)
    (hprep : Prepared m m' new k P F P' F') {g : ℕ} (hg : g ∈ F') :
    load64 M (g+8) = none ∨ load64 M (g+8) = some 0 := by
  rcases hprep with ⟨rfl, rfl, hsame⟩ | ⟨hk, hF, rfl, rfl, hfresh, hlaid, hgrown⟩
  · have hgs := hslots g hg
    have hgf : g ≠ f := fun heq => (List.nodup_cons.mp hnodup).1 (heq ▸ hg)
    have hgT : g+24 ∉ T.inorder := by
      intro hmem
      have := hplaced _ hmem
      rw [Nat.add_sub_cancel] at this
      exact this (List.mem_cons_of_mem _ hg)
    have hprep : Prepared m m' new k P' F' P' F' := Or.inl ⟨rfl, rfl, hsame⟩
    rw [hw.blank hP (hgs.aligned hP) hgf hgT, load64_congr
      (hprep.slot hP hgs (by omega) (by omega)) (hprep.slot hP hgs (by omega) (by omega))]
    exact h.blanks g (List.mem_cons_of_mem _ hg)
  · obtain ⟨i, hi, hgi⟩ := mem_pageSlots.mp hg
    have hna := hlaid.1
    have hpage : ∀ x, IsSlot P x → x ≠ g := by
      intro x hx heq
      apply hfresh
      have := hx.page hP
      rwa [show x/4096*4096 = new by omega] at this
    have hgT : g+24 ∉ T.inorder := by
      intro hmem
      have := hpage _ (hw.nodes _ hmem).2
      omega
    right
    rw [hw.blank hP (by omega) (hpage f hw.node).symm hgT,
      hgrown.zeros hna (by omega) (by omega) (by omega) (by omega)]

/-- The record of the new node holds the extent that was asked for. -/
theorem Writes.extent (hw : Writes m' M P T f r) (hP : ∀ p ∈ P, Placed p) (hr : r.Fits) :
    load64 M (f+8) = some r.extent := by
  have hfa := hw.node.aligned hP
  have hcell : ∀ a, f ≤ a → a < f+24 → M a = setRecord m' f r a := by
    intro a h1 h2
    apply hw.same
    intro q hq
    rcases List.mem_cons.mp hq with hq | hq
    · omega
    · have hq24 := hw.nodes q hq
      have := hq24.2.aligned hP
      omega
  rw [load64_congr (hcell _ (by omega) (by omega)) (hcell _ (by omega) (by omega)),
    load64_setRecord_extent hr]

/-- A record of the tree is neither the new one nor among the tree words. -/
theorem Writes.record_kept (hw : Writes m' M P T f r) (hP : ∀ p ∈ P, Placed p)
    (hprep : Prepared m m' new k P F P' F') {q a : ℕ} (hq : q ∈ T.inorder) (hqf : q-24 ≠ f)
    (h1 : q-24 ≤ a) (h2 : a < q) : M a = m a := by
  have hfa := hw.node.aligned hP
  obtain ⟨h24, hslot⟩ := hw.nodes q hq
  have hqa := hslot.aligned hP
  rw [hw.same, setRecord_of_ne (by omega), hprep.slot hP hslot h1 (by omega)]
  intro q' hq'
  rcases List.mem_cons.mp hq' with hq' | hq'
  · omega
  · have hq24 := hw.nodes q' hq'
    have := hq24.2.aligned hP
    omega

theorem Pristine.shared_accepted {T' : NodeTree} (h : Pristine m P (f::F) T)
    (hprep : Prepared m m' new k P F P' F')
    (hT' : ∀ q, q ∈ T'.inorder ↔ q = f+24 ∨ q ∈ T.inorder) {x : ℕ} (hx : IsSlot P' x) :
    x ∈ F' ∨ x+24 ∈ T'.inorder := by
  have hold : IsSlot P x → x ∈ F ∨ x+24 ∈ T'.inorder := by
    intro hx
    rcases h.shared x hx with hmem | hmem
    · rcases List.mem_cons.mp hmem with hmem | hmem
      · exact Or.inr ((hT' _).mpr (Or.inl (by rw [hmem])))
      · exact Or.inl hmem
    · exact Or.inr ((hT' _).mpr (Or.inr hmem))
  rcases hprep with ⟨rfl, rfl, -⟩ | ⟨-, hF, rfl, rfl, -, -, -⟩
  · exact hold hx
  · rcases isSlot_cons.mp hx with hx | hx
    · rcases hold hx with hmem | hmem
      · rw [hF] at hmem
        simp at hmem
      · exact Or.inr hmem
    · exact Or.inl hx

/-- An accepted request leaves the lines of the list as the list writes them. -/
theorem Pristine.accepted {T' : NodeTree} (h : Pristine m P (f::F) T) (hP : ∀ p ∈ P, Placed p)
    (hnodup : (f::F).Nodup) (hplaced : ∀ q ∈ T.inorder, q-24 ∉ f::F)
    (hslots : ∀ g ∈ F, IsSlot P g)
    (hw : Writes m' M P T f r) (hr : r.Fits) (hprep : Prepared m m' new k P F P' F')
    (hT' : ∀ q, q ∈ T'.inorder ↔ q = f+24 ∨ q ∈ T.inorder) : Pristine M P' F' T' := by
  constructor
  · intro x hx
    exact h.links_accepted hP hw hprep hx
  · intro x hx
    exact h.pads_accepted hP hw hprep hx
  · intro g hg
    exact h.blanks_accepted hP hnodup hplaced hslots hw hprep hg
  · intro q hq
    rcases (hT' q).mp hq with rfl | hq
    · exact ⟨r.extent, hr.2.1, hw.extent hP hr⟩
    · obtain ⟨e, he, hload⟩ := h.extents q hq
      have h24 := (hw.nodes q hq).1
      have hkept : ∀ a, q-24 ≤ a → a < q → M a = m a := fun a h1 h2 =>
        hw.record_kept hP hprep hq (fun heq => hplaced q hq (by simp [heq])) h1 h2
      refine ⟨e, he, ?_⟩
      rw [load64_congr (hkept _ (by omega) (by omega)) (hkept _ (by omega) (by omega)), hload]
  · intro x hx
    exact h.shared_accepted hprep hT' hx
  · intro a ha
    by_cases hsame : M a = m' a
    · exact hprep.confined h.confined a (hsame ▸ ha)
    · obtain ⟨p, hp, h1⟩ := hw.inside hsame
      exact ⟨p, hprep.pages p hp, h1⟩

end Accepted

end Steps

section Runs

variable {avl : Avl} {off : ℕ} {pfaAllocPage : ℕ → ℕ} {Table fuel L : ℕ} {s : State} {r : Region}

/-- A managed state of at most `n` regions over the lines that the node list has written. -/
def Tidy (off : ℕ) (pfaAllocPage : ℕ → ℕ) (L : ℕ) (avl : Avl) (n : ℕ)
    (s : State) : Prop :=
  ∃ P F T reg, Managed off pfaAllocPage L avl s P F T reg ∧ T.inorder.length ≤ n ∧
    Pristine s.mem P F T

theorem tidy_create {tables : Paging.State} (hc : avl.Correct) (hs : Supply off pfaAllocPage L)
    (hL : tables.taken < L) :
    Tidy off pfaAllocPage L avl 0 (createNodeList off pfaAllocPage (fun _ => none) tables) := by
  refine ⟨_, _, .nil, fun _ => ⟨0, 0, 0⟩, managed_create hc hs hL, by simp [NodeTree.inorder], ?_⟩
  have hlaid := hs.laid _ hL
  generalize hhead : page off pfaAllocPage tables.taken = head at hlaid ⊢
  have hb := hlaid.2.2
  have hna := hlaid.1
  have hblank : ∀ a, head+64 ≤ a → a % 64 < 48 ∨ 56 ≤ a % 64 →
      (createNodeList off pfaAllocPage (fun _ => none) tables).mem a = none := by
    intro a h1 h2
    exact createNodeList_same hhead (by omega) (Or.inl h1) (Or.inr (Or.inr h2))
  constructor
  · rintro x ⟨p, hp, i, hi, rfl⟩
    rw [List.mem_singleton] at hp
    rw [hp]
    by_cases hlast : i = 62
    · left
      rw [hlast]
      exact createNodeList_last hhead
    · right
      refine ⟨createNodeList_next hhead (by omega) i (by omega), head, by simp, i+1, by omega, by omega⟩
  · rintro x ⟨p, hp, i, hi, rfl⟩
    rw [List.mem_singleton] at hp
    left
    rw [hp, load64, hblank _ (by omega) (by omega)]
  · intro f hf
    obtain ⟨i, hi, rfl⟩ := mem_pageSlots.mp hf
    left
    rw [load64, hblank _ (by omega) (by omega)]
  · simp [NodeTree.inorder]
  · rintro x ⟨p, hp, i, hi, rfl⟩
    rw [List.mem_singleton] at hp
    rw [hp]
    exact Or.inl (mem_pageSlots.mpr ⟨i, hi, rfl⟩)
  · intro a ha
    refine ⟨head, by simp, ?_⟩
    by_contra hout
    apply ha
    exact createNodeList_same hhead (by omega) (by omega) (by omega)

/-- An accepted request keeps a tidy state, and the tree has a node. -/
theorem tidy_alloc (Table : ℕ) {n : ℕ} (h : Tidy off pfaAllocPage L avl n s) (hc : avl.Correct)
    (hs : Supply off pfaAllocPage L) (hn : n < fuel) (hr : r.Fits)
    (hroom : Room off pfaAllocPage L s) (hacc : ¬ Refused off pfaAllocPage fuel s r) :
    ∃ s' P F T reg, vasAlloc off pfaAllocPage avl Table fuel s r = some (r.address, s') ∧
      T ≠ .nil ∧ Managed off pfaAllocPage L avl s' P F T reg ∧ T.inorder.length ≤ n+1 ∧
      Pristine s'.mem P F T := by
  obtain ⟨P, F, T, reg, hman, hlen, hpri⟩ := h
  have hfuel : T.inorder.length < fuel := by omega
  rw [refused_iff hman hc hs hr hroom hfuel] at hacc
  obtain ⟨pl, hfind⟩ : ∃ pl, T.find (compare r reg) .root = .inr pl := by
    cases hf : T.find (compare r reg) .root with
    | inl q => exact absurd ⟨q, hf⟩ hacc
    | inr pl => exact ⟨pl, rfl⟩
  obtain ⟨f, F₀, m', k, s', P', F', T', heq, rfl, hprep, hsame, hnew, hin, hman'⟩ :=
    managed_alloc Table hman hc hs hr hroom hfuel hfind
  have hlist := hman.sound.list
  have hmem : ∀ q, q ∈ T'.inorder ↔ q = f+24 ∨ q ∈ T.inorder := by
    intro q
    rw [hin, mem_insert T (f+24) hfind]
  have hwrites : Writes m' s'.mem P T f r := by
    refine ⟨hlist.slots f (by simp), ?_, hsame⟩
    intro q hq
    have := hman.sound.placed q hq
    exact ⟨this.1, this.2.1⟩
  refine ⟨s', P', F', T', _, heq, ?_, hman', ?_, ?_⟩
  · intro hnil
    have hself := (hmem (f+24)).mpr (Or.inl rfl)
    rw [hnil] at hself
    simp [NodeTree.inorder] at hself
  · rw [hin, (insert_perm T (f+24) hfind).length_eq, List.length_cons]
    omega
  · apply hpri.accepted hlist.laid hlist.nodup _ _ hwrites hr hprep hmem
    · intro q hq
      exact (hman.sound.placed q hq).2.2
    · intro g hg
      exact hlist.slots g (List.mem_cons_of_mem _ hg)

theorem tidy_step (Table : ℕ) {n : ℕ} (h : Tidy off pfaAllocPage L avl n s) (hc : avl.Correct)
    (hs : Supply off pfaAllocPage L) (hn : n < fuel) (op : Op)
    (hm : Admits off pfaAllocPage fuel L s op) :
    ∃ s', step off pfaAllocPage avl Table fuel s op = some s' ∧
      Tidy off pfaAllocPage L avl (n+1) s' := by
  cases op with
  | alloc r =>
    obtain ⟨s', P, F, T, reg, heq, -, hman, hlen, hpri⟩ :=
      tidy_alloc Table h hc hs hn hm.1 hm.2.1 hm.2.2
    exact ⟨s', by simp [step, heq], P, F, T, reg, hman, hlen, hpri⟩
  | free ptr =>
    have hlook : lookupByAddress fuel s ptr = some 0 := hm
    obtain ⟨P, F, T, reg, hman, hlen, hpri⟩ := h
    exact ⟨s, by simp [step, vasFree, hlook], P, F, T, reg, hman, by omega, hpri⟩

theorem tidy_run (ops : List Op) (n : ℕ) (s : State) (h : Tidy off pfaAllocPage L avl n s)
    (hc : avl.Correct) (hs : Supply off pfaAllocPage L) (hn : n+ops.length < fuel+1)
    (hm : AdmitsAll off pfaAllocPage avl Table fuel L ops s) :
    ∃ s', run off pfaAllocPage avl Table fuel ops s = some s' ∧
      Tidy off pfaAllocPage L avl (n+ops.length) s' := by
  refine run_invariant ?_ ops n s h hn hm
  intro n s op ops h hn hm
  obtain ⟨s', heq, htidy⟩ := tidy_step Table h hc hs hn op hm.1
  exact ⟨s', heq, htidy, hm.2 s' heq⟩

end Runs

/-- What a free of the region `r` that took the state from `s` to `s₁` should do. -/
structure Undone (off : ℕ) (avl : Avl) (Table fuel : ℕ) (s : State) (r : Region) (s₁ : State) :
    Prop where
  found : ∃ n T, lookupByAddress fuel s₁ r.address = some n ∧ Rep s₁.mem 0 s₁.root T ∧
    n+24 ∈ T.inorder ∧ region s₁.mem (n+24) = some r
  restored : ∃ s₂, vasFree off avl Table fuel s₁ r.address = some s₂ ∧
    (∀ T, Rep s.mem 0 s.root T → ∃ T', Rep s₂.mem 0 s₂.root T' ∧
      (T'.inorder.map (region s₂.mem)).Perm (T.inorder.map (region s.mem))) ∧
    load32 s₂.mem (s₂.alloc+36) = load32 s.mem (s.alloc+36) ∧
    ∀ va, Paging.walk off s₂.tables.mem Table va = Paging.walk off s.tables.mem Table va
  foreign : ∀ ptr, (∀ T, Rep s.mem 0 s.root T → ∀ q ∈ T.inorder, ∀ r', region s.mem q = some r' →
    r'.address ≠ ptr) → vasFree off avl Table fuel s ptr = some s

section Examples

theorem vasAlloc_eq {s : State} {r : Region} {p : ℕ}
    (h : (vasAlloc higherHalf risingPages plain 0x10000 4 s r).map Prod.fst = some p) :
    vasAlloc higherHalf risingPages plain 0x10000 4 s r =
      some (p, ((vasAlloc higherHalf risingPages plain 0x10000 4 s r).getD (0, s)).2) := by
  cases hv : vasAlloc higherHalf risingPages plain 0x10000 4 s r with
  | none =>
    rw [hv] at h
    exact absurd h (by simp)
  | some v =>
    rw [hv, Option.map_some, Option.some.injEq] at h
    rw [← h]
    rfl

/-- The state after the only region of a zeroed list has been allocated. -/
def allocated : State :=
  ((vasAlloc higherHalf risingPages plain 0x10000 4 emptyVas onePageRegion).getD (0, emptyVas)).2

/-- A list in memory of which nothing is known. -/
def blankVas : State := createNodeList higherHalf risingPages (fun _ => none) noTables

end Examples

end BruhOS.Vas
