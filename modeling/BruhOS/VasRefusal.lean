import BruhOS.VasRegions

/-!
# A refused request

When a request meets a record that compares equal, `vas_alloc` gives back what
`insert_node` returned: the tree words of the node it met, 24 bytes into a node
of the tree. The node it had taken for the request stays handed out. The next
node handed out is then the tree words of a node that is still in the tree.
-/

set_option autoImplicit false

namespace BruhOS.Vas

open BruhOS.PointerTree

/-- The pointers on the free list. -/
inductive OnFreeList (s : State) : ℕ → Prop
  | first {f : ℕ} : load64 s.mem (s.alloc+24) = some f → f ≠ 0 → OnFreeList s f
  | next {f g : ℕ} : OnFreeList s f → load64 s.mem (f+48) = some g → g ≠ 0 → OnFreeList s g

/-- Everything that a refused request should leave as it was. -/
structure Unchanged (s s' : State) : Prop where
  tree : ∀ T, Rep s.mem 0 s.root T → Rep s'.mem 0 s'.root T
  records : ∀ T, Rep s.mem 0 s.root T → ∀ q ∈ T.inorder, region s'.mem q = region s.mem q
  live : ∀ x, x ∈ s'.live ↔ x ∈ s.live
  used : load32 s'.mem (s'.alloc+36) = load32 s.mem (s.alloc+36)
  tables : s'.tables.mem = s.tables.mem
  unlisted : ∀ T, Rep s'.mem 0 s'.root T → ∀ q ∈ T.inorder, ∀ f, OnFreeList s' f →
    f < q-24 ∨ q+24 ≤ f

section Runs

variable (off : ℕ) (pfaAllocPage : ℕ → ℕ) (avl : Avl) (Table fuel L : ℕ)

/-- `insert_node` reports a conflict. -/
def Refused (s : State) (r : Region) : Prop := ∃ newnode s' tmp,
  prepare off pfaAllocPage s r = some (newnode, s') ∧ insertWalk fuel s' newnode = some (.inl tmp)

/-- A step that is not refused, and a free whose lookup finds nothing. -/
def Admits (s : State) : Op → Prop
  | .alloc r => r.Fits ∧ Room off pfaAllocPage L s ∧ ¬ Refused off pfaAllocPage fuel s r
  | .free ptr => lookupByAddress fuel s ptr = some 0

def AdmitsAll : List Op → State → Prop
  | [], _ => True
  | op::ops, s => Admits off pfaAllocPage fuel L s op ∧
      ∀ s', step off pfaAllocPage avl Table fuel s op = some s' → AdmitsAll ops s'

variable {off pfaAllocPage avl Table fuel L} {s : State} {P F : List ℕ} {T : NodeTree}
  {reg : ℕ → Region} {r : Region}

/-- A request is refused exactly when the search of the tree meets a record that compares equal. -/
theorem refused_iff (h : Managed off pfaAllocPage L avl s P F T reg) (hc : avl.Correct)
    (hs : Supply off pfaAllocPage L) (hr : r.Fits) (hroom : Room off pfaAllocPage L s)
    (hfuel : T.inorder.length < fuel) :
    Refused off pfaAllocPage fuel s r ↔ ∃ q, T.find (compare r reg) .root = .inl q := by
  obtain ⟨f, F, rfl⟩ := List.exists_cons_of_ne_nil h.sound.list.nonempty
  have hfb := (h.sound.list.slots f (by simp)).bounds h.sound.list.laid
  obtain ⟨m', k, P', F', heq, -, -, hsound, hreg⟩ :=
    prepare_spec h.sound hc hr (takes_of_room h hs hroom)
  have hwalk : insertWalk fuel (s.handOut (setRecord m' f r) f k) f =
      some (T.find (compare r reg) .root) := insertWalk_eq hsound (by omega) hreg hfuel
  constructor
  · rintro ⟨newnode, s', tmp, hprep, hins⟩
    rw [heq, Option.some.injEq, Prod.mk.injEq] at hprep
    rw [← hprep.1, ← hprep.2, hwalk, Option.some.injEq] at hins
    exact ⟨tmp, hins⟩
  · rintro ⟨q, hq⟩
    exact ⟨f, _, q, heq, by rw [hwalk, hq]⟩

/-- A managed state of at most `n` regions. -/
def Kept (off : ℕ) (pfaAllocPage : ℕ → ℕ) (L : ℕ) (avl : Avl) (n : ℕ)
    (s : State) : Prop :=
  ∃ P F T reg, Managed off pfaAllocPage L avl s P F T reg ∧ T.inorder.length ≤ n

theorem kept_step (Table : ℕ) {n : ℕ} (h : Kept off pfaAllocPage L avl n s) (hc : avl.Correct)
    (hs : Supply off pfaAllocPage L) (hn : n < fuel) (op : Op)
    (hm : Admits off pfaAllocPage fuel L s op) :
    ∃ s', step off pfaAllocPage avl Table fuel s op = some s' ∧
      Kept off pfaAllocPage L avl (n+1) s' := by
  obtain ⟨P, F, T, reg, hman, hlen⟩ := h
  cases op with
  | alloc r =>
    obtain ⟨hr, hroom, hrefused⟩ := hm
    have hfuel : T.inorder.length < fuel := by omega
    rw [refused_iff hman hc hs hr hroom hfuel] at hrefused
    obtain ⟨pl, hfind⟩ : ∃ pl, T.find (compare r reg) .root = .inr pl := by
      cases hf : T.find (compare r reg) .root with
      | inl q => exact absurd ⟨q, hf⟩ hrefused
      | inr pl => exact ⟨pl, rfl⟩
    obtain ⟨f, -, -, -, s', P', F', T', heq, -, -, -, -, hin, hman'⟩ :=
      managed_alloc Table hman hc hs hr hroom hfuel hfind
    refine ⟨s', by simp [step, heq], P', F', T', _, hman', ?_⟩
    rw [hin, (insert_perm T (f+24) hfind).length_eq, List.length_cons]
    omega
  | free ptr =>
    have hlook : lookupByAddress fuel s ptr = some 0 := hm
    exact ⟨s, by simp [step, vasFree, hlook], P, F, T, reg, hman, by omega⟩

theorem kept_run (ops : List Op) (n : ℕ) (s : State) (h : Kept off pfaAllocPage L avl n s)
    (hc : avl.Correct) (hs : Supply off pfaAllocPage L) (hn : n+ops.length < fuel+1)
    (hm : AdmitsAll off pfaAllocPage avl Table fuel L ops s) :
    ∃ s', run off pfaAllocPage avl Table fuel ops s = some s' ∧
      Kept off pfaAllocPage L avl (n+ops.length) s' := by
  refine run_invariant ?_ ops n s h hn hm
  intro n s op ops h hn hm
  obtain ⟨s', heq, hkept⟩ := kept_step Table h hc hs hn op hm.1
  exact ⟨s', heq, hkept, hm.2 s' heq⟩

theorem kept_create {m : Cells} {tables : Paging.State} (hc : avl.Correct)
    (hs : Supply off pfaAllocPage L) (hL : tables.taken < L) :
    Kept off pfaAllocPage L avl 0 (createNodeList off pfaAllocPage m tables) :=
  ⟨_, _, .nil, fun _ => ⟨0, 0, 0⟩, managed_create hc hs hL, by simp [NodeTree.inorder]⟩

/-- A refusal keeps the node it took and puts the tree words it met on the free list. -/
theorem refusal_leaks (Table : ℕ) (h : Managed off pfaAllocPage L avl s P F T reg) (hc : avl.Correct)
    (hs : Supply off pfaAllocPage L) (hr : r.Fits) (hroom : Room off pfaAllocPage L s)
    (hfuel : T.inorder.length < fuel) {q : ℕ} (hfind : T.find (compare r reg) .root = .inl q) :
    ∃ s' newnode, vasAlloc off pfaAllocPage avl Table fuel s r = some (0, s') ∧
      newnode ∈ s'.live ∧ newnode ∉ s.live ∧ load64 s'.mem (s'.alloc+24) = some q := by
  obtain ⟨f, F, rfl⟩ := List.exists_cons_of_ne_nil h.sound.list.nonempty
  have hq := (find_mem T .root hfind).1
  have hqb := h.sound.bounds hq
  have hfa := (h.sound.list.slots f (by simp)).aligned h.sound.list.laid
  obtain ⟨m', k, P', F', hsound, ⟨u, hu⟩, heq⟩ :=
    vasAlloc_refused Table h.sound hc hr (takes_of_room h hs hroom) hfuel hfind
  have hfree := hsound.list.free
  have hhead : s.alloc % 4096 = 0 := (hsound.list.laid _ hsound.list.head_mem).1
  -- the link is written behind the tree words, into the next line
  have hused : load32 (store64 (store64 (setRecord m' f r) (q+48) (F'.headD 0)) (s.alloc+24) q)
      (s.alloc+36) = some (u+1) := by
    rw [load32, store64_of_ne (by omega) (by omega), store64_of_ne (by omega) (by omega)]
    exact hu
  have hfreed : freeNode (s.handOut (setRecord m' f r) f k) q =
      some { s.handOut (setRecord m' f r) f k with
        mem := store32 (store64 (store64 (setRecord m' f r) (q+48) (F'.headD 0)) (s.alloc+24) q)
          (s.alloc+36) (u+1+(2^32-1))
        live := (f::s.live).erase q } := by
    have hu' : load32 (s.handOut (setRecord m' f r) f k).mem
        ((s.handOut (setRecord m' f r) f k).alloc+36) = some (u+1) := hu
    simp only [freeNode, hu', hfree, Option.bind_eq_bind, Option.bind_some, Nat.add_one_ne_zero,
      if_false]
    simp only [State.handOut, hused, Option.bind_some]
  refine ⟨_, f, by rw [heq, hfreed]; rfl, ?_, ?_, ?_⟩
  · have hne : f ≠ q := by omega
    simp [List.mem_erase_of_ne hne]
  · intro hmem
    exact h.sound.new_node (h.live f hmem)
  · show load64 (store32 (store64 (store64 (setRecord m' f r) (q+48) (F'.headD 0)) (s.alloc+24) q)
      (s.alloc+36) (u+1+(2^32-1))) (s.alloc+24) = some q
    rw [load64_congr (store32_of_ne (by omega)) (store32_of_ne (by omega)), load64_store64 (by omega)]

end Runs

def onePageRegion : Region := ⟨0x400000, 1, 3⟩

/-- The state with one region, and what a second request for it leaves. -/
def occupied : State := (runEmpty [.alloc onePageRegion]).getD emptyVas

def afterRefusal : State :=
  ((vasAlloc higherHalf risingPages plain 0x10000 4 occupied onePageRegion).getD (0, emptyVas)).2

theorem occupied_refuses : Refused higherHalf risingPages 4 occupied onePageRegion := by
  have hprep : (prepare higherHalf risingPages occupied onePageRegion).isSome = true := by
    decide +kernel
  have hwalk : (prepare higherHalf risingPages occupied onePageRegion).bind
      (fun p => insertWalk 4 p.2 p.1) = some (.inl (slot0+24)) := by decide +kernel
  obtain ⟨⟨newnode, s'⟩, heq⟩ := Option.isSome_iff_exists.mp hprep
  rw [heq] at hwalk
  exact ⟨newnode, s', slot0+24, heq, hwalk⟩

end BruhOS.Vas
