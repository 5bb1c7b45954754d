import BruhOS.NodeRuns

/-!
# Giving the pages back

`destroy_node_list` walks the links of the pages and frees each page in the
body of its loop, before the increment reads the link of that page. And nobody
writes the link of a page that `alloc_node` has appended before another page
follows it: the walk goes on to whatever the page held before.
-/

set_option autoImplicit false

namespace BruhOS.Vas

open BruhOS.PointerTree

/-- What happens to a page, named by its physical address. -/
inductive PageEvent where
  | read (p : ℕ)
  | free (p : ℕ)
  deriving DecidableEq, Repr

def PageEvent.freed : PageEvent → Option ℕ
  | .read _ => none
  | .free p => some p

section Code

variable (off : ℕ)

/-- The loop of `destroy_node_list`; `fuel` bounds its turns. -/
def destroyPages (m : Cells) : ℕ → ℕ → Option (List PageEvent)
  | 0, _ => none
  | fuel+1, pageAtIdx =>
    if pageAtIdx = 0 then some []
    else do
      let nextPage ← load64 m pageAtIdx
      let events ← destroyPages m fuel nextPage
      some (.free (Paging.phys off pageAtIdx)::.read (Paging.phys off pageAtIdx)::events)

def destroyNodeList (fuel : ℕ) (s : State) : Option (List PageEvent) := do
  let nextPage ← load64 s.mem s.alloc
  let events ← destroyPages off s.mem fuel nextPage
  some (.read (Paging.phys off s.alloc)::events++[.free (Paging.phys off s.alloc)])

variable (pfaAllocPage : ℕ → ℕ)

/-- The list is torn down: each physical page is freed once, and none is read after that. -/
def ReturnsPages (first : ℕ) (s : State) : Prop := ∃ fuel events,
  destroyNodeList off fuel s = some events ∧
  (events.filterMap PageEvent.freed).Perm
    ((List.range' first (s.tables.taken-first)).map pfaAllocPage) ∧
  events.Pairwise (fun e e' => ∀ p, e = .free p → e' ≠ .read p)

end Code

section Destroy

variable {off : ℕ} {pfaAllocPage : ℕ → ℕ} {first n : ℕ} {s : State} {F : List ℕ} {m : Cells}

/-- Every turn of the loop reads the page it has just freed. -/
theorem destroyPages_reads {fuel pageAtIdx : ℕ} {events : List PageEvent} (hne : pageAtIdx ≠ 0)
    (h : destroyPages off m fuel pageAtIdx = some events) :
    ¬ events.Pairwise (fun e e' => ∀ p, e = .free p → e' ≠ .read p) := by
  cases fuel with
  | zero => exact absurd h (by simp [destroyPages])
  | succ fuel =>
    simp only [destroyPages, if_neg hne, Option.bind_eq_bind, Option.bind_eq_some_iff,
      Option.some.injEq] at h
    obtain ⟨nextPage, -, rest, -, rfl⟩ := h
    intro hpair
    exact (List.pairwise_cons.mp hpair).1 _ (List.mem_cons_self ..) _ rfl rfl

/-- A page that links to itself keeps the loop going. -/
theorem destroyPages_loops {p : ℕ} (hp : p ≠ 0) (hself : load64 m p = some p) (fuel : ℕ) :
    destroyPages off m fuel p = none := by
  induction fuel with
  | zero => rfl
  | succ fuel ih => simp [destroyPages, hp, hself, ih]

/-- The second page of a list comes with the link it had before the call. -/
theorem stale_link {f : ℕ} (h : Listed off pfaAllocPage first 1 s [f])
    (hs : Supplied off pfaAllocPage first s) :
    ∃ s', nodeStep off pfaAllocPage s .alloc = some s' ∧ s'.alloc = s.alloc ∧
      load64 s'.mem s.alloc = some (page off pfaAllocPage s.tables.taken) ∧
      load64 s'.mem (page off pfaAllocPage s.tables.taken) =
        load64 s.mem (page off pfaAllocPage s.tables.taken) := by
  have ht := h.takes hs
  obtain ⟨m', heq, -, hl⟩ := listed_full h ht
  have hl := hl s.alloc (Or.inl ⟨h.alone rfl, rfl⟩)
  have hne : s.alloc ≠ page off pfaAllocPage s.tables.taken :=
    fun heq => ht.fresh (heq ▸ h.list.head_mem)
  have hhead := (h.list.laid _ h.list.head_mem).1
  have hna := ht.laid.1
  refine ⟨s.handOut m' f 1, ?_, rfl, hl.link ht.apart, ?_⟩
  · rw [nodeStep, heq]
    rfl
  · apply load64_congr
    · exact hl.same _ (by omega) (by omega) (by omega) (by omega)
    · exact hl.same _ (by omega) (by omega) (by omega) (by omega)

/-- The list comes down properly exactly if it never took a second page. -/
theorem Listed.returns_iff (h : Listed off pfaAllocPage first n s F)
    (hphys : pfaAllocPage first < 2^64) : ReturnsPages off pfaAllocPage first s ↔ n = 1 := by
  constructor
  · rintro ⟨fuel, events, hdestroy, -, hpair⟩
    by_contra hn
    have hpos := h.page_pos
    obtain ⟨next, hnext, hne⟩ := h.grown (by omega)
    simp only [destroyNodeList, hnext, Option.bind_eq_bind, Option.bind_some,
      Option.bind_eq_some_iff, Option.some.injEq] at hdestroy
    obtain ⟨walk, hwalk, rfl⟩ := hdestroy
    apply destroyPages_reads hne hwalk
    exact (List.pairwise_append.mp (List.pairwise_cons.mp hpair).2).1
  · intro hn
    have hphys' : Paging.phys off s.alloc = pfaAllocPage first := by
      rw [h.head]
      exact Paging.phys_virt off _ hphys
    have htaken : s.tables.taken-first = 1 := by
      have := h.taken
      omega
    refine ⟨1, [.read (pfaAllocPage first), .free (pfaAllocPage first)], ?_, ?_, ?_⟩
    · rw [destroyNodeList, h.alone hn, hphys']
      rfl
    · rw [htaken]
      exact List.Perm.refl _
    · simp

/-- The first words of the second page are its own address before it is taken. -/
def selfLinked : Cells :=
  store64 (fun _ => some 0) (page higherHalf risingPages 1) (page higherHalf risingPages 1)

end Destroy

end BruhOS.Vas
