import BruhOS.PagingMaps

/-!
# Effective access rights

The processor combines the rights of all four levels: writable and user must
be granted by every entry, no-execute is set by any, and bit 7 of an upper
entry makes it a large page. `map_vtop` gives a new table the flags of the
page it is created for, so a later page of the same table has its requested
rights only if the entries above it grant them.
-/

set_option autoImplicit false

namespace BruhOS.Paging

open BruhOS.TableTree

inductive Translation
  | fault
  | largePage
  | page (frame : ℕ) (w u nx : Bool)
  deriving DecidableEq

/-- The levels of the processor's walk that are left, with the rights granted so far. -/
def hwLevels (off : ℕ) (m : Tables) : List Index → Index → ℕ → Bool → Bool → Bool → Translation
  | [], i, t, w, u, nx =>
    if present (m t i) then
      .page (address (m t i)) (w && writeable (m t i)) (u && userAccess (m t i))
        (nx || noExec (m t i))
    else .fault
  | j::js, i, t, w, u, nx =>
    if present (m t j) then
      -- the page size bit is reserved in the PML4
      if pageSize (m t j) then (if js.length = 2 then .fault else .largePage)
      else hwLevels off m js i (target off (m t j)) (w && writeable (m t j))
        (u && userAccess (m t j)) (nx || noExec (m t j))
    else .fault

/-- The walk of the processor. -/
def hwWalk (off : ℕ) (m : Tables) (Table va : ℕ) : Translation :=
  hwLevels off m (upper va) (index va 0) (virt off Table) true true false

/-- The arguments of a call of `map_vtop`. -/
structure Call where
  va : ℕ
  pa : ℕ
  flags : ℕ

def runCalls (off : ℕ) (pfaAllocPage : ℕ → ℕ) (Table : ℕ) : List Call → State → State
  | [], s => s
  | c::cs, s => runCalls off pfaAllocPage Table cs (mapVtop off pfaAllocPage Table c.va c.pa c.flags s)

/-- The last call for the page of an address. -/
def lastCall (cs : List Call) (va : ℕ) : Option Call :=
  (cs.filter (fun c => SamePage va c.va)).getLast?

/-- The translation that a call requests. -/
def requested (c : Call) : Translation :=
  .page (c.pa/4096) (writeable c.flags) (userAccess c.flags) (noExec c.flags)

/-- An upper entry takes nothing away from the rights of a page with the given flags. -/
def Grants (e flags : ℕ) : Prop :=
  (writeable flags = true → writeable e = true) ∧ (userAccess flags = true → userAccess e = true) ∧
    (noExec e = true → noExec flags = true)

instance (e flags : ℕ) : Decidable (Grants e flags) := inferInstanceAs (Decidable (_ ∧ _ ∧ _))

/-- The present entries along a path, up to the first that is absent. -/
def pathEntries (off : ℕ) (m : Tables) : ℕ → List Index → List ℕ
  | _, [] => []
  | t, i::p =>
    if present (m t i) then m t i :: pathEntries off m (target off (m t i)) p else []

/-- The upper entries present for the address grant the rights requested, and the attribute
table bit is not requested where an upper table is still missing. -/
structure Meets (off Table : ℕ) (m : Tables) (c : Call) : Prop where
  grants : ∀ e ∈ pathEntries off m (virt off Table) (upper c.va), Grants e c.flags
  small : descend (child off) m (virt off Table) (upper c.va) = none → pageSize c.flags = false

def MeetsAll (off : ℕ) (pfaAllocPage : ℕ → ℕ) (Table : ℕ) : List Call → State → Prop
  | [], _ => True
  | c::cs, s => Meets off Table s.mem c ∧
      MeetsAll off pfaAllocPage Table cs (mapVtop off pfaAllocPage Table c.va c.pa c.flags s)

variable {off : ℕ} {pfaAllocPage : ℕ → ℕ} {Table : ℕ}

section Path

variable {m : Tables} {t x : ℕ} {p : List Index}

theorem child_of_present {e : ℕ} (h : present e = true) : child off e = some (target off e) := by
  rw [child, if_pos h]

theorem present_of_child {e y : ℕ} (h : child off e = some y) : present e = true := by
  unfold child at h
  split at h
  · assumption
  · cases h

theorem mem_pathEntries (e : ℕ) : e ∈ pathEntries off m t p ↔
    ∃ r j q x, p = r++j::q ∧ descend (child off) m t r = some x ∧ present (m x j) = true ∧
      e = m x j := by
  induction p generalizing t with
  | nil => simp [pathEntries]
  | cons i p ih =>
    rw [pathEntries]
    constructor
    · intro h
      split at h
      · rename_i hp
        rcases List.mem_cons.mp h with rfl | h
        · exact ⟨[], i, p, t, rfl, rfl, hp, rfl⟩
        · obtain ⟨r, j, q, x, rfl, hr, hx, he⟩ := ih.mp h
          refine ⟨i::r, j, q, x, rfl, ?_, hx, he⟩
          rw [descend, child_of_present hp]
          exact hr
      · cases h
    · rintro ⟨r, j, q, x, hp, hr, hx, rfl⟩
      cases r with
      | nil =>
        obtain ⟨rfl, rfl⟩ := List.cons.inj hp
        obtain rfl := Option.some.inj hr
        rw [if_pos hx]
        exact List.mem_cons_self
      | cons k r =>
        obtain ⟨rfl, rfl⟩ := List.cons.inj hp
        rw [descend] at hr
        cases hc : child off (m t i) with
        | none =>
          rw [hc] at hr
          cases hr
        | some u =>
          rw [hc] at hr
          have hpres := present_of_child hc
          rw [child_of_present hpres] at hc
          obtain rfl := Option.some.inj hc
          rw [if_pos hpres]
          exact List.mem_cons_of_mem _ (ih.mpr ⟨r, j, q, x, rfl, hr, hx, rfl⟩)

theorem hwLevels_page {f : ℕ} {i : Index} {w u nx : Bool}
    (hd : descend (child off) m t p = some x) (hx : present (m x i) = true)
    (hsmall : ∀ e ∈ pathEntries off m t p, pageSize e = false)
    (hgrants : ∀ e ∈ pathEntries off m t p, Grants e f)
    (hw : writeable (m x i) = writeable f) (hu : userAccess (m x i) = userAccess f)
    (hnx : noExec (m x i) = noExec f) (hw' : writeable f = true → w = true)
    (hu' : userAccess f = true → u = true) (hnx' : nx = true → noExec f = true) :
    hwLevels off m p i t w u nx =
      .page (address (m x i)) (writeable f) (userAccess f) (noExec f) := by
  induction p generalizing t w u nx with
  | nil =>
    obtain rfl := Option.some.inj hd
    rw [hwLevels, if_pos hx, hw, hu, hnx]
    congr 1
    · cases hf : writeable f <;> simp_all
    · cases hf : userAccess f <;> simp_all
    · cases hf : nx <;> simp_all
  | cons j p ih =>
    rw [descend] at hd
    cases hc : child off (m t j) with
    | none =>
      rw [hc] at hd
      cases hd
    | some y =>
      rw [hc] at hd
      have hpres := present_of_child hc
      rw [child_of_present hpres] at hc
      obtain rfl := Option.some.inj hc
      rw [pathEntries, if_pos hpres] at hsmall hgrants
      have hs := hsmall (m t j) List.mem_cons_self
      have hg := hgrants (m t j) List.mem_cons_self
      rw [hwLevels, if_pos hpres, if_neg (by rw [hs]; decide)]
      apply ih hd (fun e he => hsmall e (List.mem_cons_of_mem _ he))
        (fun e he => hgrants e (List.mem_cons_of_mem _ he))
      · intro hf
        rw [hw' hf, hg.1 hf]
        rfl
      · intro hf
        rw [hu' hf, hg.2.1 hf]
        rfl
      · intro hor
        rcases (Bool.or_eq_true _ _).mp hor with h | h
        · exact hnx' h
        · exact hg.2.2 h

theorem hwLevels_fault {i : Index} {w u nx : Bool}
    (hd : ∀ x, descend (child off) m t p = some x → present (m x i) = false)
    (hsmall : ∀ e ∈ pathEntries off m t p, pageSize e = false) :
    hwLevels off m p i t w u nx = .fault := by
  induction p generalizing t w u nx with
  | nil => rw [hwLevels, if_neg (by rw [hd t rfl]; decide)]
  | cons j p ih =>
    rw [hwLevels]
    by_cases hpres : present (m t j) = true
    · rw [pathEntries, if_pos hpres] at hsmall
      have hs := hsmall (m t j) List.mem_cons_self
      rw [if_pos hpres, if_neg (by rw [hs]; decide)]
      apply ih
      · intro x hx
        apply hd x
        rw [descend, child_of_present hpres]
        exact hx
      · exact fun e he => hsmall e (List.mem_cons_of_mem _ he)
    · rw [if_neg hpres]

end Path

section Step

variable {s : State} {va pa flags : ℕ} {r : List Index} {x y : ℕ} {j : Index}

/-- An upper entry is as it was, or was made for a new table of this call. -/
theorem mapVtop_upper (hT : TableTree off Table s.mem) (hf : present flags = true)
    (hp : FreshPages off pfaAllocPage Table s.mem s.taken
      (mapVtop off pfaAllocPage Table va pa flags s).taken) (hr : r.length < 3)
    (hx : descend (child off) (mapVtop off pfaAllocPage Table va pa flags s).mem
      (virt off Table) r = some x)
    (hy : child off ((mapVtop off pfaAllocPage Table va pa flags s).mem x j) = some y) :
    (descend (child off) s.mem (virt off Table) r = some x ∧
      (mapVtop off pfaAllocPage Table va pa flags s).mem x j = s.mem x j) ∨
    (r++[j] <+: upper va ∧ (mapVtop off pfaAllocPage Table va pa flags s).mem x j =
      tableEntry off (sanitizeFlags flags) y) :=
  (mapVtop_assigns hT hf hp).upper hr hx hy

/-- An upper entry that is present stays. -/
theorem mapVtop_entry (hT : TableTree off Table s.mem) (hf : present flags = true)
    (hp : FreshPages off pfaAllocPage Table s.mem s.taken
      (mapVtop off pfaAllocPage Table va pa flags s).taken) (hr : r.length < 3)
    (hx : descend (child off) s.mem (virt off Table) r = some x)
    (hy : child off (s.mem x j) = some y) :
    descend (child off) (mapVtop off pfaAllocPage Table va pa flags s).mem (virt off Table) r =
      some x ∧ (mapVtop off pfaAllocPage Table va pa flags s).mem x j = s.mem x j :=
  (mapVtop_assigns hT hf hp).entry hr hx hy

end Step

section Rights

variable {flags a : ℕ}

theorem writeable_leafEntry (flags a : ℕ) : writeable (leafEntry flags a) = writeable flags := by
  rw [writeable, leafEntry, testBit_setAddress _ _ 1 (by omega), testBit_sanitizeFlags _ 1 (by decide)]
  rfl

theorem userAccess_leafEntry (flags a : ℕ) :
    userAccess (leafEntry flags a) = userAccess flags := by
  rw [userAccess, leafEntry, testBit_setAddress _ _ 2 (by omega),
    testBit_sanitizeFlags _ 2 (by decide)]
  rfl

theorem noExec_leafEntry (flags a : ℕ) : noExec (leafEntry flags a) = noExec flags := by
  rw [noExec, leafEntry, testBit_setAddress _ _ 63 (by omega),
    testBit_sanitizeFlags _ 63 (by decide)]
  rfl

theorem pageSize_leafEntry (flags a : ℕ) : pageSize (leafEntry flags a) = pageSize flags := by
  rw [pageSize, leafEntry, testBit_setAddress _ _ 7 (by omega), testBit_sanitizeFlags _ 7 (by decide)]
  rfl

theorem tableEntry_eq (table : ℕ) :
    tableEntry off (sanitizeFlags flags) table = leafEntry flags (phys off table) := rfl

theorem grants_tableEntry (table : ℕ) :
    Grants (tableEntry off (sanitizeFlags flags) table) flags := by
  rw [tableEntry_eq, Grants, writeable_leafEntry, userAccess_leafEntry, noExec_leafEntry]
  exact ⟨id, id, id⟩

end Rights

/-- What holds after the calls `cs` when each of them met the condition. -/
structure Faithful (off Table : ℕ) (m : Tables) (cs : List Call) : Prop where
  tree : TableTree off Table m
  small : ∀ (r : List Index) x j, r.length < 3 → descend (child off) m (virt off Table) r = some x →
    present (m x j) = true → pageSize (m x j) = false
  unmapped : ∀ va, lastCall cs va = none → walk off m Table va = none
  mapped : ∀ va c, lastCall cs va = some c → walk off m Table va = some (leafEntry c.flags c.pa) ∧
    ∀ e ∈ pathEntries off m (virt off Table) (upper va), Grants e c.flags

section Run

variable {m : Tables} {cs : List Call} {c : Call} {s : State} {va : ℕ}

theorem lastCall_snoc (cs : List Call) (c : Call) (va : ℕ) :
    lastCall (cs++[c]) va = if SamePage va c.va then some c else lastCall cs va := by
  unfold lastCall
  rw [List.filter_append]
  by_cases h : SamePage va c.va
  · rw [if_pos h, List.filter_cons_of_pos (by simpa using h), List.filter_nil,
      List.getLast?_append]
    rfl
  · rw [if_neg h, List.filter_cons_of_neg (by simpa using h), List.filter_nil, List.append_nil]

theorem lastCall_mem (h : lastCall cs va = some c) : c ∈ cs :=
  List.mem_of_mem_filter (List.mem_of_getLast? h)

theorem walk_eq_some {e : ℕ} (h : walk off m Table va = some e) :
    ∃ x, descend (child off) m (virt off Table) (upper va) = some x ∧ m x (index va 0) = e ∧
      present e = true := by
  unfold walk leaf at h
  cases hd : descend (child off) m (virt off Table) (upper va) with
  | none =>
    rw [hd] at h
    cases h
  | some x =>
    rw [hd, Option.map_some, Option.filter_some] at h
    split at h
    · rename_i hp
      obtain rfl := Option.some.inj h
      exact ⟨x, rfl, rfl, hp⟩
    · cases h

theorem small_path (h : Faithful off Table m cs) :
    ∀ e ∈ pathEntries off m (virt off Table) (upper va), pageSize e = false := by
  intro e he
  obtain ⟨r, j, q, x, hsplit, hr, hx, rfl⟩ := (mem_pathEntries e).mp he
  refine h.small r x j ?_ hr hx
  have := congrArg List.length hsplit
  simp [upper] at this
  omega

/-- The processor's walk gives what the last call requested. -/
theorem Faithful.hwWalk_eq (h : Faithful off Table m cs) (hpa : ∀ c ∈ cs, c.pa < 2^52) (va : ℕ) :
    hwWalk off m Table va = ((lastCall cs va).map requested).getD .fault := by
  cases hlast : lastCall cs va with
  | none =>
    refine hwLevels_fault (fun x hx => ?_) (small_path h)
    have hw := h.unmapped va hlast
    rw [walk, leaf, hx, Option.map_some, Option.filter_some] at hw
    split at hw
    · cases hw
    · rename_i hp
      exact Bool.eq_false_iff.mpr hp
  | some c =>
    obtain ⟨hw, hg⟩ := h.mapped va c hlast
    obtain ⟨x, hx, he, hp⟩ := walk_eq_some hw
    have hpage := hwLevels_page hx (by rw [he]; exact hp)
      (small_path h) hg (by rw [he, writeable_leafEntry]) (by rw [he, userAccess_leafEntry])
      (by rw [he, noExec_leafEntry]) (w := true) (u := true)
      (fun _ => rfl) (fun _ => rfl) (fun h => absurd h Bool.false_ne_true)
    rw [he, address_leafEntry _ (hpa c (lastCall_mem hlast))] at hpage
    exact hpage

/-- A path that is complete keeps its entries. -/
theorem path_kept (hT : TableTree off Table s.mem) (hf : present c.flags = true)
    (hp : FreshPages off pfaAllocPage Table s.mem s.taken
      (mapVtop off pfaAllocPage Table c.va c.pa c.flags s).taken) {t : ℕ}
    (hd : descend (child off) s.mem (virt off Table) (upper va) = some t)
    {r q : List Index} {j : Index} {x : ℕ} (hsplit : upper va = r++j::q)
    (hx : descend (child off) (mapVtop off pfaAllocPage Table c.va c.pa c.flags s).mem
      (virt off Table) r = some x) :
    descend (child off) s.mem (virt off Table) r = some x ∧
      (mapVtop off pfaAllocPage Table c.va c.pa c.flags s).mem x j = s.mem x j := by
  have hr : r.length < 3 := by
    have := congrArg List.length hsplit
    simp [upper] at this
    omega
  rw [hsplit, descend_append] at hd
  cases hr0 : descend (child off) s.mem (virt off Table) r with
  | none =>
    rw [hr0] at hd
    cases hd
  | some x0 =>
    rw [hr0, Option.bind_some, descend] at hd
    cases hc : child off (s.mem x0 j) with
    | none =>
      rw [hc] at hd
      cases hd
    | some y =>
      obtain ⟨hx0, he⟩ := mapVtop_entry hT hf hp hr hr0 hc
      have hx0' := hx0.symm.trans hx
      obtain rfl := Option.some.inj hx0'
      exact ⟨rfl, he⟩

theorem faithful_step (h : Faithful off Table s.mem cs) (hf : present c.flags = true)
    (hp : FreshPages off pfaAllocPage Table s.mem s.taken
      (mapVtop off pfaAllocPage Table c.va c.pa c.flags s).taken)
    (hc : Meets off Table s.mem c) :
    Faithful off Table (mapVtop off pfaAllocPage Table c.va c.pa c.flags s).mem (cs++[c]) := by
  have hwalk := mapVtop_walk h.tree hf hp
  constructor
  · exact mapVtop_tree h.tree hf hp
  · intro r x j hr hx hpres
    rcases mapVtop_upper h.tree hf hp hr hx (child_of_present hpres) with ⟨h1, h2⟩ | ⟨hpre, h2⟩
    · rw [h2] at hpres ⊢
      exact h.small r x j hr h1 hpres
    · cases hd : descend (child off) s.mem (virt off Table) (upper c.va) with
      | none => rw [h2, tableEntry_eq, pageSize_leafEntry, hc.small hd]
      | some t =>
        -- no table was missing, so the entry is an old one
        obtain ⟨q, hq⟩ := hpre
        have hsplit : upper c.va = r++j::q := by
          rw [← hq]
          simp
        obtain ⟨h1, h3⟩ := path_kept h.tree hf hp hd hsplit hx
        rw [h3] at hpres ⊢
        exact h.small r x j hr h1 hpres
  · intro va hlast
    rw [lastCall_snoc] at hlast
    rw [hwalk va]
    split at hlast
    · cases hlast
    · rename_i hne
      rw [if_neg hne]
      exact h.unmapped va hlast
  · intro va d hlast
    rw [lastCall_snoc] at hlast
    rw [hwalk va]
    split at hlast
    · rename_i hsame
      obtain rfl := Option.some.inj hlast
      rw [if_pos hsame, ((samePage_iff va c.va).mp hsame).1]
      refine ⟨rfl, fun e he => ?_⟩
      obtain ⟨r, j, q, x, hsplit, hx, hpres, rfl⟩ := (mem_pathEntries e).mp he
      have hr : r.length < 3 := by
        have := congrArg List.length hsplit
        simp [upper] at this
        omega
      rcases mapVtop_upper h.tree hf hp hr hx (child_of_present hpres) with ⟨h1, h2⟩ | ⟨-, h2⟩
      · rw [h2] at hpres ⊢
        exact hc.grants _ ((mem_pathEntries _).mpr ⟨r, j, q, x, hsplit, h1, hpres, rfl⟩)
      · rw [h2]
        exact grants_tableEntry _
    · rename_i hne
      obtain ⟨hw, hg⟩ := h.mapped va d hlast
      obtain ⟨t, ht, -, -⟩ := walk_eq_some hw
      rw [if_neg hne]
      refine ⟨hw, fun e he => ?_⟩
      obtain ⟨r, j, q, x, hsplit, hx, hpres, rfl⟩ := (mem_pathEntries e).mp he
      obtain ⟨h1, h2⟩ := path_kept h.tree hf hp ht hsplit hx
      rw [h2] at hpres ⊢
      exact hg _ ((mem_pathEntries _).mpr ⟨r, j, q, x, hsplit, h1, hpres, rfl⟩)

theorem runCalls_taken (cs : List Call) (s : State) :
    s.taken ≤ (runCalls off pfaAllocPage Table cs s).taken := by
  induction cs generalizing s with
  | nil => exact le_refl _
  | cons c cs ih => exact le_trans mapVtop_taken (ih _)

theorem faithful_run (done cs : List Call) (s : State) (h : Faithful off Table s.mem done)
    (hf : ∀ c ∈ cs, present c.flags = true)
    (hp : FreshPages off pfaAllocPage Table s.mem s.taken
      (runCalls off pfaAllocPage Table cs s).taken)
    (hc : MeetsAll off pfaAllocPage Table cs s) :
    Faithful off Table (runCalls off pfaAllocPage Table cs s).mem (done++cs) := by
  induction cs generalizing done s with
  | nil =>
    rw [List.append_nil]
    exact h
  | cons c cs ih =>
    have hmono : (mapVtop off pfaAllocPage Table c.va c.pa c.flags s).taken ≤
        (runCalls off pfaAllocPage Table (c::cs) s).taken := runCalls_taken cs _
    have hfc := hf c List.mem_cons_self
    have hstep := faithful_step h hfc (hp.weaken hmono) hc.1
    have hrest := ih (done++[c]) _ hstep (fun d hd => hf d (List.mem_cons_of_mem _ hd))
      (mapVtop_fresh h.tree hfc hmono hp) hc.2
    rw [List.append_assoc] at hrest
    exact hrest

theorem faithful_empty (hm : ∀ i, m (virt off Table) i = 0) : Faithful off Table m [] := by
  constructor
  · exact tableTree_empty hm
  · intro r x j _ hx hpres
    by_cases hr : r = []
    · rw [hr] at hx
      obtain rfl := Option.some.inj hx
      rw [hm j] at hpres
      cases hpres
    · rw [descend_empty hm r hr] at hx
      cases hx
  · intro va _
    rw [walk, leaf, descend_empty hm _ (by simp [upper])]
    rfl
  · intro va c h
    cases h

end Run

end BruhOS.Paging
