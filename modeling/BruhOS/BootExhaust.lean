import BruhOS.BootPaging

/-!
# The end of the page stack

`allocatePage` answers with a null pointer when one page is left; the check
behind it, which would end in `errexit`, tests the same condition and is never
reached. `mapPages` uses the answer without a test, so the null page is linked
as a table and written through. A stack without pages is not noticed at all:
the page behind it is popped and the count wraps.
-/

set_option autoImplicit false

namespace BruhOS.Boot

open BruhOS.TableTree BruhOS.Paging

/-- `framebuffer_t`: the virtual address and the dimensions in pixels. -/
structure Framebuffer where
  start : ℕ
  x : ℕ
  y : ℕ
  deriving DecidableEq, Repr

def mapFramebufferToVirtualMemory (fb : Framebuffer) (virtualOffset Table : ℕ) (s : BootState) :
    BootState :=
  let phys := (fb.start+(2^64-virtualOffset)) % 2^64
  let fbsize := (fb.x*fb.y % 2^64*4 % 2^64) >>> 12
  mapPageLoop Table phys fb.start fbsize 0 s

/-- A write of `mapPages`: the table it goes through, and the table whose address it stores
unless the entry is that of a page. -/
structure EntryWrite where
  table : ℕ
  installs : Option ℕ
  deriving DecidableEq, Repr

/-- The writes of one call, in order. -/
def levelWrites : List Index → ℕ → BootState → List EntryWrite
  | [], table, _ => [⟨table, none⟩]
  | i::is, table, s =>
    if present (s.mem table i) then levelWrites is (address (s.mem table i)*2^12) s
    else
      let new := allocatePageAndZero s
      ⟨table, some new.1⟩ ::
        levelWrites is new.1 ⟨write new.2.mem table i (bootEntry new.1), new.2.stack⟩

def runWrites (Table : ℕ) : List (ℕ × ℕ) → BootState → List EntryWrite
  | [], _ => []
  | c::cs, s => levelWrites (upper c.2) Table s ++ runWrites Table cs (mapPages Table c.1 c.2 s)

/-- The tables whose addresses some writes store. -/
def installs (ws : List EntryWrite) : List ℕ := ws.filterMap EntryWrite.installs

/-- The tables that the path still lacks. -/
def missing (m : Tables) : ℕ → List Index → ℕ
  | _, [] => 0
  | t, i::is => if present (m t i) then missing m (address (m t i)*2^12) is else is.length+1

/-- The stack has a page more than the path of the address lacks tables, or the path is whole. -/
def Room (Table : ℕ) (c : ℕ × ℕ) (s : BootState) : Prop :=
  missing s.mem Table (upper c.2) = 0 ∨ missing s.mem Table (upper c.2) < s.stack.pages

/-- Every call of a run finds room. -/
def RoomRun (Table : ℕ) : List (ℕ × ℕ) → BootState → Prop
  | [], _ => True
  | c::cs, s => Room Table c s ∧ RoomRun Table cs (mapPages Table c.1 c.2 s)

/-- A run installs only pages of the stack, each of them once, writes through no null table, and
links no other tables. -/
structure Constructs (Table : ℕ) (cs : List (ℕ × ℕ)) (s : BootState) : Prop where
  popped : ∀ t ∈ installs (runWrites Table cs s),
    ∃ a < s.stack.pages, s.stack.addr+a*4096 = t
  once : (installs (runWrites Table cs s)).Nodup
  nonnull : ∀ w ∈ runWrites Table cs s, w.table ≠ 0
  allocated : ∀ t, InTree 0 Table (runCalls Table cs s).mem t →
    InTree 0 Table s.mem t ∨ t ∈ installs (runWrites Table cs s)

section Framebuffer

theorem mapFramebuffer_eq (fb : Framebuffer) (virtualOffset Table : ℕ) (s : BootState) :
    mapFramebufferToVirtualMemory fb virtualOffset Table s =
      runCalls Table ((List.range' 0 ((fb.x*fb.y % 2^64*4 % 2^64) >>> 12)).map (fun k =>
        (((fb.start+(2^64-virtualOffset)) % 2^64+k*4096) % 2^64, (fb.start+k*4096) % 2^64))) s :=
  mapPageLoop_eq _ _ _ 0 s

end Framebuffer

section Writes

@[simp] theorem installs_table (t u : ℕ) (ws : List EntryWrite) :
    installs (⟨t, some u⟩::ws) = u::installs ws := rfl

@[simp] theorem installs_page (t : ℕ) (ws : List EntryWrite) :
    installs (⟨t, none⟩::ws) = installs ws := rfl

@[simp] theorem installs_nil : installs [] = [] := rfl

@[simp] theorem installs_append (ws vs : List EntryWrite) :
    installs (ws++vs) = installs ws++installs vs := List.filterMap_append

/-- The state after a new table is linked under an entry of `t`. -/
def linkNew (s : BootState) (t : ℕ) (i : Index) : BootState :=
  ⟨write (allocatePageAndZero s).2.mem t i (bootEntry (allocatePageAndZero s).1),
    (allocatePageAndZero s).2.stack⟩

variable {is : List Index} {i : Index} {t : ℕ} {s : BootState}

theorem levelWrites_present (hp : present (s.mem t i) = true) :
    levelWrites (i::is) t s = levelWrites is (address (s.mem t i)*2^12) s := by
  rw [levelWrites, if_pos hp]

theorem levelWrites_missing (hp : present (s.mem t i) = false) :
    levelWrites (i::is) t s = ⟨t, some (allocatePageAndZero s).1⟩ ::
      levelWrites is (allocatePageAndZero s).1 (linkNew s t i) := by
  rw [levelWrites, if_neg (by simp [hp])]
  rfl

theorem mapPagesLevels_present (hp : present (s.mem t i) = true) :
    mapPagesLevels (i::is) t s = mapPagesLevels is (address (s.mem t i)*2^12) s := by
  rw [mapPagesLevels, if_pos hp]

theorem mapPagesLevels_missing (hp : present (s.mem t i) = false) :
    mapPagesLevels (i::is) t s =
      mapPagesLevels is (allocatePageAndZero s).1 (linkNew s t i) := by
  rw [mapPagesLevels, if_neg (by simp [hp])]
  rfl

theorem linkNew_other {x : ℕ} (hx : x ≠ t) (ha : x ≠ (allocatePageAndZero s).1) (j : Index) :
    (linkNew s t i).mem x j = s.mem x j := by
  have hwrite : (linkNew s t i).mem x j = (allocatePageAndZero s).2.mem x j :=
    write_other _ (Or.inl hx)
  rw [hwrite]
  unfold allocatePageAndZero at ha ⊢
  dsimp only at ha ⊢
  split
  · rfl
  · exact fill_other 0 ha j

/-- What a call leaves alone: tables that it neither writes through nor takes from the stack. -/
theorem levelWrites_frame (is : List Index) (t : ℕ) (s : BootState) (x : ℕ)
    (hx : ∀ w ∈ levelWrites is t s, w.table ≠ x)
    (hi : x ∉ installs (levelWrites is t s)) (i : Index) (e : ℕ) (j : Index) :
    write (mapPagesLevels is t s).2.mem (mapPagesLevels is t s).1 i e x j = s.mem x j := by
  induction is generalizing t s with
  | nil =>
    have hne : t ≠ x := hx ⟨t, none⟩ (List.mem_singleton.mpr rfl)
    exact write_other e (Or.inl (Ne.symm hne))
  | cons k is ih =>
    cases hp : present (s.mem t k) with
    | true =>
      rw [levelWrites_present hp] at hx hi
      rw [mapPagesLevels_present hp]
      exact ih _ s hx hi
    | false =>
      rw [levelWrites_missing hp] at hx hi
      rw [installs_table, List.mem_cons, not_or] at hi
      have hne : t ≠ x := hx _ List.mem_cons_self
      rw [mapPagesLevels_missing hp,
        ih _ _ (fun w hw => hx w (List.mem_cons_of_mem _ hw)) hi.2]
      exact linkNew_other (Ne.symm hne) hi.1 j

/-- A run changes no table but those its writes name. -/
theorem runWrites_frame (Table : ℕ) (cs : List (ℕ × ℕ)) (s : BootState) (x : ℕ)
    (hx : ∀ w ∈ runWrites Table cs s, w.table ≠ x) (hi : x ∉ installs (runWrites Table cs s))
    (j : Index) : (runCalls Table cs s).mem x j = s.mem x j := by
  induction cs generalizing s with
  | nil => rfl
  | cons c cs ih =>
    rw [runWrites, installs_append, List.mem_append, not_or] at hi
    rw [runCalls, ih _ (fun w hw => hx w (List.mem_append_right _ hw)) hi.2]
    exact levelWrites_frame _ _ s x (fun w hw => hx w (List.mem_append_left _ hw)) hi.1 _ _ j

end Writes

section Levels

variable {base pages : ℕ}

/-- A page is popped and zeroed while two are left. -/
theorem allocate_popped (hb : base+pages*4096 ≤ 2^52) (h0 : 0 < base) {m : Tables} {j : ℕ}
    (hj : j+1 < pages) : allocatePageAndZero ⟨m, stackAt base pages j⟩ =
      (base+j*4096, ⟨fill m (base+j*4096) 0, stackAt base pages (j+1)⟩) := by
  have hne : (allocatePage (stackAt base pages j)).1 ≠ 0 := by
    have htwo : (stackAt base pages j).pages ≠ 1 := show pages-j ≠ 1 by omega
    rw [allocatePage, if_neg htwo]
    show base+j*4096 ≠ 0
    omega
  have halloc := (allocatePage_at hb (by omega) hne).1
  simp only [allocatePageAndZero, halloc, if_neg (show ¬ base+j*4096 = 0 by omega)]

/-- The last page is not popped. -/
theorem allocate_exhausted {m : Tables} {j : ℕ} (hj : j+1 = pages) :
    (allocatePageAndZero ⟨m, stackAt base pages j⟩).1 = 0 := by
  have hone : (stackAt base pages j).pages = 1 := show pages-j = 1 by omega
  simp only [allocatePageAndZero, allocatePage, hone, if_pos]

/-- A table is linked under a missing entry and the descent goes on in it; it is empty. -/
theorem missing_step (hb : base+pages*4096 ≤ 2^52) (h0 : 0 < base) {i : Index} {t : ℕ} {m : Tables}
    {j : ℕ} (hp : present (m t i) = false) (ht : t ≠ base+j*4096) (hj : j+1 < pages) :
    ∃ m' : Tables, (∀ i', present (m' (base+j*4096) i') = false) ∧ ∀ is,
      (LevelsServed is (base+j*4096) ⟨m', stackAt base pages (j+1)⟩ →
        LevelsServed (i::is) t ⟨m, stackAt base pages j⟩) ∧
      mapPagesLevels (i::is) t ⟨m, stackAt base pages j⟩ =
        mapPagesLevels is (base+j*4096) ⟨m', stackAt base pages (j+1)⟩ ∧
      levelWrites (i::is) t ⟨m, stackAt base pages j⟩ =
        ⟨t, some (base+j*4096)⟩ :: levelWrites is (base+j*4096) ⟨m', stackAt base pages (j+1)⟩ := by
  have hpop := allocate_popped hb h0 (m := m) hj
  have hnew : (allocatePageAndZero ⟨m, stackAt base pages j⟩).1 = base+j*4096 := by rw [hpop]
  have hlink : linkNew ⟨m, stackAt base pages j⟩ t i =
      ⟨write (fill m (base+j*4096) 0) t i (bootEntry (base+j*4096)), stackAt base pages (j+1)⟩ := by
    rw [linkNew, hpop]
  refine ⟨write (fill m (base+j*4096) 0) t i (bootEntry (base+j*4096)), ?_, ?_⟩
  · intro i'
    rw [write_other _ (Or.inl (Ne.symm ht)), fill_same]
    rfl
  · intro is
    refine ⟨?_, ?_, ?_⟩
    · intro hs
      rw [LevelsServed, if_neg (by simp [hp]), hpop]
      exact ⟨show base+j*4096 ≠ 0 by omega, hs⟩
    · rw [mapPagesLevels_missing hp, hnew, hlink]
    · rw [levelWrites_missing hp, hnew, hlink]

/-- Below a missing entry every level takes a page from the stack. -/
theorem missing_served (hb : base+pages*4096 ≤ 2^52) (h0 : 0 < base) (is : List Index) (i : Index)
    (t : ℕ) (m : Tables) (j : ℕ) (hp : present (m t i) = false) (ht : t ≠ 0)
    (habs : ∀ a, j ≤ a → a < pages → t ≠ base+a*4096) (hroom : j+(is.length+1) < pages) :
    LevelsServed (i::is) t ⟨m, stackAt base pages j⟩ ∧
    (mapPagesLevels (i::is) t ⟨m, stackAt base pages j⟩).2.stack =
      stackAt base pages (j+(is.length+1)) ∧
    installs (levelWrites (i::is) t ⟨m, stackAt base pages j⟩) =
      (List.range' j (is.length+1)).map (fun a => base+a*4096) ∧
    ∀ w ∈ levelWrites (i::is) t ⟨m, stackAt base pages j⟩, w.table ≠ 0 := by
  have hne : base+j*4096 ≠ 0 := by omega
  induction is generalizing i t m j with
  | nil =>
    obtain ⟨m', -, hstep⟩ := missing_step hb h0 hp (habs j le_rfl (by omega)) (by omega)
    obtain ⟨hserved, hlevels, hwrites⟩ := hstep []
    rw [hlevels, hwrites]
    refine ⟨hserved trivial, rfl, rfl, ?_⟩
    intro w hw
    rcases List.mem_cons.mp hw with rfl | hw
    · exact ht
    · rw [List.mem_singleton.mp hw]
      exact hne
  | cons i' is ih =>
    rw [List.length_cons] at hroom ⊢
    obtain ⟨m', hempty, hstep⟩ := missing_step hb h0 hp (habs j le_rfl (by omega)) (by omega)
    obtain ⟨hserved, hlevels, hwrites⟩ := hstep (i'::is)
    obtain ⟨h1, h2, h3, h4⟩ := ih i' (base+j*4096) m' (j+1) (hempty i') hne
      (fun a ha _ => by omega) (by omega) (Nat.add_pos_left h0 _).ne'
    rw [hlevels, hwrites, installs_table]
    refine ⟨hserved h1, ?_, ?_, ?_⟩
    · rw [h2]
      congr 1
      omega
    · rw [h3, List.range'_succ (n := is.length+1), List.map_cons]
    · intro w hw
      rcases List.mem_cons.mp hw with rfl | hw
      · exact ht
      · exact h4 w hw

/-- With too few pages the null page is installed. -/
theorem missing_exhausted (hb : base+pages*4096 ≤ 2^52) (h0 : 0 < base) (is : List Index)
    (i : Index) (t : ℕ) (m : Tables) (j : ℕ) (hp : present (m t i) = false)
    (habs : ∀ a, j ≤ a → a < pages → t ≠ base+a*4096) (hj : j < pages)
    (hroom : pages ≤ j+(is.length+1)) :
    0 ∈ installs (levelWrites (i::is) t ⟨m, stackAt base pages j⟩) := by
  induction is generalizing i t m j with
  | nil =>
    rw [List.length_nil] at hroom
    rw [levelWrites_missing hp, installs_table, allocate_exhausted (by omega)]
    exact List.mem_cons_self
  | cons i' is ih =>
    rw [List.length_cons] at hroom
    by_cases hlast : j+1 = pages
    · rw [levelWrites_missing hp, installs_table, allocate_exhausted hlast]
      exact List.mem_cons_self
    · obtain ⟨m', hempty, hstep⟩ := missing_step hb h0 hp (habs j le_rfl hj) (by omega)
      rw [(hstep (i'::is)).2.2, installs_table]
      exact List.mem_cons_of_mem _ (ih i' (base+j*4096) m' (j+1) (hempty i')
        (fun a ha _ => by omega) (by omega) (by omega))

end Levels

/-- A tree of tables, none of them null or on the stack, from which `j` pages have been taken. -/
structure Ready (base pages Table : ℕ) (m : Tables) (j : ℕ) : Prop where
  tree : TableTree 0 Table m
  supply : Supply (child 0) bootEntry (virt 0 Table) 3 (fun a => base+a*4096) m j pages
  nonnull : ∀ t, InTree 0 Table m t → t ≠ 0
  left : j = 0 ∨ j < pages

section Path

variable {base pages Table : ℕ} {m : Tables} {j : ℕ}

theorem missing_present {t : ℕ} {i : Index} {is : List Index} (hp : present (m t i) = true) :
    missing m t (i::is) = missing m (address (m t i)*2^12) is := by
  rw [missing, if_pos hp]

theorem missing_absent {t : ℕ} {i : Index} {is : List Index} (hp : present (m t i) = false) :
    missing m t (i::is) = is.length+1 := by
  rw [missing, if_neg (by simp [hp])]

theorem descend_present {p : List Index} {t : ℕ} {i : Index}
    (hd : descend (child 0) m (virt 0 Table) p = some t) (hp : present (m t i) = true) :
    descend (child 0) m (virt 0 Table) (p++[i]) = some (address (m t i)*2^12) := by
  rw [descend_snoc hd, child_of_present hp, target_zero]

/-- With room on the stack the loop takes the missing tables from it, in order. -/
theorem levels_room (hb : base+pages*4096 ≤ 2^52) (h0 : 0 < base) (hr : Ready base pages Table m j)
    (is p : List Index) (t : ℕ) (hd : descend (child 0) m (virt 0 Table) p = some t)
    (hlen : p.length+is.length ≤ 3) (hk : missing m t is = 0 ∨ missing m t is < pages-j) :
    LevelsServed is t ⟨m, stackAt base pages j⟩ ∧
    (mapPagesLevels is t ⟨m, stackAt base pages j⟩).2.stack =
      stackAt base pages (j+missing m t is) ∧
    installs (levelWrites is t ⟨m, stackAt base pages j⟩) =
      (List.range' j (missing m t is)).map (fun a => base+a*4096) ∧
    ∀ w ∈ levelWrites is t ⟨m, stackAt base pages j⟩, w.table ≠ 0 := by
  have hin : ∀ q x, q.length ≤ 3 → descend (child 0) m (virt 0 Table) q = some x → x ≠ 0 :=
    fun q x hq hx => hr.nonnull x ⟨q, hq, hx⟩
  induction is generalizing p t with
  | nil =>
    refine ⟨trivial, rfl, rfl, ?_⟩
    intro w hw
    rw [List.mem_singleton.mp hw]
    exact hin p t (by simpa using hlen) hd
  | cons i is ih =>
    rw [List.length_cons] at hlen
    cases hp : present (m t i) with
    | true =>
      rw [missing_present hp] at hk ⊢
      rw [levelWrites_present hp, mapPagesLevels_present hp, LevelsServed, if_pos hp]
      exact ih (p++[i]) _ (descend_present hd hp) (by simp; omega) hk
    | false =>
      rw [missing_absent hp] at hk ⊢
      refine missing_served hb h0 is i t m j hp (hin p t (by omega) hd) ?_ (by omega)
      rintro a ha hal rfl
      exact hr.supply.absent a ha hal p (by omega) hd

/-- Without room something is installed that is no page of the stack. -/
theorem levels_exhausted (hb : base+pages*4096 ≤ 2^52) (h0 : 0 < base)
    (hr : Ready base pages Table m j) (is p : List Index) (t : ℕ)
    (hd : descend (child 0) m (virt 0 Table) p = some t) (hlen : p.length+is.length ≤ 3)
    (hk : ¬ (missing m t is = 0 ∨ missing m t is < pages-j)) :
    ∃ x ∈ installs (levelWrites is t ⟨m, stackAt base pages j⟩),
      ∀ a < pages, base+a*4096 ≠ x := by
  induction is generalizing p t with
  | nil => exact absurd (Or.inl rfl) hk
  | cons i is ih =>
    rw [List.length_cons] at hlen
    cases hp : present (m t i) with
    | true =>
      rw [missing_present hp] at hk
      rw [levelWrites_present hp]
      exact ih (p++[i]) _ (descend_present hd hp) (by simp; omega) hk
    | false =>
      rw [missing_absent hp] at hk
      by_cases hj : j < pages
      · refine ⟨0, missing_exhausted hb h0 is i t m j hp ?_ hj (by omega), ?_⟩
        · rintro a ha hal rfl
          exact hr.supply.absent a ha hal p (by omega) hd
        · intro a _
          exact (Nat.add_pos_left h0 _).ne'
      · -- an empty stack: the page behind it is taken
        have hjz : j = 0 := hr.left.resolve_right hj
        have hpz : pages = 0 := by omega
        subst hjz hpz
        refine ⟨base, ?_, fun a ha => absurd ha (Nat.not_lt_zero a)⟩
        have hnew : (allocatePageAndZero ⟨m, stackAt base 0 0⟩).1 = base := by
          simp [allocatePageAndZero, allocatePage, stackAt]
        rw [levelWrites_missing hp, installs_table, hnew]
        exact List.mem_cons_self

/-- On a whole path nothing is taken. -/
theorem levels_whole (base j : ℕ) (is : List Index) (t : ℕ) (s : BootState) (hk : missing s.mem t is = 0) :
    mapPagesLevels is t s =
      ((grow (child 0) bootEntry 0 (fun a => base+a*4096) is t ⟨s.mem, j⟩).1, s) ∧
    (grow (child 0) bootEntry 0 (fun a => base+a*4096) is t ⟨s.mem, j⟩).2 = ⟨s.mem, j⟩ := by
  induction is generalizing t with
  | nil => exact ⟨rfl, rfl⟩
  | cons i is ih =>
    cases hp : present (s.mem t i) with
    | true =>
      rw [missing_present hp] at hk
      rw [mapPagesLevels_present hp, grow, child_of_present hp, target_zero]
      exact ih _ hk
    | false =>
      rw [missing_absent hp] at hk
      omega

theorem mapPages_room (hb : base+pages*4096 ≤ 2^52) (h0 : 0 < base) (hT : Table < 2^64)
    (hr : Ready base pages Table m j) (c : ℕ × ℕ) (hk : Room Table c ⟨m, stackAt base pages j⟩) :
    let a := assign (child 0) bootEntry 0 (fun a => base+a*4096) Table (upper c.2) (index c.2 0)
      (bootEntry c.1) ⟨m, j⟩
    mapPages Table c.1 c.2 ⟨m, stackAt base pages j⟩ = ⟨a.mem, stackAt base pages a.taken⟩ ∧
      a.taken = j+missing m Table (upper c.2) := by
  intro a
  change missing m Table (upper c.2) = 0 ∨ missing m Table (upper c.2) < pages-j at hk
  by_cases hz : missing m Table (upper c.2) = 0
  · obtain ⟨h1, h2⟩ := levels_whole base j (upper c.2) Table
      ⟨m, stackAt base pages j⟩ hz
    have ha : a = ⟨write m (grow (child 0) bootEntry 0 (fun a => base+a*4096) (upper c.2) Table
        ⟨m, j⟩).1 (index c.2 0) (bootEntry c.1), j⟩ := by
      simp only [a, assign, h2]
    rw [ha, mapPages, h1, hz]
    exact ⟨rfl, rfl⟩
  · obtain ⟨hserved, hstack, -, -⟩ := levels_room hb h0 hr (upper c.2) [] Table
      (congrArg some (virt_zero hT)) (by simp [upper]) hk
    obtain ⟨heq, -⟩ := mapPages_eq hb Table c.1 c.2 m j (by omega) hserved
    refine ⟨heq, ?_⟩
    have haddr : stackAt base pages (j+missing m Table (upper c.2)) = stackAt base pages a.taken := by
      rw [← hstack]
      exact congrArg BootState.stack heq
    have hbase := congrArg PageStack.addr haddr
    simp only [stackAt] at hbase
    omega

end Path

section Run

variable {base pages Table : ℕ} {m : Tables} {j : ℕ}

/-- Before the first call, with a stack apart from the tree. -/
theorem ready_start {st : PageStack} (htree : TableTree 0 Table m)
    (hnull : ∀ t, InTree 0 Table m t → t ≠ 0)
    (hapart : ∀ t, InTree 0 Table m t → ∀ a < st.pages, st.addr+a*4096 ≠ t)
    (haligned : 4096 ∣ st.addr) (hb : st.addr+st.pages*4096 ≤ 2^52) :
    Ready st.addr st.pages Table m 0 := by
  refine ⟨htree, ⟨?_, ?_, ?_⟩, hnull, Or.inl rfl⟩
  · intro a _ hal q hq hd
    exact hapart _ ⟨q, hq, hd⟩ a hal rfl
  · intro a _ hal
    have hpage := Nat.mul_lt_mul_of_pos_right hal (show 0 < 4096 by decide)
    exact child_bootEntry (by omega) (by omega)
  · intro a b _ hab _
    omega

/-- A call that finds room is an assignment. -/
theorem room_assigns (hb : base+pages*4096 ≤ 2^52) (h0 : 0 < base) (hT : Table < 2^64)
    (hr : Ready base pages Table m j) (c : ℕ × ℕ) (hk : Room Table c ⟨m, stackAt base pages j⟩) :
    Assigns (child 0) bootEntry 0 (fun a => base+a*4096) (virt 0 Table) 3 (upper c.2)
      (index c.2 0) (bootEntry c.1) ⟨m, j⟩ := by
  obtain ⟨-, htaken⟩ := mapPages_room hb h0 hT hr c hk
  have hleft : j+missing m Table (upper c.2) ≤ pages ∨
      j+missing m Table (upper c.2) = j := by
    have hroom : missing m Table (upper c.2) = 0 ∨ missing m Table (upper c.2) < pages-j := hk
    omega
  have hsupply : Supply (child 0) bootEntry (virt 0 Table) 3 (fun a => base+a*4096) m j
      (j+missing m Table (upper c.2)) := by
    rcases hleft with hle | heq
    · exact hr.supply.weaken hle
    · rw [heq]
      exact ⟨fun a _ _ => by omega, fun a _ _ => by omega, fun a b _ _ _ => by omega⟩
  have hall : (assign (child 0) bootEntry 0 (fun a => base+a*4096) (virt 0 Table) (upper c.2)
      (index c.2 0) (bootEntry c.1) ⟨m, j⟩).taken = j+missing m Table (upper c.2) := by
    rw [virt_zero hT]
    exact htaken
  refine ⟨child_zero 0, hr.tree, rfl, ?_⟩
  rw [hall]
  exact hsupply

/-- A call that finds room leaves a tree with the tables it took. -/
theorem ready_call (hb : base+pages*4096 ≤ 2^52) (h0 : 0 < base) (hT : Table < 2^64)
    (hr : Ready base pages Table m j) (c : ℕ × ℕ) (hk : Room Table c ⟨m, stackAt base pages j⟩) :
    ∃ m' : Tables, mapPages Table c.1 c.2 ⟨m, stackAt base pages j⟩ =
        ⟨m', stackAt base pages (j+missing m Table (upper c.2))⟩ ∧
      Ready base pages Table m' (j+missing m Table (upper c.2)) ∧
      ∀ t, InTree 0 Table m' t → InTree 0 Table m t ∨
        ∃ a, j ≤ a ∧ a < j+missing m Table (upper c.2) ∧ base+a*4096 = t := by
  obtain ⟨hcall, htaken⟩ := mapPages_room hb h0 hT hr c hk
  have hroot : virt 0 Table = Table := virt_zero hT
  have ha := room_assigns hb h0 hT hr c hk
  have htables := ha.tables_iff
  have hafter := ha.after
  have hrest := ha.rest hr.supply
  rw [hroot] at htables hafter hrest
  rw [htaken] at htables hrest hcall
  refine ⟨_, hcall, ⟨?_, ?_, ?_, ?_⟩, ?_⟩
  · rw [TableTree, hroot]
    exact hafter
  · rw [hroot]
    exact hrest
  · rintro t ⟨q, hq, ht⟩
    rw [hroot] at ht
    rcases (htables t).mp ⟨q, hq, ht⟩ with ⟨r, hrl, hrt⟩ | ⟨a, -, -, rfl⟩
    · exact hr.nonnull t ⟨r, hrl, by rw [hroot]; exact hrt⟩
    · exact (Nat.add_pos_left h0 _).ne'
  · have hroom : missing m Table (upper c.2) = 0 ∨ missing m Table (upper c.2) < pages-j := hk
    have hl := hr.left
    omega
  · rintro t ⟨q, hq, ht⟩
    rw [hroot] at ht
    rcases (htables t).mp ⟨q, hq, ht⟩ with ⟨r, hrl, hrt⟩ | ⟨a, h1, h2, h3⟩
    · exact Or.inl ⟨r, hrl, by rw [hroot]; exact hrt⟩
    · exact Or.inr ⟨a, h1, h2, h3⟩

/-- A run that finds room takes the next pages of the stack and links exactly these. -/
theorem run_room (hb : base+pages*4096 ≤ 2^52) (h0 : 0 < base) (hT : Table < 2^64)
    (cs : List (ℕ × ℕ)) (hr : Ready base pages Table m j)
    (hroom : RoomRun Table cs ⟨m, stackAt base pages j⟩) :
    ∃ k, installs (runWrites Table cs ⟨m, stackAt base pages j⟩) =
        (List.range' j k).map (fun a => base+a*4096) ∧ (k = 0 ∨ j+k < pages) ∧
      (∀ w ∈ runWrites Table cs ⟨m, stackAt base pages j⟩, w.table ≠ 0) ∧
      ∀ t, InTree 0 Table (runCalls Table cs ⟨m, stackAt base pages j⟩).mem t →
        InTree 0 Table m t ∨ ∃ a, j ≤ a ∧ a < j+k ∧ base+a*4096 = t := by
  induction cs generalizing m j with
  | nil => exact ⟨0, rfl, Or.inl rfl, by simp [runWrites], fun t ht => Or.inl ht⟩
  | cons c cs ih =>
    obtain ⟨hcall, hrest⟩ := hroom
    obtain ⟨-, -, hinst, hnonnull⟩ := levels_room hb h0 hr (upper c.2) [] Table
      (congrArg some (virt_zero hT)) (by simp [upper]) hcall
    obtain ⟨m', heq, hr', htables⟩ := ready_call hb h0 hT hr c hcall
    rw [heq] at hrest
    obtain ⟨k, hinst', hk, hnonnull', htables'⟩ := ih hr' hrest
    generalize hn : missing m Table (upper c.2) = n at *
    have hn' : n = 0 ∨ n < pages-j := by
      rw [← hn]
      exact hcall
    refine ⟨n+k, ?_, ?_, ?_, ?_⟩
    · rw [runWrites, installs_append, heq, hinst, hinst', ← List.map_append]
      congr 1
      exact List.range'_append_1
    · omega
    · intro w hw
      rw [runWrites, heq] at hw
      rcases List.mem_append.mp hw with hw | hw
      · exact hnonnull w hw
      · exact hnonnull' w hw
    · intro t ht
      rw [runCalls, heq] at ht
      rcases htables' t ht with ht | ⟨a, h1, h2, h3⟩
      · rcases htables t ht with ht | ⟨a, h1, h2, h3⟩
        · exact Or.inl ht
        · exact Or.inr ⟨a, h1, by omega, h3⟩
      · exact Or.inr ⟨a, by omega, by omega, h3⟩

/-- The first call without room installs what is no page of the stack. -/
theorem run_exhausted (hb : base+pages*4096 ≤ 2^52) (h0 : 0 < base) (hT : Table < 2^64)
    (cs : List (ℕ × ℕ)) (hr : Ready base pages Table m j)
    (hroom : ¬ RoomRun Table cs ⟨m, stackAt base pages j⟩) :
    ∃ x ∈ installs (runWrites Table cs ⟨m, stackAt base pages j⟩),
      ∀ a < pages, base+a*4096 ≠ x := by
  induction cs generalizing m j with
  | nil => exact absurd trivial hroom
  | cons c cs ih =>
    rw [runWrites, installs_append]
    by_cases hcall : Room Table c ⟨m, stackAt base pages j⟩
    · obtain ⟨m', heq, hr', -⟩ := ready_call hb h0 hT hr c hcall
      have hrest : ¬ RoomRun Table cs (mapPages Table c.1 c.2 ⟨m, stackAt base pages j⟩) :=
        fun h => hroom ⟨hcall, h⟩
      rw [heq] at hrest ⊢
      obtain ⟨x, hx, hout⟩ := ih hr' hrest
      exact ⟨x, List.mem_append_right _ hx, hout⟩
    · obtain ⟨x, hx, hout⟩ := levels_exhausted hb h0 hr (upper c.2) [] Table
        (congrArg some (virt_zero hT)) (by simp [upper]) hcall
      exact ⟨x, List.mem_append_left _ hx, hout⟩

end Run

/-- Tables are constructed from the pages of the stack alone exactly when every call finds the
path whole or a page more on the stack than it lacks tables. -/
theorem constructs_iff (Table : ℕ) (cs : List (ℕ × ℕ)) (m : Tables) (st : PageStack)
    (hT : Table < 2^64) (htree : TableTree 0 Table m) (hnull : ∀ t, InTree 0 Table m t → t ≠ 0)
    (hapart : ∀ t, InTree 0 Table m t → ∀ a < st.pages, st.addr+a*4096 ≠ t)
    (hst : 4096 ∣ st.addr ∧ 0 < st.addr ∧ st.addr+st.pages*4096 ≤ 2^52) :
    Constructs Table cs ⟨m, st⟩ ↔ RoomRun Table cs ⟨m, st⟩ := by
  obtain ⟨haligned, h0, hb⟩ := hst
  have hstack : st = stackAt st.addr st.pages 0 := by simp [stackAt]
  have hr := ready_start htree hnull hapart haligned hb
  constructor
  · intro hc
    by_contra hroom
    rw [hstack] at hroom
    obtain ⟨x, hx, hout⟩ := run_exhausted hb h0 hT cs hr hroom
    rw [← hstack] at hx
    obtain ⟨a, ha, hax⟩ := hc.popped x hx
    exact hout a ha hax
  · intro hroom
    rw [hstack] at hroom
    obtain ⟨k, hinst, hk, hnonnull, htables⟩ := run_room hb h0 hT cs hr hroom
    rw [← hstack] at hinst hnonnull htables
    refine ⟨?_, ?_, hnonnull, ?_⟩
    · intro t ht
      rw [hinst] at ht
      obtain ⟨a, ha, rfl⟩ := List.mem_map.mp ht
      rw [List.mem_range'_1] at ha
      exact ⟨a, show a < st.pages by omega, rfl⟩
    · rw [hinst]
      refine List.Nodup.map ?_ List.nodup_range'
      intro a b hab
      simp only at hab
      omega
    · intro t ht
      rcases htables t ht with ht | ⟨a, h1, h2, h3⟩
      · exact Or.inl ht
      · right
        rw [hinst]
        exact List.mem_map.mpr ⟨a, by rw [List.mem_range'_1]; omega, h3⟩

section Small

/-- One empty PML4 and a stack of some pages behind it. -/
def emptyTables : Tables := fun _ _ => 0

def smallStack (pages : ℕ) : PageStack := ⟨0x2000, pages⟩

theorem inTree_empty {t : ℕ} (h : InTree 0 0x1000 emptyTables t) : t = 0x1000 := by
  obtain ⟨q, -, hq⟩ := h
  cases q with
  | nil => exact (Option.some.inj hq).symm
  | cons i q =>
    rw [descend_empty (fun _ => rfl) _ (by simp)] at hq
    cases hq

/-- With two pages for three tables the null page is linked twice and written through. -/
theorem constructs_null :
    TableTree 0 0x1000 emptyTables ∧
    (∀ t, InTree 0 0x1000 emptyTables t → t = 0x1000) ∧
    runWrites 0x1000 [(0x5000, 0x400000)] ⟨emptyTables, smallStack 2⟩ =
      [⟨0x1000, some 0x2000⟩, ⟨0x2000, some 0⟩, ⟨0, some 0⟩, ⟨0, none⟩] ∧
    ¬ Constructs 0x1000 [(0x5000, 0x400000)] ⟨emptyTables, smallStack 2⟩ := by
  have hwrites : runWrites 0x1000 [(0x5000, 0x400000)] ⟨emptyTables, smallStack 2⟩ =
      [⟨0x1000, some 0x2000⟩, ⟨0x2000, some 0⟩, ⟨0, some 0⟩, ⟨0, none⟩] := by decide
  refine ⟨tableTree_empty (fun _ => rfl), fun t ht => inTree_empty ht, hwrites, ?_⟩
  intro hc
  refine hc.nonnull ⟨0, none⟩ ?_ rfl
  rw [hwrites]
  decide

theorem constructs_four :
    Constructs 0x1000 [(0x5000, 0x400000)] ⟨emptyTables, smallStack 4⟩ := by
  refine (constructs_iff 0x1000 _ emptyTables (smallStack 4) (by decide)
    (tableTree_empty (fun _ => rfl)) ?_ ?_ ⟨by decide, by decide, by decide⟩).mpr ?_
  · intro t ht
    rw [inTree_empty ht]
    decide
  · intro t ht a _
    rw [inTree_empty ht]
    show 0x2000+a*4096 ≠ 0x1000
    omega
  · exact ⟨Or.inr (by decide), trivial⟩

end Small

end BruhOS.Boot
