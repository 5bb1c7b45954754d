import BruhOS.BootMap
import BruhOS.PagingRights

/-!
# The page tables of the bootloader

Before paging is switched the bootloader maps every page of the memory map.
Tables come from a stack of pages at the start of the largest region and are
used at their physical addresses. The code of `mapPages` is that of the
kernel's `map_vtop` except for the stack, which answers with a null pointer
when one page is left, and for the flags, which are always present and
writable.
-/

set_option autoImplicit false

namespace BruhOS.Boot

open BruhOS.TableTree BruhOS.Paging

structure PageStack where
  addr : ℕ
  pages : ℕ
  deriving DecidableEq, Repr

structure BootState where
  mem : Tables
  stack : PageStack

/-- The page popped, or the null pointer. -/
def allocatePage (st : PageStack) : ℕ × PageStack :=
  if st.pages = 1 then (0, st)
  else (st.addr, ⟨(st.addr+4096) % 2^64, (st.pages+(2^64-1)) % 2^64⟩)

def allocatePageAndZero (s : BootState) : ℕ × BootState :=
  let out := allocatePage s.stack
  (out.1, ⟨if out.1 = 0 then s.mem else fill s.mem out.1 0, out.2⟩)

/-- The entry written for a table or a page. -/
def bootEntry (x : ℕ) : ℕ := 0b1 ||| (0b1 <<< 1) ||| ((x >>> 12 &&& 0xffffffffff) <<< 12)

/-- The loop of `mapPages` over the three upper levels. -/
def mapPagesLevels : List Index → ℕ → BootState → ℕ × BootState
  | [], table, s => (table, s)
  | i::is, table, s =>
    if present (s.mem table i) then mapPagesLevels is (address (s.mem table i)*2^12) s
    else
      let new := allocatePageAndZero s
      mapPagesLevels is new.1 ⟨write new.2.mem table i (bootEntry new.1), new.2.stack⟩

def mapPages (Table physStart virtStart : ℕ) (s : BootState) : BootState :=
  let r := mapPagesLevels (upper virtStart) Table s
  ⟨write r.2.mem r.1 (index virtStart 0) (bootEntry physStart), r.2.stack⟩

/-- The loop over the pages of a descriptor, from `page` on. -/
def mapPageLoop (Table addrp addrv : ℕ) : ℕ → ℕ → BootState → BootState
  | 0, _, s => s
  | n+1, page, s => mapPageLoop Table addrp addrv n (page+1)
      (mapPages Table ((addrp+page*4096) % 2^64) ((addrv+page*4096) % 2^64) s)

def mapDescriptors (Table : ℕ) : List Descriptor → BootState → BootState
  | [], s => s
  | d::ds, s => mapDescriptors Table ds (mapPageLoop Table d.physAddr d.virtAddr d.pages 0 s)

def mapMemoryMapToVirtualMemory (map : MemoryMap) (mem : Memory) (Table : ℕ) (s : BootState) :
    BootState :=
  mapDescriptors Table (decode map map.mmap mem) s

/-- The arguments of the calls of `mapPages` that the two loops make. -/
def mapCalls (ds : List Descriptor) : List (ℕ × ℕ) :=
  ds.flatMap (fun d => (List.range' 0 d.pages).map
    (fun k => ((d.physAddr+k*4096) % 2^64, (d.virtAddr+k*4096) % 2^64)))

def runCalls (Table : ℕ) : List (ℕ × ℕ) → BootState → BootState
  | [], s => s
  | c::cs, s => runCalls Table cs (mapPages Table c.1 c.2 s)

/-- No call of `allocatePage` in the loop of `mapPages` returns the null pointer. -/
def LevelsServed : List Index → ℕ → BootState → Prop
  | [], _, _ => True
  | i::is, table, s =>
    if present (s.mem table i) then LevelsServed is (address (s.mem table i)*2^12) s
    else
      let new := allocatePageAndZero s
      new.1 ≠ 0 ∧ LevelsServed is new.1 ⟨write new.2.mem table i (bootEntry new.1), new.2.stack⟩

def Served (Table : ℕ) : List (ℕ × ℕ) → BootState → Prop
  | [], _ => True
  | c::cs, s => LevelsServed (upper c.2) Table s ∧ Served Table cs (mapPages Table c.1 c.2 s)

instance decidableLevelsServed : ∀ is table s, Decidable (LevelsServed is table s)
  | [], _, _ => isTrue trivial
  | i::is, table, s =>
    if hp : present (s.mem table i) = true then
      have := decidableLevelsServed is (address (s.mem table i)*2^12) s
      decidable_of_iff (LevelsServed is (address (s.mem table i)*2^12) s)
        (by rw [LevelsServed, if_pos hp])
    else
      let new := allocatePageAndZero s
      have := decidableLevelsServed is new.1
        ⟨write new.2.mem table i (bootEntry new.1), new.2.stack⟩
      decidable_of_iff (new.1 ≠ 0 ∧
          LevelsServed is new.1 ⟨write new.2.mem table i (bootEntry new.1), new.2.stack⟩)
        (by rw [LevelsServed, if_neg hp])

section Calls

variable {Table : ℕ}

theorem runCalls_append (cs ds : List (ℕ × ℕ)) (s : BootState) :
    runCalls Table (cs++ds) s = runCalls Table ds (runCalls Table cs s) := by
  induction cs generalizing s with
  | nil => rfl
  | cons c cs ih => exact ih _

theorem mapPageLoop_eq (p v n i : ℕ) (s : BootState) : mapPageLoop Table p v n i s =
    runCalls Table ((List.range' i n).map
      (fun k => ((p+k*4096) % 2^64, (v+k*4096) % 2^64))) s := by
  induction n generalizing i s with
  | zero => rfl
  | succ n ih =>
    rw [mapPageLoop, ih, List.range'_succ]
    rfl

theorem mapDescriptors_eq (ds : List Descriptor) (s : BootState) :
    mapDescriptors Table ds s = runCalls Table (mapCalls ds) s := by
  induction ds generalizing s with
  | nil => rfl
  | cons d ds ih =>
    rw [mapDescriptors, ih, mapPageLoop_eq, mapCalls, mapCalls, List.flatMap_cons, runCalls_append]

end Calls

section Entries

theorem bootEntry_eq (x : ℕ) : bootEntry x = setAddress 3 (x/2^12) := by
  have hmask : x >>> 12 &&& 0xffffffffff = x/2^12 % 2^40 := by
    rw [Nat.shiftRight_eq_div_pow]
    exact Nat.and_two_pow_sub_one_eq_mod _ 40
  have hor : (0b1 ||| (0b1 <<< 1) : ℕ) = 3 := rfl
  rw [bootEntry, hmask, hor, Nat.or_comm, ← Nat.shiftLeft_add_eq_or_of_lt (by decide),
    Nat.shiftLeft_eq, setAddress]
  omega

theorem present_bootEntry (x : ℕ) : present (bootEntry x) = true := by
  rw [bootEntry_eq, present_setAddress]
  rfl

theorem writeable_bootEntry (x : ℕ) : writeable (bootEntry x) = true := by
  rw [bootEntry_eq, writeable, testBit_setAddress _ _ 1 (by omega)]
  rfl

theorem userAccess_bootEntry (x : ℕ) : userAccess (bootEntry x) = false := by
  rw [bootEntry_eq, userAccess, testBit_setAddress _ _ 2 (by omega)]
  rfl

theorem pageSize_bootEntry (x : ℕ) : pageSize (bootEntry x) = false := by
  rw [bootEntry_eq, pageSize, testBit_setAddress _ _ 7 (by omega)]
  rfl

theorem noExec_bootEntry (x : ℕ) : noExec (bootEntry x) = false := by
  rw [bootEntry_eq, noExec, testBit_setAddress _ _ 63 (by omega)]
  rfl

theorem address_bootEntry {x : ℕ} (hx : x < 2^52) : address (bootEntry x) = x/4096 := by
  rw [bootEntry_eq, address_setAddress]
  omega

theorem target_zero (e : ℕ) : target 0 e = address e*2^12 := by
  simp only [target, virt, address]
  omega

theorem child_bootEntry {x : ℕ} (hx : x < 2^52) (ha : 4096 ∣ x) :
    child 0 (bootEntry x) = some x := by
  rw [child_of_present (present_bootEntry x), target_zero, address_bootEntry hx]
  congr 1
  omega

end Entries

/-- The stack after `k` pages have been popped. -/
def stackAt (base pages k : ℕ) : PageStack := ⟨base+k*4096, pages-k⟩

section Simulation

variable {base pages : ℕ}

theorem allocatePage_at {k : ℕ} (hb : base+pages*4096 ≤ 2^52) (hk : k < pages)
    (hne : (allocatePage (stackAt base pages k)).1 ≠ 0) :
    allocatePage (stackAt base pages k) = (base+k*4096, stackAt base pages (k+1)) ∧
      k+1 < pages := by
  have hlast : pages-k ≠ 1 := by
    intro h1
    simp [allocatePage, stackAt, h1] at hne
  constructor
  · have haddr : (base+k*4096+4096) % 2^64 = base+(k+1)*4096 := by omega
    have hleft : (pages-k+(2^64-1)) % 2^64 = pages-(k+1) := by omega
    rw [allocatePage, if_neg (show (stackAt base pages k).pages ≠ 1 from hlast)]
    simp only [stackAt, haddr, hleft]
  · omega

/-- As long as the stack has pages, the loop of `mapPages` is a descent that takes the pages of
the stack in order. -/
theorem mapPagesLevels_eq (hb : base+pages*4096 ≤ 2^52) (is : List Index) (t : ℕ) (m : Tables)
    (k : ℕ) (hk : k < pages) (hs : LevelsServed is t ⟨m, stackAt base pages k⟩) :
    let g := grow (child 0) bootEntry 0 (fun a => base+a*4096) is t ⟨m, k⟩
    mapPagesLevels is t ⟨m, stackAt base pages k⟩ = (g.1, ⟨g.2.mem, stackAt base pages g.2.taken⟩) ∧
      g.2.taken < pages := by
  induction is generalizing t m k with
  | nil => exact ⟨rfl, hk⟩
  | cons i is ih =>
    rw [LevelsServed] at hs
    rw [mapPagesLevels, grow]
    by_cases hp : present (m t i) = true
    · rw [if_pos hp] at hs
      rw [if_pos hp, child_of_present hp, target_zero]
      exact ih _ m k hk hs
    · rw [if_neg hp] at hs
      have hnone : child 0 (m t i) = none := by rw [child, if_neg hp]
      rw [if_neg hp, hnone]
      obtain ⟨hne, hrest⟩ := hs
      obtain ⟨halloc, hk'⟩ := allocatePage_at hb hk hne
      have hnew : allocatePageAndZero ⟨m, stackAt base pages k⟩ =
          (base+k*4096, ⟨fill m (base+k*4096) 0, stackAt base pages (k+1)⟩) := by
        have hne' : base+k*4096 ≠ 0 := by
          intro h0
          apply hne
          rw [allocatePageAndZero, halloc]
          exact h0
        simp only [allocatePageAndZero, halloc, if_neg hne']
      rw [hnew] at hrest ⊢
      exact ih _ _ (k+1) hk' hrest

theorem mapPages_eq (hb : base+pages*4096 ≤ 2^52) (Table p v : ℕ) (m : Tables) (k : ℕ)
    (hk : k < pages) (hs : LevelsServed (upper v) Table ⟨m, stackAt base pages k⟩) :
    let a := assign (child 0) bootEntry 0 (fun a => base+a*4096) Table (upper v) (index v 0)
      (bootEntry p) ⟨m, k⟩
    mapPages Table p v ⟨m, stackAt base pages k⟩ = ⟨a.mem, stackAt base pages a.taken⟩ ∧
      a.taken < pages := by
  obtain ⟨h1, h2⟩ := mapPagesLevels_eq hb (upper v) Table m k hk hs
  refine ⟨?_, h2⟩
  simp only [mapPages, h1]
  rfl

end Simulation

/-- The tables after the calls `cs`, when `h.taken` pages of the stack have been popped. -/
structure Built (base pages : ℕ) (h : State) (cs : List (ℕ × ℕ)) : Prop where
  tree : TableTree 0 base h.mem
  supply : Supply (child 0) bootEntry (virt 0 base) 3 (fun a => base+a*4096) h.mem h.taken pages
  tables : ∀ x, InTree 0 base h.mem x ↔ ∃ a < h.taken, base+a*4096 = x
  entries : ∀ (r : List Index) x j, r.length < 3 →
    descend (child 0) h.mem (virt 0 base) r = some x → present (h.mem x j) = true →
    ∃ y, h.mem x j = bootEntry y
  mapped : ∀ c ∈ cs, walk 0 h.mem base c.2 = some (bootEntry c.1)
  others : ∀ va, (∀ c ∈ cs, ¬ SamePage va c.2) → walk 0 h.mem base va = none

section Run

variable {base pages : ℕ} {cs : List (ℕ × ℕ)} {h : State}

theorem virt_zero {x : ℕ} (hx : x < 2^64) : virt 0 x = x := by
  rw [virt, Nat.add_zero, Nat.mod_eq_of_lt hx]

/-- The walk after an assignment of the tables. -/
theorem assign_walk {Table p v : ℕ} (ha : Assigns (child 0) bootEntry 0 (fun a => base+a*4096)
    (virt 0 Table) 3 (upper v) (index v 0) (bootEntry p) h) (x : ℕ) :
    walk 0 (assign (child 0) bootEntry 0 (fun a => base+a*4096) (virt 0 Table) (upper v)
      (index v 0) (bootEntry p) h).mem Table x =
      if SamePage x v then some (bootEntry p) else walk 0 h.mem Table x := by
  unfold walk
  by_cases hx : SamePage x v
  · obtain ⟨hu, h0⟩ := (samePage_iff x v).mp hx
    rw [if_pos hx, hu, h0, ha.leaf_same, Option.filter_some, present_bootEntry, if_pos rfl]
  · rw [if_neg hx]
    rcases ha.leaf_other (r := upper x) rfl (fun hs => hx ((samePage_iff x v).mpr hs)) with
      hl | ⟨h1, h2⟩
    · rw [hl]
    · rw [h1, h2]
      rfl

theorem built_step {p v : ℕ} (hB : Built base pages h cs) (hv : ∀ c ∈ cs, ¬ SamePage v c.2)
    (hl : (assign (child 0) bootEntry 0 (fun a => base+a*4096) (virt 0 base) (upper v) (index v 0)
      (bootEntry p) h).taken ≤ pages) :
    Built base pages (assign (child 0) bootEntry 0 (fun a => base+a*4096) (virt 0 base) (upper v)
      (index v 0) (bootEntry p) h) (cs++[(p, v)]) := by
  have ha : Assigns (child 0) bootEntry 0 (fun a => base+a*4096) (virt 0 base) 3 (upper v)
      (index v 0) (bootEntry p) h :=
    ⟨child_zero 0, hB.tree, rfl, hB.supply.weaken hl⟩
  have hwalk := assign_walk ha
  constructor
  · exact ha.after
  · exact ha.rest hB.supply
  · intro x
    have htaken : h.taken ≤ (assign (child 0) bootEntry 0 (fun a => base+a*4096) (virt 0 base)
      (upper v) (index v 0) (bootEntry p) h).taken := assign_taken
    have hold := hB.tables x
    refine (ha.tables_iff x).trans ?_
    constructor
    · rintro (hx | ⟨a, -, h2, rfl⟩)
      · obtain ⟨a, h1, rfl⟩ := hold.mp hx
        exact ⟨a, by omega, rfl⟩
      · exact ⟨a, h2, rfl⟩
    · rintro ⟨a, h1, rfl⟩
      by_cases hold' : a < h.taken
      · exact Or.inl (hold.mpr ⟨a, hold', rfl⟩)
      · exact Or.inr ⟨a, by omega, h1, rfl⟩
  · intro r x j hr hx hp
    rcases ha.upper hr hx (child_of_present hp) with ⟨h1, h2⟩ | ⟨-, h2⟩
    · rw [h2] at hp ⊢
      exact hB.entries r x j hr h1 hp
    · exact ⟨_, h2⟩
  · intro c hc
    rw [hwalk]
    rcases List.mem_append.mp hc with hc | hc
    · have hne : ¬ SamePage c.2 v := fun hs => hv c hc hs.symm
      rw [if_neg hne, hB.mapped c hc]
    · obtain rfl := List.mem_singleton.mp hc
      rw [if_pos (SamePage.refl v)]
  · intro va hva
    rw [hwalk, if_neg (hva (p, v) (by simp))]
    exact hB.others va (fun c hc => hva c (List.mem_append_left _ hc))

/-- Every call of a run adds its page to the tables built. -/
theorem built_run (hb : base+pages*4096 ≤ 2^52) (done cs : List (ℕ × ℕ)) (m : Tables) (k : ℕ)
    (hk : k < pages) (hB : Built base pages ⟨m, k⟩ done)
    (hd : ∀ c ∈ cs, ∀ b ∈ done, ¬ SamePage c.2 b.2)
    (hcs : cs.Pairwise (fun a b => ¬ SamePage a.2 b.2))
    (hs : Served base cs ⟨m, stackAt base pages k⟩) :
    ∃ h : State, runCalls base cs ⟨m, stackAt base pages k⟩ = ⟨h.mem, stackAt base pages h.taken⟩ ∧
      h.taken < pages ∧ Built base pages h (done++cs) := by
  induction cs generalizing done m k with
  | nil => exact ⟨⟨m, k⟩, rfl, hk, by rw [List.append_nil]; exact hB⟩
  | cons c cs ih =>
    obtain ⟨heq, hlt⟩ := mapPages_eq hb base c.1 c.2 m k hk hs.1
    have hroot : virt 0 base = base := virt_zero (by omega)
    have hstep := built_step hB (hd c List.mem_cons_self) (p := c.1) (by rw [hroot]; omega)
    rw [hroot] at hstep
    have hrest := hs.2
    rw [heq] at hrest
    rw [List.pairwise_cons] at hcs
    obtain ⟨h, hrun, htaken, hbuilt⟩ := ih (done++[c]) _ _ hlt hstep
      (by
        intro d hd' b hb'
        rcases List.mem_append.mp hb' with hb' | hb'
        · exact hd d (List.mem_cons_of_mem _ hd') b hb'
        · obtain rfl := List.mem_singleton.mp hb'
          exact fun hsame => hcs.1 d hd' hsame.symm)
      hcs.2 hrest
    refine ⟨h, ?_, htaken, ?_⟩
    · rw [runCalls, heq]
      exact hrun
    · rw [List.append_assoc] at hbuilt
      exact hbuilt

/-- The zeroed PML4 on the first page of the stack. -/
theorem built_empty (hb : base+pages*4096 ≤ 2^52) (ha : 4096 ∣ base) {m : Tables}
    (hm : ∀ i, m (virt 0 base) i = 0) (hp : 0 < pages) : Built base pages ⟨m, 1⟩ [] := by
  have hroot : virt 0 base = base := virt_zero (by omega)
  have hpage : ∀ a, a < pages → base+a*4096 < 2^52 := by
    intro a hal
    have := Nat.mul_lt_mul_of_pos_right hal (show 0 < 4096 by decide)
    omega
  have hnil : ∀ (q : List Index) x, descend (child 0) m (virt 0 base) q = some x →
      q = [] ∧ x = base := by
    intro q x hx
    by_cases hq : q = []
    · rw [hq] at hx
      exact ⟨hq, (Option.some.inj hx).symm.trans hroot⟩
    · rw [descend_empty hm q hq] at hx
      cases hx
  constructor
  · exact tableTree_empty hm
  · constructor
    · intro a h1 _ q _ hx
      have heq : base+a*4096 = base := (hnil q _ hx).2
      change 1 ≤ a at h1
      omega
    · intro a _ hal
      exact child_bootEntry (hpage a hal) (by omega)
    · intro a b _ hab _
      omega
  · intro x
    constructor
    · rintro ⟨q, -, hx⟩
      exact ⟨0, Nat.one_pos, by rw [(hnil q x hx).2]; omega⟩
    · rintro ⟨a, h1, rfl⟩
      have h0 : a = 0 := by
        change a < 1 at h1
        omega
      refine ⟨[], by simp, ?_⟩
      rw [h0, Nat.zero_mul, Nat.add_zero]
      exact congrArg some hroot
  · intro r x j _ hx hpres
    obtain ⟨-, rfl⟩ := hnil r x hx
    have hzero := hm j
    rw [hroot] at hzero
    change present (m x j) = true at hpres
    rw [hzero] at hpres
    cases hpres
  · intro c hc
    cases hc
  · intro va _
    rw [walk, leaf, descend_empty hm _ (by simp [upper])]
    rfl

/-- The processor finds the pages of the calls present, writable and executable. -/
theorem Built.hwWalk_eq (hB : Built base pages h cs) {c : ℕ × ℕ} (hc : c ∈ cs) (hp : c.1 < 2^52) :
    hwWalk 0 h.mem base c.2 = .page (c.1/4096) true false false := by
  obtain ⟨x, hx, he, hpres⟩ := walk_eq_some (hB.mapped c hc)
  have hboot : ∀ e ∈ pathEntries 0 h.mem (virt 0 base) (upper c.2), ∃ y, e = bootEntry y := by
    intro e hmem
    obtain ⟨r, j, q, y, hsplit, hr, hy, rfl⟩ := (mem_pathEntries e).mp hmem
    refine hB.entries r y j ?_ hr hy
    have := congrArg List.length hsplit
    simp [upper] at this
    omega
  have hpage := hwLevels_page (f := bootEntry c.1) (w := true) (u := true) hx
    (by rw [he]; exact hpres)
    (by
      intro e hmem
      obtain ⟨y, rfl⟩ := hboot e hmem
      exact pageSize_bootEntry y)
    (by
      intro e hmem
      obtain ⟨y, rfl⟩ := hboot e hmem
      simp [Grants, writeable_bootEntry, userAccess_bootEntry, noExec_bootEntry])
    (by rw [he]) (by rw [he]) (by rw [he]) (fun _ => rfl) (fun _ => rfl)
    (fun hn => absurd hn Bool.false_ne_true)
  rw [he, writeable_bootEntry, userAccess_bootEntry, noExec_bootEntry, address_bootEntry hp] at hpage
  exact hpage

theorem Built.page {p v : ℕ} (hB : Built base pages h cs) (hc : (p, v) ∈ cs) (hp : p < 2^52)
    (ha : 4096 ∣ p) :
    ∃ e, walk 0 h.mem base v = some e ∧ address e*4096 = p ∧ present e = true ∧
      writeable e = true := by
  refine ⟨bootEntry p, hB.mapped (p, v) hc, ?_, present_bootEntry p, writeable_bootEntry p⟩
  rw [address_bootEntry hp]
  omega

end Run

theorem mem_mapCalls (ds : List Descriptor) (c : ℕ × ℕ) : c ∈ mapCalls ds ↔
    ∃ d ∈ ds, ∃ k < d.pages, c = ((d.physAddr+k*4096) % 2^64, (d.virtAddr+k*4096) % 2^64) := by
  simp only [mapCalls, List.mem_flatMap, List.mem_map, List.mem_range'_1, Nat.zero_le, true_and,
    Nat.zero_add, eq_comm]

/-- The tables built from a memory map translate its pages and no others, and are exactly the
pages popped from the stack. -/
theorem boot_tables_exact (map : MemoryMap) (mem : Memory) (virtualOffset : ℕ) (m : Tables)
    (st : PageStack)
    (hphys : ∀ d ∈ decode map map.mmap (fixVirtualAddresses map virtualOffset mem),
      4096 ∣ d.physAddr ∧ d.physAddr+d.pages*4096 ≤ 2^52)
    (hapart : (mapCalls (decode map map.mmap (fixVirtualAddresses map virtualOffset mem))).Pairwise
      (fun a b => ¬ SamePage a.2 b.2))
    (hstack : 4096 ∣ st.addr ∧ 0 < st.pages ∧ st.addr+st.pages*4096 ≤ 2^52)
    (hpml4 : (allocatePageAndZero ⟨m, st⟩).1 ≠ 0)
    (hserved : Served (allocatePageAndZero ⟨m, st⟩).1
      (mapCalls (decode map map.mmap (fixVirtualAddresses map virtualOffset mem)))
      (allocatePageAndZero ⟨m, st⟩).2) :
    let ds := decode map map.mmap (fixVirtualAddresses map virtualOffset mem)
    let pml4 := (allocatePageAndZero ⟨m, st⟩).1
    let s := mapMemoryMapToVirtualMemory map (fixVirtualAddresses map virtualOffset mem) pml4
      (allocatePageAndZero ⟨m, st⟩).2
    (∀ d ∈ ds, ∀ k < d.pages,
      (∃ e, walk 0 s.mem pml4 ((d.virtAddr+k*4096) % 2^64) = some e ∧
        address e*4096 = d.physAddr+k*4096 ∧ present e = true ∧ writeable e = true) ∧
      hwWalk 0 s.mem pml4 ((d.virtAddr+k*4096) % 2^64) =
        .page (d.physAddr/4096+k) true false false) ∧
    (∀ va, (∀ d ∈ ds, ∀ k < d.pages, ¬ SamePage va (d.virtAddr+k*4096)) →
      walk 0 s.mem pml4 va = none) ∧
    TableTree 0 pml4 s.mem ∧
    ∀ t, InTree 0 pml4 s.mem t ↔ st.addr ≤ t ∧ t < s.stack.addr ∧ 4096 ∣ t := by
  intro ds pml4 s
  obtain ⟨haligned, hpos, hb⟩ := hstack
  have hst : st = stackAt st.addr st.pages 0 := by simp [stackAt]
  obtain ⟨halloc, hone⟩ := allocatePage_at hb hpos (by rw [← hst]; exact hpml4)
  rw [← hst, Nat.zero_mul, Nat.add_zero] at halloc
  have hp : allocatePageAndZero ⟨m, st⟩ =
      (st.addr, ⟨fill m st.addr 0, stackAt st.addr st.pages 1⟩) := by
    have hne : st.addr ≠ 0 := by
      intro h0
      apply hpml4
      rw [allocatePageAndZero, halloc]
      exact h0
    simp only [allocatePageAndZero, halloc, if_neg hne]
  have hpml : pml4 = st.addr := congrArg Prod.fst hp
  have hroot : virt 0 st.addr = st.addr := virt_zero (by omega)
  rw [hp] at hserved
  obtain ⟨h, hrun, htaken, hB⟩ := built_run hb [] (mapCalls ds) _ 1 hone
    (built_empty hb haligned (fun i => by rw [hroot, fill_same]) hpos) (by simp) hapart hserved
  have hs : s = ⟨h.mem, stackAt st.addr st.pages h.taken⟩ := by
    show mapDescriptors pml4 ds (allocatePageAndZero ⟨m, st⟩).2 = _
    rw [mapDescriptors_eq, hpml, hp]
    exact hrun
  rw [List.nil_append] at hB
  rw [hs, hpml]
  refine ⟨?_, ?_, hB.tree, ?_⟩
  · intro d hd k hk
    have hc : ((d.physAddr+k*4096) % 2^64, (d.virtAddr+k*4096) % 2^64) ∈ mapCalls ds :=
      (mem_mapCalls ds _).mpr ⟨d, hd, k, hk, rfl⟩
    obtain ⟨hda, hdb⟩ := hphys d hd
    have hk' := Nat.mul_lt_mul_of_pos_right hk (show 0 < 4096 by decide)
    have hsmall : (d.physAddr+k*4096) % 2^64 = d.physAddr+k*4096 := Nat.mod_eq_of_lt (by omega)
    rw [hsmall] at hc
    have hlt : d.physAddr+k*4096 < 2^52 := by omega
    have hframe : (d.physAddr+k*4096)/4096 = d.physAddr/4096+k :=
      Nat.add_mul_div_right _ _ (by decide)
    have hhw := hB.hwWalk_eq hc hlt
    rw [hframe] at hhw
    exact ⟨hB.page hc hlt (by omega), hhw⟩
  · intro va hva
    apply hB.others va
    intro c hc hsame
    obtain ⟨d, hd, k, hk, rfl⟩ := (mem_mapCalls ds c).mp hc
    exact hva d hd k hk ((samePage_wrap va _).mp hsame)
  · intro t
    rw [hB.tables t]
    show _ ↔ st.addr ≤ t ∧ t < st.addr+h.taken*4096 ∧ 4096 ∣ t
    constructor
    · rintro ⟨a, ha, rfl⟩
      have := Nat.mul_lt_mul_of_pos_right ha (show 0 < 4096 by decide)
      refine ⟨by omega, by omega, by omega⟩
    · rintro ⟨h1, h2, h3⟩
      refine ⟨(t-st.addr)/4096, ?_, ?_⟩
      · rw [Nat.div_lt_iff_lt_mul (by decide)]
        omega
      · omega

section Small

def pageMap : MemoryMap := ⟨0x3000, 96, 96, 48⟩

/-- One page of conventional memory and two of runtime code. -/
def pageMemory : Memory := fun a =>
  if a = 0x3000 then ⟨conventional, 0, 0x5000, 0, 1, 15⟩
  else ⟨runtimeServicesCode, 0, 0x1ff000, 0, 2, 15⟩

/-- The second page of the runtime region lies behind a second page table. -/
theorem boot_tables_exact_small :
    hwWalk 0 (mapMemoryMapToVirtualMemory pageMap
      (fixVirtualAddresses pageMap 0xffff800000000000 pageMemory) 0x10000
      (allocatePageAndZero ⟨fun _ _ => 1, ⟨0x10000, 16⟩⟩).2).mem 0x10000 0x200000 =
      .page 0x200 true false false := by
  have h := boot_tables_exact pageMap pageMemory 0xffff800000000000 (fun _ _ => 1) ⟨0x10000, 16⟩
    (by decide +kernel) (by decide +kernel) (by decide) (by decide)
    ⟨by decide +kernel, by decide +kernel, by decide +kernel, trivial⟩
  exact (h.1 ⟨runtimeServicesCode, 0, 0x1ff000, 0x1ff000, 2, 15⟩ (by decide +kernel) 1
    (by decide)).2

end Small

end BruhOS.Boot
