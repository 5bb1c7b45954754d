import BruhOS.BootExhaust

/-!
# The framebuffer in the tables of the bootloader

The bytes of the framebuffer are counted from its dimensions and shifted to a
number of pages, and each of these pages is mapped to the page that lies
`virtualOffset` below it. The shift rounds down: the bytes behind the last
whole page keep the translation they had.
-/

set_option autoImplicit false

namespace BruhOS.Boot

open BruhOS.TableTree BruhOS.Paging

/-- The physical address that the tables give for a virtual one. -/
def translate (m : Tables) (Table va : ℕ) : Option ℕ :=
  (walk 0 m Table va).map (fun e => address e*4096+va % 4096)

/-- `fb->start - virtualOffset`. -/
def Framebuffer.phys (fb : Framebuffer) (virtualOffset : ℕ) : ℕ :=
  (fb.start+(2^64-virtualOffset)) % 2^64

/-- The arguments of the calls of `mapPages`. -/
def framebufferCalls (fb : Framebuffer) (virtualOffset : ℕ) : List (ℕ × ℕ) :=
  (List.range' 0 ((fb.x*fb.y % 2^64*4 % 2^64) >>> 12)).map (fun k =>
    (((fb.start+(2^64-virtualOffset)) % 2^64+k*4096) % 2^64, (fb.start+k*4096) % 2^64))

/-- Every byte of the framebuffer translates to its physical address, and the other pages are
left alone. -/
structure MapsFramebuffer (fb : Framebuffer) (virtualOffset Table : ℕ) (m m' : Tables) : Prop where
  bytes : ∀ d < fb.x*fb.y*4, translate m' Table ((fb.start+d) % 2^64) =
    some ((fb.phys virtualOffset+d) % 2^64)
  others : ∀ va, (∀ d < fb.x*fb.y*4, ¬ SamePage va ((fb.start+d) % 2^64)) →
    walk 0 m' Table va = walk 0 m Table va

section Run

variable {base pages Table : ℕ} {m : Tables} {j : ℕ}

theorem call_walk (hb : base+pages*4096 ≤ 2^52) (h0 : 0 < base) (hT : Table < 2^64)
    (hr : Ready base pages Table m j) (c : ℕ × ℕ) (hk : Room Table c ⟨m, stackAt base pages j⟩)
    (x : ℕ) : walk 0 (mapPages Table c.1 c.2 ⟨m, stackAt base pages j⟩).mem Table x =
      if SamePage x c.2 then some (bootEntry c.1) else walk 0 m Table x := by
  have hroot : virt 0 Table = Table := virt_zero hT
  have hwalk := assign_walk (p := c.1) (room_assigns hb h0 hT hr c hk) x
  rw [(mapPages_room hb h0 hT hr c hk).1]
  unfold walk at hwalk ⊢
  rw [hroot] at hwalk ⊢
  exact hwalk

/-- A run leaves the pages alone that none of its calls maps. -/
theorem run_walk_other (hb : base+pages*4096 ≤ 2^52) (h0 : 0 < base) (hT : Table < 2^64)
    (cs : List (ℕ × ℕ)) (hr : Ready base pages Table m j)
    (hroom : RoomRun Table cs ⟨m, stackAt base pages j⟩) {x : ℕ}
    (hx : ∀ c ∈ cs, ¬ SamePage x c.2) :
    walk 0 (runCalls Table cs ⟨m, stackAt base pages j⟩).mem Table x = walk 0 m Table x := by
  induction cs generalizing m j with
  | nil => rfl
  | cons c cs ih =>
    obtain ⟨hcall, hrest⟩ := hroom
    obtain ⟨m', heq, hr', -⟩ := ready_call hb h0 hT hr c hcall
    have hwalk := call_walk hb h0 hT hr c hcall x
    rw [if_neg (hx c List.mem_cons_self), heq] at hwalk
    rw [heq] at hrest
    rw [runCalls, heq, ih hr' hrest (fun d hd => hx d (List.mem_cons_of_mem _ hd)), hwalk]

/-- Each page that a run maps once has the entry of its call. -/
theorem run_walk_page (hb : base+pages*4096 ≤ 2^52) (h0 : 0 < base) (hT : Table < 2^64)
    (cs : List (ℕ × ℕ)) (hr : Ready base pages Table m j)
    (hroom : RoomRun Table cs ⟨m, stackAt base pages j⟩)
    (hcs : cs.Pairwise (fun a b => ¬ SamePage a.2 b.2)) {c : ℕ × ℕ} (hc : c ∈ cs) :
    walk 0 (runCalls Table cs ⟨m, stackAt base pages j⟩).mem Table c.2 =
      some (bootEntry c.1) := by
  induction cs generalizing m j with
  | nil => cases hc
  | cons d cs ih =>
    obtain ⟨hcall, hrest⟩ := hroom
    obtain ⟨m', heq, hr', -⟩ := ready_call hb h0 hT hr d hcall
    rw [List.pairwise_cons] at hcs
    rw [heq] at hrest
    rw [runCalls, heq]
    rcases List.mem_cons.mp hc with rfl | hc
    · have hwalk := call_walk hb h0 hT hr c hcall c.2
      rw [if_pos (SamePage.refl c.2), heq] at hwalk
      rw [run_walk_other hb h0 hT cs hr' hrest hcs.1, hwalk]
    · exact ih hr' hrest hcs.2 hc

end Run

section Pages

theorem address_lt (e : ℕ) : address e < 2^40 := Nat.mod_lt _ (by decide)

/-- Within a page the translation keeps the offset. -/
theorem translate_page {m : Tables} {Table va page : ℕ} (hs : SamePage va page)
    (hp : page % 4096 = 0) :
    translate m Table va = (translate m Table page).map (fun p => p+va % 4096) := by
  rw [translate, translate, walk_congr hs, Option.map_map]
  refine congrArg (fun f => Option.map f _) (funext (fun e => ?_))
  simp [hp]

theorem translate_bound {m : Tables} {Table va p : ℕ} (h : translate m Table va = some p) :
    p < 2^52 ∧ p % 4096 = va % 4096 := by
  rw [translate, Option.map_eq_some_iff] at h
  obtain ⟨e, -, rfl⟩ := h
  have he := address_lt e
  omega

variable {fb : Framebuffer} {virtualOffset : ℕ}

/-- The number of calls is that of the whole pages. -/
theorem framebuffer_pages (hx : fb.x < 2^16) (hy : fb.y < 2^16) :
    (fb.x*fb.y % 2^64*4 % 2^64) >>> 12 = fb.x*fb.y/1024 ∧ fb.x*fb.y < 2^32 := by
  have hxy : fb.x*fb.y < 2^16*2^16 := Nat.mul_lt_mul_of_lt_of_le hx hy.le (by decide)
  rw [Nat.shiftRight_eq_div_pow]
  omega

theorem mem_framebufferCalls (hx : fb.x < 2^16) (hy : fb.y < 2^16) (c : ℕ × ℕ) :
    c ∈ framebufferCalls fb virtualOffset ↔ ∃ k < fb.x*fb.y/1024,
      c = ((fb.phys virtualOffset+k*4096) % 2^64, (fb.start+k*4096) % 2^64) := by
  rw [framebufferCalls, (framebuffer_pages hx hy).1, List.mem_map]
  constructor
  · rintro ⟨k, hk, rfl⟩
    rw [List.mem_range'_1] at hk
    exact ⟨k, by omega, rfl⟩
  · rintro ⟨k, hk, rfl⟩
    exact ⟨k, List.mem_range'_1.mpr (by omega), rfl⟩

theorem framebufferCalls_distinct (hx : fb.x < 2^16) (hy : fb.y < 2^16) :
    (framebufferCalls fb virtualOffset).Pairwise (fun a b => ¬ SamePage a.2 b.2) := by
  obtain ⟨hn, hxy⟩ := framebuffer_pages hx hy
  rw [framebufferCalls, hn, List.pairwise_map]
  refine (List.pairwise_lt_range' (s := 0) (n := fb.x*fb.y/1024)).imp_of_mem ?_
  intro k l hk hl hkl
  rw [List.mem_range'_1] at hk hl
  rw [SamePage]
  omega

end Pages

section Mapped

variable {fb : Framebuffer} {virtualOffset Table : ℕ} {m m' : Tables}

/-- The pages of the framebuffer after the calls: the whole ones mapped, everything else as before. -/
structure WholePages (fb : Framebuffer) (virtualOffset Table : ℕ) (m m' : Tables) : Prop where
  mapped : ∀ k < fb.x*fb.y/1024, walk 0 m' Table ((fb.start+k*4096) % 2^64) =
    some (bootEntry ((fb.phys virtualOffset+k*4096) % 2^64))
  rest : ∀ va, (∀ k < fb.x*fb.y/1024, ¬ SamePage va ((fb.start+k*4096) % 2^64)) →
    walk 0 m' Table va = walk 0 m Table va

/-- The page of a byte. -/
theorem samePage_byte (hstart : 4096 ∣ fb.start) (d : ℕ) :
    SamePage ((fb.start+d) % 2^64) ((fb.start+d/4096*4096) % 2^64) ∧
      (fb.start+d/4096*4096) % 2^64 % 4096 = 0 ∧ (fb.start+d) % 2^64 % 4096 = d % 4096 := by
  rw [SamePage]
  omega

/-- The page behind the whole pages is none of them. -/
theorem not_samePage_whole (hxy : fb.x*fb.y < 2^32) {k : ℕ} (hk : k < fb.x*fb.y/1024) :
    ¬ SamePage ((fb.start+fb.x*fb.y/1024*4096) % 2^64) ((fb.start+k*4096) % 2^64) := by
  rw [SamePage]
  omega

/-- A byte of a whole page translates to its physical address. -/
theorem WholePages.translate_whole (hW : WholePages fb virtualOffset Table m m')
    (hstart : 4096 ∣ fb.start) (hphys : 4096 ∣ fb.phys virtualOffset)
    (hrange : fb.phys virtualOffset+fb.x*fb.y*4 ≤ 2^52) {d : ℕ}
    (hd : d/4096 < fb.x*fb.y/1024) :
    translate m' Table ((fb.start+d) % 2^64) = some ((fb.phys virtualOffset+d) % 2^64) := by
  obtain ⟨hsame, hpage, hoff⟩ := samePage_byte hstart d
  have hframe : (fb.phys virtualOffset+d/4096*4096) % 2^64 < 2^52 := by omega
  rw [translate_page hsame hpage, hoff, translate, hW.mapped _ hd, Option.map_some,
    Option.map_some, address_bootEntry hframe, hpage]
  congr 1
  omega

/-- The bytes behind the whole pages translate as they did. -/
theorem WholePages.translate_rest (hW : WholePages fb virtualOffset Table m m')
    (hxy : fb.x*fb.y < 2^32) (hstart : 4096 ∣ fb.start) {d : ℕ} (hd : d/4096 = fb.x*fb.y/1024) :
    translate m' Table ((fb.start+d) % 2^64) =
      (translate m Table ((fb.start+fb.x*fb.y/1024*4096) % 2^64)).map (fun p => p+d % 4096) := by
  obtain ⟨hsame, hpage, hoff⟩ := samePage_byte hstart d
  rw [translate_page hsame hpage, hoff, hd]
  congr 1
  rw [translate, translate, hW.rest _ (fun k hk => not_samePage_whole hxy hk)]

/-- All bytes are mapped exactly when the physical range is one of whole frames and the page
behind the whole pages, if a part of it is covered, was mapped before. -/
theorem WholePages.maps_iff (hW : WholePages fb virtualOffset Table m m')
    (hxy : fb.x*fb.y < 2^32) (hstart : 4096 ∣ fb.start) :
    MapsFramebuffer fb virtualOffset Table m m' ↔ fb.x*fb.y = 0 ∨
      (4096 ∣ fb.phys virtualOffset ∧ fb.phys virtualOffset+fb.x*fb.y*4 ≤ 2^52 ∧
        (fb.x*fb.y % 1024 = 0 ∨
          translate m Table ((fb.start+fb.x*fb.y/1024*4096) % 2^64) =
            some (fb.phys virtualOffset+fb.x*fb.y/1024*4096))) := by
  have hlt : fb.phys virtualOffset < 2^64 := Nat.mod_lt _ (by decide)
  constructor
  · intro hM
    by_cases hz : fb.x*fb.y = 0
    · exact Or.inl hz
    · right
      have hbound : ∀ d < fb.x*fb.y*4, (fb.phys virtualOffset+d) % 2^64 < 2^52 ∧
          (fb.phys virtualOffset+d) % 2^64 % 4096 = (fb.start+d) % 2^64 % 4096 :=
        fun d hd => translate_bound (hM.bytes d hd)
      obtain ⟨hfirst, haligned⟩ := hbound 0 (by omega)
      have hrange : fb.phys virtualOffset+fb.x*fb.y*4 ≤ 2^52 := by
        by_contra hover
        have hlast := (hbound (2^52-fb.phys virtualOffset) (by omega)).1
        omega
      refine ⟨by omega, hrange, ?_⟩
      by_cases hpart : fb.x*fb.y % 1024 = 0
      · exact Or.inl hpart
      · right
        have hlast := hM.bytes (fb.x*fb.y/1024*4096) (by omega)
        have hrest := hW.translate_rest hxy hstart (d := fb.x*fb.y/1024*4096) (by omega)
        rw [hrest, Option.map_eq_some_iff] at hlast
        obtain ⟨p, hp, hval⟩ := hlast
        rw [hp]
        congr 1
        omega
  · intro hcond
    constructor
    · intro d hd
      rcases hcond with hz | ⟨hphys, hrange, hpart⟩
      · omega
      · by_cases hwhole : d/4096 < fb.x*fb.y/1024
        · exact hW.translate_whole hstart hphys hrange hwhole
        · have hbehind : d/4096 = fb.x*fb.y/1024 := by omega
          have hold := hpart.resolve_left (by omega)
          rw [hW.translate_rest hxy hstart hbehind, hold, Option.map_some]
          congr 1
          omega
    · intro va hva
      exact hW.rest va (fun k hk => hva (k*4096) (by omega))

theorem mapFramebuffer_calls (s : BootState) :
    runCalls Table (framebufferCalls fb virtualOffset) s =
      mapFramebufferToVirtualMemory fb virtualOffset Table s := by
  rw [mapFramebuffer_eq, framebufferCalls]

/-- A run with room maps the whole pages. -/
theorem wholePages_run (hx : fb.x < 2^16) (hy : fb.y < 2^16) {base pages : ℕ}
    (hb : base+pages*4096 ≤ 2^52) (h0 : 0 < base) (hT : Table < 2^64)
    (hr : Ready base pages Table m 0)
    (hroom : RoomRun Table (framebufferCalls fb virtualOffset) ⟨m, stackAt base pages 0⟩)
    {s : BootState}
    (hs : runCalls Table (framebufferCalls fb virtualOffset) ⟨m, stackAt base pages 0⟩ = s) :
    WholePages fb virtualOffset Table m s.mem := by
  subst hs
  constructor
  · intro k hk
    exact run_walk_page hb h0 hT _ hr hroom (framebufferCalls_distinct hx hy)
      (c := ((fb.phys virtualOffset+k*4096) % 2^64, (fb.start+k*4096) % 2^64))
      ((mem_framebufferCalls hx hy _).mpr ⟨k, hk, rfl⟩)
  · intro va hva
    refine run_walk_other hb h0 hT _ hr hroom ?_
    intro c hc
    obtain ⟨k, hk, rfl⟩ := (mem_framebufferCalls hx hy c).mp hc
    exact hva k hk

end Mapped

/-- With room on the stack the whole framebuffer is mapped exactly when it has no pixel, or its
bytes have physical addresses and the partial last page, if there is one, was mapped before. -/
theorem framebuffer_mapped_iff (fb : Framebuffer) (virtualOffset Table : ℕ) (m : Tables)
    (st : PageStack) (hx : fb.x < 2^16) (hy : fb.y < 2^16) (hstart : 4096 ∣ fb.start)
    (hT : Table < 2^64) (htree : TableTree 0 Table m) (hnull : ∀ t, InTree 0 Table m t → t ≠ 0)
    (hapart : ∀ t, InTree 0 Table m t → ∀ a < st.pages, st.addr+a*4096 ≠ t)
    (hst : 4096 ∣ st.addr ∧ 0 < st.addr ∧ st.addr+st.pages*4096 ≤ 2^52)
    (hroom : RoomRun Table (framebufferCalls fb virtualOffset) ⟨m, st⟩) :
    MapsFramebuffer fb virtualOffset Table m
      (mapFramebufferToVirtualMemory fb virtualOffset Table ⟨m, st⟩).mem ↔ fb.x*fb.y = 0 ∨
      (4096 ∣ fb.phys virtualOffset ∧ fb.phys virtualOffset+fb.x*fb.y*4 ≤ 2^52 ∧
        (fb.x*fb.y % 1024 = 0 ∨
          translate m Table ((fb.start+fb.x*fb.y/1024*4096) % 2^64) =
            some (fb.phys virtualOffset+fb.x*fb.y/1024*4096))) := by
  obtain ⟨haligned, h0, hb⟩ := hst
  have hstack : st = stackAt st.addr st.pages 0 := by simp [stackAt]
  have hr := ready_start htree hnull hapart haligned hb
  have hrun : runCalls Table (framebufferCalls fb virtualOffset) ⟨m, st⟩ =
    mapFramebufferToVirtualMemory fb virtualOffset Table ⟨m, st⟩ := mapFramebuffer_calls _
  generalize mapFramebufferToVirtualMemory fb virtualOffset Table ⟨m, st⟩ = s at hrun ⊢
  rw [hstack] at hroom hrun
  exact (wholePages_run hx hy hb h0 hT hr hroom hrun).maps_iff (framebuffer_pages hx hy).2 hstart

section Small

/-- A framebuffer of `32*y` pixels at physical 0x80000000. -/
def smallFramebuffer (y : ℕ) : Framebuffer := ⟨0xffff800080000000, 32, y⟩

/-- A page and a half: the first byte of the second page is not mapped. -/
theorem framebuffer_half_page :
    TableTree 0 0x1000 emptyTables ∧ (∀ t, InTree 0 0x1000 emptyTables t → t = 0x1000) ∧
    RoomRun 0x1000 (framebufferCalls (smallFramebuffer 48) 0xffff800000000000)
      ⟨emptyTables, smallStack 8⟩ ∧
    translate (mapFramebufferToVirtualMemory (smallFramebuffer 48) 0xffff800000000000 0x1000
      ⟨emptyTables, smallStack 8⟩).mem 0x1000 0xffff800080001000 = none ∧
    ¬ MapsFramebuffer (smallFramebuffer 48) 0xffff800000000000 0x1000 emptyTables
      (mapFramebufferToVirtualMemory (smallFramebuffer 48) 0xffff800000000000 0x1000
        ⟨emptyTables, smallStack 8⟩).mem := by
  have hnone : translate (mapFramebufferToVirtualMemory (smallFramebuffer 48) 0xffff800000000000
      0x1000 ⟨emptyTables, smallStack 8⟩).mem 0x1000 0xffff800080001000 = none := by decide
  refine ⟨tableTree_empty (fun _ => rfl), fun t ht => inTree_empty ht,
    ⟨Or.inr (by decide), trivial⟩, hnone, ?_⟩
  intro hM
  have hbyte := hM.bytes 4096 (by decide)
  have haddr : ((smallFramebuffer 48).start+4096) % 2^64 = 0xffff800080001000 := by decide
  rw [haddr, hnone] at hbyte
  cases hbyte

/-- A single page. -/
theorem framebuffer_page :
    MapsFramebuffer (smallFramebuffer 32) 0xffff800000000000 0x1000 emptyTables
      (mapFramebufferToVirtualMemory (smallFramebuffer 32) 0xffff800000000000 0x1000
        ⟨emptyTables, smallStack 8⟩).mem := by
  refine (framebuffer_mapped_iff (smallFramebuffer 32) 0xffff800000000000 0x1000 emptyTables
    (smallStack 8) (by decide) (by decide) (by decide) (by decide)
    (tableTree_empty (fun _ => rfl)) ?_ ?_ ⟨by decide, by decide, by decide⟩
    ⟨Or.inr (by decide), trivial⟩).mpr (Or.inr ⟨by decide, by decide, Or.inl (by decide)⟩)
  · intro t ht
    rw [inTree_empty ht]
    decide
  · intro t ht a _
    rw [inTree_empty ht]
    show 0x2000+a*4096 ≠ 0x1000
    omega

end Small

end BruhOS.Boot
