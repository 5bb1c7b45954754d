import BruhOS.PfaDerive

/-!
# What `pfa_init` hands out, what it loses and when its arrays overflow

The carve-out moves the start of the chosen region by the size of the metadata
but keeps its length, so the zones derived from it reach past its old end by as
many bytes. The number of allocators comes from the sum of the page counts, the
window of a zone from its address. The three results give, in terms of the map
alone, when the zones passed on are free memory, when no free page is lost, and
when the two arrays are large enough and fully written.
-/

set_option autoImplicit false

namespace BruhOS.PfaCoverage
open BruhOS.BuddyMachine BruhOS.BuddySafety BruhOS.PfaInit BruhOS.PfaZones BruhOS.PfaDerive

/-- The entries of `freeZones` that a free region ends up as. -/
def regionPieces (n : ℕ) (z : MemZone) : ℕ :=
  if z.mem < lowLimit then if Crosses z then pieces n (rightOf z lowLimit) else 0
  else pieces n z

def freeRegions (map : List Descriptor) : List MemZone :=
  (map.filter Descriptor.regionFree).map Descriptor.zone

def lowRegions (map : List Descriptor) : List MemZone :=
  (map.filter (fun d => d.regionFree && d.low)).map Descriptor.zone

/-- The entries that all free regions of the carved map end up as. -/
def entriesNeeded (map pre : List Descriptor) : ℕ :=
  ((freeRegions (carved map pre.length)).map (regionPieces (totalAllocators map))).sum

section Lists

variable {n : ℕ}

theorem lowZones_eq (C : List Descriptor)
    (h : (C.drop (C.takeWhile Descriptor.low).length).countP
      (fun d => d.regionFree && d.low) = 0) : lowZones C = lowRegions C := by
  induction C with
  | nil => rfl
  | cons d C ih =>
    by_cases hl : d.low = true
    · rw [List.takeWhile_cons_of_pos hl, List.length_cons, List.drop_succ_cons] at h
      have hC := ih h
      cases hd : d.regionFree with
      | false => simpa [lowZones, lowRegions, hl, hd] using hC
      | true => simpa [lowZones, lowRegions, hl, hd] using hC
    · rw [List.takeWhile_cons_of_neg hl, List.length_nil, List.drop_zero] at h
      have hnil : (d::C).filter (fun d => d.regionFree && d.low) = [] := by
        rw [List.filter_eq_nil_iff]
        exact List.countP_eq_zero.mp h
      rw [lowRegions, hnil, lowZones, List.takeWhile_cons_of_neg hl]
      rfl

theorem zone_low_iff (d : Descriptor) : d.low = true ↔ d.zone.mem < lowLimit := by
  rw [low_iff, zone_mem]

theorem totalPieces_append (xs ys : List MemZone) :
    totalPieces n (xs++ys) = totalPieces n xs+totalPieces n ys := by
  simp [totalPieces]

theorem totalPieces_regions (C : List Descriptor) :
    totalPieces n (highZones C)+totalPieces n (spill (lowRegions C)) =
      ((freeRegions C).map (regionPieces n)).sum := by
  induction C with
  | nil => rfl
  | cons d C ih =>
    cases hd : d.regionFree with
    | false => simpa [highZones, lowRegions, freeRegions, hd] using ih
    | true =>
      have hfree : freeRegions (d::C) = d.zone::freeRegions C := by simp [freeRegions, hd]
      rw [hfree, List.map_cons, List.sum_cons, ← ih]
      by_cases hl : d.low = true
      · have hmem := (zone_low_iff d).mp hl
        have hhigh : highZones (d::C) = highZones C := by simp [highZones, hd, hl]
        have hlow : lowRegions (d::C) = d.zone::lowRegions C := by simp [lowRegions, hd, hl]
        rw [hhigh, hlow, regionPieces, if_pos hmem]
        by_cases hc : Crosses d.zone
        · have hs : spill (d.zone::lowRegions C) =
              rightOf d.zone lowLimit::spill (lowRegions C) := by simp [spill, hc]
          rw [hs, if_pos hc]
          simp only [totalPieces, List.map_cons, List.sum_cons]
          omega
        · have hs : spill (d.zone::lowRegions C) = spill (lowRegions C) := by simp [spill, hc]
          rw [hs, if_neg hc, Nat.zero_add]
      · have hmem := mt (zone_low_iff d).mpr hl
        have hhigh : highZones (d::C) = d.zone::highZones C := by simp [highZones, hd, hl]
        have hlow : lowRegions (d::C) = lowRegions C := by simp [lowRegions, hl]
        rw [hhigh, hlow, regionPieces, if_neg hmem]
        simp only [totalPieces, List.map_cons, List.sum_cons]
        omega

theorem trim_holds {z : MemZone} (hz : ZoneOk z) (hlow : z.mem < lowLimit) (a : ℕ) :
    (if ZoneHolds z a then 1 else 0) = (if ZoneHolds (trim z) a then 1 else 0)+
      (if Crosses z then if ZoneHolds (rightOf z lowLimit) a then 1 else 0 else 0) := by
  by_cases hc : Crosses z
  · rw [trim, if_pos hc, if_pos hc]
    exact cut_holds hz (by decide) ⟨hlow, hc⟩ a
  · rw [trim, if_neg hc, if_neg hc, Nat.add_zero]

/-- Cutting at 4 MiB keeps the number of zones a byte lies in. -/
theorem count_regions (C : List Descriptor) (hok : ∀ e ∈ C, ZoneOk e.zone) (a : ℕ) :
    (highZones C++spill (lowRegions C)).countP (fun z => ZoneHolds z a)+
      ((lowRegions C).map trim).countP (fun z => ZoneHolds z a) =
      (freeRegions C).countP (fun z => ZoneHolds z a) := by
  induction C with
  | nil => rfl
  | cons d C ih =>
    have hC := ih (fun e he => hok e (List.mem_cons_of_mem d he))
    rw [List.countP_append] at hC ⊢
    cases hd : d.regionFree with
    | false => simpa [highZones, lowRegions, freeRegions, hd] using hC
    | true =>
      have hfree : freeRegions (d::C) = d.zone::freeRegions C := by simp [freeRegions, hd]
      rw [hfree, List.countP_cons, ← hC]
      by_cases hl : d.low = true
      · have hmem := (zone_low_iff d).mp hl
        have hhigh : highZones (d::C) = highZones C := by simp [highZones, hd, hl]
        have hlow : lowRegions (d::C) = d.zone::lowRegions C := by simp [lowRegions, hd, hl]
        have htrim := trim_holds (hok d (by simp)) hmem a
        rw [hhigh, hlow, List.map_cons, List.countP_cons]
        by_cases hc : Crosses d.zone
        · have hs : spill (d.zone::lowRegions C) =
              rightOf d.zone lowLimit::spill (lowRegions C) := by simp [spill, hc]
          rw [if_pos hc] at htrim
          rw [hs, List.countP_cons]
          simp only [decide_eq_true_eq]
          omega
        · have hs : spill (d.zone::lowRegions C) = spill (lowRegions C) := by simp [spill, hc]
          rw [if_neg hc] at htrim
          rw [hs]
          simp only [decide_eq_true_eq]
          omega
      · have hhigh : highZones (d::C) = d.zone::highZones C := by simp [highZones, hd, hl]
        have hlow : lowRegions (d::C) = lowRegions C := by simp [lowRegions, hl]
        rw [hhigh, hlow, List.countP_cons]
        omega

end Lists

def FreeByte (map : List Descriptor) (a : ℕ) : Prop :=
  ∃ e ∈ map, e.regionFree = true ∧ Descriptor.Holds e a

/-- The pages that hold the allocators. -/
def InCarve (map : List Descriptor) (d : Descriptor) (a : ℕ) : Prop :=
  d.physAddr ≤ a ∧ a < d.physAddr+totalAllocatorMem map*2^12

/-- The bytes after the end of the chosen region that its zones still cover. -/
def InTail (map : List Descriptor) (d : Descriptor) (a : ℕ) : Prop :=
  d.physAddr+d.pages*2^12 ≤ a ∧ a < d.physAddr+d.pages*2^12+totalAllocatorMem map*2^12

section Reached

variable {map pre post : List Descriptor} {d : Descriptor}

theorem under4MiB_carved (hm : MapOk map) (h : Chosen map pre d post) :
    under4MiB (carved map pre.length) ≤ under4MiB map := by
  have haddr := carve_address hm h
  rw [carved_eq h]
  generalize totalAllocatorMem map = mem at haddr
  rw [h.split, under4MiB, under4MiB, List.countP_append, List.countP_append, List.countP_cons,
    List.countP_cons, carve_regionFree]
  have hlow : (carve mem d).low = true → d.low = true := by
    rw [low_iff, low_iff]
    omega
  cases h1 : (carve mem d).low with
  | false =>
    rw [Bool.and_false, if_neg Bool.false_ne_true]
    omega
  | true => rw [hlow h1]

theorem reached_lowZones (hm : MapOk map) (h : Chosen map pre d post) (hr : LowReached map pre) :
    lowZones (carved map pre.length) = lowRegions (carved map pre.length) := by
  have h1 := (lowReached_iff hm h).mp hr
  have h2 := lowZones_carved hm h
  have h3 := under4MiB_carved hm h
  have h4 := lowZones_length
    (List.forall₂_same.mpr (fun x (_ : x ∈ carved map pre.length) => ⟨rfl, id⟩))
  apply lowZones_eq
  omega

theorem reached_pieces (hm : MapOk map) (h : Chosen map pre d post) (hr : LowReached map pre) :
    totalPieces (totalAllocators map) (startZones (carved map pre.length)) =
      entriesNeeded map pre := by
  rw [startZones, reached_lowZones hm h hr, totalPieces_append, totalPieces_regions]
  rfl

end Reached

/-- The zones `pfa_init` derives when nothing goes wrong. -/
structure Derived (map pre : List Descriptor) (h : Handover) : Prop where
  allocators : h.totalAllocators = totalAllocators map
  count : ∀ a, h.freeZones.countP (fun z => ZoneHolds z a)+
    h.lowMemZones.countP (fun z => ZoneHolds z a) =
    (freeRegions (carved map pre.length)).countP (fun z => ZoneHolds z a)
  whole : ∀ z ∈ h.freeZones, ∀ j ≤ totalAllocators map, ¬ Inside z (memBoundary j)
  ok : ∀ z ∈ h.freeZones, ZoneOk z
  origin : ∀ z ∈ h.freeZones, lowLimit ≤ z.mem ∧ ∃ e ∈ carved map pre.length,
    e.regionFree = true ∧ e.physAddr ≤ z.mem ∧
    z.mem+z.pages*2^12 ≤ e.physAddr+e.pages*2^12 ∧
    (z.mem = e.physAddr ∨ z.mem = lowLimit ∨ ∃ j ≤ totalAllocators map, z.mem = memBoundary j)
  low : ∀ z ∈ h.lowMemZones, z.mem%2^12 = 0 ∧ z.mem+z.pages*2^12 ≤ lowLimit ∧
    ∃ e ∈ carved map pre.length, e.regionFree = true ∧ e.physAddr = z.mem ∧
      z.mem+z.pages*2^12 ≤ e.physAddr+e.pages*2^12

section Outcome

variable {map pre post : List Descriptor} {d : Descriptor}

theorem start_origin {C : List Descriptor} (hok : ∀ e ∈ C, ZoneOk e.zone) {z : MemZone}
    (hz : z ∈ highZones C++spill (lowRegions C)) :
    lowLimit ≤ z.mem ∧ ∃ e ∈ C, e.regionFree = true ∧ e.physAddr ≤ z.mem ∧
      z.mem+z.pages*2^12 = e.physAddr+e.pages*2^12 ∧ (z.mem = e.physAddr ∨ z.mem = lowLimit) := by
  rcases List.mem_append.mp hz with hz | hz
  · obtain ⟨e, he, rfl⟩ := List.mem_map.mp hz
    obtain ⟨hC, hf⟩ := List.mem_filter.mp he
    rw [Bool.and_eq_true, Bool.not_eq_true', ← Bool.not_eq_true, low_iff] at hf
    rw [zone_mem, zone_pages]
    exact ⟨by omega, e, hC, hf.1, le_rfl, rfl, Or.inl rfl⟩
  · obtain ⟨y, hy, rfl⟩ := List.mem_map.mp hz
    obtain ⟨hy, hc⟩ := List.mem_filter.mp hy
    obtain ⟨e, he, rfl⟩ := List.mem_map.mp hy
    obtain ⟨hC, hf⟩ := List.mem_filter.mp he
    rw [Bool.and_eq_true, low_iff, ← zone_mem] at hf
    rw [decide_eq_true_iff] at hc
    have hend := rightOf_end (hok e hC) (by decide) ⟨hf.2, hc⟩
    rw [zone_mem, zone_pages] at hend
    rw [hend, rightOf_mem]
    rw [zone_mem] at hf
    exact ⟨le_rfl, e, hC, hf.1, hf.2.le, rfl, Or.inr rfl⟩

theorem trim_origin {C : List Descriptor} (hok : ∀ e ∈ C, ZoneOk e.zone) {z : MemZone}
    (hz : z ∈ (lowRegions C).map trim) :
    z.mem%2^12 = 0 ∧ z.mem+z.pages*2^12 ≤ lowLimit ∧ ∃ e ∈ C, e.regionFree = true ∧
      e.physAddr = z.mem ∧ z.mem+z.pages*2^12 ≤ e.physAddr+e.pages*2^12 := by
  obtain ⟨y, hy, rfl⟩ := List.mem_map.mp hz
  obtain ⟨e, he, rfl⟩ := List.mem_map.mp hy
  obtain ⟨hC, hf⟩ := List.mem_filter.mp he
  have hz := hok e hC
  have hal := hz.aligned
  rw [Bool.and_eq_true, low_iff, ← zone_mem] at hf
  by_cases hc : Crosses e.zone
  · have hend := leftOf_end hz (by decide) ⟨hf.2, hc⟩
    have hlim : lowLimit < zoneEnd e.zone := hc
    rw [zoneEnd_eq hz, zone_mem, zone_pages] at hlim
    rw [trim, if_pos hc, hend, leftOf_mem]
    exact ⟨hal, le_rfl, e, hC, hf.1, (zone_mem e).symm, hlim.le⟩
  · have hlim : ¬ lowLimit < zoneEnd e.zone := hc
    rw [zoneEnd_eq hz] at hlim
    rw [trim, if_neg hc]
    refine ⟨hal, by omega, e, hC, hf.1, (zone_mem e).symm, ?_⟩
    rw [zone_mem, zone_pages]

theorem derived_of_pieces (hm : MapOk map) (h : Chosen map pre d post) {out : List MemZone}
    (hr : LowReached map pre)
    (hP : Pieces (totalAllocators map) (startZones (carved map pre.length)) out) :
    Derived map pre ⟨totalAllocators map, out, (lowZones (carved map pre.length)).map trim⟩ := by
  have hok : ∀ e ∈ carved map pre.length, ZoneOk e.zone := fun e he => zone_ok_of_mem hm h he
  rw [startZones] at hP
  rw [reached_lowZones hm h hr] at hP ⊢
  constructor
  · rfl
  · intro a
    show out.countP _+_ = _
    rw [hP.count a]
    exact count_regions _ hok a
  · exact hP.whole
  · exact hP.ok
  · intro z hz
    obtain ⟨z₀, hz₀, h1, h2, h3⟩ := hP.origin z hz
    obtain ⟨h4, e, he, hf, h5, h6, h7⟩ := start_origin hok hz₀
    refine ⟨by omega, e, he, hf, by omega, by omega, ?_⟩
    rcases h3 with h3 | h3
    · rcases h7 with h7 | h7
      · exact Or.inl (h3.trans h7)
      · exact Or.inr (Or.inl (h3.trans h7))
    · exact Or.inr (Or.inr h3)
  · intro z hz
    exact trim_origin hok hz

theorem derive_ok (hm : MapOk map) (h : Chosen map pre d post)
    (hn : totalAllocators map+1 < 2^16) (hr : LowReached map pre)
    (hfit : entriesNeeded map pre ≤ freeRegionCount map*2) (hword : entriesNeeded map pre < 2^16) :
    ∃ x, deriveZones map pre.length = .ok x ∧ Derived map pre x := by
  have hends := deriveZones_ends hm h hn
  rw [reached_pieces hm h hr] at hends
  obtain ⟨out, heq, hP⟩ := (hends.1 hfit hword).1 hr
  exact ⟨_, heq, derived_of_pieces hm h hr hP⟩

theorem derive_overflow (hm : MapOk map) (h : Chosen map pre d post)
    (hn : totalAllocators map+1 < 2^16) (hr : LowReached map pre)
    (hfit : freeRegionCount map*2 < entriesNeeded map pre) (hword : freeRegionCount map*2 < 2^16) :
    deriveZones map pre.length = .error .overflow := by
  have hends := deriveZones_ends hm h hn
  rw [reached_pieces hm h hr] at hends
  exact hends.2 hfit hword

theorem derive_unreached (hm : MapOk map) (h : Chosen map pre d post)
    (hn : totalAllocators map+1 < 2^16) (hr : ¬ LowReached map pre)
    (hword : freeRegionCount map*2 < 2^16) :
    deriveZones map pre.length = .error .overflow ∨
    deriveZones map pre.length = .error .indeterminate := by
  have hends := deriveZones_ends hm h hn
  by_cases hfit : freeRegionCount map*2 <
      totalPieces (totalAllocators map) (startZones (carved map pre.length))
  · exact Or.inl (hends.2 hfit hword)
  · exact Or.inr ((hends.1 (by omega) (by omega)).2 hr)

/-- A success needs every low region reached and room for every entry. -/
theorem fits_of_ok (hm : MapOk map) (h : Chosen map pre d post)
    (hlen : map.length+1 < 2^16) (hword : freeRegionCount map*2 < 2^16) {x : Handover}
    (hx : deriveZones map pre.length = .ok x) :
    totalAllocators map+1 < 2^16 ∧ LowReached map pre ∧
      entriesNeeded map pre ≤ freeRegionCount map*2 ∧ Derived map pre x := by
  have hn : totalAllocators map+1 < 2^16 := by
    by_contra hn
    rw [deriveZones_diverges hm h hlen (by omega)] at hx
    cases hx
  have hr : LowReached map pre := by
    by_contra hr
    rcases derive_unreached hm h hn hr hword with he | he
    · rw [he] at hx
      cases hx
    · rw [he] at hx
      cases hx
  have hfit : entriesNeeded map pre ≤ freeRegionCount map*2 := by
    by_contra hfit
    rw [derive_overflow hm h hn hr (by omega) hword] at hx
    cases hx
  obtain ⟨y, hy, hD⟩ := derive_ok hm h hn hr hfit (by omega)
  rw [hx] at hy
  rw [Except.ok.inj hy]
  exact ⟨hn, hr, hfit, hD⟩

end Outcome

section Bytes

variable {map pre post : List Descriptor} {d : Descriptor} {a : ℕ}

theorem carve_holds (hm : MapOk map) (h : Chosen map pre d post) :
    Descriptor.Holds (carve (totalAllocatorMem map) d) a ↔
      (Descriptor.Holds d a ∧ ¬ InCarve map d a) ∨ InTail map d a := by
  have h1 := carve_address hm h
  have h2 := h.large
  simp only [Descriptor.Holds, InCarve, InTail, h1, carve_pages]
  omega

theorem chosen_disjoint (hm : MapOk map) (h : Chosen map pre d post) {e : Descriptor}
    (he : e ∈ pre ∨ e ∈ post) : ¬ (Descriptor.Holds e a ∧ Descriptor.Holds d a) := by
  have hd := hm.disjoint
  rw [h.split, List.pairwise_append, List.pairwise_cons] at hd
  rcases he with he | he
  · exact hd.2.2 e he d (by simp) a
  · intro hboth
    exact hd.2.1.1 e he a ⟨hboth.2, hboth.1⟩

theorem inCarve_holds (h : Chosen map pre d post) (ha : InCarve map d a) :
    Descriptor.Holds d a := by
  have hle := Nat.mul_le_mul_right (2^12) h.large.le
  exact ⟨ha.1, ha.2.trans_le (Nat.add_le_add_left hle _)⟩

/-- A byte of a free region of the carved map is free and not carved, or it
lies past the end of the chosen region. -/
theorem region_byte (hm : MapOk map) (h : Chosen map pre d post) {e : Descriptor}
    (he : e ∈ carved map pre.length) (hf : e.regionFree = true) (ha : Descriptor.Holds e a) :
    (FreeByte map a ∧ ¬ InCarve map d a) ∨
      (e = carve (totalAllocatorMem map) d ∧ InTail map d a) := by
  have hmap : ∀ x, x ∈ pre ∨ x ∈ post → x ∈ map := by
    intro x hx
    rw [h.split]
    rcases hx with hx | hx
    · simp [hx]
    · simp [hx]
  have hside : e ∈ pre ∨ e ∈ post → FreeByte map a ∧ ¬ InCarve map d a := by
    intro hs
    refine ⟨⟨e, hmap e hs, hf, ha⟩, ?_⟩
    intro hc
    exact chosen_disjoint hm h hs ⟨ha, inCarve_holds h hc⟩
  rw [carved_eq h] at he
  rcases List.mem_append.mp he with he | he
  · exact Or.inl (hside (Or.inl he))
  · rcases List.mem_cons.mp he with rfl | he
    · rcases (carve_holds hm h).mp ha with ⟨h1, h2⟩ | h1
      · refine Or.inl ⟨⟨d, ?_, h.free, h1⟩, h2⟩
        rw [h.split]
        simp
      · exact Or.inr ⟨rfl, h1⟩
    · exact Or.inl (hside (Or.inr he))

theorem zone_holds {e : Descriptor} : ZoneHolds e.zone a ↔ Descriptor.Holds e a := by
  rw [ZoneHolds, zone_mem, zone_pages, Descriptor.Holds]

theorem freeRegions_count (C : List Descriptor) :
    (freeRegions C).countP (fun z => ZoneHolds z a) =
      C.countP (fun e => e.regionFree && decide (ZoneHolds e.zone a)) := by
  rw [freeRegions, List.countP_map, List.countP_filter]
  apply List.countP_congr
  intro e _
  simp [and_comm]

/-- A free byte lies in one free descriptor. -/
theorem free_count (hm : MapOk map) (ha : FreeByte map a) :
    map.countP (fun e => e.regionFree && decide (ZoneHolds e.zone a)) = 1 := by
  have hd := hm.disjoint
  obtain ⟨e, he, hf, hh⟩ := ha
  clear hm
  induction map with
  | nil => cases he
  | cons x map ih =>
    rw [List.pairwise_cons] at hd
    rw [List.countP_cons]
    rcases List.mem_cons.mp he with rfl | he
    · have hzero : map.countP (fun e => e.regionFree && decide (ZoneHolds e.zone a)) = 0 := by
        rw [List.countP_eq_zero]
        intro y hy
        rw [Bool.and_eq_true, decide_eq_true_iff, zone_holds]
        intro hboth
        exact hd.1 y hy a ⟨hh, hboth.2⟩
      rw [hzero, hf, decide_eq_true (zone_holds.mpr hh)]
      rfl
    · have hx : ¬ Descriptor.Holds x a := fun hx => hd.1 e he a ⟨hx, hh⟩
      rw [ih hd.2 he, decide_eq_false (mt zone_holds.mp hx), Bool.and_false]
      rfl

/-- A free byte that is not carved lies in one zone, or in two when it also
lies in the tail. -/
theorem carved_count (hm : MapOk map) (h : Chosen map pre d post) (ha : FreeByte map a)
    (hc : ¬ InCarve map d a) :
    (freeRegions (carved map pre.length)).countP (fun z => ZoneHolds z a) = 1 ↔
      ¬ InTail map d a := by
  have hone := free_count hm ha
  have hcarve := carve_holds (a := a) hm h
  have hfree : (carve (totalAllocatorMem map) d).regionFree = true := by
    rw [carve_regionFree, h.free]
  rw [freeRegions_count, carved_eq h, List.countP_append, List.countP_cons, hfree, Bool.true_and]
  rw [h.split, List.countP_append, List.countP_cons, h.free, Bool.true_and] at hone
  rw [← zone_holds] at hcarve
  have htail : InTail map d a → ¬ Descriptor.Holds d a := by
    intro ht hd
    exact absurd ht.1 (by have := hd.2; omega)
  by_cases hd : Descriptor.Holds d a
  · have h1 : ZoneHolds (carve (totalAllocatorMem map) d).zone a := hcarve.mpr (Or.inl ⟨hd, hc⟩)
    have h2 : ¬ InTail map d a := fun ht => htail ht hd
    rw [decide_eq_true (zone_holds.mpr hd)] at hone
    rw [decide_eq_true h1]
    exact ⟨fun _ => h2, fun _ => hone⟩
  · rw [decide_eq_false (mt zone_holds.mp hd)] at hone
    by_cases ht : InTail map d a
    · rw [decide_eq_true (hcarve.mpr (Or.inr ht))]
      rw [if_neg Bool.false_ne_true] at hone
      rw [if_pos rfl]
      constructor
      · intro htwo
        omega
      · intro hnot
        exact absurd ht hnot
    · have h1 : ¬ ZoneHolds (carve (totalAllocatorMem map) d).zone a := by
        rw [hcarve]
        rintro (h1 | h1)
        · exact hd h1.1
        · exact ht h1
      rw [decide_eq_false h1]
      exact ⟨fun _ => ht, fun _ => hone⟩

end Bytes

section Windows

variable {map pre post : List Descriptor} {d : Descriptor} {h : Handover} {z : MemZone} {a : ℕ}

theorem mapZoneToAllocator_eq (z : MemZone) :
    mapZoneToAllocator z = z.mem/managedMem%2^16 := by
  unfold mapZoneToAllocator managedMem
  omega

/-- A zone without a boundary inside starts in the window of its bytes. -/
theorem window_of_byte (hD : Derived map pre h) (hz : z ∈ h.freeZones) (ha : ZoneHolds z a) {j : ℕ}
    (hj : j ≤ totalAllocators map) (hle : memBoundary j ≤ a) : memBoundary j ≤ z.mem := by
  by_contra hlt
  apply hD.whole z hz j hj
  have hend := ha.2
  rw [Inside, zoneEnd_eq (hD.ok z hz)]
  omega

theorem window_eq (hD : Derived map pre h) (hz : z ∈ h.freeZones) (ha : ZoneHolds z a)
    (hn : totalAllocators map < 2^16) (hlt : a < memBoundary (totalAllocators map)) :
    mapZoneToAllocator z = a/managedMem ∧ a/managedMem < totalAllocators map := by
  have hw : a/managedMem < totalAllocators map := by
    unfold memBoundary managedMem at *
    omega
  have hle : memBoundary (a/managedMem) ≤ z.mem := by
    apply window_of_byte hD hz ha hw.le
    unfold memBoundary managedMem
    omega
  have hmem := ha.1
  rw [mapZoneToAllocator_eq]
  unfold memBoundary managedMem at *
  omega

theorem mem_zoneStack {i : ℕ} : z ∈ h.zoneStack i ↔
    i < h.totalAllocators ∧ z ∈ h.freeZones ∧ mapZoneToAllocator z = i := by
  rw [Handover.zoneStack]
  split
  · rename_i hlt
    rw [List.mem_filter, beq_iff_eq]
    exact ⟨fun hz => ⟨hlt, hz⟩, fun hz => hz.2⟩
  · rename_i hge
    constructor
    · intro hz
      cases hz
    · intro hz
      exact absurd hz.1 hge

theorem zone_region (hD : Derived map pre h) (hz : z ∈ h.freeZones) (ha : ZoneHolds z a) :
    ∃ e ∈ carved map pre.length, e.regionFree = true ∧ Descriptor.Holds e a ∧
      e.physAddr ≤ z.mem ∧ (z.mem = e.physAddr ∨ z.mem = lowLimit ∨
        ∃ j ≤ totalAllocators map, z.mem = memBoundary j) := by
  obtain ⟨-, e, he, hf, h1, h2, h3⟩ := hD.origin z hz
  obtain ⟨h4, h5⟩ := ha
  exact ⟨e, he, hf, ⟨by omega, by omega⟩, h1, h3⟩

theorem low_region (hD : Derived map pre h) (hz : z ∈ h.lowMemZones) (ha : ZoneHolds z a) :
    a < lowLimit ∧ ∃ e ∈ carved map pre.length, e.regionFree = true ∧ Descriptor.Holds e a := by
  obtain ⟨-, h1, e, he, hf, h2, h3⟩ := hD.low z hz
  obtain ⟨h4, h5⟩ := ha
  exact ⟨by omega, e, he, hf, by omega, by omega⟩

end Windows

/-- Which bytes past the end of the chosen region an allocator gets: those
below 4 MiB, those in one of the windows, and those of a zone that starts above
all windows and is taken for one of them by its 16-bit index. -/
def Served (map : List Descriptor) (d : Descriptor) (a : ℕ) : Prop :=
  a < lowLimit ∨ a < memBoundary (totalAllocators map) ∨
    (memBoundary (totalAllocators map) ≤ d.physAddr+totalAllocatorMem map*2^12 ∧
      (d.physAddr+totalAllocatorMem map*2^12)/managedMem%2^16 < totalAllocators map)

def Handed (h : Handover) (z : MemZone) : Prop :=
  z ∈ h.lowMemZones ∨ ∃ i, z ∈ h.zoneStack i

/-- Every page passed to an allocator is free and not carved. -/
def OnlyFree (map : List Descriptor) (d : Descriptor) : Except Fault Handover → Prop
  | .ok h => ∀ z, Handed h z → ∀ a, ZoneHolds z a → FreeByte map a ∧ ¬ InCarve map d a
  | .error .diverges => True
  | .error .noMetadata => True
  | .error .overflow => False
  | .error .indeterminate => False

/-- When the zones passed on are free memory. -/
def OnlyFreeWhen (map pre : List Descriptor) (d : Descriptor) : Prop :=
  2^16 ≤ totalAllocators map+1 ∨
  (LowReached map pre ∧ entriesNeeded map pre ≤ freeRegionCount map*2 ∧
    entriesNeeded map pre < 2^16 ∧ ∀ a, InTail map d a → Served map d a → FreeByte map a)

section OnlyFree

variable {map pre post : List Descriptor} {d : Descriptor}

theorem pfaInitZones_eq (hlen : map.length+1 < 2^16)
    (hb : biggestFree (totalAllocatorMem map) map 0 none = some pre.length) :
    pfaInitZones map = deriveZones map pre.length := by
  rw [pfaInitZones, if_neg (by omega), hb]

theorem tail_not_carved {a : ℕ} (h : Chosen map pre d post) (ha : InTail map d a) :
    ¬ InCarve map d a := by
  intro hc
  have h1 := (inCarve_holds h hc).2
  have h2 := ha.1
  omega

theorem handed_free (hm : MapOk map) (h : Chosen map pre d post)
    (hn : totalAllocators map+1 < 2^16) {x : Handover} (hD : Derived map pre x)
    (hserved : ∀ a, InTail map d a → Served map d a → FreeByte map a) {z : MemZone}
    (hz : Handed x z) {a : ℕ} (ha : ZoneHolds z a) : FreeByte map a ∧ ¬ InCarve map d a := by
  rcases hz with hz | ⟨i, hz⟩
  · obtain ⟨hlow, e, he, hf, hh⟩ := low_region hD hz ha
    rcases region_byte hm h he hf hh with hgood | ⟨-, ht⟩
    · exact hgood
    · exact ⟨hserved a ht (Or.inl hlow), tail_not_carved h ht⟩
  · rw [mem_zoneStack, hD.allocators] at hz
    obtain ⟨hi, hz, hmap⟩ := hz
    obtain ⟨e, he, hf, hh, hle, horig⟩ := zone_region hD hz ha
    rcases region_byte hm h he hf hh with hgood | ⟨heq, ht⟩
    · exact hgood
    · refine ⟨hserved a ht ?_, tail_not_carved h ht⟩
      by_cases hlt : a < memBoundary (totalAllocators map)
      · exact Or.inr (Or.inl hlt)
      · -- The zone starts above the windows: at a boundary it is not served.
        have hstart := window_of_byte hD hz ha le_rfl (Nat.le_of_not_lt hlt)
        have haddr := carve_address hm h
        rw [mapZoneToAllocator_eq] at hmap
        rw [heq, haddr] at horig
        refine Or.inr (Or.inr ?_)
        rcases horig with horig | horig | ⟨j, hj, horig⟩
        · rw [horig] at hstart hmap
          exact ⟨hstart, by omega⟩
        · unfold memBoundary managedMem at *
          unfold lowLimit at *
          omega
        · rw [horig] at hstart hmap
          unfold memBoundary managedMem at *
          omega

theorem served_free (hm : MapOk map) (h : Chosen map pre d post)
    (hn : totalAllocators map+1 < 2^16) {x : Handover} (hD : Derived map pre x)
    (hfree : ∀ z, Handed x z → ∀ a, ZoneHolds z a → FreeByte map a ∧ ¬ InCarve map d a) {a : ℕ}
    (ht : InTail map d a) (hs : Served map d a) : FreeByte map a := by
  have hcount := hD.count a
  have hmem : carve (totalAllocatorMem map) d ∈ carved map pre.length := by
    rw [carved_eq h]
    exact List.mem_append_right _ List.mem_cons_self
  have hpos : 0 < (freeRegions (carved map pre.length)).countP (fun z => ZoneHolds z a) := by
    rw [List.countP_pos_iff]
    refine ⟨(carve (totalAllocatorMem map) d).zone, ?_, ?_⟩
    · exact List.mem_map_of_mem (List.mem_filter.mpr ⟨hmem, by rw [carve_regionFree, h.free]⟩)
    · rw [decide_eq_true_iff, zone_holds, carve_holds hm h]
      exact Or.inr ht
  by_cases hlow : 0 < x.lowMemZones.countP (fun z => ZoneHolds z a)
  · obtain ⟨z, hz, ha⟩ := List.countP_pos_iff.mp hlow
    exact (hfree z (Or.inl hz) a (of_decide_eq_true ha)).1
  · obtain ⟨z, hz, ha⟩ := List.countP_pos_iff.mp (by omega :
      0 < x.freeZones.countP (fun z => ZoneHolds z a))
    replace ha : ZoneHolds z a := of_decide_eq_true ha
    obtain ⟨hlim, -⟩ := hD.origin z hz
    obtain ⟨e, he, hf, hh, hle, horig⟩ := zone_region hD hz ha
    rcases region_byte hm h he hf hh with hgood | ⟨heq, -⟩
    · exact hgood.1
    · have hfirst := ha.1
      have haddr := carve_address hm h
      rw [heq, haddr] at hle horig
      rcases hs with hs | hs | ⟨hs, hidx⟩
      · omega
      · obtain ⟨h1, h2⟩ := window_eq hD hz ha (by omega) hs
        refine (hfree z (Or.inr ⟨a/managedMem, ?_⟩) a ha).1
        rw [mem_zoneStack, hD.allocators]
        exact ⟨h2, hz, h1⟩
      · refine (hfree z (Or.inr ⟨z.mem/managedMem%2^16, ?_⟩) a ha).1
        rw [mem_zoneStack, hD.allocators, mapZoneToAllocator_eq]
        refine ⟨?_, hz, rfl⟩
        rcases horig with horig | horig | ⟨j, hj, horig⟩
        · rw [horig]
          exact hidx
        · unfold memBoundary managedMem at *
          unfold lowLimit at *
          omega
        · rw [horig] at hle ⊢
          unfold memBoundary managedMem at *
          omega

/-- `pfa_init` passes on free memory alone exactly when the pages after the
end of the chosen region that it serves are free and its arrays suffice. -/
theorem zones_only_free (hm : MapOk map) (h : Chosen map pre d post)
    (hlen : map.length+1 < 2^16)
    (hb : biggestFree (totalAllocatorMem map) map 0 none = some pre.length) :
    (OnlyFreeWhen map pre d → OnlyFree map d (pfaInitZones map)) ∧
    (freeRegionCount map < 2^15 → OnlyFree map d (pfaInitZones map) →
      OnlyFreeWhen map pre d) := by
  rw [pfaInitZones_eq hlen hb]
  constructor
  · rintro (hn | ⟨hr, hfit, hword, hserved⟩)
    · rw [deriveZones_diverges hm h hlen hn]
      trivial
    · by_cases hn : totalAllocators map+1 < 2^16
      · obtain ⟨x, hx, hD⟩ := derive_ok hm h hn hr hfit hword
        rw [hx]
        intro z hz a ha
        exact handed_free hm h hn hD hserved hz ha
      · rw [deriveZones_diverges hm h hlen (by omega)]
        trivial
  · intro hsmall hfree
    by_cases hn : totalAllocators map+1 < 2^16
    · right
      have hok : ∃ x, deriveZones map pre.length = .ok x := by
        by_cases hr : LowReached map pre
        · by_cases hfit : entriesNeeded map pre ≤ freeRegionCount map*2
          · obtain ⟨x, hx, -⟩ := derive_ok hm h hn hr hfit (by omega)
            exact ⟨x, hx⟩
          · rw [derive_overflow hm h hn hr (by omega) (by omega)] at hfree
            exact hfree.elim
        · rcases derive_unreached hm h hn hr (by omega) with he | he
          · rw [he] at hfree
            exact hfree.elim
          · rw [he] at hfree
            exact hfree.elim
      obtain ⟨x, hx⟩ := hok
      obtain ⟨-, hr, hfit, hD⟩ := fits_of_ok hm h hlen (by omega) hx
      rw [hx] at hfree
      exact ⟨hr, hfit, by omega, fun a ht hs => served_free hm h hn hD hfree ht hs⟩
    · exact Or.inl (by omega)

end OnlyFree

/-- 128 MiB of free memory at 4 MiB, followed by as much reserved memory. -/
def leakMap : List Descriptor := [⟨7, 0x400000, 32768⟩, ⟨0, 0x8400000, 32768⟩]

/-- One window's worth of free memory at 4 MiB. -/
def shiftedMap : List Descriptor := [⟨7, 0x400000, 65536⟩]

theorem leakMap_ok : MapOk leakMap where
  aligned := by decide
  disjoint := by
    rw [leakMap, List.pairwise_cons]
    refine ⟨?_, List.pairwise_singleton _ _⟩
    intro e he a
    rw [List.mem_singleton.mp he]
    simp only [Descriptor.Holds]
    omega
  width := by decide

theorem leakMap_run : (totalAllocators leakMap = 1 ∧ totalAllocatorMem leakMap = 263 ∧
      biggestFree (totalAllocatorMem leakMap) leakMap 0 none = some 0) ∧
    (entriesNeeded leakMap [] = 1 ∧ freeRegionCount leakMap = 1) ∧
    pfaInitZones leakMap = .ok ⟨1, [⟨0x400000+263*4096, 32768⟩], []⟩ := by decide +kernel

theorem leakMap_allocators : totalAllocators leakMap = 1 ∧ totalAllocatorMem leakMap = 263 ∧
    biggestFree (totalAllocatorMem leakMap) leakMap 0 none = some 0 := leakMap_run.1

theorem leakMap_chosen :
    Chosen leakMap [] ⟨7, 0x400000, 32768⟩ [⟨0, 0x8400000, 32768⟩] where
  split := rfl
  free := rfl
  large := by rw [leakMap_allocators.2.1]; decide

theorem shiftedMap_ok : MapOk shiftedMap where
  aligned := by decide
  disjoint := List.pairwise_singleton _ _
  width := by decide

theorem shiftedMap_run : (totalAllocators shiftedMap = 1 ∧ totalAllocatorMem shiftedMap = 263 ∧
      biggestFree (totalAllocatorMem shiftedMap) shiftedMap 0 none = some 0) ∧
    entriesNeeded shiftedMap [] = 2 ∧ freeRegionCount shiftedMap = 1 := by decide +kernel

theorem shiftedMap_allocators : totalAllocators shiftedMap = 1 ∧
    totalAllocatorMem shiftedMap = 263 ∧
    biggestFree (totalAllocatorMem shiftedMap) shiftedMap 0 none = some 0 := shiftedMap_run.1

theorem shiftedMap_chosen : Chosen shiftedMap [] ⟨7, 0x400000, 65536⟩ [] where
  split := rfl
  free := rfl
  large := by rw [shiftedMap_allocators.2.1]; decide

theorem shiftedMap_entries : entriesNeeded shiftedMap [] = 2 ∧ freeRegionCount shiftedMap = 1 :=
  shiftedMap_run.2

theorem shiftedMap_reached : LowReached shiftedMap [] := by
  intro e he _
  have hmem := List.mem_of_mem_drop he
  rw [List.mem_singleton.mp hmem]
  decide

theorem leakMap_zones : ∃ h : Handover, pfaInitZones leakMap = .ok h ∧
    (⟨0x400000+263*4096, 32768⟩ : MemZone) ∈ h.zoneStack 0 := by
  refine ⟨⟨1, [⟨0x400000+263*4096, 32768⟩], []⟩, leakMap_run.2.2, ?_⟩
  decide

/-- The first page after the free region of `leakMap` is reserved and handed out. -/
theorem zones_not_only_free : MapOk leakMap ∧
    biggestFree (totalAllocatorMem leakMap) leakMap 0 none = some 0 ∧
    ¬ OnlyFree leakMap ⟨7, 0x400000, 32768⟩ (pfaInitZones leakMap) := by
  refine ⟨leakMap_ok, leakMap_allocators.2.2, ?_⟩
  intro hfree
  obtain ⟨h, hx, hz⟩ := leakMap_zones
  rw [hx] at hfree
  obtain ⟨⟨e, he, hf, hh⟩, -⟩ := hfree _ (Or.inr ⟨0, hz⟩) 0x8400000 (by decide)
  rw [leakMap, List.mem_cons, List.mem_singleton] at he
  rcases he with rfl | rfl
  · exact absurd hh.2 (by decide)
  · exact absurd hf (by decide)

theorem zones_only_free_shifted :
    OnlyFree shiftedMap ⟨7, 0x400000, 65536⟩ (pfaInitZones shiftedMap) := by
  apply (zones_only_free shiftedMap_ok shiftedMap_chosen (by decide)
    shiftedMap_allocators.2.2).1
  obtain ⟨hentries, hcount⟩ := shiftedMap_entries
  refine Or.inr ⟨shiftedMap_reached, by omega, by omega, ?_⟩
  intro a ht hs
  rw [InTail, shiftedMap_allocators.2.1] at ht
  rw [Served, shiftedMap_allocators.1, shiftedMap_allocators.2.1] at hs
  unfold memBoundary managedMem lowLimit at hs
  simp only at ht hs
  omega

/-- Every free page outside the carve-out lies in one zone, which is passed to
the allocator of its window. -/
def NoLoss (map : List Descriptor) (d : Descriptor) : Except Fault Handover → Prop
  | .ok h => ∀ a, FreeByte map a → ¬ InCarve map d a → ∃ z,
      (h.freeZones++h.lowMemZones).filter (fun z => ZoneHolds z a) = [z] ∧
      (a < lowLimit → z ∈ h.lowMemZones) ∧ (lowLimit ≤ a → z ∈ h.zoneStack (a/managedMem))
  | .error _ => False

/-- When no free page is lost. -/
def NoLossWhen (map pre : List Descriptor) (d : Descriptor) : Prop :=
  totalAllocators map+1 < 2^16 ∧ LowReached map pre ∧
  entriesNeeded map pre ≤ freeRegionCount map*2 ∧ entriesNeeded map pre < 2^16 ∧
  ∀ a, FreeByte map a → ¬ InCarve map d a →
    ¬ InTail map d a ∧ (lowLimit ≤ a → a < memBoundary (totalAllocators map))

section NoLoss

variable {map pre post : List Descriptor} {d : Descriptor}

theorem zones_count {x : Handover} (hD : Derived map pre x) (a : ℕ) :
    ((x.freeZones++x.lowMemZones).filter (fun z => ZoneHolds z a)).length =
      (freeRegions (carved map pre.length)).countP (fun z => ZoneHolds z a) := by
  rw [← hD.count a, ← List.countP_eq_length_filter, List.countP_append]

/-- `pfa_init` loses no free page exactly when all of them lie below the last
window, none lies in the tail, and its arrays and counters suffice. -/
theorem zones_no_loss (hm : MapOk map) (h : Chosen map pre d post)
    (hlen : map.length+1 < 2^16)
    (hb : biggestFree (totalAllocatorMem map) map 0 none = some pre.length) :
    (NoLossWhen map pre d → NoLoss map d (pfaInitZones map)) ∧
    (freeRegionCount map < 2^15 → NoLoss map d (pfaInitZones map) → NoLossWhen map pre d) := by
  rw [pfaInitZones_eq hlen hb]
  constructor
  · rintro ⟨hn, hr, hfit, hword, hin⟩
    obtain ⟨x, hx, hD⟩ := derive_ok hm h hn hr hfit hword
    rw [hx]
    intro a ha hc
    obtain ⟨ht, hwin⟩ := hin a ha hc
    have hone := zones_count hD a
    rw [(carved_count hm h ha hc).mpr ht] at hone
    obtain ⟨z, hz⟩ := List.length_eq_one_iff.mp hone
    have hmem : z ∈ (x.freeZones++x.lowMemZones).filter (fun z => ZoneHolds z a) := by
      rw [hz]
      simp
    obtain ⟨hside, hhold⟩ := List.mem_filter.mp hmem
    rw [decide_eq_true_iff] at hhold
    refine ⟨z, hz, ?_, ?_⟩
    · intro hlow
      rcases List.mem_append.mp hside with hs | hs
      · have h1 := (hD.origin z hs).1
        have h2 := hhold.1
        omega
      · exact hs
    · intro hhigh
      rcases List.mem_append.mp hside with hs | hs
      · rw [mem_zoneStack, hD.allocators]
        obtain ⟨h1, h2⟩ := window_eq hD hs hhold (by omega) (hwin hhigh)
        exact ⟨h2, hs, h1⟩
      · have h1 := (low_region hD hs hhold).1
        omega
  · intro hsmall hloss
    have hok : ∃ x, deriveZones map pre.length = .ok x := by
      cases hx : deriveZones map pre.length with
      | ok x => exact ⟨x, rfl⟩
      | error e =>
        rw [hx] at hloss
        exact hloss.elim
    obtain ⟨x, hx⟩ := hok
    obtain ⟨hn, hr, hfit, hD⟩ := fits_of_ok hm h hlen (by omega) hx
    rw [hx] at hloss
    refine ⟨hn, hr, hfit, by omega, ?_⟩
    intro a ha hc
    obtain ⟨z, hz, -, hstack⟩ := hloss a ha hc
    have hone := zones_count hD a
    rw [hz] at hone
    refine ⟨(carved_count hm h ha hc).mp hone.symm, ?_⟩
    intro hhigh
    have h1 := hstack hhigh
    rw [mem_zoneStack, hD.allocators] at h1
    have h2 := h1.1
    unfold memBoundary
    unfold managedMem at h2 ⊢
    omega

end NoLoss

/-- A thousand free pages at 4 MiB: too few for an allocator. -/
def smallMap : List Descriptor := [⟨7, 0x400000, 1000⟩]

/-- All free memory of `smallMap` is lost. -/
theorem zones_loss : MapOk smallMap ∧
    biggestFree (totalAllocatorMem smallMap) smallMap 0 none = some 0 ∧
    ¬ NoLoss smallMap ⟨7, 0x400000, 1000⟩ (pfaInitZones smallMap) := by
  have hmem : totalAllocatorMem smallMap = 5 := by decide +kernel
  refine ⟨⟨by decide, List.pairwise_singleton _ _, by decide⟩, by decide +kernel, ?_⟩
  intro hloss
  have hx : pfaInitZones smallMap = .ok ⟨0, [⟨0x405000, 1000⟩], []⟩ := by decide +kernel
  rw [hx] at hloss
  obtain ⟨z, -, -, hz⟩ := hloss 0x405000 ⟨_, List.mem_singleton.mpr rfl, rfl, by decide, by decide⟩
    (by rw [InCarve, hmem]; decide)
  have hstack := mem_zoneStack.mp (hz (by decide))
  exact absurd hstack.1 (by decide)

theorem leakMap_reached : LowReached leakMap [] := by
  intro e he _
  have hmem := List.mem_of_mem_drop he
  rw [leakMap, List.mem_cons, List.mem_singleton] at hmem
  rcases hmem with rfl | rfl
  · decide
  · decide

theorem zones_no_loss_reserved :
    NoLoss leakMap ⟨7, 0x400000, 32768⟩ (pfaInitZones leakMap) := by
  apply (zones_no_loss leakMap_ok leakMap_chosen (by decide) leakMap_allocators.2.2).1
  obtain ⟨hentries, hcount⟩ := leakMap_run.2.1
  rw [NoLossWhen, leakMap_allocators.1]
  refine ⟨by decide, leakMap_reached, by omega, by omega, ?_⟩
  rintro a ⟨e, he, hf, hh⟩ -
  rw [leakMap, List.mem_cons, List.mem_singleton] at he
  rcases he with rfl | rfl
  · rw [InTail, leakMap_allocators.2.1]
    unfold memBoundary managedMem
    simp only [Descriptor.Holds] at hh ⊢
    omega
  · exact absurd hf (by decide)

/-- No write past the end of `freeZones` or `lowMemZones`, and no unwritten
entry of `lowMemZones` passed on. -/
def ArraysSuffice (r : Except Fault Handover) : Prop :=
  r ≠ .error .overflow ∧ r ≠ .error .indeterminate

/-- When the arrays suffice: the derivation does not get there or does not
end, or all low regions are reached and the entries fit, be it only because a
16-bit index cannot leave an array of 65536 entries. -/
def ArraysSufficeWhen (map : List Descriptor) : Prop :=
  2^16 ≤ map.length+1 ∨ biggestFree (totalAllocatorMem map) map 0 none = none ∨
  ∃ pre, biggestFree (totalAllocatorMem map) map 0 none = some pre.length ∧ pre <+: map ∧
    (2^16 ≤ totalAllocators map+1 ∨ (LowReached map pre ∧
      (entriesNeeded map pre ≤ freeRegionCount map*2 ∨ 2^16 ≤ freeRegionCount map*2)))

theorem derive_suffices {map pre post : List Descriptor} {d : Descriptor} (hm : MapOk map)
    (h : Chosen map pre d post) (hlen : map.length+1 < 2^16) :
    ArraysSuffice (deriveZones map pre.length) ↔
      (2^16 ≤ totalAllocators map+1 ∨ (LowReached map pre ∧
        (entriesNeeded map pre ≤ freeRegionCount map*2 ∨ 2^16 ≤ freeRegionCount map*2))) := by
  by_cases hn : 2^16 ≤ totalAllocators map+1
  · rw [deriveZones_diverges hm h hlen hn]
    exact ⟨fun _ => Or.inl hn, fun _ => ⟨by simp, by simp⟩⟩
  by_cases hcap : 2^16 ≤ freeRegionCount map*2
  · obtain ⟨h1, h2⟩ := deriveZones_roomy hm h (by omega) hcap
    by_cases hr : LowReached map pre
    · obtain ⟨x, hx⟩ := h1 hr
      rw [hx]
      exact ⟨fun _ => Or.inr ⟨hr, Or.inr hcap⟩, fun _ => ⟨by simp, by simp⟩⟩
    · rw [h2 hr]
      refine ⟨fun hs => absurd rfl hs.2, ?_⟩
      rintro (hbad | hbad)
      · exact absurd hbad hn
      · exact absurd hbad.1 hr
  by_cases hr : LowReached map pre
  · by_cases hfit : entriesNeeded map pre ≤ freeRegionCount map*2
    · obtain ⟨x, hx, -⟩ := derive_ok hm h (by omega) hr hfit (by omega)
      rw [hx]
      exact ⟨fun _ => Or.inr ⟨hr, Or.inl hfit⟩, fun _ => ⟨by simp, by simp⟩⟩
    · rw [derive_overflow hm h (by omega) hr (by omega) (by omega)]
      refine ⟨fun hs => absurd rfl hs.1, ?_⟩
      rintro (hbad | ⟨-, hbad | hbad⟩)
      · exact absurd hbad hn
      · exact absurd hbad hfit
      · exact absurd hbad hcap
  · refine ⟨fun hs => ?_, ?_⟩
    · rcases derive_unreached hm h (by omega) hr (by omega) with he | he
      · exact absurd he hs.1
      · exact absurd he hs.2
    · rintro (hbad | hbad)
      · exact absurd hbad hn
      · exact absurd hbad.1 hr

/-- The exact condition under which the fixed arrays of `pfa_init` suffice. -/
theorem arrays_suffice_iff (map : List Descriptor) (hm : MapOk map) :
    ArraysSuffice (pfaInitZones map) ↔ ArraysSufficeWhen map := by
  rw [pfaInitZones]
  by_cases hlen : 2^16 ≤ map.length+1
  · rw [if_pos hlen]
    exact ⟨fun _ => Or.inl hlen, fun _ => ⟨by simp, by simp⟩⟩
  rw [if_neg hlen]
  cases hb : biggestFree (totalAllocatorMem map) map 0 none with
  | none => exact ⟨fun _ => Or.inr (Or.inl hb), fun _ => ⟨by simp, by simp⟩⟩
  | some i =>
    obtain ⟨pre, d, post, h, rfl⟩ := chosen_of_some hb
    show ArraysSuffice (deriveZones map pre.length) ↔ _
    rw [derive_suffices hm h (by omega)]
    constructor
    · intro hs
      exact Or.inr (Or.inr ⟨pre, hb, ⟨d::post, h.split.symm⟩, hs⟩)
    · rintro (hbad | hbad | ⟨pre', hb', hpre', hs⟩)
      · exact absurd hbad hlen
      · rw [hb] at hbad
        cases hbad
      · have hlen' : pre'.length = pre.length := by
          rw [hb] at hb'
          exact (Option.some.inj hb').symm
        have heq : pre' = pre := by
          have hp : pre <+: map := ⟨d::post, h.split.symm⟩
          rw [List.prefix_iff_eq_take.mp hpre', List.prefix_iff_eq_take.mp hp, hlen']
        rw [heq] at hs
        exact hs

/-- One region of 1 GiB at 4 MiB has five pieces for two entries. -/
theorem arrays_overflow : MapOk [⟨7, 0x400000, 262144⟩] ∧
    ¬ ArraysSuffice (pfaInitZones [⟨7, 0x400000, 262144⟩]) := by
  refine ⟨⟨by decide, List.pairwise_singleton _ _, by decide⟩, ?_⟩
  intro hs
  exact hs.1 (by decide +kernel)

theorem arrays_suffice_shifted : ArraysSuffice (pfaInitZones shiftedMap) := by
  rw [arrays_suffice_iff shiftedMap shiftedMap_ok]
  obtain ⟨hentries, hcount⟩ := shiftedMap_entries
  exact Or.inr (Or.inr ⟨[], shiftedMap_allocators.2.2, List.nil_prefix,
    Or.inr ⟨shiftedMap_reached, Or.inl (by omega)⟩⟩)

end BruhOS.PfaCoverage
