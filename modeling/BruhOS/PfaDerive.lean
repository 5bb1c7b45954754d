import Mathlib.Data.List.TakeWhile
import BruhOS.PfaZones

/-!
# From the memory map to the zone arrays

The phases of `pfa_init` composed: what `freeZones` holds before the split at
the boundaries, what the low scan collects, and the outcome as a whole in terms
of the carved map. With 65535 allocators or more the split never ends; with
room for 65536 entries the array cannot overflow, because its counter wraps.
-/

set_option autoImplicit false

namespace BruhOS.PfaDerive
open BruhOS.BuddyMachine BruhOS.BuddySafety BruhOS.PfaInit BruhOS.PfaZones

def Crosses (z : MemZone) : Prop := lowLimit < zoneEnd z

instance (z : MemZone) : Decidable (Crosses z) := inferInstanceAs (Decidable (_ < _))

@[simp] theorem zone_mem (d : Descriptor) : d.zone.mem = d.physAddr := rfl

@[simp] theorem zone_pages (d : Descriptor) : d.zone.pages = d.pages := rfl

@[simp] theorem carve_pages (mem : ℕ) (d : Descriptor) : (carve mem d).pages = d.pages := by
  rw [carve]

@[simp] theorem carve_regionFree (mem : ℕ) (d : Descriptor) :
    (carve mem d).regionFree = d.regionFree := by
  rw [carve]
  rfl

theorem low_iff (d : Descriptor) : d.low = true ↔ d.physAddr < lowLimit := by
  rw [Descriptor.low, decide_eq_true_iff]

/-- The part of a low zone that stays below 4 MiB. -/
def trim (z : MemZone) : MemZone := if Crosses z then leftOf z lowLimit else z

def highZones (map : List Descriptor) : List MemZone :=
  (map.filter (fun d => d.regionFree && !d.low)).map Descriptor.zone

/-- The zones the low scan collects. -/
def lowZones (map : List Descriptor) : List MemZone :=
  ((map.takeWhile Descriptor.low).filter Descriptor.regionFree).map Descriptor.zone

def spill (zones : List MemZone) : List MemZone :=
  (zones.filter (fun z => Crosses z)).map (fun z => rightOf z lowLimit)

/-- `freeZones` before the split at the boundaries. -/
def startZones (map : List Descriptor) : List MemZone := highZones map++spill (lowZones map)

section Phases

variable (cap : ℕ)

theorem fillFreeZones_writes (map : List Descriptor) (a : ZoneArray) (hc : a.count ≤ cap) :
    Writes cap (a.count+(highZones map).length) (fun a' => a'.list = a.list++highZones map)
      (fillFreeZones cap map a) := by
  induction map generalizing a with
  | nil => exact writes_ok (by simp [highZones]) (by simpa [highZones] using hc)
  | cons d map ih =>
    by_cases hd : (d.regionFree && !d.low) = true
    · have hz : highZones (d::map) = d.zone::highZones map := by simp [highZones, hd]
      rw [fillFreeZones, if_pos hd, hz]
      refine (push_writes d.zone hc).bind (by simp) ?_
      intro a' ha' hcap _
      have hcount : a'.count = a.count+1 := by
        rw [← list_length, ha']
        simp
      have hnext := ih a' (by omega)
      rw [ha', hcount] at hnext
      simpa [Nat.add_assoc, Nat.add_comm] using hnext
    · have hz : highZones (d::map) = highZones map := by simp [highZones, hd]
      rw [fillFreeZones, if_neg hd, hz]
      exact ih a hc

theorem fillLowZones_eq (map : List Descriptor) (zones : List MemZone)
    (h : zones.length+(lowZones map).length ≤ cap) :
    fillLowZones cap map zones = .ok (zones++lowZones map) := by
  induction map generalizing zones with
  | nil => simp [fillLowZones, lowZones]
  | cons d map ih =>
    by_cases hl : d.low = true
    · by_cases hd : d.regionFree = true
      · have hz : lowZones (d::map) = d.zone::lowZones map := by simp [lowZones, hl, hd]
        rw [hz] at h ⊢
        simp only [List.length_cons] at h
        rw [fillLowZones, if_pos hl, if_pos hd, if_pos (by omega), ih]
        · simp
        · simp
          omega
      · have hz : lowZones (d::map) = lowZones map := by simp [lowZones, hl, hd]
        rw [hz] at h ⊢
        rw [fillLowZones, if_pos hl, if_neg hd, ih zones h]
    · have hz : lowZones (d::map) = [] := by simp [lowZones, hl]
      rw [hz, fillLowZones, if_neg hl, List.append_nil]

theorem splitLowZones_writes (zones : List MemZone) (a : ZoneArray) (hc : a.count ≤ cap) :
    Writes cap (a.count+(spill zones).length)
      (fun r => r.1 = zones.map trim ∧ r.2.list = a.list++spill zones)
      (splitLowZones cap zones a) := by
  induction zones generalizing a with
  | nil => exact writes_ok (by simp [spill]) (by simpa [spill] using hc)
  | cons z zones ih =>
    by_cases hz : Crosses z
    · have hs : spill (z::zones) = rightOf z lowLimit::spill zones := by simp [spill, hz]
      have ht : trim z = leftOf z lowLimit := if_pos hz
      have heq : splitLowZones cap (z::zones) a = (a.push cap (rightOf z lowLimit)).bind fun a =>
          (splitLowZones cap zones a).map fun r => (leftOf z lowLimit::r.1, r.2) := if_pos hz
      rw [heq, hs]
      refine (push_writes (rightOf z lowLimit) hc).bind (by simp) ?_
      intro a' ha' hcap _
      have hcount : a'.count = a.count+1 := by
        rw [← list_length, ha']
        simp
      have hnext := ih a' (by omega)
      rw [hcount] at hnext
      have hlen : a.count+(rightOf z lowLimit::spill zones).length =
          a.count+1+(spill zones).length := by
        simp
        omega
      rw [hlen]
      refine hnext.map ?_
      rintro r ⟨h1, h2⟩
      refine ⟨by simp [h1, ht], ?_⟩
      rw [h2, ha']
      simp
    · have hs : spill (z::zones) = spill zones := by simp [spill, hz]
      have ht : trim z = z := if_neg hz
      have heq : splitLowZones cap (z::zones) a =
          (splitLowZones cap zones a).map fun r => (z::r.1, r.2) := if_neg hz
      rw [heq, hs]
      refine (ih a hc).map ?_
      rintro r ⟨h1, h2⟩
      exact ⟨by simp [h1, ht], h2⟩

end Phases

def Descriptor.Holds (d : Descriptor) (a : ℕ) : Prop :=
  d.physAddr ≤ a ∧ a < d.physAddr+d.pages*2^12

/-- Page-aligned, pairwise disjoint descriptors of physical memory, whose
addresses have 52 bits. -/
structure MapOk (map : List Descriptor) : Prop where
  aligned : ∀ d ∈ map, d.physAddr%2^12 = 0
  disjoint : map.Pairwise (fun d e => ∀ a, ¬ (Descriptor.Holds d a ∧ Descriptor.Holds e a))
  width : ∀ d ∈ map, d.physAddr+d.pages*2^12 ≤ 2^52

/-- The region that gives up its first pages to the allocators. -/
structure Chosen (map pre : List Descriptor) (d : Descriptor) (post : List Descriptor) : Prop where
  split : map = pre++d::post
  free : d.regionFree = true
  large : totalAllocatorMem map < d.pages

theorem biggestFree_spec (mem : ℕ) (map : List Descriptor) (i : ℕ) (best : Option ℕ) :
    biggestFree mem map i best = best ∨
    ∃ pre d post, map = pre++d::post ∧ biggestFree mem map i best = some (i+pre.length) ∧
      d.regionFree = true ∧ mem < d.pages := by
  induction map generalizing i best with
  | nil => exact Or.inl rfl
  | cons d map ih =>
    rw [biggestFree]
    rcases ih (i+1) (if d.regionFree && decide (mem < d.pages) then some i else best) with h | h
    · by_cases hd : (d.regionFree && decide (mem < d.pages)) = true
      · rw [if_pos hd] at h ⊢
        simp only [Bool.and_eq_true, decide_eq_true_eq] at hd
        exact Or.inr ⟨[], d, map, rfl, h, hd.1, hd.2⟩
      · rw [if_neg hd] at h ⊢
        exact Or.inl h
    · obtain ⟨pre, e, post, rfl, h2, h3, h4⟩ := h
      refine Or.inr ⟨d::pre, e, post, rfl, ?_, h3, h4⟩
      rw [h2]
      simp
      omega

theorem chosen_of_some {map : List Descriptor} {i : ℕ}
    (h : biggestFree (totalAllocatorMem map) map 0 none = some i) :
    ∃ pre d post, Chosen map pre d post ∧ i = pre.length := by
  rcases biggestFree_spec (totalAllocatorMem map) map 0 none with h' | ⟨pre, d, post, h1, h2, h3, h4⟩
  · rw [h] at h'
    cases h'
  · rw [h] at h2
    exact ⟨pre, d, post, ⟨h1, h3, h4⟩, by simpa using h2⟩

section Carved

variable {map pre post : List Descriptor} {d : Descriptor}

theorem carved_eq (h : Chosen map pre d post) :
    carved map pre.length = pre++carve (totalAllocatorMem map) d::post := by
  rw [carved]
  generalize totalAllocatorMem map = mem
  rw [h.split]
  clear h
  induction pre with
  | nil => rfl
  | cons x pre ih =>
    rw [List.cons_append, List.length_cons, List.modify_succ_cons, ih]
    rfl

theorem carve_address (hm : MapOk map) (h : Chosen map pre d post) :
    (carve (totalAllocatorMem map) d).physAddr = d.physAddr+totalAllocatorMem map*2^12 := by
  have h1 := hm.width d (by rw [h.split]; simp)
  have h2 := h.large
  simp only [carve]
  omega

theorem zone_ok_of_mem (hm : MapOk map) (h : Chosen map pre d post) {e : Descriptor}
    (he : e ∈ carved map pre.length) : ZoneOk e.zone := by
  rw [carved_eq h] at he
  have hold : ∀ x ∈ map, ZoneOk x.zone := by
    intro x hx
    have h1 := hm.width x hx
    have h2 := hm.aligned x hx
    constructor
    · rw [zone_mem]
      exact h2
    · rw [zone_mem, zone_pages]
      omega
  rcases List.mem_append.mp he with he | he
  · exact hold e (by rw [h.split]; simp [he])
  · rcases List.mem_cons.mp he with rfl | he
    · have h1 := hm.width d (by rw [h.split]; simp)
      have h2 := hm.aligned d (by rw [h.split]; simp)
      have h3 := carve_address hm h
      have h4 := h.large
      constructor
      · rw [zone_mem, h3]
        omega
      · rw [zone_mem, zone_pages, h3, carve_pages]
        omega
    · exact hold e (by rw [h.split]; simp [he])

theorem startZones_ok (hm : MapOk map) (h : Chosen map pre d post) :
    ∀ z ∈ startZones (carved map pre.length), ZoneOk z := by
  intro z hz
  rcases List.mem_append.mp hz with hz | hz
  · obtain ⟨e, he, rfl⟩ := List.mem_map.mp hz
    exact zone_ok_of_mem hm h (List.mem_of_mem_filter he)
  · obtain ⟨y, hy, rfl⟩ := List.mem_map.mp hz
    obtain ⟨hy, hc⟩ := List.mem_filter.mp hy
    obtain ⟨e, he, rfl⟩ := List.mem_map.mp hy
    have hlow : e.low = true := List.mem_takeWhile_imp (List.mem_of_mem_filter he)
    have hmem := List.takeWhile_subset _ (List.mem_of_mem_filter he)
    rw [low_iff] at hlow
    rw [decide_eq_true_iff] at hc
    rw [← zone_mem] at hlow
    have hin : Inside e.zone lowLimit := ⟨hlow, hc⟩
    exact rightOf_ok (zone_ok_of_mem hm h hmem) (by decide) hin

/-- The scan reaches every free low region: none stands at or after the first
region that starts at or above 4 MiB once the carve-out is done. -/
def LowReached (map pre : List Descriptor) : Prop :=
  ∀ e ∈ map.drop ((carved map pre.length).takeWhile Descriptor.low).length,
    e.regionFree = true → e.low = false

theorem lowZones_length {xs ys : List Descriptor}
    (h : List.Forall₂ (fun x y => x.regionFree = y.regionFree ∧ (y.low = true → x.low = true))
      xs ys) :
    (lowZones ys).length+(xs.drop (ys.takeWhile Descriptor.low).length).countP
      (fun d => d.regionFree && d.low) = under4MiB xs := by
  induction h with
  | nil => simp [lowZones, under4MiB]
  | @cons x y xs ys hxy _ ih =>
    by_cases hy : y.low = true
    · have hx := hxy.2 hy
      have hf := hxy.1
      simp only [lowZones, under4MiB, List.takeWhile_cons_of_pos hy, List.countP_cons, hx, hf,
        List.filter_cons, List.length_cons, List.drop_succ_cons, Bool.and_true,
        List.length_map] at ih ⊢
      split <;> simp <;> omega
    · simp [lowZones, under4MiB, List.takeWhile_cons_of_neg hy]

theorem forall₂_carved {R : Descriptor → Descriptor → Prop} (hR : ∀ x, R x x) {d d' : Descriptor}
    (h : R d d') (pre post : List Descriptor) :
    List.Forall₂ R (pre++d::post) (pre++d'::post) := by
  induction pre with
  | nil => exact .cons h (List.forall₂_same.mpr (fun x _ => hR x))
  | cons x pre ih => exact .cons (hR x) ih

theorem lowZones_carved (hm : MapOk map) (h : Chosen map pre d post) :
    (lowZones (carved map pre.length)).length+
      (map.drop ((carved map pre.length).takeWhile Descriptor.low).length).countP
        (fun d => d.regionFree && d.low) = under4MiB map := by
  apply lowZones_length
  have haddr := carve_address hm h
  rw [carved_eq h]
  generalize totalAllocatorMem map = mem at haddr
  rw [h.split]
  apply forall₂_carved (fun x => ⟨rfl, id⟩)
  refine ⟨(carve_regionFree mem d).symm, ?_⟩
  intro hlow
  rw [low_iff] at hlow ⊢
  omega

theorem lowReached_iff (hm : MapOk map) (h : Chosen map pre d post) :
    LowReached map pre ↔ ¬ (lowZones (carved map pre.length)).length < under4MiB map := by
  have hlen := lowZones_carved hm h
  have hzero : LowReached map pre ↔
      (map.drop ((carved map pre.length).takeWhile Descriptor.low).length).countP
        (fun d => d.regionFree && d.low) = 0 := by
    rw [List.countP_eq_zero]
    simp [LowReached]
  rw [hzero]
  omega

end Carved

section Outcome

variable {map pre post : List Descriptor} {d : Descriptor}

/-- The outcome when the boundary counter does not wrap. -/
theorem deriveZones_ends (hm : MapOk map) (h : Chosen map pre d post)
    (hn : totalAllocators map+1 < 2^16) :
    Ends (freeRegionCount map*2)
      (totalPieces (totalAllocators map) (startZones (carved map pre.length)))
      (fun r =>
        (LowReached map pre → ∃ out,
          r = .ok ⟨totalAllocators map, out, (lowZones (carved map pre.length)).map trim⟩ ∧
          Pieces (totalAllocators map) (startZones (carved map pre.length)) out) ∧
        (¬ LowReached map pre → r = .error .indeterminate))
      (deriveZones map pre.length) := by
  have hlow := lowZones_carved hm h
  have hreach := lowReached_iff hm h
  have hok := startZones_ok hm h
  rw [deriveZones]
  generalize carved map pre.length = C at hlow hreach hok ⊢
  generalize totalAllocators map = n at hn ⊢
  have hpieces := length_le_totalPieces n (startZones C)
  have hlen : (startZones C).length = (highZones C).length+(spill (lowZones C)).length := by
    rw [startZones, List.length_append]
  refine (fillFreeZones_writes _ C ⟨fun _ => ⟨0, 0⟩, 0⟩ (Nat.zero_le _)).bind
    (by simp only; omega) ?_
  intro a₁ h₁ hcap₁ _
  have hc₁ : a₁.count = (highZones C).length := by
    rw [← list_length, h₁]
    simp [ZoneArray.list]
  rw [fillLowZones_eq _ C [] (by simp only [List.length_nil]; omega), bind_ok, List.nil_append]
  refine (splitLowZones_writes _ (lowZones C) a₁ (by simp only at hcap₁; omega)).bind
    (by omega) ?_
  rintro r ⟨hr₁, hr₂⟩ hcap₂ hword₂
  have hr : r.2.list = []++startZones C := by
    rw [hr₂, h₁]
    simp [ZoneArray.list, startZones]
  have hc₂ : r.2.count = (startZones C).length := by
    rw [← list_length, hr]
    simp
  have hsplit := splitZones_writes (freeRegionCount map*2) hn (2^16) [] (startZones C) r.2
    hr (by simp) hok (by omega) (by omega)
  rw [List.length_nil, Nat.zero_add] at hsplit
  refine hsplit.bind le_rfl ?_
  rintro a₃ ⟨out, ho, hP, -⟩ hcap₃ hword₃
  rw [if_neg (by omega)]
  refine ⟨fun _ _ => ⟨?_, ?_⟩, fun hlt _ => absurd hcap₃ (by omega)⟩
  · intro hreached
    have hle := hreach.mp hreached
    refine ⟨out, ?_, hP⟩
    rw [if_neg (by rw [hr₁, List.length_map]; exact hle), ho, hr₁]
    rfl
  · intro hnot
    rw [hreach, not_not] at hnot
    rw [if_pos (by rw [hr₁, List.length_map]; exact hnot)]

theorem mem_highZones {C : List Descriptor} {e : Descriptor} (he : e ∈ C)
    (hf : e.regionFree = true) (hl : e.low = false) : e.zone ∈ highZones C := by
  apply List.mem_map_of_mem
  rw [List.mem_filter, hf, hl]
  exact ⟨he, rfl⟩

theorem spill_length (C : List Descriptor) :
    (spill (lowZones C)).length ≤ C.countP (fun d => d.regionFree && d.low) := by
  induction C with
  | nil => simp [spill, lowZones]
  | cons d C ih =>
    by_cases hl : d.low = true
    · by_cases hd : d.regionFree = true
      · simp only [spill, lowZones, List.takeWhile_cons_of_pos hl, List.filter_cons, hd, if_true,
          List.map_cons, List.countP_cons, hl, Bool.and_self, List.length_map] at ih ⊢
        split
        · simp only [List.length_cons]
          omega
        · omega
      · simpa [spill, lowZones, List.takeWhile_cons_of_pos hl, hd] using ih
    · simp [spill, lowZones, hl]

theorem regionFree_count (C : List Descriptor) : C.countP Descriptor.regionFree =
    C.countP (fun d => d.regionFree && !d.low)+C.countP (fun d => d.regionFree && d.low) := by
  induction C with
  | nil => rfl
  | cons d C ih =>
    simp only [List.countP_cons]
    cases d.regionFree <;> cases d.low <;> simp <;> omega

theorem startZones_length (C : List Descriptor) :
    (startZones C).length ≤ C.countP Descriptor.regionFree := by
  have hspill := spill_length C
  have hsum := regionFree_count C
  rw [startZones, List.length_append, highZones, List.length_map, ← List.countP_eq_length_filter]
  omega

theorem freeRegionCount_carved (h : Chosen map pre d post) :
    (carved map pre.length).countP Descriptor.regionFree = freeRegionCount map := by
  rw [carved_eq h, freeRegionCount]
  generalize totalAllocatorMem map = mem
  rw [h.split]
  rw [List.countP_append, List.countP_append, List.countP_cons, List.countP_cons,
    carve_regionFree]

/-- A pass over the first zone writes at most once. -/
theorem splitPass_first {cap : ℕ} (m : ℕ) {a : ZoneArray} {z : MemZone} {rest : List MemZone}
    (ha : a.list = z::rest) (hz : ZoneOk z) (hc : a.count+1 ≤ cap) (hw : a.count+1 < 2^16) :
    ∃ a', splitPass cap 0 (List.range (m+1)) a = .ok a' := by
  have hlist : a.list = []++z::rest := ha
  by_cases hcut : cuts m z = 0
  · have hnone : ∀ k ∈ List.range (m+1), ¬ Inside z (memBoundary k) := by
      intro k hk
      simpa using List.countP_eq_zero.mp hcut k hk
    exact ⟨a, splitPass_none hlist hnone⟩
  · obtain ⟨js, j, ks, heq, hin, hjs, hks⟩ := first_cut hcut
    have hwrite := splitPass_cut cap hlist hz hin (fun k hk => (hjs k hk).1) hks (by omega)
    obtain ⟨a', h1, -⟩ := hwrite.1 hc hw
    rw [heq]
    exact ⟨a', h1⟩

theorem splitZones_diverges {cap n : ℕ} {a : ZoneArray} {z : MemZone} {rest : List MemZone}
    (ha : a.list = z::rest) (hz : ZoneOk z) (hn : 2^16 ≤ n+1) (hc : a.count+1 ≤ cap)
    (hw : a.count+1 < 2^16) : splitZones cap n (2^16) 0 a = .error .diverges := by
  have hpos : 0 < a.count := by
    rw [← list_length, ha]
    simp
  have hfuel : 2^16 = 65535+1 := by decide
  obtain ⟨a', ha'⟩ := splitPass_first 65535 ha hz hc hw
  rw [hfuel, splitZones, if_pos hpos, splitZone, min_eq_right hn, hfuel, ha', bind_ok,
    if_pos (by omega), bind_error]

theorem totalAllocatorMem_large (hn : 2^16 ≤ totalAllocators map+1) :
    lowLimit ≤ totalAllocatorMem map*2^12 := by
  unfold totalAllocatorMem lowLimit sizeofBuddyAllocatorLowMem sizeofBuddyAllocator
    sizeofManagedZone
  generalize totalAllocators map = n at hn ⊢
  simp only
  omega

/-- With 65535 allocators or more `pfa_init` does not return. -/
theorem deriveZones_diverges (hm : MapOk map) (h : Chosen map pre d post)
    (hlen : map.length+1 < 2^16) (hn : 2^16 ≤ totalAllocators map+1) :
    deriveZones map pre.length = .error .diverges := by
  have hlow := lowZones_carved hm h
  have hok := startZones_ok hm h
  have hcount := startZones_length (carved map pre.length)
  rw [freeRegionCount_carved h] at hcount
  have hF : freeRegionCount map ≤ map.length := List.countP_le_length
  have hhigh : (carve (totalAllocatorMem map) d).zone ∈ highZones (carved map pre.length) := by
    have haddr := carve_address hm h
    have hlarge := totalAllocatorMem_large hn
    apply mem_highZones
    · rw [carved_eq h]
      exact List.mem_append_right _ List.mem_cons_self
    · rw [carve_regionFree, h.free]
    · rw [← Bool.not_eq_true, low_iff, haddr]
      omega
  rw [deriveZones]
  generalize carved map pre.length = C at hlow hok hcount hhigh ⊢
  have hpos := List.length_pos_of_mem hhigh
  have hsum : (startZones C).length = (highZones C).length+(spill (lowZones C)).length := by
    rw [startZones, List.length_append]
  obtain ⟨a₁, e₁, h₁⟩ := (fillFreeZones_writes (freeRegionCount map*2) C
    ⟨fun _ => ⟨0, 0⟩, 0⟩ (Nat.zero_le _)).1 (by simp only; omega) (by simp only; omega)
  have hc₁ : a₁.count = (highZones C).length := by
    rw [← list_length, h₁]
    simp [ZoneArray.list]
  obtain ⟨r, e₂, -, h₂⟩ := (splitLowZones_writes (freeRegionCount map*2) (lowZones C) a₁
    (by omega)).1 (by omega) (by omega)
  have hr : r.2.list = startZones C := by
    rw [h₂, h₁]
    simp [ZoneArray.list, startZones]
  have hc₂ : r.2.count = (startZones C).length := by
    rw [← list_length, hr]
  rw [e₁, bind_ok, fillLowZones_eq _ C [] (by simp only [List.length_nil]; omega), bind_ok,
    List.nil_append, e₂, bind_ok]
  cases hS : startZones C with
  | nil =>
    rw [hS] at hsum
    simp at hsum
    omega
  | cons z rest =>
    rw [splitZones_diverges (hr.trans hS) (hok z (by rw [hS]; simp)) hn (by omega) (by omega),
      bind_error]

end Outcome

/-- The phase succeeds, whatever it writes. -/
def Done {α : Type} (P : α → Prop) (r : Except Fault α) : Prop := ∃ x, r = .ok x ∧ P x

section Roomy

variable {α β : Type} {P : α → Prop} {Q : β → Prop} {cap n : ℕ} {a : ZoneArray}

theorem done_ok {x : α} (h : P x) : Done P (.ok x) := ⟨x, rfl, h⟩

theorem Done.bind {r : Except Fault α} (h : Done P r) {f : α → Except Fault β}
    (hf : ∀ x, P x → Done Q (f x)) : Done Q (r.bind f) := by
  obtain ⟨x, rfl, hx⟩ := h
  exact hf x hx

theorem push_done (hcap : 2^16 ≤ cap) (ha : a.count < 2^16) (z : MemZone) :
    Done (fun a' => a'.count < 2^16) (a.push cap z) := by
  rw [ZoneArray.push, if_pos (by omega)]
  exact done_ok (Nat.mod_lt _ (by decide))

theorem fillFreeZones_done (hcap : 2^16 ≤ cap) (map : List Descriptor) (ha : a.count < 2^16) :
    Done (fun a' => a'.count < 2^16) (fillFreeZones cap map a) := by
  induction map generalizing a with
  | nil => exact done_ok ha
  | cons d map ih =>
    rw [fillFreeZones]
    split
    · exact (push_done hcap ha _).bind (fun a' ha' => ih ha')
    · exact ih ha

theorem splitLowZones_done (hcap : 2^16 ≤ cap) (zones : List MemZone) (ha : a.count < 2^16) :
    Done (fun r => r.2.count < 2^16 ∧ r.1.length = zones.length) (splitLowZones cap zones a) := by
  induction zones generalizing a with
  | nil => exact done_ok ⟨ha, rfl⟩
  | cons z zones ih =>
    have hmap : ∀ (b : ZoneArray) (y : MemZone), b.count < 2^16 →
        Done (fun r => r.2.count < 2^16 ∧ r.1.length = (z::zones).length)
          ((splitLowZones cap zones b).map fun r => (y::r.1, r.2)) := by
      intro b y hb
      obtain ⟨r, hr, h1, h2⟩ := ih hb
      rw [hr]
      exact done_ok ⟨h1, by simp [h2]⟩
    rw [splitLowZones]
    split
    · exact (push_done hcap ha _).bind (fun b hb => hmap b _ hb)
    · exact hmap a z ha

theorem splitPass_done (hcap : 2^16 ≤ cap) (i : ℕ) (js : List ℕ) (ha : a.count < 2^16) :
    Done (fun a' => a'.count < 2^16) (splitPass cap i js a) := by
  induction js generalizing a with
  | nil => exact done_ok ha
  | cons j js ih =>
    have hset : ∀ z y : MemZone, Done (fun a' : ZoneArray => a'.count < 2^16)
        (ZoneArray.push cap ⟨Function.update a.zone i z, a.count⟩ y) :=
      fun z y => push_done hcap (by exact ha) y
    rw [splitPass]
    refine Done.bind (P := fun a' => a'.count < 2^16) ?_ (fun a' ha' => ih ha')
    rw [splitAtBoundary]
    split
    · exact hset _ _
    · exact done_ok ha

theorem splitZones_done (hcap : 2^16 ≤ cap) (hn : n+1 < 2^16) (fuel i : ℕ) (ha : a.count < 2^16) :
    Done (fun a' => a'.count < 2^16) (splitZones cap n fuel i a) := by
  induction fuel generalizing i a with
  | zero => exact done_ok ha
  | succ fuel ih =>
    rw [splitZones]
    split
    · refine Done.bind (P := fun a' => a'.count < 2^16) ?_ (fun a' ha' => ih (i+1) ha')
      refine (splitPass_done hcap i _ ha).bind ?_
      intro a' ha'
      rw [if_neg (by omega)]
      exact done_ok ha'
    · exact done_ok ha

end Roomy

/-- Room for 65536 entries is room for every index a 16-bit counter has. -/
theorem deriveZones_roomy {map pre post : List Descriptor} {d : Descriptor} (hm : MapOk map)
    (h : Chosen map pre d post) (hn : totalAllocators map+1 < 2^16)
    (hcap : 2^16 ≤ freeRegionCount map*2) :
    (LowReached map pre → ∃ x, deriveZones map pre.length = .ok x) ∧
    (¬ LowReached map pre → deriveZones map pre.length = .error .indeterminate) := by
  have hlow := lowZones_carved hm h
  have hreach := lowReached_iff hm h
  have hzero : (⟨fun _ => ⟨0, 0⟩, 0⟩ : ZoneArray).count < 2^16 := Nat.two_pow_pos 16
  obtain ⟨a₁, e₁, ha₁⟩ := fillFreeZones_done hcap (carved map pre.length) hzero
  obtain ⟨r, e₂, hr, hlen⟩ := splitLowZones_done hcap (lowZones (carved map pre.length)) ha₁
  obtain ⟨a₂, e₃, -⟩ := splitZones_done hcap hn (2^16) 0 hr
  rw [deriveZones, e₁, bind_ok, fillLowZones_eq _ _ [] (by simp only [List.length_nil]; omega),
    bind_ok, List.nil_append, e₂, bind_ok, e₃, bind_ok, if_neg (by omega), hlen]
  constructor
  · intro hreached
    rw [if_neg (hreach.mp hreached)]
    exact ⟨_, rfl⟩
  · intro hnot
    rw [hreach, not_not] at hnot
    rw [if_pos hnot]

end BruhOS.PfaDerive
