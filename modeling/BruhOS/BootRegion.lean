import BruhOS.BootMap

/-!
# The region that holds the page tables

The bootloader takes the largest usable region of the memory map and writes
its page tables there. The search keeps one candidate and replaces it by a
usable region with more pages. The first candidate is the first entry of the
map, and its type is never looked at.
-/

set_option autoImplicit false

namespace BruhOS.Boot

/-- A usable region of the map, and none of the others has more pages. -/
structure BiggestUsable (map : MemoryMap) (mem : Memory) (r : Region) : Prop where
  inMap : r.indexInMap < map.count
  entry : r.dsc = entryAt map r.indexInMap
  usable : (mem r.dsc).usable = true
  biggest : ∀ i < map.count, (mem (entryAt map i)).usable = true →
    (mem (entryAt map i)).pages ≤ (mem r.dsc).pages

section Search

variable {map : MemoryMap} {mem : Memory}

/-- The candidate after `k` entries: it is the first entry, or a usable one with more pages. -/
structure Candidate (map : MemoryMap) (mem : Memory) (k : ℕ) (r : Region) : Prop where
  origin : r = ⟨map.mmap, 0⟩ ∨ r.indexInMap < k ∧ r.dsc = entryAt map r.indexInMap ∧
    (mem r.dsc).usable = true ∧ (mem (entryAt map 0)).pages < (mem r.dsc).pages
  first : (mem (entryAt map 0)).pages ≤ (mem r.dsc).pages
  visited : ∀ i < k, (mem (entryAt map i)).usable = true →
    (mem (entryAt map i)).pages ≤ (mem r.dsc).pages

theorem entryAt_zero : entryAt map 0 = map.mmap := by simp [entryAt]

theorem candidate_step {k : ℕ} {r : Region} (h : Candidate map mem k r) :
    Candidate map mem (k+1)
      (if decide ((mem r.dsc).pages < (mem (entryAt map k)).pages) && (mem (entryAt map k)).usable
        then ⟨entryAt map k, k⟩ else r) := by
  by_cases hlarger : (mem r.dsc).pages < (mem (entryAt map k)).pages
  · cases husable : (mem (entryAt map k)).usable with
    | true =>
      rw [if_pos (by simp [hlarger])]
      refine ⟨Or.inr ⟨by simp, rfl, husable, lt_of_le_of_lt h.first hlarger⟩,
        h.first.trans hlarger.le, ?_⟩
      intro i hi hu
      rcases Nat.lt_succ_iff_lt_or_eq.mp hi with hlt | rfl
      · exact (h.visited i hlt hu).trans hlarger.le
      · exact le_refl _
    | false =>
      rw [if_neg (by simp)]
      refine ⟨h.origin.imp_right (And.imp_left Nat.lt_succ_of_lt), h.first, ?_⟩
      intro i hi hu
      rcases Nat.lt_succ_iff_lt_or_eq.mp hi with hlt | rfl
      · exact h.visited i hlt hu
      · rw [husable] at hu
        cases hu
  · rw [if_neg (by simp [hlarger])]
    refine ⟨h.origin.imp_right (And.imp_left Nat.lt_succ_of_lt), h.first, ?_⟩
    intro i hi hu
    rcases Nat.lt_succ_iff_lt_or_eq.mp hi with hlt | rfl
    · exact h.visited i hlt hu
    · exact Nat.not_lt.mp hlarger

theorem candidate_found (map : MemoryMap) (mem : Memory) :
    Candidate map mem map.count (findBiggestUsableMemoryRegion map mem) := by
  apply CountedLoop.range_loop _ (Candidate map mem)
  · refine ⟨Or.inl rfl, ?_, ?_⟩
    · rw [entryAt_zero]
    · intro i hi
      omega
  · intro k _ r hr
    exact candidate_step hr

end Search

/-- The region found is the largest usable one exactly when the first entry of the map is usable
or some usable entry has more pages. -/
theorem findBiggest_usable_iff (map : MemoryMap) (mem : Memory)
    (h : ∃ i < map.count, (mem (entryAt map i)).usable = true) :
    BiggestUsable map mem (findBiggestUsableMemoryRegion map mem) ↔
      (mem (entryAt map 0)).usable = true ∨ ∃ i < map.count, (mem (entryAt map i)).usable = true ∧
        (mem (entryAt map 0)).pages < (mem (entryAt map i)).pages := by
  have hfound := candidate_found map mem
  generalize findBiggestUsableMemoryRegion map mem = r at hfound
  have hcount : 0 < map.count := by
    obtain ⟨i, hi, -⟩ := h
    omega
  constructor
  · intro hr
    rcases hfound.origin with rfl | ⟨hidx, hdsc, husable, hmore⟩
    · left
      rw [entryAt_zero]
      exact hr.usable
    · right
      rw [hdsc] at husable hmore
      exact ⟨r.indexInMap, hidx, husable, hmore⟩
  · intro hcond
    rcases hfound.origin with rfl | ⟨hidx, hdsc, husable, -⟩
    · refine ⟨hcount, entryAt_zero.symm, ?_, hfound.visited⟩
      rcases hcond with h0 | ⟨i, hi, hu, hmore⟩
      · rw [entryAt_zero] at h0
        exact h0
      · -- a larger usable entry would have replaced the first one
        have hle := hfound.visited i hi hu
        rw [entryAt_zero] at hmore
        exact absurd hmore (Nat.not_lt.mpr hle)
    · exact ⟨hidx, hdsc, husable, hfound.visited⟩

section Small

def loaderData : ℕ := 2

/-- A large region of the loader is in front of a smaller free one. -/
def behindLoader : Memory := fun addr =>
  if addr = 0x3000 then ⟨loaderData, 0, 0x100000, 0, 64, 15⟩ else ⟨conventional, 0, 0x200000, 0, 8, 15⟩

/-- The page tables are written over the data of the loader. -/
theorem findBiggest_unusable :
    (∃ i < (smallMap 96).count, (behindLoader (entryAt (smallMap 96) i)).usable = true) ∧
    ¬ BiggestUsable (smallMap 96) behindLoader
      (findBiggestUsableMemoryRegion (smallMap 96) behindLoader) := by
  refine ⟨⟨1, by decide, by decide⟩, ?_⟩
  intro h
  exact absurd h.usable (by decide)

theorem findBiggest_usable_small :
    BiggestUsable (smallMap 96) smallMemory
      (findBiggestUsableMemoryRegion (smallMap 96) smallMemory) :=
  (findBiggest_usable_iff (smallMap 96) smallMemory ⟨0, by decide, by decide⟩).mpr
    (Or.inl (by decide))

end Small

end BruhOS.Boot
