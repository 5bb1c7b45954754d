import BruhOS.PageFrames

/-!
# Whether the zone flags are released

An allocation that returns leaves every flag clear. A free does so unless its
arguments pass the checks at its entry and the allocator rejects them: then the
flag of the zone stays set. In every case a free with an error changes no
allocator and no counter.
-/

set_option autoImplicit false

namespace BruhOS.FrameLocks
open BruhOS.StdMath BruhOS.BuddyMachine BruhOS.BuddyInit BruhOS.BuddyRuns BruhOS.PfaInit
open BruhOS.ZoneLocks BruhOS.PageFrames

structure FlagsClear (p : PageFrameAllocator) : Prop where
  low : p.lowZoneAllocator.isusing = false
  normal : ∀ i < p.zoneCount, (p.zoneAllocators i).isusing = false

/-- Everything of a zone but its flag. -/
structure SameZone (z w : ManagedZone) : Prop where
  manager : w.manager = z.manager
  total : w.total = z.total
  maxMemReq : w.maxMemReq = z.maxMemReq

structure SameData (p q : PageFrameAllocator) : Prop where
  low : SameZone p.lowZoneAllocator q.lowZoneAllocator
  normal : ∀ i, SameZone (p.zoneAllocators i) (q.zoneAllocators i)
  zoneCount : q.zoneCount = p.zoneCount
  free : q.free = p.free
  reserved : q.reserved = p.reserved

/-- The addresses below 4 MiB and those in the window of a zone. -/
def InReach (p : PageFrameAllocator) (ptr : ℕ) : Prop :=
  ptr < lowLimit ∨ ptr < managedMem*p.zoneCount

section Flags

variable {log2ui : ℕ → ℕ} {p : PageFrameAllocator}

theorem SameZone.refl (z : ManagedZone) : SameZone z z := ⟨rfl, rfl, rfl⟩

theorem SameZone.setUsing (z : ManagedZone) (v : Bool) : SameZone z (z.setUsing v) :=
  ⟨rfl, rfl, rfl⟩

theorem SameData.refl (p : PageFrameAllocator) : SameData p p :=
  ⟨.refl _, fun _ => .refl _, rfl, rfl, rfl⟩

theorem sameData_setLow (p : PageFrameAllocator) (v : Bool) :
    SameData p (setLow p (p.lowZoneAllocator.setUsing v)) :=
  ⟨.setUsing _ v, fun _ => .refl _, rfl, rfl, rfl⟩

theorem sameData_setZone (p : PageFrameAllocator) (i : ℕ) (v : Bool) :
    SameData p (setZone p i ((p.zoneAllocators i).setUsing v)) := by
  refine ⟨.refl _, fun j => ?_, rfl, rfl, rfl⟩
  by_cases hj : j = i
  · rw [hj, setZone_zone, Function.update_self]
    exact .setUsing _ v
  · rw [setZone_zone, Function.update_of_ne hj]
    exact .refl _

theorem FlagsClear.setLow (h : FlagsClear p) {z : ManagedZone} (hz : z.isusing = false) :
    FlagsClear (setLow p z) :=
  ⟨hz, h.normal⟩

theorem FlagsClear.setZone (h : FlagsClear p) {i : ℕ} {z : ManagedZone} (hz : z.isusing = false) :
    FlagsClear (setZone p i z) := by
  refine ⟨h.low, fun j hj => ?_⟩
  by_cases hji : j = i
  · rw [hji, setZone_zone, Function.update_self]
    exact hz
  · rw [setZone_zone, Function.update_of_ne hji]
    exact h.normal j hj

theorem FlagsClear.reserveBytes (h : FlagsClear p) (n : ℕ) : FlagsClear (reserveBytes p n) :=
  ⟨h.low, h.normal⟩

theorem FlagsClear.releaseBytes (h : FlagsClear p) (n : ℕ) : FlagsClear (releaseBytes p n) :=
  ⟨h.low, h.normal⟩

theorem allocZone_flags (h : FlagsClear p) (i count : ℕ) :
    FlagsClear (allocZone log2ui i count p).2 := by
  rw [allocZone_eq]
  exact (h.reserveBytes _).setZone rfl

theorem zoneLoop_flags (fuel count n i out : ℕ) {p : PageFrameAllocator} (h : FlagsClear p)
    {r : ℕ × PageFrameAllocator} (hr : zoneLoop log2ui fuel count n i out p = some r) :
    FlagsClear r.2 := by
  induction n generalizing i out p with
  | zero =>
    rw [zoneLoop] at hr
    cases hr
    exact h
  | succ n ih =>
    rw [zoneLoop, Option.bind_eq_some_iff] at hr
    obtain ⟨q, hq, hr⟩ := hr
    obtain ⟨rfl, -⟩ := waitWhile_some hq
    have hflags : FlagsClear (allocZone log2ui i count q).2 := allocZone_flags h i count
    by_cases h0 : (allocZone log2ui i count q).1 = 0
    · exact ih _ _ hflags ((if_pos h0).symm.trans hr)
    · cases (if_neg h0).symm.trans hr
      exact hflags

theorem pfaAllocPages_flags {fuel count type : ℕ} (h : FlagsClear p)
    {r : ℕ × PageFrameAllocator} (hr : pfaAllocPages log2ui fuel p count type = some r) :
    FlagsClear r.2 := by
  rw [pfaAllocPages] at hr
  split at hr
  · cases hr
    exact h
  · split at hr
    · rw [Option.map_eq_some_iff] at hr
      obtain ⟨q, hq, rfl⟩ := hr
      obtain ⟨rfl, -⟩ := waitWhile_some hq
      rw [allocLow_eq]
      exact h.setLow rfl
    · exact zoneLoop_flags _ _ _ _ _ h hr

end Flags

/-- The arguments pass the checks of `pfa_free`, and the allocator does not take the block. -/
def FreeRejected (log2ui : ℕ → ℕ) (p : PageFrameAllocator) (ptr blockSize : ℕ) : Prop :=
  ¬ BadFree ptr (pageCount blockSize) ∧
  if ptr < lowLimit then Rejects (buddyLow log2ui) p.lowZoneAllocator.manager ptr
    (freeLevel log2ui 10 (pageCount blockSize))
  else Rejects (buddy log2ui) (p.zoneAllocators (allocIdx ptr)).manager ptr
    (freeLevel log2ui 16 (pageCount blockSize))

/-- When a free returns, no flag is set, and after an error nothing has changed. -/
def Releases (log2ui : ℕ → ℕ) (p : PageFrameAllocator) (ptr blockSize : ℕ) : Prop :=
  ∀ fuel r, pfaFree log2ui fuel p ptr blockSize = some r →
    FlagsClear r.2 ∧ (r.1 ≠ kernelSuccess → SameData p r.2)

section Free

variable {log2ui : ℕ → ℕ} {p : PageFrameAllocator} {ptr blockSize : ℕ}

theorem allocIdx_lt (hn : p.zoneCount < 2^16) (h : InReach p ptr) (hptr : ¬ ptr < lowLimit) :
    allocIdx ptr < p.zoneCount := by
  have hlt := h.resolve_left hptr
  unfold managedMem at hlt
  unfold allocIdx
  omega

/-- Neither wait of a free takes a second pass. -/
theorem pfaFree_eq (h : FlagsClear p) (hn : p.zoneCount < 2^16) (hp : InReach p ptr) (fuel : ℕ) :
    pfaFree log2ui (fuel+1) p ptr blockSize = some (
      if BadFree ptr (pageCount blockSize) then (kernelBadData, p)
      else if ptr < lowLimit then freeLow log2ui ptr (pageCount blockSize) p
      else freeZone log2ui (allocIdx ptr) ptr (pageCount blockSize) p) := by
  unfold pfaFree
  by_cases hbad : BadFree ptr (pageCount blockSize)
  · rw [if_pos hbad, if_pos hbad]
  · rw [if_neg hbad, if_neg hbad]
    by_cases hlow : ptr < lowLimit
    · rw [if_pos hlow, if_pos hlow, waitWhile_clear h.low, Option.map_some]
    · rw [if_neg hlow, if_neg hlow, waitWhile_clear (h.normal _ (allocIdx_lt hn hp hlow)),
        Option.map_some]

theorem pfaFree_some {fuel : ℕ} {r : ℕ × PageFrameAllocator}
    (hr : pfaFree log2ui fuel p ptr blockSize = some r) :
    (BadFree ptr (pageCount blockSize) ∧ r = (kernelBadData, p)) ∨
    (¬ BadFree ptr (pageCount blockSize) ∧ ptr < lowLimit ∧
      r = freeLow log2ui ptr (pageCount blockSize) p) ∨
    (¬ BadFree ptr (pageCount blockSize) ∧ ¬ ptr < lowLimit ∧
      r = freeZone log2ui (allocIdx ptr) ptr (pageCount blockSize) p) := by
  rw [pfaFree] at hr
  by_cases hbad : BadFree ptr (pageCount blockSize)
  · rw [if_pos hbad] at hr
    exact Or.inl ⟨hbad, (Option.some.inj hr).symm⟩
  · rw [if_neg hbad] at hr
    right
    by_cases hlow : ptr < lowLimit
    · rw [if_pos hlow, Option.map_eq_some_iff] at hr
      obtain ⟨q, hq, rfl⟩ := hr
      obtain ⟨rfl, -⟩ := waitWhile_some hq
      exact Or.inl ⟨hbad, hlow, rfl⟩
    · rw [if_neg hlow, Option.map_eq_some_iff] at hr
      obtain ⟨q, hq, rfl⟩ := hr
      obtain ⟨rfl, -⟩ := waitWhile_some hq
      exact Or.inr ⟨hbad, hlow, rfl⟩

/-- After an error only a flag can differ. -/
theorem pfaFree_error {fuel : ℕ} {r : ℕ × PageFrameAllocator}
    (hr : pfaFree log2ui fuel p ptr blockSize = some r) (he : r.1 ≠ kernelSuccess) :
    SameData p r.2 := by
  rcases pfaFree_some hr with ⟨-, rfl⟩ | ⟨-, -, rfl⟩ | ⟨-, -, rfl⟩
  · exact .refl p
  · by_cases h : Rejects (buddyLow log2ui) p.lowZoneAllocator.manager ptr
        (freeLevel log2ui 10 (pageCount blockSize))
    · rw [freeLow_rejects h]
      exact sameData_setLow p true
    · rw [freeLow_accepts h] at he
      exact absurd rfl he
  · by_cases h : Rejects (buddy log2ui) (p.zoneAllocators (allocIdx ptr)).manager ptr
        (freeLevel log2ui 16 (pageCount blockSize))
    · rw [freeZone_rejects h]
      exact sameData_setZone p _ true
    · rw [freeZone_accepts h] at he
      exact absurd rfl he

theorem pfaFree_flags (h : FlagsClear p) (hok : ¬ FreeRejected log2ui p ptr blockSize) {fuel : ℕ}
    {r : ℕ × PageFrameAllocator} (hr : pfaFree log2ui fuel p ptr blockSize = some r) :
    FlagsClear r.2 := by
  rcases pfaFree_some hr with ⟨-, rfl⟩ | ⟨hbad, hlow, rfl⟩ | ⟨hbad, hlow, rfl⟩
  · exact h
  · have hacc := fun hrej => hok ⟨hbad, (if_pos hlow).mpr hrej⟩
    rw [freeLow_accepts hacc]
    exact (h.setLow rfl).releaseBytes _
  · have hacc := fun hrej => hok ⟨hbad, (if_neg hlow).mpr hrej⟩
    rw [freeZone_accepts hacc]
    exact (h.setZone rfl).releaseBytes _

/-- A rejected free returns with the flag of its zone set. -/
theorem pfaFree_held (hrej : FreeRejected log2ui p ptr blockSize) {fuel : ℕ}
    {r : ℕ × PageFrameAllocator} (hr : pfaFree log2ui fuel p ptr blockSize = some r) :
    r.1 = kernelInvalidInput ∧ if ptr < lowLimit then r.2.lowZoneAllocator.isusing = true
      else (r.2.zoneAllocators (allocIdx ptr)).isusing = true := by
  obtain ⟨hok, hrej⟩ := hrej
  rcases pfaFree_some hr with ⟨hbad, -⟩ | ⟨-, hlow, rfl⟩ | ⟨-, hlow, rfl⟩
  · exact absurd hbad hok
  · rw [if_pos hlow] at hrej ⊢
    rw [freeLow_rejects hrej]
    exact ⟨rfl, rfl⟩
  · rw [if_neg hlow] at hrej ⊢
    rw [freeZone_rejects hrej]
    refine ⟨rfl, ?_⟩
    rw [setZone_zone, Function.update_self, setUsing_isusing]

theorem releases_iff (h : FlagsClear p) (hn : p.zoneCount < 2^16) (hp : InReach p ptr) :
    Releases log2ui p ptr blockSize ↔ ¬ FreeRejected log2ui p ptr blockSize := by
  constructor
  · intro hrel hrej
    have heq : pfaFree log2ui 1 p ptr blockSize = some _ := pfaFree_eq h hn hp 0
    obtain ⟨hclear, -⟩ := hrel 1 _ heq
    obtain ⟨herr, hheld⟩ := pfaFree_held hrej heq
    by_cases hlow : ptr < lowLimit
    · rw [if_pos hlow, hclear.low] at hheld
      exact absurd hheld (by decide)
    · rw [if_neg hlow] at hheld
      have hsame := pfaFree_error heq (by rw [herr]; decide)
      rw [hclear.normal _ (hsame.zoneCount ▸ allocIdx_lt hn hp hlow)] at hheld
      exact absurd hheld (by decide)
  · intro hok fuel r hr
    exact ⟨pfaFree_flags h hok hr, pfaFree_error hr⟩

end Free

/-- From every state with clear flags an allocation that returns leaves them clear, a free
returns, changes no data when it fails, and leaves the flags clear as well unless the allocator
rejects the block. -/
theorem locks_released_iff (log2ui : ℕ → ℕ) (p : PageFrameAllocator) (h : FlagsClear p)
    (hn : p.zoneCount < 2^16) :
    (∀ fuel count type r, pfaAllocPages log2ui fuel p count type = some r → FlagsClear r.2) ∧
    ∀ ptr blockSize, InReach p ptr →
      (∃ r, pfaFree log2ui 1 p ptr blockSize = some r) ∧
      (∀ fuel r, pfaFree log2ui fuel p ptr blockSize = some r → r.1 ≠ kernelSuccess →
        SameData p r.2) ∧
      (Releases log2ui p ptr blockSize ↔ ¬ FreeRejected log2ui p ptr blockSize) := by
  refine ⟨fun fuel count type r hr => pfaAllocPages_flags h hr, fun ptr blockSize hp => ?_⟩
  exact ⟨⟨_, pfaFree_eq h hn hp 0⟩, fun fuel r hr he => pfaFree_error hr he, releases_iff h hn hp⟩

/-- One window with 4 MiB of free memory at 4 MiB. -/
def oneWindow : PageFrameAllocator :=
  pfaInit Nat.log2 ⟨1, [⟨0x400000, 1024⟩], []⟩ (fun _ => zeroMemory) zeroMemory

theorem oneWindow_flags : FlagsClear oneWindow := ⟨rfl, fun _ _ => rfl⟩

theorem oneWindow_start : (oneWindow.zoneAllocators 0).manager.start = 0 := by
  have hz : ∀ z ∈ (⟨1, [⟨0x400000, 1024⟩], []⟩ : Handover).zoneStack 0,
      ZoneInside (buddy Nat.log2) 0 z := by
    intro z hz
    rw [List.mem_singleton.mp (hz : z ∈ [_])]
    exact ⟨by decide, by decide, by decide, by decide⟩
  obtain ⟨-, -, -, hs⟩ := regions_inv log2_contract zeroMemory 0 _
    (blank_buddy Nat.log2 zeroMemory) (by decide) hz
  exact hs

/-- The free of a page that was not allocated goes through. -/
theorem locks_released_page : Releases Nat.log2 oneWindow 0x400000 1 := by
  have hs := oneWindow_start
  refine (((locks_released_iff Nat.log2 oneWindow oneWindow_flags (by decide)).2 0x400000 1
    (Or.inr (by decide))).2.2).mpr ?_
  rintro ⟨-, hrej⟩
  rw [if_neg (by decide)] at hrej
  rcases hrej with h0 | hlt | hpage | hlvl
  · exact absurd h0 (by decide)
  · rw [show allocIdx 0x400000 = 0 from rfl, hs] at hlt
    exact absurd hlt (Nat.not_lt_zero _)
  · exact absurd hpage (by decide)
  · exact absurd hlvl (by decide)

/-- The free of an address inside a page fails and leaves the flag of its zone set. -/
theorem locks_held_unaligned : FlagsClear oneWindow ∧ InReach oneWindow 0x400800 ∧
    ¬ Releases Nat.log2 oneWindow 0x400800 1 := by
  have hreach : InReach oneWindow 0x400800 := Or.inr (by decide)
  refine ⟨oneWindow_flags, hreach, fun hrel => ?_⟩
  refine (releases_iff oneWindow_flags (by decide) hreach).mp hrel ⟨by decide, ?_⟩
  rw [if_neg (by decide)]
  exact Or.inr (Or.inr (Or.inl (by decide)))

end BruhOS.FrameLocks
