import BruhOS.PfaZones

/-!
# Splitting zones at the windows

The loop of `pfa_init` visits an array that its body extends: a zone with a
boundary inside is cut, and the part behind the boundary goes to the end of the
array and is visited later. When the array has room the loop ends, every zone
lies in the window of its allocator, and the zones cover the same pages as
before, each as often as before.
-/

set_option autoImplicit false

namespace BruhOS.PfaSplit
open BruhOS.BuddyMachine BruhOS.BuddySafety BruhOS.PfaInit BruhOS.PfaZones

/-- The loop over the zones, with its 16-bit counter. -/
def splitLoop (cap n : ℕ) : ℕ → ℕ → ZoneArray → Option (Except Fault ZoneArray)
  | 0, _, _ => none
  | fuel+1, i, a =>
    if i < a.count then
      match splitZone cap n i a with
      | .ok a => splitLoop cap n fuel ((i+1) % 2^16) a
      | .error e => some (.error e)
    else some (.ok a)

section Loop

variable {cap n i j : ℕ} {a a' : ZoneArray}

theorem push_count {z : MemZone} (h : a.push cap z = .ok a') : a'.count < 2^16 := by
  unfold ZoneArray.push at h
  split at h
  · cases h
    exact Nat.mod_lt _ (by decide)
  · cases h

theorem splitAtBoundary_count (ha : a.count < 2^16) (h : splitAtBoundary cap i a j = .ok a') :
    a'.count < 2^16 := by
  unfold splitAtBoundary at h
  dsimp only at h
  split at h
  · exact push_count h
  · cases h
    exact ha

theorem splitPass_count (js : List ℕ) (ha : a.count < 2^16) (h : splitPass cap i js a = .ok a') :
    a'.count < 2^16 := by
  induction js generalizing a with
  | nil =>
    cases h
    exact ha
  | cons j js ih =>
    rw [splitPass] at h
    cases hj : splitAtBoundary cap i a j with
    | error e =>
      rw [hj] at h
      cases h
    | ok b =>
      rw [hj] at h
      exact ih (splitAtBoundary_count ha hj) h

theorem splitZone_count (ha : a.count < 2^16) (h : splitZone cap n i a = .ok a') :
    a'.count < 2^16 := by
  unfold splitZone at h
  cases hp : splitPass cap i (List.range (min (n+1) (2^16))) a with
  | error e =>
    rw [hp] at h
    cases h
  | ok b =>
    rw [hp, bind_ok] at h
    split at h
    · cases h
    · cases h
      exact splitPass_count _ ha hp

/-- The counter stays below the number of zones, so it does not wrap and the loop ends. -/
theorem splitLoop_ends (fuel : ℕ) (ha : a.count < 2^16) (hi : i+fuel = 2^16)
    (h : splitZones cap n fuel i a = .ok a') : splitLoop cap n (fuel+1) i a = some (.ok a') := by
  induction fuel generalizing i a with
  | zero =>
    cases h
    rw [splitLoop, if_neg (by omega)]
  | succ fuel ih =>
    rw [splitZones] at h
    rw [splitLoop]
    by_cases hlt : i < a.count
    · rw [if_pos hlt] at h ⊢
      cases hz : splitZone cap n i a with
      | error e =>
        rw [hz] at h
        cases h
      | ok b =>
        rw [hz, bind_ok] at h
        have hnext : (i+1) % 2^16 = i+1 := Nat.mod_eq_of_lt (by omega)
        rw [hnext]
        exact ih (splitZone_count ha hz) (by omega) h
    · rw [if_neg hlt] at h ⊢
      cases h
      rfl

end Loop

section Pages

/-- The numbers of the pages of some zones, with repetitions. -/
def zonePages (z : MemZone) : List ℕ := List.range' (z.mem/2^12) z.pages

def pagesOf (zones : List MemZone) : List ℕ := zones.flatMap zonePages

theorem zonePages_count {z : MemZone} (hz : ZoneOk z) (p : ℕ) :
    (zonePages z).count p = if ZoneHolds z (p*2^12) then 1 else 0 := by
  have hmem : p ∈ zonePages z ↔ ZoneHolds z (p*2^12) := by
    have haligned := hz.aligned
    rw [zonePages, List.mem_range'_1, ZoneHolds]
    omega
  have hnodup : (zonePages z).Nodup := List.nodup_range'
  rw [hnodup.count]
  simp only [hmem]

/-- A page is listed once for each zone that holds it. -/
theorem pagesOf_count {zones : List MemZone} (hz : ∀ z ∈ zones, ZoneOk z) (p : ℕ) :
    (pagesOf zones).count p = zones.countP (fun z => ZoneHolds z (p*2^12)) := by
  induction zones with
  | nil => rfl
  | cons z zones ih =>
    have hhead := zonePages_count (hz z List.mem_cons_self) p
    have htail := ih (fun x hx => hz x (List.mem_cons_of_mem _ hx))
    rw [pagesOf, List.flatMap_cons, List.count_append, hhead, ← pagesOf, htail, List.countP_cons]
    simp only [decide_eq_true_eq]
    omega

end Pages

section Apart

/-- No element of a list shares a point with a later one exactly when no point lies in two. -/
theorem pairwise_apart_iff {α β : Type} (H : α → β → Prop) [∀ x b, Decidable (H x b)] (xs : List α) :
    xs.Pairwise (fun x y => ∀ b, ¬ (H x b ∧ H y b)) ↔ ∀ b, xs.countP (fun x => H x b) ≤ 1 := by
  induction xs with
  | nil => simp
  | cons x xs ih =>
    rw [List.pairwise_cons, ih]
    simp only [List.countP_cons, decide_eq_true_eq]
    constructor
    · rintro ⟨hx, hxs⟩ b
      by_cases hb : H x b
      · have hnone : xs.countP (fun y => H y b) = 0 := by
          rw [List.countP_eq_zero]
          intro y hy hyb
          exact hx y hy b ⟨hb, of_decide_eq_true hyb⟩
        rw [hnone, if_pos hb]
      · rw [if_neg hb]
        exact hxs b
    · intro h
      constructor
      · rintro y hy b ⟨hxb, hyb⟩
        have hpos : 0 < xs.countP (fun z => H z b) := List.countP_pos_iff.mpr ⟨y, hy, by simpa⟩
        have hle := h b
        rw [if_pos hxb] at hle
        omega
      · intro b
        have hle := h b
        omega

/-- No byte lies in both zones. -/
def ZonesApart (z w : MemZone) : Prop := ∀ a, ¬ (ZoneHolds z a ∧ ZoneHolds w a)

theorem apart_of_count {zones out : List MemZone}
    (hcount : ∀ a, out.countP (fun z => ZoneHolds z a) = zones.countP (fun z => ZoneHolds z a))
    (h : zones.Pairwise ZonesApart) : out.Pairwise ZonesApart := by
  refine (pairwise_apart_iff ZoneHolds out).mpr ?_
  intro a
  rw [hcount a]
  exact (pairwise_apart_iff ZoneHolds zones).mp h a

end Apart

/-- What the loop makes of some zones with `n` allocators. -/
structure Split (n : ℕ) (zones out : List MemZone) : Prop where
  window : ∀ z ∈ out, 0 < z.pages → z.mem < memBoundary n →
    memBoundary (mapZoneToAllocator z) ≤ z.mem ∧
      z.mem+z.pages*2^12 ≤ memBoundary (mapZoneToAllocator z+1)
  pages : (pagesOf out).Perm (pagesOf zones)
  apart : zones.Pairwise ZonesApart → out.Pairwise ZonesApart

theorem split_window {n : ℕ} {zones out : List MemZone} (hn : n+1 < 2^16) (h : Pieces n zones out)
    {z : MemZone} (hz : z ∈ out) (hmem : z.mem < memBoundary n) :
    memBoundary (mapZoneToAllocator z) ≤ z.mem ∧
      z.mem+z.pages*2^12 ≤ memBoundary (mapZoneToAllocator z+1) := by
  have hwindow : mapZoneToAllocator z = z.mem/managedMem := by
    unfold memBoundary managedMem at hmem
    unfold mapZoneToAllocator managedMem
    omega
  rw [hwindow]
  unfold memBoundary managedMem at hmem ⊢
  constructor
  · omega
  · -- the boundary behind the window is one of the first `n`
    have hwhole := h.whole z hz (z.mem/2^28+1) (by omega)
    rw [Inside, zoneEnd_eq (h.ok z hz)] at hwhole
    unfold memBoundary managedMem at hwhole
    omega

/-- The loop ends and leaves every zone in one window, with the pages as they were. -/
theorem splitLoop_split (cap n : ℕ) (zones : List MemZone) (a : ZoneArray) (ha : a.list = zones)
    (hz : ∀ z ∈ zones, ZoneOk z) (hn : n < 65535) (htotal : totalPieces n zones < 65536)
    (hcap : totalPieces n zones ≤ cap) :
    ∃ fuel a', splitLoop cap n fuel 0 a = some (.ok a') ∧ a'.count = totalPieces n zones ∧
      Split n zones a'.list := by
  have hcount : a.count = zones.length := by rw [← list_length, ha]
  have hle := length_le_totalPieces n zones
  have hrun := (splitZones_writes cap (show n+1 < 2^16 by omega) (2^16) [] zones a (by simpa using ha)
    (by simp) hz (by omega) (by omega)).1
  rw [List.length_nil, Nat.zero_add] at hrun
  obtain ⟨a', hok, out, hlist, hpieces, hlength⟩ := hrun hcap htotal
  rw [List.nil_append] at hlist
  refine ⟨2^16+1, a', splitLoop_ends (2^16) (by omega) (Nat.zero_add _) hok, ?_, ?_⟩
  · rw [← list_length, hlist, hlength]
  · rw [hlist]
    refine ⟨fun z hzo _ hmem => split_window (by omega) hpieces hzo hmem, ?_,
      apart_of_count hpieces.count⟩
    rw [List.perm_iff_count]
    intro p
    rw [pagesOf_count hpieces.ok, pagesOf_count hz, hpieces.count]

section Small

/-- A zone over two boundaries and one behind the last window. -/
def wideZones : List MemZone := [⟨0xFF00000, 0x20000⟩, ⟨0x40000000, 1⟩]

def wideArray : ZoneArray := ⟨fun i => wideZones.getD i ⟨0, 0⟩, 2⟩

theorem splitLoop_wide :
    ∃ fuel a', splitLoop 4 2 fuel 0 wideArray = some (.ok a') ∧ a'.count = totalPieces 2 wideZones ∧
      Split 2 wideZones a'.list :=
  splitLoop_split 4 2 wideZones wideArray (by decide)
    (List.forall_mem_cons.mpr ⟨⟨by decide, by decide⟩,
      List.forall_mem_cons.mpr ⟨⟨by decide, by decide⟩, by simp⟩⟩)
    (by decide) (by decide) (by decide)

end Small

end BruhOS.PfaSplit
