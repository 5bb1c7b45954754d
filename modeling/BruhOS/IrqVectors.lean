import BruhOS.IrqInstall
import Mathlib.Order.Bounds.Basic
import Mathlib.Tactic

/-!
# The search for a vector, and running out of them

The search is documented to go on with the next level when a level is full.
It counts the levels, but scans the slots of the first one each time and leaves
out the last slot of that level. Both installers compare the result with the
failure value; the timer does not, and its failure value becomes slot 255 and
vector 31.
-/

set_option autoImplicit false

namespace BruhOS.IrqInstall

section Search

variable {table : ℕ → ℕ} {pri : ℕ}

/-- The free slots from `lo` up to `hi`. -/
def freeSlots (table : ℕ → ℕ) (lo hi : ℕ) : Set ℕ :=
  {j | lo ≤ j ∧ j < hi ∧ isHandleFree table j = true}

theorem slotLoop_found (n vec : ℕ) {r : Bool × ℕ} (hr : r.1 = true) :
    slotLoop table n vec r = r := by
  cases n with
  | zero => rfl
  | succ n => rw [slotLoop, if_pos hr]

theorem freeSlots_taken {lo hi : ℕ} (h : isHandleFree table lo = false) :
    freeSlots table lo hi = freeSlots table (lo+1) hi := by
  ext j
  constructor
  · rintro ⟨hlo, hhi, hj⟩
    have hne : j ≠ lo := by
      rintro rfl
      rw [h] at hj
      cases hj
    exact ⟨by omega, hhi, hj⟩
  · rintro ⟨hlo, hhi, hj⟩
    exact ⟨by omega, hhi, hj⟩

/-- The loop over the slots returns the least free one, or has passed over none. -/
theorem slotLoop_least (table : ℕ → ℕ) (n vec slot : ℕ) :
    (slotLoop table n vec (false, slot)).1 = true ∧
      IsLeast (freeSlots table vec (vec+n)) (slotLoop table n vec (false, slot)).2 ∨
    (slotLoop table n vec (false, slot)).1 = false ∧ freeSlots table vec (vec+n) = ∅ := by
  induction n generalizing vec slot with
  | zero =>
    refine Or.inr ⟨rfl, Set.eq_empty_iff_forall_notMem.mpr ?_⟩
    rintro j ⟨hlo, hhi, -⟩
    omega
  | succ n ih =>
    rw [slotLoop, if_neg (by simp)]
    cases hfree : isHandleFree table vec with
    | true =>
      rw [slotLoop_found n (vec+1) rfl]
      refine Or.inl ⟨rfl, ?_⟩
      rw [Bool.toNat_true, Nat.mul_one]
      exact ⟨⟨le_rfl, by omega, hfree⟩, fun j hj => hj.1⟩
    | false =>
      rw [freeSlots_taken hfree, show vec+(n+1) = vec+1+n by omega]
      exact ih (vec+1) _

theorem levelLoop_found (n : ℕ) {r : Bool × ℕ} (hr : r.1 = true) : levelLoop table pri n r = r := by
  cases n with
  | zero => rfl
  | succ n => rw [levelLoop, if_pos hr]

/-- Each pass over the levels scans the same fifteen slots. -/
theorem levelLoop_least (table : ℕ → ℕ) (n slot : ℕ) :
    (levelLoop table pri (n+1) (false, slot)).1 = true ∧
      IsLeast (freeSlots table (pri*16) (pri*16+15)) (levelLoop table pri (n+1) (false, slot)).2 ∨
    (levelLoop table pri (n+1) (false, slot)).1 = false ∧
      freeSlots table (pri*16) (pri*16+15) = ∅ := by
  induction n generalizing slot with
  | zero =>
    rw [levelLoop, if_neg (by simp)]
    exact slotLoop_least table 15 (pri*16) slot
  | succ n ih =>
    rw [levelLoop, if_neg (by simp)]
    rcases slotLoop_least table 15 (pri*16) slot with ⟨hfound, hleast⟩ | ⟨hnot, -⟩
    · rw [levelLoop_found _ hfound]
      exact Or.inl ⟨hfound, hleast⟩
    · rw [← Prod.eta (slotLoop table 15 (pri*16) (false, slot)), hnot]
      exact ih _

theorem requestVectorMin_least (table : ℕ → ℕ) (h : pri ≤ 13) :
    IsLeast (freeSlots table (pri*16) (pri*16+15)) (requestVectorMin table pri) ∨
    freeSlots table (pri*16) (pri*16+15) = ∅ ∧ requestVectorMin table pri = noVector := by
  have hlevels : 14-pri = 13-pri+1 := by omega
  unfold requestVectorMin
  rw [hlevels]
  rcases levelLoop_least table (13-pri) 0 with ⟨hfound, hleast⟩ | ⟨hnot, hempty⟩
  · rw [if_pos hfound]
    exact Or.inl hleast
  · rw [if_neg (by simp [hnot])]
    exact Or.inr ⟨hempty, rfl⟩

theorem requestVectorMin_fails (table : ℕ → ℕ) (h : pri ≤ 13) :
    requestVectorMin table pri = noVector ↔ freeSlots table (pri*16) (pri*16+15) = ∅ := by
  rcases requestVectorMin_least table h with hleast | ⟨hempty, hnone⟩
  · constructor
    · intro hnone
      have hlt := hleast.1.2.1
      rw [hnone] at hlt
      unfold noVector at hlt
      omega
    · intro hempty
      rw [hempty] at hleast
      exact absurd hleast.1 (Set.notMem_empty _)
  · exact iff_of_true hnone hempty

/-- The answer the header promises: the least free slot of this level and all lower ones. -/
def Answers (table : ℕ → ℕ) (pri v : ℕ) : Prop :=
  IsLeast (freeSlots table (pri*16) 224) v ∨ freeSlots table (pri*16) 224 = ∅ ∧ v = noVector

theorem freeSlots_level (h : pri ≤ 13) :
    freeSlots table (pri*16) (pri*16+15) ⊆ freeSlots table (pri*16) 224 := by
  rintro j ⟨hlo, hhi, hj⟩
  exact ⟨hlo, by omega, hj⟩

end Search

/-- The search finds the right slot exactly when one of the first fifteen slots of the level is
free, or none is free from there on. -/
theorem requestVectorMin_answers_iff (table : ℕ → ℕ) (pri : ℕ) (h : pri ≤ 13) :
    Answers table pri (requestVectorMin table pri) ↔
      (freeSlots table (pri*16) (pri*16+15)).Nonempty ∨ freeSlots table (pri*16) 224 = ∅ := by
  rcases requestVectorMin_least table h with hleast | ⟨hempty, hnone⟩
  · refine iff_of_true (Or.inl ⟨freeSlots_level h hleast.1, ?_⟩) (Or.inl ⟨_, hleast.1⟩)
    intro j hj
    by_cases hown : j < pri*16+15
    · exact hleast.2 ⟨hj.1, hown, hj.2.2⟩
    · have hlt := hleast.1.2.1
      omega
  · rw [hempty, hnone]
    constructor
    · rintro (hleast | ⟨hall, -⟩)
      · have hlt := hleast.1.2.1
        unfold noVector at hlt
        omega
      · exact Or.inr hall
    · rintro (⟨j, hj⟩ | hall)
      · exact absurd hj (Set.notMem_empty j)
      · exact Or.inr ⟨hall, rfl⟩

/-- Level 0 is full up to its last slot. -/
def firstLevelFull : ℕ → ℕ := fun j => if j < 15 then 0x1000 else 0

/-- Slot 15 belongs to the level and is free, and so are all lower levels. -/
theorem requestVectorMin_misses :
    requestVectorMin firstLevelFull 0 = noVector ∧
    ¬ Answers firstLevelFull 0 (requestVectorMin firstLevelFull 0) := by
  have hnone : requestVectorMin firstLevelFull 0 = noVector := by decide
  refine ⟨hnone, ?_⟩
  rw [hnone]
  rintro (hleast | ⟨hall, -⟩)
  · exact absurd hleast.1.2.1 (by decide)
  · have h15 : 15 ∈ freeSlots firstLevelFull (0*16) 224 := ⟨by decide, by decide, by decide⟩
    rw [hall] at h15
    exact Set.notMem_empty 15 h15

theorem requestVectorMin_answers_lower :
    Answers firstLevelFull 1 (requestVectorMin firstLevelFull 1) :=
  (requestVectorMin_answers_iff firstLevelFull 1 (by decide)).mpr
    (Or.inl ⟨16, by decide, by decide, by decide⟩)

section Exhaustion

/-- The level a call asks for; the timer asks for the first one. -/
def Call.priority : Call → ℕ
  | .installISA _ _ priority _ => priority
  | .installIRQ _ _ _ priority _ => priority
  | .initLapicTimer _ => 0

def Call.handler : Call → ℕ
  | .installISA _ _ _ handler => handler
  | .installIRQ _ _ _ _ handler => handler
  | .initLapicTimer handler => handler

/-- The index a call passes to `set_handler` and the vector it programs, unless it returns
before. -/
def writesOf (s : Tables) : Call → Option (ℕ × BitVec 8)
  | .installISA gsi _ priority _ =>
    if 15 < gsi.toNat then none
    else
      let idx := requestVectorMin s.handleTable priority
      if idx = noVector then none else some (idx, BitVec.ofNat 8 (idx+32))
  | .installIRQ gsi _ _ priority _ =>
    if gsi.toNat ≤ 15 then none
    else if !isMapped s gsi then none
    else
      let idx := requestVectorMin s.handleTable priority
      if idx = noVector then none else some (idx, BitVec.ofNat 8 (idx+32))
  | .initLapicTimer _ =>
    let irq := BitVec.ofNat 8 (requestVectorMin s.handleTable 0+32)
    some ((irq-32#8).toNat, irq)

/-- The vector stands in the timer register or in the registers of an input. -/
def Programmed (s s' : Tables) (vec : BitVec 8) : Prop :=
  (∃ v, s'.lvtTimer = some v ∧ timerVector v = vec) ∨
    ∃ gsi w, Wrote s s' gsi w ∧ (RedirectEntry.read w).irqn = vec

/-- What a call does to the tables, given what it writes. -/
def Performed (s s' : Tables) (handler : ℕ) : Option (ℕ × BitVec 8) → Prop
  | none => s' = s
  | some (idx, vec) =>
    s'.handleTable = Function.update s.handleTable idx handler ∧ Programmed s s' vec

theorem connected_programmed (s : Tables) (gsi : BitVec 8) (idx handler : ℕ) (e : MappedEntry) :
    Programmed s (connected s gsi idx handler e) e.intVec := by
  refine Or.inr ⟨gsi, _, connected_wrote gsi idx handler e, ?_⟩
  rw [read_masked]

/-- The calls of a run perform the writes listed for them and no others. -/
theorem step_performed (w : Session) (c : Call) :
    Performed w.tables (step w c).tables c.handler (writesOf w.tables c) := by
  cases c with
  | installISA gsi lapicId priority handler =>
    simp only [step, writesOf, installISA]
    split
    · rfl
    · split
      · rfl
      · exact ⟨rfl, connected_programmed _ _ _ _ _⟩
  | installIRQ gsi lapicId flags priority handler =>
    simp only [step, writesOf, installIRQ]
    split
    · rfl
    · split
      · rfl
      · split
        · rfl
        · exact ⟨rfl, connected_programmed _ _ _ _ _⟩
  | initLapicTimer handler => exact ⟨rfl, Or.inl ⟨_, rfl, timerVector_eq _⟩⟩

/-- The handler goes to a free slot and the vector is none of the processor's own; without a
free slot nothing is written. -/
structure Handled (w : Session) (c : Call) : Prop where
  slot : ∀ idx vec, writesOf w.tables c = some (idx, vec) →
    idx < 224 ∧ w.tables.handleTable idx = 0 ∧ 32 ≤ vec.toNat
  failed : requestVectorMin w.tables.handleTable c.priority = noVector → writesOf w.tables c = none

/-- The timer is set up while one of the first fifteen slots is free. -/
def TimerServed (w : Session) : Call → Prop
  | .initLapicTimer _ => (freeSlots w.tables.handleTable 0 15).Nonempty
  | _ => True

variable {w : Session}

theorem vector_least {idx : ℕ} (h : idx < 224) : 32 ≤ (BitVec.ofNat 8 (idx+32)).toNat := by
  rw [vector_toNat h]
  omega

theorem request_free {priority : ℕ} (hp : priority ≤ 13)
    (h : requestVectorMin w.tables.handleTable priority ≠ noVector) :
    requestVectorMin w.tables.handleTable priority < 224 ∧
      w.tables.handleTable (requestVectorMin w.tables.handleTable priority) = 0 := by
  obtain ⟨-, hlt, hfree⟩ := requestVectorMin_spec h
  exact ⟨by omega, hfree⟩

/-- A caller that compares the slot with the failure value is safe. -/
theorem handled_checked {c : Call} (hp : c.priority ≤ 13)
    (h : writesOf w.tables c = none ∨
      requestVectorMin w.tables.handleTable c.priority ≠ noVector ∧
      writesOf w.tables c = some (requestVectorMin w.tables.handleTable c.priority,
        BitVec.ofNat 8 (requestVectorMin w.tables.handleTable c.priority+32))) : Handled w c := by
  rcases h with hnone | ⟨hv, hsome⟩
  · refine ⟨?_, fun _ => hnone⟩
    intro idx vec h
    rw [hnone] at h
    cases h
  · refine ⟨?_, fun h => absurd h hv⟩
    intro idx vec h
    rw [hsome] at h
    cases h
    obtain ⟨hlt, hfree⟩ := request_free hp hv
    exact ⟨hlt, hfree, vector_least hlt⟩

theorem handled_timer (handler : ℕ) :
    Handled w (.initLapicTimer handler) ↔ TimerServed w (.initLapicTimer handler) := by
  have hfails := requestVectorMin_fails w.tables.handleTable (Nat.zero_le 13)
  have hserved : TimerServed w (.initLapicTimer handler) ↔
      requestVectorMin w.tables.handleTable 0 ≠ noVector := by
    rw [Ne, hfails, ← Ne, ← Set.nonempty_iff_ne_empty]
    rfl
  rw [hserved]
  constructor
  · intro h hnone
    have := h.failed hnone
    cases this
  · intro hv
    refine handled_checked (Nat.zero_le 13) (Or.inr ⟨hv, ?_⟩)
    have hlt := (request_free (Nat.zero_le 13) hv).1
    have hidx : (BitVec.ofNat 8 (requestVectorMin w.tables.handleTable 0+32)-32#8).toNat =
        requestVectorMin w.tables.handleTable 0 := by
      rw [BitVec.toNat_sub, vector_toNat hlt, BitVec.toNat_ofNat]
      omega
    simp only [writesOf, hidx]
    rfl

theorem handled_iff {c : Call} (hp : c.priority ≤ 13) : Handled w c ↔ TimerServed w c := by
  cases c with
  | installISA gsi lapicId priority handler =>
    refine iff_of_true (handled_checked hp ?_) trivial
    simp only [writesOf, Call.priority]
    split
    · exact Or.inl rfl
    · split
      · exact Or.inl rfl
      · exact Or.inr ⟨‹_›, rfl⟩
  | installIRQ gsi lapicId flags priority handler =>
    refine iff_of_true (handled_checked hp ?_) trivial
    simp only [writesOf, Call.priority]
    split
    · exact Or.inl rfl
    · split
      · exact Or.inl rfl
      · split
        · exact Or.inl rfl
        · exact Or.inr ⟨‹_›, rfl⟩
  | initLapicTimer handler => exact handled_timer handler

/-- A property of every call of a run, in the state it is made in. -/
def EveryCall (P : Session → Call → Prop) : Session → List Call → Prop
  | _, [] => True
  | w, c::cs => P w c ∧ EveryCall P (step w c) cs

theorem everyCall_append (P : Session → Call → Prop) (w : Session) (cs ds : List Call) :
    EveryCall P w (cs++ds) ↔ EveryCall P w cs ∧ EveryCall P (cs.foldl step w) ds := by
  induction cs generalizing w with
  | nil => simp [EveryCall]
  | cons c cs ih =>
    show P w c ∧ EveryCall P (step w c) (cs++ds) ↔ _
    rw [ih (step w c), ← and_assoc]
    rfl

end Exhaustion

/-- Calls without a vector write nothing exactly when the timer is never set up with all of the
first fifteen slots taken. -/
theorem vectors_handled_iff (w : Session) (cs : List Call) (h : ∀ c ∈ cs, c.priority ≤ 13) :
    EveryCall Handled w cs ↔ EveryCall TimerServed w cs := by
  induction cs generalizing w with
  | nil => exact Iff.rfl
  | cons c cs ih =>
    exact and_congr (handled_iff (h c List.mem_cons_self))
      (ih (step w c) (fun d hd => h d (List.mem_cons_of_mem _ hd)))

/-- Fifteen devices on one line take the slots of level 0 that are searched. -/
def fifteenDevices : List Call := List.replicate 15 (.installISA 2 0 0 0x1000)

/-- The timer is given slot 255 and the reserved vector 31. -/
theorem vectors_exhausted :
    Fresh (oneApic clearEntry) ∧
    ¬ EveryCall Handled ⟨oneApic clearEntry, fun _ => none⟩
      (fifteenDevices++[.initLapicTimer 0x3000]) := by
  refine ⟨⟨fun _ _ => rfl, fun _ => rfl, rfl⟩, ?_⟩
  intro h
  have hlast := ((everyCall_append Handled _ _ _).mp h).2.1
  have hwrites : writesOf (fifteenDevices.foldl step ⟨oneApic clearEntry, fun _ => none⟩).tables
      (.initLapicTimer 0x3000) = some (255, 31#8) := by decide +kernel
  exact absurd (hlast.slot _ _ hwrites).1 (by decide)

theorem vectors_handled_early :
    EveryCall Handled ⟨oneApic clearEntry, fun _ => none⟩
      (.initLapicTimer 0x3000 :: fifteenDevices) := by
  refine (vectors_handled_iff _ _ (by decide)).mpr ?_
  refine ⟨⟨0, by decide, by decide, by decide⟩, ?_⟩
  simp only [fifteenDevices, List.replicate, EveryCall, TimerServed, and_self]

end BruhOS.IrqInstall
