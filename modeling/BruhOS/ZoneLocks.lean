import BruhOS.StdMath
import Mathlib.Data.Nat.Notation
import Mathlib.Logic.Function.Basic

/-!
# The zone flags of the page frame allocator

Every zone has a flag `isusing`. A core in `pfa_alloc_pages` or `pfa_free`
reads the flag until it is clear, exchanges it with true without looking at
what the exchange returns, works on the zone and clears the flag. The read and
the exchange are two memory operations, and any number of cores interleave
them. What the zones hold and how the work changes it are parameters.
-/

set_option autoImplicit false

namespace BruhOS.ZoneLocks

open BruhOS.StdMath

inductive Zone where
  | low
  | normal (i : ℕ)
  deriving DecidableEq, Repr

inductive Call where
  | allocPages (count type : ℕ)
  | free (ptr blockSize : ℕ)
  deriving DecidableEq, Repr

/-- The work of a core inside a zone, with the rounded page count. -/
inductive Work where
  | lowAlloc (count : ℕ)
  | normalAlloc (count : ℕ)
  | free (ptr blockSize : ℕ)
  deriving DecidableEq, Repr

/-- The next memory operation of a core; `idle` is outside the two calls. -/
inductive Pc where
  | idle
  | test (w : Work) (z : Zone)
  | exchange (w : Work) (z : Zone)
  | work (w : Work) (z : Zone)
  | clear (w : Work) (z : Zone) (satisfied : Bool)
  deriving DecidableEq, Repr

structure State (Core Data : Type) where
  isusing : Zone → Bool
  zone : Zone → Data
  pc : Core → Pc

/-- What the protocol needs of the allocators behind the flags. -/
structure Allocators (Data : Type) where
  zoneCount : ℕ
  maxMemReq : Data → ℕ
  /-- The zone after the work, and whether an allocation gave a block or a free succeeded. -/
  perform : Work → Data → Data × Bool

def DMA_LOW : ℕ := 0

/-- The bit field `mem_location` of a request type. -/
def memLocation (type : ℕ) : ℕ := type % 4

/-- `alloc_idx`, a 16-bit variable. -/
def allocIdx (ptr : ℕ) : ℕ := (ptr-ptr % 2^28)/2^28 % 2^16

section Machine

variable {Core Data : Type} (alloc : Allocators Data)

/-- The head of the loop over the normal zones. -/
def nextZone (count i : ℕ) : Pc :=
  if i < alloc.zoneCount then .test (.normalAlloc count) (.normal i) else .idle

def enterAlloc (count type : ℕ) : Pc :=
  if pageCount count*4096 > 2^28 ∨ pageCount count = 0 then .idle
  else if memLocation type = DMA_LOW then .test (.lowAlloc (pageCount count)) .low
  else nextZone alloc (pageCount count) 0

def enterFree (ptr blockSize : ℕ) : Pc :=
  if ptr = 0 ∨ pageCount blockSize > 2^16 ∨
    (ptr < 0x400000 ∧ ptr+pageCount blockSize*4096 > 0x400000) ∨ pageCount blockSize = 0 then .idle
  else if ptr < 0x400000 then .test (.free ptr (pageCount blockSize)) .low
  else .test (.free ptr (pageCount blockSize)) (.normal (allocIdx ptr))

def enter : Call → Pc
  | .allocPages count type => enterAlloc alloc count type
  | .free ptr blockSize => enterFree ptr blockSize

/-- The condition of the wait loops: only the loop of normal allocations reads `maxMemReq`. -/
def waits (w : Work) (isusing : Bool) (d : Data) : Bool :=
  match w with
  | .normalAlloc count => isusing || decide (alloc.maxMemReq d < count)
  | _ => isusing

/-- Where a core goes after its work: a failed free returns without a clear. -/
def afterWork (w : Work) (z : Zone) (done : Bool) : Pc :=
  match w with
  | .free _ _ => if done then .clear w z true else .idle
  | _ => .clear w z done

/-- Where a core goes after its clear. -/
def afterClear (w : Work) (z : Zone) (satisfied : Bool) : Pc :=
  match w, z with
  | .normalAlloc count, .normal i =>
    if satisfied then .idle else nextZone alloc count (i+1)
  | _, _ => .idle

def setUsing (s : State Core Data) (z : Zone) (v : Bool) : State Core Data :=
  { s with isusing := Function.update s.isusing z v }

def setZone (s : State Core Data) (z : Zone) (d : Data) : State Core Data :=
  { s with zone := Function.update s.zone z d }

/-- The zone between whose exchange and clear a core is. -/
@[simp] def Pc.inside : Pc → Option Zone
  | .work _ z => some z
  | .clear _ z _ => some z
  | _ => none

def Inside (s : State Core Data) (t : Core) (z : Zone) : Prop := (s.pc t).inside = some z

instance (s : State Core Data) (t : Core) (z : Zone) : Decidable (Inside s t z) :=
  inferInstanceAs (Decidable (_ = _))

/-- A state with all flags clear and no core in a call. -/
def Quiet (s : State Core Data) : Prop := (∀ z, s.isusing z = false) ∧ ∀ t, s.pc t = .idle

/-- At most one core in a zone, and none where the flag is clear. -/
structure Inv (s : State Core Data) : Prop where
  single : ∀ t u z, Inside s t z → Inside s u z → t = u
  flagged : ∀ t z, Inside s t z → s.isusing z = true

theorem inv_of_quiet {s : State Core Data} (h : Quiet s) : Inv s where
  single := by
    intro t u z ht
    simp [Inside, h.2 t] at ht
  flagged := by
    intro t z ht
    simp [Inside, h.2 t] at ht

theorem inv_setZone {s : State Core Data} (h : Inv s) (z : Zone) (d : Data) : Inv (setZone s z d) :=
  ⟨h.single, h.flagged⟩

variable [DecidableEq Core]

def goto (s : State Core Data) (t : Core) (pc : Pc) : State Core Data :=
  { s with pc := Function.update s.pc t pc }

/-- One memory operation of core `t`. -/
def step (s : State Core Data) (t : Core) : State Core Data :=
  match s.pc t with
  | .idle => s
  | .test w z => if waits alloc w (s.isusing z) (s.zone z) then s else goto s t (.exchange w z)
  | .exchange w z => goto (setUsing s z true) t (.work w z)
  | .work w z =>
    goto (setZone s z (alloc.perform w (s.zone z)).1) t
      (afterWork w z (alloc.perform w (s.zone z)).2)
  | .clear w z satisfied => goto (setUsing s z false) t (afterClear alloc w z satisfied)

/-- A call that a core makes, or one memory operation. -/
inductive Event (Core : Type) where
  | call (t : Core) (c : Call)
  | step (t : Core)
  deriving DecidableEq, Repr

/-- A call of a core that is still in one has no effect. -/
def event (s : State Core Data) : Event Core → State Core Data
  | .call t c => if s.pc t = .idle then goto s t (enter alloc c) else s
  | .step t => step alloc s t

def run : List (Event Core) → State Core Data → State Core Data
  | [], s => s
  | e::es, s => run es (event alloc s e)

/-- The flag is still clear when a core reaches its exchange. -/
def Meets (s : State Core Data) : Event Core → Prop
  | .call _ _ => True
  | .step t =>
    match s.pc t with
    | .exchange _ z => s.isusing z = false
    | _ => True

def MeetsAll : List (Event Core) → State Core Data → Prop
  | [], _ => True
  | e::es, s => Meets s e ∧ MeetsAll es (event alloc s e)

section Steps

variable {alloc} {s : State Core Data} {t : Core}

theorem inside_goto_of_ne {u : Core} (hu : u ≠ t) (pc : Pc) (z : Zone) :
    Inside (goto s t pc) u z ↔ Inside s u z := by
  simp [Inside, goto, hu]

/-- A core that moves to a place it was already inside of, or leaves. -/
theorem inv_goto (h : Inv s) (pc : Pc)
    (hp : ∀ z, Inside (goto s t pc) t z → Inside s t z) : Inv (goto s t pc) := by
  have hback : ∀ u z, Inside (goto s t pc) u z → Inside s u z := by
    intro u z hu
    by_cases hut : u = t
    · rw [hut] at hu ⊢
      exact hp z hu
    · exact (inside_goto_of_ne hut pc z).mp hu
  constructor
  · intro u v z hu hv
    exact h.single u v z (hback u z hu) (hback v z hv)
  · intro u z hu
    exact h.flagged u z (hback u z hu)

theorem inv_exchange {w : Work} {z : Zone} (h : Inv s) (hf : s.isusing z = false) :
    Inv (goto (setUsing s z true) t (.work w z)) := by
  -- nobody is inside of a zone whose flag is clear
  have hnone : ∀ u, ¬ Inside s u z := by
    intro u hu
    rw [h.flagged u z hu] at hf
    exact absurd hf (by decide)
  have hcases : ∀ u z', Inside (goto (setUsing s z true) t (.work w z)) u z' →
      (u = t ∧ z' = z) ∨ (u ≠ t ∧ z' ≠ z ∧ Inside s u z') := by
    intro u z' hu
    by_cases hut : u = t
    · left
      rw [hut] at hu
      simp only [Inside, goto, Function.update_self, Pc.inside, Option.some.injEq] at hu
      exact ⟨hut, hu.symm⟩
    · right
      have hin : Inside s u z' := (inside_goto_of_ne hut _ z').mp hu
      refine ⟨hut, ?_, hin⟩
      intro hz
      rw [hz] at hin
      exact hnone u hin
  constructor
  · intro u v z' hu hv
    rcases hcases u z' hu with ⟨hut, hz⟩ | ⟨-, hz, hin⟩
    · rcases hcases v z' hv with ⟨hvt, -⟩ | ⟨-, hz', -⟩
      · rw [hut, hvt]
      · exact absurd hz hz'
    · rcases hcases v z' hv with ⟨-, hz'⟩ | ⟨-, -, hin'⟩
      · exact absurd hz' hz
      · exact h.single u v z' hin hin'
  · intro u z' hu
    rcases hcases u z' hu with ⟨-, hz⟩ | ⟨-, hz, hin⟩
    · simp [goto, setUsing, hz]
    · simp only [goto, setUsing, Function.update_of_ne hz]
      exact h.flagged u z' hin

theorem inside_afterClear (w : Work) (z z' : Zone) (b : Bool) :
    ¬ Inside (goto s t (afterClear alloc w z b)) t z' := by
  simp only [Inside, goto, Function.update_self, afterClear]
  cases w with
  | normalAlloc count =>
    cases z with
    | low => simp
    | normal i =>
      by_cases hb : b = true
      · simp [hb]
      · by_cases hi : i+1 < alloc.zoneCount
        · simp [hb, nextZone, hi]
        · simp [hb, nextZone, hi]
  | lowAlloc count => simp
  | free ptr blockSize => simp

theorem inv_clear {w : Work} {z : Zone} {b : Bool} (h : Inv s) (hpc : s.pc t = .clear w z b) :
    Inv (goto (setUsing s z false) t (afterClear alloc w z b)) := by
  have hself : Inside s t z := by simp [Inside, hpc]
  have hcases : ∀ u z', Inside (goto (setUsing s z false) t (afterClear alloc w z b)) u z' →
      Inside s u z' ∧ z' ≠ z := by
    intro u z' hu
    by_cases hut : u = t
    · rw [hut] at hu
      exact absurd hu (inside_afterClear w z z' b)
    · have hin : Inside s u z' := (inside_goto_of_ne hut _ z').mp hu
      refine ⟨hin, ?_⟩
      intro hz
      rw [hz] at hin
      exact hut (h.single u t z hin hself)
  constructor
  · intro u v z' hu hv
    exact h.single u v z' (hcases u z' hu).1 (hcases v z' hv).1
  · intro u z' hu
    simp only [goto, setUsing, Function.update_of_ne (hcases u z' hu).2]
    exact h.flagged u z' (hcases u z' hu).1

theorem inside_afterWork {w : Work} {z z' : Zone} {b : Bool} (hpc : s.pc t = .work w z)
    (hu : Inside (goto s t (afterWork w z b)) t z') : Inside s t z' := by
  simp only [Inside, goto, Function.update_self, afterWork] at hu
  simp only [Inside, hpc]
  cases w with
  | normalAlloc count => exact hu
  | lowAlloc count => exact hu
  | free ptr blockSize =>
    cases b with
    | false => simp at hu
    | true => exact hu

theorem inv_step (h : Inv s) (hm : Meets s (.step t)) : Inv (step alloc s t) := by
  unfold step
  cases hpc : s.pc t with
  | idle => exact h
  | test w z =>
    by_cases hw : waits alloc w (s.isusing z) (s.zone z) = true
    · simp only [hw, if_true]
      exact h
    · simp only [hw, Bool.false_eq_true, if_false]
      exact inv_goto h _ (by simp [Inside, goto])
  | exchange w z =>
    simp only [Meets, hpc] at hm
    exact inv_exchange h hm
  | work w z =>
    apply inv_goto (inv_setZone h z _)
    intro z' hu
    exact inside_afterWork (s := setZone s z _) hpc hu
  | clear w z b => exact inv_clear h hpc

theorem enterFree_cases (ptr blockSize : ℕ) :
    enterFree ptr blockSize = .idle ∨ ∃ w z, enterFree ptr blockSize = .test w z := by
  unfold enterFree
  split
  · exact Or.inl rfl
  · split
    · exact Or.inr ⟨_, _, rfl⟩
    · exact Or.inr ⟨_, _, rfl⟩

theorem enterAlloc_cases (count type : ℕ) :
    enterAlloc alloc count type = .idle ∨ ∃ w z, enterAlloc alloc count type = .test w z := by
  unfold enterAlloc
  split
  · exact Or.inl rfl
  · split
    · exact Or.inr ⟨_, _, rfl⟩
    · unfold nextZone
      split
      · exact Or.inr ⟨_, _, rfl⟩
      · exact Or.inl rfl

theorem inside_enter (c : Call) (z : Zone) : ¬ Inside (goto s t (enter alloc c)) t z := by
  have hcases : enter alloc c = .idle ∨ ∃ w z, enter alloc c = .test w z := by
    cases c with
    | allocPages count type => exact enterAlloc_cases count type
    | free ptr blockSize => exact enterFree_cases ptr blockSize
  simp only [Inside, goto, Function.update_self]
  rcases hcases with h | ⟨w, z', h⟩
  · simp [h]
  · simp [h]

theorem inv_event (h : Inv s) (e : Event Core) (hm : Meets s e) : Inv (event alloc s e) := by
  cases e with
  | call t c =>
    simp only [event]
    split_ifs
    · exact inv_goto h _ (fun z hz => absurd hz (inside_enter c z))
    · exact h
  | step t => exact inv_step h hm

theorem inv_run (es : List (Event Core)) (s : State Core Data) (h : Inv s)
    (hm : MeetsAll alloc es s) : Inv (run alloc es s) := by
  induction es generalizing s with
  | nil => exact h
  | cons e es ih => exact ih _ (inv_event h e hm.1) hm.2

end Steps

/-- In a run in which no core exchanges a flag that has been set since it read
it clear, no two cores are inside of one zone. -/
theorem zone_exclusion (s : State Core Data) (hs : Quiet s) (es : List (Event Core))
    (hm : MeetsAll alloc es s) (t u : Core) (z : Zone) (ht : Inside (run alloc es s) t z)
    (hu : Inside (run alloc es s) u z) : t = u :=
  (inv_run es s (inv_of_quiet hs) hm).single t u z ht hu

end Machine

/-- One zone allocator that never has a block. -/
def exhausted : Allocators Unit := ⟨1, fun _ => 0, fun _ d => (d, false)⟩

def quiet : State ℕ Unit := ⟨fun _ => false, fun _ => (), fun _ => .idle⟩

theorem quiet_quiet : Quiet quiet := ⟨fun _ => rfl, fun _ => rfl⟩

/-- Core 1 comes to the wait loop when core 0 is inside. -/
def inTurn : List (Event ℕ) :=
  [.call 0 (.allocPages 1 DMA_LOW), .call 1 (.allocPages 1 DMA_LOW), .step 0, .step 0, .step 1]

theorem zone_exclusion_inTurn : Inside (run exhausted inTurn quiet) 0 .low ∧
    ¬ Inside (run exhausted inTurn quiet) 1 .low := by
  have hm : MeetsAll exhausted inTurn quiet := by
    refine ⟨trivial, trivial, trivial, ?_, trivial, trivial⟩
    show quiet.isusing .low = false
    rfl
  have h0 : Inside (run exhausted inTurn quiet) 0 .low := by decide
  refine ⟨h0, ?_⟩
  intro h1
  exact absurd (zone_exclusion exhausted quiet quiet_quiet inTurn hm 0 1 .low h0 h1) (by decide)

/-- Both cores read the flag before either of them exchanges it. -/
def together : List (Event ℕ) :=
  [.call 0 (.allocPages 1 DMA_LOW), .call 1 (.allocPages 1 DMA_LOW),
    .step 0, .step 1, .step 0, .step 1]

theorem zone_shared : Quiet quiet ∧ Inside (run exhausted together quiet) 0 .low ∧
    Inside (run exhausted together quiet) 1 .low := by
  refine ⟨quiet_quiet, ?_, ?_⟩
  · decide
  · decide

end BruhOS.ZoneLocks
