import BruhOS.IrqRouter
import BruhOS.RecordWalk

/-!
# The router on an arbitrary MADT

Nothing is known about the bytes of the record area here: the loops step by the
length byte of each record, and a record may reach past the end of the area.
The loop over the inputs compares an 8-bit counter with a 64-bit count that
grows with every I/O APIC. The scan ends, and stays inside the tables of the
router, only for some tables and some values of the version registers.
-/

set_option autoImplicit false

namespace BruhOS.IrqScan

open BruhOS.IrqRouter
open BruhOS.Paging (virt)
open BruhOS.RecordWalk

/-- The bytes of a record that the passes read, inside the area or not. -/
def record (mem : ℕ → ℕ) (pos : ℕ) : List ℕ := (List.range 12).map (fun i => mem (pos+i))

def recordLength (mem : ℕ → ℕ) (pos : ℕ) : ℕ := mem (pos+1)

/-- `hdr.length - sizeof(hdr) - 8`. -/
def tableSize (length : ℕ) : ℕ := (length+(2^64-36)+(2^64-8)) % 2^64

def overrideBody (mem : ℕ → ℕ) (_ pos : ℕ) (r : Router) : Option (Except Fault Router) :=
  match override? (record mem pos) with
  | some o => some (applyOverride r o)
  | none => some (.ok r)

/-- The loop over the inputs, with its 8-bit counter. -/
def inputLoop (a : IOApic) (addr irqs : ℕ) : ℕ → ℕ → Router → Option (Except Fault Router)
  | 0, _, _ => none
  | fuel+1, i, r =>
    if i < irqs then
      if a.gsiBase+i < 256 then
        inputLoop a addr irqs fuel ((i+1) % 2^8)
          { r with
            re := Function.update r.re (a.gsiBase+i)
              { r.re (a.gsiBase+i) with apicID := a.ioApicId, apicInputIdx := i }
            writes := r.writes++[(addr, redirectLow i, 1 <<< 16)] }
      else some (.error .outOfBounds)
    else some (.ok r)

/-- The second pass: the version registers read so far, the counter of inputs and the router. -/
structure Pass where
  reads : ℕ
  irqs : ℕ
  router : Router

/-- The maximum redirection entry of a version register. -/
def lastInput (version : ℕ) : ℕ := version >>> 16 % 2^8

def enterApic (off : ℕ) (a : IOApic) (irqs : ℕ) (r : Router) : Router :=
  { r with
    ioapics := Function.update r.ioapics r.activeAPICs (a.ioApicId, virt off a.address)
    activeAPICs := (r.activeAPICs+1) % 2^8
    activeIRQs := (r.activeIRQs+irqs) % 2^8 }

/-- `version k` is what the `k`-th read of a version register returns. -/
def apicBody (off : ℕ) (version mem : ℕ → ℕ) (fuel pos : ℕ) (s : Pass) :
    Option (Except Fault Pass) :=
  match ioapic? (record mem pos) with
  | none => some (.ok s)
  | some a =>
    let irqs := (s.irqs+lastInput (version s.reads)) % 2^64
    match inputLoop a (virt off a.address) irqs fuel 0 s.router with
    | some (.ok r) =>
      if r.activeAPICs < 4 then some (.ok ⟨s.reads+1, irqs, enterApic off a irqs r⟩)
      else some (.error .outOfBounds)
    | some (.error e) => some (.error e)
    | none => none

def initIrqRouter (off : ℕ) (version mem : ℕ → ℕ) (length fuel : ℕ) :
    Option (Except Fault Router) :=
  match walk (tableSize length) (recordLength mem) (overrideBody mem) fuel 0 initialRouter with
  | some (.ok r) =>
    match walk (tableSize length) (recordLength mem) (apicBody off version mem) fuel 0 ⟨0, 1, r⟩ with
    | some (.ok s) => some (.ok s.router)
    | some (.error e) => some (.error e)
    | none => none
  | some (.error e) => some (.error e)
  | none => none

theorem tableSize_eq {length : ℕ} (h : 44 ≤ length) (hl : length < 2^32) :
    tableSize length = length-44 := by
  unfold tableSize
  omega

section Inputs

variable {a : IOApic} {addr irqs : ℕ}

theorem inputLoop_mono (i : ℕ) (r : Router) :
    RecordWalk.Monotone (fun fuel => inputLoop a addr irqs fuel i r) := by
  intro fuel
  induction fuel generalizing i r with
  | zero =>
    intro r' h
    cases h
  | succ fuel ih =>
    intro r' h
    simp only [inputLoop] at h ih ⊢
    by_cases hi : i < irqs
    · by_cases hg : a.gsiBase+i < 256
      · rw [if_pos hi, if_pos hg] at h ⊢
        exact ih _ _ r' h
      · rw [if_pos hi, if_neg hg] at h
        cases h
    · rw [if_neg hi] at h ⊢
      exact h

/-- With at most 255 inputs the counter does not wrap. -/
theorem inputLoop_counts (h : irqs < 256) (n i : ℕ) (hi : i+n = irqs) (fuel : ℕ) (hf : n < fuel)
    (r : Router) :
    inputLoop a addr irqs fuel i r = some (IrqRouter.inputLoop a addr n i r) := by
  induction n generalizing i fuel r with
  | zero =>
    obtain ⟨fuel, rfl⟩ : ∃ k, fuel = k+1 := ⟨fuel-1, by omega⟩
    rw [inputLoop, if_neg (by omega)]
    rfl
  | succ n ih =>
    obtain ⟨fuel, rfl⟩ : ∃ k, fuel = k+1 := ⟨fuel-1, by omega⟩
    rw [inputLoop, if_pos (by omega), IrqRouter.inputLoop]
    by_cases hg : a.gsiBase+i < 256
    · rw [if_pos hg, if_pos hg, Nat.mod_eq_of_lt (by omega)]
      exact ih (i+1) (by omega) fuel (by omega) _
    · rw [if_neg hg, if_neg hg]

/-- With 256 inputs or more the counter never reaches the end. -/
theorem inputLoop_wraps (h : 256 ≤ irqs) (fuel i : ℕ) (hi : i < 256) (r r' : Router) :
    inputLoop a addr irqs fuel i r ≠ some (.ok r') := by
  induction fuel generalizing i r with
  | zero =>
    intro heq
    cases heq
  | succ fuel ih =>
    intro heq
    rw [inputLoop, if_pos (by omega)] at heq
    by_cases hg : a.gsiBase+i < 256
    · rw [if_pos hg] at heq
      exact ih _ (Nat.mod_lt _ (by decide)) _ heq
    · rw [if_neg hg] at heq
      cases heq

theorem inputLoop_ends (hpos : 0 < irqs) (r r' : Router) :
    Ends (fun fuel => inputLoop a addr irqs fuel 0 r) r' ↔
      (irqs < 256 ∧ a.gsiBase+irqs ≤ 256) ∧ r' = recordInputs a addr irqs 0 r := by
  have hloop := inputLoop_eq a addr irqs 0 r
  rw [Nat.add_zero] at hloop
  constructor
  · intro h
    by_cases hlt : irqs < 256
    · obtain ⟨fuel, hfuel⟩ := h
      have hcount := (inputLoop_mono 0 r).le (le_max_left fuel (irqs+1)) hfuel
      rw [inputLoop_counts hlt irqs 0 (Nat.zero_add _) _ (by omega), hloop] at hcount
      by_cases hfit : irqs = 0 ∨ a.gsiBase+irqs ≤ 256
      · rw [if_pos hfit] at hcount
        cases hcount
        exact ⟨⟨hlt, hfit.resolve_left (by omega)⟩, rfl⟩
      · rw [if_neg hfit] at hcount
        cases hcount
    · obtain ⟨fuel, hfuel⟩ := h
      exact absurd hfuel (inputLoop_wraps (by omega) fuel 0 (by decide) r r')
  · rintro ⟨⟨hlt, hfit⟩, rfl⟩
    refine ⟨irqs+1, ?_⟩
    show inputLoop a addr irqs (irqs+1) 0 r = _
    rw [inputLoop_counts hlt irqs 0 (Nat.zero_add _) _ (by omega), hloop, if_pos (Or.inr hfit)]

end Inputs

section Overrides

variable {mem : ℕ → ℕ}

theorem overrideBody_mono (pos : ℕ) (r : Router) :
    RecordWalk.Monotone (fun fuel => overrideBody mem fuel pos r) := fun _ _ h => h

/-- The records that a pass reads as overrides or I/O APICs. -/
def overridesAt (mem : ℕ → ℕ) (ps : List ℕ) : List Override :=
  overrides (ps.map (record mem))

def apicsAt (mem : ℕ → ℕ) (ps : List ℕ) : List IOApic :=
  apics (ps.map (record mem))

theorem passes_overrides (ps : List ℕ) (r r' : Router) :
    Passes (overrideBody mem) ps r r' ↔ applyOverrides (overridesAt mem ps) r = .ok r' := by
  induction ps generalizing r with
  | nil => exact ⟨fun h => by rw [h]; rfl, fun h => (Except.ok.inj h).symm⟩
  | cons p ps ih =>
    rw [Passes, overridesAt, List.map_cons, overrides]
    simp only [overrideBody, ih]
    cases ho : override? (record mem p) with
    | none =>
      rw [List.filterMap_cons_none ho]
      constructor
      · rintro ⟨t, ⟨_, ht⟩, h⟩
        cases ht
        exact h
      · intro h
        exact ⟨r, ⟨0, rfl⟩, h⟩
    | some o =>
      rw [List.filterMap_cons_some ho, applyOverrides]
      constructor
      · rintro ⟨t, ⟨_, ht⟩, h⟩
        rw [Option.some.inj ht]
        exact h
      · intro h
        cases hr : applyOverride r o with
        | error e =>
          rw [hr] at h
          cases h
        | ok t =>
          rw [hr] at h
          exact ⟨t, ⟨0, congrArg some hr⟩, h⟩

/-- The overrides are applied exactly when each names an entry of the table. -/
theorem applyOverrides_ok (os : List Override) (r : Router) :
    (∃ r', applyOverrides os r = .ok r') ↔ ∀ o ∈ os, o.gsi < 256 := by
  constructor
  · induction os generalizing r with
    | nil =>
      rintro - o ho
      cases ho
    | cons o os ih =>
      rintro ⟨r', h⟩
      rw [applyOverrides, applyOverride] at h
      by_cases hg : o.gsi < 256
      · rw [if_pos hg] at h
        exact List.forall_mem_cons.mpr ⟨hg, ih _ ⟨r', h⟩⟩
      · rw [if_neg hg] at h
        cases h
  · intro h
    obtain ⟨re, hre, -⟩ := applyOverrides_spec os r h
    exact ⟨_, hre⟩

theorem applyOverrides_kept {os : List Override} {r r' : Router} (h : applyOverrides os r = .ok r') :
    r'.activeAPICs = r.activeAPICs := by
  obtain ⟨re, hre, -⟩ := applyOverrides_spec os r ((applyOverrides_ok os r).mp ⟨r', h⟩)
  rw [hre] at h
  cases h
  rfl

end Overrides

section Apics

variable {off : ℕ} {version mem : ℕ → ℕ}

/-- The value of the counter for the `k`-th I/O APIC. -/
def counted (version : ℕ → ℕ) (k : ℕ) : ℕ :=
  1+((List.range (k+1)).map (fun j => lastInput (version j))).sum

/-- The counter before the `k`-th I/O APIC. -/
def countedBefore (version : ℕ → ℕ) (k : ℕ) : ℕ :=
  1+((List.range k).map (fun j => lastInput (version j))).sum

theorem countedBefore_succ (version : ℕ → ℕ) (k : ℕ) :
    countedBefore version (k+1) = countedBefore version k+lastInput (version k) := by
  simp only [countedBefore, List.range_succ, List.map_append, List.sum_append, List.map_singleton,
    List.sum_singleton]
  omega

theorem lastInput_lt (v : ℕ) : lastInput v < 256 := Nat.mod_lt _ (by decide)

/-- `k` I/O APICs have been entered. -/
structure At (version : ℕ → ℕ) (k : ℕ) (s : Pass) : Prop where
  reads : s.reads = k
  irqs : s.irqs = countedBefore version k
  small : s.irqs < 256
  apics : s.router.activeAPICs = k

/-- The router has room for the `k`-th I/O APIC and its inputs. -/
def Accepted (version : ℕ → ℕ) (k : ℕ) (a : IOApic) : Prop :=
  k < 4 ∧ counted version k < 256 ∧ a.gsiBase+counted version k ≤ 256

/-- The state after the `k`-th I/O APIC. -/
def entered (off : ℕ) (version : ℕ → ℕ) (k : ℕ) (a : IOApic) (s : Pass) : Pass where
  reads := k+1
  irqs := counted version k
  router := recordApic off a (counted version k) s.router

theorem apicBody_mono (pos : ℕ) (s : Pass) :
    RecordWalk.Monotone (fun fuel => apicBody off version mem fuel pos s) := by
  intro fuel s' h
  simp only [apicBody] at h ⊢
  cases ha : ioapic? (record mem pos) with
  | none =>
    rw [ha] at h
    exact h
  | some a =>
    rw [ha] at h
    simp only at h ⊢
    cases hl : inputLoop a (virt off a.address) ((s.irqs+lastInput (version s.reads)) % 2^64) fuel 0
        s.router with
    | none =>
      rw [hl] at h
      cases h
    | some out =>
      cases out with
      | error e =>
        rw [hl] at h
        cases h
      | ok r =>
        have hmore : inputLoop a (virt off a.address) ((s.irqs+lastInput (version s.reads)) % 2^64)
            (fuel+1) 0 s.router = some (.ok r) := inputLoop_mono 0 s.router fuel r hl
        rw [hmore]
        rw [hl] at h
        exact h

theorem apicBody_ends {k p : ℕ} {s : Pass} {a : IOApic} (hs : At version k s)
    (ha : ioapic? (record mem p) = some a) (t : Pass) :
    Ends (fun fuel => apicBody off version mem fuel p s) t ↔
      Accepted version k a ∧ t = entered off version k a s := by
  have hirqs : (s.irqs+lastInput (version s.reads)) % 2^64 = counted version k := by
    have hlt := lastInput_lt (version s.reads)
    have hsmall := hs.small
    rw [Nat.mod_eq_of_lt (by omega), hs.irqs, hs.reads]
    exact (countedBefore_succ version k).symm
  have hpos : 0 < counted version k := by
    unfold counted
    omega
  have hloop : ∀ r, Ends (fun fuel => inputLoop a (virt off a.address) (counted version k) fuel 0
      s.router) r ↔ _ := inputLoop_ends hpos s.router
  constructor
  · rintro ⟨fuel, h⟩
    simp only [apicBody, ha, hirqs] at h
    cases hl : inputLoop a (virt off a.address) (counted version k) fuel 0 s.router with
    | none =>
      rw [hl] at h
      cases h
    | some out =>
      cases out with
      | error e =>
        rw [hl] at h
        cases h
      | ok r =>
        obtain ⟨⟨hlt, hfit⟩, rfl⟩ := (hloop r).mp ⟨fuel, hl⟩
        simp only [hl] at h
        have hapics : (recordInputs a (virt off a.address) (counted version k) 0
            s.router).activeAPICs = k := hs.apics
        by_cases hk : k < 4
        · rw [if_pos (by rw [hapics]; exact hk), hs.reads] at h
          cases h
          exact ⟨⟨hk, hlt, hfit⟩, rfl⟩
        · rw [if_neg (by rw [hapics]; exact hk)] at h
          cases h
  · rintro ⟨⟨hk, hlt, hfit⟩, rfl⟩
    obtain ⟨fuel, hl⟩ := (hloop _).mpr ⟨⟨hlt, hfit⟩, rfl⟩
    refine ⟨fuel, ?_⟩
    have hapics : (recordInputs a (virt off a.address) (counted version k) 0
        s.router).activeAPICs = k := hs.apics
    simp only at hl
    simp only [apicBody, ha, hirqs, hl]
    rw [if_pos (by rw [hapics]; exact hk), hs.reads]
    rfl

theorem entered_at {k : ℕ} {s : Pass} {a : IOApic} (hs : At version k s)
    (ha : Accepted version k a) : At version (k+1) (entered off version k a s) where
  reads := rfl
  irqs := rfl
  small := ha.2.1
  apics := by
    have hk := ha.1
    show (s.router.activeAPICs+1) % 2^8 = k+1
    rw [hs.apics, Nat.mod_eq_of_lt (by omega)]

theorem passes_apics (ps : List ℕ) (k : ℕ) (s : Pass) (hs : At version k s) :
    (∃ s', Passes (apicBody off version mem) ps s s') ↔
      ∀ j a, (apicsAt mem ps)[j]? = some a → Accepted version (k+j) a := by
  induction ps generalizing k s with
  | nil => exact ⟨fun _ j a h => by simp [apicsAt, apics] at h, fun _ => ⟨s, rfl⟩⟩
  | cons p ps ih =>
    cases ha : ioapic? (record mem p) with
    | none =>
      rw [apicsAt, List.map_cons, apics, List.filterMap_cons_none ha]
      have hbody : ∀ t, Ends (fun fuel => apicBody off version mem fuel p s) t ↔ t = s := by
        intro t
        simp only [Ends, apicBody, ha]
        constructor
        · rintro ⟨-, h⟩
          cases h
          rfl
        · intro h
          exact ⟨0, by rw [h]⟩
      rw [← apics, ← apicsAt, ← ih k s hs]
      simp only [Passes, hbody, exists_eq_left]
    | some a =>
      rw [apicsAt, List.map_cons, apics, List.filterMap_cons_some ha, ← apics, ← apicsAt]
      simp only [Passes, apicBody_ends hs ha]
      constructor
      · rintro ⟨s', t, ⟨hacc, rfl⟩, hrest⟩ j b hj
        have htail := (ih (k+1) _ (entered_at hs hacc)).mp ⟨s', hrest⟩
        cases j with
        | zero =>
          cases hj
          exact hacc
        | succ j =>
          rw [show k+(j+1) = k+1+j by omega]
          exact htail j b hj
      · intro h
        have hacc : Accepted version k a := h 0 a rfl
        have hnext : At version (k+1) (entered off version k a s) := entered_at hs hacc
        obtain ⟨s', hrest⟩ := (ih (k+1) _ hnext).mpr (by
          intro j b hj
          rw [show k+1+j = k+(j+1) by omega]
          exact h (j+1) b hj)
        exact ⟨s', _, ⟨hacc, rfl⟩, hrest⟩

end Apics

/-- The records that the passes visit, by their offsets in an area of `size` bytes. -/
def recordsOf (mem : ℕ → ℕ) (size : ℕ) : List ℕ := visited size (recordLength mem)

/-- Every record moves the scan on, overrides name entries of the table, and the router has room
for the I/O APICs and the inputs counted for them. -/
structure Scannable (version mem : ℕ → ℕ) (size : ℕ) : Prop where
  moves : ∀ p ∈ recordsOf mem size, recordLength mem p ≠ 0
  overrides : ∀ o ∈ overridesAt mem (recordsOf mem size), o.gsi < 256
  apics : ∀ (k : ℕ) a, (apicsAt mem (recordsOf mem size))[k]? = some a → Accepted version k a

section Scan

variable {off : ℕ} {version mem : ℕ → ℕ} {length : ℕ}

theorem initIrqRouter_ends (r : Router) :
    Ends (fun fuel => initIrqRouter off version mem length fuel) r ↔
      ∃ r₁ s, Ends (fun fuel => walk (tableSize length) (recordLength mem) (overrideBody mem) fuel 0
        initialRouter) r₁ ∧
      Ends (fun fuel => walk (tableSize length) (recordLength mem) (apicBody off version mem) fuel 0
        ⟨0, 1, r₁⟩) s ∧ r = s.router := by
  constructor
  · rintro ⟨fuel, h⟩
    simp only [initIrqRouter] at h
    split at h
    · rename_i r₁ h1
      split at h
      · rename_i s h2
        cases h
        exact ⟨r₁, s, ⟨fuel, h1⟩, ⟨fuel, h2⟩, rfl⟩
      · cases h
      · cases h
    · cases h
    · cases h
  · rintro ⟨r₁, s, ⟨m, h1⟩, ⟨n, h2⟩, rfl⟩
    have h1' := (walk_mono overrideBody_mono 0 initialRouter).le (le_max_left m n) h1
    have h2' := (walk_mono apicBody_mono 0 ⟨0, 1, r₁⟩).le (le_max_right m n) h2
    exact ⟨max m n, by simp only [initIrqRouter, h1', h2']⟩

theorem at_start {r : Router} (hr : r.activeAPICs = 0) : At version 0 ⟨0, 1, r⟩ where
  reads := rfl
  irqs := rfl
  small := show 1 < 256 by decide
  apics := hr

/-- The rule for both passes. -/
theorem pass_ends_iff {σ : Type} {body : ℕ → ℕ → σ → Option (Except Fault σ)}
    (hm : ∀ pos s, RecordWalk.Monotone (fun fuel => body fuel pos s)) (h : 44 ≤ length)
    (hl : length < 2^32) (s s' : σ) :
    Ends (fun fuel => walk (tableSize length) (recordLength mem) body fuel 0 s) s' ↔
      (∀ p ∈ recordsOf mem (length-44), recordLength mem p ≠ 0) ∧
        Passes body (recordsOf mem (length-44)) s s' := by
  rw [tableSize_eq h hl]
  exact walk_ends_iff hm s s'

end Scan

/-- The scan ends without leaving the tables of the router exactly when the table is scannable
with the version registers read. -/
theorem scan_ends_iff (off : ℕ) (version mem : ℕ → ℕ) (length : ℕ) (h : 44 ≤ length)
    (hl : length < 2^32) :
    (∃ r, Ends (fun fuel => initIrqRouter off version mem length fuel) r) ↔
      Scannable version mem (length-44) := by
  constructor
  · rintro ⟨r, hr⟩
    obtain ⟨r₁, s, h1, h2, -⟩ := (initIrqRouter_ends r).mp hr
    obtain ⟨hmoves, hpass1⟩ := (pass_ends_iff overrideBody_mono h hl _ _).mp h1
    obtain ⟨-, hpass2⟩ := (pass_ends_iff apicBody_mono h hl _ _).mp h2
    rw [passes_overrides] at hpass1
    refine ⟨hmoves, (applyOverrides_ok _ _).mp ⟨r₁, hpass1⟩, ?_⟩
    intro k a hk
    have hstart : At version 0 ⟨0, 1, r₁⟩ := at_start (applyOverrides_kept hpass1)
    have hacc := (passes_apics _ 0 _ hstart).mp ⟨s, hpass2⟩ k a hk
    rwa [Nat.zero_add] at hacc
  · intro hs
    obtain ⟨r₁, hr₁⟩ := (applyOverrides_ok _ initialRouter).mpr hs.overrides
    have hpass1 : Passes (overrideBody mem) (recordsOf mem (length-44)) initialRouter r₁ :=
      (passes_overrides _ _ _).mpr hr₁
    have hstart : At version 0 ⟨0, 1, r₁⟩ := at_start (applyOverrides_kept hr₁)
    obtain ⟨s, hpass2⟩ : ∃ s, Passes (apicBody off version mem) (recordsOf mem (length-44))
        ⟨0, 1, r₁⟩ s := (passes_apics _ 0 _ hstart).mpr (by
      intro j a hj
      rw [Nat.zero_add]
      exact hs.apics j a hj)
    exact ⟨s.router, (initIrqRouter_ends s.router).mpr ⟨r₁, s,
      (pass_ends_iff overrideBody_mono h hl _ _).mpr ⟨hs.moves, hpass1⟩,
      (pass_ends_iff apicBody_mono h hl _ _).mpr ⟨hs.moves, hpass2⟩, rfl⟩⟩

section Router

variable {off : ℕ} {version versionAt : ℕ → ℕ} {table : List ℕ}

/-- A table whose area is followed by zeros. -/
def tableBytes (table : List ℕ) : ℕ → ℕ := fun i => table.getD i 0

theorem byte_record {p i : ℕ} (hi : i < 12) :
    byte (record (tableBytes table) p) i = byte (table.drop p) i := by
  simp [byte, record, tableBytes, List.getD_eq_getElem?_getD, List.getElem?_range hi]

theorem override_record (p : ℕ) :
    override? (record (tableBytes table) p) = override? (table.drop p) := by
  simp only [override?, dword, word]
  repeat rw [byte_record (by decide)]

theorem ioapic_record (p : ℕ) :
    ioapic? (record (tableBytes table) p) = ioapic? (table.drop p) := by
  simp only [ioapic?, dword, word]
  repeat rw [byte_record (by decide)]

theorem overridesAt_table (ps : List ℕ) :
    overridesAt (tableBytes table) ps = overrides (ps.map (table.drop ·)) := by
  simp only [overridesAt, overrides, List.filterMap_map]
  congr 1
  funext p
  exact override_record p

theorem apicsAt_table (ps : List ℕ) :
    apicsAt (tableBytes table) ps = apics (ps.map (table.drop ·)) := by
  simp only [apicsAt, apics, List.filterMap_map]
  congr 1
  funext p
  exact ioapic_record p

/-- The pointers of the passes are the offsets visited. -/
theorem records_visited (n p : ℕ) :
    records n (table.drop p) =
      (visitedFrom table.length (recordLength (tableBytes table)) n p).map (table.drop ·) := by
  induction n generalizing p with
  | zero => rfl
  | succ n ih =>
    by_cases hp : p < table.length
    · have hne : table.drop p ≠ [] := by
        intro hnil
        rw [List.drop_eq_nil_iff] at hnil
        omega
      have hlen : byte (table.drop p) 1 = recordLength (tableBytes table) p := by
        simp [byte, recordLength, tableBytes, List.getD_eq_getElem?_getD]
      rw [records, if_neg hne, visitedFrom_inside hp, List.map_cons, List.drop_drop, hlen, ih]
    · rw [records, if_pos (List.drop_eq_nil_iff.mpr (by omega)), visitedFrom_outside hp]
      rfl

theorem passes_router (ps : List ℕ) {k : ℕ} {s s' : Pass} (hs : At version k s)
    (h : Passes (apicBody off version (tableBytes table)) ps s s')
    (hv : ∀ j a, (apicsAt (tableBytes table) ps)[j]? = some a →
      lastInput (version (k+j)) = maxEntry off versionAt a) :
    Fits off versionAt (apicsAt (tableBytes table) ps) s.irqs ∧
      s'.router = recordApics off versionAt (apicsAt (tableBytes table) ps) s.irqs s.router := by
  induction ps generalizing k s with
  | nil =>
    cases h
    exact ⟨trivial, rfl⟩
  | cons p ps ih =>
    obtain ⟨t, hbody, hrest⟩ := h
    cases ha : ioapic? (record (tableBytes table) p) with
    | none =>
      obtain ⟨_, hbody⟩ := hbody
      simp only [apicBody, ha] at hbody
      cases hbody
      rw [apicsAt, List.map_cons, apics, List.filterMap_cons_none ha, ← apics, ← apicsAt] at hv ⊢
      exact ih hs hrest hv
    | some a =>
      obtain ⟨hacc, rfl⟩ := (apicBody_ends hs ha t).mp hbody
      rw [apicsAt, List.map_cons, apics, List.filterMap_cons_some ha, ← apics, ← apicsAt] at hv ⊢
      have hirqs : counted version k = s.irqs+maxEntry off versionAt a := by
        rw [← hv 0 a rfl, hs.irqs]
        exact countedBefore_succ version k
      obtain ⟨hfits, hrouter⟩ := ih (entered_at hs hacc) hrest (by
        intro j b hj
        rw [show k+1+j = k+(j+1) by omega]
        exact hv (j+1) b hj)
      obtain ⟨-, hlt, hfit⟩ := hacc
      rw [hirqs] at hlt hfit
      simp only [entered, hirqs] at hfits hrouter
      exact ⟨⟨hlt, Or.inr hfit, hfits⟩, hrouter⟩

/-- A scan that ends leaves the router that the passes over the table compute, when the version
registers do not change between the reads. -/
theorem scan_router (hl : 44+table.length < 2^32) {r : Router}
    (h : Ends (fun fuel => initIrqRouter off version (tableBytes table) (44+table.length) fuel) r)
    (hv : ∀ (k : ℕ) a, (apicsAt (tableBytes table) (recordsOf (tableBytes table) table.length))[k]? =
      some a → lastInput (version k) = maxEntry off versionAt a) :
    IrqRouter.initIrqRouter off versionAt table = .ok r := by
  obtain ⟨r₁, s, h1, h2, rfl⟩ := (initIrqRouter_ends r).mp h
  have hsize : 44+table.length-44 = table.length := by omega
  have hpass1 := ((pass_ends_iff overrideBody_mono (by omega) hl _ _).mp h1).2
  have hpass2 := ((pass_ends_iff apicBody_mono (by omega) hl _ _).mp h2).2
  rw [hsize] at hpass1 hpass2
  rw [passes_overrides] at hpass1
  have hrecords : records table.length table =
      (recordsOf (tableBytes table) table.length).map (table.drop ·) := records_visited _ 0
  obtain ⟨hfits, hrouter⟩ := passes_router (recordsOf (tableBytes table) table.length)
    (at_start (applyOverrides_kept hpass1)) hpass2 (by
      intro j a hj
      rw [Nat.zero_add]
      exact hv j a hj)
  rw [overridesAt_table] at hpass1
  rw [apicsAt_table] at hfits hrouter
  rw [IrqRouter.initIrqRouter, overridePass_eq, hrecords, ← overrides, hpass1, hrouter]
  exact apicPass_fits _ 1 r₁ hfits

end Router

section Small

/-- Two zero bytes are a record of length zero. -/
theorem scan_diverges :
    (∀ fuel, initIrqRouter 0 (fun _ => 0) (fun _ => 0) 46 fuel = none) ∧
    ¬ ∃ r, Ends (fun fuel => initIrqRouter 0 (fun _ => 0) (fun _ => 0) 46 fuel) r := by
  have hwalk : ∀ fuel r, walk (tableSize 46) (recordLength fun _ => 0) (overrideBody fun _ => 0) fuel
      0 r = none := by
    intro fuel
    induction fuel with
    | zero => exact fun r => rfl
    | succ fuel ih =>
      intro r
      rw [walk_next (by decide) (show overrideBody (fun _ => 0) fuel 0 r = some (.ok r) from rfl)]
      exact ih r
  have hnone : ∀ fuel, initIrqRouter 0 (fun _ => 0) (fun _ => 0) 46 fuel = none := by
    intro fuel
    rw [initIrqRouter, hwalk]
  refine ⟨hnone, ?_⟩
  rintro ⟨r, fuel, h⟩
  cases (hnone fuel).symm.trans h

/-- A processor, an I/O APIC and an override, with other bytes behind the area. -/
def smallArea : ℕ → ℕ := fun i =>
  ([0, 8, 0, 0, 1, 0, 0, 0] ++ IrqRouter.oneApic.flatten ++ [7, 7]).getD i 0

theorem scan_ends_small : ∃ r, Ends (fun fuel =>
    initIrqRouter 0 (fun _ => 0x170020) smallArea 74 fuel) r := by
  have hrecords : recordsOf smallArea (74-44) = [0, 8, 20] := by decide
  refine (scan_ends_iff 0 _ smallArea 74 (by decide) (by decide)).mpr ⟨?_, ?_, ?_⟩
  · rw [hrecords]
    decide
  · rw [hrecords]
    decide
  · rw [hrecords]
    intro k a hk
    have hapics : apicsAt smallArea [0, 8, 20] = [⟨7, 0xfec00000, 0⟩] := by decide
    rw [hapics] at hk
    cases k with
    | zero =>
      cases hk
      exact ⟨by decide, by decide, by decide⟩
    | succ k => cases hk

end Small

end BruhOS.IrqScan
