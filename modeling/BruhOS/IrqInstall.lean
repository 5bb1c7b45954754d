import BruhOS.IrqRouter
import Mathlib.Tactic

/-!
# Interrupt vectors and redirection entries

`installISA`, `installIRQ` and `init_lapic_timer` take a vector from one table
of handlers: a slot is free while it holds no handler, and a slot that was
taken is never given back by them. The search runs over the slots of the
requested level only, once for each level from there on.

An entry of the router is a packed 64-bit word. It is masked and written to
the two redirection registers of an I/O APIC, whose own layout is another
packed word; both layouts are kept bit by bit.
-/

set_option autoImplicit false

namespace BruhOS.IrqInstall

/-- `mapped_t`, from its lowest bit on. -/
structure MappedEntry where
  intVec : BitVec 8
  delivMode : BitVec 3
  destmode : BitVec 1
  polarity : BitVec 1
  reserved1 : BitVec 1
  trigger : BitVec 1
  masked : BitVec 1
  irq : BitVec 8
  apicID : BitVec 8
  apicInputIdx : BitVec 8
  reserved0 : BitVec 16
  dest : BitVec 8
  deriving DecidableEq, Repr

def MappedEntry.u64 (e : MappedEntry) : BitVec 64 :=
  (e.dest++e.reserved0++e.apicInputIdx++e.apicID++e.irq++e.masked++e.trigger++e.reserved1++
    e.polarity++e.destmode++e.delivMode++e.intVec).cast rfl

/-- `intredirectEntry_t`, from its lowest bit on. -/
structure RedirectEntry where
  irqn : BitVec 8
  delivMode : BitVec 3
  destMode : BitVec 1
  delivStatus : BitVec 1
  pinPolarity : BitVec 1
  remoteIRR : BitVec 1
  triggerMode : BitVec 1
  bitmask : BitVec 1
  reserved : BitVec 39
  destination : BitVec 8
  deriving DecidableEq, Repr

/-- The fields of an entry that is read back as its two registers. -/
def RedirectEntry.read (w : BitVec 64) : RedirectEntry where
  irqn := w.extractLsb' 0 8
  delivMode := w.extractLsb' 8 3
  destMode := w.extractLsb' 11 1
  delivStatus := w.extractLsb' 12 1
  pinPolarity := w.extractLsb' 13 1
  remoteIRR := w.extractLsb' 14 1
  triggerMode := w.extractLsb' 15 1
  bitmask := w.extractLsb' 16 1
  reserved := w.extractLsb' 17 39
  destination := w.extractLsb' 56 8

/-- A write to a register of an I/O APIC. -/
structure RegisterWrite where
  base : ℕ
  index : BitVec 8
  value : BitVec 32
  deriving DecidableEq, Repr

structure Tables where
  handleTable : ℕ → ℕ
  re : BitVec 8 → MappedEntry
  activeAPICs : ℕ
  ioapics : ℕ → BitVec 8 × ℕ
  /-- The value last written to `LAPIC_LVTTIMER`. -/
  lvtTimer : Option (BitVec 32)
  writes : List RegisterWrite

section Vectors

variable (table : ℕ → ℕ)

def isHandleFree (idx : ℕ) : Bool := table idx == 0

/-- The remaining passes of the loop over the slots of a level, with `found` and `slotidx`. -/
def slotLoop : ℕ → ℕ → Bool × ℕ → Bool × ℕ
  | 0, _, r => r
  | n+1, vec, r =>
    if r.1 then r
    else slotLoop n (vec+1) (isHandleFree table vec, vec*(isHandleFree table vec).toNat)

/-- The outer loop counts levels and scans the first of them each time. -/
def levelLoop (pri : ℕ) : ℕ → Bool × ℕ → Bool × ℕ
  | 0, r => r
  | n+1, r => if r.1 then r else levelLoop pri n (slotLoop table 15 (pri*16) r)

def noVector : ℕ := 0xFF

def requestVectorMin (pri : ℕ) : ℕ :=
  let r := levelLoop table pri (14-pri) (false, 0)
  if r.1 then r.2 else noVector

end Vectors

def setHandler (s : Tables) (idx handler : ℕ) : Tables :=
  { s with handleTable := Function.update s.handleTable idx handler }

def setEntry (s : Tables) (gsi : BitVec 8) (e : MappedEntry) : Tables :=
  { s with re := Function.update s.re gsi e }

/-- The search for an APIC ends at the first address that is not zero. -/
def ioapicLoop (s : Tables) (id : BitVec 8) : ℕ → ℕ → ℕ → ℕ
  | 0, _, addr => addr
  | n+1, i, addr =>
    if addr = 0 then
      ioapicLoop s id n (i+1) (if (s.ioapics i).1 = id then (s.ioapics i).2 else 0)
    else addr

def redirectLow (idx : BitVec 8) : BitVec 8 := 0x10#8+(idx <<< 1)

def redirectHigh (idx : BitVec 8) : BitVec 8 := 0x10#8+(idx <<< 1)+1#8

/-- The last lines of both installers. -/
def writeEntry (s : Tables) (gsi : BitVec 8) : Tables :=
  let entry := (s.re gsi).u64 &&& 0xff0000000000ffff#64
  let addr := ioapicLoop s (s.re gsi).apicID s.activeAPICs 0 0
  { s with writes := s.writes++
      [⟨addr, redirectLow (s.re gsi).apicInputIdx, entry.setWidth 32⟩,
       ⟨addr, redirectHigh (s.re gsi).apicInputIdx, (entry >>> 32).setWidth 32⟩] }

/-- `none` is a call that is turned down; it changes nothing. -/
def installISA (s : Tables) (gsi lapicId : BitVec 8) (priority handler : ℕ) : Option Tables :=
  if 15 < gsi.toNat then none
  else
    let idx := requestVectorMin s.handleTable priority
    if idx = noVector then none
    else
      let s := setHandler s idx handler
      let s := setEntry s gsi
        { s.re gsi with intVec := BitVec.ofNat 8 (idx+32), dest := lapicId, masked := 0 }
      some (writeEntry s gsi)

structure IrqFlags where
  destmode : BitVec 1
  trigger : BitVec 1
  polarity : BitVec 1
  deriving DecidableEq, Repr

def isMapped (s : Tables) (gsi : BitVec 8) : Bool := (s.re gsi).u64 != 0

def installIRQ (s : Tables) (gsi lapicId : BitVec 8) (flags : IrqFlags) (priority handler : ℕ) :
    Option Tables :=
  if gsi.toNat ≤ 15 then none
  else if !isMapped s gsi then none
  else
    let idx := requestVectorMin s.handleTable priority
    if idx = noVector then none
    else
      let s := setHandler s idx handler
      let s := setEntry s gsi
        { s.re gsi with
          intVec := BitVec.ofNat 8 (idx+32), dest := lapicId, polarity := flags.polarity
          trigger := flags.trigger, destmode := flags.destmode, masked := 0 }
      some (writeEntry s gsi)

/-- The vector is not compared with `0xFF` here. -/
def initLapicTimer (s : Tables) (handler : ℕ) : Tables :=
  let irq := BitVec.ofNat 8 (requestVectorMin s.handleTable 0+32)
  let s := setHandler s (irq-32#8).toNat handler
  { s with lvtTimer := some (irq.setWidth 32 ||| (1#32 <<< 16)) }

section Redirection

/-- The registers read back hold what the entry of the router says. -/
structure Intact (r : RedirectEntry) (e : MappedEntry) : Prop where
  vector : r.irqn = e.intVec
  delivMode : r.delivMode = e.delivMode
  destMode : r.destMode = e.destmode
  polarity : r.pinPolarity = e.polarity
  trigger : r.triggerMode = e.trigger
  mask : r.bitmask = e.masked
  destination : r.destination = e.dest
  delivStatus : r.delivStatus = 0
  remoteIRR : r.remoteIRR = 0
  reserved : r.reserved = 0

theorem toNat_append_add {m n : ℕ} (x : BitVec m) (y : BitVec n) :
    (x++y).toNat = x.toNat*2^n+y.toNat := by
  rw [BitVec.toNat_append, ← Nat.shiftLeft_add_eq_or_of_lt y.isLt, Nat.shiftLeft_eq]

theorem toNat_slice {n : ℕ} (w : BitVec n) (k l : ℕ) :
    (w.extractLsb' k l).toNat = w.toNat/2^k%2^l := by
  rw [BitVec.extractLsb'_toNat, Nat.shiftRight_eq_div_pow]

theorem u64_toNat (e : MappedEntry) : e.u64.toNat =
    ((((((((((e.dest.toNat*2^16+e.reserved0.toNat)*2^8+e.apicInputIdx.toNat)*2^8+
      e.apicID.toNat)*2^8+e.irq.toNat)*2+e.masked.toNat)*2+e.trigger.toNat)*2+
      e.reserved1.toNat)*2+e.polarity.toNat)*2+e.destmode.toNat)*2^3+e.delivMode.toNat)*2^8+
      e.intVec.toNat := by
  simp only [MappedEntry.u64, BitVec.toNat_cast, toNat_append_add, pow_one]

/-- The mask keeps the lowest two bytes and the highest one. -/
theorem mask_eq (w : BitVec 64) : w &&& 0xff0000000000ffff#64 =
    (w.extractLsb' 56 8++0#40++w.extractLsb' 0 16).cast rfl := by
  have hm : ∀ i < 64, (0xff0000000000ffff#64).getLsbD i = (decide (i < 16) || decide (56 ≤ i)) := by
    decide
  apply BitVec.eq_of_getLsbD_eq
  intro i hi
  rw [BitVec.getLsbD_and, hm i hi, BitVec.getLsbD_cast, BitVec.getLsbD_append,
    BitVec.getLsbD_append]
  by_cases h1 : i < 16
  · simp [h1]
  · by_cases h2 : i < 56
    · simp [h1, show ¬ 56 ≤ i by omega, show i-16 < 40 by omega]
    · simp [h1, show 56 ≤ i by omega, show ¬ i-16 < 40 by omega, show i-16-40 < 8 by omega,
        show 56+(i-16-40) = i by omega]

theorem mask_toNat (w : BitVec 64) :
    (w &&& 0xff0000000000ffff#64).toNat = w.toNat%2^16+w.toNat/2^56*2^56 := by
  have hw := w.isLt
  rw [mask_eq]
  simp only [BitVec.toNat_cast, toNat_append_add, toNat_slice, BitVec.toNat_ofNat]
  omega

/-- The two registers together are the word they were cut from. -/
theorem registers_eq (w : BitVec 64) :
    (((w >>> 32).setWidth 32++w.setWidth 32).cast rfl : BitVec 64) = w := by
  have hw := w.isLt
  apply BitVec.eq_of_toNat_eq
  simp only [BitVec.toNat_cast, toNat_append_add, BitVec.toNat_setWidth, BitVec.toNat_ushiftRight,
    Nat.shiftRight_eq_div_pow]
  omega

/-- From bit 12 on, each field of the router lands one place below the field it stands for. -/
theorem read_masked (e : MappedEntry) :
    RedirectEntry.read (e.u64 &&& 0xff0000000000ffff#64) =
      ⟨e.intVec, e.delivMode, e.destmode, e.polarity, e.reserved1, e.trigger, e.masked, 0#1,
        0#39, e.dest⟩ := by
  have h1 := e.intVec.isLt
  have h2 := e.delivMode.isLt
  have h3 := e.destmode.isLt
  have h4 := e.polarity.isLt
  have h5 := e.reserved1.isLt
  have h6 := e.trigger.isLt
  have h7 := e.masked.isLt
  have h8 := e.irq.isLt
  have h9 := e.apicID.isLt
  have h10 := e.apicInputIdx.isLt
  have h11 := e.reserved0.isLt
  have h12 := e.dest.isLt
  simp only [RedirectEntry.read, RedirectEntry.mk.injEq, ← BitVec.toNat_inj, toNat_slice,
    mask_toNat, u64_toNat, BitVec.toNat_ofNat]
  refine ⟨?_, ?_, ?_, ?_, ?_, ?_, ?_, ?_, ?_, ?_⟩ <;> omega

/-- A call appends two writes, the low and the high register of the input of `gsi`; `w` is the
word they make up. -/
def Wrote (s s' : Tables) (gsi : BitVec 8) (w : BitVec 64) : Prop :=
  ∃ base lo hi, s'.writes = s.writes++
    [⟨base, redirectLow (s'.re gsi).apicInputIdx, lo⟩,
     ⟨base, redirectHigh (s'.re gsi).apicInputIdx, hi⟩] ∧ w = (hi++lo).cast rfl

theorem writeEntry_wrote (s : Tables) (gsi : BitVec 8) :
    Wrote s (writeEntry s gsi) gsi ((s.re gsi).u64 &&& 0xff0000000000ffff#64) :=
  ⟨_, _, _, rfl, (registers_eq _).symm⟩

theorem Wrote.unique {s s' : Tables} {gsi : BitVec 8} {w w' : BitVec 64} (h : Wrote s s' gsi w)
    (h' : Wrote s s' gsi w') : w = w' := by
  obtain ⟨base, lo, hi, hw, rfl⟩ := h
  obtain ⟨base', lo', hi', hw', rfl⟩ := h'
  have heq := List.append_cancel_left (hw.symm.trans hw')
  simp only [List.cons.injEq, RegisterWrite.mk.injEq] at heq
  rw [heq.1.2.2, heq.2.1.2.2]

/-- What both installers leave in the router before they write the entry. -/
theorem intact_iff {e : MappedEntry} (h : e.masked = 0) :
    Intact (RedirectEntry.read (e.u64 &&& 0xff0000000000ffff#64)) e ↔
      e.polarity = 0 ∧ e.trigger = 0 ∧ e.reserved1 = 0 := by
  rw [read_masked]
  constructor
  · intro hi
    have hp : e.polarity = 0 := hi.delivStatus
    exact ⟨hp, hi.remoteIRR, hi.polarity.trans hp⟩
  · rintro ⟨hp, ht, hr⟩
    exact ⟨rfl, rfl, rfl, hr.trans hp.symm, h.trans ht.symm, h.symm, rfl, hp, ht, rfl⟩

end Redirection

section Installers

variable {s s' : Tables} {gsi lapicId : BitVec 8} {priority handler : ℕ}

/-- A slot has been filled, an entry of the router replaced and written. -/
def connected (s : Tables) (gsi : BitVec 8) (idx handler : ℕ) (e : MappedEntry) : Tables :=
  writeEntry (setEntry (setHandler s idx handler) gsi e) gsi

@[simp] theorem connected_handleTable (gsi : BitVec 8) (idx handler : ℕ) (e : MappedEntry) :
    (connected s gsi idx handler e).handleTable = Function.update s.handleTable idx handler := rfl

@[simp] theorem connected_re (gsi : BitVec 8) (idx handler : ℕ) (e : MappedEntry) :
    (connected s gsi idx handler e).re = Function.update s.re gsi e := rfl

@[simp] theorem connected_lvtTimer (gsi : BitVec 8) (idx handler : ℕ) (e : MappedEntry) :
    (connected s gsi idx handler e).lvtTimer = s.lvtTimer := rfl

theorem connected_wrote (gsi : BitVec 8) (idx handler : ℕ) (e : MappedEntry) :
    Wrote s (connected s gsi idx handler e) gsi (e.u64 &&& 0xff0000000000ffff#64) := by
  have hw := writeEntry_wrote (setEntry (setHandler s idx handler) gsi e) gsi
  rw [show (setEntry (setHandler s idx handler) gsi e).re gsi = e from
    Function.update_self _ _ _] at hw
  exact hw

theorem installISA_some (h : installISA s gsi lapicId priority handler = some s') :
    requestVectorMin s.handleTable priority ≠ noVector ∧
    s' = connected s gsi (requestVectorMin s.handleTable priority) handler
      { s.re gsi with
        intVec := BitVec.ofNat 8 (requestVectorMin s.handleTable priority+32), dest := lapicId
        masked := 0 } := by
  unfold installISA at h
  by_cases hg : 15 < gsi.toNat
  · rw [if_pos hg] at h
    cases h
  · by_cases hv : requestVectorMin s.handleTable priority = noVector
    · rw [if_neg hg, if_pos hv] at h
      cases h
    · rw [if_neg hg, if_neg hv] at h
      exact ⟨hv, (Option.some.inj h).symm⟩

theorem installIRQ_some {flags : IrqFlags}
    (h : installIRQ s gsi lapicId flags priority handler = some s') :
    requestVectorMin s.handleTable priority ≠ noVector ∧
    s' = connected s gsi (requestVectorMin s.handleTable priority) handler
      { s.re gsi with
        intVec := BitVec.ofNat 8 (requestVectorMin s.handleTable priority+32), dest := lapicId
        polarity := flags.polarity, trigger := flags.trigger, destmode := flags.destmode
        masked := 0 } := by
  unfold installIRQ at h
  by_cases hg : gsi.toNat ≤ 15
  · rw [if_pos hg] at h
    cases h
  · by_cases hm : (!isMapped s gsi) = true
    · rw [if_neg hg, if_pos hm] at h
      cases h
    · by_cases hv : requestVectorMin s.handleTable priority = noVector
      · rw [if_neg hg, if_neg hm, if_pos hv] at h
        cases h
      · rw [if_neg hg, if_neg hm, if_neg hv] at h
        exact ⟨hv, (Option.some.inj h).symm⟩

/-- The redirection registers hold the entry exactly when its line is active high and edge
triggered and the bit between these two fields is clear. -/
theorem entry_intact_iff (s s' : Tables) (gsi lapicId : BitVec 8) (priority handler : ℕ) :
    (installISA s gsi lapicId priority handler = some s' →
      ∃ w, Wrote s s' gsi w ∧ (Intact (RedirectEntry.read w) (s'.re gsi) ↔
        (s.re gsi).polarity = 0 ∧ (s.re gsi).trigger = 0 ∧ (s.re gsi).reserved1 = 0)) ∧
    (∀ flags, installIRQ s gsi lapicId flags priority handler = some s' →
      ∃ w, Wrote s s' gsi w ∧ (Intact (RedirectEntry.read w) (s'.re gsi) ↔
        flags.polarity = 0 ∧ flags.trigger = 0 ∧ (s.re gsi).reserved1 = 0)) := by
  constructor
  · intro h
    obtain ⟨-, rfl⟩ := installISA_some h
    refine ⟨_, connected_wrote _ _ _ _, ?_⟩
    rw [connected_re, Function.update_self]
    exact intact_iff rfl
  · intro flags h
    obtain ⟨-, rfl⟩ := installIRQ_some h
    refine ⟨_, connected_wrote _ _ _ _, ?_⟩
    rw [connected_re, Function.update_self]
    exact intact_iff rfl

def clearEntry : MappedEntry := ⟨0, 0, 0, 0, 0, 0, 0, 0, 0, 0, 0, 0⟩

/-- Empty tables and one I/O APIC, whose inputs share the entry `e`. -/
def oneApic (e : MappedEntry) : Tables where
  handleTable _ := 0
  re _ := e
  activeAPICs := 1
  ioapics _ := (0, 0xFEC00000)
  lvtTimer := none
  writes := []

/-- A line that is level triggered and active low, as overrides ask for. -/
def lowLevel : MappedEntry := { clearEntry with polarity := 1, trigger := 1 }

theorem entry_not_intact :
    ∃ s', installISA (oneApic lowLevel) 9 0 0 0x1000 = some s' ∧ ∀ w, Wrote (oneApic lowLevel) s' 9 w →
      RedirectEntry.read w = ⟨32, 0, 0, 1, 0, 1, 0, 0, 0, 0⟩ ∧
      ¬ Intact (RedirectEntry.read w) (s'.re 9) := by
  have hv : requestVectorMin (oneApic lowLevel).handleTable 0 = 0 := by decide
  refine ⟨_, rfl, ?_⟩
  intro w hw
  rw [hw.unique (connected_wrote _ _ _ _), read_masked, hv]
  refine ⟨rfl, ?_⟩
  intro hi
  exact absurd hi.remoteIRR (by decide)

/-- An edge-triggered, active-high line is written as it is. -/
theorem entry_intact_edge :
    ∃ s' w, installIRQ (oneApic { clearEntry with masked := 1 }) 17 2 ⟨0, 0, 0⟩ 1 0x2000 = some s' ∧
      Wrote (oneApic { clearEntry with masked := 1 }) s' 17 w ∧
      Intact (RedirectEntry.read w) (s'.re 17) := by
  obtain ⟨w, hw, hi⟩ := (entry_intact_iff (oneApic { clearEntry with masked := 1 }) _ 17 2 1
    0x2000).2 ⟨0, 0, 0⟩ rfl
  exact ⟨_, w, rfl, hw, hi.mpr ⟨rfl, rfl, rfl⟩⟩

end Installers

section Search

variable {table : ℕ → ℕ}

/-- Once a slot is found the loop keeps it; otherwise the slots passed were taken. -/
theorem slotLoop_spec (n vec : ℕ) (r : Bool × ℕ) (h : (slotLoop table n vec r).1 = true) :
    slotLoop table n vec r = r ∧ r.1 = true ∨
      vec ≤ (slotLoop table n vec r).2 ∧ (slotLoop table n vec r).2 < vec+n ∧
        table (slotLoop table n vec r).2 = 0 := by
  induction n generalizing vec r with
  | zero => exact Or.inl ⟨rfl, h⟩
  | succ n ih =>
    rw [slotLoop] at h ⊢
    by_cases hr : r.1 = true
    · rw [if_pos hr]
      exact Or.inl ⟨rfl, hr⟩
    · rw [if_neg hr] at h ⊢
      right
      rcases ih (vec+1) _ h with ⟨heq, hfree⟩ | ⟨h1, h2, h3⟩
      · rw [heq]
        simp only at hfree
        rw [hfree, Bool.toNat_true, Nat.mul_one]
        exact ⟨le_rfl, by omega, by simpa [isHandleFree] using hfree⟩
      · exact ⟨by omega, by omega, h3⟩

theorem levelLoop_spec (pri n : ℕ) (r : Bool × ℕ) (hr : r.1 = false)
    (h : (levelLoop table pri n r).1 = true) :
    pri*16 ≤ (levelLoop table pri n r).2 ∧ (levelLoop table pri n r).2 < pri*16+15 ∧
      table (levelLoop table pri n r).2 = 0 := by
  induction n generalizing r with
  | zero =>
    rw [levelLoop, hr] at h
    cases h
  | succ n ih =>
    have hne : ¬ r.1 = true := by simp [hr]
    rw [levelLoop, if_neg hne] at h ⊢
    cases hs : (slotLoop table 15 (pri*16) r).1 with
    | false => exact ih _ hs h
    | true =>
      have hstay : levelLoop table pri n (slotLoop table 15 (pri*16) r) =
          slotLoop table 15 (pri*16) r := by
        cases n with
        | zero => rfl
        | succ n => rw [levelLoop, if_pos hs]
      rw [hstay]
      exact (slotLoop_spec 15 (pri*16) r hs).resolve_left (fun hl => hne hl.2)

/-- The slot that a search returns is free and belongs to the requested level. -/
theorem requestVectorMin_spec {pri : ℕ} (h : requestVectorMin table pri ≠ noVector) :
    pri*16 ≤ requestVectorMin table pri ∧ requestVectorMin table pri < pri*16+15 ∧
      table (requestVectorMin table pri) = 0 := by
  unfold requestVectorMin at h ⊢
  by_cases hr : (levelLoop table pri (14-pri) (false, 0)).1 = true
  · rw [if_pos hr]
    exact levelLoop_spec pri (14-pri) (false, 0) rfl hr
  · rw [if_neg hr] at h
    exact absurd rfl h

end Search

inductive Call where
  | installISA (gsi lapicId : BitVec 8) (priority handler : ℕ)
  | installIRQ (gsi lapicId : BitVec 8) (flags : IrqFlags) (priority handler : ℕ)
  | initLapicTimer (handler : ℕ)
  deriving DecidableEq, Repr

/-- The tables, and for each interrupt the handler of the last call that installed it. -/
structure Session where
  tables : Tables
  installed : BitVec 8 → Option ℕ

def install (w : Session) (gsi : BitVec 8) (handler : ℕ) : Option Tables → Session
  | some s => ⟨s, Function.update w.installed gsi (some handler)⟩
  | none => w

def step (w : Session) : Call → Session
  | .installISA gsi lapicId priority handler =>
    install w gsi handler (IrqInstall.installISA w.tables gsi lapicId priority handler)
  | .installIRQ gsi lapicId flags priority handler =>
    install w gsi handler (IrqInstall.installIRQ w.tables gsi lapicId flags priority handler)
  | .initLapicTimer handler => { w with tables := IrqInstall.initLapicTimer w.tables handler }

/-- Priorities are levels, handlers are functions, and the timer is given a vector. -/
def Allowed (w : Session) : Call → Prop
  | .installISA _ _ priority handler => priority ≤ 13 ∧ handler ≠ 0
  | .installIRQ _ _ _ priority handler => priority ≤ 13 ∧ handler ≠ 0
  | .initLapicTimer handler =>
    requestVectorMin w.tables.handleTable 0 ≠ noVector ∧ handler ≠ 0

inductive Reachable (w₀ : Session) : Session → Prop
  | start : Reachable w₀ w₀
  | step {w : Session} {c : Call} (h : Reachable w₀ w) (ha : Allowed w c) :
    Reachable w₀ (step w c)

/-- The vector field of the timer register. -/
def timerVector (v : BitVec 32) : BitVec 8 := v.extractLsb' 0 8

/-- No vector has two owners, and every interrupt reaches the handler it was given. -/
structure Unshared (w : Session) : Prop where
  distinct : ∀ g g', (w.tables.re g).intVec ≠ 0 → (w.tables.re g').intVec ≠ 0 → g ≠ g' →
    (w.tables.re g).intVec ≠ (w.tables.re g').intVec
  timer : ∀ v, w.tables.lvtTimer = some v → ∀ g, (w.tables.re g).intVec ≠ 0 →
    (w.tables.re g).intVec ≠ timerVector v
  least : ∀ g, (w.tables.re g).intVec ≠ 0 → 32 ≤ (w.tables.re g).intVec.toNat
  handler : ∀ g, (w.tables.re g).intVec ≠ 0 →
    w.installed g = some (w.tables.handleTable ((w.tables.re g).intVec.toNat-32))

/-- The slots of all owners are taken, so a free slot belongs to none of them. -/
structure Inv (w : Session) : Prop extends Unshared w where
  taken : ∀ g, (w.tables.re g).intVec ≠ 0 →
    w.tables.handleTable ((w.tables.re g).intVec.toNat-32) ≠ 0
  timerTaken : ∀ v, w.tables.lvtTimer = some v → 32 ≤ (timerVector v).toNat ∧
    w.tables.handleTable ((timerVector v).toNat-32) ≠ 0

section Runs

variable {w : Session} {idx handler : ℕ}

theorem vector_toNat (h : idx < 224) : (BitVec.ofNat 8 (idx+32)).toNat = idx+32 := by
  rw [BitVec.toNat_ofNat]
  omega

theorem vector_ne {v : BitVec 8} (hi : idx < 224) (h : v.toNat-32 ≠ idx) :
    v ≠ BitVec.ofNat 8 (idx+32) := by
  rintro rfl
  rw [vector_toNat hi] at h
  omega

/-- An entry is connected to a free slot. -/
theorem inv_connected (h : Inv w) (hi : idx < 224) (hfree : w.tables.handleTable idx = 0)
    (hh : handler ≠ 0) (gsi : BitVec 8) {e : MappedEntry}
    (he : e.intVec = BitVec.ofNat 8 (idx+32)) :
    Inv ⟨connected w.tables gsi idx handler e,
      Function.update w.installed gsi (some handler)⟩ := by
  have hslot : ∀ g, (w.tables.re g).intVec ≠ 0 → (w.tables.re g).intVec.toNat-32 ≠ idx := by
    intro g hg heq
    exact h.taken g hg (heq ▸ hfree)
  have hnew : e.intVec.toNat-32 = idx := by
    rw [he, vector_toNat hi]
    omega
  constructor
  · constructor
    · intro g g' hg hg' hne
      simp only [connected_re, Function.update_apply] at hg hg' ⊢
      split_ifs at hg hg' ⊢ with h1 h2 h2
      · exact absurd (h1.trans h2.symm) hne
      · rw [he]
        exact (vector_ne hi (hslot g' hg')).symm
      · rw [he]
        exact vector_ne hi (hslot g hg)
      · exact h.distinct g g' hg hg' hne
    · intro v hv g hg
      simp only [connected_re, Function.update_apply] at hg ⊢
      split_ifs at hg ⊢
      · rw [he]
        refine (vector_ne hi ?_).symm
        intro heq
        exact (h.timerTaken v hv).2 (heq ▸ hfree)
      · exact h.timer v hv g hg
    · intro g hg
      simp only [connected_re, Function.update_apply] at hg ⊢
      split_ifs at hg ⊢
      · rw [he, vector_toNat hi]
        omega
      · exact h.least g hg
    · intro g hg
      by_cases hgsi : g = gsi
      · subst hgsi
        simp only [connected_re, connected_handleTable, Function.update_self, hnew]
      · simp only [connected_re, connected_handleTable, Function.update_of_ne hgsi] at hg ⊢
        rw [Function.update_of_ne (hslot g hg)]
        exact h.handler g hg
  · intro g hg
    by_cases hgsi : g = gsi
    · subst hgsi
      simp only [connected_re, connected_handleTable, Function.update_self, hnew]
      exact hh
    · simp only [connected_re, connected_handleTable, Function.update_of_ne hgsi] at hg ⊢
      rw [Function.update_of_ne (hslot g hg)]
      exact h.taken g hg
  · intro v hv
    obtain ⟨h1, h2⟩ := h.timerTaken v hv
    refine ⟨h1, ?_⟩
    simp only [connected_handleTable, Function.update_apply]
    split_ifs
    · exact hh
    · exact h2

theorem timerVector_eq (irq : BitVec 8) :
    timerVector (irq.setWidth 32 ||| (1#32 <<< 16)) = irq := by
  apply BitVec.eq_of_getLsbD_eq
  intro i hi
  have hbit : (1#32 <<< 16).getLsbD i = false := by
    interval_cases i <;> rfl
  rw [timerVector, BitVec.getLsbD_extractLsb', Nat.zero_add, BitVec.getLsbD_or, hbit]
  simp [hi, show i < 32 by omega]

/-- The timer takes a free slot. -/
theorem inv_timer (h : Inv w) (hh : handler ≠ 0)
    (hv : requestVectorMin w.tables.handleTable 0 ≠ noVector) :
    Inv { w with tables := initLapicTimer w.tables handler } := by
  obtain ⟨-, hlt, hfree⟩ := requestVectorMin_spec hv
  generalize hidx : requestVectorMin w.tables.handleTable 0 = idx at hlt hfree
  have hi : idx < 224 := by omega
  have hirq : (BitVec.ofNat 8 (idx+32)-32#8).toNat = idx := by
    rw [BitVec.toNat_sub, vector_toNat hi, BitVec.toNat_ofNat]
    omega
  have hslot : ∀ g, (w.tables.re g).intVec ≠ 0 → (w.tables.re g).intVec.toNat-32 ≠ idx := by
    intro g hg heq
    exact h.taken g hg (heq ▸ hfree)
  have htable : (initLapicTimer w.tables handler).handleTable =
      Function.update w.tables.handleTable idx handler := by
    simp only [initLapicTimer, hidx, setHandler, hirq]
  have htimer : ∀ v, (initLapicTimer w.tables handler).lvtTimer = some v →
      timerVector v = BitVec.ofNat 8 (idx+32) := by
    intro v hv
    rw [← Option.some.inj hv, timerVector_eq, hidx]
  have hre : (initLapicTimer w.tables handler).re = w.tables.re := rfl
  constructor
  · constructor
    · exact h.distinct
    · intro v hv g hg
      rw [htimer v hv]
      exact vector_ne hi (hslot g hg)
    · exact h.least
    · intro g hg
      simp only [htable, hre, Function.update_of_ne (hslot g hg)]
      exact h.handler g hg
  · intro g hg
    simp only [htable, hre, Function.update_of_ne (hslot g hg)]
    exact h.taken g hg
  · intro v hv
    rw [htimer v hv, vector_toNat hi]
    refine ⟨by omega, ?_⟩
    simp only [htable, Nat.add_sub_cancel, Function.update_self]
    exact hh

theorem inv_step (h : Inv w) {c : Call} (ha : Allowed w c) : Inv (step w c) := by
  cases c with
  | installISA gsi lapicId priority handler =>
    rw [step]
    cases hr : installISA w.tables gsi lapicId priority handler with
    | none => exact h
    | some s =>
      obtain ⟨hv, rfl⟩ := installISA_some hr
      obtain ⟨-, hlt, hfree⟩ := requestVectorMin_spec hv
      exact inv_connected h (by have := ha.1; omega) hfree ha.2 gsi rfl
  | installIRQ gsi lapicId flags priority handler =>
    rw [step]
    cases hr : installIRQ w.tables gsi lapicId flags priority handler with
    | none => exact h
    | some s =>
      obtain ⟨hv, rfl⟩ := installIRQ_some hr
      obtain ⟨-, hlt, hfree⟩ := requestVectorMin_spec hv
      exact inv_connected h (by have := ha.1; omega) hfree ha.2 gsi rfl
  | initLapicTimer handler => exact inv_timer h ha.2 ha.1

/-- No interrupt has a vector and the timer was not programmed. -/
structure Fresh (s : Tables) : Prop where
  handlers : ∀ idx < 224, s.handleTable idx = 0
  vectors : ∀ g, (s.re g).intVec = 0
  timer : s.lvtTimer = none

theorem inv_fresh {s : Tables} (h : Fresh s) : Inv ⟨s, fun _ => none⟩ where
  distinct g _ hg := absurd (h.vectors g) hg
  timer v hv := by
    rw [h.timer] at hv
    cases hv
  least g hg := absurd (h.vectors g) hg
  handler g hg := absurd (h.vectors g) hg
  taken g hg := absurd (h.vectors g) hg
  timerTaken v hv := by
    rw [h.timer] at hv
    cases hv

theorem inv_run {w₀ : Session} (h₀ : Inv w₀) (h : Reachable w₀ w) : Inv w := by
  induction h with
  | start => exact h₀
  | step _ ha ih => exact inv_step ih ha

end Runs

/-- Whatever is installed and in whatever order, vectors are never shared. -/
theorem vectors_unshared (s : Tables) (hs : Fresh s) (w : Session)
    (h : Reachable ⟨s, fun _ => none⟩ w) : Unshared w :=
  (inv_run (inv_fresh hs) h).toUnshared

/-- An interrupt is installed, the timer is programmed, the interrupt is installed again. -/
theorem vectors_unshared_again :
    Unshared (step (step (step ⟨oneApic clearEntry, fun _ => none⟩ (.installISA 2 0 0 0x1000))
      (.initLapicTimer 0x3000)) (.installISA 2 1 0 0x2000)) := by
  refine vectors_unshared (oneApic clearEntry) ⟨fun _ _ => rfl, fun _ => rfl, rfl⟩ _
    (.step (.step (.step .start ?_) ?_) ?_)
  · exact ⟨by decide, by decide⟩
  · exact ⟨by decide, by decide⟩
  · exact ⟨by decide, by decide⟩

section Boot

open BruhOS.IrqRouter (Router Mapped Fault)

/-- The word of an entry that `init_irqRouter` has written. -/
def entryOf (m : Mapped) : MappedEntry where
  intVec := BitVec.ofNat 8 m.intVec
  delivMode := BitVec.ofNat 3 m.delivMode
  destmode := BitVec.ofNat 1 m.destmode
  polarity := BitVec.ofBool m.polarity
  reserved1 := 0
  trigger := BitVec.ofBool m.trigger
  masked := BitVec.ofBool m.masked
  irq := BitVec.ofNat 8 m.irq
  apicID := BitVec.ofNat 8 m.apicID
  apicInputIdx := BitVec.ofNat 8 m.apicInputIdx
  reserved0 := 0
  dest := BitVec.ofNat 8 m.dest

def bootTables (r : Router) : Tables where
  handleTable _ := 0
  re g := entryOf (r.re g.toNat)
  activeAPICs := r.activeAPICs
  ioapics i := (BitVec.ofNat 8 (r.ioapics i).1, (r.ioapics i).2)
  lvtTimer := none
  writes := r.writes.map (fun x => ⟨x.1, BitVec.ofNat 8 x.2.1, BitVec.ofNat 32 x.2.2⟩)

/-- No entry of the router has a vector yet. -/
def Unassigned (r : Router) : Prop := ∀ g, (r.re g).intVec = 0

theorem unassigned_update {r : Router} (h : Unassigned r) (g : ℕ) {e : Mapped}
    (he : e.intVec = (r.re g).intVec) : ∀ k, (Function.update r.re g e k).intVec = 0 := by
  intro k
  by_cases hk : k = g
  · rw [hk, Function.update_self, he]
    exact h g
  · rw [Function.update_of_ne hk]
    exact h k

theorem overridePass_unassigned (tables : List (List ℕ)) {r r' : Router} (h : Unassigned r)
    (hr : IrqRouter.overridePass tables r = .ok r') : Unassigned r' := by
  induction tables generalizing r with
  | nil =>
    cases hr
    exact h
  | cons t ts ih =>
    rw [IrqRouter.overridePass] at hr
    cases ht : IrqRouter.override? t with
    | none =>
      rw [ht] at hr
      exact ih h hr
    | some o =>
      simp only [ht, IrqRouter.applyOverride] at hr
      split at hr
      · refine ih ?_ hr
        exact unassigned_update h o.gsi rfl
      · cases hr

theorem inputLoop_unassigned (a : IrqRouter.IOApic) (addr n i : ℕ) {r r' : Router}
    (h : Unassigned r) (hr : IrqRouter.inputLoop a addr n i r = .ok r') : Unassigned r' := by
  induction n generalizing i r with
  | zero =>
    cases hr
    exact h
  | succ n ih =>
    rw [IrqRouter.inputLoop] at hr
    split at hr
    · refine ih (i+1) ?_ hr
      exact unassigned_update h (a.gsiBase+i) rfl
    · cases hr

theorem apicPass_unassigned (off : ℕ) (version : ℕ → ℕ) (tables : List (List ℕ)) (irqs : ℕ)
    {r r' : Router} (h : Unassigned r)
    (hr : IrqRouter.apicPass off version tables irqs r = .ok r') : Unassigned r' := by
  induction tables generalizing irqs r with
  | nil =>
    cases hr
    exact h
  | cons t ts ih =>
    rw [IrqRouter.apicPass] at hr
    cases ht : IrqRouter.ioapic? t with
    | none =>
      rw [ht] at hr
      exact ih irqs h hr
    | some a =>
      simp only [ht, IrqRouter.inputs] at hr
      split at hr
      · cases hl : IrqRouter.inputLoop a (Paging.virt off a.address)
            (irqs+IrqRouter.maxEntry off version a) 0 r with
        | error e =>
          rw [hl] at hr
          cases hr
        | ok r1 =>
          rw [hl] at hr
          have h1 : Unassigned r1 := inputLoop_unassigned a _ _ 0 h hl
          refine ih _ ?_ hr
          exact h1
      · cases hr

/-- The router that `init_irqRouter` leaves has no vectors, so vectors are never shared after
it either. -/
theorem boot_unshared {off : ℕ} {version : ℕ → ℕ} {table : List ℕ} {r : Router}
    (hr : IrqRouter.initIrqRouter off version table = .ok r) {w : Session}
    (h : Reachable ⟨bootTables r, fun _ => none⟩ w) : Unshared w := by
  have hinit : Unassigned IrqRouter.initialRouter := by
    intro g
    simp only [IrqRouter.initialRouter]
    split <;> rfl
  have hun : Unassigned r := by
    unfold IrqRouter.initIrqRouter at hr
    cases ho : IrqRouter.overridePass (IrqRouter.records table.length table)
        IrqRouter.initialRouter with
    | error e =>
      rw [ho] at hr
      cases hr
    | ok r1 =>
      rw [ho] at hr
      exact apicPass_unassigned off version _ 1 (overridePass_unassigned _ hinit ho) hr
  have hfresh : Fresh (bootTables r) := by
    refine ⟨fun _ _ => rfl, ?_, rfl⟩
    intro g
    simp only [bootTables, entryOf, hun g.toNat]
    rfl
  exact (inv_run (inv_fresh hfresh) h).toUnshared

end Boot

end BruhOS.IrqInstall
