import BruhOS.IrqScan
import BruhOS.IrqVectors
import Mathlib.Tactic

/-!
# The I/O APICs behind the router

An I/O APIC shows two words. The first selects a register, the second is a
window to the register that is selected. `ioapic_write_reg` stores to both, and
the low word of a redirection entry is written before the high one.

The writes that `init_irqRouter` and the installers make are carried out on the
devices here. What a device sends when one of its inputs is raised is read from
its registers.
-/

set_option autoImplicit false

namespace BruhOS.IrqDevices

open BruhOS.IrqInstall (Unshared RedirectEntry MappedEntry RegisterWrite Tables Session Call Fresh
  Reachable redirectLow redirectHigh ioapicLoop isMapped setEntry setHandler writeEntry connected
  connected_re registers_eq read_masked installISA installIRQ IrqFlags Allowed step
  requestVectorMin noVector requestVectorMin_spec vector_toNat initLapicTimer installISA_some
  installIRQ_some bootTables entryOf u64_toNat)

structure Apic where
  select : BitVec 8
  regs : BitVec 8 → BitVec 32

/-- The devices by the address of their first word. -/
abbrev Bus := ℕ → Apic

def storeSelect (bus : Bus) (base : ℕ) (value : BitVec 8) : Bus :=
  Function.update bus base { bus base with select := value }

def storeWindow (bus : Bus) (base : ℕ) (value : BitVec 32) : Bus :=
  Function.update bus base
    { bus base with regs := Function.update (bus base).regs (bus base).select value }

def loadWindow (bus : Bus) (base : ℕ) : BitVec 32 := (bus base).regs (bus base).select

def ioapicReadReg (bus : Bus) (base : ℕ) (index : BitVec 8) : BitVec 32 × Bus :=
  let bus := storeSelect bus base index
  (loadWindow bus base, bus)

def ioapicWriteReg (bus : Bus) (base : ℕ) (index : BitVec 8) (value : BitVec 32) : Bus :=
  storeWindow (storeSelect bus base index) base value

/-- `maximumRedirectionEntries`, the index of the last entry. -/
def ioapicIrqCount (bus : Bus) (base : ℕ) : ℕ × Bus :=
  let r := ioapicReadReg bus base 0x01#8
  ((r.1.extractLsb' 16 8).toNat, r.2)

/-- The count is read again before each pass. -/
def disableLoop (base : ℕ) : ℕ → BitVec 8 → Bus → Option Bus
  | 0, _, _ => none
  | fuel+1, i, bus =>
    let count := ioapicIrqCount bus base
    if i.toNat < count.1 then
      let lower := ioapicReadReg count.2 base (redirectLow i)
      disableLoop base fuel (i+1)
        (ioapicWriteReg lower.2 base (redirectLow i) (lower.1 ||| 0x10000#32))
    else some count.2

def disableIoapicIrqs (bus : Bus) (base : ℕ) : Option Bus := disableLoop base 256 0#8 bus

/-- The redirection entry of an input. -/
def Apic.entry (d : Apic) (i : BitVec 8) : RedirectEntry :=
  RedirectEntry.read (d.regs (redirectHigh i)++d.regs (redirectLow i))

structure Message where
  vector : BitVec 8
  delivMode : BitVec 3
  destMode : BitVec 1
  destination : BitVec 8
  deriving DecidableEq, Repr

def sent (e : RedirectEntry) : Option Message :=
  if e.bitmask = 0 then some ⟨e.irqn, e.delivMode, e.destMode, e.destination⟩ else none

/-- What the device sends for an active input. -/
def Apic.message? (d : Apic) (i : BitVec 8) : Option Message := sent (d.entry i)

def replay (writes : List RegisterWrite) (bus : Bus) : Bus :=
  writes.foldl (fun bus w => ioapicWriteReg bus w.base w.index w.value) bus

section Registers

variable {bus : Bus} {base b : ℕ} {index : BitVec 8} {value : BitVec 32}

@[simp] theorem ioapicReadReg_value : (ioapicReadReg bus base index).1 = (bus base).regs index := by
  simp [ioapicReadReg, storeSelect, loadWindow]

@[simp] theorem ioapicReadReg_regs : ((ioapicReadReg bus base index).2 b).regs = (bus b).regs := by
  simp only [ioapicReadReg, storeSelect, Function.update_apply]
  split_ifs with h
  · rw [h]
  · rfl

theorem ioapicWriteReg_regs (bus : Bus) (base : ℕ) (index : BitVec 8) (value : BitVec 32) (b : ℕ) :
    ((ioapicWriteReg bus base index value) b).regs =
      if b = base then Function.update (bus base).regs index value else (bus b).regs := by
  simp only [ioapicWriteReg, storeWindow, storeSelect, Function.update_self, Function.update_apply]
  split_ifs <;> rfl

theorem replay_append (ws ws' : List RegisterWrite) (bus : Bus) :
    replay (ws++ws') bus = replay ws' (replay ws bus) := List.foldl_append

theorem redirectLow_toNat {i : BitVec 8} (h : i.toNat < 120) :
    (redirectLow i).toNat = 16+2*i.toNat := by
  simp only [redirectLow, BitVec.toNat_add, BitVec.toNat_shiftLeft, BitVec.toNat_ofNat,
    Nat.shiftLeft_eq]
  omega

theorem redirectHigh_toNat {i : BitVec 8} (h : i.toNat < 120) :
    (redirectHigh i).toNat = 17+2*i.toNat := by
  simp only [redirectHigh, BitVec.toNat_add, BitVec.toNat_shiftLeft, BitVec.toNat_ofNat,
    Nat.shiftLeft_eq]
  omega

/-- The entries are two registers each, and none of them overlap. -/
theorem redirect_ne {i j : BitVec 8} (hi : i.toNat < 120) (hj : j.toNat < 120) (hne : i ≠ j) :
    redirectLow i ≠ redirectLow j ∧ redirectLow i ≠ redirectHigh j ∧
      redirectHigh i ≠ redirectLow j ∧ redirectHigh i ≠ redirectHigh j := by
  have hnat : i.toNat ≠ j.toNat := fun h => hne (BitVec.eq_of_toNat_eq h)
  simp only [ne_eq, ← BitVec.toNat_inj, redirectLow_toNat hi, redirectLow_toNat hj,
    redirectHigh_toNat hi, redirectHigh_toNat hj]
  omega

theorem low_ne_high {i : BitVec 8} (hi : i.toNat < 120) : redirectLow i ≠ redirectHigh i := by
  simp only [ne_eq, ← BitVec.toNat_inj, redirectLow_toNat hi, redirectHigh_toNat hi]
  omega

end Registers

section Disable

variable {base : ℕ} {regs : BitVec 8 → BitVec 32} {count : ℕ} {i : BitVec 8}

def lastEntry (regs : BitVec 8 → BitVec 32) : ℕ := ((regs 0x01#8).extractLsb' 16 8).toNat

open Classical in
/-- The low words of the entries from `i` up to `count` are masked. -/
noncomputable def maskedFrom (regs : BitVec 8 → BitVec 32) (i count : ℕ) : BitVec 8 → BitVec 32 :=
  fun index =>
    if ∃ k : BitVec 8, i ≤ k.toNat ∧ k.toNat < count ∧ index = redirectLow k then
      regs index ||| 0x10000#32
    else regs index

theorem maskedFrom_of_le (h : count ≤ i.toNat) : maskedFrom regs i.toNat count = regs := by
  funext index
  apply if_neg
  rintro ⟨k, hle, hlt, -⟩
  omega

theorem maskedFrom_step (h : i.toNat < count) :
    maskedFrom (Function.update regs (redirectLow i) (regs (redirectLow i) ||| 0x10000#32))
      (i.toNat+1) count = maskedFrom regs i.toNat count := by
  funext index
  by_cases hi : index = redirectLow i
  · have hin : ∃ k : BitVec 8, i.toNat ≤ k.toNat ∧ k.toNat < count ∧ index = redirectLow k :=
      ⟨i, le_rfl, h, hi⟩
    have htwice : ∀ x : BitVec 32, x ||| 0x10000#32 ||| 0x10000#32 = x ||| 0x10000#32 := fun x => by
      rw [BitVec.or_assoc, BitVec.or_self]
    subst hi
    simp only [maskedFrom, if_pos hin, Function.update_self, htwice, ite_self]
  · have hiff : (∃ k : BitVec 8, i.toNat+1 ≤ k.toNat ∧ k.toNat < count ∧ index = redirectLow k) ↔
        ∃ k : BitVec 8, i.toNat ≤ k.toNat ∧ k.toNat < count ∧ index = redirectLow k := by
      constructor
      · rintro ⟨k, hle, hk⟩
        exact ⟨k, by omega, hk⟩
      · rintro ⟨k, hle, hlt, heq⟩
        have hne : k.toNat ≠ i.toNat := fun hk => hi (heq.trans (by rw [BitVec.eq_of_toNat_eq hk]))
        exact ⟨k, by omega, hlt, heq⟩
    simp only [maskedFrom, Function.update_of_ne hi, hiff]

/-- Registers with an even index are written, the count is in register 1. -/
theorem lastEntry_update (i : BitVec 8) (value : BitVec 32) :
    lastEntry (Function.update regs (redirectLow i) value) = lastEntry regs := by
  have hne : 0x01#8 ≠ redirectLow i := by
    intro h
    have hnat := congrArg BitVec.toNat h
    simp only [redirectLow, BitVec.toNat_add, BitVec.toNat_shiftLeft, BitVec.toNat_ofNat,
      Nat.shiftLeft_eq] at hnat
    omega
  rw [lastEntry, Function.update_of_ne hne, lastEntry]

theorem disableLoop_spec (fuel : ℕ) (i : BitVec 8) (bus : Bus)
    (hi : i.toNat ≤ lastEntry (bus base).regs)
    (hfuel : lastEntry (bus base).regs < i.toNat+fuel) :
    ∃ bus', disableLoop base fuel i bus = some bus' ∧
      (bus' base).regs = maskedFrom (bus base).regs i.toNat (lastEntry (bus base).regs) ∧
      ∀ b, b ≠ base → (bus' b).regs = (bus b).regs := by
  induction fuel generalizing i bus with
  | zero => omega
  | succ fuel ih =>
    have hcount : (ioapicIrqCount bus base).1 = lastEntry (bus base).regs := by
      simp [ioapicIrqCount, lastEntry]
    have hread : ∀ b, ((ioapicIrqCount bus base).2 b).regs = (bus b).regs := fun b => by
      simp [ioapicIrqCount]
    simp only [disableLoop, hcount, ioapicReadReg_value, hread]
    split_ifs with hlt
    · generalize hnext : ioapicWriteReg _ base (redirectLow i) _ = next
      have hregs : (next base).regs = Function.update (bus base).regs (redirectLow i)
          ((bus base).regs (redirectLow i) ||| 0x10000#32) := by
        rw [← hnext, ioapicWriteReg_regs, if_pos rfl]
        simp [hread]
      have hother : ∀ b, b ≠ base → (next b).regs = (bus b).regs := fun b hb => by
        rw [← hnext, ioapicWriteReg_regs, if_neg hb]
        simp [hread]
      have hlast : lastEntry (next base).regs = lastEntry (bus base).regs := by
        rw [hregs, lastEntry_update]
      have hone : (i+1).toNat = i.toNat+1 := by
        have hlast := ((bus base).regs 0x01#8 |>.extractLsb' 16 8).isLt
        rw [lastEntry] at hlt
        rw [BitVec.toNat_add, show (1 : BitVec 8).toNat = 1 from rfl]
        omega
      obtain ⟨bus', hrun, hbase, hrest⟩ := ih (i+1) next (by omega) (by omega)
      refine ⟨bus', hrun, ?_, fun b hb => (hrest b hb).trans (hother b hb)⟩
      rw [hbase, hlast, hregs, hone, maskedFrom_step hlt]
    · refine ⟨_, rfl, ?_, fun b _ => hread b⟩
      rw [hread, maskedFrom_of_le (by omega)]

theorem maskedFrom_low (hi : i.toNat < 120) :
    maskedFrom regs 0 count (redirectLow i) =
      if i.toNat < count then regs (redirectLow i) ||| 0x10000#32 else regs (redirectLow i) := by
  have hiff : (∃ k : BitVec 8, 0 ≤ k.toNat ∧ k.toNat < count ∧ redirectLow i = redirectLow k) ↔
      i.toNat < count := by
    constructor
    · rintro ⟨k, -, hk, heq⟩
      have hnat := congrArg BitVec.toNat heq
      rw [redirectLow_toNat hi] at hnat
      simp only [redirectLow, BitVec.toNat_add, BitVec.toNat_shiftLeft, BitVec.toNat_ofNat,
        Nat.shiftLeft_eq] at hnat
      omega
    · intro h
      exact ⟨i, Nat.zero_le _, h, rfl⟩
  simp only [maskedFrom, hiff]

theorem maskedFrom_high (hi : i.toNat < 120) :
    maskedFrom regs 0 count (redirectHigh i) = regs (redirectHigh i) := by
  apply if_neg
  rintro ⟨k, -, -, heq⟩
  have hnat := congrArg BitVec.toNat heq
  rw [redirectHigh_toNat hi] at hnat
  simp only [redirectLow, BitVec.toNat_add, BitVec.toNat_shiftLeft, BitVec.toNat_ofNat,
    Nat.shiftLeft_eq] at hnat
  omega

/-- One bit of the entry changes. -/
theorem read_or_mask (hi lo : BitVec 32) :
    RedirectEntry.read (hi++(lo ||| 0x10000#32)) =
      { RedirectEntry.read (hi++lo) with bitmask := 1 } := by
  have hor : hi++(lo ||| 0x10000#32) = (hi++lo) ||| (0#32++0x10000#32) := by
    rw [BitVec.or_append, BitVec.or_zero]
  have hbit : ∀ x : BitVec 1, x ||| 1#1 = 1#1 := by decide
  rw [hor, show (0#32++0x10000#32 : BitVec (32+32)) = 0x10000#64 from rfl]
  simp [RedirectEntry.read, BitVec.extractLsb'_or, hbit]

/-- `disable_ioapic_irqs` ends and masks all inputs of the device but the last one; it changes
nothing else. -/
theorem disable_spares_last (bus : Bus) (base : ℕ) :
    ∃ bus', disableIoapicIrqs bus base = some bus' ∧
      (∀ i : BitVec 8, i.toNat < 120 →
        (bus' base).entry i =
          if i.toNat < lastEntry (bus base).regs then { (bus base).entry i with bitmask := 1 }
          else (bus base).entry i) ∧
      ∀ b, b ≠ base → (bus' b).regs = (bus b).regs := by
  have hlast : lastEntry (bus base).regs < 0+256 := by
    rw [Nat.zero_add]
    exact BitVec.isLt _
  obtain ⟨bus', hrun, hbase, hrest⟩ := disableLoop_spec 256 0#8 bus (Nat.zero_le _) hlast
  refine ⟨bus', hrun, fun i hi => ?_, hrest⟩
  rw [show (0#8).toNat = 0 from rfl] at hbase
  rw [Apic.entry, hbase, maskedFrom_high hi, maskedFrom_low hi]
  split_ifs
  · exact read_or_mask _ _
  · rfl

end Disable

section Wiring

/-- The device and the input that a global interrupt is wired to. -/
def port (s : Tables) (g : BitVec 8) : ℕ × BitVec 8 :=
  (ioapicLoop s (s.re g).apicID s.activeAPICs 0 0, (s.re g).apicInputIdx)

/-- The interrupts that the installers accept. -/
def Usable (s : Tables) (g : BitVec 8) : Prop := g.toNat ≤ 15 ∨ isMapped s g = true

/-- Every interrupt that can be installed has an input of its own. -/
structure Wired (s : Tables) : Prop where
  input : ∀ g, Usable s g → (port s g).2.toNat < 120
  own : ∀ g g', Usable s g → Usable s g' → port s g = port s g' → g = g'

/-- What the input of an interrupt is to send. -/
def routed (s : Tables) (g : BitVec 8) : Option Message :=
  if (s.re g).intVec = 0 then none
  else some ⟨(s.re g).intVec, (s.re g).delivMode, (s.re g).destmode, (s.re g).dest⟩

/-- The devices send what the router says. -/
def Shown (s₀ : Tables) (bus : Bus) (s : Tables) : Prop :=
  ∀ g, Usable s₀ g →
    ((replay s.writes bus) (port s₀ g).1).message? (port s₀ g).2 = routed s g

/-- Nothing that a run changes moves a wire. -/
structure Follows (s₀ : Tables) (bus : Bus) (w : Session) : Prop where
  port : ∀ g, port w.tables g = port s₀ g
  usable : ∀ g, isMapped w.tables g = true → Usable s₀ g
  mode : ∀ g, (w.tables.re g).delivMode = (s₀.re g).delivMode
  vacant : ∀ g, w.installed g = none ↔ (w.tables.re g).intVec = 0
  shown : Shown s₀ bus w.tables

variable {s s₀ : Tables} {bus : Bus} {w : Session} {g : BitVec 8} {idx handler : ℕ}
  {e : MappedEntry}

theorem ioapicLoop_congr (s s' : Tables) (h : s'.ioapics = s.ioapics) (id : BitVec 8)
    (n i addr : ℕ) : ioapicLoop s' id n i addr = ioapicLoop s id n i addr := by
  induction n generalizing i addr with
  | zero => rfl
  | succ n ih => rw [ioapicLoop, ioapicLoop, h, ih]

/-- Two writes to the registers of an input: it holds the word, and the other inputs are left
alone. -/
theorem replay_pair (addr : ℕ) {k : BitVec 8} (hk : k.toNat < 120) (lo hi : BitVec 32) (b : ℕ)
    {i : BitVec 8} (hi' : i.toNat < 120) :
    ((replay [⟨addr, redirectLow k, lo⟩, ⟨addr, redirectHigh k, hi⟩] bus) b).entry i =
      if (b, i) = (addr, k) then RedirectEntry.read (hi++lo) else (bus b).entry i := by
  have hregs : ((replay [⟨addr, redirectLow k, lo⟩, ⟨addr, redirectHigh k, hi⟩] bus) b).regs =
      if b = addr then Function.update (Function.update (bus addr).regs (redirectLow k) lo)
        (redirectHigh k) hi else (bus b).regs := by
    simp only [replay, List.foldl_cons, List.foldl_nil, ioapicWriteReg_regs, if_true]
    split_ifs <;> rfl
  rw [Apic.entry, Apic.entry, hregs]
  by_cases hb : b = addr
  · subst hb
    by_cases hik : i = k
    · subst hik
      rw [if_pos rfl, if_pos rfl, Function.update_self,
        Function.update_of_ne (low_ne_high hk), Function.update_self]
    · obtain ⟨h1, h2, h3, h4⟩ := redirect_ne hi' hk hik
      rw [if_pos rfl, if_neg (by simp [hik]), Function.update_of_ne h4, Function.update_of_ne h3,
        Function.update_of_ne h2, Function.update_of_ne h1]
  · rw [if_neg hb, if_neg (by simp [hb])]

theorem connected_writes {addr : ℕ} (haddr : ioapicLoop s e.apicID s.activeAPICs 0 0 = addr) :
    (connected s g idx handler e).writes = s.writes++
      [⟨addr, redirectLow e.apicInputIdx, (e.u64 &&& 0xff0000000000ffff#64).setWidth 32⟩,
       ⟨addr, redirectHigh e.apicInputIdx,
        ((e.u64 &&& 0xff0000000000ffff#64) >>> 32).setWidth 32⟩] := by
  have hloop := ioapicLoop_congr s (setEntry (setHandler s idx handler) g e) rfl
    e.apicID s.activeAPICs 0 0
  have hentry : (setEntry (setHandler s idx handler) g e).re g = e := Function.update_self _ _ _
  have hcount : (setEntry (setHandler s idx handler) g e).activeAPICs = s.activeAPICs := rfl
  rw [connected, writeEntry]
  simp only [hentry, hcount, hloop, haddr]
  rfl

/-- An installer changes what one input sends. -/
theorem connected_message (hidx : e.apicInputIdx.toNat < 120) {addr : ℕ}
    (haddr : ioapicLoop s e.apicID s.activeAPICs 0 0 = addr) (b : ℕ) {i : BitVec 8}
    (hi : i.toNat < 120) :
    ((replay (connected s g idx handler e).writes bus) b).message? i =
      if (b, i) = (addr, e.apicInputIdx) then
        some ⟨e.intVec, e.delivMode, e.destmode, e.dest⟩
      else ((replay s.writes bus) b).message? i := by
  have hword := registers_eq (e.u64 &&& 0xff0000000000ffff#64)
  rw [BitVec.cast_eq] at hword
  rw [Apic.message?, Apic.message?, connected_writes haddr, replay_append,
    replay_pair addr hidx _ _ b hi, hword, read_masked, apply_ite sent]
  exact congrArg (fun m => ite _ m _) (if_pos rfl)

theorem follows_connected (h₀ : Wired s₀) (h : Follows s₀ bus w) (hg : Usable s₀ g)
    (hid : e.apicID = (w.tables.re g).apicID)
    (hinput : e.apicInputIdx = (w.tables.re g).apicInputIdx)
    (hmode : e.delivMode = (w.tables.re g).delivMode) (hvec : e.intVec ≠ 0) :
    Follows s₀ bus ⟨connected w.tables g idx handler e,
      Function.update w.installed g (some handler)⟩ := by
  have hports : ∀ k, port (connected w.tables g idx handler e) k = port w.tables k := by
    intro k
    have hloop := ioapicLoop_congr w.tables (connected w.tables g idx handler e) rfl
    have hcount : (connected w.tables g idx handler e).activeAPICs = w.tables.activeAPICs := rfl
    rw [port, port, connected_re, hloop, hcount]
    by_cases hk : k = g
    · subst hk
      rw [Function.update_self, hid, hinput]
    · rw [Function.update_of_ne hk]
  refine ⟨fun k => (hports k).trans (h.port k), fun k hk => ?_, fun k => ?_, fun k => ?_,
    fun k hk => ?_⟩
  · by_cases hkg : k = g
    · rwa [hkg]
    · rw [isMapped, connected_re, Function.update_of_ne hkg] at hk
      exact h.usable k hk
  · rw [connected_re, ← h.mode k]
    by_cases hkg : k = g
    · subst hkg
      rw [Function.update_self, hmode]
    · rw [Function.update_of_ne hkg]
  · change Function.update w.installed g (some handler) k = none ↔ _
    rw [connected_re]
    by_cases hkg : k = g
    · subst hkg
      rw [Function.update_self, Function.update_self]
      exact ⟨fun h => absurd h (Option.some_ne_none _), fun h => absurd h hvec⟩
    · rw [Function.update_of_ne hkg, Function.update_of_ne hkg]
      exact h.vacant k
  · have haddr : ioapicLoop w.tables e.apicID w.tables.activeAPICs 0 0 = (port s₀ g).1 := by
      rw [hid, ← h.port g]
      rfl
    have hin : e.apicInputIdx = (port s₀ g).2 := by
      rw [hinput, ← h.port g]
      rfl
    rw [connected_message (hin ▸ h₀.input g hg) haddr _ (h₀.input k hk), hin, routed,
      connected_re]
    by_cases hkg : k = g
    · subst hkg
      rw [if_pos rfl, Function.update_self, if_neg hvec]
    · rw [if_neg fun heq => hkg (h₀.own k g hk hg heq), Function.update_of_ne hkg]
      exact h.shown k hk

theorem installISA_isa {s s' : Tables} {lapicId : BitVec 8} {priority : ℕ}
    (h : installISA s g lapicId priority handler = some s') : g.toNat ≤ 15 := by
  by_contra hlt
  rw [installISA, if_pos (by omega)] at h
  cases h

theorem installIRQ_mapped {s s' : Tables} {lapicId : BitVec 8} {flags : IrqFlags} {priority : ℕ}
    (h : installIRQ s g lapicId flags priority handler = some s') : isMapped s g = true := by
  by_contra hno
  rw [installIRQ] at h
  split_ifs at h with hlow hmapped
  exact hno (by simpa using hmapped)

theorem follows_step (h₀ : Wired s₀) (h : Follows s₀ bus w) {c : Call} (ha : Allowed w c) :
    Follows s₀ bus (step w c) := by
  have hvec : ∀ pri, pri ≤ 13 → requestVectorMin w.tables.handleTable pri ≠ noVector →
      BitVec.ofNat 8 (requestVectorMin w.tables.handleTable pri+32) ≠ 0 := by
    intro pri hpri hv hzero
    obtain ⟨-, hlt, -⟩ := requestVectorMin_spec hv
    have hnat : (BitVec.ofNat 8 (requestVectorMin w.tables.handleTable pri+32)).toNat =
        requestVectorMin w.tables.handleTable pri+32 := vector_toNat (by omega)
    rw [hzero] at hnat
    simp at hnat
  cases c with
  | installISA gsi lapicId priority handler =>
    rw [step]
    cases hr : installISA w.tables gsi lapicId priority handler with
    | none => exact h
    | some s =>
      obtain ⟨hv, rfl⟩ := installISA_some hr
      exact follows_connected h₀ h (.inl (installISA_isa hr)) rfl rfl rfl (hvec _ ha.1 hv)
  | installIRQ gsi lapicId flags priority handler =>
    rw [step]
    cases hr : installIRQ w.tables gsi lapicId flags priority handler with
    | none => exact h
    | some s =>
      obtain ⟨hv, rfl⟩ := installIRQ_some hr
      exact follows_connected h₀ h (h.usable _ (installIRQ_mapped hr)) rfl rfl rfl (hvec _ ha.1 hv)
  | initLapicTimer handler =>
    have hport : ∀ k, port (initLapicTimer w.tables handler) k = port w.tables k := fun k => by
      have hloop := ioapicLoop_congr w.tables (initLapicTimer w.tables handler) rfl
      rw [port, hloop]
      rfl
    exact ⟨fun k => (hport k).trans (h.port k), h.usable, h.mode, h.vacant, h.shown⟩

theorem follows_run (h₀ : Wired s₀) {w₀ : Session} (hw₀ : Follows s₀ bus w₀)
    (h : Reachable w₀ w) : Follows s₀ bus w := by
  induction h with
  | start => exact hw₀
  | step _ ha ih => exact follows_step h₀ ih ha

theorem follows_fresh (hs : Fresh s) (hmasked : ∀ g, Usable s g →
      ((replay s.writes bus) (port s g).1).message? (port s g).2 = none) :
    Follows s bus ⟨s, fun _ => none⟩ where
  port _ := rfl
  usable _ h := .inr h
  mode _ := rfl
  vacant g := by simp [hs.vectors g]
  shown g hg := by
    rw [hmasked g hg]
    exact (if_pos (hs.vectors g)).symm

end Wiring

section Boot

open BruhOS.IrqRouter (IOApic WellFormed Router initIrqRouter apics overrides maxEntry recordApic
  applyOverride applyOverrides)
open BruhOS.Paging (virt)

variable {off : ℕ} {version : ℕ → ℕ} {a : IOApic} {r : Router} {g : BitVec 8}

/-- One I/O APIC, with an input for each interrupt of the ISA bus, and overrides for its inputs. -/
structure OneApic (off : ℕ) (version : ℕ → ℕ) (rs : List (List ℕ)) (a : IOApic) : Prop where
  wellFormed : WellFormed rs
  apics : apics rs = [a]
  base : a.gsiBase = 0
  least : 15 ≤ maxEntry off version a
  inputs : maxEntry off version a < 120
  overrides : ∀ o ∈ overrides rs, o.gsi ≤ maxEntry off version a

/-- What `init_irqRouter` leaves for one I/O APIC. -/
structure Booted (off n : ℕ) (a : IOApic) (r : Router) : Prop where
  count : r.activeAPICs = 1
  first : r.ioapics 0 = (a.ioApicId, virt off a.address)
  wired : ∀ g < n, (r.re g).apicID = a.ioApicId ∧ (r.re g).apicInputIdx = g
  rest : ∀ g, n ≤ g → r.re g = IrqRouter.Mapped.zero
  vacant : ∀ g, (r.re g).intVec = 0 ∧ (r.re g).delivMode = 0
  writes : r.writes = (List.range' 0 n).map fun k =>
    (virt off a.address, IrqRouter.redirectLow k, 1 <<< 16)

theorem applyOverrides_mode {os : List IrqRouter.Override} {r r' : Router}
    (h : applyOverrides os r = .ok r') (g : ℕ) :
    (r'.re g).intVec = (r.re g).intVec ∧ (r'.re g).delivMode = (r.re g).delivMode := by
  induction os generalizing r with
  | nil =>
    obtain rfl := Except.ok.inj h
    exact ⟨rfl, rfl⟩
  | cons o os ih =>
    rw [applyOverrides, applyOverride] at h
    split_ifs at h with ho
    · obtain ⟨hvec, hmode⟩ := ih h
      by_cases hg : g = o.gsi
      · subst hg
        simp only [Function.update_self] at hvec hmode
        exact ⟨hvec, hmode⟩
      · simp only [Function.update_of_ne hg] at hvec hmode
        exact ⟨hvec, hmode⟩
    · cases h

theorem booted {rs : List (List ℕ)} (h : OneApic off version rs a) :
    ∃ r, initIrqRouter off version rs.flatten = .ok r ∧
      Booted off (1+maxEntry off version a) a r := by
  have hinputs := h.inputs
  have hleast := h.least
  have hbase := h.base
  obtain ⟨ho, ha⟩ := IrqRouter.records_overrides rs h.wellFormed
  obtain ⟨re, hre, hcarry⟩ := IrqRouter.applyOverrides_spec (overrides rs) IrqRouter.initialRouter
    (fun o hmem => by have := h.overrides o hmem; omega)
  refine ⟨recordApic off a (1+maxEntry off version a) { IrqRouter.initialRouter with re := re },
    ?_, ?_⟩
  · rw [initIrqRouter, IrqRouter.overridePass_eq, ho, hre]
    refine (IrqRouter.apicPass_fits _ _ _ ?_).trans ?_
    · rw [ha, h.apics]
      exact ⟨by omega, .inr (by omega), trivial⟩
    · rw [ha, h.apics]
      rfl
  · have hin : ∀ g, (a.gsiBase+0 ≤ g ∧ g < a.gsiBase+0+(1+maxEntry off version a)) ↔
        g < 1+maxEntry off version a := fun g => by omega
    refine ⟨rfl, ?_, fun g hg => ?_, fun g hg => ?_, fun g => ?_, ?_⟩
    · simp [recordApic, IrqRouter.recordInputs, IrqRouter.initialRouter]
    · simp only [recordApic, IrqRouter.recordInputs, hin, if_pos hg]
      exact ⟨trivial, by rw [hbase, Nat.sub_zero]⟩
    · have hsame : re g = IrqRouter.initialRouter.re g := by
        rcases hcarry g with ⟨o, hmem, hgsi, -⟩ | ⟨-, hsame⟩
        · have := h.overrides o hmem
          omega
        · exact hsame
      have h16 : ¬ g < 16 := by omega
      simp only [recordApic, IrqRouter.recordInputs, hin]
      rw [if_neg (by omega), hsame]
      exact if_neg h16
    · obtain ⟨hvec, hmode⟩ := applyOverrides_mode hre g
      have hzero : (IrqRouter.initialRouter.re g).intVec = 0 ∧
          (IrqRouter.initialRouter.re g).delivMode = 0 := by
        simp only [IrqRouter.initialRouter]
        split <;> exact ⟨rfl, rfl⟩
      rw [hzero.1] at hvec
      rw [hzero.2] at hmode
      simp only [recordApic, IrqRouter.recordInputs, hin]
      split_ifs
      · exact ⟨hvec, hmode⟩
      · exact ⟨hvec, hmode⟩
    · simp [recordApic, IrqRouter.recordInputs, IrqRouter.initialRouter]

theorem replay_masks (addr : ℕ) (ks : List ℕ) (bus : Bus) (index : BitVec 8) :
    ((replay (ks.map fun k => ⟨addr, BitVec.ofNat 8 (IrqRouter.redirectLow k), 0x10000#32⟩) bus)
      addr).regs index =
      if index ∈ ks.map (fun k => BitVec.ofNat 8 (IrqRouter.redirectLow k)) then 0x10000#32
      else (bus addr).regs index := by
  induction ks generalizing bus with
  | nil => rfl
  | cons k ks ih =>
    rw [List.map_cons, replay, List.foldl_cons]
    refine (ih _).trans ?_
    simp only [ioapicWriteReg_regs, if_true, List.map_cons, List.mem_cons]
    by_cases hmem : index ∈ ks.map (fun k => BitVec.ofNat 8 (IrqRouter.redirectLow k))
    · rw [if_pos hmem, if_pos (.inr hmem)]
    · rw [if_neg hmem]
      by_cases hk : index = BitVec.ofNat 8 (IrqRouter.redirectLow k)
      · rw [if_pos (.inl hk), hk, Function.update_self]
      · rw [if_neg (by simp [hk, hmem]), Function.update_of_ne hk]

theorem booted_fresh {n : ℕ} (h : Booted off n a r) : Fresh (bootTables r) where
  handlers _ _ := rfl
  vectors g := by
    have hentry : (bootTables r).re g = entryOf (r.re g.toNat) := rfl
    rw [hentry]
    simp only [entryOf, (h.vacant g.toNat).1]
    rfl
  timer := rfl

theorem booted_port {n : ℕ} (h : Booted off n a r) (hg : g.toNat < n) :
    port (bootTables r) g = (virt off a.address, g) := by
  obtain ⟨hid, hinput⟩ := h.wired _ hg
  have hfirst : (bootTables r).ioapics 0 = (BitVec.ofNat 8 a.ioApicId, virt off a.address) := by
    simp only [bootTables, h.first]
  have hentry : (bootTables r).re g = entryOf (r.re g.toNat) := rfl
  have hcount : (bootTables r).activeAPICs = 1 := h.count
  rw [port, hentry, hcount]
  simp [entryOf, hid, hinput, ioapicLoop, hfirst]

theorem booted_usable {n : ℕ} (h : Booted off n a r) (hn : 16 ≤ n) :
    Usable (bootTables r) g → g.toNat < n := by
  rintro (hlow | hmapped)
  · omega
  · by_contra hge
    have hentry : (bootTables r).re g = entryOf IrqRouter.Mapped.zero := by
      rw [← h.rest g.toNat (by omega)]
      rfl
    rw [isMapped, hentry] at hmapped
    revert hmapped
    decide

theorem usable_booted {n : ℕ} (h : Booted off n a r) (hg : g.toNat < n) :
    Usable (bootTables r) g := by
  by_cases hlow : g.toNat ≤ 15
  · exact .inl hlow
  · right
    have hentry : (bootTables r).re g = entryOf (r.re g.toNat) := rfl
    have hinput : (entryOf (r.re g.toNat)).apicInputIdx = g := by
      simp [entryOf, (h.wired _ hg).2]
    have hne : (entryOf (r.re g.toNat)).u64 ≠ 0 := by
      intro hzero
      have hnat := congrArg BitVec.toNat hzero
      rw [u64_toNat, hinput, show (0 : BitVec 64).toNat = 0 from rfl] at hnat
      omega
    simpa [isMapped, hentry] using hne

theorem booted_wired {n : ℕ} (h : Booted off n a r) (hn : 16 ≤ n) (hmax : n ≤ 120) :
    Wired (bootTables r) where
  input g hg := by
    rw [booted_port h (booted_usable h hn hg)]
    exact (booted_usable h hn hg).trans_le hmax
  own g g' hg hg' heq := by
    rw [booted_port h (booted_usable h hn hg), booted_port h (booted_usable h hn hg')] at heq
    exact congrArg Prod.snd heq

theorem booted_masked {n : ℕ} (h : Booted off n a r) (hmax : n ≤ 120) (bus : Bus)
    (hg : g.toNat < n) :
    ((replay (bootTables r).writes bus) (virt off a.address)).message? g = none := by
  have hwrites : (bootTables r).writes = (List.range' 0 n).map fun k =>
      ⟨virt off a.address, BitVec.ofNat 8 (IrqRouter.redirectLow k), 0x10000#32⟩ := by
    rw [bootTables, h.writes, List.map_map]
    rfl
  have hmem : redirectLow g ∈
      (List.range' 0 n).map fun k => BitVec.ofNat 8 (IrqRouter.redirectLow k) := by
    refine List.mem_map.mpr ⟨g.toNat, List.mem_range'_1.mpr ⟨Nat.zero_le _, by omega⟩, ?_⟩
    apply BitVec.eq_of_toNat_eq
    rw [redirectLow_toNat (by omega), BitVec.toNat_ofNat, IrqRouter.redirectLow]
    omega
  have hbit : ∀ hi : BitVec 32, (RedirectEntry.read (hi++0x10000#32)).bitmask = 1 := by
    intro hi
    have hmask := congrArg RedirectEntry.bitmask (read_or_mask hi 0#32)
    rwa [BitVec.zero_or] at hmask
  rw [hwrites, Apic.message?, Apic.entry, replay_masks, replay_masks, if_pos hmem, sent, hbit]
  exact if_neg (by decide)

/-- What an input sends and what the vector that it sends leads to. -/
structure Signalled (w : Session) (d : Apic) (g : BitVec 8) : Prop where
  silent : w.installed g = none → d.message? g = none
  sends : ∀ handler, w.installed g = some handler →
    ∃ v : BitVec 8, d.message? g = some ⟨v, 0, (w.tables.re g).destmode, (w.tables.re g).dest⟩ ∧
      32 ≤ v.toNat ∧ w.tables.handleTable (v.toNat-32) = handler

theorem follows_signalled {s₀ : Tables} {bus : Bus} {w : Session} (h : Follows s₀ bus w)
    (hun : Unshared w) (hg : Usable s₀ g) (hmode : (s₀.re g).delivMode = 0)
    (hport : (port s₀ g).2 = g) :
    Signalled w ((replay w.tables.writes bus) (port s₀ g).1) g := by
  have hshown := h.shown g hg
  rw [hport, routed] at hshown
  constructor
  · intro hnone
    rw [hshown]
    exact if_pos ((h.vacant g).mp hnone)
  · intro handler hsome
    have hvec : (w.tables.re g).intVec ≠ 0 := by
      rw [ne_eq, ← h.vacant, hsome]
      exact Option.some_ne_none _
    refine ⟨(w.tables.re g).intVec, ?_, hun.least g hvec, ?_⟩
    · rw [hshown, if_neg hvec, h.mode, hmode]
    · exact Option.some.inj ((hun.handler g hvec).symm.trans hsome)

theorem booted_follows {n : ℕ} (h : Booted off n a r) (hn : 16 ≤ n) (hmax : n ≤ 120) (bus : Bus) :
    Follows (bootTables r) bus ⟨bootTables r, fun _ => none⟩ := by
  refine follows_fresh (booted_fresh h) fun g hg => ?_
  have hlt := booted_usable h hn hg
  rw [booted_port h hlt]
  exact booted_masked h hmax bus hlt

/-- An input in a state that the installers reach. -/
theorem booted_signalled {n : ℕ} (h : Booted off n a r) (hn : 16 ≤ n) (hmax : n ≤ 120) (bus : Bus)
    {w : Session} (hw : Reachable ⟨bootTables r, fun _ => none⟩ w) (hg : g.toNat < n) :
    Signalled w ((replay w.tables.writes bus) (virt off a.address)) g := by
  have hf := follows_run (booted_wired h hn hmax) (booted_follows h hn hmax bus) hw
  have hun := (IrqInstall.inv_run (IrqInstall.inv_fresh (booted_fresh h)) hw).toUnshared
  have hwire := booted_port h hg
  have hmode : ((bootTables r).re g).delivMode = 0 := by
    have hentry : (bootTables r).re g = entryOf (r.re g.toNat) := rfl
    rw [hentry]
    simp only [entryOf, (h.vacant g.toNat).2]
    rfl
  have hsignal := follows_signalled hf hun (usable_booted h hg) hmode (by rw [hwire])
  rwa [hwire] at hsignal

end Boot

/-- A kernel that has found one I/O APIC: whatever is installed then and in whatever order, an input
without a function is silent, the message of any other leads to the function that was last
installed for it, and no two inputs send the same vector. -/
theorem booted_inputs_signal (off : ℕ) (version : ℕ → ℕ) (rs : List (List ℕ))
    (a : IrqRouter.IOApic) (h : OneApic off version rs a) (bus : Bus) :
    ∃ r, IrqRouter.initIrqRouter off version rs.flatten = .ok r ∧
      ∀ w, Reachable ⟨bootTables r, fun _ => none⟩ w →
        let d := replay w.tables.writes bus (Paging.virt off a.address)
        ∀ g : BitVec 8, g.toNat ≤ IrqRouter.maxEntry off version a → Signalled w d g ∧
          ∀ g' : BitVec 8, g'.toNat ≤ IrqRouter.maxEntry off version a → g ≠ g' →
            ∀ m m', d.message? g = some m → d.message? g' = some m' → m.vector ≠ m'.vector := by
  obtain ⟨r, hr, hb⟩ := booted h
  have hn : 16 ≤ 1+IrqRouter.maxEntry off version a := by
    have := h.least
    omega
  have hmax : 1+IrqRouter.maxEntry off version a ≤ 120 := by
    have := h.inputs
    omega
  refine ⟨r, hr, fun w hw => ?_⟩
  have hf := follows_run (booted_wired hb hn hmax) (booted_follows hb hn hmax bus) hw
  have hun := (IrqInstall.inv_run (IrqInstall.inv_fresh (booted_fresh hb)) hw).toUnshared
  have hport : ∀ g : BitVec 8, g.toNat ≤ IrqRouter.maxEntry off version a →
      Usable (bootTables r) g ∧ port (bootTables r) g = (Paging.virt off a.address, g) :=
    fun g hg => ⟨usable_booted hb (by omega), booted_port hb (by omega)⟩
  have hsent : ∀ g : BitVec 8, g.toNat ≤ IrqRouter.maxEntry off version a → ∀ m,
      (replay w.tables.writes bus (Paging.virt off a.address)).message? g = some m →
        (w.tables.re g).intVec ≠ 0 ∧ m.vector = (w.tables.re g).intVec := by
    intro g hg m hm
    obtain ⟨husable, hwire⟩ := hport g hg
    have hshown := hf.shown g husable
    rw [hwire, hm, routed] at hshown
    split_ifs at hshown with hvec
    obtain rfl := Option.some.inj hshown
    exact ⟨hvec, rfl⟩
  intro d g hg
  have hsignal := booted_signalled hb hn hmax bus hw (show g.toNat < _ by omega)
  refine ⟨hsignal, fun g' hg' hne m m' hm hm' => ?_⟩
  obtain ⟨hvec, heq⟩ := hsent g hg m hm
  obtain ⟨hvec', heq'⟩ := hsent g' hg' m' hm'
  rw [heq, heq']
  exact hun.distinct g g' hvec hvec' hne

def firstApic : IrqRouter.IOApic := ⟨7, 0xfec00000, 0⟩

theorem oneApic_booted : OneApic 0 IrqRouter.version24 IrqRouter.oneApic firstApic where
  wellFormed := ⟨by decide, by decide, by decide, by decide⟩
  apics := by decide
  base := rfl
  least := by decide
  inputs := by decide
  overrides := by decide

/-- The timer of a machine with 24 inputs is installed. -/
theorem booted_inputs_signal_timer :
    ∃ r, IrqRouter.initIrqRouter 0 IrqRouter.version24 IrqRouter.oneApic.flatten = .ok r ∧
      Signalled (step ⟨bootTables r, fun _ => none⟩ (.installISA 2 0 0 0x1000))
        (replay (step ⟨bootTables r, fun _ => none⟩ (.installISA 2 0 0 0x1000)).tables.writes
          (fun _ => ⟨0, fun _ => 0⟩) (Paging.virt 0 firstApic.address)) 2 := by
  obtain ⟨r, hr, hrun⟩ := booted_inputs_signal 0 IrqRouter.version24 IrqRouter.oneApic firstApic
    oneApic_booted (fun _ => ⟨0, fun _ => 0⟩)
  have hallowed : Allowed ⟨bootTables r, fun _ => none⟩ (.installISA 2 0 0 0x1000) :=
    ⟨by decide, by decide⟩
  exact ⟨r, hr, (hrun _ (.step .start hallowed) 2 (by decide)).1⟩

end BruhOS.IrqDevices
