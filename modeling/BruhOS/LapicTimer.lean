import BruhOS.LocalApic

/-!
# The timer of the local APIC

The timer entry has a vector, a bit that masks it and a mode. The calls change
it bit by bit, and what was loaded before a call of `stopTimer` is stored after
it. The mode in which the timer waits for a time stamp is left out by the source
and no call selects it.

The loads of the counter are answers of the device, and so is the status bit of
the entry.
-/

set_option autoImplicit false

namespace BruhOS.LocalApic

section Driver

variable (answer : ℕ → Reg)

def maskBit : Reg := 1#32 <<< 16

def periodicBit : Reg := 1#32 <<< 17

def modeBits : Reg := 3#32 <<< 17

/-- The branch for the time stamp is constant false. -/
def startTimer (s : Lapic) : Lapic :=
  let reg := lapicReadReg answer s LAPIC_LVTTIMER
  lapicWriteReg reg.2 LAPIC_LVTTIMER (reg.1 &&& ~~~maskBit)

def stopTimer (s : Lapic) : Lapic :=
  let tmp := lapicReadReg answer s LAPIC_LVTTIMER
  let s := lapicWriteReg tmp.2 LAPIC_LVTTIMER (tmp.1 ||| maskBit)
  lapicWriteReg s LAPIC_TIMERCURCNT 0#32

/-- An interrupt of the timer. -/
def lapicTimerHandler (s : Lapic) : Lapic := stopTimer answer s

def initLapicTimer (irq : BitVec 8) (s : Lapic) : Lapic :=
  let s := lapicWriteReg s LAPIC_LVTTIMER (irq.setWidth 32 ||| maskBit)
  let s := lapicWriteReg s LAPIC_DIVCONFIG 0x0B#32
  let s := lapicWriteReg s LAPIC_TIMERCURCNT 0#32
  lapicWriteReg s LAPIC_TIMERINITCNT 0#32

/-- `LAPIC_TIMER_STATE_ONE_SHOT` and `LAPIC_TIMER_STATE_PERIODIC`; the other values change
nothing. -/
def setLapicTimerState (state : ℕ) (s : Lapic) : Lapic :=
  let tmp := lapicReadReg answer s LAPIC_LVTTIMER
  let mode := tmp.1 &&& ~~~modeBits
  match state with
  | 0 => lapicWriteReg (stopTimer answer tmp.2) LAPIC_LVTTIMER mode
  | 1 => lapicWriteReg (stopTimer answer tmp.2) LAPIC_LVTTIMER (mode ||| periodicBit)
  | _ => tmp.2

/-- The timer runs while the HPET counts the quantum. -/
def prepareLapicTimer (s : Lapic) : Lapic :=
  let reg := lapicReadReg answer s LAPIC_LVTTIMER
  let s := lapicWriteReg reg.2 LAPIC_TIMERINITCNT 0xFFFFFFFF#32
  let s := lapicWriteReg s LAPIC_TIMERCURCNT 0#32
  let s := lapicWriteReg s LAPIC_LVTTIMER (reg.1 &&& ~~~maskBit)
  let s := lapicWriteReg s LAPIC_LVTTIMER reg.1
  let count := lapicReadReg answer s LAPIC_TIMERCURCNT
  let s := lapicWriteReg count.2 LAPIC_TIMERINITCNT (0xFFFFFFFF#32-count.1)
  lapicWriteReg s LAPIC_TIMERCURCNT 0#32

/-- `lcountns`, `lcountus` and `lcountms`, which differ in what the HPET counts. -/
def lcount (s : Lapic) : Lapic :=
  let reg := lapicReadReg answer s LAPIC_LVTTIMER
  let s := lapicWriteReg reg.2 LAPIC_TIMERINITCNT 0xFFFFFFFF#32
  let s := lapicWriteReg s LAPIC_LVTTIMER (reg.1 &&& ~~~maskBit)
  let s := lapicWriteReg s LAPIC_LVTTIMER reg.1
  let count := lapicReadReg answer s LAPIC_TIMERCURCNT
  let s := lapicWriteReg count.2 LAPIC_TIMERINITCNT (0xFFFFFFFF#32-count.1)
  lapicWriteReg s LAPIC_LVTTIMER (reg.1 &&& ~~~maskBit)

inductive TimerCall
  | init (irq : BitVec 8)
  | setState (state : ℕ)
  | prepare
  | start
  | count
  | tick
  | driver (c : Call)

def timerStep (s : Lapic) : TimerCall → Option Lapic
  | .init irq => some (initLapicTimer irq s)
  | .setState state => some (setLapicTimerState answer state s)
  | .prepare => some (prepareLapicTimer answer s)
  | .start => some (startTimer answer s)
  | .count => some (lcount answer s)
  | .tick => some (lapicTimerHandler answer s)
  | .driver c => step answer s c

def timerRun : List TimerCall → Lapic → Option Lapic
  | [], s => some s
  | c::cs, s => (timerStep answer s c).bind (timerRun cs)

end Driver

/-- What the timer is for: it has a vector and a mode, and it runs or does not. -/
structure Timer where
  vector : BitVec 8
  periodic : Bool
  running : Bool
  deriving DecidableEq, Repr

def Timer.word (t : Timer) : Reg :=
  t.vector.setWidth 32 ||| (if t.running then 0#32 else maskBit) |||
    (if t.periodic then periodicBit else 0#32)

def TimerCall.effect (t : Timer) : TimerCall → Timer
  | .init irq => ⟨irq, false, false⟩
  | .setState 0 => { t with periodic := false }
  | .setState 1 => { t with periodic := true }
  | .start => { t with running := true }
  | .count => { t with running := true }
  | .tick => { t with running := false }
  | _ => t

section Words

variable {i : ℕ} (t : Timer) (p : Reg)

theorem status_bit : ∀ i < 32, statusBit.getLsbD i = decide (i = 12) := by decide

theorem mask_bit : ∀ i < 32, maskBit.getLsbD i = decide (i = 16) := by decide

theorem periodic_bit : ∀ i < 32, periodicBit.getLsbD i = decide (i = 17) := by decide

theorem mode_bit : ∀ i < 32, modeBits.getLsbD i = decide (i = 17 ∨ i = 18) := by decide

theorem word_bit (hi : i < 32) : t.word.getLsbD i =
    if i < 8 then t.vector.getLsbD i
    else if i = 16 then !t.running else if i = 17 then t.periodic else false := by
  have hv : (t.vector.setWidth 32).getLsbD i = if i < 8 then t.vector.getLsbD i else false := by
    split_ifs with h
    · simp [hi]
    · simpa [hi] using BitVec.getLsbD_of_ge t.vector i (by omega)
  rw [Timer.word, BitVec.getLsbD_or, BitVec.getLsbD_or, hv, apply_ite (BitVec.getLsbD · i),
    apply_ite (BitVec.getLsbD · i), mask_bit i hi, periodic_bit i hi, BitVec.getLsbD_zero]
  by_cases h16 : i = 16
  · cases t.running <;> simp [h16]
  · by_cases h17 : i = 17
    · cases t.periodic <;> simp [h17]
    · simp [h16, h17]

/-- A store drops the status bit that a load has added. -/
theorem drop_status (w : Reg) : (w ||| (p &&& statusBit)) &&& ~~~statusBit = w &&& ~~~statusBit := by
  apply BitVec.eq_of_getLsbD_eq
  intro i hi
  simp only [BitVec.getLsbD_and, BitVec.getLsbD_or, BitVec.getLsbD_not]
  cases statusBit.getLsbD i <;> simp

theorem word_status : t.word &&& ~~~statusBit = t.word := by
  apply BitVec.eq_of_getLsbD_eq
  intro i hi
  rw [BitVec.getLsbD_and, BitVec.getLsbD_not, status_bit i hi, word_bit t hi]
  by_cases h : i = 12
  · simp [h]
  · simp [h, hi]

theorem word_start : t.word &&& ~~~maskBit = { t with running := true }.word := by
  apply BitVec.eq_of_getLsbD_eq
  intro i hi
  rw [BitVec.getLsbD_and, BitVec.getLsbD_not, mask_bit i hi, word_bit t hi, word_bit _ hi]
  by_cases h : i = 16
  · simp [h]
  · simp [h, hi]

theorem word_stop : t.word ||| maskBit = { t with running := false }.word := by
  apply BitVec.eq_of_getLsbD_eq
  intro i hi
  rw [BitVec.getLsbD_or, mask_bit i hi, word_bit t hi, word_bit _ hi]
  by_cases h : i = 16
  · simp [h]
  · simp [h]

theorem word_oneShot : t.word &&& ~~~modeBits = { t with periodic := false }.word := by
  apply BitVec.eq_of_getLsbD_eq
  intro i hi
  rw [BitVec.getLsbD_and, BitVec.getLsbD_not, mode_bit i hi, word_bit t hi, word_bit _ hi]
  by_cases h17 : i = 17
  · simp [h17]
  · by_cases h18 : i = 18
    · simp [h18]
    · simp [h17, h18, hi]

theorem word_periodic : t.word ||| periodicBit = { t with periodic := true }.word := by
  apply BitVec.eq_of_getLsbD_eq
  intro i hi
  rw [BitVec.getLsbD_or, periodic_bit i hi, word_bit t hi, word_bit _ hi]
  by_cases h17 : i = 17
  · simp [h17]
  · simp [h17]

theorem word_init (irq : BitVec 8) : irq.setWidth 32 ||| maskBit = (Timer.mk irq false false).word := by
  simp [Timer.word]

theorem and_not_status (w m : Reg) : (w &&& ~~~m) &&& ~~~statusBit = (w &&& ~~~statusBit) &&& ~~~m := by
  rw [BitVec.and_assoc, BitVec.and_comm (~~~m), BitVec.and_assoc]

theorem or_not_status {m : Reg} (h : m &&& statusBit = 0) (w : Reg) :
    (w ||| m) &&& ~~~statusBit = (w &&& ~~~statusBit) ||| m := by
  apply BitVec.eq_of_getLsbD_eq
  intro i hi
  have hbit := congrArg (BitVec.getLsbD · i) h
  simp only [BitVec.getLsbD_and] at hbit
  simp only [BitVec.getLsbD_and, BitVec.getLsbD_or, BitVec.getLsbD_not]
  cases hm : m.getLsbD i <;> cases hs : statusBit.getLsbD i <;> simp_all

end Words

section Steps

variable {answer : ℕ → Reg} {s : Lapic} {t : Timer} {offset : ℕ} {data : Reg}

theorem load_entry (h : s.regs LAPIC_LVTTIMER = t.word) :
    (lapicReadReg answer s LAPIC_LVTTIMER).1 = t.word ||| (answer s.loads &&& statusBit) := by
  rw [read_status (by decide) (by decide), h]

theorem store_entry : (lapicWriteReg s LAPIC_LVTTIMER data).regs LAPIC_LVTTIMER =
    data &&& ~~~statusBit := by
  simp [lapicWriteReg, hasStatus]

theorem store_other (h : offset ≠ LAPIC_LVTTIMER) :
    (lapicWriteReg s offset data).regs LAPIC_LVTTIMER = s.regs LAPIC_LVTTIMER := by
  simp [lapicWriteReg, Ne.symm h]

/-- What is loaded and stored without a change. -/
theorem store_loaded (p : Reg) : (t.word ||| (p &&& statusBit)) &&& ~~~statusBit = t.word := by
  rw [drop_status, word_status]

theorem store_started (p : Reg) :
    ((t.word ||| (p &&& statusBit)) &&& ~~~maskBit) &&& ~~~statusBit =
      { t with running := true }.word := by
  rw [and_not_status, store_loaded, word_start]

theorem store_stopped (p : Reg) : (t.word ||| (p &&& statusBit) ||| maskBit) &&& ~~~statusBit =
    { t with running := false }.word := by
  rw [or_not_status (by decide), store_loaded, word_stop]

theorem store_mode (p : Reg) : ((t.word ||| (p &&& statusBit)) &&& ~~~modeBits) &&& ~~~statusBit =
    { t with periodic := false }.word := by
  rw [and_not_status, store_loaded, word_oneShot]

theorem startTimer_entry (h : s.regs LAPIC_LVTTIMER = t.word) :
    (startTimer answer s).regs LAPIC_LVTTIMER = { t with running := true }.word := by
  rw [startTimer, store_entry, load_entry h, store_started]

theorem stopTimer_entry (h : s.regs LAPIC_LVTTIMER = t.word) :
    (stopTimer answer s).regs LAPIC_LVTTIMER = { t with running := false }.word := by
  rw [stopTimer, store_other (by decide), store_entry, load_entry h, store_stopped]

theorem initLapicTimer_entry (irq : BitVec 8) :
    (initLapicTimer irq s).regs LAPIC_LVTTIMER = (Timer.mk irq false false).word := by
  rw [initLapicTimer, store_other (by decide), store_other (by decide), store_other (by decide),
    store_entry, word_init, word_status]

/-- The stop is undone: what is stored last was loaded before it. -/
theorem setLapicTimerState_entry (h : s.regs LAPIC_LVTTIMER = t.word) (state : ℕ) :
    (setLapicTimerState answer state s).regs LAPIC_LVTTIMER =
      ((TimerCall.setState state).effect t).word := by
  match state with
  | 0 => rw [setLapicTimerState, store_entry, load_entry h, store_mode]; rfl
  | 1 =>
    rw [setLapicTimerState, store_entry, load_entry h, or_not_status (by decide), store_mode,
      word_periodic]
    rfl
  | _+2 => exact h

theorem prepareLapicTimer_entry (h : s.regs LAPIC_LVTTIMER = t.word) :
    (prepareLapicTimer answer s).regs LAPIC_LVTTIMER = t.word := by
  rw [prepareLapicTimer, store_other (by decide), store_other (by decide), read_regs, store_entry,
    load_entry h, store_loaded]

theorem lcount_entry (h : s.regs LAPIC_LVTTIMER = t.word) :
    (lcount answer s).regs LAPIC_LVTTIMER = { t with running := true }.word := by
  rw [lcount, store_entry, load_entry h, store_started]

theorem driver_entry (answer : ℕ → Reg) (s : Lapic) (c : Call) : ∃ s', step answer s c = some s' ∧
    s'.regs LAPIC_LVTTIMER = s.regs LAPIC_LVTTIMER := by
  cases c with
  | sendInit lapicId =>
    rw [step, lapicSendInit, waitPending_some, Option.bind_some, waitPending_some]
    exact ⟨_, rfl, rfl⟩
  | _ => exact ⟨_, rfl, rfl⟩

theorem timerStep_entry (answer : ℕ → Reg) (h : s.regs LAPIC_LVTTIMER = t.word) (c : TimerCall) :
    ∃ s', timerStep answer s c = some s' ∧ s'.regs LAPIC_LVTTIMER = (c.effect t).word := by
  cases c with
  | init irq => exact ⟨_, rfl, initLapicTimer_entry irq⟩
  | setState state => exact ⟨_, rfl, setLapicTimerState_entry h state⟩
  | prepare => exact ⟨_, rfl, prepareLapicTimer_entry h⟩
  | start => exact ⟨_, rfl, startTimer_entry h⟩
  | count => exact ⟨_, rfl, lcount_entry h⟩
  | tick => exact ⟨_, rfl, stopTimer_entry h⟩
  | driver c =>
    obtain ⟨s', hs', hentry⟩ := driver_entry answer s c
    exact ⟨s', hs', hentry.trans h⟩

theorem timerRun_entry (answer : ℕ → Reg) (h : s.regs LAPIC_LVTTIMER = t.word) (cs : List TimerCall) :
    ∃ s', timerRun answer cs s = some s' ∧
      s'.regs LAPIC_LVTTIMER = (cs.foldl TimerCall.effect t).word := by
  induction cs generalizing s t with
  | nil => exact ⟨s, rfl, h⟩
  | cons c cs ih =>
    obtain ⟨s₁, h₁, hentry⟩ := timerStep_entry answer h c
    obtain ⟨s', hrun, hs'⟩ := ih hentry
    exact ⟨s', by rw [timerRun, h₁, Option.bind_some, hrun], hs'⟩

/-- A call that does not start the timer. -/
def TimerCall.starts : TimerCall → Bool
  | .start => true
  | .count => true
  | _ => false

theorem stopped_run (cs : List TimerCall) (hcs : ∀ c ∈ cs, c.starts = false)
    (h : t.running = false) : (cs.foldl TimerCall.effect t).running = false := by
  induction cs generalizing t with
  | nil => exact h
  | cons c cs ih =>
    obtain ⟨hc, hcs⟩ := List.forall_mem_cons.mp hcs
    refine ih hcs ?_
    cases c with
    | setState state =>
      match state with
      | 0 => exact h
      | 1 => exact h
      | _+2 => exact h
    | start => cases hc
    | count => cases hc
    | init irq => rfl
    | tick => rfl
    | prepare => exact h
    | driver c => exact h

end Steps

end BruhOS.LocalApic
