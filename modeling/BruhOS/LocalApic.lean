import Mathlib.Data.BitVec
import Mathlib.Logic.Function.Basic
import Mathlib.Tactic

/-!
# The local APIC

The registers of a local APIC are words at fixed offsets. A store to the low
word of the interrupt command register sends a message that both of its words
describe. Two registers have a bit that only the device changes, and the timer
counts on its own; what a load of these returns is an answer of the device, and
nothing is assumed about the answers.

`lapic_pending` keeps the status bit in a `bool_t`, which has eight bits, and
`pausewhile` takes its condition by value.
-/

set_option autoImplicit false

namespace BruhOS.LocalApic

abbrev Reg := BitVec 32

def LAPIC_ID : ℕ := 0x20
def LAPIC_TASKPRI : ℕ := 0x80
def LAPIC_EOI : ℕ := 0xB0
def LAPIC_LOGICDEST : ℕ := 0xD0
def LAPIC_DESTFORMAT : ℕ := 0xE0
def LAPIC_SPURINTVEC : ℕ := 0xF0
def LAPIC_INTCOMMND0 : ℕ := 0x300
def LAPIC_INTCOMMND1 : ℕ := 0x310
def LAPIC_LVTTIMER : ℕ := 0x320
def LAPIC_TIMERINITCNT : ℕ := 0x380
def LAPIC_TIMERCURCNT : ℕ := 0x390
def LAPIC_DIVCONFIG : ℕ := 0x3E0

/-- The bit of a command and of a timer entry that says that it is being delivered. -/
def statusBit : Reg := 0x1000#32

/-- The registers, the number of loads so far, and the words that were sent, the high one first. -/
structure Lapic where
  regs : ℕ → Reg
  loads : ℕ
  sent : List (Reg × Reg)

/-- The registers with a status bit. -/
def hasStatus (offset : ℕ) : Bool := offset == LAPIC_INTCOMMND0 || offset == LAPIC_LVTTIMER

section Driver

variable (answer : ℕ → Reg)

def lapicReadReg (s : Lapic) (offset : ℕ) : Reg × Lapic :=
  let data :=
    if offset = LAPIC_TIMERCURCNT then answer s.loads
    else if hasStatus offset then s.regs offset ||| (answer s.loads &&& statusBit)
    else s.regs offset
  (data, { s with loads := s.loads+1 })

def lapicWriteReg (s : Lapic) (offset : ℕ) (data : Reg) : Lapic :=
  let data := if hasStatus offset then data &&& ~~~statusBit else data
  { s with
    regs := Function.update s.regs offset data
    sent := if offset = LAPIC_INTCOMMND0 then s.sent++[(s.regs LAPIC_INTCOMMND1, data)]
      else s.sent }

def lapicInit (s : Lapic) : Lapic :=
  let tmp := lapicReadReg answer s LAPIC_SPURINTVEC
  let s := lapicWriteReg tmp.2 LAPIC_DESTFORMAT 0xFFFFFFFF#32
  let s := lapicWriteReg s LAPIC_LOGICDEST (1#32 <<< 24)
  let s := lapicWriteReg s LAPIC_SPURINTVEC (tmp.1 ||| 0x1FF#32)
  lapicWriteReg s LAPIC_TASKPRI 0#32

def lapicSendInt (s : Lapic) (lapicId : Reg) (vector : BitVec 8) : Lapic :=
  let r1 := lapicReadReg answer s LAPIC_INTCOMMND1
  let r0 := lapicReadReg answer r1.2 LAPIC_INTCOMMND0
  let s := lapicWriteReg r0.2 LAPIC_INTCOMMND1 (r1.1 ||| ((lapicId &&& 0x3#32) <<< 24))
  lapicWriteReg s LAPIC_INTCOMMND0 (r0.1 ||| vector.setWidth 32)

/-- The status bit is returned in eight bits. -/
def lapicPending (s : Lapic) : BitVec 8 × Lapic :=
  let r := lapicReadReg answer s LAPIC_INTCOMMND0
  ((r.1 &&& statusBit).setWidth 8, r.2)

/-- The loop tests a copy of the condition: it does not run, or it does not end. -/
def pausewhile (condition : BitVec 8) (s : Lapic) : Option Lapic :=
  if condition = 0 then some s else none

/-- The words of a command to one processor: the target, the mode and the bits of the level. -/
def command (s : Lapic) (lapicId : Reg) (low : Reg) : Lapic :=
  let r1 := lapicReadReg answer s LAPIC_INTCOMMND1
  let r0 := lapicReadReg answer r1.2 LAPIC_INTCOMMND0
  let s := lapicWriteReg r0.2 LAPIC_INTCOMMND1
    ((r1.1 &&& 0x00ffffff#32) ||| ((lapicId &&& 0xFF#32) <<< 24))
  lapicWriteReg s LAPIC_INTCOMMND0 ((r0.1 &&& 0xfff00000#32) ||| low)

def waitPending (s : Lapic) : Option Lapic :=
  let c := lapicPending answer s
  pausewhile c.1 c.2

def lapicSendInit (s : Lapic) (lapicId : Reg) : Option Lapic :=
  (waitPending answer (command answer s lapicId ((5#32 <<< 8) ||| (1#32 <<< 14)))).bind fun s =>
    waitPending answer (command answer s lapicId ((5#32 <<< 8) ||| (1#32 <<< 15)))

def lapicSendStartup (s : Lapic) (lapicId trampoline : Reg) : Lapic :=
  command answer s lapicId ((trampoline >>> 12) ||| (6#32 <<< 8))

def lapicSendEoi (s : Lapic) : Lapic := lapicWriteReg s LAPIC_EOI 0#32

def lapicGetId (s : Lapic) : Reg × Lapic :=
  let r := lapicReadReg answer s LAPIC_ID
  (r.1 >>> 24, r.2)

inductive Call
  | init
  | sendInt (lapicId : Reg) (vector : BitVec 8)
  | sendInit (lapicId : Reg)
  | sendStartup (lapicId trampoline : Reg)
  | sendEoi
  | getId

def step (s : Lapic) : Call → Option Lapic
  | .init => some (lapicInit answer s)
  | .sendInt lapicId vector => some (lapicSendInt answer s lapicId vector)
  | .sendInit lapicId => lapicSendInit answer s lapicId
  | .sendStartup lapicId trampoline => some (lapicSendStartup answer s lapicId trampoline)
  | .sendEoi => some (lapicSendEoi s)
  | .getId => some (lapicGetId answer s).2

def run : List Call → Lapic → Option Lapic
  | [], s => some s
  | c::cs, s => (step answer s c).bind (run cs)

end Driver

/-- What the two words of a command say. -/
structure Ipi where
  destination : BitVec 8
  vector : BitVec 8
  mode : BitVec 3
  logical : BitVec 1
  assert : BitVec 1
  level : BitVec 1
  shorthand : BitVec 2
  deriving DecidableEq, Repr

def decode (high low : Reg) : Ipi where
  destination := high.extractLsb' 24 8
  vector := low.extractLsb' 0 8
  mode := low.extractLsb' 8 3
  logical := low.extractLsb' 11 1
  assert := low.extractLsb' 14 1
  level := low.extractLsb' 15 1
  shorthand := low.extractLsb' 18 2

def Lapic.messages (s : Lapic) : List Ipi := s.sent.map fun w => decode w.1 w.2

/-- The command register as it stands. -/
def Lapic.pendingCommand (s : Lapic) : Ipi :=
  decode (s.regs LAPIC_INTCOMMND1) (s.regs LAPIC_INTCOMMND0)

def initAssert (lapicId : Reg) : Ipi := ⟨lapicId.setWidth 8, 0, 5, 0, 1, 0, 0⟩

def initDeassert (lapicId : Reg) : Ipi := ⟨lapicId.setWidth 8, 0, 5, 0, 0, 1, 0⟩

/-- The command that a startup sends: the number of the page, with what it has beyond eight bits. -/
def startup (lapicId trampoline : Reg) : Ipi :=
  { decode 0 ((trampoline >>> 12) ||| (6#32 <<< 8)) with destination := lapicId.setWidth 8 }

/-- A vector is added to the command that was sent before. -/
def Ipi.with (c : Ipi) (lapicId : Reg) (vector : BitVec 8) : Ipi :=
  { c with
    destination := c.destination ||| (lapicId.setWidth 8 &&& 0x3#8)
    vector := c.vector ||| vector }

/-- The messages of a call after the command `c`. -/
def Call.messages (c : Ipi) : Call → List Ipi
  | .sendInt lapicId vector => [c.with lapicId vector]
  | .sendInit lapicId => [initAssert lapicId, initDeassert lapicId]
  | .sendStartup lapicId trampoline => [startup lapicId trampoline]
  | _ => []

/-- The messages of a run that starts with the command `c` in the register. -/
def messagesOf (c : Ipi) : List Call → List Ipi
  | [] => []
  | call::cs => call.messages c++messagesOf ((call.messages c).getLastD c) cs

section Words

/-- The status bit is in none of the fields. -/
theorem decode_int (h l p : Reg) (lapicId : Reg) (vector : BitVec 8) :
    decode (h ||| ((lapicId &&& 0x3#32) <<< 24))
      ((l ||| (p &&& statusBit) ||| vector.setWidth 32) &&& ~~~statusBit) =
      (decode h l).with lapicId vector := by
  simp only [decode, Ipi.with, statusBit, Ipi.mk.injEq]
  refine ⟨?_, ?_, ?_, ?_, ?_, ?_, ?_⟩ <;>
    · apply BitVec.eq_of_getLsbD_eq
      intro i hi
      interval_cases i <;> simp

theorem decode_command (h l p : Reg) (lapicId low : Reg) :
    decode ((h &&& 0x00ffffff#32) ||| ((lapicId &&& 0xFF#32) <<< 24))
      ((((l ||| (p &&& statusBit)) &&& 0xfff00000#32) ||| low) &&& ~~~statusBit) =
      { decode 0 low with destination := lapicId.setWidth 8 } := by
  simp only [decode, statusBit, Ipi.mk.injEq]
  refine ⟨?_, ?_, ?_, ?_, ?_, ?_, ?_⟩ <;>
    · apply BitVec.eq_of_getLsbD_eq
      intro i hi
      interval_cases i <;> simp

theorem status_lost (r : Reg) : (r &&& statusBit).setWidth 8 = 0 := by
  rw [statusBit]
  apply BitVec.eq_of_getLsbD_eq
  intro i hi
  interval_cases i <;> simp

end Words

section Commands

variable {answer : ℕ → Reg} {s : Lapic} {offset : ℕ} {data : Reg}

@[simp] theorem read_regs : (lapicReadReg answer s offset).2.regs = s.regs := rfl

@[simp] theorem read_sent : (lapicReadReg answer s offset).2.sent = s.sent := rfl

theorem read_plain (ht : offset ≠ LAPIC_TIMERCURCNT) (h : hasStatus offset = false) :
    (lapicReadReg answer s offset).1 = s.regs offset := by
  simp [lapicReadReg, ht, h]

theorem read_status (ht : offset ≠ LAPIC_TIMERCURCNT) (h : hasStatus offset = true) :
    (lapicReadReg answer s offset).1 = s.regs offset ||| (answer s.loads &&& statusBit) := by
  simp [lapicReadReg, ht, h]

theorem write_plain (h : hasStatus offset = false) (hc : offset ≠ LAPIC_INTCOMMND0) :
    lapicWriteReg s offset data = { s with regs := Function.update s.regs offset data } := by
  simp [lapicWriteReg, h, hc]

theorem write_command : lapicWriteReg s LAPIC_INTCOMMND0 data =
    { s with
      regs := Function.update s.regs LAPIC_INTCOMMND0 (data &&& ~~~statusBit)
      sent := s.sent++[(s.regs LAPIC_INTCOMMND1, data &&& ~~~statusBit)] } := rfl

/-- A message is the command that is left in the register. -/
structure Sends (s : Lapic) (is : List Ipi) (s' : Lapic) : Prop where
  messages : s'.messages = s.messages++is
  command : s'.pendingCommand = is.getLastD s.pendingCommand

theorem Sends.trans {s s' s'' : Lapic} {is js : List Ipi} (h : Sends s is s')
    (h' : Sends s' js s'') : Sends s (is++js) s'' := by
  refine ⟨by rw [h'.messages, h.messages, List.append_assoc], ?_⟩
  rw [h'.command, h.command]
  cases js using List.reverseRecOn with
  | nil => simp
  | append_singleton js j => simp [← List.append_assoc]

/-- Nothing is sent where neither word of the command is written. -/
theorem sends_nil {s' : Lapic} (hsent : s'.sent = s.sent)
    (h1 : s'.regs LAPIC_INTCOMMND1 = s.regs LAPIC_INTCOMMND1)
    (h0 : s'.regs LAPIC_INTCOMMND0 = s.regs LAPIC_INTCOMMND0) : Sends s [] s' := by
  refine ⟨by rw [Lapic.messages, hsent, List.append_nil, Lapic.messages], ?_⟩
  rw [Lapic.pendingCommand, h1, h0]
  rfl

theorem sends_one {s' : Lapic} {high low : Reg} {i : Ipi} (hsent : s'.sent = s.sent++[(high, low)])
    (h1 : s'.regs LAPIC_INTCOMMND1 = high) (h0 : s'.regs LAPIC_INTCOMMND0 = low)
    (hi : decode high low = i) : Sends s [i] s' := by
  subst hi
  refine ⟨by rw [Lapic.messages, hsent, List.map_append]; rfl, ?_⟩
  rw [Lapic.pendingCommand, h1, h0]
  rfl

/-- Both words are loaded, and both are stored again. -/
theorem words_send (f g : Reg → Reg) {i : Ipi}
    (hi : decode (f (s.regs LAPIC_INTCOMMND1))
      (g (s.regs LAPIC_INTCOMMND0 ||| (answer (s.loads+1) &&& statusBit)) &&& ~~~statusBit) = i) :
    let r1 := lapicReadReg answer s LAPIC_INTCOMMND1
    let r0 := lapicReadReg answer r1.2 LAPIC_INTCOMMND0
    Sends s [i] (lapicWriteReg (lapicWriteReg r0.2 LAPIC_INTCOMMND1 (f r1.1)) LAPIC_INTCOMMND0
      (g r0.1)) := by
  intro r1 r0
  have hr1 : r1.1 = s.regs LAPIC_INTCOMMND1 := read_plain (by decide) (by decide)
  have hr0 : r0.1 = s.regs LAPIC_INTCOMMND0 ||| (answer (s.loads+1) &&& statusBit) :=
    read_status (by decide) (by decide)
  have hne : LAPIC_INTCOMMND1 ≠ LAPIC_INTCOMMND0 := by decide
  rw [hr1, hr0, write_plain (by decide) hne, write_command]
  refine sends_one rfl ?_ (by simp) ?_
  · simp [hne]
  · simpa using hi

theorem sendInt_sends (lapicId : Reg) (vector : BitVec 8) :
    Sends s [s.pendingCommand.with lapicId vector] (lapicSendInt answer s lapicId vector) :=
  words_send (fun r => r ||| ((lapicId &&& 0x3#32) <<< 24)) (fun r => r ||| vector.setWidth 32)
    (decode_int _ _ _ _ _)

theorem command_sends (lapicId low : Reg) :
    Sends s [{ decode 0 low with destination := lapicId.setWidth 8 }]
      (command answer s lapicId low) :=
  words_send (fun r => (r &&& 0x00ffffff#32) ||| ((lapicId &&& 0xFF#32) <<< 24))
    (fun r => (r &&& 0xfff00000#32) ||| low) (decode_command _ _ _ _ _)

/-- The wait for the delivery is passed at once. -/
theorem waitPending_some : waitPending answer s =
    some (lapicReadReg answer s LAPIC_INTCOMMND0).2 := by
  rw [waitPending, lapicPending]
  simp only [status_lost, pausewhile, if_true]

theorem waitPending_sends (answer : ℕ → Reg) (s : Lapic) : ∃ s', waitPending answer s = some s' ∧ Sends s [] s' :=
  ⟨_, waitPending_some, sends_nil rfl rfl rfl⟩

theorem sendInit_sends (lapicId : Reg) : ∃ s', lapicSendInit answer s lapicId = some s' ∧
    Sends s [initAssert lapicId, initDeassert lapicId] s' := by
  obtain ⟨s₁, h₁, hs₁⟩ := waitPending_sends answer
    (command answer s lapicId ((5#32 <<< 8) ||| (1#32 <<< 14)))
  obtain ⟨s₂, h₂, hs₂⟩ := waitPending_sends answer
    (command answer s₁ lapicId ((5#32 <<< 8) ||| (1#32 <<< 15)))
  refine ⟨s₂, by rw [lapicSendInit, h₁, Option.bind_some, h₂], ?_⟩
  exact (((command_sends lapicId _).trans hs₁).trans (command_sends lapicId _)).trans hs₂

theorem step_sends (answer : ℕ → Reg) (s : Lapic) (c : Call) : ∃ s', step answer s c = some s' ∧
    Sends s (c.messages s.pendingCommand) s' := by
  cases c with
  | init => exact ⟨_, rfl, sends_nil rfl rfl rfl⟩
  | sendInt lapicId vector => exact ⟨_, rfl, sendInt_sends lapicId vector⟩
  | sendInit lapicId => exact sendInit_sends lapicId
  | sendStartup lapicId trampoline => exact ⟨_, rfl, command_sends lapicId _⟩
  | sendEoi => exact ⟨_, rfl, sends_nil rfl rfl rfl⟩
  | getId => exact ⟨_, rfl, sends_nil rfl rfl rfl⟩

/-- No call waits, and what a run sends does not depend on the answers of the device. -/
theorem run_sends (answer : ℕ → Reg) (cs : List Call) (s : Lapic) : ∃ s', run answer cs s = some s' ∧
    s'.messages = s.messages++messagesOf s.pendingCommand cs := by
  induction cs generalizing s with
  | nil => exact ⟨s, rfl, by simp [messagesOf]⟩
  | cons c cs ih =>
    obtain ⟨s₁, h₁, hsends⟩ := step_sends answer s c
    obtain ⟨s', hrun, hs'⟩ := ih s₁
    refine ⟨s', by rw [run, h₁, Option.bind_some, hrun], ?_⟩
    rw [hs', hsends.messages, hsends.command, messagesOf, List.append_assoc]

/-- The command in the register after a run. -/
def commandAfter (c : Ipi) : List Call → Ipi
  | [] => c
  | call::cs => commandAfter ((call.messages c).getLastD c) cs

theorem messagesOf_append (c : Ipi) (cs ds : List Call) :
    messagesOf c (cs++ds) = messagesOf c cs++messagesOf (commandAfter c cs) ds := by
  induction cs generalizing c with
  | nil => rfl
  | cons call cs ih => rw [List.cons_append, messagesOf, ih, messagesOf, commandAfter,
      List.append_assoc]

/-- The vectors that were put into the register since it was last set. -/
def carried (vector : BitVec 8) : List Call → BitVec 8
  | [] => vector
  | .sendInt _ v::cs => carried (vector ||| v) cs
  | .sendInit _::cs => carried 0 cs
  | .sendStartup _ trampoline::cs => carried ((trampoline >>> 12).setWidth 8) cs
  | _::cs => carried vector cs

def Call.toStart : Call → Bool
  | .sendInit _ => true
  | .sendStartup _ _ => true
  | _ => false

theorem startup_vector (lapicId trampoline : Reg) :
    (startup lapicId trampoline).vector = (trampoline >>> 12).setWidth 8 := by
  simp only [startup, decode]
  apply BitVec.eq_of_getLsbD_eq
  intro i hi
  interval_cases i <;> simp

theorem startup_mode (lapicId trampoline : Reg) : (startup lapicId trampoline).mode ≠ 0 := by
  intro h
  have hbit := congrArg (fun m => m.getLsbD 1) h
  simp [startup, decode] at hbit

/-- A trampoline in the first mebibyte does not reach beyond the vector. -/
theorem startup_low (lapicId trampoline : Reg) (h : trampoline.toNat < 2^20) :
    startup lapicId trampoline =
      ⟨lapicId.setWidth 8, (trampoline >>> 12).setWidth 8, 6, 0, 0, 0, 0⟩ := by
  have hhigh : ∀ (j : ℕ) (hj : j < 32), 20 ≤ j → trampoline[j] = false := fun j _ hle =>
    Nat.testBit_lt_two_pow (h.trans_le (Nat.pow_le_pow_right (by decide) hle))
  simp only [startup, decode, Ipi.mk.injEq, true_and]
  refine ⟨?_, ?_, ?_, ?_, ?_, ?_⟩ <;>
    · apply BitVec.eq_of_getLsbD_eq
      intro i hi
      interval_cases i <;> simp [hhigh]

theorem commandAfter_vector (cs : List Call) (c : Ipi) :
    (commandAfter c cs).vector = carried c.vector cs := by
  induction cs generalizing c with
  | nil => rfl
  | cons call cs ih =>
    rw [commandAfter, ih]
    cases call with
    | sendStartup lapicId trampoline =>
      rw [carried, ← startup_vector lapicId]
      rfl
    | _ => rfl

theorem commandAfter_mode (cs : List Call) (c : Ipi) :
    (commandAfter c cs).mode = 0 ↔ c.mode = 0 ∧ ∀ call ∈ cs, call.toStart = false := by
  induction cs generalizing c with
  | nil => simp [commandAfter]
  | cons call cs ih =>
    rw [commandAfter, ih, List.forall_mem_cons]
    cases call with
    | sendInit lapicId => simp [Call.messages, Call.toStart, initDeassert]
    | sendStartup lapicId trampoline =>
      constructor
      · rintro ⟨hmode, -⟩
        exact absurd hmode (startup_mode lapicId trampoline)
      · rintro ⟨-, hstart, -⟩
        cases hstart
    | _ => simp [Call.messages, Call.toStart, Ipi.with]

end Commands

/-- The calls that start a processor send their four commands to it, whatever was sent before and
whatever the device answers, and none of them waits for a delivery. -/
theorem startup_sequence_sends (answer : ℕ → Reg) (cs : List Call) (s : Lapic)
    (lapicId trampoline : Reg) (h : trampoline.toNat < 2^20) :
    ∃ s', run answer (cs++[.sendInit lapicId, .sendStartup lapicId trampoline,
        .sendStartup lapicId trampoline]) s = some s' ∧
      s'.messages = s.messages++messagesOf s.pendingCommand cs++
        [initAssert lapicId, initDeassert lapicId,
          ⟨lapicId.setWidth 8, (trampoline >>> 12).setWidth 8, 6, 0, 0, 0, 0⟩,
          ⟨lapicId.setWidth 8, (trampoline >>> 12).setWidth 8, 6, 0, 0, 0, 0⟩] := by
  obtain ⟨s', hrun, hs'⟩ := run_sends answer (cs++[.sendInit lapicId,
    .sendStartup lapicId trampoline, .sendStartup lapicId trampoline]) s
  refine ⟨s', hrun, ?_⟩
  rw [hs', messagesOf_append, ← List.append_assoc]
  simp [messagesOf, Call.messages, startup_low lapicId trampoline h]

def quietLapic : Lapic := ⟨fun _ => 0, 0, []⟩

/-- Processor 3 is started at page 8 after an interrupt was sent to processor 1. -/
theorem startup_sequence_sends_three :
    ∃ s', run (fun _ => 0xFFFFFFFF) ([.sendInt 1 0x40]++[.sendInit 3, .sendStartup 3 0x8000,
        .sendStartup 3 0x8000]) quietLapic = some s' ∧
      s'.messages = quietLapic.messages++messagesOf quietLapic.pendingCommand [.sendInt 1 0x40]++
        [initAssert 3, initDeassert 3, ⟨3, 8, 6, 0, 0, 0, 0⟩, ⟨3, 8, 6, 0, 0, 0, 0⟩] :=
  startup_sequence_sends _ _ _ 3 0x8000 (by decide)

/-- An interrupt carries the vectors that were sent since the command register was last set. It is
an interrupt at all only as long as no processor was started. -/
theorem interrupts_accumulate (answer : ℕ → Reg) (cs : List Call) (s : Lapic) (lapicId : Reg)
    (vector : BitVec 8) :
    ∃ s' m, run answer (cs++[.sendInt lapicId vector]) s = some s' ∧
      s'.messages = s.messages++messagesOf s.pendingCommand cs++[m] ∧
      (m.vector = vector ↔ carried s.pendingCommand.vector cs ||| vector = vector) ∧
      (m.mode = 0 ↔ s.pendingCommand.mode = 0 ∧ ∀ call ∈ cs, call.toStart = false) := by
  obtain ⟨s', hrun, hs'⟩ := run_sends answer (cs++[.sendInt lapicId vector]) s
  refine ⟨s', (commandAfter s.pendingCommand cs).with lapicId vector, hrun, ?_, ?_, ?_⟩
  · rw [hs', messagesOf_append, ← List.append_assoc]
    rfl
  · rw [← commandAfter_vector]
    rfl
  · exact commandAfter_mode cs _

end BruhOS.LocalApic
