import BruhOS.HpetTimer
import Mathlib.Tactic

/-!
# The waits of the event timer

`HPET_init` leaves the timer stopped and its first comparator ready. A call that
waits starts the counter and loops until the interrupt of the comparator has set
a flag, which it clears again. The counter runs on until the handler of that
interrupt stops it.

The calls and the handler run one access at a time here, the handler between any
two accesses of a call, and the counter counts between any two accesses of both.
-/

set_option autoImplicit false

namespace BruhOS.Timer

section Registers

def HPET_CAPABILITIES_ID_REG : ℕ := 0x00

def TIMERN_CONFIG_CAPABILITY_REG (n : ℕ) : ℕ := 0x100+0x20*n

def Hpet.reg (s : Hpet) (offset : ℕ) : ℕ := s.memory (s.timer.regtable+offset)

/-- The main counter counts. -/
def Hpet.enabled (s : Hpet) : Bool := (s.reg HPET_CONFIG_REG).testBit 0

def Hpet.counter (s : Hpet) : ℕ := s.reg HPET_MAIN_COUNT_VAL_REG

/-- A comparator raises interrupts. -/
def Hpet.raises (s : Hpet) (n : ℕ) : Bool := (s.reg (TIMERN_CONFIG_CAPABILITY_REG n)).testBit 2

/-- The input of the I/O APIC that a comparator raises. -/
def Hpet.route (s : Hpet) (n : ℕ) : ℕ := (s.reg (TIMERN_CONFIG_CAPABILITY_REG n) >>> 9) &&& 0x1f

/-- The interrupt goes to the bus of the processor and not to an I/O APIC. -/
def Hpet.fsb (s : Hpet) (n : ℕ) : Bool := (s.reg (TIMERN_CONFIG_CAPABILITY_REG n)).testBit 14

end Registers

section Init

/-- One more than the index of the lowest bit that is set, zero for no bits. -/
def lsbul (bits : ℕ) : ℕ :=
  match (List.range 64).find? bits.testBit with
  | some i => i+1
  | none => 0

/-- The loop that disables the comparators, from the `i`th on. -/
def disableTimers (regtable : ℕ) : ℕ → ℕ → Hpet → Hpet
  | 0, _, s => s
  | n+1, i, s =>
    let tmp := s.memory (regtable+TIMERN_CONFIG_CAPABILITY_REG i) &&& (2^64-1-2^2)
    let s := hpet_write_reg regtable (TIMERN_COMPARATOR_VALUE_REG i) 0 s
    disableTimers regtable n (i+1)
      (hpet_write_reg regtable (TIMERN_CONFIG_CAPABILITY_REG i) tmp s)

/-- The first writes. -/
def stopCounter (regtable : ℕ) (s : Hpet) : Hpet :=
  let cfg := s.memory (regtable+HPET_CONFIG_REG)
  let cfg := cfg &&& (2^64-1-2^0) &&& (2^64-1-2^2)
  let s := hpet_write_reg regtable HPET_CONFIG_REG cfg s
  hpet_write_reg regtable HPET_MAIN_COUNT_VAL_REG 0 s

/-- The register of the first comparator, with the input that the timer is to raise. -/
def routeTimer0 (timer0 : ℕ) : ℕ × ℕ :=
  let ioapic_irq0 := (lsbul (timer0 >>> 32)+(2^64-1)) % 2^64
  let timer0 := timer0 &&& (2^64-1-2^14)
  let timer0 := timer0 ||| (ioapic_irq0 <<< 9 % 2^64)
  let timer0 := timer0 &&& (2^64-1-2^3)
  (timer0 ||| 2^2, ioapic_irq0)

def initTimer0 (regtable : ℕ) (s : Hpet) : Hpet × ℕ :=
  let r := routeTimer0 (s.memory (regtable+TIMERN_CONFIG_CAPABILITY_REG 0))
  let s := hpet_write_reg regtable (TIMERN_CONFIG_CAPABILITY_REG 0) r.1 s
  (hpet_write_reg regtable (TIMERN_COMPARATOR_VALUE_REG 0) (s.timer.frequency*10 % 2^64) s, r.2)

/-- The second component is the argument of `installISA`. The timer structure is filled at the end,
and nothing reads it before. -/
def HPET_init (regtable minimum_tick : ℕ) (memory : ℕ → ℕ) : Option (Hpet × ℕ) :=
  let cap := memory (regtable+HPET_CAPABILITIES_ID_REG)
  (HPET_init_timer regtable cap minimum_tick).map fun timer =>
    let s := stopCounter regtable ⟨timer, memory⟩
    initTimer0 regtable (disableTimers regtable (1+((cap >>> 8) &&& 0x1f)) 0 s)

end Init

section Accesses

inductive Op
  | config (on : Bool)
  | flags (on : Bool)
  | counter
  | comparator (ticks : ℕ)
  | wait
  | polled (value : Bool)
  | divideByZero
  deriving DecidableEq, Repr

def hpetDisableOps : List Op := [.config false, .flags false]

def hpetEnableOps : List Op := [.config true, .flags true]

/-- The handler of the interrupt. -/
def hpet_timer_handler : List Op := hpetDisableOps++[.counter, .polled true]

def awaitOps : List Op := [.wait, .polled false]

inductive HpetCall
  | delay (r : Delay) (duration : ℕ)
  | start
  | stop

/-- What the four functions have in common. -/
def prepareOps (frequency toFemto duration : ℕ) : List Op :=
  hpetDisableOps++
    if frequency = 0 then [.divideByZero]
    else [.counter, .comparator (duration*(CONSTANT_JUST_WORKS*toFemto) % 2^64/frequency)]

def HpetCall.ops (frequency : ℕ) : HpetCall → List Op
  | .delay .hcount d => prepareOps frequency MILLI_TO_FEMTO d++(hpetEnableOps++awaitOps)
  | .delay .hcountns d => prepareOps frequency NANO_TO_FEMTO d++(hpetEnableOps++awaitOps)
  | .delay .prepmill d => prepareOps frequency MILLI_TO_FEMTO d
  | .delay .prepnano d => prepareOps frequency NANO_TO_FEMTO d
  | .start => hpetEnableOps++awaitOps
  | .stop => hpetDisableOps

def Op.store (s : Hpet) : Op → Hpet
  | .config true =>
    hpet_write_reg s.timer.regtable HPET_CONFIG_REG ((s.timer.flags &&& 0x2) ||| 1) s
  | .config false => hpet_write_reg s.timer.regtable HPET_CONFIG_REG (s.timer.flags &&& 0x2) s
  | .flags true => { s with timer.flags := s.timer.flags ||| 1 }
  | .flags false => { s with timer.flags := s.timer.flags &&& (2^64-2) }
  | .counter => hpet_write_reg s.timer.regtable HPET_MAIN_COUNT_VAL_REG 0 s
  | .comparator ticks => hpet_write_reg s.timer.regtable (TIMERN_COMPARATOR_VALUE_REG 0) ticks s
  | _ => s

end Accesses

/-- Without an interrupt the accesses are the calls of the timer. -/
theorem delay_ops {s : Hpet} (r : Delay) (duration : ℕ) (hf : s.timer.frequency ≠ 0) :
    r.run duration s =
      some (((HpetCall.delay r duration).ops s.timer.frequency).foldl Op.store s) := by
  have hprepare : ∀ toFemto, prepare toFemto duration s =
      some ((prepareOps s.timer.frequency toFemto duration).foldl Op.store s) := by
    intro toFemto
    rw [prepareOps, if_neg hf]
    exact if_neg hf
  cases r with
  | hcount =>
    rw [Delay.run, hcount, hprepare, HpetCall.ops, List.foldl_append]
    rfl
  | hcountns =>
    rw [Delay.run, hcountns, hprepare, HpetCall.ops, List.foldl_append]
    rfl
  | prepmill => exact hprepare MILLI_TO_FEMTO
  | prepnano => exact hprepare NANO_TO_FEMTO

section Machine

/-- `request` is an interrupt that was raised and not yet taken. The two lists are what the call
and the handler have still to do. -/
structure Machine where
  hpet : Hpet
  polled : Bool
  request : Bool
  program : List Op
  handler : List Op

inductive Event
  | call (c : HpetCall)
  | program
  | interrupt
  | handler
  | tick

def Op.perform (s : Machine) : Op → Machine
  | .polled value => { s with polled := value }
  | op => { s with hpet := op.store s.hpet }

def programStep (s : Machine) : Option Machine :=
  match s.program with
  | [] => none
  | .divideByZero::_ => none
  | .wait::ops => some (if s.polled then { s with program := ops } else s)
  | op::ops => some { op.perform s with program := ops }

def handlerStep (s : Machine) : Option Machine :=
  match s.handler with
  | [] => none
  | op::ops => some { op.perform s with handler := ops }

/-- A counter of `w` bits counts on and raises the interrupt when it gets to the comparator. The
interrupt is an edge, which it is from the reset on: the source does not touch its type. -/
def count (w : ℕ) (s : Machine) : Machine :=
  let next := (s.hpet.counter+1) % 2^w
  { s with
    hpet := hpet_write_reg s.hpet.timer.regtable HPET_MAIN_COUNT_VAL_REG next s.hpet
    request := s.request || (s.hpet.raises 0 && next == s.hpet.comparator % 2^w) }

/-- The handler is not interrupted, and a call starts when the one before has returned. -/
def step (w : ℕ) (s : Machine) : Event → Option Machine
  | .call c =>
    if s.program = [] ∧ s.handler = [] then
      some { s with program := c.ops s.hpet.timer.frequency }
    else none
  | .program => if s.handler = [] then programStep s else none
  | .interrupt =>
    if s.request = true ∧ s.handler = [] then
      some { s with request := false, handler := hpet_timer_handler }
    else none
  | .handler => handlerStep s
  | .tick => if s.hpet.enabled then some (count w s) else none

def run (w : ℕ) : List Event → Machine → Option Machine
  | [], s => some s
  | e::es, s => (step w s e).bind (run w es)

end Machine

end BruhOS.Timer
