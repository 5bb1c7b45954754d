import BruhOS.StackMachine

/-!
# Interrupt entry and return

Every vector has a stub in assembly. The processor leaves a frame on the stack,
the stub pushes the vector below it, with a dummy where the processor pushes no
error code, and then the scratch and the control registers. What it has pushed
is the structure that the C handler reads. The pops go the other way, but the
control registers are popped into a scratch register and lost.

Interrupts may be served inside a stub, before any of its instructions.
-/

set_option autoImplicit false

namespace BruhOS.Interrupt

open StackMachine

inductive Reg where
  | rax | rcx | rdx | rbx | rbp | rsi | rdi | r8 | r9 | r10 | r11 | r12 | r13 | r14 | r15
  | cr0 | cr2 | cr3 | cr4 | cr8
  | rip | cs | rflags | ss
  deriving DecidableEq, Repr

abbrev Cpu := Machine Reg

/-- The control registers, in the order in which a stub pushes them. -/
def control : List Reg := [.cr0, .cr2, .cr3, .cr4, .cr8]

/-- The scratch registers, in the order in which a stub pushes them. -/
def scratch : List Reg := [.rax, .rcx, .rdx, .rsi, .rdi, .r8, .r9, .r10, .r11]

/-- The registers that a C function gives back as they were. -/
def calleeSaved : List Reg := [.rbx, .rbp, .r12, .r13, .r14, .r15]

/-- `push_gpregs` -/
def pushGpregs : List (Instr Reg) :=
  [.push .rax, .push .rcx, .push .rdx, .push .rsi, .push .rdi, .push .r8, .push .r9, .push .r10,
    .push .r11,
    .mov .rdi .cr0, .push .rdi, .mov .rdi .cr2, .push .rdi, .mov .rdi .cr3, .push .rdi,
    .mov .rdi .cr4, .push .rdi, .mov .rdi .cr8, .push .rdi]

/-- `pop_gpregs` -/
def popGpregs : List (Instr Reg) :=
  [.pop .rax, .pop .rax, .pop .rax, .pop .rax, .pop .rax,
    .pop .r11, .pop .r10, .pop .r9, .pop .r8, .pop .rdi, .pop .rsi, .pop .rdx, .pop .rcx,
    .pop .rax]

/-- The labels of the stubs. -/
inductive Stub where
  | ie (n : ℕ)
  | inoe (n : ℕ)
  deriving DecidableEq, Repr

/-- The common lines of both macros up to the call. -/
def entry (n : ℕ) : List (Instr Reg) :=
  .pushImm (BitVec.ofNat 64 n)::(pushGpregs++[.movSp .rdi])

/-- The common lines after the call, without the return. -/
def leave : List (Instr Reg) := popGpregs++[.addSp 16]

def gate (n : ℕ) : List (Instr Reg) := entry n++.call::leave

def Stub.code : Stub → List (Instr Reg)
  | .ie n => gate n
  | .inoe n => .pushImm 0xffff::gate n

/-- The return at the end of every stub. -/
def iretq (s : Cpu) : Cpu :=
  let a := s.sp.toNat
  let returned := ((s.set .rip (readWord s.mem a)).set .cs (readWord s.mem (a+8))).set .rflags
    (readWord s.mem (a+16))
  { returned.set .ss (readWord s.mem (a+32)) with sp := readWord s.mem (a+24) }

/-- A gate of the table, as the processor reads it. -/
structure Gate where
  offset : Word
  selector : Word
  deriving DecidableEq, Repr

/-- The stack pointer is rounded down before the processor pushes its frame. -/
def aligned (s : Cpu) : Cpu := { s with sp := BitVec.ofNat 64 (s.sp.toNat/16*16) }

def pushList : List Word → Cpu → Option Cpu
  | [], s => some s
  | w::ws, s => (s.push w).bind (pushList ws)

/-- What the processor does when an interrupt is taken at the same privilege level. -/
def deliver (g : Gate) (err : Option Word) (flags : Word) (s : Cpu) : Option Cpu :=
  (pushList ([s.regs .ss, s.sp, s.regs .rflags, s.regs .cs, s.regs .rip]++err.toList)
    (aligned s)).map
      fun t => ((t.set .rip g.offset).set .cs g.selector).set .rflags flags

/-- `stack_state` -/
structure StackState where
  cr8 : Word
  cr4 : Word
  cr3 : Word
  cr2 : Word
  cr0 : Word
  r11 : Word
  r10 : Word
  r9 : Word
  r8 : Word
  rdi : Word
  rsi : Word
  rdx : Word
  rcx : Word
  rax : Word
  irqn : Word
  ecode : Word
  rip : Word
  cs : Word
  rflags : Word
  rsp : Word
  ss : Word
  deriving DecidableEq, Repr

def StackState.read (m : Bytes) (a : ℕ) : StackState where
  cr8 := readWord m a
  cr4 := readWord m (a+8)
  cr3 := readWord m (a+16)
  cr2 := readWord m (a+24)
  cr0 := readWord m (a+32)
  r11 := readWord m (a+40)
  r10 := readWord m (a+48)
  r9 := readWord m (a+56)
  r8 := readWord m (a+64)
  rdi := readWord m (a+72)
  rsi := readWord m (a+80)
  rdx := readWord m (a+88)
  rcx := readWord m (a+96)
  rax := readWord m (a+104)
  irqn := readWord m (a+112)
  ecode := readWord m (a+120)
  rip := readWord m (a+128)
  cs := readWord m (a+136)
  rflags := readWord m (a+144)
  rsp := readWord m (a+152)
  ss := readWord m (a+160)

/-- The vectors for which the processor pushes an error code. -/
def pushesError (v : ℕ) : Bool := v ∈ [8, 10, 11, 12, 13, 14, 17, 21, 29, 30]

/-- What the stubs run against: the addresses of the instructions, the stack's end, the gates, the
code behind them and the C function they call. -/
structure Kernel where
  next : Word → Word
  base : ℕ
  gate : ℕ → Option Gate
  code : Word → Option Stub
  interruptHandler : Cpu → Cpu → Prop

def Kernel.enter (K : Kernel) (v : ℕ) (err flags : Word) (s : Cpu) : Option (Stub × Cpu) := do
  let g ← K.gate v
  let st ← K.code g.offset
  let t ← deliver g (if pushesError v then some err else none) flags s
  some (st, t)

/-- After an instruction the flags may be any. -/
def Kernel.advance (K : Kernel) (s : Cpu) (flags : Word) : Cpu :=
  (s.set .rip (K.next (s.regs .rip))).set .rflags flags

/-- The rest of a stub is run, and interrupts are served on the way. -/
inductive Steps (K : Kernel) : List (Instr Reg) → Cpu → Cpu → Prop
  | nil (s : Cpu) : Steps K [] s s
  | exec {i : Instr Reg} {is : List (Instr Reg)} {s t s' : Cpu} {flags : Word}
    (he : exec i s = some t) (hr : Steps K is (K.advance t flags) s') : Steps K (i::is) s s'
  | call {is : List (Instr Reg)} {s t s' : Cpu} (hc : K.interruptHandler s t)
    (hr : Steps K is t s') : Steps K (.call::is) s s'
  | interrupt {is : List (Instr Reg)} {v : ℕ} {err flags : Word} {st : Stub} {s t u s' : Cpu}
    (hv : K.enter v err flags s = some (st, t)) (hi : Steps K st.code t u)
    (hr : Steps K is (iretq u) s') : Steps K is s s'

/-- An interrupt is served from its delivery to the return. -/
def Serves (K : Kernel) (v : ℕ) (err : Word) (s s' : Cpu) : Prop :=
  ∃ flags st t u, K.enter v err flags s = some (st, t) ∧ Steps K st.code t u ∧ s' = iretq u

end BruhOS.Interrupt
