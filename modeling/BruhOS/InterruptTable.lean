import BruhOS.InterruptReturn

/-!
# The interrupt table and the dispatch

The table is filled gate by gate. An address is split over three fields, which
the processor puts together again. The stub of a vector calls one C function,
which tells exceptions and interrupts apart by the vector that the stub pushed,
and finds the function of an interrupt in the table of handlers.
-/

set_option autoImplicit false

namespace BruhOS.Interrupt

open StackMachine

/-- `IDT_ENTRY` -/
structure IdtEntry where
  offset0 : BitVec 16
  selector : BitVec 16
  istoff : BitVec 8
  typeAttr : BitVec 8
  offset1 : BitVec 16
  offset2 : BitVec 32
  zero : BitVec 32
  deriving DecidableEq, Repr

/-- `IDT_ACCESS`, from its lowest bit on. -/
structure IdtAccess where
  gateType : BitVec 4
  storageSeg : BitVec 1
  accessLvl : BitVec 2
  present : BitVec 1

def IdtAccess.u8 (a : IdtAccess) : BitVec 8 :=
  (a.present++a.accessLvl++a.storageSeg++a.gateType).cast rfl

abbrev Idt := ℕ → IdtEntry

def setIdtGate (idt : Idt) (idx : ℕ) (handler : Word) (accessFlags selector : BitVec 8) : Idt :=
  Function.update idt idx
    { idt idx with
      offset0 := handler.setWidth 16
      offset1 := (handler >>> 16).setWidth 16
      offset2 := (handler >>> 32).setWidth 32
      selector := selector.setWidth 16
      istoff := 0
      typeAttr := accessFlags }

/-- The calls that fill the table: the vector, its stub, and what is added to the flags. -/
def idtGates : List (ℕ × Stub × BitVec 8) :=
  [(0x00, .inoe 0, 1), (0x01, .inoe 1, 1), (0x02, .inoe 2, 1), (0x03, .inoe 3, 1),
    (0x04, .inoe 4, 1), (0x05, .inoe 5, 1), (0x06, .inoe 6, 1), (0x07, .inoe 7, 1),
    (0x08, .ie 8, 0), (0x0a, .ie 10, 0), (0x0b, .ie 11, 0), (0x0c, .ie 12, 0), (0x0d, .ie 13, 0),
    (0x0e, .ie 14, 0), (0x10, .inoe 16, 1), (0x11, .ie 17, 0), (0x12, .inoe 18, 1),
    (0x13, .inoe 19, 1), (0x14, .inoe 20, 1), (0x1e, .ie 30, 1)]++
  (List.range' 0x20 224).map fun n => (n, .inoe n, 1)

/-- The stubs that the assembly file defines. -/
def assembled : List Stub :=
  [.inoe 0, .inoe 1, .inoe 2, .inoe 3, .inoe 4, .inoe 5, .inoe 6, .inoe 7, .ie 8, .ie 10, .ie 11,
    .ie 12, .ie 13, .ie 14, .inoe 16, .ie 17, .inoe 18, .inoe 19, .inoe 20, .ie 30]++
  (List.range' 32 224).map .inoe

def gdtCsKernel : BitVec 8 := 0x08

/-- `GATE_TYPE_INTERRUPT32`, present and for the kernel. -/
def idtFlags : IdtAccess := ⟨0x0E, 0, 0, 1⟩

def fillIdt (address : Stub → Word) : List (ℕ × Stub × BitVec 8) → Idt → Idt
  | [], idt => idt
  | (v, st, n)::gs, idt =>
    fillIdt address gs (setIdtGate idt v (address st) (idtFlags.u8+n) gdtCsKernel)

def zeroIdt : Idt := fun _ => ⟨0, 0, 0, 0, 0, 0, 0⟩

def initializeIdt (address : Stub → Word) : Idt := fillIdt address idtGates zeroIdt

/-- A gate as the processor reads it: present, and an interrupt or a trap gate. -/
def IdtEntry.gate? (e : IdtEntry) : Option Gate :=
  if e.typeAttr &&& 0x9e = 0x8e then
    some ⟨e.offset2++e.offset1++e.offset0, e.selector.setWidth 64⟩
  else none

section Table

variable {address : Stub → Word} {gs : List (ℕ × Stub × BitVec 8)} {idt : Idt} {v : ℕ} {st : Stub}
  {n : BitVec 8}

theorem offset_parts (h : Word) :
    ((h >>> 32).setWidth 32++(h >>> 16).setWidth 16++h.setWidth 16 : BitVec 64) = h := by
  apply BitVec.eq_of_getLsbD_eq
  intro i hi
  simp only [BitVec.getLsbD_append, BitVec.getLsbD_setWidth, BitVec.getLsbD_ushiftRight]
  split_ifs with h1 h2
  · simp [h1]
  · simp [show 16+(i-16) = i by omega, h2]
  · simp [show 32+(i-16-16) = i by omega, show i-16-16 < 32 by omega]

theorem fillIdt_of_notMem (h : v ∉ gs.map Prod.fst) : fillIdt address gs idt v = idt v := by
  induction gs generalizing idt with
  | nil => rfl
  | cons g gs ih =>
    simp only [List.map_cons, List.mem_cons, not_or] at h
    obtain ⟨w, st, n⟩ := g
    rw [fillIdt, ih h.2, setIdtGate, Function.update_of_ne h.1]

/-- A gate that is set once is read back as it was set. -/
theorem fillIdt_gate (hnodup : (gs.map Prod.fst).Nodup) (h : (v, st, n) ∈ gs)
    (hn : (idtFlags.u8+n) &&& 0x9e = 0x8e) :
    (fillIdt address gs idt v).gate? = some ⟨address st, 0x08⟩ := by
  induction gs generalizing idt with
  | nil => simp at h
  | cons g gs ih =>
    obtain ⟨w, st', n'⟩ := g
    obtain ⟨hw, hnodup⟩ := List.nodup_cons.mp hnodup
    rcases List.mem_cons.mp h with heq | hmem
    · obtain ⟨rfl, rfl, rfl⟩ : v = w ∧ st = st' ∧ n = n' := by simpa using heq
      rw [fillIdt, fillIdt_of_notMem hw, setIdtGate, Function.update_self, IdtEntry.gate?,
        if_pos hn, Option.some.injEq, Gate.mk.injEq]
      exact ⟨offset_parts _, rfl⟩
    · rw [fillIdt]
      exact ih hnodup hmem

theorem idtGates_nodup : (idtGates.map Prod.fst).Nodup := by
  rw [idtGates, List.map_append, List.map_map]
  have hid : (Prod.fst ∘ fun n : ℕ => (n, Stub.inoe n, (1 : BitVec 8))) = id := rfl
  rw [hid, List.map_id]
  apply List.Nodup.append
  · decide
  · exact List.nodup_range'
  · intro v hv hrange
    have hlow := (List.mem_range'_1.mp hrange).1
    simp at hv
    omega

/-- Every gate leads to the stub of its vector, which the assembly file has. -/
theorem idtGates_stub (h : (v, st, n) ∈ idtGates) :
    st = stubOf v ∧ st ∈ assembled ∧ (idtFlags.u8+n) &&& 0x9e = 0x8e := by
  rcases List.mem_append.mp h with hlow | hhigh
  · simp only [List.mem_cons, List.not_mem_nil, or_false, Prod.mk.injEq] at hlow
    rcases hlow with h | h | h | h | h | h | h | h | h | h | h | h | h | h | h | h | h | h | h | h <;>
      · obtain ⟨rfl, rfl, rfl⟩ := h
        exact ⟨by decide, List.mem_append_left _ (by decide), by decide⟩
  · obtain ⟨k, hk, heq⟩ := List.mem_map.mp hhigh
    obtain ⟨rfl, rfl, rfl⟩ : k = v ∧ Stub.inoe k = st ∧ 1 = n := by simpa using heq
    have hlow := (List.mem_range'_1.mp hk).1
    refine ⟨?_, List.mem_append_right _ (List.mem_map_of_mem hk), by decide⟩
    have hp : pushesError k = false := by
      simp [pushesError]
      omega
    rw [stubOf, hp]
    rfl

/-- The vectors that have a gate. -/
def vectors : List ℕ := idtGates.map Prod.fst

theorem stubOf_assembled (h : v ∈ vectors) : stubOf v ∈ assembled := by
  obtain ⟨⟨w, st, n⟩, hmem, rfl⟩ := List.mem_map.mp h
  obtain ⟨rfl, hst, -⟩ := idtGates_stub hmem
  exact hst

theorem gate_of_mem (h : v ∈ vectors) :
    (initializeIdt address v).gate? = some ⟨address (stubOf v), 0x08⟩ := by
  obtain ⟨⟨w, st, n⟩, hmem, rfl⟩ := List.mem_map.mp h
  obtain ⟨rfl, -, hn⟩ := idtGates_stub hmem
  exact fillIdt_gate idtGates_nodup hmem hn

theorem gate_of_notMem (h : v ∉ vectors) : (initializeIdt address v).gate? = none := by
  rw [initializeIdt, fillIdt_of_notMem h]
  have hempty : ¬ (0 : BitVec 8) &&& 0x9e = 0x8e := by decide
  exact if_neg hempty

theorem mem_vectors : v ∈ vectors ↔
    v ≤ 8 ∨ 10 ≤ v ∧ v ≤ 14 ∨ 16 ≤ v ∧ v ≤ 20 ∨ v = 30 ∨ 32 ≤ v ∧ v < 256 := by
  rw [vectors, idtGates, List.map_append, List.mem_append, List.map_map]
  have hid : (Prod.fst ∘ fun n : ℕ => (n, Stub.inoe n, (1 : BitVec 8))) = id := rfl
  rw [hid, List.map_id, List.mem_range'_1]
  simp only [List.map_cons, List.map_nil, List.mem_cons, List.not_mem_nil, or_false]
  omega

end Table

/-- The vectors on which `exception_handler` was meant to stop. -/
def trapGates : List ℕ := [0, 5, 6, 7, 8, 9, 10, 11, 12, 13, 14, 16, 17, 18, 19, 20]

/-- The loop compares the vector with the index, not with the entry. -/
def hangLoop (irqn : Word) : ℕ → ℕ → Bool → Bool
  | 0, _, needHang => needHang
  | n+1, i, needHang =>
    if needHang then needHang else hangLoop irqn n (i+1) (BitVec.ofNat 64 i == irqn)

def needHang (irqn : Word) : Bool := hangLoop irqn trapGates.length 0 false

/-- The C code around the dispatch: the table of handlers, the function at an address, what an
exception prints and the acknowledgement. -/
structure Services where
  handleTable : ℕ → ℕ
  run : ℕ → Cpu → Cpu → Prop
  report : StackState → Cpu → Cpu → Prop
  lapicSendEoi : Cpu → Cpu → Prop

section Dispatch

variable (E : Services)

/-- An exception on which the processor stops does not come back. -/
def exceptionHandler (sst : StackState) (c d : Cpu) : Prop :=
  needHang sst.irqn = false ∧ E.report sst c d

def irqHandler (sst : StackState) (c d : Cpu) : Prop :=
  ∃ m, E.run (E.handleTable ((sst.irqn-32#64).toNat % 2^8)) c m ∧ E.lapicSendEoi m d

def interruptHandler (c d : Cpu) : Prop :=
  let sst := StackState.read c.mem (c.regs .rdi).toNat
  if sst.irqn.toNat < 32 then exceptionHandler E sst c d else irqHandler E sst c d

end Dispatch

/-- Where the stubs are in memory. -/
structure Link where
  address : Stub → Word
  code : Word → Option Stub
  next : Word → Word
  base : ℕ
  linked : ∀ st ∈ assembled, code (address st) = some st

/-- The processor with the table that `initialize_idt` fills. -/
def kernel (L : Link) (E : Services) : Kernel where
  next := L.next
  base := L.base
  gate v := (initializeIdt L.address v).gate?
  code := L.code
  interruptHandler := interruptHandler E

/-- Every function keeps what a C function has to keep. -/
structure Abi (E : Services) (C : Set Reg) (base : ℕ) : Prop where
  run : ∀ h c d, E.run h c d → Quiet (clobbered C) base c d
  report : ∀ sst c d, E.report sst c d → Quiet (clobbered C) base c d
  eoi : ∀ c d, E.lapicSendEoi c d → Quiet (clobbered C) base c d

section Vectors

variable {L : Link} {E : Services} {C : Set Reg} {v : ℕ} {err : Word} {s s' : Cpu}

theorem hangLoop_iff (irqn : Word) (n i : ℕ) (hi : i+n < 2^64) :
    hangLoop irqn n (i+1) (BitVec.ofNat 64 i == irqn) = true ↔
      i ≤ irqn.toNat ∧ irqn.toNat ≤ i+n := by
  have heq : ∀ j : ℕ, j < 2^64 → ((BitVec.ofNat 64 j == irqn) = true ↔ irqn.toNat = j) := by
    intro j hj
    rw [beq_iff_eq, ← BitVec.toNat_inj, BitVec.toNat_ofNat, Nat.mod_eq_of_lt hj]
    exact eq_comm
  induction n generalizing i with
  | zero =>
    rw [hangLoop, heq i (by omega)]
    omega
  | succ n ih =>
    rw [hangLoop]
    have hi' := heq i (by omega)
    split_ifs with h
    · have := hi'.mp h
      simp only [h, true_iff]
      omega
    · have hne : irqn.toNat ≠ i := fun he => h (hi'.mpr he)
      refine (ih (i+1) (by omega)).trans ?_
      omega

/-- The processor stops on the first sixteen vectors. -/
theorem needHang_iff (irqn : Word) : needHang irqn = true ↔ irqn.toNat < 16 := by
  have hloop := hangLoop_iff irqn 15 0 (by omega)
  have hstart : needHang irqn = hangLoop irqn 15 (0+1) (BitVec.ofNat 64 0 == irqn) := rfl
  rw [hstart, hloop]
  omega

theorem kernel_gate : (kernel L E).gate v =
    if v ∈ vectors then some ⟨L.address (stubOf v), 0x08⟩ else none := by
  change (initializeIdt L.address v).gate? = _
  split_ifs with h
  · exact gate_of_mem h
  · exact gate_of_notMem h

theorem interruptHandler_quiet (hE : Abi E C L.base) (c d : Cpu)
    (h : interruptHandler E c d) : Quiet (clobbered C) L.base c d := by
  simp only [interruptHandler] at h
  split_ifs at h
  · exact hE.report _ c d h.2
  · obtain ⟨m, hrun, heoi⟩ := h
    exact (hE.run _ c m hrun).trans (hE.eoi m d heoi)

theorem kernel_sound (hE : Abi E C L.base) (hC : ∀ r ∈ C, r ∈ control) :
    Sound (kernel L E) C where
  control := hC
  wired v g st hg hst := by
    rw [kernel_gate] at hg
    split_ifs at hg with h
    obtain rfl := Option.some.inj hg
    have hcode := L.linked _ (stubOf_assembled h)
    exact Option.some.inj (hst.symm.trans hcode)
  handler := interruptHandler_quiet hE

end Vectors

end BruhOS.Interrupt
