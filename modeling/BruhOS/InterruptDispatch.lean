import BruhOS.InterruptTable
import BruhOS.IrqVectors

/-!
# Interrupts from the gate to the handler

An interrupt that has a gate runs the function in the slot of its vector on the
state of the interrupted code, is acknowledged and returns. The installers fill
the slots and the redirection entries together, so the function is the one that
was installed for the interrupt.
-/

set_option autoImplicit false

namespace BruhOS.Interrupt

open StackMachine

section Dispatch

variable {L : Link} {E : Services} {C : Set Reg} {v : ℕ} {err : Word} {s s' : Cpu}

/-- What the vector of an interrupt calls: its slot's function on the interrupted state. -/
def Handled (E : Services) (v : ℕ) (err : Word) (s : Cpu) : Prop :=
  ∃ (c m d : Cpu) (f : Reg → Word), E.run (E.handleTable (v-32)) c m ∧ E.lapicSendEoi m d ∧
    StackState.read c.mem (c.regs .rdi).toNat = stateOf s (BitVec.ofNat 64 v) (errorCode v err) f

/-- What the vector of an exception calls. -/
def Reported (E : Services) (v : ℕ) (err : Word) (s : Cpu) : Prop :=
  ∃ (c d : Cpu) (f : Reg → Word),
    E.report (stateOf s (BitVec.ofNat 64 v) (errorCode v err) f) c d

theorem toNat_vector (hv : v < 256) : (BitVec.ofNat 64 v).toNat = v := by
  rw [BitVec.toNat_ofNat]
  omega

theorem slot_eq (hv : v < 256) (hlow : 32 ≤ v) :
    (BitVec.ofNat 64 v-32#64).toNat % 2^8 = v-32 := by
  rw [BitVec.toNat_sub, toNat_vector hv]
  simp only [BitVec.toNat_ofNat]
  omega

/-- The dispatch on a state that a stub has saved. -/
theorem interruptHandler_iff (hv : v < 256) {c d : Cpu} {f : Reg → Word}
    (h : StackState.read c.mem (c.regs .rdi).toNat =
      stateOf s (BitVec.ofNat 64 v) (errorCode v err) f) :
    interruptHandler E c d ↔
      (v < 32 ∧ 16 ≤ v ∧ E.report (stateOf s (BitVec.ofNat 64 v) (errorCode v err) f) c d) ∨
      (32 ≤ v ∧ ∃ m, E.run (E.handleTable (v-32)) c m ∧ E.lapicSendEoi m d) := by
  have hirqn : (stateOf s (BitVec.ofNat 64 v) (errorCode v err) f).irqn = BitVec.ofNat 64 v := rfl
  have hhang : needHang (BitVec.ofNat 64 v) = false ↔ 16 ≤ v := by
    rw [← Bool.not_eq_true, needHang_iff, toNat_vector hv]
    omega
  simp only [interruptHandler, h, hirqn, toNat_vector hv]
  split_ifs with hlow
  · simp only [exceptionHandler, hirqn, hhang, hlow, true_and, show ¬ 32 ≤ v by omega, false_and,
      or_false]
  · simp only [irqHandler, hirqn, slot_eq hv (by omega), hlow, false_and, false_or,
      show 32 ≤ v by omega, true_and]

theorem serves_vector (h : Serves (kernel L E) v err s s') : v ∈ vectors := by
  obtain ⟨flags, st, t, u, hv, -⟩ := h
  obtain ⟨g, hg, -⟩ := Option.bind_eq_some_iff.mp hv
  rw [kernel_gate] at hg
  by_contra hn
  rw [if_neg hn] at hg
  cases hg

theorem vector_lt (h : v ∈ vectors) : v < 256 := by
  have := mem_vectors.mp h
  omega

/-- What an interrupt that returned has called. -/
theorem serves_calls (hE : Abi E C L.base) (hC : ∀ r ∈ C, r ∈ control)
    (hs : s.sp.toNat ≤ L.base) (h : Serves (kernel L E) v err s s') :
    16 ≤ v ∧ (v < 32 → Reported E v err s) ∧ (32 ≤ v → Handled E v err s) := by
  have hv := vector_lt (serves_vector h)
  obtain ⟨-, c, d, f, hcd, hread, -⟩ := serves_returns (kernel_sound hE hC) hs h
  rcases (interruptHandler_iff hv hread).mp hcd with ⟨hlow, hhigh, hreport⟩ | ⟨hhigh, m, hrun, heoi⟩
  · exact ⟨hhigh, fun _ => ⟨c, d, f, hreport⟩, fun _ => by omega⟩
  · exact ⟨by omega, fun _ => by omega, fun _ => ⟨c, m, d, f, hrun, heoi, hread⟩⟩

/-- An interrupt whose C code returns is served. -/
theorem serves_of_returns (hE : Abi E C L.base) (hC : ∀ r ∈ C, r ∈ control) (hv : v ∈ vectors)
    (hhigh : 16 ≤ v) (hrun : 32 ≤ v → ∀ c, ∃ d, E.run (E.handleTable (v-32)) c d)
    (hreport : v < 32 → ∀ sst c, ∃ d, E.report sst c d)
    (heoi : 32 ≤ v → ∀ c, ∃ d, E.lapicSendEoi c d) (hlow : 256 ≤ s.sp.toNat)
    (hs : s.sp.toNat ≤ L.base) : ∃ s', Serves (kernel L E) v err s s' := by
  have hgate : (kernel L E).gate v = some ⟨L.address (stubOf v), 0x08⟩ := by
    rw [kernel_gate, if_pos hv]
  refine serves_exist (kernel_sound hE hC) hgate
    (L.linked _ (stubOf_assembled hv)) hlow hs ?_
  intro c f hread
  have hiff := fun d => interruptHandler_iff (E := E) (d := d) (vector_lt hv) hread
  by_cases h32 : v < 32
  · obtain ⟨d, hd⟩ := hreport h32 (stateOf s (BitVec.ofNat 64 v) (errorCode v err) f) c
    exact ⟨d, (hiff d).mpr (Or.inl ⟨h32, hhigh, hd⟩)⟩
  · obtain ⟨m, hm⟩ := hrun (by omega) c
    obtain ⟨d, hd⟩ := heoi (by omega) m
    exact ⟨d, (hiff d).mpr (Or.inr ⟨by omega, m, hm, hd⟩)⟩

end Dispatch

/-- Two labels for every vector. -/
def plainLink : Link where
  address
    | .ie n => BitVec.ofNat 64 (2*n)
    | .inoe n => BitVec.ofNat 64 (2*n+1)
  code w := some (if w.toNat % 2 = 0 then .ie (w.toNat/2) else .inoe (w.toNat/2))
  next w := w+1
  base := 0x10000
  linked st hst := by
    have hsmall : ∀ n, st = .ie n ∨ st = .inoe n → n < 256 := by
      intro n hn
      rcases List.mem_append.mp hst with h | h
      · simp only [List.mem_cons, List.not_mem_nil, or_false] at h
        rcases hn with rfl | rfl <;> simp at h <;> omega
      · obtain ⟨k, hk, rfl⟩ := List.mem_map.mp h
        have hlt := (List.mem_range'_1.mp hk).2
        rcases hn with hn | hn
        · cases hn
        · obtain rfl := Stub.inoe.inj hn
          omega
    cases st with
    | ie n =>
      have hn := hsmall n (Or.inl rfl)
      simp only [BitVec.toNat_ofNat]
      rw [if_pos (by omega)]
      congr 2
      omega
    | inoe n =>
      have hn := hsmall n (Or.inr rfl)
      simp only [BitVec.toNat_ofNat]
      rw [if_neg (by omega)]
      congr 2
      omega

/-- Handlers that leave their own address in a scratch register. -/
def plainServices : Services where
  handleTable idx := idx+0x1000
  run h c d := d = c.set .rax (BitVec.ofNat 64 h)
  report _ c d := d = c
  lapicSendEoi c d := d = c

theorem plainServices_abi : Abi plainServices ∅ 0x10000 where
  run h c d hd := by
    subst hd
    intro _
    refine ⟨rfl, fun r hr => ?_, fun _ _ _ => rfl⟩
    apply Machine.set_of_ne
    rintro rfl
    exact hr ⟨by simp [calleeSaved], by simp [control]⟩
  report _ c d hd := hd ▸ Quiet.refl d
  eoi c d hd := hd ▸ Quiet.refl d

/-- A processor in the middle of a computation. -/
def busyCpu : Cpu := ⟨fun _ => 7, 0x8008, fun _ => 0⟩

/-- An interrupt that returns gives every register back but the control registers that the handlers
change, and the stack from the stack pointer on; it has called its handler on the state of the
interrupted code. Any number of interrupts may have been served inside its stub. -/
theorem interrupts_leave_no_trace (L : Link) (E : Services) (C : Set Reg) (hE : Abi E C L.base)
    (hC : ∀ r ∈ C, r ∈ control) (v : ℕ) (err : Word) (s s' : Cpu) (hs : s.sp.toNat ≤ L.base)
    (h : Serves (kernel L E) v err s s') :
    Kept C L.base s s' ∧ Called (kernel L E) C v err s :=
  serves_returns (kernel_sound hE hC) hs h

/-- A handler changes a scratch register, the interrupted code does not see it. -/
theorem interrupts_leave_no_trace_plain :
    ∃ s', Serves (kernel plainLink plainServices) 32 0 busyCpu s' ∧
      Kept ∅ 0x10000 busyCpu s' ∧ Called (kernel plainLink plainServices) ∅ 32 0 busyCpu := by
  obtain ⟨s', h⟩ := serves_of_returns (v := 32) (s := busyCpu) (L := plainLink)
    plainServices_abi (by simp) (mem_vectors.mpr (by decide)) (by decide) (fun _ c => ⟨_, rfl⟩)
    (fun _ _ c => ⟨c, rfl⟩) (fun _ c => ⟨c, rfl⟩) (by decide) (by decide)
  exact ⟨s', h, interrupts_leave_no_trace plainLink plainServices ∅ plainServices_abi (by simp) 32 0
    busyCpu s' (by decide) h⟩

/-- The interrupts that return are those with a gate from vector 16 on: on the lower ones the
processor stops, and those without a gate are not served. Exceptions are reported, all others run
the function of their slot and are acknowledged. -/
theorem interrupts_return_iff (L : Link) (E : Services) (C : Set Reg) (hE : Abi E C L.base)
    (hC : ∀ r ∈ C, r ∈ control) (hrun : ∀ h c, ∃ d, E.run h c d)
    (hreport : ∀ sst c, ∃ d, E.report sst c d) (heoi : ∀ c, ∃ d, E.lapicSendEoi c d) (v : ℕ)
    (err : Word) (s : Cpu) (hlow : 256 ≤ s.sp.toNat) (hs : s.sp.toNat ≤ L.base) :
    ((∃ s', Serves (kernel L E) v err s s') ↔ v ∈ vectors ∧ 16 ≤ v) ∧
      ∀ s', Serves (kernel L E) v err s s' →
        (v < 32 → Reported E v err s) ∧ (32 ≤ v → Handled E v err s) := by
  constructor
  · constructor
    · rintro ⟨s', h⟩
      exact ⟨serves_vector h, (serves_calls hE hC hs h).1⟩
    · rintro ⟨hv, hhigh⟩
      exact serves_of_returns hE hC hv hhigh (fun _ => hrun _) (fun _ => hreport) (fun _ => heoi)
        hlow hs
  · intro s' h
    exact (serves_calls hE hC hs h).2

/-- A page fault stops the processor. -/
theorem interrupts_return_iff_fault :
    ((∃ s', Serves (kernel plainLink plainServices) 14 0 busyCpu s') ↔ 14 ∈ vectors ∧ 16 ≤ 14) ∧
      ∀ s', Serves (kernel plainLink plainServices) 14 0 busyCpu s' →
        (14 < 32 → Reported plainServices 14 0 busyCpu) ∧
        (32 ≤ 14 → Handled plainServices 14 0 busyCpu) :=
  interrupts_return_iff plainLink plainServices ∅ plainServices_abi (by simp)
    (fun _ _ => ⟨_, rfl⟩) (fun _ c => ⟨c, rfl⟩) (fun c => ⟨c, rfl⟩) 14 0 busyCpu (by decide)
    (by decide)

section Installed

open BruhOS.IrqInstall (Session Tables Fresh Reachable Unshared)

/-- The services with the table that a session has filled. -/
def Services.withTable (E : Services) (table : ℕ → ℕ) : Services := { E with handleTable := table }

theorem Abi.withTable {E : Services} {C : Set Reg} {base : ℕ} (h : Abi E C base)
    (table : ℕ → ℕ) : Abi (E.withTable table) C base := ⟨h.run, h.report, h.eoi⟩

end Installed

/-- In every state that the installers reach, the vector of an input leads to the function that was
last installed for it: where that function returns, the interrupt is served, and whenever it has
been served, the function has run on the interrupted state and the interrupted code goes on as if
nothing had happened. -/
theorem installed_interrupts_served (L : Link) (E : Services) (C : Set Reg) (hE : Abi E C L.base)
    (hC : ∀ r ∈ C, r ∈ control) (heoi : ∀ c, ∃ d, E.lapicSendEoi c d)
    (t : IrqInstall.Tables) (ht : IrqInstall.Fresh t) (w : IrqInstall.Session)
    (hw : IrqInstall.Reachable ⟨t, fun _ => none⟩ w) (g : BitVec 8)
    (hg : (w.tables.re g).intVec ≠ 0) (err : Word) (s : Cpu) (hlow : 256 ≤ s.sp.toNat)
    (hs : s.sp.toNat ≤ L.base) :
    ∃ handler, w.installed g = some handler ∧
      ((∀ c, ∃ d, E.run handler c d) → ∃ s',
        Serves (kernel L (E.withTable w.tables.handleTable)) (w.tables.re g).intVec.toNat err s s') ∧
      ∀ s', Serves (kernel L (E.withTable w.tables.handleTable)) (w.tables.re g).intVec.toNat err
          s s' →
        Kept C L.base s s' ∧ ∃ (c m d : Cpu) (f : Reg → Word), E.run handler c m ∧
          E.lapicSendEoi m d ∧ StackState.read c.mem (c.regs .rdi).toNat =
            stateOf s ((w.tables.re g).intVec.setWidth 64) 0xffff f := by
  have hun := IrqInstall.vectors_unshared t ht w hw
  have hleast := hun.least g hg
  have hlt := (w.tables.re g).intVec.isLt
  have hword : BitVec.ofNat 64 (w.tables.re g).intVec.toNat =
      (w.tables.re g).intVec.setWidth 64 := by
    apply BitVec.eq_of_toNat_eq
    rw [BitVec.toNat_ofNat, BitVec.toNat_setWidth]
  generalize hvec : (w.tables.re g).intVec.toNat = v at hleast hlt hword ⊢
  have hE' := hE.withTable w.tables.handleTable
  have hhandler := hun.handler g hg
  rw [hvec] at hhandler
  have hv : v ∈ vectors := mem_vectors.mpr (by omega)
  have herr : errorCode v err = 0xffff := by
    have hp : pushesError v = false := by
      simp [pushesError]
      omega
    rw [errorCode, hp]
    rfl
  refine ⟨_, hhandler, fun hrun => ?_, fun s' h => ?_⟩
  · exact serves_of_returns hE' hC hv (by omega) (fun _ => hrun) (fun h32 => by omega)
      (fun _ => heoi) hlow hs
  · obtain ⟨c, m, d, f, hrun, hd, hread⟩ := (serves_calls hE' hC hs h).2.2 hleast
    rw [hword, herr] at hread
    exact ⟨(serves_returns (kernel_sound hE' hC) hs h).1, c, m, d, f, hrun, hd, hread⟩

/-- Input 2 is installed twice. -/
def twice : IrqInstall.Session :=
  IrqInstall.step (IrqInstall.step ⟨IrqInstall.oneApic IrqInstall.clearEntry, fun _ => none⟩
    (.installISA 2 0 0 0x1000)) (.installISA 2 1 0 0x2000)

/-- The second function is the one that runs. -/
theorem installed_interrupts_served_twice :
    ∃ handler, twice.installed 2 = some handler ∧
      ((∀ c, ∃ d, plainServices.run handler c d) → ∃ s',
        Serves (kernel plainLink (plainServices.withTable twice.tables.handleTable))
          (twice.tables.re 2).intVec.toNat 0 busyCpu s') ∧
      ∀ s', Serves (kernel plainLink (plainServices.withTable twice.tables.handleTable))
          (twice.tables.re 2).intVec.toNat 0 busyCpu s' →
        Kept ∅ 0x10000 busyCpu s' ∧ ∃ (c m d : Cpu) (f : Reg → Word),
          plainServices.run handler c m ∧ plainServices.lapicSendEoi m d ∧
          StackState.read c.mem (c.regs .rdi).toNat =
            stateOf busyCpu ((twice.tables.re 2).intVec.setWidth 64) 0xffff f := by
  refine installed_interrupts_served plainLink plainServices ∅ plainServices_abi (by simp)
    (fun c => ⟨c, rfl⟩) (IrqInstall.oneApic IrqInstall.clearEntry) ⟨fun _ _ => rfl, fun _ => rfl, rfl⟩
    twice (.step (.step .start ?_) ?_) 2 (by decide) 0 busyCpu (by decide) (by decide)
  · exact ⟨by decide, by decide⟩
  · exact ⟨by decide, by decide⟩

end BruhOS.Interrupt
