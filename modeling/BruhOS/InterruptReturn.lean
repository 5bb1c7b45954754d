import BruhOS.InterruptStub

/-!
# Interrupts leave no trace

A stub that is left by its return gives the interrupted code every register
back, and the stack from its stack pointer on, whatever the handler does with
the registers a C function may change and however many interrupts are served
inside the stub. What the handler reads is the state of the interrupted code.
-/

set_option autoImplicit false

namespace BruhOS.Interrupt

open StackMachine

/-- What may change between two instructions of a stub. -/
def noise (C : Set Reg) : Set Reg := {r | r ∈ C ∨ r = .rip ∨ r = .rflags}

/-- What a C function may change, when the handlers may change the control registers of a set. -/
def clobbered (C : Set Reg) : Set Reg := {r | r ∉ calleeSaved ∧ (r ∈ control → r ∈ C)}

/-- The structure that a handler is given. -/
def stateOf (s : Cpu) (n err : Word) (f : Reg → Word) : StackState where
  cr8 := f .cr8
  cr4 := f .cr4
  cr3 := f .cr3
  cr2 := f .cr2
  cr0 := f .cr0
  r11 := s.regs .r11
  r10 := s.regs .r10
  r9 := s.regs .r9
  r8 := s.regs .r8
  rdi := s.regs .rdi
  rsi := s.regs .rsi
  rdx := s.regs .rdx
  rcx := s.regs .rcx
  rax := s.regs .rax
  irqn := n
  ecode := err
  rip := s.regs .rip
  cs := s.regs .cs
  rflags := s.regs .rflags
  rsp := s.sp
  ss := s.regs .ss

/-- The words of a frame, from the stack pointer on. -/
def frame (s : Cpu) : List Word := [s.regs .rip, s.regs .cs, s.regs .rflags, s.sp, s.regs .ss]

section Delivery

variable {base : ℕ} {s₀ s s' t : Cpu} {ws : List Word}

theorem aligned_sp (s : Cpu) : (aligned s).sp.toNat = s.sp.toNat/16*16 := by
  have := s.sp.isLt
  change (BitVec.ofNat 64 (s.sp.toNat/16*16)).toNat = _
  rw [BitVec.toNat_ofNat]
  omega

theorem pushList_spec (vs : List Word) (h : Pushed base s₀ s ws) (hp : pushList vs s = some s') :
    Pushed base s₀ s' (vs.reverse++ws) ∧ s'.regs = s.regs := by
  induction vs generalizing s ws with
  | nil =>
    obtain rfl := Option.some.inj hp
    exact ⟨h, rfl⟩
  | cons v vs ih =>
    obtain ⟨t, ht, hrest⟩ := Option.bind_eq_some_iff.mp hp
    obtain ⟨h₁, hregs⟩ := h.push ht
    obtain ⟨h', hregs'⟩ := ih h₁ hrest
    exact ⟨by simpa using h', hregs'.trans hregs⟩

/-- The frame is below the interrupted code's stack. -/
theorem deliver_spec {g : Gate} {err : Option Word} {flags : Word} (hs : s.sp.toNat ≤ base)
    (hd : deliver g err flags s = some t) :
    Pushed base (aligned s) t (err.toList++frame s) ∧
      ∀ r, r ≠ .rip → r ≠ .cs → r ≠ .rflags → t.regs r = s.regs r := by
  obtain ⟨u, hu, rfl⟩ := Option.map_eq_some_iff.mp hd
  have hstart : Pushed base (aligned s) (aligned s) [] := by
    apply Pushed.start
    rw [aligned_sp]
    omega
  obtain ⟨h, hregs⟩ := pushList_spec _ hstart hu
  constructor
  · have hwords : ([s.regs .ss, s.sp, s.regs .rflags, s.regs .cs, s.regs .rip]++
        err.toList).reverse++[] = err.toList++frame s := by
      cases err <;> simp [frame]
    rw [hwords] at h
    exact h.set.set.set
  · intro r hrip hcs hflags
    rw [Machine.set_of_ne _ hflags, Machine.set_of_ne _ hcs, Machine.set_of_ne _ hrip, hregs]
    rfl

/-- The return takes the frame off the stack. -/
theorem iretq_spec {u : Cpu} (h : Pushed base (aligned s) u (frame s)) :
    (iretq u).sp = s.sp ∧ (∀ r ∈ [Reg.rip, .cs, .rflags, .ss], (iretq u).regs r = s.regs r) ∧
      (∀ r, r ∉ [Reg.rip, .cs, .rflags, .ss] → (iretq u).regs r = u.regs r) ∧
      ∀ a, s.sp.toNat ≤ a → a < base → (iretq u).mem a = s.mem a := by
  obtain ⟨hrip, hcs, hflags, hsp, hss, -⟩ := h.words
  refine ⟨hsp, ?_, ?_, ?_⟩
  · intro r hr
    simp only [List.mem_cons, List.not_mem_nil, or_false] at hr
    rcases hr with rfl | rfl | rfl | rfl
    · simpa [iretq, Machine.set] using hrip
    · simpa [iretq, Machine.set] using hcs
    · simpa [iretq, Machine.set] using hflags
    · simpa [iretq, Machine.set] using hss
  · intro r hr
    simp only [List.mem_cons, List.not_mem_nil, or_false, not_or] at hr
    simp [iretq, Machine.set, hr]
  · intro a ha hlt
    have hle := aligned_sp s
    exact h.kept a (by omega) hlt

end Delivery

section Stub

variable {C : Set Reg} {base : ℕ} {callee : Cpu → Cpu → Prop} {s₀ t u : Cpu} {fr : List Word}
  {err : Word} {n : ℕ}

/-- The pops of a stub: five words that are lost, and the scratch registers. -/
def popped (f g : Reg → Word) : List (Reg × Word) :=
  control.reverse.map (fun r => (.rax, f r))++scratch.reverse.map (fun r => (r, g r))

theorem popGpregs_eq (f g : Reg → Word) :
    popGpregs = (popped f g).map fun p => .pop p.1 := rfl

/-- The words that a stub has pushed when it calls the handler. -/
def saved (f g : Reg → Word) : List Word :=
  control.reverse.map f++scratch.reverse.map g

theorem popped_snd (f g : Reg → Word) : (popped f g).map Prod.snd = saved f g := rfl

theorem popped_fst (f g : Reg → Word) {r : Reg} (hr : r ∉ scratch) :
    r ∉ (popped f g).map Prod.fst := by
  simp only [scratch, List.mem_cons, List.not_mem_nil, or_false, not_or] at hr
  simp [popped, control, scratch, hr]

theorem loaded_popped (f g g' : Reg → Word) {r : Reg} (hr : r ∈ scratch) :
    loaded (popped f g) g' r = g r := by
  rw [popped, loaded_append, loaded_restores _ _ _ (List.mem_reverse.mpr hr)]

theorem not_noise (hC : ∀ r ∈ C, r ∈ control) {r : Reg} (hr : r ∈ scratch++calleeSaved) :
    r ∉ noise C := by
  rintro (hmem | rfl | rfl)
  · have hcontrol := hC r hmem
    simp only [scratch, calleeSaved, control, List.mem_append, List.mem_cons, List.not_mem_nil,
      or_false] at hr hcontrol
    rcases hcontrol with rfl | rfl | rfl | rfl | rfl <;> simp at hr
  · simp [scratch, calleeSaved] at hr
  · simp [scratch, calleeSaved] at hr

theorem control_noise {r : Reg} (hr : r ∈ control) (hrC : r ∉ C) : r ∉ noise C := by
  rintro (hmem | rfl | rfl)
  · exact hrC hmem
  · simp [control] at hr
  · simp [control] at hr

/-- A stub from the push of its vector to the call. -/
theorem entry_runs (hC : ∀ r ∈ C, r ∈ control) (h : Pushed base s₀ t (err::fr))
    (hr : Runs (noise C) base callee (entry n) t u) :
    ∃ f : Reg → Word, Pushed base s₀ u (saved f t.regs++BitVec.ofNat 64 n::err::fr) ∧
      u.regs .rdi = u.sp ∧ (∀ r ∈ control, r ∉ C → f r = t.regs r) ∧
      ∀ r, r ∉ noise C → r ≠ .rdi → u.regs r = t.regs r := by
  have hscratch : ∀ r ∈ scratch, r ∉ noise C := fun r hr => not_noise hC (by simp [hr])
  have hrdi : Reg.rdi ∉ noise C := hscratch _ (by simp [scratch])
  obtain ⟨t₁, t₂, hq₁, he₁, hr₂⟩ := runs_one (by simp) hr
  obtain ⟨h₂, hregs₂⟩ := (h.quiet hq₁).push he₁
  have hsame₂ : ∀ r, r ∉ noise C → t₂.regs r = t.regs r := fun r hr => by
    rw [hregs₂, (hq₁ h.below).regs r hr]
  obtain ⟨t₃, hr₃, hr₅⟩ := runs_append pushGpregs hr₂
  obtain ⟨t₄, hr₃, hr₄⟩ := runs_append (scratch.map .push) hr₃
  obtain ⟨h₄, hsame₄⟩ := runs_pushes scratch hscratch h₂ hr₃
  obtain ⟨f, h₅, hf, hsame₅⟩ := runs_moves hrdi control (by simp [control])
    (by simp [control]) h₄ hr₄
  obtain ⟨t₆, t₇, hq₆, he₆, hr₇⟩ := runs_one (by simp) hr₅
  obtain rfl := Option.some.inj he₆
  have h₇ : Pushed base s₀ (t₆.set .rdi t₆.sp) _ := (h₅.quiet hq₆).set
  have hq := runs_nil hr₇
  have hu := h₇.quiet hq
  refine ⟨f, ?_, ?_, fun r hr hrC => ?_, fun r hr hne => ?_⟩
  · have hmap : scratch.map t₂.regs = scratch.map t.regs := by
      apply List.map_congr_left
      intro r hr
      exact hsame₂ r (hscratch r hr)
    rw [hmap] at hu
    have hwords : (control.map f).reverse++((scratch.map t.regs).reverse++
        (BitVec.ofNat 64 n::err::fr)) = saved f t.regs++BitVec.ofNat 64 n::err::fr := by
      simp [saved, List.map_reverse]
    rwa [hwords] at hu
  · rw [(hq h₇.below).regs _ hrdi, (hq h₇.below).sp, Machine.set_self, Machine.set_sp]
  · have hne : r ≠ .rdi := by
      rintro rfl
      simp [control] at hr
    have hrn := control_noise hr hrC
    rw [hf r hrn hne, hsame₄ r hrn, hsame₂ r hrn]
  · rw [(hq h₇.below).regs r hr, Machine.set_of_ne _ hne, (hq₆ h₅.below).regs r hr,
      hsame₅ r hr hne, hsame₄ r hr, hsame₂ r hr]

/-- A stub after the call. -/
theorem leave_runs {f g : Reg → Word} {w : Word} (hC : ∀ r ∈ C, r ∈ control)
    (h : Pushed base s₀ t (saved f g++w::err::fr))
    (hr : Runs (noise C) base callee leave t u) :
    Pushed base s₀ u fr ∧ (∀ r ∈ scratch, u.regs r = g r) ∧
      ∀ r, r ∉ noise C → r ∉ scratch → u.regs r = t.regs r := by
  obtain ⟨t₁, hr₁, hr₂⟩ := runs_append popGpregs hr
  rw [popGpregs_eq f g] at hr₁
  obtain ⟨h₁, hsame₁⟩ := runs_pops (popped f g) (by rwa [popped_snd]) hr₁
  obtain ⟨t₂, t₃, hq₂, he₂, hr₃⟩ := runs_one (by simp) hr₂
  obtain rfl := Option.some.inj he₂
  have h₃ := (h₁.quiet hq₂).drop [w, err]
  have hback : ∀ r, r ∉ noise C → u.regs r = loaded (popped f g) t.regs r := by
    intro r hr
    rw [(runs_nil hr₃ h₃.below).regs r hr]
    exact ((hq₂ h₁.below).regs r hr).trans (hsame₁ r hr)
  refine ⟨h₃.quiet (runs_nil hr₃), fun r hr => ?_, fun r hr hs => ?_⟩
  · rw [hback r (not_noise hC (by simp [hr])), loaded_popped _ _ _ hr]
  · rw [hback r hr, loaded_of_notMem _ _ (popped_fst _ _ hs)]

/-- A stub from the push of its vector to the return. -/
theorem gate_runs (hC : ∀ r ∈ C, r ∈ control)
    (hcallee : ∀ c d, callee c d → Quiet (clobbered C) base c d)
    (h : Pushed base s₀ t (err::fr)) (hr : Runs (noise C) base callee (gate n) t u) :
    ∃ (c d : Cpu) (f : Reg → Word), callee c d ∧
      Pushed base s₀ c (saved f t.regs++BitVec.ofNat 64 n::err::fr) ∧ c.regs .rdi = c.sp ∧
      (∀ r ∈ control, r ∉ C → f r = t.regs r) ∧ Pushed base s₀ u fr ∧
      ∀ r ∈ scratch++calleeSaved++control, r ∉ C → u.regs r = t.regs r := by
  obtain ⟨t₁, hr₁, hr₂⟩ := runs_append _ hr
  obtain ⟨c, d, hq, hcd, hr₃⟩ := runs_call hr₂
  obtain ⟨f, hc, hrdi, hf, hsame⟩ := entry_runs hC h (hr₁.before hq)
  have hquiet := hcallee c d hcd
  obtain ⟨hu, hscratch, hother⟩ := leave_runs hC (hc.quiet hquiet) hr₃
  refine ⟨c, d, f, hcd, hc, hrdi, hf, hu, fun r hr hrC => ?_⟩
  by_cases hs : r ∈ scratch
  · exact hscratch r hs
  · simp only [List.mem_append, hs, false_or] at hr
    have hrn : r ∉ noise C := by
      rcases hr with hr | hr
      · exact not_noise hC (by simp [hr])
      · exact control_noise hr hrC
    have hclob : r ∉ clobbered C := by
      rintro ⟨hsaved, hctl⟩
      rcases hr with hr | hr
      · exact hsaved hr
      · exact hrC (hctl hr)
    have hne : r ≠ .rdi := fun he => hs (he ▸ by simp [scratch])
    rw [hother r hrn hs, (hquiet hc.below).regs r hclob, hsame r hrn hne]

end Stub

/-- The stub of a vector has the dummy exactly when the processor pushes no error code. -/
def stubOf (v : ℕ) : Stub := if pushesError v then .ie v else .inoe v

/-- What is assumed of the code around the stubs: gates lead to the stubs of their vectors, and the
handler is a C function that leaves the stack above it alone. -/
structure Sound (K : Kernel) (C : Set Reg) : Prop where
  control : ∀ r ∈ C, r ∈ control
  wired : ∀ v g st, K.gate v = some g → K.code g.offset = some st → st = stubOf v
  handler : ∀ c d, K.interruptHandler c d → Quiet (clobbered C) K.base c d

/-- The error code that a handler reads. -/
def errorCode (v : ℕ) (err : Word) : Word := if pushesError v then err else 0xffff

/-- The handler was called on the state of the interrupted code. -/
def Called (K : Kernel) (C : Set Reg) (v : ℕ) (err : Word) (s : Cpu) : Prop :=
  ∃ (c d : Cpu) (f : Reg → Word), K.interruptHandler c d ∧
    StackState.read c.mem (c.regs .rdi).toNat = stateOf s (BitVec.ofNat 64 v) (errorCode v err) f ∧
    ∀ r ∈ control, r ∉ C → f r = s.regs r

section Service

variable {K : Kernel} {C : Set Reg} {v : ℕ} {err flags : Word} {st : Stub} {s s' t u : Cpu}
  {is : List (Instr Reg)}

theorem reg_cases (r : Reg) :
    r ∈ [Reg.rip, .cs, .rflags, .ss] ∨ r ∈ scratch++calleeSaved++control := by
  cases r <;> simp [scratch, calleeSaved, control]

theorem read_saved {m : Bytes} {a : ℕ} {f g : Reg → Word} {n e : Word}
    (h : Stacked m a (saved f g++n::e::frame s)) (hg : ∀ r ∈ scratch, g r = s.regs r) :
    StackState.read m a = stateOf s n e f := by
  have hmap : scratch.reverse.map g = scratch.reverse.map s.regs := by
    apply List.map_congr_left
    intro r hr
    exact hg r (List.mem_reverse.mp hr)
  rw [saved, hmap] at h
  simp only [control, scratch, frame, List.reverse_cons, List.reverse_nil, List.nil_append,
    List.cons_append, List.map_cons, List.map_nil, Stacked, Nat.add_assoc, Nat.reduceAdd,
    and_true] at h
  simp only [StackState.read, stateOf, h]

/-- The push of a stub for a vector without an error code. -/
def dummy (v : ℕ) : List (Instr Reg) := if pushesError v then [] else [.pushImm 0xffff]

theorem stub_code (v : ℕ) : (stubOf v).code = dummy v++gate v := by
  unfold stubOf dummy
  split_ifs <;> rfl

/-- After it the stack is the same for all vectors. -/
theorem dummy_runs {C : Set Reg} {base : ℕ} {callee : Cpu → Cpu → Prop} {g : Gate}
    (hs : s.sp.toNat ≤ base)
    (hd : deliver g (if pushesError v then some err else none) flags s = some t)
    (hr : Runs (noise C) base callee (dummy v++is) t u) :
    ∃ t₁, Pushed base (aligned s) t₁ (errorCode v err::frame s) ∧
      (∀ r ∈ scratch++calleeSaved++control, r ∉ C → t₁.regs r = s.regs r) ∧
      Runs (noise C) base callee is t₁ u := by
  obtain ⟨hd, hregs⟩ := deliver_spec hs hd
  have hsame : ∀ r ∈ scratch++calleeSaved++control, t.regs r = s.regs r := by
    intro r hr
    apply hregs <;> rintro rfl <;> simp [scratch, calleeSaved, control] at hr
  cases hp : pushesError v with
  | true =>
    simp only [hp, if_true, dummy, List.nil_append] at hd hr
    refine ⟨t, ?_, fun r hr _ => hsame r hr, hr⟩
    simpa [errorCode, hp] using hd
  | false =>
    simp only [hp, Bool.false_eq_true, if_false, dummy] at hd hr
    obtain ⟨t₁, t₂, hq, he, hr⟩ := runs_one (by simp) hr
    obtain ⟨h₂, hregs₂⟩ := (hd.quiet hq).push he
    refine ⟨t₂, ?_, fun r hmem hrC => ?_, hr⟩
    · simpa [errorCode, hp] using h₂
    · have hrn : r ∉ noise C := by
        rintro (hC | rfl | rfl)
        · exact hrC hC
        · simp [scratch, calleeSaved, control] at hmem
        · simp [scratch, calleeSaved, control] at hmem
      rw [hregs₂, (hq hd.below).regs r hrn, hsame r hmem]

theorem enter_some {K : Kernel} {C : Set Reg} (hK : Sound K C)
    (hv : K.enter v err flags s = some (st, t)) :
    st = stubOf v ∧ ∃ g, deliver g (if pushesError v then some err else none) flags s = some t := by
  obtain ⟨g, hg, hv⟩ := Option.bind_eq_some_iff.mp hv
  obtain ⟨st', hst, hv⟩ := Option.bind_eq_some_iff.mp hv
  obtain ⟨t', ht, hv⟩ := Option.bind_eq_some_iff.mp hv
  obtain ⟨rfl, rfl⟩ : st' = st ∧ t' = t := by simpa using hv
  exact ⟨hK.wired v g st' hg hst, g, ht⟩

theorem not_mem_of_scratch {C : Set Reg} (hC : ∀ r ∈ C, r ∈ control) {r : Reg} (hr : r ∈ scratch) :
    r ∉ C := by
  intro hrC
  have hcontrol := hC r hrC
  simp only [control, List.mem_cons, List.not_mem_nil, or_false] at hcontrol
  rcases hcontrol with rfl | rfl | rfl | rfl | rfl <;> simp [scratch] at hr

/-- A stub gives the interrupted code back what it had. -/
theorem stub_returns (hK : Sound K C) (hs : s.sp.toNat ≤ K.base)
    (hv : K.enter v err flags s = some (st, t))
    (hr : Runs (noise C) K.base K.interruptHandler st.code t u) :
    Kept C K.base s (iretq u) ∧ Called K C v err s := by
  obtain ⟨rfl, g, hd⟩ := enter_some hK hv
  rw [stub_code] at hr
  obtain ⟨t₁, h₁, hregs₁, hr₁⟩ := dummy_runs hs hd hr
  obtain ⟨c, d, f, hcd, hc, hrdi, hf, hu, hback⟩ := gate_runs hK.control hK.handler h₁ hr₁
  obtain ⟨hsp, hframe, hother, hmem⟩ := iretq_spec hu
  constructor
  · refine ⟨hsp, fun r hrC => ?_, hmem⟩
    by_cases hr : r ∈ [Reg.rip, .cs, .rflags, .ss]
    · exact hframe r hr
    · have hr' := (reg_cases r).resolve_left hr
      rw [hother r hr, hback r hr' hrC, hregs₁ r hr' hrC]
  · refine ⟨c, d, f, hcd, ?_, fun r hr hrC => ?_⟩
    · rw [hrdi]
      apply read_saved hc.words
      exact fun r hr => hregs₁ r (by simp [hr]) (not_mem_of_scratch hK.control hr)
    · rw [hf r hr hrC, hregs₁ r (by simp [hr]) hrC]

theorem advance_quiet (s : Cpu) (flags : Word) : Quiet (noise C) K.base s (K.advance s flags) := by
  intro _
  refine ⟨rfl, fun r hr => ?_, fun _ _ _ => rfl⟩
  have hrip : r ≠ .rip := fun he => hr (Or.inr (Or.inl he))
  have hflags : r ≠ .rflags := fun he => hr (Or.inr (Or.inr he))
  rw [Kernel.advance, Machine.set_of_ne _ hflags, Machine.set_of_ne _ hrip]

/-- Interrupts that are served inside a stub are quiet, so a stub runs as if there were none. -/
theorem steps_run (hK : Sound K C) (h : Steps K is s s') :
    Runs (noise C) K.base K.interruptHandler is s s' := by
  induction h with
  | nil s => exact .nil (Quiet.refl s)
  | exec he _ ih => exact .exec (Quiet.refl _) he (ih.after (advance_quiet _ _))
  | call hc _ ih => exact .call (Quiet.refl _) hc ih
  | interrupt hv _ _ ihin ihrest =>
    refine ihrest.after (fun hs => ?_)
    obtain ⟨hsp, hregs, hmem⟩ := (stub_returns hK hs hv ihin).1
    exact ⟨hsp, fun r hr => hregs r (fun hC => hr (Or.inl hC)), hmem⟩

/-- Registers and stack are given back whatever else is served meanwhile. -/
theorem serves_returns (hK : Sound K C) (hs : s.sp.toNat ≤ K.base) (h : Serves K v err s s') :
    Kept C K.base s s' ∧ Called K C v err s := by
  obtain ⟨flags, st, t, u, hv, hsteps, rfl⟩ := h
  exact stub_returns hK hs hv (steps_run hK hsteps)

end Service

/-- The stack pointer stays in range along a program without calls, and where it ends. -/
def Roomy : List (Instr Reg) → ℕ → ℕ → Prop
  | [], n, k => n = k
  | .push _::is, n, k => 8 ≤ n ∧ Roomy is (n-8) k
  | .pushImm _::is, n, k => 8 ≤ n ∧ Roomy is (n-8) k
  | .pop _::is, n, k => n+8 < 2^64 ∧ Roomy is (n+8) k
  | .addSp w::is, n, k => n+w.toNat < 2^64 ∧ Roomy is (n+w.toNat) k
  | .mov _ _::is, n, k => Roomy is n k
  | .movSp _::is, n, k => Roomy is n k
  | .call::_, _, _ => False

section Progress

variable {K : Kernel} {C : Set Reg} {v : ℕ} {err flags : Word} {s : Cpu}

theorem push_exists (w : Word) (h : 8 ≤ s.sp.toNat) :
    ∃ t, s.push w = some t ∧ t.sp.toNat = s.sp.toNat-8 :=
  ⟨_, if_neg (by omega), toNat_sub_eight (by omega)⟩

theorem pushList_exists (ws : List Word) (h : 8*ws.length ≤ s.sp.toNat) :
    ∃ t, pushList ws s = some t ∧ t.sp.toNat = s.sp.toNat-8*ws.length := by
  induction ws generalizing s with
  | nil => exact ⟨s, rfl, rfl⟩
  | cons w ws ih =>
    rw [List.length_cons] at h
    obtain ⟨t, ht, hsp⟩ := push_exists w (show 8 ≤ s.sp.toNat by omega)
    obtain ⟨t', ht', hsp'⟩ := ih (show 8*ws.length ≤ t.sp.toNat by omega)
    refine ⟨t', ?_, ?_⟩
    · rw [pushList, ht, Option.bind_some, ht']
    · rw [hsp', hsp, List.length_cons]
      omega

theorem steps_append {is js : List (Instr Reg)} {s t s' : Cpu} (h : Steps K is s t)
    (h' : Steps K js t s') : Steps K (is++js) s s' := by
  induction h with
  | nil s => exact h'
  | exec he _ ih => exact .exec he (ih h')
  | call hc _ ih => exact .call hc (ih h')
  | interrupt hv hi _ _ ih => exact .interrupt hv hi (ih h')

theorem steps_exist (K : Kernel) (is : List (Instr Reg)) (s : Cpu) {k : ℕ}
    (hr : Roomy is s.sp.toNat k) : ∃ s', Steps K is s s' ∧ s'.sp.toNat = k := by
  induction is generalizing s with
  | nil => exact ⟨s, .nil s, hr⟩
  | cons i is ih =>
    have hstep : ∀ t, exec i s = some t → Roomy is t.sp.toNat k →
        ∃ s', Steps K (i::is) s s' ∧ s'.sp.toNat = k := by
      intro t he hroom
      obtain ⟨s', hs', hsp⟩ := ih (K.advance t 0) hroom
      exact ⟨s', .exec he hs', hsp⟩
    cases i with
    | push r =>
      obtain ⟨t, ht, hsp⟩ := push_exists (s.regs r) hr.1
      exact hstep t ht (by rw [hsp]; exact hr.2)
    | pushImm w =>
      obtain ⟨t, ht, hsp⟩ := push_exists w hr.1
      exact hstep t ht (by rw [hsp]; exact hr.2)
    | pop r =>
      refine hstep (s.pop r) rfl ?_
      have hsp : (s.pop r).sp.toNat = s.sp.toNat+8 := toNat_add_words hr.1
      rw [hsp]
      exact hr.2
    | mov d r => exact hstep _ rfl hr
    | movSp d => exact hstep _ rfl hr
    | addSp w =>
      refine hstep _ rfl ?_
      have hsp : (s.sp+w).toNat = s.sp.toNat+w.toNat := by
        rw [BitVec.toNat_add, Nat.mod_eq_of_lt hr.1]
      change Roomy is (s.sp+w).toNat k
      rw [hsp]
      exact hr.2
    | call => exact hr.elim

theorem entry_roomy {n : ℕ} (h : 120 ≤ n) (v : ℕ) : Roomy (entry v) n (n-120) := by
  simp [entry, pushGpregs, Roomy]
  omega

theorem leave_roomy {n : ℕ} (h : n+128 < 2^64) : Roomy leave n (n+128) := by
  simp [leave, popGpregs, Roomy]
  omega

theorem dummy_roomy {n : ℕ} (h : 8 ≤ n) (v : ℕ) :
    Roomy (dummy v) n (n-if pushesError v then 0 else 8) := by
  unfold dummy
  split_ifs
  · rfl
  · exact ⟨h, rfl⟩

/-- A handler that returns lets its interrupt return. -/
theorem serves_exist (hK : Sound K C) {g : Gate} (hg : K.gate v = some g)
    (hcode : K.code g.offset = some (stubOf v)) (hlow : 256 ≤ s.sp.toNat)
    (hs : s.sp.toNat ≤ K.base)
    (hcall : ∀ c f, StackState.read c.mem (c.regs .rdi).toNat =
      stateOf s (BitVec.ofNat 64 v) (errorCode v err) f → ∃ d, K.interruptHandler c d) :
    ∃ s', Serves K v err s s' := by
  have hlt := s.sp.isLt
  have halign := aligned_sp s
  have hpushed : ∃ ws : List Word, ws = [s.regs .ss, s.sp, s.regs .rflags, s.regs .cs,
      s.regs .rip]++(if pushesError v then some err else none : Option Word).toList ∧
      ws.length = if pushesError v then 6 else 5 := by
    refine ⟨_, rfl, ?_⟩
    split_ifs <;> rfl
  obtain ⟨ws, hws, hlen⟩ := hpushed
  have hle : ws.length ≤ 6 := by
    rw [hlen]
    split_ifs <;> decide
  obtain ⟨t, ht, hsp⟩ := pushList_exists ws (show 8*ws.length ≤ (aligned s).sp.toNat by omega)
  have hd : ∃ t', deliver g (if pushesError v then some err else none) 0 s = some t' ∧
      t'.sp = t.sp := by
    refine ⟨((t.set .rip g.offset).set .cs g.selector).set .rflags 0, ?_, rfl⟩
    rw [deliver, ← hws, ht, Option.map_some]
  obtain ⟨t', hd, hsp'⟩ := hd
  have henter : K.enter v err 0 s = some (stubOf v, t') := by
    simp only [Kernel.enter, hg, hcode, hd, Option.bind_eq_bind, Option.bind_some]
  have hspt : t'.sp.toNat = s.sp.toNat/16*16-8*ws.length := by rw [hsp', hsp, halign]
  obtain ⟨t₁, hs₁, hsp₁⟩ := steps_exist K _ t' (dummy_roomy (by omega) v)
  obtain ⟨c, hs₂, hspc⟩ := steps_exist K _ t₁ (entry_roomy (by split_ifs at hsp₁ <;> omega) v)
  obtain ⟨t₂, h₂, hregs₂, hr₂⟩ := dummy_runs hs hd (steps_run hK (steps_append hs₁ hs₂))
  obtain ⟨f, hc, hrdi, -, -⟩ := entry_runs hK.control h₂ hr₂
  obtain ⟨d, hcd⟩ := hcall c f (by
    rw [hrdi]
    apply read_saved hc.words
    exact fun r hr => hregs₂ r (by simp [hr]) (not_mem_of_scratch hK.control hr))
  have hspd := (hK.handler c d hcd hc.below).sp
  obtain ⟨u, hs₃, -⟩ := steps_exist K leave d (leave_roomy (by
    rw [hspd, hspc, hsp₁]
    split_ifs at hlen ⊢ <;> omega))
  refine ⟨iretq u, 0, stubOf v, t', u, henter, ?_, rfl⟩
  rw [stub_code, gate]
  exact steps_append hs₁ (steps_append hs₂ (.call hcd hs₃))

end Progress

end BruhOS.Interrupt
