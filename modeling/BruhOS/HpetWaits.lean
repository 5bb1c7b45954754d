import BruhOS.HpetDriver
import Mathlib.Tactic

/-!
# A wait is never too short

In every interleaving a waiting call goes through the same stages: the counter
counts, it raises the interrupt, the handler is entered, stops the counter and
sets the flag, and the call clears it. The stages are told apart by the
registers, the flag and the request.

The counter must not come around within one call. It does not for centuries
with 64 bits.
-/

set_option autoImplicit false

namespace BruhOS.Timer

section Views

variable {s : Hpet} {op : Op} {data : ℕ}

theorem write_reg (s : Hpet) (offset data offset' : ℕ) :
    (hpet_write_reg s.timer.regtable offset data s).reg offset' =
      if offset' = offset then data else s.reg offset' := by
  simp only [Hpet.reg, hpet_write_reg, Function.update_apply, Nat.add_left_cancel_iff]

@[simp] theorem store_frequency : (op.store s).timer.frequency = s.timer.frequency := by
  unfold Op.store
  split <;> rfl

theorem store_enabled (s : Hpet) (op : Op) : (op.store s).enabled =
    match op with
    | .config on => on
    | _ => s.enabled := by
  cases op with
  | config on =>
    cases on
    · simp [Op.store, Hpet.enabled, write_reg]
    · simp [Op.store, Hpet.enabled, write_reg]
  | flags on => cases on <;> rfl
  | _ => first | rfl | exact congrArg (Nat.testBit · 0) (write_reg _ _ _ _)

theorem store_counter (s : Hpet) (op : Op) :
    (op.store s).counter = if op = .counter then 0 else s.counter := by
  cases op with
  | config on =>
    cases on <;> exact write_reg _ _ _ _
  | flags on => cases on <;> rfl
  | _ => first | rfl | exact write_reg _ _ _ _

theorem store_comparator (s : Hpet) (op : Op) : (op.store s).comparator =
    match op with
    | .comparator ticks => ticks
    | _ => s.comparator := by
  cases op with
  | config on =>
    cases on <;> exact write_reg _ _ _ _
  | flags on => cases on <;> rfl
  | _ => first | rfl | exact write_reg _ _ _ _

theorem store_raises (n : ℕ) : (op.store s).raises n = s.raises n := by
  have hconfig : HPET_CONFIG_REG ≠ TIMERN_CONFIG_CAPABILITY_REG n := by
    simp only [HPET_CONFIG_REG, TIMERN_CONFIG_CAPABILITY_REG]
    omega
  have hcount : HPET_MAIN_COUNT_VAL_REG ≠ TIMERN_CONFIG_CAPABILITY_REG n := by
    simp only [HPET_MAIN_COUNT_VAL_REG, TIMERN_CONFIG_CAPABILITY_REG]
    omega
  have hcompare : TIMERN_COMPARATOR_VALUE_REG 0 ≠ TIMERN_CONFIG_CAPABILITY_REG n := by
    simp only [TIMERN_COMPARATOR_VALUE_REG, TIMERN_CONFIG_CAPABILITY_REG]
    omega
  cases op with
  | config on => cases on <;> simp [Op.store, Hpet.raises, write_reg, hconfig.symm]
  | flags on => cases on <;> rfl
  | _ => simp [Op.store, Hpet.raises, write_reg, hcount.symm, hcompare.symm]

variable {w : ℕ} {m : Machine}

@[simp] theorem perform_hpet : (op.perform m).hpet = op.store m.hpet := by
  cases op <;> rfl

@[simp] theorem perform_request : (op.perform m).request = m.request := by
  cases op <;> rfl

@[simp] theorem perform_program : (op.perform m).program = m.program := by
  cases op <;> rfl

@[simp] theorem perform_handler : (op.perform m).handler = m.handler := by
  cases op <;> rfl

@[simp] theorem count_enabled : (count w m).hpet.enabled = m.hpet.enabled :=
  congrArg (Nat.testBit · 0) (write_reg _ _ _ _)

@[simp] theorem count_counter : (count w m).hpet.counter = (m.hpet.counter+1) % 2^w :=
  write_reg _ _ _ _

@[simp] theorem count_comparator : (count w m).hpet.comparator = m.hpet.comparator :=
  write_reg _ _ _ _

@[simp] theorem count_raises : (count w m).hpet.raises 0 = m.hpet.raises 0 :=
  congrArg (Nat.testBit · 2) (write_reg _ _ _ _)

end Views

section Records

/-- What the calls so far have asked for, and what has happened since the last one began. -/
structure Record where
  target : ℕ
  waits : Bool
  ticks : ℕ
  awaited : ℕ
  served : ℕ

def HpetCall.target (frequency old : ℕ) : HpetCall → ℕ
  | .delay r d => d*(CONSTANT_JUST_WORKS*r.unit) % 2^64/frequency
  | _ => old

def HpetCall.waits : HpetCall → Bool
  | .delay .hcount _ => true
  | .delay .hcountns _ => true
  | .start => true
  | _ => false

def record (frequency : ℕ) (r : Record) : Event → Record
  | .call c => ⟨c.target frequency r.target, c.waits, 0, r.awaited+c.waits.toNat, r.served⟩
  | .tick => { r with ticks := r.ticks+1 }
  | .interrupt => { r with served := r.served+1 }
  | _ => r

/-- No call takes so long that the counter comes around. -/
def Prompt (w frequency : ℕ) : Record → List Event → Prop
  | _, [] => True
  | r, e::es => (record frequency r e).ticks < 2^w ∧ Prompt w frequency (record frequency r e) es

end Records

section Stages

variable (w : ℕ) (s : Machine) (r : Record)

structure Idle : Prop where
  program : s.program = []
  handler : s.handler = []
  enabled : s.hpet.enabled = false
  request : s.request = false
  polled : s.polled = false
  counter : s.hpet.counter = 0
  comparator : s.hpet.comparator = r.target
  full : r.waits = true → r.target % 2^w ≤ r.ticks
  served : r.served = r.awaited

/-- An access that leaves the counter stopped. -/
def Op.Prepares : Op → Prop
  | .config on => on = false
  | .flags on => on = false
  | .counter => True
  | .comparator _ => True
  | _ => False

/-- The comparator after an access. -/
def settle (ticks : ℕ) : Op → ℕ
  | .comparator ticks' => ticks'
  | _ => ticks

/-- The accesses before the counter starts. -/
structure Setup : Prop where
  program : ∃ ops, s.program = ops++(if r.waits then hpetEnableOps++awaitOps else []) ∧
    (∀ op ∈ ops, op.Prepares) ∧ ops.foldl settle s.hpet.comparator = r.target
  handler : s.handler = []
  enabled : s.hpet.enabled = false
  request : s.request = false
  polled : s.polled = false
  counter : s.hpet.counter = 0
  ticks : r.ticks = 0
  served : r.served+r.waits.toNat = r.awaited

/-- A call whose counter was started and that has not yet seen the flag. -/
structure Waiting : Prop where
  program : s.program = .flags true::awaitOps ∨ s.program = awaitOps
  comparator : s.hpet.comparator = r.target
  waits : r.waits = true
  polled : s.polled = false

structure Counting : Prop extends Waiting s r where
  handler : s.handler = []
  enabled : s.hpet.enabled = true
  request : s.request = false
  counter : s.hpet.counter = r.ticks
  early : r.target % 2^w ≠ 0 → r.ticks < r.target % 2^w
  served : r.served+1 = r.awaited

structure Raised : Prop extends Waiting s r where
  handler : s.handler = []
  enabled : s.hpet.enabled = true
  request : s.request = true
  counter : s.hpet.counter = r.ticks
  late : r.target % 2^w ≤ r.ticks
  served : r.served+1 = r.awaited

structure Entered : Prop extends Waiting s r where
  handler : s.handler = hpet_timer_handler
  enabled : s.hpet.enabled = true
  request : s.request = false
  counter : s.hpet.counter = r.ticks
  late : r.target % 2^w ≤ r.ticks
  served : r.served = r.awaited

/-- The handler has stopped the counter. -/
structure Leaving : Prop extends Waiting s r where
  handler : s.handler = [.flags false, .counter, .polled true] ∨
    s.handler = [.counter, .polled true] ∨ s.handler = [.polled true] ∧ s.hpet.counter = 0
  enabled : s.hpet.enabled = false
  request : s.request = false
  late : r.target % 2^w ≤ r.ticks
  served : r.served = r.awaited

structure Handled : Prop where
  program : s.program = .flags true::awaitOps ∨ s.program = awaitOps ∨ s.program = [.polled false]
  handler : s.handler = []
  enabled : s.hpet.enabled = false
  request : s.request = false
  polled : s.polled = true
  counter : s.hpet.counter = 0
  comparator : s.hpet.comparator = r.target
  late : r.target % 2^w ≤ r.ticks
  served : r.served = r.awaited

inductive Stage : Prop
  | idle (h : Idle w s r)
  | setup (h : Setup s r)
  | counting (h : Counting w s r)
  | raised (h : Raised w s r)
  | entered (h : Entered w s r)
  | leaving (h : Leaving w s r)
  | handled (h : Handled w s r)

end Stages

section Transitions

variable {w f : ℕ} {s s' : Machine} {r : Record}

theorem programStep_op {op : Op} {ops : List Op} (h : s.program = op::ops) (hw : op ≠ .wait)
    (hd : op ≠ .divideByZero) : programStep s = some { op.perform s with program := ops } := by
  rw [programStep, h]
  cases op with
  | wait => exact absurd rfl hw
  | divideByZero => exact absurd rfl hd
  | _ => rfl

theorem Setup.idle (h : Setup s r) (hp : s.program = []) : Idle w s r := by
  obtain ⟨ops, hprogram, -, hsettle⟩ := h.program
  have hserved := h.served
  cases hwaits : r.waits with
  | true =>
    rw [hp, hwaits, if_pos rfl] at hprogram
    simp [hpetEnableOps] at hprogram
  | false =>
    rw [hp, hwaits] at hprogram
    obtain rfl : ops = [] := by simpa using hprogram.symm
    rw [hwaits] at hserved
    refine ⟨hp, h.handler, h.enabled, h.request, h.polled, h.counter, hsettle, fun h => ?_, hserved⟩
    rw [hwaits] at h
    cases h

theorem prepares_store {op : Op} (hop : op.Prepares) (henabled : s.hpet.enabled = false)
    (hcounter : s.hpet.counter = 0) : (op.store s.hpet).enabled = false ∧
      (op.store s.hpet).counter = 0 ∧
      (op.store s.hpet).comparator = settle s.hpet.comparator op ∧
      op.perform s = { s with hpet := op.store s.hpet } := by
  rw [store_enabled, store_counter, store_comparator]
  cases op with
  | config on =>
    obtain rfl : on = false := hop
    exact ⟨rfl, by simpa using hcounter, rfl, rfl⟩
  | flags on => exact ⟨henabled, by simpa using hcounter, rfl, rfl⟩
  | counter => exact ⟨henabled, if_pos rfl, rfl, rfl⟩
  | comparator ticks => exact ⟨henabled, by simpa using hcounter, rfl, rfl⟩
  | wait => exact hop.elim
  | polled value => exact hop.elim
  | divideByZero => exact hop.elim

/-- The last access before the counter starts is followed by the one that starts it. -/
theorem Setup.step (h : Setup s r) (hp : s.program ≠ []) : ∃ s', programStep s = some s' ∧
    (Setup s' r ∧ s'.program.length < s.program.length ∨ Counting w s' r) := by
  obtain ⟨ops, hprogram, hops, hsettle⟩ := h.program
  cases ops with
  | nil =>
    cases hwaits : r.waits with
    | false =>
      rw [hwaits] at hprogram
      exact absurd hprogram hp
    | true =>
      rw [hwaits] at hprogram
      refine ⟨_, programStep_op hprogram (by simp) (by simp), .inr ?_⟩
      have hserved := h.served
      rw [hwaits] at hserved
      exact ⟨⟨.inl rfl, (store_comparator _ (.config true)).trans hsettle, hwaits, h.polled⟩,
        h.handler, store_enabled _ (.config true), h.request,
        (store_counter _ (.config true)).trans (h.counter.trans h.ticks.symm),
        fun hT => by rw [h.ticks]; exact Nat.pos_of_ne_zero hT, hserved⟩
  | cons op ops =>
    obtain ⟨hop, hrest⟩ := List.forall_mem_cons.mp hops
    obtain ⟨henabled, hcounter, hcompare, hperform⟩ := prepares_store hop h.enabled h.counter
    have hne : op ≠ .wait ∧ op ≠ .divideByZero := by
      constructor <;> rintro rfl <;> exact hop
    refine ⟨_, programStep_op hprogram hne.1 hne.2, .inl ⟨?_, ?_⟩⟩
    · rw [hperform]
      refine ⟨⟨ops, rfl, hrest, ?_⟩, h.handler, henabled, h.request, h.polled, hcounter, h.ticks,
        h.served⟩
      rw [hcompare]
      exact hsettle
    · rw [hprogram]
      exact Nat.lt_succ_self _

theorem prepareOps_prepares (hf : f ≠ 0) (toFemto d old : ℕ) :
    (∀ op ∈ prepareOps f toFemto d, op.Prepares) ∧
      (prepareOps f toFemto d).foldl settle old =
        d*(CONSTANT_JUST_WORKS*toFemto) % 2^64/f := by
  rw [prepareOps, if_neg hf]
  constructor
  · simp [hpetDisableOps, Op.Prepares]
  · rfl

theorem Idle.call (h : Idle w s r) (hf : f ≠ 0) (c : HpetCall) :
    Setup { s with program := c.ops f } (record f r (.call c)) := by
  have hprogram : ∃ ops, c.ops f = ops++(if c.waits then hpetEnableOps++awaitOps else []) ∧
      (∀ op ∈ ops, op.Prepares) ∧
      ops.foldl settle s.hpet.comparator = c.target f r.target := by
    cases c with
    | delay d n =>
      obtain ⟨hmilli, hmilli'⟩ := prepareOps_prepares hf MILLI_TO_FEMTO n s.hpet.comparator
      obtain ⟨hnano, hnano'⟩ := prepareOps_prepares hf NANO_TO_FEMTO n s.hpet.comparator
      cases d with
      | hcount => exact ⟨_, rfl, hmilli, hmilli'⟩
      | hcountns => exact ⟨_, rfl, hnano, hnano'⟩
      | prepmill => exact ⟨_, (List.append_nil _).symm, hmilli, hmilli'⟩
      | prepnano => exact ⟨_, (List.append_nil _).symm, hnano, hnano'⟩
    | start => exact ⟨[], rfl, by simp, h.comparator⟩
    | stop => exact ⟨hpetDisableOps, rfl, by simp [hpetDisableOps, Op.Prepares], h.comparator⟩
  refine ⟨hprogram, h.handler, h.enabled, h.request, h.polled, h.counter, rfl, ?_⟩
  exact congrArg (·+c.waits.toNat) h.served

/-- A waiting call goes round its loop. -/
theorem Waiting.step (h : Waiting s r) : ∃ s', programStep s = some s' ∧ Waiting s' r ∧
    s'.handler = s.handler ∧ s'.request = s.request ∧ s'.hpet.enabled = s.hpet.enabled ∧
    s'.hpet.counter = s.hpet.counter := by
  rcases h.program with hprogram | hprogram
  · refine ⟨_, programStep_op hprogram (by simp) (by simp), ⟨.inr rfl, ?_, h.waits, h.polled⟩, rfl,
      rfl, ?_, ?_⟩
    · exact h.comparator
    · exact store_enabled _ (.flags true)
    · exact store_counter _ (.flags true)
  · refine ⟨s, ?_, h, rfl, rfl, rfl, rfl⟩
    rw [programStep, hprogram, awaitOps, h.polled]
    rfl

theorem Counting.step (h : Counting w s r) : ∃ s', programStep s = some s' ∧ Counting w s' r := by
  obtain ⟨s', hs', hwaiting, hhandler, hrequest, henabled, hcounter⟩ := h.toWaiting.step
  exact ⟨s', hs', hwaiting, hhandler.trans h.handler, henabled.trans h.enabled,
    hrequest.trans h.request, hcounter.trans h.counter, h.early, h.served⟩

theorem Raised.step (h : Raised w s r) : ∃ s', programStep s = some s' ∧ Raised w s' r := by
  obtain ⟨s', hs', hwaiting, hhandler, hrequest, henabled, hcounter⟩ := h.toWaiting.step
  exact ⟨s', hs', hwaiting, hhandler.trans h.handler, henabled.trans h.enabled,
    hrequest.trans h.request, hcounter.trans h.counter, h.late, h.served⟩

theorem Raised.interrupt (h : Raised w s r) :
    Entered w { s with request := false, handler := hpet_timer_handler }
      (record f r .interrupt) where
  program := h.program
  comparator := h.comparator
  waits := h.waits
  polled := h.polled
  handler := rfl
  enabled := h.enabled
  request := rfl
  counter := h.counter
  late := h.late
  served := h.served

theorem Waiting.tick (h : Waiting s r) : Waiting (count w s) (record f r .tick) :=
  ⟨h.program, (count_comparator (m := s)).trans h.comparator, h.waits, h.polled⟩

theorem count_next (hc : s.hpet.counter = r.ticks) (hp : r.ticks+1 < 2^w) :
    (count w s).hpet.counter = r.ticks+1 := by
  rw [count_counter, hc, Nat.mod_eq_of_lt hp]

/-- The counter raises the interrupt when it gets to the comparator, and only then. -/
theorem count_request (hc : s.hpet.counter = r.ticks) (ht : s.hpet.comparator = r.target)
    (hr : s.hpet.raises 0 = true) (hp : r.ticks+1 < 2^w) :
    (count w s).request = (s.request || r.ticks+1 == r.target % 2^w) := by
  rw [count]
  simp only [hc, ht, hr, Nat.mod_eq_of_lt hp, Bool.true_and]

theorem Counting.tick (h : Counting w s r) (hr : s.hpet.raises 0 = true) (hp : r.ticks+1 < 2^w) :
    Counting w (count w s) (record f r .tick) ∧ r.ticks+1 ≠ r.target % 2^w ∨
      Raised w (count w s) (record f r .tick) ∧ r.ticks+1 = r.target % 2^w := by
  have hrequest := count_request h.counter h.comparator hr hp
  rw [h.request, Bool.false_or] at hrequest
  have henabled : (count w s).hpet.enabled = true := (count_enabled (m := s)).trans h.enabled
  have hcounter := count_next h.counter hp
  by_cases heq : r.ticks+1 = r.target % 2^w
  · rw [beq_iff_eq.mpr heq] at hrequest
    exact .inr ⟨⟨h.toWaiting.tick, h.handler, henabled, hrequest, hcounter, heq.ge, h.served⟩, heq⟩
  · rw [beq_eq_false_iff_ne.mpr heq] at hrequest
    refine .inl ⟨⟨h.toWaiting.tick, h.handler, henabled, hrequest, hcounter, fun hT => ?_,
      h.served⟩, heq⟩
    have := h.early hT
    change r.ticks+1 < r.target % 2^w
    omega

theorem Raised.tick (h : Raised w s r) (hr : s.hpet.raises 0 = true) (hp : r.ticks+1 < 2^w) :
    Raised w (count w s) (record f r .tick) := by
  have hrequest := count_request h.counter h.comparator hr hp
  rw [h.request, Bool.true_or] at hrequest
  exact ⟨h.toWaiting.tick, h.handler, (count_enabled (m := s)).trans h.enabled, hrequest,
    count_next h.counter hp, h.late.trans (Nat.le_succ _), h.served⟩

/-- The counter is past the comparator when the handler is entered. -/
theorem Entered.tick (h : Entered w s r) (hr : s.hpet.raises 0 = true) (hp : r.ticks+1 < 2^w) :
    Entered w (count w s) (record f r .tick) := by
  have hrequest := count_request h.counter h.comparator hr hp
  have hlate := h.late
  rw [h.request, beq_eq_false_iff_ne.mpr (by omega)] at hrequest
  exact ⟨h.toWaiting.tick, h.handler, (count_enabled (m := s)).trans h.enabled, hrequest,
    count_next h.counter hp, h.late.trans (Nat.le_succ _), h.served⟩

theorem Entered.handler_step (h : Entered w s r) : ∃ s', handlerStep s = some s' ∧
    Leaving w s' r := by
  refine ⟨{ (Op.config false).perform s with handler := [.flags false, .counter, .polled true] },
    ?_, ?_⟩
  · rw [handlerStep, h.handler]
    rfl
  · exact ⟨⟨h.program, (store_comparator _ (.config false)).trans h.comparator, h.waits,
      h.polled⟩, .inl rfl, store_enabled _ (.config false), h.request, h.late, h.served⟩

theorem Leaving.handler_step (h : Leaving w s r) : ∃ s', handlerStep s = some s' ∧
    (Leaving w s' r ∧ s'.handler.length < s.handler.length ∨ Handled w s' r) := by
  rcases h.handler with hhandler | hhandler | ⟨hhandler, hcounter⟩
  · refine ⟨{ (Op.flags false).perform s with handler := [.counter, .polled true] }, ?_,
      .inl ⟨?_, ?_⟩⟩
    · rw [handlerStep, hhandler]
    · exact ⟨⟨h.program, (store_comparator _ (.flags false)).trans h.comparator, h.waits,
        h.polled⟩, .inr (.inl rfl), (store_enabled _ (.flags false)).trans h.enabled, h.request,
        h.late, h.served⟩
    · rw [hhandler]
      simp
  · refine ⟨{ Op.counter.perform s with handler := [.polled true] }, ?_, .inl ⟨?_, ?_⟩⟩
    · rw [handlerStep, hhandler]
    · exact ⟨⟨h.program, (store_comparator _ .counter).trans h.comparator, h.waits,
        h.polled⟩, .inr (.inr ⟨rfl, store_counter _ .counter⟩),
        (store_enabled _ .counter).trans h.enabled, h.request, h.late, h.served⟩
    · rw [hhandler]
      simp
  · refine ⟨{ (Op.polled true).perform s with handler := [] }, ?_, .inr ?_⟩
    · rw [handlerStep, hhandler]
    · refine ⟨?_, rfl, h.enabled, h.request, rfl, hcounter, h.comparator, h.late, h.served⟩
      rcases h.program with hprogram | hprogram
      · exact .inl hprogram
      · exact .inr (.inl hprogram)

theorem Handled.step (h : Handled w s r) : ∃ s', programStep s = some s' ∧
    (Handled w s' r ∧ s'.program.length < s.program.length ∨ Idle w s' r) := by
  rcases h.program with hprogram | hprogram | hprogram
  · refine ⟨_, programStep_op hprogram (by simp) (by simp), .inl ⟨?_, ?_⟩⟩
    · exact ⟨.inr (.inl rfl), h.handler, (store_enabled _ (.flags true)).trans h.enabled,
        h.request, h.polled, (store_counter _ (.flags true)).trans h.counter,
        (store_comparator _ (.flags true)).trans h.comparator, h.late, h.served⟩
    · rw [hprogram]
      exact Nat.lt_succ_self _
  · refine ⟨{ s with program := [.polled false] }, ?_, .inl ⟨?_, ?_⟩⟩
    · rw [programStep, hprogram, awaitOps, h.polled]
      rfl
    · exact ⟨.inr (.inr rfl), h.handler, h.enabled, h.request, h.polled, h.counter, h.comparator,
        h.late, h.served⟩
    · rw [hprogram]
      exact Nat.lt_succ_self _
  · refine ⟨_, programStep_op hprogram (by simp) (by simp), .inr ?_⟩
    exact ⟨rfl, h.handler, h.enabled, h.request, rfl, h.counter, h.comparator, fun _ => h.late,
      h.served⟩

end Transitions

section Runs

variable {w f : ℕ} {s s' : Machine} {r : Record} {e : Event}

/-- No access changes the frequency or turns the interrupts of the comparator off. -/
structure Inv (w f : ℕ) (s : Machine) (r : Record) : Prop where
  frequency : s.hpet.timer.frequency = f
  raises : s.hpet.raises 0 = true
  stage : Stage w s r

theorem programStep_hpet (h : programStep s = some s') :
    s'.hpet = s.hpet ∨ ∃ op : Op, s'.hpet = op.store s.hpet := by
  rw [programStep] at h
  split at h
  · cases h
  · cases h
  · obtain rfl := Option.some.inj h
    split_ifs <;> exact .inl rfl
  · obtain rfl := Option.some.inj h
    exact .inr ⟨_, perform_hpet⟩

theorem handlerStep_hpet (h : handlerStep s = some s') : ∃ op : Op, s'.hpet = op.store s.hpet := by
  rw [handlerStep] at h
  split at h
  · cases h
  · obtain rfl := Option.some.inj h
    exact ⟨_, perform_hpet⟩

theorem step_fixed (h : step w s e = some s') :
    s'.hpet.timer.frequency = s.hpet.timer.frequency ∧ s'.hpet.raises 0 = s.hpet.raises 0 := by
  cases e with
  | call c =>
    simp only [step] at h
    split_ifs at h
    obtain rfl := Option.some.inj h
    exact ⟨rfl, rfl⟩
  | program =>
    simp only [step] at h
    split_ifs at h
    rcases programStep_hpet h with heq | ⟨op, heq⟩
    · exact ⟨by rw [heq], by rw [heq]⟩
    · exact ⟨by rw [heq, store_frequency], by rw [heq, store_raises]⟩
  | interrupt =>
    simp only [step] at h
    split_ifs at h
    obtain rfl := Option.some.inj h
    exact ⟨rfl, rfl⟩
  | handler =>
    obtain ⟨op, heq⟩ := handlerStep_hpet h
    exact ⟨by rw [heq, store_frequency], by rw [heq, store_raises]⟩
  | tick =>
    simp only [step] at h
    split_ifs at h
    obtain rfl := Option.some.inj h
    exact ⟨rfl, count_raises⟩

theorem Waiting.busy (h : Waiting s r) : s.program ≠ [] := by
  rcases h.program with hp | hp <;> rw [hp] <;> simp [awaitOps]

theorem Handled.busy (h : Handled w s r) : s.program ≠ [] := by
  rcases h.program with hp | hp | hp <;> rw [hp] <;> simp [awaitOps]

theorem Leaving.inside (h : Leaving w s r) : s.handler ≠ [] := by
  rcases h.handler with hh | hh | ⟨hh, -⟩ <;> rw [hh] <;> simp

theorem Entered.inside (h : Entered w s r) : s.handler ≠ [] := by
  rw [h.handler]
  simp [hpet_timer_handler]

/-- A machine without a running call is at rest. -/
theorem Stage.idle_of (h : Stage w s r) (hp : s.program = []) : Idle w s r := by
  cases h with
  | idle h => exact h
  | setup h => exact h.idle hp
  | counting h => exact absurd hp h.toWaiting.busy
  | raised h => exact absurd hp h.toWaiting.busy
  | entered h => exact absurd hp h.toWaiting.busy
  | leaving h => exact absurd hp h.toWaiting.busy
  | handled h => exact absurd hp h.busy

theorem stage_program (h : Stage w s r) (hh : s.handler = []) (hs : programStep s = some s') :
    Stage w s' r := by
  have hsame : ∀ s₁, programStep s = some s₁ → s' = s₁ := fun s₁ h₁ =>
    Option.some.inj (hs.symm.trans h₁)
  cases h with
  | idle h =>
    rw [programStep, h.program] at hs
    cases hs
  | setup h =>
    obtain ⟨s₁, h₁, hnext⟩ := h.step (w := w) fun hp => by rw [programStep, hp] at hs; cases hs
    rw [hsame s₁ h₁]
    exact hnext.elim (fun h => .setup h.1) .counting
  | counting h =>
    obtain ⟨s₁, h₁, hnext⟩ := h.step
    rw [hsame s₁ h₁]
    exact .counting hnext
  | raised h =>
    obtain ⟨s₁, h₁, hnext⟩ := h.step
    rw [hsame s₁ h₁]
    exact .raised hnext
  | entered h => exact absurd hh h.inside
  | leaving h => exact absurd hh h.inside
  | handled h =>
    obtain ⟨s₁, h₁, hnext⟩ := h.step
    rw [hsame s₁ h₁]
    exact hnext.elim (fun h => .handled h.1) .idle

theorem stage_handler (h : Stage w s r) (hs : handlerStep s = some s') : Stage w s' r := by
  have hsame : ∀ s₁, handlerStep s = some s₁ → s' = s₁ := fun s₁ h₁ =>
    Option.some.inj (hs.symm.trans h₁)
  have hinside : s.handler ≠ [] := fun hh => by rw [handlerStep, hh] at hs; cases hs
  cases h with
  | idle h => exact absurd h.handler hinside
  | setup h => exact absurd h.handler hinside
  | counting h => exact absurd h.handler hinside
  | raised h => exact absurd h.handler hinside
  | entered h =>
    obtain ⟨s₁, h₁, hnext⟩ := h.handler_step
    rw [hsame s₁ h₁]
    exact .leaving hnext
  | leaving h =>
    obtain ⟨s₁, h₁, hnext⟩ := h.handler_step
    rw [hsame s₁ h₁]
    exact hnext.elim (fun h => .leaving h.1) .handled
  | handled h => exact absurd h.handler hinside

theorem stage_interrupt (h : Stage w s r) (hs : s.request = true) :
    Stage w { s with request := false, handler := hpet_timer_handler } (record f r .interrupt) := by
  have hno : s.request = false → False := fun h => by rw [hs] at h; cases h
  cases h with
  | idle h => exact (hno h.request).elim
  | setup h => exact (hno h.request).elim
  | counting h => exact (hno h.request).elim
  | raised h => exact .entered h.interrupt
  | entered h => exact (hno h.request).elim
  | leaving h => exact (hno h.request).elim
  | handled h => exact (hno h.request).elim

theorem stage_tick (h : Stage w s r) (hs : s.hpet.enabled = true) (hr : s.hpet.raises 0 = true)
    (hp : r.ticks+1 < 2^w) : Stage w (count w s) (record f r .tick) := by
  have hno : s.hpet.enabled = false → False := fun h => by rw [hs] at h; cases h
  cases h with
  | idle h => exact (hno h.enabled).elim
  | setup h => exact (hno h.enabled).elim
  | counting h => exact (h.tick hr hp).elim (fun h => .counting h.1) (fun h => .raised h.1)
  | raised h => exact .raised (h.tick hr hp)
  | entered h => exact .entered (h.tick hr hp)
  | leaving h => exact (hno h.enabled).elim
  | handled h => exact (hno h.enabled).elim

theorem inv_step (hf : f ≠ 0) (h : Inv w f s r) (hp : (record f r e).ticks < 2^w)
    (hs : step w s e = some s') : Inv w f s' (record f r e) := by
  obtain ⟨hfrequency, hraises⟩ := step_fixed hs
  refine ⟨hfrequency.trans h.frequency, hraises.trans h.raises, ?_⟩
  cases e with
  | call c =>
    simp only [step] at hs
    split_ifs at hs with hidle
    obtain rfl := Option.some.inj hs
    rw [h.frequency]
    exact .setup ((h.stage.idle_of hidle.1).call hf c)
  | program =>
    simp only [step] at hs
    split_ifs at hs with hhandler
    exact stage_program h.stage hhandler hs
  | interrupt =>
    simp only [step] at hs
    split_ifs at hs with hrequest
    obtain rfl := Option.some.inj hs
    exact stage_interrupt h.stage hrequest.1
  | handler => exact stage_handler h.stage hs
  | tick =>
    simp only [step] at hs
    split_ifs at hs with henabled
    obtain rfl := Option.some.inj hs
    exact stage_tick h.stage henabled h.raises hp

theorem prompt_ticks (es : List Event) (h : r.ticks < 2^w) (hp : Prompt w f r es) :
    (es.foldl (record f) r).ticks < 2^w := by
  induction es generalizing r with
  | nil => exact h
  | cons e es ih => exact ih hp.1 hp.2

theorem inv_run (hf : f ≠ 0) (es : List Event) (h : Inv w f s r) (hp : Prompt w f r es)
    (hs : run w es s = some s') : Inv w f s' (es.foldl (record f) r) := by
  induction es generalizing s r with
  | nil =>
    obtain rfl := Option.some.inj hs
    exact h
  | cons e es ih =>
    rw [run, Option.bind_eq_some_iff] at hs
    obtain ⟨s₁, h₁, hs⟩ := hs
    exact ih (inv_step hf h hp.1 h₁) hp.2 hs

end Runs

section Progress

variable {w f : ℕ} {s s' : Machine} {r : Record} {e : Event}

/-- The running call can still return in time. -/
def Ends (w f : ℕ) (s : Machine) (r : Record) : Prop :=
  ∃ es s', run w es s = some s' ∧ Prompt w f r es ∧ s'.program = []

theorem Ends.of_step (hs : step w s e = some s') (hp : (record f r e).ticks < 2^w)
    (h : Ends w f s' (record f r e)) : Ends w f s r := by
  obtain ⟨es, s'', hrun, hprompt, hidle⟩ := h
  refine ⟨e::es, s'', ?_, ⟨hp, hprompt⟩, hidle⟩
  rw [run, hs, Option.bind_some, hrun]

theorem Handled.ends (hp : r.ticks < 2^w) (h : Handled w s r) : Ends w f s r := by
  induction hn : s.program.length using Nat.strong_induction_on generalizing s with
  | _ n ih =>
    obtain ⟨s', hs', hnext⟩ := h.step
    have hstep : Timer.step w s .program = some s' := (if_pos h.handler).trans hs'
    refine Ends.of_step hstep hp ?_
    rcases hnext with ⟨hnext, hlt⟩ | hnext
    · exact ih _ (hn ▸ hlt) hnext rfl
    · exact ⟨[], s', rfl, trivial, hnext.program⟩

theorem Leaving.ends (hp : r.ticks < 2^w) (h : Leaving w s r) : Ends w f s r := by
  induction hn : s.handler.length using Nat.strong_induction_on generalizing s with
  | _ n ih =>
    obtain ⟨s', hs', hnext⟩ := h.handler_step
    refine Ends.of_step (e := .handler) hs' hp ?_
    rcases hnext with ⟨hnext, hlt⟩ | hnext
    · exact ih _ (hn ▸ hlt) hnext rfl
    · exact hnext.ends hp

theorem Entered.ends (hp : r.ticks < 2^w) (h : Entered w s r) : Ends w f s r := by
  obtain ⟨s', hs', hnext⟩ := h.handler_step
  exact Ends.of_step (e := .handler) hs' hp (hnext.ends hp)

theorem Raised.ends (hp : r.ticks < 2^w) (h : Raised w s r) : Ends w f s r :=
  Ends.of_step (e := .interrupt) (if_pos ⟨h.request, h.handler⟩) hp (h.interrupt.ends hp)

/-- The induction is on the ticks that are left. -/
theorem Counting.ends (hr : s.hpet.raises 0 = true) (hT : r.target % 2^w ≠ 0)
    (h : Counting w s r) : Ends w f s r := by
  induction hn : r.target % 2^w-r.ticks generalizing s r with
  | zero =>
    have hearly := h.early hT
    omega
  | succ n ih =>
    have hlt : r.target % 2^w < 2^w := Nat.mod_lt _ (Nat.two_pow_pos w)
    have hp : r.ticks+1 < 2^w := by
      have hearly := h.early hT
      omega
    refine Ends.of_step (e := .tick) (if_pos h.enabled) hp ?_
    rcases h.tick (f := f) hr hp with ⟨hnext, -⟩ | ⟨hnext, -⟩
    · refine ih (count_raises.trans hr) hT hnext ?_
      change r.target % 2^w-(r.ticks+1) = n
      omega
    · exact hnext.ends hp

theorem Setup.ends (hr : s.hpet.raises 0 = true) (hT : r.waits = true → r.target % 2^w ≠ 0)
    (h : Setup s r) : Ends w f s r := by
  induction hn : s.program.length using Nat.strong_induction_on generalizing s with
  | _ n ih =>
    by_cases hp : s.program = []
    · exact ⟨[], s, rfl, trivial, hp⟩
    · obtain ⟨s', hs', hnext⟩ := h.step (w := w) hp
      have hstep : Timer.step w s .program = some s' := (if_pos h.handler).trans hs'
      have hr' := (step_fixed hstep).2.trans hr
      have hticks : r.ticks < 2^w := h.ticks ▸ Nat.two_pow_pos w
      refine Ends.of_step hstep hticks ?_
      rcases hnext with ⟨hnext, hlt⟩ | hnext
      · exact ih _ (hn ▸ hlt) hr' hnext rfl
      · exact hnext.ends hr' (hT hnext.waits)

/-- A call that waits for at least one tick can return, wherever it is. -/
theorem Inv.ends (h : Inv w f s r) (hp : r.ticks < 2^w)
    (hT : r.waits = true → r.target % 2^w ≠ 0) : Ends w f s r := by
  cases h.stage with
  | idle hs => exact ⟨[], s, rfl, trivial, hs.program⟩
  | setup hs => exact hs.ends h.raises hT
  | counting hs => exact hs.ends h.raises (hT hs.waits)
  | raised hs => exact hs.ends hp
  | entered hs => exact hs.ends hp
  | leaving hs => exact hs.ends hp
  | handled hs => exact hs.ends hp

end Progress

end BruhOS.Timer
