import BruhOS.HpetWaits
import BruhOS.IrqDevices
import Mathlib.Tactic

/-!
# What `HPET_init` leaves

All comparators but the first are silent, and the counter is stopped, so that
every wait from then on can be followed through its stages.

The first comparator raises the input of an I/O APIC that its register holds.
`HPET_init` joins the lowest input that it may raise to what the register held
before, and installs the handler for that input alone.
-/

set_option autoImplicit false

namespace BruhOS.Timer

section Loop

variable {regtable : ℕ} {s : Hpet}

@[simp] theorem write_timer (offset data : ℕ) :
    (hpet_write_reg regtable offset data s).timer = s.timer := rfl

theorem reg_write (h : s.timer.regtable = regtable) (offset data offset' : ℕ) :
    (hpet_write_reg regtable offset data s).reg offset' =
      if offset' = offset then data else s.reg offset' :=
  h ▸ write_reg s offset data offset'

@[simp] theorem config_eq_config (i k : ℕ) :
    TIMERN_CONFIG_CAPABILITY_REG i = TIMERN_CONFIG_CAPABILITY_REG k ↔ i = k := by
  simp only [TIMERN_CONFIG_CAPABILITY_REG]
  omega

@[simp] theorem config_ne_comparator (i k : ℕ) :
    TIMERN_CONFIG_CAPABILITY_REG i ≠ TIMERN_COMPARATOR_VALUE_REG k := by
  simp only [TIMERN_CONFIG_CAPABILITY_REG, TIMERN_COMPARATOR_VALUE_REG]
  omega

@[simp] theorem comparator_ne_config (i k : ℕ) :
    TIMERN_COMPARATOR_VALUE_REG i ≠ TIMERN_CONFIG_CAPABILITY_REG k :=
  (config_ne_comparator k i).symm

/-- The first registers belong to no comparator. -/
theorem general_ne_config {offset : ℕ} (h : offset < 0x100) (i : ℕ) :
    offset ≠ TIMERN_CONFIG_CAPABILITY_REG i := by
  rw [TIMERN_CONFIG_CAPABILITY_REG]
  omega

theorem general_ne_comparator {offset : ℕ} (h : offset < 0x100) (i : ℕ) :
    offset ≠ TIMERN_COMPARATOR_VALUE_REG i := by
  rw [TIMERN_COMPARATOR_VALUE_REG]
  omega

theorem disableTimers_timer (regtable n i : ℕ) (s : Hpet) :
    (disableTimers regtable n i s).timer = s.timer := by
  induction n generalizing i s with
  | zero => rfl
  | succ n ih => exact ih _ _

/-- A register that the loop does not get to. -/
theorem disableTimers_other (n i : ℕ) {s : Hpet} (h : s.timer.regtable = regtable) {offset : ℕ}
    (hoff : ∀ k, i ≤ k →
      offset ≠ TIMERN_CONFIG_CAPABILITY_REG k ∧ offset ≠ TIMERN_COMPARATOR_VALUE_REG k) :
    (disableTimers regtable n i s).reg offset = s.reg offset := by
  induction n generalizing i s with
  | zero => rfl
  | succ n ih =>
    rw [disableTimers, ih (i+1) (by simpa using h) fun k hk => hoff k (by omega),
      reg_write (by simpa using h), if_neg (hoff i (Nat.le_refl i)).1, reg_write h,
      if_neg (hoff i (Nat.le_refl i)).2]

theorem disableTimers_config (n i k : ℕ) {s : Hpet} (h : s.timer.regtable = regtable)
    (hik : i ≤ k) (hkn : k < i+n) :
    (disableTimers regtable n i s).reg (TIMERN_CONFIG_CAPABILITY_REG k) =
      s.reg (TIMERN_CONFIG_CAPABILITY_REG k) &&& (2^64-1-2^2) := by
  induction n generalizing i s with
  | zero => omega
  | succ n ih =>
    rw [disableTimers]
    by_cases heq : k = i
    · subst heq
      rw [disableTimers_other n (k+1) (by simpa using h)
        fun j hj => ⟨by simp; omega, config_ne_comparator k j⟩, reg_write (by simpa using h),
        if_pos rfl, Hpet.reg, h]
    · rw [ih (i+1) (by simpa using h) (by omega) (by omega), reg_write (by simpa using h),
        if_neg (by simpa using heq), reg_write h, if_neg (config_ne_comparator k i)]

end Loop

section Init

/-- The bits of a mask that clears one bit. -/
theorem mask_testBit {k j : ℕ} (hk : k < 64) (hj : j < 64) :
    (2^64-1-2^k).testBit j = decide (j ≠ k) := by
  have hsub : 2^64-1-2^k = 2^64-(2^k+1) := by omega
  rw [hsub, Nat.testBit_two_pow_sub_succ (Nat.pow_lt_pow_right (by decide) hk),
    Nat.testBit_two_pow]
  simp [hj, eq_comm]

theorem lsbul_zero {bits : ℕ} (h : ∀ i < 64, bits.testBit i = false) : lsbul bits = 0 := by
  have hnone : (List.range 64).find? bits.testBit = none := by
    simpa [List.find?_eq_none] using h
  rw [lsbul, hnone]

theorem lsbul_lowest {bits i : ℕ} (hi : i < 64) (hbit : bits.testBit i = true)
    (hlow : ∀ j < i, bits.testBit j = false) : lsbul bits = i+1 := by
  have hsome : (List.range 64).find? bits.testBit = some i := by
    rw [List.find?_range_eq_some]
    exact ⟨hbit, List.mem_range.mpr hi, fun j hj => by rw [hlow j hj]; rfl⟩
  rw [lsbul, hsome]

/-- A timer that can raise inputs: the lowest of them is joined to what the register held. -/
theorem routeTimer0_lowest {timer0 i : ℕ} (hi : i < 32) (hbit : (timer0 >>> 32).testBit i = true)
    (hlow : ∀ j < i, (timer0 >>> 32).testBit j = false) :
    routeTimer0 timer0 =
      ((((timer0 &&& (2^64-1-2^14)) ||| (i <<< 9)) &&& (2^64-1-2^3)) ||| 2^2, i) := by
  have hirq : (lsbul (timer0 >>> 32)+(2^64-1)) % 2^64 = i := by
    rw [lsbul_lowest (by omega) hbit hlow]
    omega
  have hshift : i <<< 9 % 2^64 = i <<< 9 := by
    rw [Nat.shiftLeft_eq]
    omega
  rw [routeTimer0, hirq, hshift]

theorem routeTimer0_none {timer0 : ℕ} (h : ∀ i < 64, (timer0 >>> 32).testBit i = false) :
    (routeTimer0 timer0).1.testBit 14 = true := by
  have hirq : (lsbul (timer0 >>> 32)+(2^64-1)) % 2^64 = 2^64-1 := by
    rw [lsbul_zero h]
    decide
  have hshift : ((2^64-1) <<< 9 % 2^64).testBit 14 = true := by decide
  have hmask : (2^64-1-2^3).testBit 14 = true := by decide
  rw [routeTimer0, hirq]
  simp only [Nat.testBit_or, Nat.testBit_and, hshift, hmask, Bool.or_true, Bool.true_or,
    Bool.true_and]

theorem route_field {x j : ℕ} : ((x >>> 9) &&& 0x1f).testBit j =
    (decide (j < 5) && x.testBit (9+j)) := by
  rw [Nat.testBit_and, Nat.testBit_shiftRight, show 0x1f = 2^5-1 from rfl,
    Nat.testBit_two_pow_sub_one, Bool.and_comm]

/-- The fields of the register that decide where the interrupt goes. -/
theorem routed_fields {timer0 i : ℕ} (hi : i < 32) (hbit : (timer0 >>> 32).testBit i = true)
    (hlow : ∀ j < i, (timer0 >>> 32).testBit j = false) :
    ((routeTimer0 timer0).1 >>> 9) &&& 0x1f = ((timer0 >>> 9) &&& 0x1f) ||| i ∧
      (routeTimer0 timer0).1.testBit 14 = false ∧ (routeTimer0 timer0).2 = i := by
  have hhigh : ∀ j, 5 ≤ j → i.testBit j = false := fun j hj =>
    Nat.testBit_lt_two_pow (hi.trans_le (Nat.pow_le_pow_right (by decide : 0 < 2) hj : 2^5 ≤ 2^j))
  have h14 : (14 : ℕ) < 64 := by decide
  rw [routeTimer0_lowest hi hbit hlow]
  refine ⟨Nat.eq_of_testBit_eq fun j => ?_, ?_, rfl⟩
  · rw [route_field, Nat.testBit_or _ i, route_field]
    by_cases hj : j < 5
    · have h9 : 9+j-9 = j := by omega
      simp only [Nat.testBit_or, Nat.testBit_and, Nat.testBit_shiftLeft, Nat.testBit_two_pow,
        mask_testBit (show 14 < 64 by decide) (show 9+j < 64 by omega),
        mask_testBit (show 3 < 64 by decide) (show 9+j < 64 by omega), h9]
      simp [hj, show 9+j ≠ 14 by omega, show 9+j ≠ 3 by omega, show ¬ 2 = 9+j by omega]
    · simp [hj, hhigh j (by omega)]
  · simp only [Nat.testBit_or, Nat.testBit_and, Nat.testBit_shiftLeft, Nat.testBit_two_pow,
      mask_testBit (show 14 < 64 by decide) h14]
    simp [hhigh 5 (by omega)]

end Init

section Initialized

variable {regtable minimum_tick irq : ℕ} {memory : ℕ → ℕ} {s : Hpet}

theorem stopCounter_reg (h : s.timer.regtable = regtable) (offset : ℕ) :
    (stopCounter regtable s).reg offset =
      if offset = HPET_MAIN_COUNT_VAL_REG then 0
      else if offset = HPET_CONFIG_REG then
        s.reg HPET_CONFIG_REG &&& (2^64-1-2^0) &&& (2^64-1-2^2)
      else s.reg offset := by
  have hload : s.memory (regtable+HPET_CONFIG_REG) = s.reg HPET_CONFIG_REG := by rw [Hpet.reg, h]
  rw [stopCounter, reg_write (by simpa using h), reg_write h, hload]

theorem initTimer0_reg (h : s.timer.regtable = regtable) (offset : ℕ) :
    (initTimer0 regtable s).1.reg offset =
      if offset = TIMERN_COMPARATOR_VALUE_REG 0 then s.timer.frequency*10 % 2^64
      else if offset = TIMERN_CONFIG_CAPABILITY_REG 0 then
        (routeTimer0 (s.reg (TIMERN_CONFIG_CAPABILITY_REG 0))).1
      else s.reg offset := by
  have hload : s.memory (regtable+TIMERN_CONFIG_CAPABILITY_REG 0) =
      s.reg (TIMERN_CONFIG_CAPABILITY_REG 0) := by rw [Hpet.reg, h]
  rw [initTimer0, reg_write (by simpa using h), reg_write h, hload]
  rfl

/-- What the registers hold after `HPET_init`. -/
structure Initialized (regtable : ℕ) (memory : ℕ → ℕ) (s : Hpet) (irq : ℕ) : Prop where
  frequency : s.timer.frequency ≠ 0
  enabled : s.enabled = false
  counter : s.counter = 0
  raises : s.raises 0 = true
  timer0 : (s.reg (TIMERN_CONFIG_CAPABILITY_REG 0), irq) =
    routeTimer0 (memory (regtable+TIMERN_CONFIG_CAPABILITY_REG 0) &&& (2^64-1-2^2))
  silent : ∀ k, 1 ≤ k → k < 1+((memory (regtable+HPET_CAPABILITIES_ID_REG) >>> 8) &&& 0x1f) →
    s.raises k = false

theorem init_timer {cap : ℕ} {t : HPETtimer} (hcap : cap < 2^64)
    (h : HPET_init_timer regtable cap minimum_tick = some t) :
    t.regtable = regtable ∧ t.frequency ≠ 0 := by
  rw [HPET_init_timer] at h
  split_ifs at h with hzero
  obtain rfl := Option.some.inj h
  have hlt : cap >>> 32 < 2^32 := by
    rw [Nat.shiftRight_eq_div_pow]
    omega
  have hpos : 0 < ONE_OVER_FEMTOSECOND/(cap >>> 32) :=
    Nat.div_pos (by rw [ONE_OVER_FEMTOSECOND]; omega) (by omega)
  exact ⟨rfl, hpos.ne'⟩

section Disabled

variable {n : ℕ}

theorem disabled_general (h : s.timer.regtable = regtable) {offset : ℕ} (hoff : offset < 0x100) :
    (disableTimers regtable n 0 (stopCounter regtable s)).reg offset =
      (stopCounter regtable s).reg offset := by
  have hstop : (stopCounter regtable s).timer.regtable = regtable := h
  exact disableTimers_other n 0 hstop fun k _ =>
    ⟨general_ne_config hoff k, general_ne_comparator hoff k⟩

theorem disabled_config (h : s.timer.regtable = regtable) {k : ℕ} (hk : k < n) :
    (disableTimers regtable n 0 (stopCounter regtable s)).reg (TIMERN_CONFIG_CAPABILITY_REG k) =
      s.memory (regtable+TIMERN_CONFIG_CAPABILITY_REG k) &&& (2^64-1-2^2) := by
  have hload : s.reg (TIMERN_CONFIG_CAPABILITY_REG k) =
      s.memory (regtable+TIMERN_CONFIG_CAPABILITY_REG k) := by rw [Hpet.reg, h]
  have hstop : (stopCounter regtable s).timer.regtable = regtable := h
  rw [disableTimers_config n 0 k hstop (Nat.zero_le k) (by omega), stopCounter_reg h,
    if_neg (Ne.symm (general_ne_config (by decide) k)),
    if_neg (Ne.symm (general_ne_config (by decide) k)), hload]

end Disabled

theorem initialized (h64 : ∀ p, memory p < 2^64)
    (h : HPET_init regtable minimum_tick memory = some (s, irq)) :
    Initialized regtable memory s irq := by
  rw [HPET_init, Option.map_eq_some_iff] at h
  obtain ⟨timer, htimer, heq⟩ := h
  obtain ⟨hregtable, hfrequency⟩ := init_timer (h64 _) htimer
  generalize hn : 1+((memory (regtable+HPET_CAPABILITIES_ID_REG) >>> 8) &&& 0x1f) = n at heq
  replace heq : initTimer0 regtable
      (disableTimers regtable n 0 (stopCounter regtable ⟨timer, memory⟩)) = (s, irq) := heq
  have hstop := stopCounter_reg (s := ⟨timer, memory⟩) hregtable
  have hgeneral := @disabled_general regtable ⟨timer, memory⟩ n hregtable
  have hconfig := @disabled_config regtable ⟨timer, memory⟩ n hregtable
  have hsame := disableTimers_timer regtable n 0 (stopCounter regtable ⟨timer, memory⟩)
  -- the state before the first comparator is set up
  generalize disableTimers regtable n 0 (stopCounter regtable ⟨timer, memory⟩) = d at *
  have hd : d.timer.regtable = regtable := hsame ▸ hregtable
  have hinit := initTimer0_reg hd
  have htimer0 := hinit (TIMERN_CONFIG_CAPABILITY_REG 0)
  rw [if_neg (config_ne_comparator 0 0), if_pos rfl, hconfig (k := 0) (by omega)] at htimer0
  have hirq : (initTimer0 regtable d).2 =
      (routeTimer0 (memory (regtable+TIMERN_CONFIG_CAPABILITY_REG 0) &&& (2^64-1-2^2))).2 := by
    have hload : d.memory (regtable+TIMERN_CONFIG_CAPABILITY_REG 0) =
        d.reg (TIMERN_CONFIG_CAPABILITY_REG 0) := by rw [Hpet.reg, hd]
    rw [← hconfig (k := 0) (by omega), ← hload]
    rfl
  obtain rfl : (initTimer0 regtable d).2 = irq := congrArg Prod.snd heq
  obtain rfl : (initTimer0 regtable d).1 = s := congrArg Prod.fst heq
  refine ⟨?_, ?_, ?_, ?_, Prod.ext htimer0 hirq, fun k hk hkn => ?_⟩
  · have hkept : (initTimer0 regtable d).1.timer = timer := hsame
    rwa [hkept]
  · rw [Hpet.enabled, hinit, if_neg (general_ne_comparator (by decide) 0),
      if_neg (general_ne_config (by decide) 0), hgeneral (by decide), hstop, if_neg (by decide),
      if_pos rfl]
    simp only [Nat.testBit_and, mask_testBit (show 0 < 64 by decide) (show 0 < 64 by decide)]
    simp
  · rw [Hpet.counter, hinit, if_neg (general_ne_comparator (by decide) 0),
      if_neg (general_ne_config (by decide) 0), hgeneral (by decide), hstop, if_pos rfl]
  · rw [Hpet.raises, htimer0, routeTimer0, Nat.testBit_or, Nat.testBit_two_pow_self, Bool.or_true]
  · rw [Hpet.raises, hinit, if_neg (config_ne_comparator k 0),
      if_neg (by rw [config_eq_config]; omega), hconfig (by omega)]
    simp only [Nat.testBit_and, mask_testBit (show 2 < 64 by decide) (show 2 < 64 by decide)]
    simp

theorem initialized_inv (w : ℕ) (h : Initialized regtable memory s irq) :
    Inv w s.timer.frequency ⟨s, false, false, [], []⟩ ⟨s.comparator, false, 0, 0, 0⟩ :=
  ⟨rfl, h.raises, .idle ⟨rfl, rfl, h.enabled, rfl, rfl, h.counter, rfl, by simp, rfl⟩⟩

end Initialized

section Wiring

open BruhOS.IrqInstall (Session Fresh bootTables freeSlots requestVectorMin noVector
  requestVectorMin_fails)
open BruhOS.IrqDevices (OneApic booted booted_fresh booted_signalled replay Apic)
open BruhOS.IrqRouter (IOApic initIrqRouter maxEntry)

/-- The first comparator raises an input of the device, and the message of the input leads to the
handler. -/
structure Arrives (s : Hpet) (w : Session) (d : Apic) (inputs handler : ℕ) : Prop where
  raises : s.raises 0 = true
  apic : s.fsb 0 = false
  input : s.route 0 ≤ inputs
  message : ∃ m, d.message? (BitVec.ofNat 8 (s.route 0)) = some m ∧ 32 ≤ m.vector.toNat ∧
    w.tables.handleTable (m.vector.toNat-32) = handler

theorem first_installed {t : IrqInstall.Tables} (h : Fresh t) (gsi lapicId : BitVec 8)
    (handler : ℕ) (g : BitVec 8) :
    (IrqInstall.step ⟨t, fun _ => none⟩ (.installISA gsi lapicId 0 handler)).installed g =
      if gsi.toNat ≤ 15 ∧ g = gsi then some handler else none := by
  have hfree : requestVectorMin t.handleTable 0 ≠ noVector := by
    rw [ne_eq, requestVectorMin_fails _ (by decide)]
    intro hempty
    have hzero : 0 ∈ freeSlots t.handleTable (0*16) (0*16+15) :=
      ⟨by decide, by decide, by rw [IrqInstall.isHandleFree, h.handlers 0 (by decide)]; rfl⟩
    rw [hempty] at hzero
    exact Set.notMem_empty 0 hzero
  rw [IrqInstall.step, IrqInstall.installISA]
  by_cases hgsi : gsi.toNat ≤ 15
  · rw [if_neg (by omega), if_neg hfree, IrqInstall.install]
    simp only [hgsi, true_and, Function.update_apply]
  · rw [if_pos (by omega), IrqInstall.install, if_neg (by simp [hgsi])]

/-- The inputs that the first comparator may raise, behind the mask of the loop. -/
theorem masked_routes {timer0 i : ℕ} (hi : i < 32) :
    ((timer0 &&& (2^64-1-2^2)) >>> 32).testBit i = (timer0 >>> 32).testBit i := by
  rw [Nat.testBit_shiftRight, Nat.testBit_and, mask_testBit (by decide) (by omega),
    Nat.testBit_shiftRight]
  simp [show 32+i ≠ 2 by omega]

theorem masked_field (timer0 : ℕ) :
    ((timer0 &&& (2^64-1-2^2)) >>> 9) &&& 0x1f = (timer0 >>> 9) &&& 0x1f := by
  refine Nat.eq_of_testBit_eq fun j => ?_
  rw [route_field, route_field]
  by_cases hj : j < 5
  · rw [Nat.testBit_and, mask_testBit (by decide) (by omega)]
    simp [show 9+j ≠ 2 by omega]
  · simp [hj]

theorem masked_high {timer0 i : ℕ} (hi : 32 ≤ i) :
    ((timer0 &&& (2^64-1-2^2)) >>> 32).testBit i = false := by
  have hmask : (2^64-1-2^2).testBit (32+i) = false :=
    Nat.testBit_lt_two_pow ((show 2^64-1-2^2 < 2^64 by decide).trans_le
      (Nat.pow_le_pow_right (by decide) (by omega)))
  rw [Nat.testBit_shiftRight, Nat.testBit_and, hmask, Bool.and_false]

/-- The lowest input that the first comparator may raise. -/
def Lowest (timer0 i : ℕ) : Prop :=
  (timer0 >>> 32).testBit i = true ∧ ∀ j < i, (timer0 >>> 32).testBit j = false

theorem Lowest.unique {timer0 i j : ℕ} (hi : Lowest timer0 i) (hj : Lowest timer0 j) : i = j := by
  rcases Nat.lt_trichotomy i j with hlt | heq | hgt
  · exact absurd hi.1 (by simp [hj.2 i hlt])
  · exact heq
  · exact absurd hj.1 (by simp [hi.2 j hgt])

/-- Either there is no input to raise, and the interrupt goes to the bus of the processor, or the
lowest of them is installed. -/
theorem Initialized.routed {regtable irq : ℕ} {memory : ℕ → ℕ} {s : Hpet}
    (h : Initialized regtable memory s irq) :
    let timer0 := memory (regtable+TIMERN_CONFIG_CAPABILITY_REG 0)
    (s.fsb 0 = true ∧ ∀ i < 32, ¬ Lowest timer0 i) ∨
      ∃ i < 32, Lowest timer0 i ∧ irq = i ∧ s.fsb 0 = false ∧
        s.route 0 = ((timer0 >>> 9) &&& 0x1f) ||| i := by
  intro timer0
  have hregister : s.reg (TIMERN_CONFIG_CAPABILITY_REG 0) =
      (routeTimer0 (timer0 &&& (2^64-1-2^2))).1 := congrArg Prod.fst h.timer0
  have hirq : irq = (routeTimer0 (timer0 &&& (2^64-1-2^2))).2 := congrArg Prod.snd h.timer0
  by_cases hsome : ∃ i, ((timer0 &&& (2^64-1-2^2)) >>> 32).testBit i = true
  · right
    have hbit := Nat.find_spec hsome
    have hlow : ∀ j < Nat.find hsome, ((timer0 &&& (2^64-1-2^2)) >>> 32).testBit j = false :=
      fun j hj => Bool.eq_false_iff.mpr (Nat.find_min hsome hj)
    generalize Nat.find hsome = i at hbit hlow
    have hi : i < 32 := by
      by_contra hge
      rw [masked_high (by omega)] at hbit
      cases hbit
    obtain ⟨hfield, hfsb, hinput⟩ := routed_fields hi hbit hlow
    refine ⟨i, hi, ⟨masked_routes hi ▸ hbit, fun j hj => ?_⟩, hirq.trans hinput, ?_, ?_⟩
    · rw [← masked_routes (by omega), hlow j hj]
    · rw [Hpet.fsb, hregister, hfsb]
    · rw [Hpet.route, hregister, hfield, masked_field]
  · left
    have hnone : ∀ i, ((timer0 &&& (2^64-1-2^2)) >>> 32).testBit i = false := fun i =>
      Bool.eq_false_iff.mpr fun hbit => hsome ⟨i, hbit⟩
    refine ⟨?_, fun i hi hlowest => ?_⟩
    · rw [Hpet.fsb, hregister, routeTimer0_none fun i _ => hnone i]
    · have hbit := hlowest.1
      rw [← masked_routes hi, hnone i] at hbit
      cases hbit

/-- After the installer only the lowest input can send, and its message leads to the handler. -/
theorem arrives_iff {off n irq handler : ℕ} {a : IOApic} {r : IrqRouter.Router}
    (hb : IrqDevices.Booted off n a r) (hn : 16 ≤ n) (hmax : n ≤ 120) (bus : IrqDevices.Bus)
    {s : Hpet} (hraises : s.raises 0 = true) (hfsb : s.fsb 0 = false) (hroute : s.route 0 < 32)
    (hirq : irq < 32) (lapicId : BitVec 8) (hh : handler ≠ 0) :
    let w := IrqInstall.step ⟨bootTables r, fun _ => none⟩
      (.installISA (BitVec.ofNat 8 irq) lapicId 0 handler)
    Arrives s w (replay w.tables.writes bus (Paging.virt off a.address)) (n-1) handler ↔
      irq ≤ 15 ∧ s.route 0 = irq := by
  intro w
  have hw : IrqInstall.Reachable ⟨bootTables r, fun _ => none⟩ w := .step .start ⟨by decide, hh⟩
  have hgsi : (BitVec.ofNat 8 irq).toNat = irq := by
    rw [BitVec.toNat_ofNat]
    omega
  have hinput : (BitVec.ofNat 8 (s.route 0)).toNat = s.route 0 := by
    rw [BitVec.toNat_ofNat]
    omega
  have hsame : BitVec.ofNat 8 (s.route 0) = BitVec.ofNat 8 irq ↔ s.route 0 = irq := by
    rw [← BitVec.toNat_inj, hinput, hgsi]
  have hinstalled := first_installed (booted_fresh hb) (BitVec.ofNat 8 irq) lapicId handler
    (BitVec.ofNat 8 (s.route 0))
  simp only [hgsi, hsame] at hinstalled
  constructor
  · intro hA
    obtain ⟨m, hm, -⟩ := hA.message
    have hlt := hA.input
    by_contra hnot
    rw [if_neg hnot] at hinstalled
    have hsignal := booted_signalled hb hn hmax bus hw (g := BitVec.ofNat 8 (s.route 0)) (by omega)
    rw [hsignal.silent hinstalled] at hm
    cases hm
  · rintro ⟨hlow, heq⟩
    rw [if_pos ⟨hlow, heq⟩] at hinstalled
    have hsignal := booted_signalled hb hn hmax bus hw (g := BitVec.ofNat 8 (s.route 0)) (by omega)
    obtain ⟨v, hv, hleast, hhandler⟩ := hsignal.sends handler hinstalled
    exact ⟨hraises, hfsb, by omega, _, hv, hleast, hhandler⟩

end Wiring

section Results

/-- Whatever is called after `HPET_init` and wherever the counter counts and the interrupt comes: a
call that has returned has waited for all the ticks of its comparator, for one interrupt of its own
and no other, and it leaves the counter stopped at zero. -/
theorem hpet_waits_full (w regtable minimum_tick irq : ℕ) (memory : ℕ → ℕ)
    (h64 : ∀ p, memory p < 2^64) (s : Hpet)
    (hinit : HPET_init regtable minimum_tick memory = some (s, irq)) (es : List Event)
    (m : Machine) (hrun : run w es ⟨s, false, false, [], []⟩ = some m)
    (hprompt : Prompt w s.timer.frequency ⟨s.comparator, false, 0, 0, 0⟩ es)
    (hreturned : m.program = []) :
    let r := es.foldl (record s.timer.frequency) ⟨s.comparator, false, 0, 0, 0⟩
    (r.waits = true → r.target % 2^w ≤ r.ticks) ∧ m.hpet.comparator = r.target ∧
      r.served = r.awaited ∧ m.handler = [] ∧ m.request = false ∧ m.polled = false ∧
      m.hpet.enabled = false ∧ m.hpet.counter = 0 := by
  have hstart := initialized h64 hinit
  have hidle := (inv_run hstart.frequency es (initialized_inv w hstart) hprompt hrun).stage.idle_of
    hreturned
  exact ⟨hidle.full, hidle.comparator, hidle.served, hidle.handler, hidle.request, hidle.polled,
    hidle.enabled, hidle.counter⟩

/-- A timer of 100 MHz with one comparator that may raise input 2. -/
def fastTimer : ℕ → ℕ := fun p =>
  if p = 0 then 10^7 <<< 32 else if p = 0x100 then 4 <<< 32 else 0

theorem fastTimer_lt (p : ℕ) : fastTimer p < 2^64 := by
  rw [fastTimer]
  split_ifs <;> decide

/-- Ten nanoseconds, up to the tick that ends them. -/
def oneTick : List Event := .call (.delay .hcountns 10)::(List.replicate 6 .program++[.tick])

def interrupted : List Event := .interrupt::(List.replicate 4 .handler++List.replicate 2 .program)

theorem hpet_waits_full_tick : ∃ s m, HPET_init 0 0 fastTimer = some (s, 2) ∧
    run 64 (oneTick++interrupted) ⟨s, false, false, [], []⟩ = some m ∧ m.hpet.comparator = 1 ∧
      m.hpet.counter = 0 := by
  refine ⟨_, _, rfl, rfl, ?_⟩
  have h := hpet_waits_full 64 0 0 2 fastTimer fastTimer_lt _ rfl (oneTick++interrupted) _ rfl
    (by simp [oneTick, interrupted, Prompt, record]) rfl
  exact ⟨h.2.1, h.2.2.2.2.2.2.2⟩

/-- No interleaving is a dead end: a call that waits for at least one tick can still return, before
the counter comes around. -/
theorem hpet_waits_end (w regtable minimum_tick irq : ℕ) (memory : ℕ → ℕ)
    (h64 : ∀ p, memory p < 2^64) (s : Hpet)
    (hinit : HPET_init regtable minimum_tick memory = some (s, irq)) (es : List Event)
    (m : Machine) (hrun : run w es ⟨s, false, false, [], []⟩ = some m)
    (hprompt : Prompt w s.timer.frequency ⟨s.comparator, false, 0, 0, 0⟩ es) :
    let r := es.foldl (record s.timer.frequency) ⟨s.comparator, false, 0, 0, 0⟩
    (r.waits = true → r.target % 2^w ≠ 0) →
      ∃ es' m', run w es' m = some m' ∧ Prompt w s.timer.frequency r es' ∧ m'.program = [] := by
  have hstart := initialized h64 hinit
  intro r hT
  have hinv := inv_run hstart.frequency es (initialized_inv w hstart) hprompt hrun
  exact hinv.ends (prompt_ticks es (Nat.two_pow_pos w) hprompt) hT

theorem hpet_waits_end_tick : ∃ s m, HPET_init 0 0 fastTimer = some (s, 2) ∧
    run 64 oneTick ⟨s, false, false, [], []⟩ = some m ∧
      ∃ es' m', run 64 es' m = some m' ∧ m'.program = [] := by
  refine ⟨_, _, rfl, rfl, ?_⟩
  obtain ⟨es', m', hrun, -, hreturned⟩ := hpet_waits_end 64 0 0 2 fastTimer fastTimer_lt _ rfl
    oneTick _ rfl (by simp [oneTick, Prompt, record]) (by decide)
  exact ⟨es', m', hrun, hreturned⟩

/-- The interrupt of the timer reaches its handler exactly when the lowest input that the timer may
raise is one of the ISA bus and its number has all bits that the firmware had left in the field. The
other comparators are silent in any case. -/
theorem hpet_interrupt_arrives (off : ℕ) (version : ℕ → ℕ) (rs : List (List ℕ))
    (a : IrqRouter.IOApic) (h : IrqDevices.OneApic off version rs a) (bus : IrqDevices.Bus)
    (regtable minimum_tick irq : ℕ) (memory : ℕ → ℕ) (h64 : ∀ p, memory p < 2^64) (s : Hpet)
    (hinit : HPET_init regtable minimum_tick memory = some (s, irq)) (lapicId : BitVec 8)
    (handler : ℕ) (hh : handler ≠ 0) :
    (∀ k, 1 ≤ k → k < 1+((memory (regtable+HPET_CAPABILITIES_ID_REG) >>> 8) &&& 0x1f) →
      s.raises k = false) ∧
    ∃ r, IrqRouter.initIrqRouter off version rs.flatten = .ok r ∧
      let w := IrqInstall.step ⟨IrqInstall.bootTables r, fun _ => none⟩
        (.installISA (BitVec.ofNat 8 irq) lapicId 0 handler)
      let timer0 := memory (regtable+TIMERN_CONFIG_CAPABILITY_REG 0)
      Arrives s w (IrqDevices.replay w.tables.writes bus (Paging.virt off a.address))
          (IrqRouter.maxEntry off version a) handler ↔
        ∃ i ≤ 15, Lowest timer0 i ∧ ((timer0 >>> 9) &&& 0x1f) ||| i = i := by
  have hstart := initialized h64 hinit
  obtain ⟨r, hr, hb⟩ := IrqDevices.booted h
  have hleast := h.least
  have hinputs := h.inputs
  refine ⟨hstart.silent, r, hr, ?_⟩
  intro w timer0
  rcases hstart.routed with ⟨hfsb, hnone⟩ | ⟨i, hi, hlowest, hirq, hfsb, hroute⟩
  · constructor
    · intro hA
      rw [hA.apic] at hfsb
      cases hfsb
    · rintro ⟨i, hi, hlowest, -⟩
      exact absurd hlowest (hnone i (by omega))
  · have hfield : s.route 0 < 32 := by
      rw [Hpet.route, show 0x1f = 2^5-1 from rfl, Nat.and_two_pow_sub_one_eq_mod]
      exact Nat.mod_lt _ (by decide)
    have hiff := arrives_iff hb (by omega) (by omega) bus hstart.raises hfsb hfield
      (hirq ▸ hi) lapicId hh
    rw [Nat.add_sub_cancel_left] at hiff
    refine Iff.trans hiff ?_
    rw [hroute, hirq]
    constructor
    · rintro ⟨hlow, heq⟩
      exact ⟨i, hlow, hlowest, heq⟩
    · rintro ⟨j, hj, hlowest', heq⟩
      obtain rfl := hlowest.unique hlowest'
      exact ⟨hj, heq⟩

/-- The timer of 100 MHz reaches its handler through input 2. -/
theorem hpet_interrupt_arrives_fast : ∃ s r, HPET_init 0 0 fastTimer = some (s, 2) ∧
    IrqRouter.initIrqRouter 0 IrqRouter.version24 IrqRouter.oneApic.flatten = .ok r ∧
      let w := IrqInstall.step ⟨IrqInstall.bootTables r, fun _ => none⟩ (.installISA 2 0 0 0x1000)
      Arrives s w (IrqDevices.replay w.tables.writes (fun _ => ⟨0, fun _ => 0⟩)
        (Paging.virt 0 IrqDevices.firstApic.address))
        (IrqRouter.maxEntry 0 IrqRouter.version24 IrqDevices.firstApic) 0x1000 := by
  obtain ⟨s, hs⟩ : ∃ s, HPET_init 0 0 fastTimer = some (s, 2) := ⟨_, rfl⟩
  obtain ⟨-, r, hr, hiff⟩ := hpet_interrupt_arrives 0 IrqRouter.version24 IrqRouter.oneApic
    IrqDevices.firstApic IrqDevices.oneApic_booted (fun _ => ⟨0, fun _ => 0⟩) 0 0 2 fastTimer
    fastTimer_lt s hs 0 0x1000 (by decide)
  exact ⟨s, r, hs, hr, hiff.mpr ⟨2, by decide, ⟨by decide, by decide⟩, by decide⟩⟩

end Results

end BruhOS.Timer
