import Mathlib.Algebra.Order.Field.Basic
import Mathlib.Data.Rat.Floor
import Mathlib.Tactic

/-!
# Delays of the event timer

The timer counts with a period of `P` femtoseconds, which its capability
register reports. The kernel keeps the truncated quotient of 10^15 and `P`
and divides ten times the duration by it. The result is the number of ticks
where the quotient is ten times the period, and otherwise only for durations
that are short against the difference of the two.
-/

set_option autoImplicit false

namespace BruhOS.Timer

def ONE_OVER_FEMTOSECOND : ℕ := 0x38d7ea4c68000

def CONSTANT_JUST_WORKS : ℕ := 10

def MILLI_TO_FEMTO : ℕ := 0xe8d4a51000

def NANO_TO_FEMTO : ℕ := 0xf4240

def HPET_CONFIG_REG : ℕ := 0x10

def HPET_MAIN_COUNT_VAL_REG : ℕ := 0xF0

def TIMERN_COMPARATOR_VALUE_REG (n : ℕ) : ℕ := 0x108+0x20*n

/-- The timer structure; `flags` is its first word. -/
structure HPETtimer where
  flags : ℕ
  frequency : ℕ
  regtable : ℕ

/-- The timer structure and the words of memory. -/
structure Hpet where
  timer : HPETtimer
  memory : ℕ → ℕ

/-- What `HPET_init` stores in the timer structure, `none` for a division by zero. -/
def HPET_init_timer (regtable cap minimum_tick : ℕ) : Option HPETtimer :=
  if cap >>> 32 = 0 then none
  else
    let frequency := ONE_OVER_FEMTOSECOND/(cap >>> 32)
    let timers := 1+((cap >>> 8) &&& 0x1f)
    let mcount64 := (cap >>> 13) &&& 1
    let legacy_routable := (cap >>> 15) &&& 1
    some ⟨legacy_routable <<< 2 ||| mcount64 <<< 3 ||| timers <<< 8 ||| minimum_tick <<< 16,
      frequency, regtable⟩

def hpet_write_reg (reg_base offset data : ℕ) (s : Hpet) : Hpet :=
  { s with memory := Function.update s.memory (reg_base+offset) data }

def hpetEnable (s : Hpet) : Hpet :=
  let cfg := (s.timer.flags &&& 0x2) ||| 1
  let s := hpet_write_reg s.timer.regtable HPET_CONFIG_REG cfg s
  { s with timer.flags := s.timer.flags ||| 1 }

def hpetDisable (s : Hpet) : Hpet :=
  let cfg := s.timer.flags &&& 0x2
  let s := hpet_write_reg s.timer.regtable HPET_CONFIG_REG cfg s
  { s with timer.flags := s.timer.flags &&& (2^64-2) }

/-- The part that the four functions share, `none` for a division by zero. -/
def prepare (toFemto duration : ℕ) (s : Hpet) : Option Hpet :=
  let s := hpetDisable s
  let duration := duration*(CONSTANT_JUST_WORKS*toFemto) % 2^64
  if s.timer.frequency = 0 then none
  else
    let duration := duration/s.timer.frequency
    let s := hpet_write_reg s.timer.regtable HPET_MAIN_COUNT_VAL_REG 0 s
    some (hpet_write_reg s.timer.regtable (TIMERN_COMPARATOR_VALUE_REG 0) duration s)

def hpet_timer_prepmill (milliseconds : ℕ) (s : Hpet) : Option Hpet :=
  prepare MILLI_TO_FEMTO milliseconds s

def hpet_timer_prepnano (nanoseconds : ℕ) (s : Hpet) : Option Hpet :=
  prepare NANO_TO_FEMTO nanoseconds s

/-- Up to the wait for the interrupt. -/
def hcount (milliseconds : ℕ) (s : Hpet) : Option Hpet :=
  (prepare MILLI_TO_FEMTO milliseconds s).map hpetEnable

/-- Up to the wait for the interrupt. -/
def hcountns (nanoseconds : ℕ) (s : Hpet) : Option Hpet :=
  (prepare NANO_TO_FEMTO nanoseconds s).map hpetEnable

/-- The functions that program a delay. -/
inductive Delay
  | hcount
  | hcountns
  | prepmill
  | prepnano

def Delay.run : Delay → ℕ → Hpet → Option Hpet
  | .hcount => Timer.hcount
  | .hcountns => Timer.hcountns
  | .prepmill => hpet_timer_prepmill
  | .prepnano => hpet_timer_prepnano

/-- The femtoseconds in the unit of the argument. -/
def Delay.unit : Delay → ℕ
  | .hcount => 10^12
  | .hcountns => 10^6
  | .prepmill => 10^12
  | .prepnano => 10^6

/-- The comparator of the first timer. -/
def Hpet.comparator (s : Hpet) : ℕ :=
  s.memory (s.timer.regtable+TIMERN_COMPARATOR_VALUE_REG 0)

/-- The delay is programmed without overflow, to at most one tick from its exact length. -/
structure Programs (r : Delay) (P duration : ℕ) (s : Hpet) : Prop where
  no_overflow : duration*(CONSTANT_JUST_WORKS*r.unit) < 2^64
  ticks : ∃ s', r.run duration s = some s' ∧
    |(s'.comparator : ℚ)-((duration*r.unit : ℕ) : ℚ)/P| ≤ 1

/-- The duration of `D` femtoseconds fits, and its ticks times the difference of the stored
frequency and ten times the period stay within the last ticks. -/
structure WithinTick (P D : ℕ) : Prop where
  fits : 10*D < 2^64
  fast : ((D/P : ℕ) : ℤ)*(10*P-(10^15/P : ℕ))+10*(D%P : ℕ) < 2*(10^15/P : ℕ)
  slow : ((D/P : ℕ) : ℤ)*((10^15/P : ℕ)-10*P) ≤
    if D%P = 0 then ((10^15/P : ℕ) : ℤ) else 10*(D%P : ℕ)

section Ticks

variable {P D f c : ℕ}

theorem tick_iff (hP : 0 < P) : |(c : ℚ)-(D : ℚ)/P| ≤ 1 ↔ c*P ≤ D+P ∧ D ≤ c*P+P := by
  have hpos : (0 : ℚ) < P := by exact_mod_cast hP
  rw [abs_le]
  constructor
  · rintro ⟨hlow, hhigh⟩
    have h1 : (D : ℚ)/P ≤ c+1 := by linarith
    have h2 : (c : ℚ)-1 ≤ (D : ℚ)/P := by linarith
    rw [div_le_iff₀ hpos] at h1
    rw [le_div_iff₀ hpos] at h2
    have h1' : (D : ℚ) ≤ ((c*P+P : ℕ) : ℚ) := by push_cast; linarith
    have h2' : ((c*P : ℕ) : ℚ) ≤ ((D+P : ℕ) : ℚ) := by push_cast; linarith
    exact ⟨by exact_mod_cast h2', by exact_mod_cast h1'⟩
  · rintro ⟨hlow, hhigh⟩
    have h1 : (c : ℚ)*P ≤ D+P := by exact_mod_cast hlow
    have h2 : (D : ℚ) ≤ c*P+P := by exact_mod_cast hhigh
    have h3 : (D : ℚ)/P ≤ c+1 := by rw [div_le_iff₀ hpos]; linarith
    have h4 : (c : ℚ)-1 ≤ (D : ℚ)/P := by rw [le_div_iff₀ hpos]; linarith
    exact ⟨by linarith, by linarith⟩

/-- The quotient of ten times `D` is not more than one tick too large. -/
theorem fast_iff (hP : 0 < P) (hf : 0 < f) :
    10*D/f*P ≤ D+P ↔ ((D/P : ℕ) : ℤ)*(10*P-f)+10*(D%P : ℕ) < 2*f := by
  have hD : D/P*P+D%P = D := Nat.div_add_mod' D P
  have hr : D%P < P := Nat.mod_lt D hP
  generalize D/P = q at *
  generalize D%P = r at *
  have hle : 10*D/f*P ≤ D+P ↔ 10*D/f < q+2 := by
    constructor
    · intro h
      by_contra hge
      have hmul : (q+2)*P ≤ 10*D/f*P := Nat.mul_le_mul_right P (by omega)
      rw [Nat.add_mul] at hmul
      omega
    · intro h
      have hmul : 10*D/f*P ≤ (q+1)*P := Nat.mul_le_mul_right P (by omega)
      rw [Nat.add_mul] at hmul
      omega
  rw [hle, Nat.div_lt_iff_lt_mul hf]
  zify
  constructor
  · intro h
    have hz : (D : ℤ) = q*P+r := by exact_mod_cast hD.symm
    rw [hz] at h
    linarith
  · intro h
    have hz : (D : ℤ) = q*P+r := by exact_mod_cast hD.symm
    rw [hz]
    linarith

/-- The quotient of ten times `D` is not more than one tick too small. -/
theorem slow_iff (hP : 0 < P) (hf : 0 < f) :
    D ≤ 10*D/f*P+P ↔ ((D/P : ℕ) : ℤ)*(f-10*P) ≤
      if D%P = 0 then (f : ℤ) else 10*(D%P : ℕ) := by
  have hD : D/P*P+D%P = D := Nat.div_add_mod' D P
  have hr : D%P < P := Nat.mod_lt D hP
  generalize D/P = q at *
  generalize D%P = r at *
  have hz : (D : ℤ) = q*P+r := by exact_mod_cast hD.symm
  by_cases h0 : r = 0
  · have hle : D ≤ 10*D/f*P+P ↔ q ≤ 10*D/f+1 := by
      rw [← hD, h0, Nat.add_zero, ← Nat.succ_mul]
      exact Nat.mul_le_mul_right_iff hP
    rw [hle, ← Nat.add_div_right _ hf, Nat.le_div_iff_mul_le hf, if_pos h0]
    zify
    rw [hz, h0]
    constructor
    · intro h
      push_cast at h
      linarith
    · intro h
      push_cast
      linarith
  · have hle : D ≤ 10*D/f*P+P ↔ q ≤ 10*D/f := by
      constructor
      · intro h
        by_contra hlt
        have hmul : (10*D/f+1)*P ≤ q*P := Nat.mul_le_mul_right P (by omega)
        rw [Nat.succ_mul] at hmul
        omega
      · intro h
        have hmul : q*P ≤ 10*D/f*P := Nat.mul_le_mul_right P h
        omega
    rw [hle, Nat.le_div_iff_mul_le hf, if_neg h0]
    zify
    rw [hz]
    constructor
    · intro h
      linarith
    · intro h
      linarith

end Ticks

section Delays

variable {r : Delay} {P d regtable cap minimum_tick : ℕ} {s : Hpet}

/-- What the four functions program. -/
theorem run_comparator (hf : s.timer.frequency ≠ 0) : ∃ s', r.run d s = some s' ∧
    s'.comparator = d*(CONSTANT_JUST_WORKS*r.unit) % 2^64/s.timer.frequency := by
  have hprep : ∀ toFemto, ∃ s', prepare toFemto d s = some s' ∧ s'.comparator =
      d*(CONSTANT_JUST_WORKS*toFemto) % 2^64/s.timer.frequency ∧
      (hpetEnable s').comparator = s'.comparator := by
    intro toFemto
    have henable : ∀ s : Hpet, (hpetEnable s).comparator = s.comparator := by
      intro s
      have hne : s.timer.regtable+TIMERN_COMPARATOR_VALUE_REG 0 ≠
          s.timer.regtable+HPET_CONFIG_REG := by
        rw [TIMERN_COMPARATOR_VALUE_REG, HPET_CONFIG_REG]
        omega
      exact Function.update_of_ne hne _ _
    exact ⟨_, if_neg hf, Function.update_self _ _ _, henable _⟩
  obtain ⟨s₁, hmilli, hc₁, he₁⟩ := hprep MILLI_TO_FEMTO
  obtain ⟨s₂, hnano, hc₂, he₂⟩ := hprep NANO_TO_FEMTO
  cases r with
  | hcount => exact ⟨hpetEnable s₁, congrArg (Option.map hpetEnable) hmilli, he₁.trans hc₁⟩
  | hcountns => exact ⟨hpetEnable s₂, congrArg (Option.map hpetEnable) hnano, he₂.trans hc₂⟩
  | prepmill => exact ⟨s₁, hmilli, hc₁⟩
  | prepnano => exact ⟨s₂, hnano, hc₂⟩

/-- The stored frequency is not zero for the periods that a timer can have. -/
theorem frequency_eq (hP : 1 ≤ cap >>> 32 ∧ cap >>> 32 ≤ 10^8)
    (ht : HPET_init_timer regtable cap minimum_tick = some s.timer) :
    s.timer.frequency = 10^15/(cap >>> 32) ∧ 0 < 10^15/(cap >>> 32) := by
  rw [HPET_init_timer, if_neg (by omega)] at ht
  refine ⟨?_, Nat.div_pos (by omega) (by omega)⟩
  rw [← Option.some.inj ht]
  rfl

/-- A delay is right exactly where it fits and is short against the difference of the stored
frequency and ten times the period. -/
theorem programs_iff (hP : 1 ≤ cap >>> 32 ∧ cap >>> 32 ≤ 10^8)
    (ht : HPET_init_timer regtable cap minimum_tick = some s.timer) :
    Programs r (cap >>> 32) d s ↔ WithinTick (cap >>> 32) (d*r.unit) := by
  obtain ⟨hfreq, hpos⟩ := frequency_eq hP ht
  obtain ⟨s', hrun, hcomp⟩ := @run_comparator r d s (by omega)
  have hten : d*(CONSTANT_JUST_WORKS*r.unit) = 10*(d*r.unit) := by
    rw [CONSTANT_JUST_WORKS]
    ring
  have hticks : 10*(d*r.unit) < 2^64 → ((∃ s', r.run d s = some s' ∧
      |(s'.comparator : ℚ)-((d*r.unit : ℕ) : ℚ)/(cap >>> 32 : ℕ)| ≤ 1) ↔
        10*(d*r.unit)/(10^15/(cap >>> 32))*(cap >>> 32) ≤ d*r.unit+(cap >>> 32) ∧
          d*r.unit ≤ 10*(d*r.unit)/(10^15/(cap >>> 32))*(cap >>> 32)+(cap >>> 32)) := by
    intro hfits
    rw [hten, Nat.mod_eq_of_lt hfits, hfreq] at hcomp
    rw [← tick_iff (by omega), ← hcomp]
    constructor
    · rintro ⟨s'', hrun', htick⟩
      obtain rfl : s' = s'' := Option.some.inj (hrun.symm.trans hrun')
      exact htick
    · exact fun h => ⟨s', hrun, h⟩
  constructor
  · rintro ⟨hfits, hrun'⟩
    rw [hten] at hfits
    obtain ⟨hfast, hslow⟩ := (hticks hfits).mp hrun'
    exact ⟨hfits, (fast_iff (by omega) hpos).mp hfast, (slow_iff (by omega) hpos).mp hslow⟩
  · rintro ⟨hfits, hfast, hslow⟩
    refine ⟨by rwa [hten], (hticks hfits).mpr ⟨(fast_iff (by omega) hpos).mpr hfast,
      (slow_iff (by omega) hpos).mpr hslow⟩⟩

/-- One millisecond on a timer of 14318180 Hz, programmed as 698412 ticks instead of 14318. -/
theorem programs_millisecond :
    ∃ t, HPET_init_timer 0 (69841279 <<< 32) 0 = some t ∧ 10*(1*Delay.hcount.unit) < 2^64 ∧
      ¬ Programs .hcount 69841279 1 ⟨t, fun _ => 0⟩ := by
  refine ⟨_, rfl, by decide, ?_⟩
  rintro ⟨-, s', hrun, htick⟩
  obtain rfl := Option.some.inj hrun
  rw [tick_iff (by decide)] at htick
  exact absurd htick.1 (by decide)

theorem programs_qemu :
    Programs .hcount ((10^7 <<< 32) >>> 32) 1 ⟨⟨256, 10^8, 0⟩, fun _ => 0⟩ := by
  have ht : HPET_init_timer 0 (10^7 <<< 32) 0 = some ⟨256, 10^8, 0⟩ := rfl
  exact (programs_iff (by decide) ht).mpr ⟨by decide, by decide, by decide⟩

/-- All durations that fit are right on a timer of 100 MHz and on no other. -/
theorem programs_all_iff (hP : 1 ≤ cap >>> 32 ∧ cap >>> 32 ≤ 10^8)
    (ht : HPET_init_timer regtable cap minimum_tick = some s.timer) :
    (∀ r d, 10*(d*Delay.unit r) < 2^64 → Programs r (cap >>> 32) d s) ↔ cap >>> 32 = 10^7 := by
  simp only [programs_iff hP ht]
  obtain ⟨-, hpos⟩ := frequency_eq hP ht
  generalize cap >>> 32 = P at hP hpos ⊢
  constructor
  · intro h
    -- 100 seconds are so many ticks that a difference of one makes them wrong
    have hlong := h .hcountns (10^11) (by decide)
    have hD : 10^11*Delay.hcountns.unit = 10^17 := by decide
    rw [hD] at hlong
    obtain ⟨-, hfast, hslow⟩ := hlong
    have hq : 100*(10^15/P) ≤ 10^17/P := by
      rw [Nat.le_div_iff_mul_le (by omega), Nat.mul_assoc]
      have := Nat.div_mul_le_self (10^15) P
      omega
    have hr : 10^17%P < P := Nat.mod_lt _ (by omega)
    rcases Nat.lt_trichotomy P (10^7) with hlt | heq | hgt
    · have hf : 10*P < 10^15/P := by
        rw [← Nat.succ_le_iff, Nat.le_div_iff_mul_le (by omega)]
        nlinarith
      generalize 10^15/P = f at *
      generalize 10^17/P = q at *
      have hmul : 100*f*1 ≤ q*(f-10*P) := Nat.mul_le_mul hq (by omega)
      zify [hf.le] at hmul
      split_ifs at hslow <;> omega
    · exact heq
    · have hf : 10^15/P < 10*P := by
        rw [Nat.div_lt_iff_lt_mul (by omega)]
        nlinarith
      generalize 10^15/P = f at *
      generalize 10^17/P = q at *
      have hmul : 100*f*1 ≤ q*(10*P-f) := Nat.mul_le_mul hq (by omega)
      zify [hf.le] at hmul
      omega
  · rintro rfl r d hfits
    have hf : 10^15/10^7 = 10^8 := by decide
    have hr : d*r.unit%10^7 < 10^7 := Nat.mod_lt _ (by decide)
    refine ⟨hfits, ?_, ?_⟩
    · rw [hf]
      push_cast
      omega
    · rw [hf]
      push_cast
      split_ifs <;> omega

end Delays

end BruhOS.Timer
