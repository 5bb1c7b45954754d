import Mathlib.Data.Nat.Bitwise
import Mathlib.Data.Nat.Log
import Mathlib.Tactic

/-!
# Integer rounding of the kernel library

`round2` works on 64-bit words and smears the highest set bit downwards with
six shifts. The shifts are not taken in increasing order; the window of bits
each stage has collected is therefore kept as an explicit list of offsets.
The integer logarithm enters the allocators as a parameter, and its documented
meaning is a hypothesis of the results that need it. The one of the library
counts leading zeros and subtracts them from the width of the word.
-/

set_option autoImplicit false

namespace BruhOS.StdMath

/-- The 64-bit decrement and increment wrap. -/
def round2 (n : ℕ) : ℕ :=
  let n := (n+(2^64-1))%2^64
  let n := n ||| n >>> 1
  let n := n ||| n >>> 4
  let n := n ||| n >>> 8
  let n := n ||| n >>> 2
  let n := n ||| n >>> 16
  let n := n ||| n >>> 32
  (n+1)%2^64

/-- The documented integer logarithm of a non-zero 32-bit word. -/
def Log2Contract (log2ui : ℕ → ℕ) : Prop :=
  ∀ x, 0 < x → x < 2^32 → log2ui x = Nat.log2 x

theorem log2_contract : Log2Contract Nat.log2 := fun _ _ _ => rfl

/-- Bit `i` of `m` collects the bits of `n` at the offsets `W` above `i`. -/
def Smeared (n m : ℕ) (W : List ℕ) : Prop :=
  ∀ i, m.testBit i = true ↔ ∃ s ∈ W, n.testBit (i+s) = true

theorem smeared_refl (n : ℕ) : Smeared n n [0] := by
  intro i
  simp

theorem smeared_shift (n m k : ℕ) (W : List ℕ) (h : Smeared n m W) :
    Smeared n (m ||| m >>> k) (W++W.map (·+k)) := by
  intro i
  have hk : ∀ s, n.testBit (i+(s+k)) = n.testBit (k+i+s) := by
    intro s
    congr 1
    omega
  simp only [Nat.testBit_or, Nat.testBit_shiftRight, Bool.or_eq_true, h i, h (k+i),
    List.mem_append, List.mem_map]
  constructor
  · rintro (⟨s, hs, hb⟩ | ⟨s, hs, hb⟩)
    · exact ⟨s, Or.inl hs, hb⟩
    · exact ⟨s+k, Or.inr ⟨s, hs, rfl⟩, (hk s).trans hb⟩
  · rintro ⟨t, hs | ⟨s, hs, rfl⟩, hb⟩
    · exact Or.inl ⟨t, hs, hb⟩
    · exact Or.inr ⟨s, hs, (hk s).symm.trans hb⟩

/-- The offsets collected by the shifts in the order of the source. -/
def window : List ℕ :=
  [1, 4, 8, 2, 16, 32].foldl (fun W k => W++W.map (·+k)) [0]

theorem mem_window (s : ℕ) : s ∈ window ↔ s < 64 := by
  have hall : ∀ s ∈ window, s < 64 := by decide +kernel
  have hmem : ∀ s < 64, s ∈ window := by decide +kernel
  exact ⟨hall s, hmem s⟩

theorem smeared_full (n m : ℕ) (hn : 0 < n) (hlt : n < 2^64) (h : Smeared n m window) :
    m = 2^(Nat.log2 n+1)-1 := by
  have hlog : Nat.log2 n < 64 := (Nat.log2_lt (by omega)).mpr hlt
  apply Nat.eq_of_testBit_eq
  intro i
  rw [Bool.eq_iff_iff, h i, Nat.testBit_two_pow_sub_one, decide_eq_true_iff]
  constructor
  · rintro ⟨s, -, hb⟩
    have hle : 2^(i+s) ≤ n := Nat.ge_two_pow_of_testBit hb
    have := (Nat.le_log2 (by omega)).mpr hle
    omega
  · intro hi
    refine ⟨Nat.log2 n-i, (mem_window _).mpr (by omega), ?_⟩
    rw [show i+(Nat.log2 n-i) = Nat.log2 n by omega]
    exact Nat.testBit_log2 (by omega)

theorem smear_stages (n : ℕ) (hn : 0 < n) (hlt : n < 2^64) :
    (let n1 := n ||| n >>> 1
     let n2 := n1 ||| n1 >>> 4
     let n3 := n2 ||| n2 >>> 8
     let n4 := n3 ||| n3 >>> 2
     let n5 := n4 ||| n4 >>> 16
     n5 ||| n5 >>> 32) = 2^(Nat.log2 n+1)-1 := by
  refine smeared_full n _ hn hlt ?_
  exact smeared_shift _ _ 32 _ <| smeared_shift _ _ 16 _ <| smeared_shift _ _ 2 _ <|
    smeared_shift _ _ 8 _ <| smeared_shift _ _ 4 _ <| smeared_shift _ _ 1 _ <| smeared_refl n

theorem round2_zero : round2 0 = 0 := by decide

theorem clog_eq_log2_pred (n : ℕ) (h : 1 < n) : Nat.clog 2 n = Nat.log2 (n-1)+1 := by
  have hlo := Nat.log2_self_le (n := n-1) (by omega)
  have hhi := Nat.lt_log2_self (n := n-1)
  apply le_antisymm
  · rw [Nat.clog_le_iff_le_pow (by decide)]
    omega
  · rw [Nat.succ_le_iff, Nat.lt_clog_iff_pow_lt (by decide)]
    omega

/-- Up to `2^63` the result is the least power of two that is not smaller. -/
theorem round2_eq_clog (n : ℕ) (hn : 0 < n) (hle : n ≤ 2^63) : round2 n = 2^(Nat.clog 2 n) := by
  obtain rfl | h1 : n = 1 ∨ 1 < n := by omega
  · decide
  have hdec : (n+(2^64-1))%2^64 = n-1 := by omega
  have hst := smear_stages (n-1) (by omega) (by omega)
  have hlog : Nat.log2 (n-1) < 63 := (Nat.log2_lt (by omega)).mpr (by omega)
  have hpow : 2^(Nat.log2 (n-1)+1) < 2^64 := Nat.pow_lt_pow_right (by decide) (by omega)
  have hpos : 0 < 2^(Nat.log2 (n-1)+1) := by positivity
  simp only [round2, hdec]
  simp only at hst
  rw [hst, clog_eq_log2_pred n h1]
  omega

theorem round2_isLeast (n : ℕ) (hn : 1 ≤ n) (hle : n ≤ 2^63) :
    IsLeast {p | (∃ k, p = 2^k) ∧ n ≤ p} (round2 n) := by
  rw [round2_eq_clog n hn hle]
  refine ⟨⟨⟨_, rfl⟩, Nat.le_pow_clog (by decide) n⟩, ?_⟩
  rintro p ⟨⟨k, rfl⟩, hk⟩
  exact Nat.pow_le_pow_right (by decide) ((Nat.clog_le_iff_le_pow (by decide)).mpr hk)

/-- Above `2^63` all bits of the word are smeared, and the increment wraps. -/
theorem round2_overflow (n : ℕ) (hn : 2^63 < n) (hlt : n < 2^64) : round2 n = 0 := by
  have hdec : (n+(2^64-1))%2^64 = n-1 := by omega
  have hst := smear_stages (n-1) (by omega) (by omega)
  have hlog : Nat.log2 (n-1) = 63 := by
    apply le_antisymm
    · exact Nat.le_of_lt_succ ((Nat.log2_lt (by omega)).mpr (by omega))
    · exact (Nat.le_log2 (by omega)).mpr (by omega)
  rw [hlog] at hst
  simp only [round2, hdec]
  simp only at hst
  rw [hst]
  decide

/-- The power of two below a word that is not one. -/
def ppow2 (n : ℕ) : ℕ := round2 n >>> 1

theorem ppow2_eq (M K : ℕ) (hM : M ≤ 62) (hK : 0 < K) (hlt : K < 2^M) :
    ppow2 (2^M+K) = 2^M := by
  have hpow : 2^M ≤ 2^62 := Nat.pow_le_pow_right (by decide) hM
  have hclog : Nat.clog 2 (2^M+K) = M+1 := by
    apply le_antisymm
    · rw [Nat.clog_le_iff_le_pow (by decide), Nat.pow_succ]
      omega
    · rw [Nat.succ_le_iff, Nat.lt_clog_iff_pow_lt (by decide)]
      omega
  rw [ppow2, round2_eq_clog _ (by omega) (by omega), hclog, Nat.shiftRight_one, Nat.pow_succ]
  omega

/-- Rounding up to a power of two on all 64-bit words, and down next to it. -/
theorem round2_ceiling :
    (∀ n, 1 ≤ n → n ≤ 2^63 → IsLeast {p | (∃ k, p = 2^k) ∧ n ≤ p} (round2 n)) ∧
    round2 0 = 0 ∧ (∀ n, 2^63 < n → n < 2^64 → round2 n = 0) ∧
    ∀ M K, M ≤ 62 → 0 < K → K < 2^M → ppow2 (2^M+K) = 2^M :=
  ⟨round2_isLeast, round2_zero, round2_overflow, ppow2_eq⟩

theorem round2_ceiling_twelve : ppow2 (2^3+4) = 2^3 :=
  round2_ceiling.2.2.2 3 4 (by decide) (by decide) (by decide)

/-- The page count after the rounding every allocator starts with. -/
def pageCount (count : ℕ) : ℕ := round2 count%2^32

/-- A request is rounded up to a power of two, or is refused as zero. -/
theorem pageCount_cases (count : ℕ) (h : count < 2^32) :
    pageCount count = 0 ∨ (0 < count ∧ count ≤ 2^31 ∧
      pageCount count = 2^(Nat.clog 2 count) ∧ Nat.clog 2 count ≤ 31) := by
  rcases Nat.eq_zero_or_pos count with rfl | hpos
  · left
    decide
  have hr := round2_eq_clog count hpos (by omega)
  by_cases hle : count ≤ 2^31
  · right
    have hc : Nat.clog 2 count ≤ 31 := (Nat.clog_le_iff_le_pow (by decide)).mpr hle
    have hp : 2^(Nat.clog 2 count) < 2^32 := Nat.pow_lt_pow_right (by decide) (by omega)
    exact ⟨hpos, hle, by rw [pageCount, hr, Nat.mod_eq_of_lt hp], hc⟩
  · left
    have hlo : 31 < Nat.clog 2 count := (Nat.lt_clog_iff_pow_lt (by decide)).mpr (by omega)
    have hhi : Nat.clog 2 count ≤ 32 := (Nat.clog_le_iff_le_pow (by decide)).mpr (by omega)
    have hc : Nat.clog 2 count = 32 := by omega
    rw [pageCount, hr, hc, Nat.mod_self]

theorem pageCount_of_le {count : ℕ} (h1 : 1 ≤ count) (h2 : count ≤ 2^16) :
    pageCount count = 2^Nat.clog 2 count ∧ round2 count = 2^Nat.clog 2 count ∧
      Nat.clog 2 count ≤ 16 := by
  have hc : Nat.clog 2 count ≤ 16 := (Nat.clog_le_iff_le_pow (by decide)).mpr h2
  have hr := round2_eq_clog count h1 (by omega)
  have hp : 2^Nat.clog 2 count < 2^32 := Nat.pow_lt_pow_right (by decide) (by omega)
  exact ⟨by rw [pageCount, hr, Nat.mod_eq_of_lt hp], hr, hc⟩

/-- Leading zeros of a word of `w` bits. -/
def clz : ℕ → ℕ → ℕ
  | 0, _ => 0
  | w+1, x => if x.testBit w then 0 else clz w x+1

def log2ui (bits : ℕ) : ℕ := (32+(2^32-clz 32 bits))%2^32

def log2ul (bits : ℕ) : ℕ := (64+(2^64-clz 64 bits))%2^64

theorem clz_eq (w x : ℕ) (h0 : 0 < x) (h : x < 2^w) : clz w x+Nat.log2 x+1 = w := by
  induction w with
  | zero => omega
  | succ w ih =>
    rw [clz]
    by_cases hb : x.testBit w = true
    · rw [if_pos hb]
      have hle := (Nat.le_log2 (by omega)).mpr (Nat.ge_two_pow_of_testBit hb)
      have hlt := (Nat.log2_lt (by omega)).mpr h
      omega
    · rw [if_neg hb]
      have hlt : x < 2^w := by
        by_contra hge
        apply hb
        have hlog : Nat.log2 x = w := by
          have := (Nat.log2_lt (by omega)).mpr h
          have := (Nat.le_log2 (by omega)).mpr (not_lt.mp hge)
          omega
        rw [← hlog]
        exact Nat.testBit_log2 (by omega)
      have := ih hlt
      omega

/-- The width minus the leading zeros is the number of bits, one more than the logarithm. -/
theorem log2ui_eq (x : ℕ) (h0 : 0 < x) (h : x < 2^32) : log2ui x = Nat.log2 x+1 := by
  have := clz_eq 32 x h0 h
  rw [log2ui]
  omega

theorem log2ul_eq (x : ℕ) (h0 : 0 < x) (h : x < 2^64) : log2ul x = Nat.log2 x+1 := by
  have := clz_eq 64 x h0 h
  rw [log2ul]
  omega

end BruhOS.StdMath
