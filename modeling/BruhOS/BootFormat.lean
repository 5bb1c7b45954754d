import BruhOS.TextBuffer

/-!
# Number formatting of the bootloader

The bootloader formats forwards: the digits are counted, zeros are written up
to a fixed width where there is one, the digits are placed from the end of
that width, and a NUL follows. Counters are 32 bits wide. Binary numbers are
counted and divided as signed 64-bit words, so that those with the top bit set
have no digits at all.
-/

set_option autoImplicit false

namespace BruhOS.BootPrint

open BruhOS.TextBuffer

/-- The length of the static buffers of `vprintf`. -/
def formatbufsize : ℕ := 512

/-- `for(; num > 0; num /= digitBase, ++digitCount) {}`. -/
def countDigits (R : Radix) (num : ℤ) (digitCount : ℕ) : ℕ :=
  if h : 0 < num then countDigits R (num.tdiv R.base) (digitCount+1) else digitCount
termination_by num.natAbs
decreasing_by
  rw [Int.natAbs_tdiv]
  exact Nat.div_lt_self (Int.natAbs_pos.mpr h.ne') R.base_pos

/-- `--tmp` on 32 bits. -/
def dec (tmp : ℕ) : ℕ := (tmp+(2^32-1)) % 2^32

/-- `for(; num > 0; num /= digitBase) { buffer[tmp] = Representation[num % digitBase]; --tmp; }`. -/
def digitsFrom (R : Radix) (buffer : ℤ) (num : ℤ) (tmp : ℕ) (b : Buffer) : Option Buffer :=
  if _h : 0 < num then do
    let c ← R.digit (num.tmod R.base)
    let b ← store formatbufsize b (buffer+tmp) c
    digitsFrom R buffer (num.tdiv R.base) (dec tmp) b
  else some b
termination_by num.natAbs
decreasing_by
  rw [Int.natAbs_tdiv]
  exact Nat.div_lt_self (Int.natAbs_pos.mpr _h.ne') R.base_pos

/-- `for(; num > 0; num /= digitBase) { --tmp; buffer[tmp] = Representation[num % digitBase]; }`. -/
def digitsBelow (R : Radix) (buffer : ℤ) (num : ℤ) (tmp : ℕ) (b : Buffer) : Option Buffer :=
  if _h : 0 < num then do
    let c ← R.digit (num.tmod R.base)
    let b ← store formatbufsize b (buffer+dec tmp) c
    digitsBelow R buffer (num.tdiv R.base) (dec tmp) b
  else some b
termination_by num.natAbs
decreasing_by
  rw [Int.natAbs_tdiv]
  exact Nat.div_lt_self (Int.natAbs_pos.mpr _h.ne') R.base_pos

section Code

/-- The buffer afterwards and the pointer returned, none for the null pointer. -/
abbrev Answer := Buffer × Option ℤ

def formatd (value size : ℕ) (neg : Bool) (buffer : ℤ) (b : Buffer) : Option Answer :=
  if value = 0 then do
    let b ← store formatbufsize b buffer '0'.toNat
    let b ← store formatbufsize b (buffer+1) 0
    some (b, some buffer)
  else do
    let b ← store formatbufsize b buffer (if neg then '-'.toNat else '+'.toNat)
    let digitCount := countDigits decimal value 0
    if digitCount > size then some (b, none) else do
      let b ← digitsFrom decimal buffer value digitCount b
      let b ← store formatbufsize b (buffer+(digitCount+1)) 0
      some (b, some buffer)

def formatu (value size : ℕ) (buffer : ℤ) (b : Buffer) : Option Answer :=
  formatd value size false buffer b

/-- The product is one of 64-bit words, converted to an unsigned one. -/
def formatl (value : ℤ) (size : ℕ) (buffer : ℤ) (b : Buffer) : Option Answer :=
  let ltz := decide (value < 0)
  formatd ((value*if ltz then -1 else 1) % 2^64).toNat size ltz buffer b

def formatul (value size : ℕ) (buffer : ℤ) (b : Buffer) : Option Answer :=
  formatd value size false buffer b

def formatx (value size : ℕ) (is64 uselower : Bool) (buffer : ℤ) (b : Buffer) : Option Answer := do
  let R := if uselower then hexLower else hexadecimal
  let totalDigits := if is64 then 16 else 8
  let start := if value = 0 then store formatbufsize b buffer '0'.toNat else some b
  let b ← start
  let digitCount := countDigits R value 0
  if digitCount > size then some (b, none) else do
    let b ← fillUp formatbufsize '0'.toNat (totalDigits-digitCount) buffer b
    let b ← digitsBelow R buffer value totalDigits b
    let b ← store formatbufsize b (buffer+totalDigits) 0
    some (b, some buffer)

def formatp (value size : ℕ) (buffer : ℤ) (b : Buffer) : Option Answer :=
  if size < 2 then some (b, none) else do
    let b ← store formatbufsize b buffer '0'.toNat
    let b ← store formatbufsize b (buffer+1) 'x'.toNat
    let r ← formatx value (size-2) true true (buffer+2) b
    some (r.1, some buffer)

/-- `value` is read as a signed word by the two loops over its digits. -/
def formatb (value size amountOfBits : ℕ) (buffer : ℤ) (b : Buffer) : Option Answer :=
  if amountOfBits+2 > size then some (b, none) else do
    let totalDigits := amountOfBits+2
    let b ← store formatbufsize b buffer '0'.toNat
    let b ← store formatbufsize b (buffer+1) 'b'.toNat
    let num := (value : ℤ).bmod (2^64)
    let digitCount := countDigits binary num 0
    let b ← fillUp formatbufsize '0'.toNat (totalDigits-digitCount) (buffer+2) b
    let b ← digitsBelow binary buffer num totalDigits b
    let b ← store formatbufsize b (buffer+totalDigits) 0
    some (b, some buffer)

end Code

/-- The functions that format an argument, by name. -/
inductive Formatter where
  | l
  | u
  | ul
  | x (is64 uselower : Bool)
  | p
  | b (is64 : Bool)
  deriving DecidableEq, Repr

namespace Formatter

/-- A call with the whole buffer. -/
def format : Formatter → ℤ → Buffer → Option Answer
  | l, value => formatl value formatbufsize 0
  | u, value => formatu value.toNat formatbufsize 0
  | ul, value => formatul value.toNat formatbufsize 0
  | x is64 uselower, value => formatx value.toNat formatbufsize is64 uselower 0
  | p, value => formatp value.toNat formatbufsize 0
  | b is64, value => formatb value.toNat formatbufsize (if is64 then 64 else 32) 0

/-- The values of the argument type; binary numbers have as many bits as are shown. -/
def InRange : Formatter → ℤ → Prop
  | l, value => -2^63 ≤ value ∧ value < 2^63
  | u, value => 0 ≤ value ∧ value < 2^32
  | b false, value => 0 ≤ value ∧ value < 2^32
  | _, value => 0 ≤ value ∧ value < 2^64

instance : ∀ F v, Decidable (InRange F v)
  | l, _ => inferInstanceAs (Decidable (_ ∧ _))
  | u, _ => inferInstanceAs (Decidable (_ ∧ _))
  | ul, _ => inferInstanceAs (Decidable (_ ∧ _))
  | x _ _, _ => inferInstanceAs (Decidable (_ ∧ _))
  | p, _ => inferInstanceAs (Decidable (_ ∧ _))
  | b false, _ => inferInstanceAs (Decidable (_ ∧ _))
  | b true, _ => inferInstanceAs (Decidable (_ ∧ _))

/-- The values that lose digits: eight hexadecimal digits for more than 32 bits, and a binary
number with the top bit set. -/
def Loses : Formatter → ℤ → Prop
  | x false _, value => 2^32 ≤ value
  | b true, value => 2^63 ≤ value
  | _, _ => False

end Formatter

/-- The number of an optional sign and some digits. -/
def readSigned : List ℕ → Option ℤ
  | [] => none
  | c::t =>
    if c = '-'.toNat then (decimal.read t).map (fun n : ℕ => -(n : ℤ))
    else if c = '+'.toNat then (decimal.read t).map (fun n : ℕ => (n : ℤ))
    else (decimal.read (c::t)).map (fun n : ℕ => (n : ℤ))

/-- The number of `width` digits. -/
def readFixed (R : Radix) (width : ℕ) (t : List ℕ) : Option ℤ :=
  if t.length = width then (R.read t).map (fun n : ℕ => (n : ℤ)) else none

/-- The number of `width` digits behind `'0'` and a letter. -/
def readAnnounced (R : Radix) (letter : Char) (width : ℕ) : List ℕ → Option ℤ
  | z::c::t => if z = '0'.toNat ∧ c = letter.toNat then readFixed R width t else none
  | _ => none

def Formatter.read : Formatter → List ℕ → Option ℤ
  | .l, t | .u, t | .ul, t => readSigned t
  | .x is64 uselower, t => readFixed (if uselower then hexLower else hexadecimal)
      (if is64 then 16 else 8) t
  | .p, t => readAnnounced hexLower 'x' 16 t
  | .b is64, t => readAnnounced binary 'b' (if is64 then 64 else 32) t

/-- Whatever the buffer holds, a call writes inside it, returns it, and leaves the text in front
of a NUL. -/
def Writes (f : Buffer → Option Answer) (t : List ℕ) : Prop :=
  ∀ b, ∃ b', f b = some (b', some 0) ∧ readText formatbufsize b' 0 = some t

/-- The text that a call leaves reads back as the value. -/
def Lossless (F : Formatter) (value : ℤ) : Prop :=
  ∃ t, Writes (F.format value) t ∧ F.read t = some value

section Loops

variable {R : Radix} {buffer e : ℤ} {b : Buffer}

theorem countDigits_eq (n digitCount : ℕ) :
    countDigits R n digitCount = digitCount+(R.text n).length := by
  induction n using Nat.strong_induction_on generalizing digitCount with
  | _ n ih =>
    rw [countDigits]
    by_cases hz : n = 0
    · subst hz
      rw [dif_neg (by decide), text_zero]
      rfl
    · have hpos : 0 < n := Nat.pos_of_ne_zero hz
      rw [dif_pos (by exact_mod_cast hpos), ← Int.ofNat_tdiv,
        ih _ (Nat.div_lt_self hpos R.base_pos), text_step hpos, List.length_append,
        List.length_singleton]
      omega

theorem countDigits_negative {num : ℤ} (h : num ≤ 0) (digitCount : ℕ) :
    countDigits R num digitCount = digitCount := by
  rw [countDigits, dif_neg (by omega)]

theorem dec_pos {tmp : ℕ} (h0 : 0 < tmp) (h : tmp < 2^32) : dec tmp = tmp-1 := by
  rw [dec]
  omega

/-- The digits of a number that has room below `tmp`. -/
theorem digitsFrom_place (n : ℕ) {t : List ℕ} {tmp : ℕ} (h0 : 0 ≤ buffer) (he : e ≤ formatbufsize)
    (hp : buffer+tmp = e-t.length-1) (hn : (R.text n).length ≤ tmp) (htmp : tmp < 2^32) :
    digitsFrom R buffer n tmp (place e b t) = some (place e b (R.text n++t)) := by
  induction n using Nat.strong_induction_on generalizing t tmp with
  | _ n ih =>
    rw [digitsFrom]
    by_cases hz : n = 0
    · subst hz
      rw [dif_neg (by decide), text_zero]
      rfl
    · have hpos : 0 < n := Nat.pos_of_ne_zero hz
      have hmod : n%R.base < R.base := Nat.mod_lt _ (by have := R.base_pos; omega)
      rw [text_step hpos, List.length_append, List.length_singleton] at hn
      rw [dif_pos (by exact_mod_cast hpos), ← Int.ofNat_tmod, ← Int.ofNat_tdiv, digit_of_lt hmod,
        Option.bind_eq_bind, Option.bind_some, store_place _ he hp (by omega), Option.bind_eq_bind,
        Option.bind_some, ih _ (Nat.div_lt_self hpos R.base_pos) _ _ _, text_step hpos,
        List.append_assoc, List.singleton_append]
      · rw [dec_pos (by omega) htmp, List.length_cons]
        omega
      · rw [dec_pos (by omega) htmp]
        omega
      · rw [dec_pos (by omega) htmp]
        omega

theorem digitsBelow_place (n : ℕ) {t : List ℕ} {tmp : ℕ} (h0 : 0 ≤ buffer)
    (he : e ≤ formatbufsize) (hp : buffer+tmp = e-t.length) (hn : (R.text n).length ≤ tmp)
    (htmp : tmp < 2^32) :
    digitsBelow R buffer n tmp (place e b t) = some (place e b (R.text n++t)) := by
  induction n using Nat.strong_induction_on generalizing t tmp with
  | _ n ih =>
    rw [digitsBelow]
    by_cases hz : n = 0
    · subst hz
      rw [dif_neg (by decide), text_zero]
      rfl
    · have hpos : 0 < n := Nat.pos_of_ne_zero hz
      have hmod : n%R.base < R.base := Nat.mod_lt _ (by have := R.base_pos; omega)
      rw [text_step hpos, List.length_append, List.length_singleton] at hn
      have hdec : dec tmp = tmp-1 := dec_pos (by omega) htmp
      rw [dif_pos (by exact_mod_cast hpos), ← Int.ofNat_tmod, ← Int.ofNat_tdiv, digit_of_lt hmod,
        Option.bind_eq_bind, Option.bind_some, hdec, store_place _ he (by omega) (by omega),
        Option.bind_eq_bind, Option.bind_some, ih _ (Nat.div_lt_self hpos R.base_pos) _ _ _,
        text_step hpos, List.append_assoc, List.singleton_append]
      · rw [List.length_cons]
        omega
      · omega
      · omega

/-- Without room the counter wraps and a write behind the buffer is refused. -/
theorem digitsBelow_wrap (n : ℕ) {tmp : ℕ} (htmp : tmp < 2^32) (hn : tmp < (R.text n).length)
    (b : Buffer) : digitsBelow R 0 n tmp b = none := by
  induction n using Nat.strong_induction_on generalizing tmp b with
  | _ n ih =>
    have hpos : 0 < n := by
      by_contra hz
      obtain rfl : n = 0 := by omega
      rw [text_zero] at hn
      exact absurd hn (Nat.not_lt_zero _)
    rw [text_step hpos, List.length_append, List.length_singleton] at hn
    rw [digitsBelow, dif_pos (by exact_mod_cast hpos), ← Int.ofNat_tdiv]
    cases hc : R.digit ((n : ℤ).tmod R.base) with
    | none => rfl
    | some c =>
      rw [Option.bind_eq_bind, Option.bind_some, Option.bind_eq_bind]
      by_cases hz : tmp = 0
      · subst hz
        rw [store, if_neg (by decide)]
        rfl
      · rw [dec_pos (by omega) htmp]
        cases hs : store formatbufsize b (0+(tmp-1 : ℕ)) c with
        | none => rfl
        | some b' =>
          rw [Option.bind_some]
          exact ih _ (Nat.div_lt_self hpos R.base_pos) (by omega) (by omega) b'

end Loops

section Texts

/-- Zeros in front of some digits, `width` characters together. -/
def fixed (width : ℕ) (t : List ℕ) : List ℕ := List.replicate (width-t.length) '0'.toNat++t

theorem fixed_length {width : ℕ} {t : List ℕ} (h : t.length ≤ width) :
    (fixed width t).length = width := by
  rw [fixed, List.length_append, List.length_replicate]
  omega

theorem fixed_nonzero {R : Radix} (width n : ℕ) : ∀ c ∈ fixed width (R.text n), c ≠ 0 := by
  intro c hc
  rcases List.mem_append.mp hc with hc | hc
  · rw [List.eq_of_mem_replicate hc]
    decide
  · exact text_nonzero n c hc

def textd (value : ℕ) (neg : Bool) : List ℕ :=
  if value = 0 then ['0'.toNat]
  else (if neg then '-'.toNat else '+'.toNat) :: decimal.text value

def textx (value : ℕ) (is64 uselower : Bool) : List ℕ :=
  fixed (if is64 then 16 else 8) ((if uselower then hexLower else hexadecimal).text value)

def textp (value : ℕ) : List ℕ := '0'.toNat :: 'x'.toNat :: textx value true true

/-- The digits of the signed word, none for a negative one. -/
def textb (value amountOfBits : ℕ) : List ℕ :=
  '0'.toNat :: 'b'.toNat :: fixed amountOfBits (binary.text ((value : ℤ).bmod (2^64)).toNat)

theorem formatd_writes {value size : ℕ} (neg : Bool) (hv : value < 2^64) (hsize : 20 ≤ size) :
    Writes (formatd value size neg 0) (textd value neg) := by
  intro b
  by_cases hz : value = 0
  · rw [formatd, if_pos hz, textd, if_pos hz]
    refine ⟨_, rfl, ?_⟩
    refine readText_agree (e := 1) (b := b) (by decide) le_rfl (by decide) (by decide) rfl ?_
    intro i h0 h1
    obtain rfl : i = 0 := by omega
    rfl
  · have hpos : 0 < value := Nat.pos_of_ne_zero hz
    have hlen : (decimal.text value).length ≤ 20 := text_length_le (hv.trans (by decide))
    have hcount := countDigits_eq (R := decimal) value 0
    rw [Nat.zero_add] at hcount
    have hsign : (if neg then '-'.toNat else '+'.toNat) ≠ 0 := by cases neg <;> decide
    rw [formatd, if_neg hz, textd, if_neg hz]
    generalize (if neg then '-'.toNat else '+'.toNat) = sign at hsign ⊢
    generalize hds : decimal.text value = ds at hlen hcount
    have hdigits : digitsFrom decimal 0 value ds.length
        (place (ds.length+1) (Function.update b 0 sign) []) =
          some (place (ds.length+1) (Function.update b 0 sign) (decimal.text value++[])) :=
      digitsFrom_place value le_rfl (by rw [formatbufsize]; omega) (by simp) (by rw [hds])
        (by omega)
    rw [place, hds, List.append_nil] at hdigits
    have hlast : (0 : ℤ)+((ds.length : ℤ)+1) = ds.length+1 := by omega
    rw [store, if_pos (by decide), Option.bind_eq_bind, Option.bind_some]
    dsimp only
    rw [hcount, if_neg (by omega), hdigits, Option.bind_some, store,
      if_pos (by rw [formatbufsize]; omega), hlast]
    refine ⟨_, rfl, readText_agree (e := ds.length+1) (b := b) (by rw [formatbufsize]; omega) le_rfl
      ?_ ?_ (Function.update_self _ _ _) ?_⟩
    · rw [List.length_cons]
      omega
    · intro c hc
      rcases List.mem_cons.mp hc with rfl | hc
      · exact hsign
      · rw [← hds] at hc
        exact text_nonzero value c hc
    · intro i h0 hi
      rw [Function.update_of_ne (by omega), place]
      by_cases hfirst : i = 0
      · subst hfirst
        have hoff : ((ds.length : ℤ)+1-ds.length-1) = 0 := by omega
        rw [place_below ds (by omega), Function.update_self, hoff, Function.update_self]
      · rw [Function.update_of_ne (by omega), place_inside _ b ds (by omega) hi]

/-- The three steps of a fixed width: zeros from `p` on, the digits up to the width, a NUL. -/
theorem fixed_steps {R : Radix} {value total o : ℕ} {buffer p : ℤ} (b : Buffer)
    (ho : o+(R.text value).length ≤ total) (h0 : 0 ≤ buffer) (hp : p = buffer+o)
    (hb : buffer+o+total < formatbufsize) :
    ∃ b₁ b₂ b', fillUp formatbufsize '0'.toNat (total-(R.text value).length) p b = some b₁ ∧
      digitsBelow R buffer value total b₁ = some b₂ ∧
      store formatbufsize b₂ (buffer+total) 0 = some b' ∧ b' (buffer+total) = 0 ∧
      (∀ i, i < p → b' i = b i) ∧ ∀ i, p ≤ i → i < buffer+total →
        b' i = place (buffer+total) b (fixed (total-o) (R.text value)) i := by
  rw [formatbufsize] at hb
  generalize hds : R.text value = ds at *
  have hfill : fillUp formatbufsize '0'.toNat (total-ds.length) p b = some _ :=
    fillUp_eq _ _ _ _ (by omega) (by rw [formatbufsize]; omega)
  generalize hb₁ : (fun i => if p ≤ i ∧ i < p+(total-ds.length : ℕ) then '0'.toNat else b i) = b₁
    at hfill
  have hdigits : digitsBelow R buffer value total (place (buffer+total) b₁ []) =
      some (place (buffer+total) b₁ (R.text value++[])) :=
    digitsBelow_place value h0 (by rw [formatbufsize]; omega) (by simp) (by rw [hds]; omega)
      (by omega)
  rw [place, hds, List.append_nil] at hdigits
  subst hb₁
  refine ⟨_, _, _, hfill, hdigits, if_pos (by rw [formatbufsize]; omega),
    Function.update_self _ _ _, ?_, ?_⟩
  · intro i hi
    rw [Function.update_of_ne (by omega), place_below ds (by omega), if_neg (by omega)]
  · intro i hlo hi
    rw [Function.update_of_ne (by omega), fixed]
    exact place_fill _ (total-o-ds.length) (total-ds.length) ds (by omega) (by omega) hlo hi

theorem formatx_steps {value size : ℕ} {is64 uselower : Bool} {buffer : ℤ}
    (hv : value < 2^(if is64 then 64 else 32)) (hsize : 16 ≤ size) (h0 : 0 ≤ buffer)
    (hb : buffer ≤ 2) (b : Buffer) : ∃ b', formatx value size is64 uselower buffer b =
        some (b', some buffer) ∧ b' (buffer+(if is64 then 16 else 8 : ℕ)) = 0 ∧
      (∀ i, i < buffer → b' i = b i) ∧
      ∀ i, buffer ≤ i → i < buffer+(if is64 then 16 else 8 : ℕ) → b' i =
        place (buffer+(if is64 then 16 else 8 : ℕ)) b (textx value is64 uselower) i := by
  have hlen : ((if uselower then hexLower else hexadecimal).text value).length ≤
      if is64 then 16 else 8 := by
    apply text_length_le
    cases is64 <;> cases uselower <;> exact hv.trans_eq (by decide)
  have hwidth : (if is64 then 16 else 8) ≤ 16 := by cases is64 <;> decide
  rw [formatx, textx]
  dsimp only
  generalize (if uselower then hexLower else hexadecimal) = R at *
  generalize (if is64 then 16 else 8) = total at *
  have hcount := countDigits_eq (R := R) value 0
  rw [Nat.zero_add] at hcount
  have hfirst : ∃ b₀, (if value = 0 then store formatbufsize b buffer '0'.toNat else some b) =
      some b₀ ∧ ∀ i, i ≠ buffer → b₀ i = b i := by
    by_cases hz : value = 0
    · rw [if_pos hz, store, if_pos (by rw [formatbufsize]; omega)]
      exact ⟨_, rfl, fun i hi => Function.update_of_ne hi _ _⟩
    · rw [if_neg hz]
      exact ⟨b, rfl, fun i hi => rfl⟩
  obtain ⟨b₀, hstart, hsame⟩ := hfirst
  have hbuffer : buffer = buffer+(0 : ℕ) := by simp
  obtain ⟨b₁, b₂, b', h1, h2, h3, hend, hbelow, hin⟩ := fixed_steps b₀
    (show 0+(R.text value).length ≤ total by omega) h0 hbuffer (by rw [formatbufsize]; omega)
  refine ⟨b', ?_, hend, ?_, ?_⟩
  · rw [hstart, Option.bind_eq_bind, Option.bind_some, hcount, if_neg (by omega), h1, Option.bind_some, h2, Option.bind_some, h3,
      Option.bind_some]
  · intro i hi
    rw [hbelow i hi, hsame i hi.ne]
  · intro i hlo hi
    rw [hin i hlo hi, Nat.sub_zero]
    exact place_inside _ _ _ (by rw [fixed_length hlen]; omega) hi

theorem textx_length {value : ℕ} {is64 uselower : Bool}
    (hv : value < 2^(if is64 then 64 else 32)) :
    (textx value is64 uselower).length = if is64 then 16 else 8 := by
  rw [textx, fixed_length]
  apply text_length_le
  cases is64 <;> cases uselower <;> exact hv.trans_eq (by decide)

theorem textx_nonzero (value : ℕ) (is64 uselower : Bool) :
    ∀ c ∈ textx value is64 uselower, c ≠ 0 := fixed_nonzero _ value

theorem formatx_writes {value size : ℕ} {is64 uselower : Bool}
    (hv : value < 2^(if is64 then 64 else 32)) (hsize : 16 ≤ size) :
    Writes (formatx value size is64 uselower 0) (textx value is64 uselower) := by
  intro b
  obtain ⟨b', hformat, hend, -, hin⟩ := formatx_steps hv hsize (le_refl (0 : ℤ)) (by decide) b
  have hlen : (textx value is64 uselower).length = _ := textx_length hv
  have hwidth : (if is64 then 16 else 8) ≤ 16 := by cases is64 <;> decide
  refine ⟨b', hformat, readText_agree (b := b) (by rw [formatbufsize]; omega) le_rfl
    (by rw [hlen]; omega) (textx_nonzero value is64 uselower) hend ?_⟩
  intro i h0 hi
  exact hin i h0 hi

/-- Two characters in front of a text that starts at the third. -/
theorem announced_agree {e : ℤ} {b b' : Buffer} {z c : ℕ} {t : List ℕ} (he : e-t.length = 2)
    (hfront : ∀ i, i < 2 → b' i = Function.update (Function.update b 0 z) 1 c i)
    (hin : ∀ i, 2 ≤ i → i < e →
      b' i = place e (Function.update (Function.update b 0 z) 1 c) t i) (i : ℤ) (h0 : 0 ≤ i)
    (hi : i < e) : b' i = place e b (z::c::t) i := by
  have h1 : e-t.length-1 = 1 := by omega
  have h2 : e-(c::t).length-1 = 0 := by
    rw [List.length_cons]
    omega
  rw [place, place, h1, h2]
  by_cases hlow : i < 2
  · rw [hfront i hlow]
    have hcase : i = 0 ∨ i = 1 := by omega
    rcases hcase with rfl | rfl
    · rw [Function.update_of_ne (by decide), Function.update_self, Function.update_self]
    · rw [Function.update_self, Function.update_of_ne (by decide), Function.update_self]
  · rw [hin i (by omega) hi, Function.update_of_ne (by omega), Function.update_of_ne (by omega)]
    exact place_inside _ _ _ (by omega) hi

theorem formatp_writes {value size : ℕ} (hv : value < 2^64) (hsize : 18 ≤ size) :
    Writes (formatp value size 0) (textp value) := by
  intro b
  have hwidth : value < 2^(if true = true then 64 else 32) := hv
  have hlen : (textx value true true).length = 16 := textx_length hwidth
  obtain ⟨b', hformat, hend, hbelow, hin⟩ := formatx_steps hwidth (show 16 ≤ size-2 by omega)
    (show (0 : ℤ) ≤ 2 by decide) le_rfl
    (Function.update (Function.update b 0 '0'.toNat) 1 'x'.toNat)
  refine ⟨b', ?_, readText_agree (e := 18) (b := b) (by decide) le_rfl ?_
    (announced_nonzero (by decide) (textx_nonzero value true true)) hend
    (announced_agree (by rw [hlen]; rfl) hbelow hin)⟩
  · rw [formatp, if_neg (by omega), store, if_pos (by decide), Option.bind_eq_bind,
      Option.bind_some, store, if_pos (by decide), Option.bind_some]
    exact congrArg (fun r => Option.bind r _) hformat
  · rw [textp, List.length_cons, List.length_cons, hlen]
    rfl

/-- The word read as a signed one, as far as its digits go. -/
theorem signed_digits (value : ℕ) : countDigits binary ((value : ℤ).bmod (2^64)) 0 =
      (binary.text ((value : ℤ).bmod (2^64)).toNat).length ∧
    ∀ tmp b, digitsBelow binary 0 ((value : ℤ).bmod (2^64)) tmp b =
      digitsBelow binary 0 (((value : ℤ).bmod (2^64)).toNat : ℕ) tmp b := by
  generalize (value : ℤ).bmod (2^64) = num
  by_cases h : 0 ≤ num
  · obtain ⟨n, rfl⟩ := Int.eq_ofNat_of_zero_le h
    exact ⟨(countDigits_eq n 0).trans (Nat.zero_add _), fun tmp b => rfl⟩
  · have hzero : num.toNat = 0 := by omega
    rw [hzero, text_zero]
    refine ⟨countDigits_negative (by omega) 0, ?_⟩
    intro tmp b
    rw [digitsBelow, dif_neg (by omega), digitsBelow, dif_neg (by decide)]

theorem formatb_writes {value size amountOfBits : ℕ} (hbits : amountOfBits ≤ 64)
    (hv : (binary.text ((value : ℤ).bmod (2^64)).toNat).length ≤ amountOfBits)
    (hsize : 66 ≤ size) : Writes (formatb value size amountOfBits 0) (textb value amountOfBits) := by
  intro b
  obtain ⟨hcount, hbelow⟩ := signed_digits value
  rw [textb]
  generalize hnum : (value : ℤ).bmod (2^64) = num at *
  have hlen := fixed_length hv
  obtain ⟨b₁, b₂, b', h1, h2, h3, hend, hfront, hin⟩ := fixed_steps
    (Function.update (Function.update b 0 '0'.toNat) 1 'b'.toNat)
    (show 2+(binary.text num.toNat).length ≤ amountOfBits+2 by omega) (le_refl (0 : ℤ))
    (show (2 : ℤ) = 0+(2 : ℕ) by simp) (by rw [formatbufsize]; omega)
  rw [Nat.add_sub_cancel] at hin
  refine ⟨b', ?_, readText_agree (e := 0+(amountOfBits+2 : ℕ)) (b := b)
    (by rw [formatbufsize]; omega) le_rfl ?_
    (announced_nonzero (by decide) (fixed_nonzero _ _)) hend
    (announced_agree (by rw [hlen]; omega) hfront hin)⟩
  · rw [formatb, if_neg (by omega), store, if_pos (by decide), Option.bind_eq_bind,
      Option.bind_some, store, if_pos (by decide), Option.bind_some]
    dsimp only
    have hone : (0 : ℤ)+1 = 1 := rfl
    have htwo : (0 : ℤ)+2 = 2 := rfl
    rw [hnum, hcount, hone, htwo, h1, Option.bind_some, hbelow, h2, Option.bind_some, h3, Option.bind_some]
  · rw [List.length_cons, List.length_cons, hlen]
    omega

end Texts

section Reading

theorem readSigned_textd (value : ℕ) (neg : Bool) :
    readSigned (textd value neg) = some (if neg then -(value : ℤ) else value) := by
  rw [textd]
  by_cases hz : value = 0
  · subst hz
    cases neg <;> decide
  · have hread := read_text (R := decimal) (Nat.pos_of_ne_zero hz)
    rw [if_neg hz]
    cases neg with
    | false =>
      show readSigned ('+'.toNat :: decimal.text value) = _
      rw [readSigned, if_neg (by decide), if_pos rfl, hread]
      rfl
    | true =>
      show readSigned ('-'.toNat :: decimal.text value) = _
      rw [readSigned, if_pos rfl, hread]
      rfl

theorem readFixed_fixed {R : Radix} (hR : R.digits.getD 0 0 = '0'.toNat) {width n : ℕ}
    (hw : 0 < width) (hn : (R.text n).length ≤ width) :
    readFixed R width (fixed width (R.text n)) = some (n : ℤ) := by
  have hread : R.read (fixed width (R.text n)) = some n := by
    rw [fixed, ← hR]
    refine read_zeros ?_
    rcases Nat.eq_zero_or_pos n with rfl | hpos
    · rw [text_zero]
      exact Or.inl hw
    · exact Or.inr hpos
  rw [readFixed, if_pos (fixed_length hn), hread]
  rfl

theorem readFixed_textx {value : ℕ} {is64 uselower : Bool}
    (hv : value < 2^(if is64 then 64 else 32)) :
    readFixed (if uselower then hexLower else hexadecimal) (if is64 then 16 else 8)
      (textx value is64 uselower) = some (value : ℤ) := by
  rw [textx]
  refine readFixed_fixed (by cases uselower <;> rfl) (by cases is64 <;> decide) ?_
  apply text_length_le
  cases is64 <;> cases uselower <;> exact hv.trans_eq (by decide)

/-- Eight digits do not hold more than 32 bits. -/
theorem formatx_wrap {value : ℕ} {uselower : Bool} (hv : 2^32 ≤ value) (hlt : value < 2^64)
    (b : Buffer) : formatx value formatbufsize false uselower 0 b = none := by
  have hlen : 8 < ((if uselower then hexLower else hexadecimal).text value).length ∧
      ((if uselower then hexLower else hexadecimal).text value).length ≤ 16 := by
    rw [text_length]
    constructor
    · rw [Nat.lt_digits_length_iff (Radix.base_pos _)]
      cases uselower <;> exact Eq.trans_le (by decide) hv
    · rw [Nat.digits_length_le_iff (Radix.base_pos _)]
      cases uselower <;> exact hlt.trans_eq (by decide)
  rw [formatx]
  dsimp only
  generalize (if uselower then hexLower else hexadecimal) = R at *
  have hcount := countDigits_eq (R := R) value 0
  rw [Nat.zero_add] at hcount
  have hsize : ¬ (R.text value).length > formatbufsize := by
    rw [formatbufsize]
    omega
  have hwidth : (if false = true then 16 else 8) = 8 := rfl
  rw [hwidth, if_neg (by omega), Option.bind_eq_bind, Option.bind_some, hcount, if_neg hsize,
    Nat.sub_eq_zero_of_le hlen.1.le, fillUp, Option.bind_some,
    digitsBelow_wrap value (by decide) hlen.1]
  rfl

/-- A word with the top bit set is negative, so that its text has no digits but zeros. -/
theorem textb_negative {value : ℕ} (hv : 2^63 ≤ value) (hlt : value < 2^64) :
    textb value 64 = textb 0 64 := by
  have hneg : ((value : ℤ).bmod (2^64)).toNat = 0 := by
    rw [Int.bmod_neg _ _ (by omega)]
    omega
  rw [textb, textb, hneg]
  rfl

end Reading

/-- The text that a formatter leaves. -/
def Formatter.text : Formatter → ℤ → List ℕ
  | .l, value => textd value.natAbs (decide (value < 0))
  | .u, value | .ul, value => textd value.toNat false
  | .x is64 uselower, value => textx value.toNat is64 uselower
  | .p, value => textp value.toNat
  | .b is64, value => textb value.toNat (if is64 then 64 else 32)

/-- Every formatter leaves its text, eight digits for more than 32 bits apart. -/
theorem Formatter.writes {F : Formatter} {value : ℤ} (hv : F.InRange value)
    (hx : ∀ uselower, F = .x false uselower → value < 2^32) : Writes (F.format value) (F.text value) := by
  cases F with
  | l =>
    have hr : -2^63 ≤ value ∧ value < 2^63 := hv
    have habs : ((value*if decide (value < 0) = true then -1 else 1) % 2^64).toNat =
        value.natAbs := by
      by_cases hneg : value < 0
      · rw [if_pos (decide_eq_true hneg)]
        omega
      · rw [if_neg (by simpa using hneg)]
        omega
    show Writes (formatl value formatbufsize 0) _
    unfold formatl
    dsimp only
    rw [habs]
    exact formatd_writes _ (by omega) (by decide)
  | u =>
    have hr : 0 ≤ value ∧ value < 2^32 := hv
    exact formatd_writes false (by omega) (by decide)
  | ul =>
    have hr : 0 ≤ value ∧ value < 2^64 := hv
    exact formatd_writes false (by omega) (by decide)
  | x is64 uselower =>
    have hr : 0 ≤ value ∧ value < 2^64 := hv
    refine formatx_writes ?_ (by decide)
    cases is64 with
    | false =>
      have hlt := hx uselower rfl
      show value.toNat < 2^32
      omega
    | true =>
      show value.toNat < 2^64
      omega
  | p =>
    have hr : 0 ≤ value ∧ value < 2^64 := hv
    exact formatp_writes (by omega) (by decide)
  | b is64 =>
    cases is64 with
    | false =>
      have hr : 0 ≤ value ∧ value < 2^32 := hv
      have hsmall : ((value.toNat : ℤ).bmod (2^64)).toNat = value.toNat := by
        rw [Int.bmod_eq_of_le (by omega) (by omega), Int.toNat_natCast]
      refine formatb_writes (by decide) ?_ (by decide)
      rw [hsmall]
      exact text_length_le (show value.toNat < binary.base^32 by
        have hbase : binary.base^32 = 2^32 := rfl
        omega)
    | true =>
      have hbound := Int.bmod_lt (x := (value.toNat : ℤ)) (m := 2^64) (by decide)
      refine formatb_writes le_rfl ?_ (by decide)
      exact text_length_le (show _ < binary.base^64 by
        have hbase : binary.base^64 = 2^64 := by decide
        omega)

theorem Writes.unique {f : Buffer → Option Answer} {t u : List ℕ} (ht : Writes f t)
    (hu : Writes f u) : t = u := by
  obtain ⟨b, hb, hread⟩ := ht (fun _ => 0)
  obtain ⟨b', hb', hread'⟩ := hu (fun _ => 0)
  have hsame : b = b' := by
    have heq := hb.symm.trans hb'
    simpa using heq
  rw [hsame] at hread
  exact Option.some.inj (hread.symm.trans hread')

/-- The digits of a binary number in range, shown in their width. -/
theorem readAnnounced_textb {value width : ℕ} (hw : 0 < width) (hv : value < 2^63)
    (hlen : (binary.text value).length ≤ width) :
    readAnnounced binary 'b' width (textb value width) = some (value : ℤ) := by
  have hsmall : ((value : ℤ).bmod (2^64)).toNat = value := by
    rw [Int.bmod_eq_of_le (by omega) (by omega), Int.toNat_natCast]
  rw [textb, hsmall, readAnnounced, if_pos ⟨rfl, rfl⟩]
  exact readFixed_fixed rfl hw hlen

/-- The text of a value reads back as the value, where none of its digits is lost. -/
theorem Formatter.read_text {F : Formatter} {value : ℤ} (hv : F.InRange value)
    (hl : ¬ F.Loses value) : F.read (F.text value) = some value := by
  cases F with
  | l =>
    show readSigned (textd value.natAbs (decide (value < 0))) = _
    rw [readSigned_textd]
    congr 1
    by_cases hneg : value < 0
    · rw [if_pos (decide_eq_true hneg)]
      omega
    · rw [if_neg (by simpa using hneg)]
      omega
  | u =>
    have hr : 0 ≤ value ∧ value < 2^32 := hv
    exact (readSigned_textd value.toNat false).trans (congrArg some (Int.toNat_of_nonneg hr.1))
  | ul =>
    have hr : 0 ≤ value ∧ value < 2^64 := hv
    exact (readSigned_textd value.toNat false).trans (congrArg some (Int.toNat_of_nonneg hr.1))
  | x is64 uselower =>
    have hr : 0 ≤ value ∧ value < 2^64 := hv
    refine (readFixed_textx ?_).trans (congrArg some (Int.toNat_of_nonneg hr.1))
    cases is64 with
    | false =>
      have hlt : ¬ 2^32 ≤ value := hl
      show value.toNat < 2^32
      omega
    | true =>
      show value.toNat < 2^64
      omega
  | p =>
    have hr : 0 ≤ value ∧ value < 2^64 := hv
    have hfixed : readFixed hexLower 16 (textx value.toNat true true) = some (value.toNat : ℤ) :=
      readFixed_textx (show value.toNat < 2^(if true = true then 64 else 32) by
        rw [if_pos rfl]
        omega)
    show readAnnounced hexLower 'x' 16 (textp value.toNat) = _
    rw [textp, readAnnounced, if_pos ⟨rfl, rfl⟩, hfixed, Int.toNat_of_nonneg hr.1]
  | b is64 =>
    cases is64 with
    | false =>
      have hr : 0 ≤ value ∧ value < 2^32 := hv
      have hread : readAnnounced binary 'b' 32 (textb value.toNat 32) = some (value.toNat : ℤ) :=
        readAnnounced_textb (by decide) (by omega)
          (text_length_le (show value.toNat < binary.base^32 by
            have hbase : binary.base^32 = 2^32 := rfl
            omega))
      rw [Int.toNat_of_nonneg hr.1] at hread
      exact hread
    | true =>
      have hr : 0 ≤ value ∧ value < 2^64 := hv
      have hlt : ¬ 2^63 ≤ value := hl
      have hread : readAnnounced binary 'b' 64 (textb value.toNat 64) = some (value.toNat : ℤ) :=
        readAnnounced_textb (by decide) (by omega)
          (text_length_le (show value.toNat < binary.base^64 by
            have hbase : binary.base^64 = 2^64 := by decide
            omega))
      rw [Int.toNat_of_nonneg hr.1] at hread
      exact hread

/-- The text of zero in 64 bits. -/
theorem read_zero : Formatter.read (.b true) (textb 0 64) = some 0 := by
  have hread : readAnnounced binary 'b' 64 (textb 0 64) = some ((0 : ℕ) : ℤ) :=
    readAnnounced_textb (by decide) (by decide) (by rw [text_zero]; decide)
  exact hread

/-- Every value of every argument type is formatted without loss, except more than 32 bits in
eight hexadecimal digits and a 64-bit binary number with the top bit set. -/
theorem format_lossless_iff (F : Formatter) (value : ℤ) (hv : F.InRange value) :
    Lossless F value ↔ ¬ F.Loses value := by
  constructor
  · rintro ⟨t, hw, hread⟩ hl
    cases F with
    | l => exact hl
    | u => exact hl
    | ul => exact hl
    | p => exact hl
    | x is64 uselower =>
      cases is64 with
      | true => exact hl
      | false =>
        have hr : 0 ≤ value ∧ value < 2^64 := hv
        have hbig : 2^32 ≤ value := hl
        obtain ⟨b', hformat, -⟩ := hw (fun _ => 0)
        have hnone : formatx value.toNat formatbufsize false uselower 0 (fun _ => 0) = none :=
          formatx_wrap (by omega) (by omega) _
        exact absurd (hnone.symm.trans hformat) (by simp)
    | b is64 =>
      cases is64 with
      | false => exact hl
      | true =>
        have hr : 0 ≤ value ∧ value < 2^64 := hv
        have hbig : 2^63 ≤ value := hl
        have htext : t = textb value.toNat 64 :=
          hw.unique (Formatter.writes (F := .b true) hv (by simp))
        rw [htext, textb_negative (by omega) (by omega), read_zero] at hread
        have hval := Option.some.inj hread
        omega
  · intro hl
    refine ⟨F.text value, Formatter.writes hv ?_, Formatter.read_text hv hl⟩
    rintro uselower rfl
    have hlt : ¬ 2^32 ≤ value := hl
    omega

/-- The word with only the top bit set is shown as zeros. -/
theorem formatb_top : (Formatter.b true).InRange (2^63) ∧
    Writes (formatb (2^63) formatbufsize 64 0) (textb 0 64) ∧ ¬ Lossless (.b true) (2^63) := by
  have hv : (Formatter.b true).InRange (2^63) := by decide
  have htop : textb (2^63) 64 = textb 0 64 := textb_negative (by decide) (by decide)
  have hw : Writes (formatb (2^63) formatbufsize 64 0) (textb 0 64) := by
    rw [← htop]
    refine formatb_writes le_rfl ?_ (by decide)
    have hneg : (((2^63 : ℕ) : ℤ).bmod (2^64)).toNat = 0 := by decide
    rw [hneg, text_zero]
    decide
  refine ⟨hv, hw, ?_⟩
  rintro ⟨t, ht, hread⟩
  have htext : t = textb 0 64 := ht.unique hw
  rw [htext, read_zero] at hread
  exact absurd (Option.some.inj hread) (by decide)

theorem format_lossless_min : Lossless .l (-2^63) :=
  (format_lossless_iff .l (-2^63) (by decide)).mpr id

end BruhOS.BootPrint
