import BruhOS.StdMath
import BruhOS.TextBuffer

/-!
# Number formatting of the kernel

Seven functions turn a number into text at the end of a buffer of 140
characters and return the pointer to its first character. The last character
of the buffer is never written. A signed number is made positive by a
multiplication of its own width, which leaves the most negative one as it is,
and the digits are then taken by an index that is a negative remainder.
-/

set_option autoImplicit false

namespace BruhOS.KernelIo

open BruhOS.TextBuffer BruhOS.StdMath

def ITSbufSize : ℤ := 140

section Code

/-- The branch for zero: `'0'` behind `format_align_pad - 1` fill characters. -/
def formatZero (fill : Char) (pad : ℤ) (b : Buffer) : Option (Buffer × ℤ) := do
  let ptr := ITSbufSize-2
  let b ← store ITSbufSize b ptr '0'.toNat
  fillBelow ITSbufSize fill.toNat (pad-1).toNat ptr b

/-- `formatd` and `formatl`, on words of `w` bits. -/
def formatSigned (w : ℕ) (pad value : ℤ) (b : Buffer) : Option (Buffer × ℤ) :=
  if value = 0 then formatZero ' ' pad b else do
    let ltz : ℤ := if value < 0 then 1 else 0
    let value := (value*(-1*ltz+1*(1-ltz))).bmod (2^w)
    let r ← decimal.writeDigits ITSbufSize value (ITSbufSize-2) 0 b
    let padding := if r.2.2 < pad-ltz then pad-ltz-r.2.2 else 0
    let ptr := r.2.1-padding
    let b ← fillUp ITSbufSize ' '.toNat padding.toNat (ptr+1) r.1
    let result := if ltz = 1 then '-'.toNat else b ptr
    let b ← store ITSbufSize b ptr result
    some (b, ptr+(1-ltz))

def formatd (pad value : ℤ) (b : Buffer) : Option (Buffer × ℤ) := formatSigned 32 pad value b

def formatl (pad value : ℤ) (b : Buffer) : Option (Buffer × ℤ) := formatSigned 64 pad value b

/-- `formatu` and `formatul`. -/
def formatUnsigned (pad : ℤ) (value : ℕ) (b : Buffer) : Option (Buffer × ℤ) :=
  if value = 0 then formatZero ' ' pad b else do
    let r ← decimal.writeDigits ITSbufSize value (ITSbufSize-2) 0 b
    let padding := if r.2.2 < pad then pad-r.2.2 else 0
    let ptr := r.2.1-padding
    let b ← fillUp ITSbufSize ' '.toNat padding.toNat (ptr+1) r.1
    some (b, ptr+1)

def formatu (pad : ℤ) (value : ℕ) (b : Buffer) : Option (Buffer × ℤ) := formatUnsigned pad value b

def formatul (pad : ℤ) (value : ℕ) (b : Buffer) : Option (Buffer × ℤ) := formatUnsigned pad value b

/-- The two characters that a number system is announced with. -/
def announce (c : Char) (ptr : ℤ) (b : Buffer) : Option (Buffer × ℤ) := do
  let b ← store ITSbufSize b ptr c.toNat
  let b ← store ITSbufSize b (ptr-1) '0'.toNat
  some (b, ptr-1)

def formatx (is64 : Bool) (value : ℕ) (b : Buffer) : Option (Buffer × ℤ) := do
  let r ← hexadecimal.writeDigits ITSbufSize value (ITSbufSize-2) 0 b
  let s ← fillDown ITSbufSize '0'.toNat (8*(1+is64.toNat)-r.2.2) r.2.1 r.1
  announce 'x' s.2 s.1

def formatp (pad : ℤ) (value : ℕ) (b : Buffer) : Option (Buffer × ℤ) :=
  if value = 0 then formatZero '0' pad b else do
    let r ← hexadecimal.writeDigits ITSbufSize value (ITSbufSize-2) 0 b
    let padding : ℤ := (if r.2.2 > pad then 16-(r.2.2 : ℤ) else 0)+
      (if r.2.2 < pad then pad-r.2.2 else 0)
    let s ← fillDown ITSbufSize '0'.toNat padding.toNat r.2.1 r.1
    some (s.1, s.2+1)

/-- `max_bit`. -/
def maxBit (value : ℕ) : ℕ :=
  let max_bit := round2 (log2ul (value+if value = 0 then 1 else 0)) % 2^8
  (if max_bit < 8 then 8 else 0)+(if max_bit > 8 then max_bit else 0)

def formatb (value : ℕ) (b : Buffer) : Option (Buffer × ℤ) := do
  let r ← binary.writeDigits ITSbufSize value (ITSbufSize-2) 0 b
  let currDigits := (ITSbufSize-2-r.2.1).toNat
  let s ← fillDown ITSbufSize '0'.toNat (maxBit value-currDigits) r.2.1 r.1
  announce 'b' s.2 s.1

end Code

/-- The functions by name. -/
inductive Formatter where
  | d
  | u
  | l
  | ul
  | x (is64 : Bool)
  | p
  | b
  deriving DecidableEq, Repr

namespace Formatter

def format : Formatter → ℤ → ℤ → Buffer → Option (Buffer × ℤ)
  | d, pad, value => formatd pad value
  | u, pad, value => formatu pad value.toNat
  | l, pad, value => formatl pad value
  | ul, pad, value => formatul pad value.toNat
  | x is64, _, value => formatx is64 value.toNat
  | p, pad, value => formatp pad value.toNat
  | b, _, value => formatb value.toNat

/-- The values of the argument type. -/
def InRange : Formatter → ℤ → Prop
  | d, value => -2^31 ≤ value ∧ value < 2^31
  | u, value => 0 ≤ value ∧ value < 2^32
  | l, value => -2^63 ≤ value ∧ value < 2^63
  | _, value => 0 ≤ value ∧ value < 2^64

instance : ∀ F v, Decidable (InRange F v)
  | d, _ => inferInstanceAs (Decidable (_ ∧ _))
  | u, _ => inferInstanceAs (Decidable (_ ∧ _))
  | l, _ => inferInstanceAs (Decidable (_ ∧ _))
  | ul, _ => inferInstanceAs (Decidable (_ ∧ _))
  | x _, _ => inferInstanceAs (Decidable (_ ∧ _))
  | p, _ => inferInstanceAs (Decidable (_ ∧ _))
  | b, _ => inferInstanceAs (Decidable (_ ∧ _))

/-- The most negative value of a signed argument type. -/
def MostNegative : Formatter → ℤ → Prop
  | d, value => value = -2^31
  | l, value => value = -2^63
  | _, _ => False

end Formatter

/-- The number of an optional minus sign and some digits. -/
def readSigned : List ℕ → Option ℤ
  | [] => none
  | c::t => if c = '-'.toNat then (decimal.read t).map (fun n : ℕ => -(n : ℤ))
      else (decimal.read (c::t)).map (fun n : ℕ => (n : ℤ))

/-- The number of some digits behind `'0'` and a letter. -/
def readAnnounced (R : Radix) (letter : Char) : List ℕ → Option ℤ
  | z::c::t => if z = '0'.toNat ∧ c = letter.toNat then (R.read t).map (fun n : ℕ => (n : ℤ)) else none
  | _ => none

def Formatter.read : Formatter → List ℕ → Option ℤ
  | .d, t | .l, t => readSigned t
  | .u, t | .ul, t => (decimal.read t).map (fun n : ℕ => (n : ℤ))
  | .x _, t => readAnnounced hexadecimal 'x' t
  | .p, t => (hexadecimal.read t).map (fun n : ℕ => (n : ℤ))
  | .b, t => readAnnounced binary 'b' t

/-- On the zeroed buffer the text returned reads back as the value; all writes are inside the
buffer and, whatever it holds, leave its last character alone. -/
structure Lossless (F : Formatter) (value : ℤ) : Prop where
  text : ∃ b p t, F.format 0 value (fun _ => 0) = some (b, p) ∧ readText ITSbufSize b p = some t ∧
    F.read t = some value
  inside : ∀ b, ∃ b' p, F.format 0 value b = some (b', p) ∧ ∀ i, ITSbufSize-1 ≤ i → b' i = b i

/-- A formatter writes one text, whatever the buffer holds, right before its last character. -/
structure Prints (f : Buffer → Option (Buffer × ℤ)) (t : List ℕ) : Prop where
  eq : ∀ b, f b = some (place (ITSbufSize-1) b t, ITSbufSize-1-t.length)
  fits : t.length ≤ 139
  nonzero : ∀ c ∈ t, c ≠ 0

theorem Prints.read {f : Buffer → Option (Buffer × ℤ)} {t : List ℕ} (h : Prints f t) :
    readText ITSbufSize (place (ITSbufSize-1) (fun _ => 0) t) (ITSbufSize-1-t.length) = some t := by
  have hfits := h.fits
  exact readText_place (by decide) rfl rfl (by rw [ITSbufSize]; omega) h.nonzero

section Texts

/-- Fill characters in front of a text, up to `n` characters together. -/
def padded (fill : Char) (n : ℤ) (t : List ℕ) : List ℕ :=
  List.replicate (n-t.length).toNat fill.toNat++t

theorem padded_length (fill : Char) (n : ℤ) (t : List ℕ) :
    (padded fill n t).length = max n.toNat t.length := by
  rw [padded, List.length_append, List.length_replicate]
  omega

theorem padded_nonzero {fill : Char} {n : ℤ} {t : List ℕ} (hf : fill.toNat ≠ 0)
    (ht : ∀ c ∈ t, c ≠ 0) : ∀ c ∈ padded fill n t, c ≠ 0 := by
  intro c hc
  rcases List.mem_append.mp hc with hc | hc
  · rw [List.eq_of_mem_replicate hc]
    exact hf
  · exact ht c hc

theorem decimal_length {n : ℕ} (h : n < 2^64) : (decimal.text n).length ≤ 20 :=
  text_length_le (h.trans (by decide))

theorem hexadecimal_length {n : ℕ} (h : n < 2^64) : (hexadecimal.text n).length ≤ 16 :=
  text_length_le (h.trans_eq (by decide))

theorem binary_length {n : ℕ} (h : n < 2^64) : (binary.text n).length ≤ 64 :=
  text_length_le (h.trans_eq (by decide))

def textSigned (pad value : ℤ) : List ℕ :=
  if value = 0 then padded ' ' pad ['0'.toNat]
  else if value < 0 then '-'.toNat :: padded ' ' (pad-1) (decimal.text value.natAbs)
  else padded ' ' pad (decimal.text value.natAbs)

def textUnsigned (pad : ℤ) (value : ℕ) : List ℕ :=
  if value = 0 then padded ' ' pad ['0'.toNat] else padded ' ' pad (decimal.text value)

def textx (is64 : Bool) (value : ℕ) : List ℕ :=
  '0'.toNat :: 'x'.toNat :: padded '0' (8*(1+is64.toNat) : ℕ) (hexadecimal.text value)

def textp (pad : ℤ) (value : ℕ) : List ℕ :=
  if value = 0 then padded '0' pad ['0'.toNat]
  else padded '0' (if (hexadecimal.text value).length > pad then 16 else pad)
    (hexadecimal.text value)

def textb (value : ℕ) : List ℕ :=
  '0'.toNat :: 'b'.toNat :: padded '0' (maxBit value) (binary.text value)

end Texts

section Branches

variable {b : Buffer}

theorem answer_eq {b : Buffer} {p q : ℤ} (h : p = q) :
    (some (b, p) : Option (Buffer × ℤ)) = some (b, q) := by rw [h]

/-- The digits of a number, written behind nothing. -/
theorem writeDigits_buffer {R : Radix} {n : ℕ} (h : (R.text n).length ≤ 139) :
    R.writeDigits ITSbufSize n (ITSbufSize-2) 0 b = some (place (ITSbufSize-1) b (R.text n),
      ITSbufSize-1-(R.text n).length-1, (R.text n).length) := by
  have hplace : R.writeDigits ITSbufSize n (ITSbufSize-2) 0 (place (ITSbufSize-1) b []) =
      some (place (ITSbufSize-1) b (R.text n++[]), ITSbufSize-2-(R.text n).length,
        0+(R.text n).length) :=
    writeDigits_place (by decide) n (by decide) (by rw [ITSbufSize]; omega)
  rw [place, List.append_nil, Nat.zero_add] at hplace
  rw [hplace]
  congr 2
  rw [ITSbufSize]
  congr 1
  omega

theorem formatZero_prints {fill : Char} {pad : ℤ} (hf : fill.toNat ≠ 0) (hpad : pad ≤ 128) :
    Prints (formatZero fill pad) (padded fill pad ['0'.toNat]) := by
  have hlen := padded_length fill pad ['0'.toNat]
  rw [List.length_singleton] at hlen
  constructor
  · intro b
    have hstore : store ITSbufSize (place (ITSbufSize-1) b []) (ITSbufSize-2) '0'.toNat =
        some (place (ITSbufSize-1) b ['0'.toNat]) :=
      store_place _ (by decide) (by decide) (by decide)
    rw [place] at hstore
    rw [formatZero, hstore]
    show fillBelow ITSbufSize fill.toNat (pad-1).toNat (ITSbufSize-2) _ = _
    rw [fillBelow_place _ _ (by decide) (by decide) (by rw [ITSbufSize]; omega), padded]
    rw [padded, List.length_append, List.length_replicate, List.length_singleton] at hlen
    congr 2
    rw [List.length_append, List.length_replicate, List.length_singleton, ITSbufSize]
    omega
  · omega
  · refine padded_nonzero hf ?_
    intro c hc
    rw [List.mem_singleton.mp hc]
    decide

/-- The padding behind the digit loop: `memset`, and the pointer in front of it. -/
theorem padding_step {pad : ℤ} {t : List ℕ} (hpad : pad ≤ 128) (ht : t.length ≤ 128) :
    let padding := if (t.length : ℤ) < pad then pad-t.length else 0
    let ptr := ITSbufSize-1-t.length-1-padding
    fillUp ITSbufSize ' '.toNat padding.toNat (ptr+1) (place (ITSbufSize-1) b t) =
        some (place (ITSbufSize-1) b (padded ' ' pad t)) ∧
      ptr = ITSbufSize-1-(padded ' ' pad t).length-1 := by
  intro padding ptr
  have hcount : padding.toNat = (pad-t.length).toNat ∧ 0 ≤ padding ∧ padding+t.length ≤ 128 := by
    simp only [padding]
    split <;> omega
  have hptr : ptr+1 = ITSbufSize-1-t.length-padding.toNat := by
    simp only [ptr]
    omega
  constructor
  · rw [fillUp_place _ _ (by decide) hptr (by rw [hptr, ITSbufSize]; omega), padded, hcount.1]
  · rw [padded_length]
    simp only [ptr]
    omega

theorem formatUnsigned_prints {pad : ℤ} {value : ℕ} (hpad : pad ≤ 128) (hv : value < 2^64) :
    Prints (formatUnsigned pad value) (textUnsigned pad value) := by
  rw [textUnsigned]
  by_cases hz : value = 0
  · rw [if_pos hz]
    have hzero : Prints (formatZero ' ' pad) (padded ' ' pad ['0'.toNat]) :=
      formatZero_prints (by decide) hpad
    refine ⟨?_, hzero.fits, hzero.nonzero⟩
    intro b
    rw [formatUnsigned, if_pos hz]
    exact hzero.eq b
  · have hlen := decimal_length hv
    rw [if_neg hz]
    refine ⟨?_, ?_, padded_nonzero (by decide) (text_nonzero value)⟩
    · intro b
      obtain ⟨hfill, hptr⟩ := padding_step (b := b) hpad (t := decimal.text value) (by omega)
      rw [formatUnsigned, if_neg hz, writeDigits_buffer (by omega)]
      simp only [Option.bind_eq_bind, Option.bind_some]
      rw [hfill, hptr, Option.bind_some]
      congr 2
      omega
    · rw [padded_length]
      omega

theorem formatSigned_prints {w : ℕ} {pad value : ℤ} (hpad : pad ≤ 128) (hw : w = 32 ∨ w = 64)
    (hv : -2^(w-1) < value ∧ value < 2^(w-1)) :
    Prints (formatSigned w pad value) (textSigned pad value) := by
  have hbound : value.natAbs < 2^64 ∧ ((value.natAbs : ℤ)).bmod (2^w) = value.natAbs := by
    rcases hw with rfl | rfl <;> refine ⟨by omega, Int.bmod_eq_of_le (by omega) (by omega)⟩
  have hlen := decimal_length hbound.1
  rw [textSigned]
  by_cases hz : value = 0
  · rw [if_pos hz]
    have hzero : Prints (formatZero ' ' pad) (padded ' ' pad ['0'.toNat]) :=
      formatZero_prints (by decide) hpad
    refine ⟨?_, hzero.fits, hzero.nonzero⟩
    intro b
    rw [formatSigned, if_pos hz]
    exact hzero.eq b
  · rw [if_neg hz]
    by_cases hneg : value < 0
    · rw [if_pos hneg]
      refine ⟨?_, ?_, ?_⟩
      · intro b
        have hroom : pad-1 ≤ 128 ∧ (decimal.text value.natAbs).length ≤ 128 := by omega
        obtain ⟨hfill, hptr⟩ := padding_step hroom.1 hroom.2
        have habs : value*(-1*1+1*(1-1)) = value.natAbs := by omega
        rw [formatSigned, if_neg hz, if_pos hneg]
        dsimp only
        rw [habs, hbound.2, writeDigits_buffer (by omega)]
        simp only [Option.bind_eq_bind, Option.bind_some]
        rw [hfill, hptr, Option.bind_some, if_pos trivial, store_place _ (by decide) rfl,
          Option.bind_some]
        · refine answer_eq ?_
          rw [List.length_cons]
          omega
        · rw [padded_length, ITSbufSize]
          omega
      · rw [List.length_cons, padded_length]
        omega
      · intro c hc
        rcases List.mem_cons.mp hc with rfl | hc
        · decide
        · exact padded_nonzero (by decide) (text_nonzero _) c hc
    · rw [if_neg hneg]
      refine ⟨?_, ?_, padded_nonzero (by decide) (text_nonzero _)⟩
      · intro b
        have hroom : pad-0 ≤ 128 ∧ (decimal.text value.natAbs).length ≤ 128 := by omega
        obtain ⟨hfill, hptr⟩ := padding_step hroom.1 hroom.2
        have habs : value*(-1*0+1*(1-0)) = value.natAbs := by omega
        rw [formatSigned, if_neg hz, if_neg hneg]
        dsimp only
        rw [habs, hbound.2, writeDigits_buffer (by omega)]
        simp only [Option.bind_eq_bind, Option.bind_some]
        rw [hfill, hptr, Option.bind_some, if_neg (by decide), store, if_pos]
        · rw [Option.bind_some, Function.update_eq_self, Int.sub_zero]
          congr 2
          omega
        · rw [padded_length, ITSbufSize]
          omega
      · rw [padded_length]
        omega

/-- The zeros behind the digit loop. -/
theorem zeros_step (n : ℕ) {t : List ℕ} (ht : t.length+n ≤ 139) :
    fillDown ITSbufSize '0'.toNat n (ITSbufSize-1-t.length-1) (place (ITSbufSize-1) b t) =
      some (place (ITSbufSize-1) b (List.replicate n '0'.toNat++t),
        ITSbufSize-1-(List.replicate n '0'.toNat++t).length-1) := by
  rw [fillDown_place _ _ (by decide) rfl (by rw [ITSbufSize]; omega), List.length_append,
    List.length_replicate]
  congr 2
  omega

/-- The two characters in front. -/
theorem announce_step (c : Char) {t : List ℕ} (ht : t.length+2 ≤ 139) :
    announce c (ITSbufSize-1-t.length-1) (place (ITSbufSize-1) b t) =
      some (place (ITSbufSize-1) b ('0'.toNat :: c.toNat :: t),
        ITSbufSize-1-('0'.toNat :: c.toNat :: t).length) := by
  have hlen : ITSbufSize-1-t.length-1-1 = ITSbufSize-1-(c.toNat :: t).length-1 := by
    rw [List.length_cons]
    omega
  rw [announce, store_place _ (by decide) rfl (by rw [ITSbufSize]; omega)]
  show (store ITSbufSize _ _ _).bind _ = _
  rw [store_place _ (by decide) hlen (by rw [ITSbufSize]; omega), Option.bind_some]
  refine answer_eq ?_
  rw [List.length_cons, List.length_cons]
  omega

theorem formatx_prints (is64 : Bool) {value : ℕ} (hv : value < 2^64) :
    Prints (formatx is64 value) (textx is64 value) := by
  have hlen := hexadecimal_length hv
  have hwidth : 8*(1+is64.toNat) ≤ 16 := by cases is64 <;> decide
  have htotal := padded_length '0' (8*(1+is64.toNat) : ℕ) (hexadecimal.text value)
  refine ⟨?_, ?_, announced_nonzero (by decide) (padded_nonzero (by decide) (text_nonzero value))⟩
  · intro b
    rw [formatx, writeDigits_buffer (by omega)]
    simp only [Option.bind_eq_bind, Option.bind_some]
    rw [zeros_step _ (by omega), Option.bind_some]
    have hcount : 8*(1+is64.toNat)-(hexadecimal.text value).length =
        (((8*(1+is64.toNat) : ℕ) : ℤ)-(hexadecimal.text value).length).toNat := by omega
    rw [hcount, ← padded, announce_step _ (by omega), textx]
  · rw [textx, List.length_cons, List.length_cons]
    omega

theorem maxBit_le {value : ℕ} (hv : value < 2^64) : maxBit value ≤ 64 := by
  have hpos : 0 < value+(if value = 0 then 1 else 0) ∧ value+(if value = 0 then 1 else 0) < 2^64 := by
    split <;> omega
  have hlog := (Nat.log2_lt (by omega)).mpr hpos.2
  have hround : round2 (Nat.log2 (value+if value = 0 then 1 else 0)+1) ≤ 64 := by
    rw [round2_eq_clog _ (by omega) (by omega)]
    have hclog : Nat.clog 2 (Nat.log2 (value+if value = 0 then 1 else 0)+1) ≤ 6 :=
      (Nat.clog_le_iff_le_pow (by decide)).mpr (by omega)
    calc 2^Nat.clog 2 _ ≤ 2^6 := Nat.pow_le_pow_right (by decide) hclog
      _ = 64 := rfl
  have hmod := Nat.mod_le (round2 (Nat.log2 (value+if value = 0 then 1 else 0)+1)) (2^8)
  rw [maxBit, log2ul_eq _ hpos.1 hpos.2]
  generalize round2 (Nat.log2 (value+if value = 0 then 1 else 0)+1) % 2^8 = m at hmod ⊢
  have hm : m ≤ 64 := hmod.trans hround
  split <;> split <;> omega

theorem formatb_prints {value : ℕ} (hv : value < 2^64) : Prints (formatb value) (textb value) := by
  have hlen := binary_length hv
  have hwidth := maxBit_le hv
  have htotal := padded_length '0' (maxBit value) (binary.text value)
  unfold formatb textb
  generalize maxBit value = m at hwidth htotal ⊢
  refine ⟨?_, ?_, announced_nonzero (by decide) (padded_nonzero (by decide) (text_nonzero value))⟩
  · intro b
    have hdigits : (ITSbufSize-2-(ITSbufSize-1-(binary.text value).length-1)).toNat =
        (binary.text value).length := by omega
    rw [writeDigits_buffer (by omega), Option.bind_eq_bind, Option.bind_some]
    dsimp only
    rw [hdigits, Option.bind_eq_bind, zeros_step _ (by omega), Option.bind_some]
    have hcount : m-(binary.text value).length =
        ((m : ℤ)-(binary.text value).length).toNat := by omega
    rw [hcount, ← padded, announce_step _ (by omega)]
  · rw [List.length_cons, List.length_cons]
    omega

theorem formatp_prints {pad : ℤ} {value : ℕ} (hpad : pad ≤ 128) (hv : value < 2^64) :
    Prints (formatp pad value) (textp pad value) := by
  rw [textp]
  by_cases hz : value = 0
  · rw [if_pos hz]
    have hzero : Prints (formatZero '0' pad) (padded '0' pad ['0'.toNat]) :=
      formatZero_prints (by decide) hpad
    refine ⟨?_, hzero.fits, hzero.nonzero⟩
    intro b
    rw [formatp, if_pos hz]
    exact hzero.eq b
  · have hlen := hexadecimal_length hv
    rw [if_neg hz]
    refine ⟨?_, ?_, padded_nonzero (by decide) (text_nonzero value)⟩
    · intro b
      rw [formatp, if_neg hz, writeDigits_buffer (by omega)]
      simp only [Option.bind_eq_bind, Option.bind_some]
      have hcount : ((if ((hexadecimal.text value).length : ℤ) > pad then
            16-((hexadecimal.text value).length : ℤ) else 0)+
          (if ((hexadecimal.text value).length : ℤ) < pad then
            pad-(hexadecimal.text value).length else 0)).toNat =
          ((if ((hexadecimal.text value).length : ℤ) > pad then 16 else pad)-
            ((hexadecimal.text value).length : ℤ)).toNat := by
        split <;> split <;> omega
      rw [hcount, zeros_step, Option.bind_some, ← padded]
      · congr 2
        omega
      · split <;> omega
    · rw [padded_length]
      split <;> omega

end Branches

/-- The text of a formatter. -/
def Formatter.text : Formatter → ℤ → ℤ → List ℕ
  | .d, pad, value | .l, pad, value => textSigned pad value
  | .u, pad, value | .ul, pad, value => textUnsigned pad value.toNat
  | .x is64, _, value => textx is64 value.toNat
  | .p, pad, value => textp pad value.toNat
  | .b, _, value => textb value.toNat

/-- Every formatter writes its text, the most negative numbers apart. -/
theorem Formatter.prints {F : Formatter} {pad value : ℤ} (hpad : pad ≤ 128)
    (hv : F.InRange value) (hm : ¬ F.MostNegative value) :
    Prints (F.format pad value) (F.text pad value) := by
  cases F with
  | d =>
    have hne : value ≠ -2^31 := hm
    have hr : -2^31 ≤ value ∧ value < 2^31 := hv
    exact formatSigned_prints hpad (Or.inl rfl) ⟨by omega, hr.2⟩
  | u =>
    have hr : 0 ≤ value ∧ value < 2^32 := hv
    exact formatUnsigned_prints hpad (by omega)
  | l =>
    have hne : value ≠ -2^63 := hm
    have hr : -2^63 ≤ value ∧ value < 2^63 := hv
    exact formatSigned_prints hpad (Or.inr rfl) ⟨by omega, hr.2⟩
  | ul =>
    have hr : 0 ≤ value ∧ value < 2^64 := hv
    exact formatUnsigned_prints hpad (by omega)
  | x is64 =>
    have hr : 0 ≤ value ∧ value < 2^64 := hv
    exact formatx_prints is64 (by omega)
  | p =>
    have hr : 0 ≤ value ∧ value < 2^64 := hv
    exact formatp_prints hpad (by omega)
  | b =>
    have hr : 0 ≤ value ∧ value < 2^64 := hv
    exact formatb_prints (by omega)

section Reading

theorem padded_none (fill : Char) (t : List ℕ) : padded fill 0 t = t := by
  have hzero : (0-(t.length : ℤ)).toNat = 0 := by omega
  rw [padded, hzero, List.replicate_zero, List.nil_append]

theorem readSigned_digits {t : List ℕ} (ht : ∀ c ∈ t, c ∈ decimal.digits) :
    readSigned t = (decimal.read t).map (fun n : ℕ => (n : ℤ)) := by
  cases t with
  | nil => rfl
  | cons c t =>
    have hc : c ≠ '-'.toNat := by
      rintro rfl
      exact absurd (ht _ List.mem_cons_self) (by decide)
    rw [readSigned, if_neg hc]

theorem readSigned_textSigned (value : ℤ) : readSigned (textSigned 0 value) = some value := by
  rw [textSigned]
  by_cases hz : value = 0
  · subst hz
    rw [if_pos rfl, padded_none]
    decide
  · have hpos : 0 < value.natAbs := Int.natAbs_pos.mpr hz
    rw [if_neg hz]
    by_cases hneg : value < 0
    · have hnone : padded ' ' (0-1) (decimal.text value.natAbs) = decimal.text value.natAbs := by
        have hzero : (0-1-((decimal.text value.natAbs).length : ℤ)).toNat = 0 := by omega
        rw [padded, hzero, List.replicate_zero, List.nil_append]
      rw [if_pos hneg, hnone, readSigned, if_pos rfl, read_text hpos, Option.map_some]
      congr 1
      omega
    · rw [if_neg hneg, padded_none, readSigned_digits (fun c hc => text_mem hc), read_text hpos,
        Option.map_some]
      congr 1
      omega

theorem read_textUnsigned (value : ℕ) : decimal.read (textUnsigned 0 value) = some value := by
  rw [textUnsigned]
  by_cases hz : value = 0
  · subst hz
    rw [if_pos rfl, padded_none]
    decide
  · rw [if_neg hz, padded_none, read_text (Nat.pos_of_ne_zero hz)]

/-- Zeros in front of hexadecimal or binary digits are read over. -/
theorem read_padded {R : Radix} (hR : R.digits.getD 0 0 = '0'.toNat) {k : ℤ} {n : ℕ}
    (h : 0 < k ∨ 0 < n) : R.read (padded '0' k (R.text n)) = some n := by
  rw [padded, ← hR]
  refine read_zeros ?_
  rcases Nat.eq_zero_or_pos n with rfl | hn
  · rw [text_zero]
    simp only [List.length_nil]
    omega
  · exact Or.inr hn

theorem readAnnounced_text (R : Radix) (letter : Char) (t : List ℕ) :
    readAnnounced R letter ('0'.toNat :: letter.toNat :: t) =
      (R.read t).map (fun n : ℕ => (n : ℤ)) := by
  rw [readAnnounced, if_pos ⟨rfl, rfl⟩]

theorem maxBit_pos (value : ℕ) : 0 < maxBit value ∨ 0 < value := by
  rcases Nat.eq_zero_or_pos value with rfl | hpos
  · left
    decide
  · exact Or.inr hpos

/-- The text of a value without padding reads back as the value. -/
theorem Formatter.read_text {F : Formatter} {value : ℤ} (hv : F.InRange value) :
    F.read (F.text 0 value) = some value := by
  cases F with
  | d => exact readSigned_textSigned value
  | l => exact readSigned_textSigned value
  | u =>
    have hr : 0 ≤ value ∧ value < 2^32 := hv
    show (decimal.read (textUnsigned 0 value.toNat)).map _ = _
    rw [read_textUnsigned, Option.map_some, Int.toNat_of_nonneg hr.1]
  | ul =>
    have hr : 0 ≤ value ∧ value < 2^64 := hv
    show (decimal.read (textUnsigned 0 value.toNat)).map _ = _
    rw [read_textUnsigned, Option.map_some, Int.toNat_of_nonneg hr.1]
  | x is64 =>
    have hr : 0 ≤ value ∧ value < 2^64 := hv
    have hwidth : 0 < ((8*(1+is64.toNat) : ℕ) : ℤ) := by cases is64 <;> decide
    show readAnnounced hexadecimal 'x' (textx is64 value.toNat) = _
    rw [textx, readAnnounced_text, read_padded rfl (Or.inl hwidth), Option.map_some,
      Int.toNat_of_nonneg hr.1]
  | p =>
    have hr : 0 ≤ value ∧ value < 2^64 := hv
    show (hexadecimal.read (textp 0 value.toNat)).map _ = _
    rw [textp]
    by_cases hz : value.toNat = 0
    · rw [if_pos hz, padded_none]
      have hval : value = 0 := by omega
      subst hval
      decide
    · rw [if_neg hz, read_padded rfl (Or.inr (Nat.pos_of_ne_zero hz)), Option.map_some,
        Int.toNat_of_nonneg hr.1]
  | b =>
    have hr : 0 ≤ value ∧ value < 2^64 := hv
    show readAnnounced binary 'b' (textb value.toNat) = _
    rw [textb, readAnnounced_text, read_padded rfl (by exact_mod_cast maxBit_pos value.toNat),
      Option.map_some, Int.toNat_of_nonneg hr.1]

/-- The most negative number is still negative after the multiplication, and its first remainder
is no index of the digit characters. -/
theorem formatSigned_most_negative {w : ℕ} (hw : w = 32 ∨ w = 64) (pad : ℤ) (b : Buffer) :
    formatSigned w pad (-2^(w-1)) b = none := by
  rcases hw with rfl | rfl
  · rw [formatSigned, if_neg (by decide), if_pos (by decide)]
    dsimp only
    have hval : ((-2^(32-1) : ℤ)*(-1*1+1*(1-1))).bmod (2^32) = -2^31 := by decide
    rw [hval, Radix.writeDigits, dif_neg (by decide)]
    rfl
  · rw [formatSigned, if_neg (by decide), if_pos (by decide)]
    dsimp only
    have hval : ((-2^(64-1) : ℤ)*(-1*1+1*(1-1))).bmod (2^64) = -2^63 := by decide
    rw [hval, Radix.writeDigits, dif_neg (by decide)]
    rfl

end Reading

/-- Every value of every argument type is formatted without loss, except the most negative
values of the two signed types. -/
theorem lossless_iff (F : Formatter) (value : ℤ) (hv : F.InRange value) :
    Lossless F value ↔ ¬ F.MostNegative value := by
  constructor
  · intro h hm
    obtain ⟨b, p, t, hformat, -, -⟩ := h.text
    cases F with
    | d =>
      obtain rfl : value = -2^31 := hm
      have hnone := formatSigned_most_negative (Or.inl rfl) 0 (fun _ => 0)
      exact absurd (hnone.symm.trans hformat) (by simp)
    | l =>
      obtain rfl : value = -2^63 := hm
      have hnone := formatSigned_most_negative (Or.inr rfl) 0 (fun _ => 0)
      exact absurd (hnone.symm.trans hformat) (by simp)
    | u => exact hm
    | ul => exact hm
    | x is64 => exact hm
    | p => exact hm
    | b => exact hm
  · intro hm
    have hprints := Formatter.prints (show (0 : ℤ) ≤ 128 by decide) hv hm
    constructor
    · exact ⟨_, _, _, hprints.eq _, hprints.read, Formatter.read_text hv⟩
    · intro b
      exact ⟨_, _, hprints.eq b, fun i hi => place_above _ hi⟩

/-- -2^31 makes `formatd` read in front of its digit characters. -/
theorem formatd_min :
    Formatter.d.InRange (-2^31) ∧ formatd 0 (-2^31) (fun _ => 0) = none ∧
      ¬ Lossless .d (-2^31) := by
  have hnone : formatd 0 (-2^31) (fun _ => 0) = none := formatSigned_most_negative (Or.inl rfl) 0 _
  refine ⟨by decide, hnone, ?_⟩
  intro h
  obtain ⟨b, p, t, hformat, -, -⟩ := h.text
  exact absurd (hnone.symm.trans hformat) (by simp)

theorem lossless_small : Lossless .l (-2^62) :=
  (lossless_iff .l (-2^62) (by decide)).mpr (show (-2^62 : ℤ) ≠ -2^63 by decide)

end BruhOS.KernelIo
