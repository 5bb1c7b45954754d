import Mathlib.Data.List.GetD
import Mathlib.Data.List.TakeWhile
import Mathlib.Data.Nat.Digits.Lemmas
import Mathlib.Tactic

/-!
# Text written into a buffer

A buffer holds character codes under integer offsets and refuses writes
outside its bounds. Digits are written backwards, from the last one on, so
that a text grows at its front; `place` is the buffer after a whole text has
been written in front of an offset. A radix is its list of digit characters,
and reading a text back inverts the list.
-/

set_option autoImplicit false

namespace BruhOS.TextBuffer

abbrev Buffer := ℤ → ℕ

/-- A write, refused outside the buffer. -/
def store (size : ℤ) (b : Buffer) (p : ℤ) (c : ℕ) : Option Buffer :=
  if 0 ≤ p ∧ p < size then some (Function.update b p c) else none

/-- `n` writes from `p` upwards. -/
def fillUp (size : ℤ) (c : ℕ) : ℕ → ℤ → Buffer → Option Buffer
  | 0, _, b => some b
  | n+1, p, b => do
    let b ← store size b p c
    fillUp size c n (p+1) b

/-- `n` writes from `p` downwards, and the offset below the last. -/
def fillDown (size : ℤ) (c : ℕ) : ℕ → ℤ → Buffer → Option (Buffer × ℤ)
  | 0, p, b => some (b, p)
  | n+1, p, b => do
    let b ← store size b p c
    fillDown size c n (p-1) b

/-- `n` writes downwards from below `p`, and the offset of the last. -/
def fillBelow (size : ℤ) (c : ℕ) : ℕ → ℤ → Buffer → Option (Buffer × ℤ)
  | 0, p, b => some (b, p)
  | n+1, p, b => do
    let b ← store size b (p-1) c
    fillBelow size c n (p-1) b

/-- The characters from `p` to the next NUL, if it is one of the next `n`. -/
def readUpTo (b : Buffer) : ℕ → ℤ → Option (List ℕ)
  | 0, _ => none
  | n+1, p => if b p = 0 then some [] else (readUpTo b n (p+1)).map (b p :: ·)

def readText (size : ℤ) (b : Buffer) (p : ℤ) : Option (List ℕ) :=
  if 0 ≤ p then readUpTo b (size-p).toNat p else none

/-- The character at an index of a NUL-terminated string, refused behind the terminator. -/
def charAt (string : List ℕ) (i : ℕ) : Option ℕ := (string++[0])[i]?

/-- The buffer with a text right before the offset `e`. -/
def place (e : ℤ) (b : Buffer) : List ℕ → Buffer
  | [] => b
  | c::t => Function.update (place e b t) (e-t.length-1) c

section Strings

theorem charAt_le {string : List ℕ} {i c : ℕ} (h : charAt string i = some c) :
    i ≤ string.length := by
  have hlt := (List.getElem?_eq_some_iff.mp h).1
  simp at hlt
  omega

theorem charAt_cons (before : List ℕ) (c : ℕ) (rest : List ℕ) :
    charAt (before++c::rest) before.length = some c := by
  simp [charAt]

theorem charAt_end (string : List ℕ) : charAt string string.length = some 0 := by
  simp [charAt]

/-- A string is some characters of a kind and what follows them. -/
theorem exists_span (P : ℕ → Prop) [DecidablePred P] (string : List ℕ) : ∃ front tail : List ℕ,
    string = front++tail ∧ (∀ c ∈ front, P c) ∧ ∀ c ∈ tail.head?, ¬ P c := by
  refine ⟨string.takeWhile (fun c => decide (P c)), string.dropWhile (fun c => decide (P c)),
    List.takeWhile_append_dropWhile.symm, ?_, ?_⟩
  · intro c hc
    simpa using List.mem_takeWhile_imp hc
  · intro c hc
    have hhead := List.head?_dropWhile_not (fun c => decide (P c)) string
    rw [Option.mem_def.mp hc] at hhead
    simpa using hhead

theorem announced_nonzero {c : Char} {t : List ℕ} (hc : c.toNat ≠ 0) (ht : ∀ d ∈ t, d ≠ 0) :
    ∀ d ∈ '0'.toNat :: c.toNat :: t, d ≠ 0 := by
  intro d hd
  rcases List.mem_cons.mp hd with rfl | hd
  · decide
  · rcases List.mem_cons.mp hd with rfl | hd
    · exact hc
    · exact ht d hd

end Strings

section Place

variable {size e : ℤ} {b : Buffer}

theorem place_above (t : List ℕ) {i : ℤ} (hi : e ≤ i) : place e b t i = b i := by
  induction t with
  | nil => rfl
  | cons c t ih => rw [place, Function.update_of_ne (by omega), ih]

theorem place_below (t : List ℕ) {i : ℤ} (hi : i < e-t.length) : place e b t i = b i := by
  induction t with
  | nil => rfl
  | cons c t ih =>
    rw [List.length_cons] at hi
    rw [place, Function.update_of_ne (by omega), ih (by omega)]

theorem store_place {t : List ℕ} {p : ℤ} (c : ℕ) (he : e ≤ size) (hp : p = e-t.length-1)
    (h0 : 0 ≤ p) : store size (place e b t) p c = some (place e b (c::t)) := by
  rw [store, if_pos (by omega), hp]
  rfl

theorem fillUp_eq (c n : ℕ) (p : ℤ) (b : Buffer) (h0 : 0 ≤ p) (hn : p+n ≤ size) :
    fillUp size c n p b = some (fun i => if p ≤ i ∧ i < p+n then c else b i) := by
  induction n generalizing p b with
  | zero =>
    have hnone : ∀ i : ℤ, ¬ (p ≤ i ∧ i < p+(0:ℕ)) := fun i => by omega
    simp only [fillUp, hnone, if_false]
  | succ n ih =>
    push_cast at hn ⊢
    rw [fillUp, store, if_pos (by omega)]
    show fillUp size c n (p+1) _ = _
    rw [ih _ _ (by omega) (by omega)]
    congr 1
    funext i
    by_cases hi : i = p
    · subst hi
      rw [if_neg (by omega), if_pos (by omega), Function.update_self]
    · rw [Function.update_of_ne hi]
      congr 1
      apply propext
      omega

theorem place_replicate (c n : ℕ) (t : List ℕ) (i : ℤ) :
    place e b (List.replicate n c++t) i =
      if e-t.length-n ≤ i ∧ i < e-t.length then c else place e b t i := by
  induction n with
  | zero => rw [if_neg (by omega), List.replicate_zero, List.nil_append]
  | succ n ih =>
    rw [List.replicate_succ, List.cons_append, place]
    push_cast [List.length_append, List.length_replicate]
    by_cases hi : i = e-(n+t.length)-1
    · subst hi
      rw [Function.update_self, if_pos (by omega)]
    · rw [Function.update_of_ne hi, ih]
      congr 1
      apply propext
      omega

/-- `memset` in front of a text. -/
theorem fillUp_place (c n : ℕ) {t : List ℕ} {p : ℤ} (he : e ≤ size) (hp : p = e-t.length-n)
    (h0 : 0 ≤ p) : fillUp size c n p (place e b t) = some (place e b (List.replicate n c++t)) := by
  rw [fillUp_eq c n p _ h0 (by omega)]
  congr 1
  funext i
  rw [place_replicate, hp]
  congr 1
  apply propext
  omega

theorem fillDown_place (c n : ℕ) {t : List ℕ} {p : ℤ} (he : e ≤ size) (hp : p = e-t.length-1)
    (h0 : (n : ℤ) ≤ p+1) : fillDown size c n p (place e b t) =
      some (place e b (List.replicate n c++t), p-n) := by
  induction n generalizing t p with
  | zero => simp [fillDown]
  | succ n ih =>
    push_cast at h0 ⊢
    rw [fillDown, store_place c he hp (by omega)]
    show fillDown size c n (p-1) _ = _
    rw [ih (by rw [List.length_cons]; omega) (by omega), List.replicate_succ', List.append_assoc,
      List.singleton_append]
    congr 2
    omega

theorem fillBelow_place (c n : ℕ) {t : List ℕ} {p : ℤ} (he : e ≤ size) (hp : p = e-t.length)
    (h0 : (n : ℤ) ≤ p) : fillBelow size c n p (place e b t) =
      some (place e b (List.replicate n c++t), p-n) := by
  induction n generalizing t p with
  | zero => simp [fillBelow]
  | succ n ih =>
    push_cast at h0 ⊢
    rw [fillBelow, store_place c he (by omega) (by omega)]
    show fillBelow size c n (p-1) _ = _
    rw [ih (by rw [List.length_cons]; omega) (by omega), List.replicate_succ', List.append_assoc,
      List.singleton_append]
    congr 2
    omega

/-- A longer text has the same end. -/
theorem place_append (v t : List ℕ) {i : ℤ} (hi : e-t.length ≤ i) :
    place e b (v++t) i = place e b t i := by
  induction v with
  | nil => rfl
  | cons c v ih =>
    rw [List.cons_append, place, Function.update_of_ne, ih]
    rw [List.length_append]
    push_cast
    omega

/-- Only the characters of the text matter for reading it. -/
theorem readUpTo_agree {b' : Buffer} (u v : List ℕ) (n : ℕ) (hn : u.length < n)
    (hu : ∀ c ∈ u, c ≠ 0) (he : b' e = 0)
    (hb : ∀ i, e-u.length ≤ i → i < e → b' i = place e b (v++u) i) :
    readUpTo b' n (e-u.length) = some u := by
  induction u generalizing v n with
  | nil =>
    obtain ⟨k, rfl⟩ : ∃ k, n = k+1 := ⟨n-1, by simp at hn; omega⟩
    have hend : b' (e-([] : List ℕ).length) = 0 := by simpa using he
    rw [readUpTo, if_pos hend]
  | cons c u ih =>
    rw [List.length_cons] at hn
    obtain ⟨k, rfl⟩ : ∃ k, n = k+1 := ⟨n-1, by omega⟩
    have hoff : e-(c::u).length = e-u.length-1 := by
      rw [List.length_cons]
      omega
    have hfirst : b' (e-(c::u).length) = c := by
      rw [hb _ le_rfl (by omega), place_append v (c::u) le_rfl, place, hoff, Function.update_self]
    have hnext : e-(c::u).length+1 = e-u.length := by omega
    have hrest := ih (v++[c]) k (by omega) (fun d hd => hu d (List.mem_cons_of_mem _ hd))
      (fun i h1 h2 => by
        rw [List.append_assoc, List.singleton_append]
        exact hb i (by omega) h2)
    rw [readUpTo, hfirst, if_neg (hu c List.mem_cons_self), hnext, hrest]
    rfl

/-- A buffer that holds a text without NUL in front of one reads as the text. -/
theorem readText_agree {b' : Buffer} {t : List ℕ} {p : ℤ} (he : e < size) (h0 : 0 ≤ p)
    (hp : p = e-t.length) (ht : ∀ c ∈ t, c ≠ 0) (hend : b' e = 0)
    (hb : ∀ i, p ≤ i → i < e → b' i = place e b t i) : readText size b' p = some t := by
  rw [readText, if_pos h0, hp]
  exact readUpTo_agree t [] _ (by omega) ht hend (fun i h1 h2 => hb i (by omega) h2)

/-- A text without NUL that ends before one is read back. -/
theorem readText_place {t : List ℕ} {p : ℤ} (he : e < size) (hb : b e = 0) (hp : p = e-t.length)
    (h0 : 0 ≤ p) (ht : ∀ c ∈ t, c ≠ 0) : readText size (place e b t) p = some t :=
  readText_agree he h0 hp ht ((place_above t le_rfl).trans hb) (fun _ _ _ => rfl)

/-- Inside the text the buffer below does not matter. -/
theorem place_inside (b b' : Buffer) (t : List ℕ) {i : ℤ} (hlo : e-t.length ≤ i) (hi : i < e) :
    place e b t i = place e b' t i := by
  induction t with
  | nil =>
    rw [List.length_nil] at hlo
    omega
  | cons c t ih =>
    rw [List.length_cons] at hlo
    rw [place, place]
    by_cases heq : i = e-t.length-1
    · rw [heq, Function.update_self, Function.update_self]
    · rw [Function.update_of_ne heq, Function.update_of_ne heq, ih (by omega)]

/-- A character behind a text. -/
theorem place_snoc (t : List ℕ) (c : ℕ) :
    Function.update (place e b t) e c = place (e+1) b (t++[c]) := by
  induction t with
  | nil =>
    have hoff : e+1-([] : List ℕ).length-1 = e := by
      rw [List.length_nil]
      omega
    rw [List.nil_append, place, place, place, hoff]
  | cons d t ih =>
    have hoff : e+1-(t++[c]).length-1 = e-t.length-1 := by
      rw [List.length_append, List.length_singleton]
      omega
    rw [List.cons_append, place, place, ← ih, hoff, Function.update_comm (by omega)]

/-- A filled range in front of a text, possibly longer than the room in front of it. -/
theorem place_fill (c n k : ℕ) (t : List ℕ) {p i : ℤ} (hp : p = e-t.length-n) (hk : n ≤ k)
    (hlo : p ≤ i) (hi : i < e) :
    place e (fun j => if p ≤ j ∧ j < p+k then c else b j) t i =
      place e b (List.replicate n c++t) i := by
  rw [place_replicate]
  by_cases hin : i < e-t.length
  · rw [place_below t hin, if_pos (by omega), if_pos (by omega)]
  · rw [if_neg (by omega), place_inside _ b t (by omega) hi]

end Place

/-- The digit characters of a number system: at least two, distinct, and no NUL. -/
structure Radix where
  digits : List ℕ
  two_le : 2 ≤ digits.length
  nodup : digits.Nodup
  nonzero : ∀ c ∈ digits, c ≠ 0

namespace Radix

variable (R : Radix)

def base : ℕ := R.digits.length

/-- `Representation[i]`, refused outside the array. -/
def digit (i : ℤ) : Option ℕ := if 0 ≤ i then R.digits[i.toNat]? else none

theorem base_pos : 1 < R.base := R.two_le

/-- The digits of `value` written downwards from `p`, counted; the division truncates. -/
def writeDigits (size : ℤ) (value p : ℤ) (count : ℕ) (b : Buffer) : Option (Buffer × ℤ × ℕ) :=
  if h : value = 0 then some (b, p, count) else do
    let c ← R.digit (value.tmod R.base)
    let b ← store size b p c
    writeDigits size (value.tdiv R.base) (p-1) (count+1) b
termination_by value.natAbs
decreasing_by
  rw [Int.natAbs_tdiv]
  exact Nat.div_lt_self (Int.natAbs_pos.mpr h) R.base_pos

/-- The digits of a number, none for zero. -/
def text (n : ℕ) : List ℕ := (R.base.digits n).reverse.map (fun d => R.digits.getD d 0)

/-- The value of some digits behind a number. -/
def readDigits (acc : ℕ) : List ℕ → Option ℕ
  | [] => some acc
  | c::t => (R.digits.idxOf? c).bind (fun d => readDigits (acc*R.base+d) t)

/-- The number that a text of at least one digit shows. -/
def read (t : List ℕ) : Option ℕ := if t = [] then none else R.readDigits 0 t

end Radix

/-- `"0123456789"`. -/
def decimal : Radix where
  digits := ['0', '1', '2', '3', '4', '5', '6', '7', '8', '9'].map Char.toNat
  two_le := by decide
  nodup := by decide
  nonzero := by decide

/-- `"0123456789ABCDEF"`. -/
def hexadecimal : Radix where
  digits := ['0', '1', '2', '3', '4', '5', '6', '7', '8', '9', 'A', 'B', 'C', 'D', 'E', 'F'].map
    Char.toNat
  two_le := by decide
  nodup := by decide
  nonzero := by decide

/-- `"0123456789abcdef"`. -/
def hexLower : Radix where
  digits := ['0', '1', '2', '3', '4', '5', '6', '7', '8', '9', 'a', 'b', 'c', 'd', 'e', 'f'].map
    Char.toNat
  two_le := by decide
  nodup := by decide
  nonzero := by decide

/-- `"01"`. -/
def binary : Radix where
  digits := ['0', '1'].map Char.toNat
  two_le := by decide
  nodup := by decide
  nonzero := by decide

section Digits

variable {R : Radix}

theorem digit_of_lt {d : ℕ} (hd : d < R.base) : R.digit d = some (R.digits.getD d 0) := by
  rw [Radix.digit, if_pos (Int.natCast_nonneg d), Int.toNat_natCast,
    List.getD_eq_getElem _ _ hd, List.getElem?_eq_getElem hd]

theorem text_zero : R.text 0 = [] := by
  rw [Radix.text, Nat.digits_zero]
  rfl

theorem text_step {n : ℕ} (hn : 0 < n) :
    R.text n = R.text (n/R.base)++[R.digits.getD (n%R.base) 0] := by
  rw [Radix.text, Nat.digits_def' R.base_pos hn, List.reverse_cons, List.map_append]
  rfl

theorem text_length (n : ℕ) : (R.text n).length = (R.base.digits n).length := by
  rw [Radix.text, List.length_map, List.length_reverse]

/-- The number of digits of a bounded number. -/
theorem text_length_le {R : Radix} {n k : ℕ} (h : n < R.base^k) : (R.text n).length ≤ k := by
  rw [text_length]
  exact (Nat.digits_length_le_iff R.base_pos n).mpr h

theorem text_mem {n c : ℕ} (hc : c ∈ R.text n) : c ∈ R.digits := by
  obtain ⟨d, hd, rfl⟩ := List.mem_map.mp hc
  have hlt : d < R.digits.length := Nat.digits_lt_base R.base_pos (List.mem_reverse.mp hd)
  rw [List.getD_eq_getElem _ _ hlt]
  exact List.getElem_mem hlt

theorem text_nonzero (n : ℕ) : ∀ c ∈ R.text n, c ≠ 0 := fun c hc => R.nonzero c (text_mem hc)

theorem text_ne_nil {n : ℕ} (hn : 0 < n) : R.text n ≠ [] := by
  rw [text_step hn]
  simp

/-- The loop writes the digits of a natural number in front of a text. -/
theorem writeDigits_place {size e : ℤ} {b : Buffer} (he : e ≤ size) (n : ℕ) {t : List ℕ} {p : ℤ}
    {count : ℕ} (hp : p = e-t.length-1) (h0 : ((R.text n).length : ℤ) ≤ p+1) :
    R.writeDigits size n p count (place e b t) =
      some (place e b (R.text n++t), p-(R.text n).length, count+(R.text n).length) := by
  induction n using Nat.strong_induction_on generalizing t p count with
  | _ n ih =>
    rw [Radix.writeDigits]
    by_cases hz : n = 0
    · subst hz
      rw [dif_pos (by rfl), text_zero]
      simp
    · have hpos : 0 < n := Nat.pos_of_ne_zero hz
      have hlt : n/R.base < n := Nat.div_lt_self hpos R.base_pos
      have hmod : n%R.base < R.base := Nat.mod_lt _ (by have := R.base_pos; omega)
      rw [dif_neg (by exact_mod_cast hz), ← Int.ofNat_tmod, ← Int.ofNat_tdiv, digit_of_lt hmod]
      rw [text_step hpos, List.length_append, List.length_singleton] at h0 ⊢
      rw [Nat.cast_add, Nat.cast_one] at h0 ⊢
      show (store size _ p _).bind _ = _
      rw [store_place _ he hp (by omega)]
      show R.writeDigits size _ (p-1) (count+1) _ = _
      rw [ih _ hlt (by rw [List.length_cons]; omega) (by omega), List.append_assoc]
      simp only [List.singleton_append, Option.some.injEq, Prod.mk.injEq, true_and]
      omega

theorem readDigits_append (acc : ℕ) (t u : List ℕ) :
    R.readDigits acc (t++u) = (R.readDigits acc t).bind (fun a => R.readDigits a u) := by
  induction t generalizing acc with
  | nil => rfl
  | cons c t ih =>
    rw [List.cons_append, Radix.readDigits, Radix.readDigits]
    cases R.digits.idxOf? c with
    | none => rfl
    | some d => exact ih _

theorem readDigits_digit (acc : ℕ) {d : ℕ} (hd : d < R.base) :
    R.readDigits acc [R.digits.getD d 0] = some (acc*R.base+d) := by
  have hlt : d < R.digits.length := hd
  have hidx : R.digits.idxOf? (R.digits.getD d 0) = some d := by
    rw [List.getD_eq_getElem _ _ hlt, List.idxOf?, List.findIdx?_eq_some_iff_getElem]
    refine ⟨hlt, by simp, ?_⟩
    intro j hj
    simp only [beq_iff_eq]
    exact fun h => hj.ne (R.nodup.getElem_inj_iff.mp h)
  rw [Radix.readDigits, hidx]
  rfl

/-- Reading the digits of a number behind zero gives the number. -/
theorem readDigits_text (n : ℕ) : R.readDigits 0 (R.text n) = some n := by
  induction n using Nat.strong_induction_on with
  | _ n ih =>
    by_cases hz : n = 0
    · rw [hz, text_zero]
      rfl
    · have hpos : 0 < n := Nat.pos_of_ne_zero hz
      have hmod : n%R.base < R.base := Nat.mod_lt _ (by have := R.base_pos; omega)
      rw [text_step hpos, readDigits_append, ih _ (Nat.div_lt_self hpos R.base_pos)]
      show R.readDigits (n/R.base) _ = _
      rw [readDigits_digit _ hmod, Nat.mul_comm, Nat.div_add_mod]

/-- Leading zeros do not change a number. -/
theorem readDigits_zeros (k : ℕ) (t : List ℕ) :
    R.readDigits 0 (List.replicate k (R.digits.getD 0 0)++t) = R.readDigits 0 t := by
  induction k with
  | zero => rfl
  | succ k ih =>
    have hzero := readDigits_digit (R := R) 0 (d := 0) (by have := R.base_pos; omega)
    rw [List.replicate_succ, List.cons_append, ← List.singleton_append, readDigits_append, hzero]
    simpa using ih

theorem read_zeros {k n : ℕ} (h : 0 < k ∨ 0 < n) :
    R.read (List.replicate k (R.digits.getD 0 0)++R.text n) = some n := by
  have hne : List.replicate k (R.digits.getD 0 0)++R.text n ≠ [] := by
    rcases h with hk | hn
    · simp [hk.ne']
    · simp [text_ne_nil hn]
  rw [Radix.read, if_neg hne, readDigits_zeros, readDigits_text]

theorem read_text {n : ℕ} (hn : 0 < n) : R.read (R.text n) = some n :=
  read_zeros (k := 0) (Or.inr hn)

end Digits

end BruhOS.TextBuffer
