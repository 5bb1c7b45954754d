import BruhOS.KernelFormat

/-!
# The formatted print of the kernel

`print_internal` walks a format with a pointer and keeps two 32-bit indices in
step with it: the characters between them are those not yet printed. A number
is formatted into a static buffer, printed from there, and its text is set to
zero again. A percent sign without a known specifier is printed, the pointer
moves back, and reading goes on at the next character. The text of the last
number is printed again after every specifier that formats none; by then it is
empty.
-/

set_option autoImplicit false

namespace BruhOS.KernelIo

open BruhOS.TextBuffer

/-- What the console is told to do. -/
inductive Event where
  | char (c : ℕ)
  | newline
  deriving DecidableEq, Repr

/-- An argument, in the type it is passed with. -/
inductive Arg where
  | int32 (value : ℤ)
  | uint32 (value : ℤ)
  | int64 (value : ℤ)
  | uint64 (value : ℤ)
  | string (s : List ℕ)
  deriving DecidableEq, Repr

inductive Specifier where
  | d
  | x
  | X
  | p
  | z
  | u
  | b
  | s
  | c
  | l
  deriving DecidableEq, Repr

/-- The cases of the inner switch. -/
def specifier (ch : ℕ) : Option Specifier :=
  [('d'.toNat, Specifier.d), ('x'.toNat, .x), ('X'.toNat, .X), ('p'.toNat, .p), ('z'.toNat, .z),
    ('u'.toNat, .u), ('b'.toNat, .b), ('s'.toNat, .s), ('c'.toNat, .c), ('l'.toNat, .l)].lookup ch

/-- The formatter that a specifier calls, with the argument it takes. -/
def Specifier.number : Specifier → Arg → Option (Formatter × ℤ)
  | d, .int32 value => some (.d, value)
  | x, .uint32 value => some (.x false, value)
  | X, .uint64 value => some (.x true, value)
  | p, .uint64 value => some (.p, value)
  | z, .uint64 value => some (.ul, value)
  | u, .uint32 value => some (.u, value)
  | b, .uint64 value => some (.b, value)
  | l, .int64 value => some (.l, value)
  | _, _ => none

/-- The characters that `%s` and `%c` print. -/
def Specifier.chars : Specifier → Arg → Option (List ℕ)
  | s, .string text => some text
  | c, .int32 value => some [(value % 256).toNat]
  | _, _ => none

/-- The variables of `print_internal`; `c` is an index of the format, and `intToStr` an offset of
the buffer once it no longer points to `endl`. -/
structure PrintState where
  c : ℕ
  start : ℕ
  stop : ℕ
  args : List Arg
  buffer : Buffer
  intToStr : Option ℤ
  out : List Event

section Code

variable (string : List ℕ) (pad : ℤ)

/-- The inner loop, which moves `c` and `end` to the next percent sign, newline or end. -/
def findNext (c stop : ℕ) : Option (ℕ × ℕ) :=
  match h : charAt string c with
  | none => none
  | some ch =>
    if ch ≠ '%'.toNat ∧ ch ≠ '\n'.toNat ∧ ch ≠ 0 then findNext (c+1) ((stop+1) % 2^32)
    else some (c, stop)
termination_by string.length+1-c
decreasing_by
  have hle := charAt_le h
  omega

/-- The characters that `localConsoleWriteSubstring` prints. -/
def substring (start stop : ℕ) : Option (List ℕ) :=
  (List.range' start (stop-start)).mapM (charAt string)

/-- The text that `intToStr` points to. -/
def currentText (s : PrintState) : Option (List ℕ) :=
  match s.intToStr with
  | none => some []
  | some p => readText ITSbufSize s.buffer p

/-- `localConsoleWriteString(intToStr)`. -/
def writeText (s : PrintState) : Option PrintState :=
  (currentText s).map (fun t => { s with out := s.out++t.map Event.char })

/-- A specifier that formats a number: the text is printed and the buffer set to zero. -/
def printNumber (F : Formatter) (value : ℤ) (s : PrintState) : Option PrintState := do
  let r ← F.format pad value s.buffer
  let s ← writeText { s with buffer := r.1, intToStr := some r.2 }
  let buffer ← fillUp ITSbufSize 0 (ITSbufSize-r.2).toNat r.2 s.buffer
  some { s with buffer := buffer, start := (s.stop+1) % 2^32, stop := (s.stop+1) % 2^32 }

/-- The inner switch; `c` is at the percent sign and `end` behind it. -/
def printSpecifier (s : PrintState) : Option PrintState := do
  let ch ← charAt string (s.c+1)
  match specifier ch with
  | some sp =>
    match s.args with
    | [] => none
    | a::args =>
      match sp.number a with
      | some (F, value) => printNumber pad F value { s with c := s.c+1, args := args }
      | none => do
        let t ← sp.chars a
        let s ← writeText { s with c := s.c+1, args := args, out := s.out++t.map Event.char }
        some { s with start := (s.stop+1) % 2^32, stop := (s.stop+1) % 2^32 }
  | none => do
    -- `start = --end` and `--c`: the character behind the percent sign is read again
    let stop := (s.stop+(2^32-1)) % 2^32
    let s ← writeText { s with stop := stop, out := s.out++[.char '%'.toNat] }
    some { s with start := (s.stop+1) % 2^32, stop := (s.stop+1) % 2^32 }

/-- The body of the loop over the format. -/
def printBody (s : PrintState) : Option PrintState := do
  let next ← findNext string s.c s.stop
  let t ← substring string s.start next.2
  let stop := (next.2+1) % 2^32
  let s := { s with c := next.1, start := stop, stop := stop, out := s.out++t.map Event.char }
  let ch ← charAt string s.c
  if ch = '\n'.toNat then some { s with out := s.out++[.newline] }
  else if ch = 0 then some { s with c := s.c-1 }
  else if ch = '%'.toNat then printSpecifier string pad s
  else some s

/-- The loop over the format, for at most `n` rounds. -/
def printLoop : ℕ → PrintState → Option PrintState
  | 0, _ => none
  | n+1, s => do
    let ch ← charAt string s.c
    if ch = 0 then some s else do
      let s ← printBody string pad s
      printLoop n { s with c := s.c+1 }

def printInternal (args : List Arg) (buffer : Buffer) (n : ℕ) : Option PrintState :=
  printLoop string pad n ⟨0, 0, 0, args, buffer, none, []⟩

end Code

/-- The text of a conversion on a zeroed buffer. -/
def conversion (pad : ℤ) (sp : Specifier) (a : Arg) : Option (List ℕ) :=
  match sp.number a with
  | some (F, value) => do
    let r ← F.format pad value (fun _ => 0)
    readText ITSbufSize r.1 r.2
  | none => sp.chars a

/-- What a format means, read from the left. -/
def readFormat (pad : ℤ) : List ℕ → List Arg → Option (List Event)
  | [], _ => some []
  | ch::rest, args =>
    if ch = '\n'.toNat then (readFormat pad rest args).map (Event.newline :: ·)
    else if ch = '%'.toNat then
      match rest with
      | [] => some [.char ch]
      | next::rest' =>
        match specifier next with
        | none => (readFormat pad (next::rest') args).map (Event.char ch :: ·)
        | some sp =>
          match args with
          | [] => none
          | a::args => do
            let t ← conversion pad sp a
            (readFormat pad rest' args).map (t.map Event.char ++ ·)
    else (readFormat pad rest args).map (Event.char ch :: ·)

/-- An argument that a specifier takes, of a value other than the most negative. -/
def Specifier.Takes (sp : Specifier) (a : Arg) : Prop :=
  (∃ F value, sp.number a = some (F, value) ∧ F.InRange value ∧ ¬ F.MostNegative value) ∨
    (sp.number a = none ∧ ∃ t, sp.chars a = some t)

/-- The arguments that a format takes, and possibly more. -/
def Matches : List ℕ → List Arg → Prop
  | [], _ => True
  | ch::rest, args =>
    if ch = '%'.toNat then
      match rest with
      | [] => True
      | next::rest' =>
        match specifier next with
        | none => Matches (next::rest') args
        | some sp =>
          match args with
          | [] => False
          | a::args => sp.Takes a ∧ Matches rest' args
    else Matches rest args

section Reader

variable (pad : ℤ) {rest : List ℕ} {args : List Arg} {a : Arg} {ch : ℕ} {sp : Specifier}

theorem readFormat_newline : readFormat pad ('\n'.toNat::rest) args =
    (readFormat pad rest args).map (Event.newline :: ·) := by
  rw [readFormat.eq_def]
  exact if_pos rfl

theorem readFormat_char (h1 : ch ≠ '%'.toNat) (h2 : ch ≠ '\n'.toNat) :
    readFormat pad (ch::rest) args = (readFormat pad rest args).map (Event.char ch :: ·) := by
  rw [readFormat.eq_def]
  exact (if_neg h2).trans (if_neg h1)

theorem readFormat_last : readFormat pad ['%'.toNat] args = some [.char '%'.toNat] := by
  exact (if_neg (by decide)).trans (if_pos rfl)

theorem readFormat_unknown (h : specifier ch = none) : readFormat pad ('%'.toNat::ch::rest) args =
    (readFormat pad (ch::rest) args).map (Event.char '%'.toNat :: ·) := by
  refine (if_neg (by decide)).trans ((if_pos rfl).trans ?_)
  simp only [h]

theorem readFormat_known (h : specifier ch = some sp) :
    readFormat pad ('%'.toNat::ch::rest) (a::args) = (conversion pad sp a).bind
      (fun t => (readFormat pad rest args).map (t.map Event.char ++ ·)) := by
  refine (if_neg (by decide)).trans ((if_pos rfl).trans ?_)
  simp only [h]
  rfl

theorem matches_char (h1 : ch ≠ '%'.toNat) : Matches (ch::rest) args ↔ Matches rest args := by
  rw [Matches.eq_def]
  exact iff_of_eq (if_neg h1)

theorem matches_unknown (h : specifier ch = none) :
    Matches ('%'.toNat::ch::rest) args ↔ Matches (ch::rest) args := by
  refine iff_of_eq ((if_pos rfl).trans ?_)
  simp only [h]

theorem matches_known (h : specifier ch = some sp) : Matches ('%'.toNat::ch::rest) args ↔
    ∃ a args', args = a::args' ∧ sp.Takes a ∧ Matches rest args' := by
  refine (iff_of_eq (if_pos rfl)).trans ?_
  simp only [h]
  cases args with
  | nil => simp
  | cons a args => simp

end Reader

section Scan

/-- A character that the inner loop passes over. -/
def Plain (ch : ℕ) : Prop := ch ≠ '%'.toNat ∧ ch ≠ '\n'.toNat ∧ ch ≠ 0

instance (ch : ℕ) : Decidable (Plain ch) := inferInstanceAs (Decidable (_ ∧ _))

theorem findNext_plain {string : List ℕ} {c stop ch : ℕ} (h : charAt string c = some ch)
    (hp : Plain ch) : findNext string c stop = findNext string (c+1) ((stop+1) % 2^32) := by
  rw [findNext]
  split
  · next hn => rw [h] at hn; cases hn
  · next ch' hs =>
    obtain rfl : ch = ch' := Option.some.inj (h.symm.trans hs)
    exact if_pos hp

theorem findNext_stop {string : List ℕ} {c stop ch : ℕ} (h : charAt string c = some ch)
    (hp : ¬ Plain ch) : findNext string c stop = some (c, stop) := by
  rw [findNext]
  split
  · next hn => rw [h] at hn; cases hn
  · next ch' hs =>
    obtain rfl : ch = ch' := Option.some.inj (h.symm.trans hs)
    exact if_neg hp

/-- The inner loop stops behind the plain characters. -/
theorem findNext_eq (before plain rest : List ℕ) (stop : ℕ) (hplain : ∀ ch ∈ plain, Plain ch)
    (hrest : ∀ ch ∈ rest.head?, ¬ Plain ch) (hlen : stop+plain.length < 2^32) :
    findNext (before++(plain++rest)) before.length stop =
      some (before.length+plain.length, stop+plain.length) := by
  induction plain generalizing before stop with
  | nil =>
    cases rest with
    | nil =>
      have hend : charAt (before++([]++[])) before.length = some 0 := by
        simpa using charAt_end before
      exact findNext_stop hend (by decide)
    | cons ch rest => exact findNext_stop (charAt_cons before ch rest) (hrest ch rfl)
  | cons ch plain ih =>
    rw [List.length_cons] at hlen ⊢
    have hnext := ih (before++[ch]) (stop+1) (fun d hd => hplain d (List.mem_cons_of_mem _ hd))
      (by omega)
    rw [List.length_append, List.length_singleton, List.append_assoc, List.singleton_append]
      at hnext
    rw [List.cons_append, findNext_plain (charAt_cons before ch _) (hplain ch List.mem_cons_self),
      Nat.mod_eq_of_lt (by omega), hnext]
    congr 2 <;> omega

theorem substring_eq (before plain rest : List ℕ) :
    substring (before++(plain++rest)) before.length (before.length+plain.length) = some plain := by
  rw [substring, Nat.add_sub_cancel_left]
  induction plain generalizing before with
  | nil => rfl
  | cons ch plain ih =>
    have hnext := ih (before++[ch])
    rw [List.length_append, List.length_singleton, List.append_assoc, List.singleton_append]
      at hnext
    rw [List.length_cons, List.range'_succ, List.mapM_cons, List.cons_append,
      charAt_cons before ch (plain++rest), hnext]
    rfl

theorem readFormat_plain (pad : ℤ) {plain : List ℕ} (rest : List ℕ) (args : List Arg)
    (hplain : ∀ ch ∈ plain, Plain ch) : readFormat pad (plain++rest) args =
      (readFormat pad rest args).map (plain.map Event.char ++ ·) := by
  induction plain with
  | nil => simp
  | cons ch plain ih =>
    obtain ⟨h1, h2, -⟩ := hplain ch List.mem_cons_self
    rw [List.cons_append, readFormat_char pad h1 h2,
      ih (fun d hd => hplain d (List.mem_cons_of_mem _ hd)), Option.map_map]
    rfl

theorem matches_plain {plain : List ℕ} (rest : List ℕ) (args : List Arg)
    (hplain : ∀ ch ∈ plain, Plain ch) : Matches (plain++rest) args ↔ Matches rest args := by
  induction plain with
  | nil => rfl
  | cons ch plain ih =>
    obtain ⟨h1, -, -⟩ := hplain ch List.mem_cons_self
    rw [List.cons_append, matches_char h1]
    exact ih (fun d hd => hplain d (List.mem_cons_of_mem _ hd))

end Scan

def Zeroed (b : Buffer) : Prop := ∀ i, 0 ≤ i → i < ITSbufSize → b i = 0

/-- Between two specifiers the buffer is zero, and `intToStr` points to an empty text. -/
structure Idle (s : PrintState) : Prop where
  zeroed : Zeroed s.buffer
  pointer : ∀ p ∈ s.intToStr, 0 ≤ p ∧ p < ITSbufSize

section Numbers

theorem readText_zeroed {b : Buffer} {p : ℤ} (hb : Zeroed b) (h0 : 0 ≤ p) (hp : p < ITSbufSize) :
    readText ITSbufSize b p = some [] := by
  obtain ⟨n, hn⟩ : ∃ n, (ITSbufSize-p).toNat = n+1 := ⟨(ITSbufSize-p).toNat-1, by omega⟩
  rw [readText, if_pos h0, hn, readUpTo, if_pos (hb p h0 hp)]

theorem Idle.writeText {s : PrintState} (h : Idle s) : writeText s = some s := by
  have hempty : currentText s = some [] := by
    rw [currentText.eq_def]
    cases hp : s.intToStr with
    | none => rfl
    | some p =>
      obtain ⟨h0, hlt⟩ := h.pointer p hp
      exact readText_zeroed h.zeroed h0 hlt
  rw [KernelIo.writeText, hempty, Option.map_some, List.map_nil, List.append_nil]

/-- The `memset` behind a number leaves the buffer zero. -/
theorem clear_place {b : Buffer} {t : List ℕ} (hb : Zeroed b) (ht : t.length ≤ 139) :
    ∃ b', fillUp ITSbufSize 0 (ITSbufSize-(ITSbufSize-1-t.length)).toNat (ITSbufSize-1-t.length)
      (place (ITSbufSize-1) b t) = some b' ∧ Zeroed b' := by
  refine ⟨_, fillUp_eq _ _ _ _ (by rw [ITSbufSize]; omega) (by rw [ITSbufSize]; omega), ?_⟩
  intro i h0 hi
  dsimp only
  by_cases hin : ITSbufSize-1-t.length ≤ i
  · rw [if_pos (by omega)]
  · rw [if_neg (by omega), place_below _ (by omega), hb i h0 hi]

/-- The text of a number is printed and taken back. -/
theorem printNumber_eq {pad : ℤ} {F : Formatter} {value : ℤ} {s : PrintState} (hpad : pad ≤ 128)
    (hv : F.InRange value) (hm : ¬ F.MostNegative value) (hs : Idle s) :
    ∃ s', printNumber pad F value s = some s' ∧ Idle s' ∧ s'.c = s.c ∧ s'.args = s.args ∧
      s'.start = (s.stop+1) % 2^32 ∧ s'.stop = (s.stop+1) % 2^32 ∧
      s'.out = s.out++(F.text pad value).map Event.char := by
  have hprints := Formatter.prints hpad hv hm
  have hfits := hprints.fits
  obtain ⟨b', hclear, hzero⟩ := clear_place hs.zeroed hfits
  have hread : readText ITSbufSize (place (ITSbufSize-1) s.buffer (F.text pad value))
      (ITSbufSize-1-(F.text pad value).length) = some (F.text pad value) :=
    readText_place (by decide) (hs.zeroed _ (by decide) (by decide)) rfl
      (by rw [ITSbufSize]; omega) hprints.nonzero
  refine ⟨⟨s.c, (s.stop+1) % 2^32, (s.stop+1) % 2^32, s.args, b',
    some (ITSbufSize-1-(F.text pad value).length), s.out++(F.text pad value).map Event.char⟩,
    ?_, ⟨hzero, ?_⟩, rfl, rfl, rfl, rfl, rfl⟩
  · rw [printNumber, hprints.eq, Option.bind_eq_bind, Option.bind_some]
    dsimp only
    rw [writeText, currentText]
    dsimp only
    rw [hread, Option.map_some, Option.bind_eq_bind, Option.bind_some]
    dsimp only
    rw [hclear]
    rfl
  · intro p hp
    obtain rfl := Option.some.inj hp
    rw [ITSbufSize]
    omega

theorem conversion_number {pad : ℤ} {sp : Specifier} {a : Arg} {F : Formatter} {value : ℤ}
    (hpad : pad ≤ 128) (hn : sp.number a = some (F, value)) (hv : F.InRange value)
    (hm : ¬ F.MostNegative value) : conversion pad sp a = some (F.text pad value) := by
  have hprints := Formatter.prints hpad hv hm
  rw [conversion.eq_def, hn]
  dsimp only
  rw [hprints.eq]
  exact hprints.read

end Numbers

/-- The pointer is in front of the rest of the format, with both indices there while anything is
left. -/
structure Reading (string rest : List ℕ) (s : PrintState) : Prop where
  split : ∃ before, string = before++rest ∧ s.c = before.length
  indices : rest ≠ [] → s.start = s.c ∧ s.stop = s.c

section Steps

variable {string : List ℕ} {pad : ℤ} {s : PrintState} {ch : ℕ}

/-- An unknown specifier: the percent sign alone is printed. -/
theorem printSpecifier_unknown (h : charAt string (s.c+1) = some ch) (hsp : specifier ch = none)
    (hs : Idle s) (hstop : 0 < s.stop ∧ s.stop < 2^32) : printSpecifier string pad s =
      some { s with start := s.stop, out := s.out++[.char '%'.toNat] } := by
  have hback : ((s.stop+(2^32-1)) % 2^32+1) % 2^32 = s.stop := by omega
  have hidle : Idle { s with stop := (s.stop+(2^32-1)) % 2^32, out := s.out++[.char '%'.toNat] } :=
    ⟨hs.zeroed, hs.pointer⟩
  rw [printSpecifier, h, Option.bind_eq_bind, Option.bind_some]
  simp only [hsp]
  rw [hidle.writeText, Option.bind_eq_bind, Option.bind_some]
  dsimp only
  rw [hback]

/-- A known specifier: the text of its conversion is printed. -/
theorem printSpecifier_known {sp : Specifier} {a : Arg} {args : List Arg} (hpad : pad ≤ 128)
    (h : charAt string (s.c+1) = some ch) (hsp : specifier ch = some sp) (hargs : s.args = a::args)
    (ht : sp.Takes a) (hs : Idle s) : ∃ t s', conversion pad sp a = some t ∧
      printSpecifier string pad s = some s' ∧ Idle s' ∧ s'.c = s.c+1 ∧ s'.args = args ∧
      s'.start = (s.stop+1) % 2^32 ∧ s'.stop = (s.stop+1) % 2^32 ∧
      s'.out = s.out++t.map Event.char := by
  rw [printSpecifier, h, Option.bind_eq_bind, Option.bind_some]
  simp only [hsp, hargs]
  rcases ht with ⟨F, value, hn, hv, hm⟩ | ⟨hn, t, hchars⟩
  · have hidle : Idle { s with c := s.c+1, args := args } := ⟨hs.zeroed, hs.pointer⟩
    obtain ⟨s', hprint, h1, h2, h3, h4, h5, h6⟩ := printNumber_eq hpad hv hm hidle
    refine ⟨_, s', conversion_number hpad hn hv hm, ?_, h1, h2, h3, h4, h5, h6⟩
    simp only [hn]
    exact hprint
  · have hidle : Idle { s with c := s.c+1, args := args, out := s.out++t.map Event.char } :=
      ⟨hs.zeroed, hs.pointer⟩
    have hconv : conversion pad sp a = some t := by
      rw [conversion.eq_def, hn]
      exact hchars
    refine ⟨t, ⟨s.c+1, (s.stop+1) % 2^32, (s.stop+1) % 2^32, args, s.buffer, s.intToStr,
      s.out++t.map Event.char⟩, hconv, ?_, ⟨hs.zeroed, hs.pointer⟩, rfl, rfl, rfl, rfl, rfl⟩
    simp only [hn]
    rw [hchars, Option.bind_eq_bind, Option.bind_some, hidle.writeText, Option.bind_eq_bind,
      Option.bind_some]

/-- The body up to the switch: the plain characters are printed. -/
theorem printBody_scan {before plain tail : List ℕ} (hr : string = before++(plain++tail))
    (hc : s.c = before.length) (hi : s.start = s.c ∧ s.stop = s.c)
    (hplain : ∀ ch ∈ plain, Plain ch) (htail : ∀ ch ∈ tail.head?, ¬ Plain ch)
    (hlen : string.length < 2^32) (h : charAt string (before.length+plain.length) = some ch) :
    printBody string pad s =
      let i := (before.length+plain.length+1) % 2^32
      let s := ⟨before.length+plain.length, i, i, s.args, s.buffer, s.intToStr,
        s.out++plain.map Event.char⟩
      if ch = '\n'.toNat then some { s with out := s.out++[.newline] }
      else if ch = 0 then some { s with c := s.c-1 }
      else if ch = '%'.toNat then printSpecifier string pad s
      else some s := by
  have hle : before.length+plain.length < 2^32 := by
    rw [hr, List.length_append, List.length_append] at hlen
    omega
  rw [printBody, hi.1, hi.2, hc, hr, findNext_eq before plain tail _ hplain htail hle,
    Option.bind_eq_bind, Option.bind_some]
  dsimp only
  rw [substring_eq, Option.bind_eq_bind, Option.bind_some, ← hr, h]
  rfl

/-- The switch behind a percent sign prints what the reader prints of the characters it passes. -/
theorem specifier_step (hpad : pad ≤ 128) (hlen : string.length < 2^32) {before tail : List ℕ}
    (hsplit : string = before ++ '%'.toNat::tail) (hc : s.c = before.length)
    (hi : s.start = s.c+1 ∧ s.stop = s.c+1) (hs : Idle s) (hm : Matches ('%'.toNat::tail) s.args) :
    ∃ s' rest' evs, printSpecifier string pad s = some s' ∧ rest'.length ≤ tail.length ∧
      Reading string rest' { s' with c := s'.c+1 } ∧ Idle s' ∧ Matches rest' s'.args ∧
      s'.out = s.out++evs ∧
      readFormat pad ('%'.toNat::tail) s.args = (readFormat pad rest' s'.args).map (evs++·) := by
  have hnext : string = (before++['%'.toNat])++tail := by
    rw [hsplit, List.append_assoc, List.singleton_append]
  have hnextpos : (before++['%'.toNat]).length = s.c+1 := by
    rw [List.length_append, List.length_singleton, hc]
  have hlength : string.length = s.c+1+tail.length := by rw [hnext, List.length_append, hnextpos]
  have hreading : Reading string tail
      { s with c := s.c+1, start := s.stop, out := s.out++[.char '%'.toNat] } :=
    ⟨⟨_, hnext, hnextpos.symm⟩, fun _ => ⟨hi.2, hi.2⟩⟩
  cases tail with
  | nil =>
    have hend : charAt string (s.c+1) = some 0 := by
      rw [List.append_nil] at hnext
      rw [← hnextpos, ← hnext]
      exact charAt_end string
    rw [List.length_nil] at hlength
    refine ⟨_, [], [.char '%'.toNat], printSpecifier_unknown hend (by decide) hs (by omega), le_rfl,
      hreading, ⟨hs.zeroed, hs.pointer⟩, trivial, rfl, ?_⟩
    rw [readFormat_last]
    rfl
  | cons ch tail =>
    rw [List.length_cons] at hlength
    have hhead : charAt string (s.c+1) = some ch := by
      rw [← hnextpos, hnext]
      exact charAt_cons _ ch tail
    cases hsp : specifier ch with
    | none =>
      rw [matches_unknown hsp] at hm
      refine ⟨_, ch::tail, [.char '%'.toNat], printSpecifier_unknown hhead hsp hs (by omega), le_rfl,
        hreading, ⟨hs.zeroed, hs.pointer⟩, hm, rfl, ?_⟩
      rw [readFormat_unknown pad hsp]
      rfl
    | some sp =>
      obtain ⟨a, args, hargs, ht, hm⟩ := (matches_known hsp).mp hm
      obtain ⟨t, s', hconv, hprint, hidle, hc', hargs', hstart, hstop, hout⟩ :=
        printSpecifier_known hpad hhead hsp hargs ht hs
      have hwrap : tail ≠ [] → (s.stop+1) % 2^32 = s.c+1+1 := by
        intro htail
        have htailpos := List.length_pos_of_ne_nil htail
        omega
      have hbehind : string = (before++['%'.toNat, ch])++tail := by
        rw [hsplit, List.append_assoc]
        rfl
      refine ⟨s', tail, t.map Event.char, hprint, ?_, ⟨⟨_, hbehind, ?_⟩, ?_⟩, hidle, ?_, hout, ?_⟩
      · rw [List.length_cons]
        omega
      · show s'.c+1 = _
        rw [hc', hc, List.length_append]
        rfl
      · intro htail
        have hindex := hwrap htail
        exact ⟨by rw [hstart, hc', hindex], by rw [hstop, hc', hindex]⟩
      · rw [hargs']
        exact hm
      · rw [hargs, readFormat_known pad hsp, hconv, hargs']
        rfl

/-- One round of the loop prints what the reader prints of the characters it passes. -/
theorem body_step (hpad : pad ≤ 128) (hnul : ∀ c ∈ string, c ≠ 0) (hlen : string.length < 2^32)
    {rest : List ℕ} (hne : rest ≠ []) (hr : Reading string rest s) (hs : Idle s)
    (hm : Matches rest s.args) : ∃ s' rest' evs, printBody string pad s = some s' ∧
      rest'.length < rest.length ∧ Reading string rest' { s' with c := s'.c+1 } ∧ Idle s' ∧
      Matches rest' s'.args ∧ s'.out = s.out++evs ∧
      readFormat pad rest s.args = (readFormat pad rest' s'.args).map (evs++·) := by
  obtain ⟨before, hsplit, hc⟩ := hr.split
  obtain ⟨plain, tail, rfl, hplain, htail⟩ := exists_span Plain rest
  have hscan := fun ch (h : charAt string (before.length+plain.length) = some ch) =>
    @printBody_scan string pad s ch before plain tail hsplit hc (hr.indices hne) hplain htail hlen h
  have hlength : string.length = before.length+plain.length+tail.length := by
    rw [hsplit, List.length_append, List.length_append, Nat.add_assoc]
  have hsplit' : string = (before++plain)++tail := by rw [hsplit, List.append_assoc]
  have hpos : (before++plain).length = before.length+plain.length := List.length_append
  rw [matches_plain tail s.args hplain] at hm
  rw [readFormat_plain pad tail s.args hplain]
  cases tail with
  | nil =>
    -- the end of the format: the pointer moves back and forth
    have hplainpos : 0 < plain.length := by
      rw [List.append_nil] at hne
      exact List.length_pos_of_ne_nil hne
    rw [List.append_nil] at hsplit'
    have hend : charAt string (before.length+plain.length) = some 0 := by
      rw [← hpos, ← hsplit']
      exact charAt_end string
    refine ⟨_, [], plain.map Event.char, hscan 0 hend, ?_, ⟨⟨string, ?_, ?_⟩, ?_⟩,
      ⟨hs.zeroed, hs.pointer⟩, trivial, rfl, rfl⟩
    · simpa using hplainpos
    · simp
    · show before.length+plain.length-1+1 = string.length
      rw [hlength, List.length_nil]
      omega
    · intro h
      exact absurd rfl h
  | cons ch tail =>
    have hhead : charAt string (before.length+plain.length) = some ch := by
      rw [← hpos, hsplit']
      exact charAt_cons _ ch tail
    have hwrap : (before.length+plain.length+1) % 2^32 = before.length+plain.length+1 := by
      rw [List.length_cons] at hlength
      exact Nat.mod_eq_of_lt (by omega)
    have hnext : string = (before++plain++[ch])++tail := by
      rw [hsplit', List.append_assoc, List.append_assoc, List.append_assoc, List.singleton_append]
    have hnextpos : (before++plain++[ch]).length = before.length+plain.length+1 := by
      rw [List.length_append, hpos, List.length_singleton]
    have hch : ch ≠ 0 := by
      apply hnul
      rw [hsplit']
      simp
    have hstop : ch = '%'.toNat ∨ ch = '\n'.toNat := by
      have hnot := htail ch rfl
      rw [Plain] at hnot
      tauto
    have hbody := hscan ch hhead
    rw [hwrap] at hbody
    rcases hstop with rfl | rfl
    · rw [if_neg (by decide), if_neg (by decide), if_pos rfl] at hbody
      obtain ⟨s', rest', evs, hprint, hshort, hreading, hidle, hm', hout, hread⟩ :=
        specifier_step (s := ⟨before.length+plain.length, before.length+plain.length+1,
          before.length+plain.length+1, s.args, s.buffer, s.intToStr, s.out++plain.map Event.char⟩)
          hpad hlen hsplit' hpos.symm ⟨rfl, rfl⟩ ⟨hs.zeroed, hs.pointer⟩ hm
      refine ⟨s', rest', plain.map Event.char++evs, hbody.trans hprint, ?_, hreading, hidle, hm', ?_,
        ?_⟩
      · rw [List.length_append, List.length_cons]
        omega
      · rw [hout, List.append_assoc]
      · rw [hread, Option.map_map]
        congr 1
        funext evs
        simp
    · rw [if_pos rfl] at hbody
      rw [matches_char (by decide)] at hm
      refine ⟨_, tail, plain.map Event.char++[.newline], hbody, ?_, ⟨⟨_, hnext, hnextpos.symm⟩, ?_⟩,
        ⟨hs.zeroed, hs.pointer⟩, hm, ?_, ?_⟩
      · simp
        omega
      · exact fun _ => ⟨rfl, rfl⟩
      · exact List.append_assoc _ _ _
      · rw [readFormat_newline, Option.map_map]
        congr 1
        funext evs
        simp

/-- A run of the loop prints what the reader prints of the rest, with fuel for every character. -/
theorem printLoop_reads (hpad : pad ≤ 128) (hnul : ∀ c ∈ string, c ≠ 0)
    (hlen : string.length < 2^32) (rest : List ℕ) (s : PrintState) (n : ℕ) (hn : rest.length < n)
    (hr : Reading string rest s) (hs : Idle s) (hm : Matches rest s.args) :
    ∃ s' evs, printLoop string pad n s = some s' ∧ readFormat pad rest s.args = some evs ∧
      s'.out = s.out++evs ∧ Zeroed s'.buffer := by
  induction hk : rest.length using Nat.strong_induction_on generalizing rest s n with
  | _ k ih =>
    obtain ⟨n, rfl⟩ : ∃ j, n = j+1 := ⟨n-1, by omega⟩
    obtain ⟨before, hsplit, hc⟩ := hr.split
    by_cases hne : rest = []
    · subst hne
      rw [List.append_nil] at hsplit
      have hend : charAt string s.c = some 0 := by
        rw [hc, ← hsplit]
        exact charAt_end string
      refine ⟨s, [], ?_, rfl, (List.append_nil _).symm, hs.zeroed⟩
      rw [printLoop, hend]
      rfl
    · obtain ⟨ch, tail, rfl⟩ := List.exists_cons_of_ne_nil hne
      have hhead : charAt string s.c = some ch := by
        rw [hc, hsplit]
        exact charAt_cons before ch tail
      have hch : ch ≠ 0 := hnul ch (by rw [hsplit]; simp)
      obtain ⟨s', rest', evs, hbody, hshort, hreading, hidle, hm', hout, hread⟩ :=
        body_step hpad hnul hlen hne hr hs hm
      obtain ⟨s'', evs', hloop, hreads, hout', hzero⟩ := ih rest'.length (by omega) rest'
        { s' with c := s'.c+1 } n (by omega) hreading ⟨hidle.zeroed, hidle.pointer⟩ hm' rfl
      refine ⟨s'', evs++evs', ?_, ?_, ?_, hzero⟩
      · rw [printLoop, hhead, Option.bind_eq_bind, Option.bind_some, if_neg hch, hbody]
        exact hloop
      · rw [hread, hreads]
        rfl
      · rw [hout', ← List.append_assoc]
        exact congrArg (·++evs') hout

end Steps

end BruhOS.KernelIo
