import BruhOS.BootAscii
import BruhOS.BootFormat

/-!
# The formatted print of the bootloader

`vprintf` prints the characters up to a percent sign, switches on the
character behind it, and prints the text of the conversion from a static
buffer. Every case moves the pointer over the specifier except the one for
unknown characters, which prints the percent sign and the character and leaves
the character to be read once more.
-/

set_option autoImplicit false

namespace BruhOS.BootPrint

open BruhOS.TextBuffer

/-- An argument, in the type it is passed with. -/
inductive Arg where
  | int32 (value : ℤ)
  | uint32 (value : ℤ)
  | int64 (value : ℤ)
  | uint64 (value : ℤ)
  | wide (s : List ℕ)
  | ascii (s : List ℕ)
  deriving DecidableEq, Repr

/-- The values of the type. -/
def Arg.Valid : Arg → Prop
  | int32 value => -2^31 ≤ value ∧ value < 2^31
  | uint32 value => 0 ≤ value ∧ value < 2^32
  | int64 value => -2^63 ≤ value ∧ value < 2^63
  | uint64 value => 0 ≤ value ∧ value < 2^64
  | wide s => ∀ c ∈ s, c ≠ 0
  | ascii s => ∀ c ∈ s, c ≠ 0

/-- `formatTypeList`, the types with an argument. -/
inductive Specifier where
  | d
  | u
  | l
  | z
  | c
  | s
  | a
  | x
  | X
  | p
  | b
  | B
  deriving DecidableEq, Repr

/-- The cases of the switch that take an argument. -/
def specifier (ch : ℕ) : Option Specifier :=
  [('d'.toNat, Specifier.d), ('u'.toNat, .u), ('l'.toNat, .l), ('z'.toNat, .z), ('c'.toNat, .c),
    ('s'.toNat, .s), ('a'.toNat, .a), ('x'.toNat, .x), ('X'.toNat, .X), ('p'.toNat, .p),
    ('b'.toNat, .b), ('B'.toNat, .B)].lookup ch

/-- The formatter that a specifier calls, with the argument it takes. -/
def Specifier.number : Specifier → Arg → Option (Formatter × ℤ)
  | d, .int32 value => some (.l, value)
  | u, .uint32 value => some (.u, value)
  | l, .int64 value => some (.l, value)
  | z, .uint64 value => some (.ul, value)
  | x, .uint32 value => some (.x false false, value)
  | X, .uint64 value => some (.x true false, value)
  | p, .uint64 value => some (.p, value)
  | b, .uint32 value => some (.b false, value)
  | B, .uint64 value => some (.b true, value)
  | _, _ => none

/-- The argument has the type that the specifier takes. -/
def Specifier.accepts : Specifier → Arg → Bool
  | d, .int32 _ | u, .uint32 _ | l, .int64 _ | z, .uint64 _ | c, .int32 _ | s, .wide _
  | a, .ascii _ | x, .uint32 _ | X, .uint64 _ | p, .uint64 _ | b, .uint32 _ | B, .uint64 _ => true
  | _, _ => false

/-- The variables of `vprintf`: `character` is an index of the format, and `out` what `putc` was
given. -/
structure PrintState where
  character : ℕ
  args : List Arg
  utf16fmtbuf : Buffer
  out : List ℕ

section Code

/-- The table `ascii_to_utf16`, and the replacement character for what is not ASCII. -/
def asciiToUtf16 (c : ℕ) : ℕ := if c ≥ 128 then 0xfffd else c

/-- The loop of `format_ascii_to_utf16`, from index `i` on. -/
def asciiLoop : List ℕ → ℕ → Buffer → Option (ℕ × Buffer)
  | [], i, b => some (i, b)
  | c::t, i, b =>
    if i < formatbufsize then do
      let b ← store formatbufsize b i (asciiToUtf16 c)
      asciiLoop t (i+1) b
    else some (i, b)

def formatAsciiToUtf16 (asciibuf : List ℕ) (b : Buffer) : Option Buffer := do
  let r ← asciiLoop asciibuf 0 b
  if r.1 < formatbufsize then store formatbufsize r.2 r.1 0
  else store formatbufsize r.2 (r.1-1) 0

/-- The conversion of an argument: the buffer afterwards and what is printed. -/
def convert (sp : Specifier) (a : Arg) (b : Buffer) : Option (Buffer × List ℕ) :=
  match sp.number a with
  | some (F, value) => do
    let r ← F.format value b
    let utf16fmt ← r.2
    let t ← readText formatbufsize r.1 utf16fmt
    some (r.1, t)
  | none =>
    match sp, a with
    | .c, .int32 value => some (b, [(value % 2^16).toNat])
    | .s, .wide t => some (b, t)
    | .a, .ascii t => do
      let b ← formatAsciiToUtf16 t b
      let t ← readText formatbufsize b 0
      some (b, t)
    | _, _ => none

variable (format : List ℕ)

/-- The inner loop, which prints the characters up to the next percent sign or the end. -/
def printPlain (character : ℕ) (out : List ℕ) : Option (ℕ × List ℕ) :=
  match _h : charAt format character with
  | none => none
  | some ch =>
    if ch ≠ '%'.toNat ∧ ch ≠ 0 then printPlain (character+1) (out++[ch]) else some (character, out)
termination_by format.length+1-character
decreasing_by
  have hle := charAt_le _h
  omega

/-- The switch; `character` is at the percent sign. -/
def printSpecifier (s : PrintState) : Option PrintState := do
  let next ← charAt format (s.character+1)
  if next = 0 then some { s with out := s.out++['%'.toNat] }
  else if next = '\n'.toNat then
    some { s with character := s.character+1, out := s.out++['%'.toNat, '\n'.toNat] }
  else
    match specifier next with
    | some sp =>
      match s.args with
      | [] => none
      | a::args => do
        let r ← convert sp a s.utf16fmtbuf
        some ⟨s.character+1, args, r.1, s.out++r.2⟩
    | none => some { s with out := s.out++['%'.toNat, next] }

/-- The body of the loop over the format. -/
def printBody (s : PrintState) : Option PrintState := do
  let r ← printPlain format s.character s.out
  let s := { s with character := r.1, out := r.2 }
  let ch ← charAt format s.character
  if ch = 0 then some { s with character := s.character-1 } else printSpecifier format s

/-- The loop over the format, for at most `n` rounds. -/
def printLoop : ℕ → PrintState → Option PrintState
  | 0, _ => none
  | n+1, s => do
    let ch ← charAt format s.character
    if ch = 0 then some s else do
      let s ← printBody format s
      printLoop n { s with character := s.character+1 }

def vprintf (args : List Arg) (utf16fmtbuf : Buffer) (n : ℕ) : Option PrintState := do
  let b ← fillUp formatbufsize 0 formatbufsize 0 utf16fmtbuf
  printLoop format n ⟨0, args, b, []⟩

end Code

/-- The text of a conversion. -/
def conversion (sp : Specifier) (a : Arg) : Option (List ℕ) :=
  (convert sp a (fun _ => 0)).map Prod.snd

/-- What a format says, read from the left. -/
def readFormat : List ℕ → List Arg → Option (List ℕ)
  | [], _ => some []
  | ch::rest, args =>
    if ch = '%'.toNat then
      match rest with
      | [] => some [ch]
      | next::rest' =>
        match specifier next with
        | none => (readFormat rest' args).map (fun out => ch::next::out)
        | some sp =>
          match args with
          | [] => none
          | a::args => do
            let t ← conversion sp a
            (readFormat rest' args).map (t++·)
    else (readFormat rest args).map (ch::·)

/-- The arguments that a format takes. -/
def Matches : List ℕ → List Arg → Prop
  | [], args => args = []
  | ch::rest, args =>
    if ch = '%'.toNat then
      match rest with
      | [] => args = []
      | next::rest' =>
        match specifier next with
        | none => Matches rest' args
        | some sp =>
          match args with
          | [] => False
          | a::args => (a.Valid ∧ sp.accepts a = true) ∧ Matches rest' args
    else Matches rest args

/-- Reading from the left, every percent sign is followed by a specifier, a newline or the end. -/
def Clean : List ℕ → Prop
  | [] => True
  | ch::rest =>
    if ch = '%'.toNat then
      match rest with
      | [] => True
      | next::rest' => (next = '\n'.toNat ∨ (specifier next).isSome) ∧ Clean rest'
    else Clean rest

/-- What the code prints, read from the left: an unknown character is read twice. -/
def prints : List ℕ → List Arg → Option (List ℕ)
  | [], _ => some []
  | ch::rest, args =>
    if ch = '%'.toNat then
      match rest with
      | [] => some [ch]
      | next::rest' =>
        if next = '\n'.toNat then (prints rest' args).map (fun out => ch::next::out)
        else
          match specifier next with
          | none => (prints (next::rest') args).map (fun out => ch::next::out)
          | some sp =>
            match args with
            | [] => none
            | a::args => do
              let t ← conversion sp a
              (prints rest' args).map (t++·)
    else (prints rest args).map (ch::·)

section Conversions

theorem asciiToUtf16_eq (c : ℕ) : asciiToUtf16 c = BootAscii.utf16Of c := by
  unfold asciiToUtf16 BootAscii.utf16Of
  by_cases hc : c < 128
  · rw [if_neg (by omega), if_pos hc]
  · rw [if_pos (by omega), if_neg hc]

/-- The loop reads the string from left to right, so its index need not be reduced. -/
theorem asciiLoop_eq (before rest : List ℕ) (hb : before.length ≤ formatbufsize)
    (hrest : ∀ c ∈ rest, c ≠ 0) (b : Buffer) {n : ℕ} (hn : rest.length < n) :
    asciiLoop rest before.length b =
      BootAscii.copyLoop (before++rest) formatbufsize n before.length b := by
  induction rest generalizing before b n with
  | nil =>
    obtain ⟨k, rfl⟩ : ∃ k, n = k+1 := ⟨n-1, by simp at hn; omega⟩
    rw [List.append_nil, asciiLoop, BootAscii.copyLoop, charAt_end]
    split
    · rfl
    · rfl
  | cons c rest ih =>
    rw [List.length_cons] at hn
    obtain ⟨k, rfl⟩ : ∃ k, n = k+1 := ⟨n-1, by omega⟩
    have hc : c ≠ 0 := hrest c List.mem_cons_self
    rw [asciiLoop, BootAscii.copyLoop, charAt_cons]
    by_cases hroom : before.length < formatbufsize
    · have hlen : (before++[c]).length = before.length+1 := List.length_append
      have hword : (before.length+1)%2^16 = before.length+1 := by
        rw [formatbufsize] at hroom
        exact Nat.mod_eq_of_lt (by omega)
      have hnext : ∀ b', asciiLoop rest (before.length+1) b' =
          BootAscii.copyLoop (before++c::rest) formatbufsize k (before.length+1) b' := by
        intro b'
        have := ih (before++[c]) (by omega) (fun d hd => hrest d (List.mem_cons_of_mem c hd)) b'
          (n := k) (by omega)
        rwa [hlen, List.append_assoc, List.singleton_append] at this
      rw [if_pos hroom, if_pos hroom]
      simp only [Option.bind_eq_bind, Option.bind_some, if_neg hc, BootAscii.translate_eq, hword,
        asciiToUtf16_eq, hnext]
    · rw [if_neg hroom, if_neg hroom]

/-- `format_ascii_to_utf16` at the size that `vprintf` passes. -/
theorem formatAscii_eq (t : List ℕ) (ht : ∀ c ∈ t, c ≠ 0) (b : Buffer) {n : ℕ} (hn : t.length < n) :
    formatAsciiToUtf16 t b = BootAscii.formatAsciiToUtf16 t formatbufsize n b := by
  have hloop := asciiLoop_eq [] t (Nat.zero_le _) ht b hn
  rw [List.nil_append, List.length_nil] at hloop
  rw [formatAsciiToUtf16, BootAscii.formatAsciiToUtf16, hloop]

/-- A text of ASCII characters is cut off at the end of the buffer. -/
theorem formatAscii_text (t : List ℕ) (ht : ∀ c ∈ t, c ≠ 0) (b : Buffer) :
    ∃ b', formatAsciiToUtf16 t b = some b' ∧
      readText formatbufsize b' 0 = some ((t.map asciiToUtf16).take 511) := by
  have hpos : 0 < formatbufsize := by decide
  have htext := (BootAscii.translated_place t hpos ht b).text
  rw [formatAscii_eq t ht b (Nat.lt_succ_self _),
    BootAscii.formatAscii_place hpos (by decide) ht (Nat.lt_succ_self _) b]
  refine ⟨_, rfl, ?_⟩
  have hmap : t.map asciiToUtf16 = t.map BootAscii.utf16Of :=
    List.map_congr_left (fun c _ => asciiToUtf16_eq c)
  have hcut : t.take (min t.length (formatbufsize-1)) = t.take 511 := by
    rw [List.take_eq_take_iff, formatbufsize]
    omega
  rw [htext, hmap, ← List.map_take, hcut]

theorem number_inRange {sp : Specifier} {a : Arg} {F : Formatter} {value : ℤ}
    (hn : sp.number a = some (F, value)) (ha : a.Valid) :
    F.InRange value ∧ ∀ uselower, F = .x false uselower → value < 2^32 := by
  cases a with
  | int32 v =>
    have hr : -2^31 ≤ v ∧ v < 2^31 := ha
    cases sp <;> cases hn
    exact ⟨⟨by omega, by omega⟩, fun _ h => by cases h⟩
  | uint32 v =>
    have hr : 0 ≤ v ∧ v < 2^32 := ha
    cases sp <;> cases hn
    · exact ⟨hr, fun _ h => by cases h⟩
    · exact ⟨⟨hr.1, by omega⟩, fun _ _ => hr.2⟩
    · exact ⟨hr, fun _ h => by cases h⟩
  | int64 v =>
    have hr : -2^63 ≤ v ∧ v < 2^63 := ha
    cases sp <;> cases hn
    exact ⟨hr, fun _ h => by cases h⟩
  | uint64 v =>
    have hr : 0 ≤ v ∧ v < 2^64 := ha
    cases sp <;> cases hn <;> exact ⟨hr, fun _ h => by cases h⟩
  | wide t => cases sp <;> cases hn
  | ascii t => cases sp <;> cases hn

/-- An argument of the right type is converted to one text, whatever the buffer holds. -/
theorem convert_accepted {sp : Specifier} {a : Arg} (ha : a.Valid) (h : sp.accepts a = true) :
    ∃ t, conversion sp a = some t ∧ ∀ b, ∃ b', convert sp a b = some (b', t) := by
  have hall : ∃ t, ∀ b, ∃ b', convert sp a b = some (b', t) := by
    cases hn : sp.number a with
    | some r =>
      obtain ⟨hv, hx⟩ := number_inRange hn ha
      refine ⟨r.1.text r.2, fun b => ?_⟩
      obtain ⟨b', hformat, hread⟩ := Formatter.writes hv hx b
      refine ⟨b', ?_⟩
      rw [convert.eq_def, hn]
      dsimp only
      rw [hformat, Option.bind_eq_bind, Option.bind_some]
      dsimp only
      rw [Option.bind_eq_bind, Option.bind_some, hread]
      rfl
    | none =>
      cases a with
      | int32 v =>
        cases sp <;> cases h
        · cases hn
        · exact ⟨_, fun b => ⟨b, rfl⟩⟩
      | wide t =>
        cases sp <;> cases h
        exact ⟨t, fun b => ⟨b, rfl⟩⟩
      | ascii t =>
        cases sp <;> cases h
        refine ⟨(t.map asciiToUtf16).take 511, fun b => ?_⟩
        obtain ⟨b', hformat, hread⟩ := formatAscii_text t ha b
        refine ⟨b', ?_⟩
        rw [convert.eq_def]
        dsimp only [Specifier.number]
        rw [hformat, Option.bind_eq_bind, Option.bind_some, hread]
        rfl
      | uint32 v => cases sp <;> cases h <;> cases hn
      | int64 v =>
        cases sp <;> cases h
        cases hn
      | uint64 v => cases sp <;> cases h <;> cases hn
  obtain ⟨t, ht⟩ := hall
  obtain ⟨b', hb'⟩ := ht (fun _ => 0)
  refine ⟨t, ?_, ht⟩
  rw [conversion, hb', Option.map_some]

theorem convert_refused {sp : Specifier} {a : Arg} (h : sp.accepts a = false) (b : Buffer) :
    convert sp a b = none := by
  cases sp <;> cases a <;> first | (cases h; done) | rfl

end Conversions

section Equations

variable {rest : List ℕ} {args : List Arg} {a : Arg} {ch : ℕ} {sp : Specifier}

theorem prints_char (h : ch ≠ '%'.toNat) :
    prints (ch::rest) args = (prints rest args).map (ch::·) := by
  rw [prints.eq_def]
  exact if_neg h

theorem prints_last : prints ['%'.toNat] args = some ['%'.toNat] := by
  exact if_pos rfl

theorem prints_newline : prints ('%'.toNat :: '\n'.toNat :: rest) args =
    (prints rest args).map (fun out => '%'.toNat :: '\n'.toNat :: out) := by
  exact (if_pos rfl).trans (if_pos rfl)

theorem prints_unknown (hn : ch ≠ '\n'.toNat) (h : specifier ch = none) :
    prints ('%'.toNat::ch::rest) args =
      (prints (ch::rest) args).map (fun out => '%'.toNat::ch::out) := by
  refine (if_pos rfl).trans ((if_neg hn).trans ?_)
  simp only [h]

theorem specifier_newline (h : specifier ch = some sp) : ch ≠ '\n'.toNat ∧ ch ≠ 0 := by
  constructor
  · rintro rfl
    exact absurd (show none = some sp from h) (by simp)
  · rintro rfl
    exact absurd (show none = some sp from h) (by simp)

theorem prints_known (h : specifier ch = some sp) : prints ('%'.toNat::ch::rest) (a::args) =
    (conversion sp a).bind (fun t => (prints rest args).map (t++·)) := by
  refine (if_pos rfl).trans ((if_neg (specifier_newline h).1).trans ?_)
  simp only [h]
  rfl

theorem prints_missing (h : specifier ch = some sp) : prints ('%'.toNat::ch::rest) [] = none := by
  refine (if_pos rfl).trans ((if_neg (specifier_newline h).1).trans ?_)
  simp only [h]

theorem readFormat_char (h : ch ≠ '%'.toNat) :
    readFormat (ch::rest) args = (readFormat rest args).map (ch::·) := by
  rw [readFormat.eq_def]
  exact if_neg h

theorem readFormat_last : readFormat ['%'.toNat] args = some ['%'.toNat] := by
  exact if_pos rfl

theorem readFormat_unknown (h : specifier ch = none) : readFormat ('%'.toNat::ch::rest) args =
    (readFormat rest args).map (fun out => '%'.toNat::ch::out) := by
  refine (if_pos rfl).trans ?_
  simp only [h]

theorem readFormat_known (h : specifier ch = some sp) :
    readFormat ('%'.toNat::ch::rest) (a::args) =
      (conversion sp a).bind (fun t => (readFormat rest args).map (t++·)) := by
  refine (if_pos rfl).trans ?_
  simp only [h]
  rfl

theorem readFormat_missing (h : specifier ch = some sp) :
    readFormat ('%'.toNat::ch::rest) [] = none := by
  refine (if_pos rfl).trans ?_
  simp only [h]

theorem matches_char (h : ch ≠ '%'.toNat) : Matches (ch::rest) args ↔ Matches rest args := by
  rw [Matches.eq_def]
  exact iff_of_eq (if_neg h)

theorem matches_last : Matches ['%'.toNat] args ↔ args = [] := by
  exact iff_of_eq (if_pos rfl)

theorem matches_unknown (h : specifier ch = none) :
    Matches ('%'.toNat::ch::rest) args ↔ Matches rest args := by
  refine iff_of_eq ((if_pos rfl).trans ?_)
  simp only [h]

theorem matches_known (h : specifier ch = some sp) : Matches ('%'.toNat::ch::rest) args ↔
    ∃ a args', args = a::args' ∧ (a.Valid ∧ sp.accepts a = true) ∧ Matches rest args' := by
  refine (iff_of_eq (if_pos rfl)).trans ?_
  simp only [h]
  cases args with
  | nil => simp
  | cons a args => simp

theorem clean_char (h : ch ≠ '%'.toNat) : Clean (ch::rest) ↔ Clean rest := by
  rw [Clean.eq_def]
  exact iff_of_eq (if_neg h)

theorem clean_percent : Clean ('%'.toNat::ch::rest) ↔
    (ch = '\n'.toNat ∨ (specifier ch).isSome) ∧ Clean rest := by
  exact iff_of_eq (if_pos rfl)

end Equations

section Scan

/-- A character that the inner loop prints. -/
def Plain (ch : ℕ) : Prop := ch ≠ '%'.toNat ∧ ch ≠ 0

instance (ch : ℕ) : Decidable (Plain ch) := inferInstanceAs (Decidable (_ ∧ _))

theorem printPlain_step {format : List ℕ} {character ch : ℕ} {out : List ℕ}
    (h : charAt format character = some ch) (hp : Plain ch) :
    printPlain format character out = printPlain format (character+1) (out++[ch]) := by
  rw [printPlain]
  split
  · next hn => rw [h] at hn; cases hn
  · next ch' hs =>
    obtain rfl : ch = ch' := Option.some.inj (h.symm.trans hs)
    exact if_pos hp

theorem printPlain_stop {format : List ℕ} {character ch : ℕ} {out : List ℕ}
    (h : charAt format character = some ch) (hp : ¬ Plain ch) :
    printPlain format character out = some (character, out) := by
  rw [printPlain]
  split
  · next hn => rw [h] at hn; cases hn
  · next ch' hs =>
    obtain rfl : ch = ch' := Option.some.inj (h.symm.trans hs)
    exact if_neg hp

theorem printPlain_eq (before plain rest out : List ℕ) (hplain : ∀ ch ∈ plain, Plain ch)
    (hrest : ∀ ch ∈ rest.head?, ¬ Plain ch) :
    printPlain (before++(plain++rest)) before.length out =
      some (before.length+plain.length, out++plain) := by
  induction plain generalizing before out with
  | nil =>
    rw [List.append_nil, List.length_nil, Nat.add_zero]
    cases rest with
    | nil =>
      have hend : charAt (before++([]++[])) before.length = some 0 := by
        simpa using charAt_end before
      exact printPlain_stop hend (by decide)
    | cons ch rest => exact printPlain_stop (charAt_cons before ch rest) (hrest ch rfl)
  | cons ch plain ih =>
    have hnext := ih (before++[ch]) (out++[ch]) (fun d hd => hplain d (List.mem_cons_of_mem _ hd))
    rw [List.length_append, List.length_singleton, List.append_assoc, List.singleton_append]
      at hnext
    rw [List.cons_append, printPlain_step (charAt_cons before ch _) (hplain ch List.mem_cons_self),
      hnext, List.length_cons, List.append_assoc, List.singleton_append]
    congr 2
    omega

theorem prints_plain {plain : List ℕ} (rest : List ℕ) (args : List Arg)
    (hplain : ∀ ch ∈ plain, Plain ch) :
    prints (plain++rest) args = (prints rest args).map (plain++·) := by
  induction plain with
  | nil => simp
  | cons ch plain ih =>
    rw [List.cons_append, prints_char (hplain ch List.mem_cons_self).1,
      ih (fun d hd => hplain d (List.mem_cons_of_mem _ hd)), Option.map_map]
    rfl

end Scan

/-- The pointer is in front of the rest of the format, and the arguments left are valid. -/
structure Reading (format rest : List ℕ) (s : PrintState) : Prop where
  split : ∃ before, format = before++rest ∧ s.character = before.length
  valid : ∀ a ∈ s.args, a.Valid

/-- A step of the code either fails with the recursion, or passes some characters of the format
and prints what the recursion prints of them. -/
def Follows (format rest : List ℕ) (s : PrintState) (r : Option PrintState) : Prop :=
  (r = none ∧ prints rest s.args = none) ∨ ∃ s' rest' out, r = some s' ∧
    rest'.length < rest.length ∧ Reading format rest' { s' with character := s'.character+1 } ∧
    s'.out = s.out++out ∧ prints rest s.args = (prints rest' s'.args).map (out++·)

section Steps

variable {format : List ℕ} {s : PrintState}

/-- The switch, for each kind of character behind the percent sign. -/
theorem printSpecifier_follows {before tail : List ℕ} (hnul : ∀ c ∈ format, c ≠ 0)
    (hsplit : format = before ++ '%'.toNat::tail) (hc : s.character = before.length)
    (hv : ∀ a ∈ s.args, a.Valid) :
    Follows format ('%'.toNat::tail) s (printSpecifier format s) := by
  have hnext : format = (before++['%'.toNat])++tail := by
    rw [hsplit, List.append_assoc, List.singleton_append]
  have hnextpos : s.character+1 = (before++['%'.toNat]).length := by
    rw [List.length_append, List.length_singleton, hc]
  cases tail with
  | nil =>
    have hend : charAt format (s.character+1) = some 0 := by
      rw [List.append_nil] at hnext
      rw [hnextpos, ← hnext]
      exact charAt_end format
    refine Or.inr ⟨{ s with out := s.out++['%'.toNat] }, [], ['%'.toNat], ?_, Nat.zero_lt_one,
      ⟨⟨_, hnext, hnextpos⟩, hv⟩, rfl, ?_⟩
    · rw [printSpecifier, hend]
      rfl
    · rw [prints_last]
      rfl
  | cons ch tail =>
    have hhead : charAt format (s.character+1) = some ch := by
      rw [hnextpos, hnext]
      exact charAt_cons _ ch tail
    have hzero : ch ≠ 0 := hnul ch (by rw [hsplit]; simp)
    have hbehind : format = (before++['%'.toNat, ch])++tail := by
      rw [hsplit, List.append_assoc]
      rfl
    have hbehindpos : s.character+1+1 = (before++['%'.toNat, ch]).length := by
      rw [List.length_append, hc]
      rfl
    rw [printSpecifier, hhead, Option.bind_eq_bind, Option.bind_some, if_neg hzero]
    by_cases hnl : ch = '\n'.toNat
    · subst hnl
      rw [if_pos rfl]
      refine Or.inr ⟨_, tail, ['%'.toNat, '\n'.toNat], rfl, ?_, ⟨⟨_, hbehind, hbehindpos⟩, hv⟩, rfl,
        ?_⟩
      · simp
      · rw [prints_newline]
        rfl
    · rw [if_neg hnl]
      cases hsp : specifier ch with
      | none =>
        -- the pointer stays, so that the character is read again
        refine Or.inr ⟨_, ch::tail, ['%'.toNat, ch], rfl, Nat.lt_succ_self _,
          ⟨⟨_, hnext, hnextpos⟩, hv⟩, rfl, ?_⟩
        rw [prints_unknown hnl hsp]
        rfl
      | some sp =>
        cases hargs : s.args with
        | nil =>
          refine Or.inl ⟨rfl, ?_⟩
          rw [hargs]
          exact prints_missing hsp
        | cons a args =>
          rw [hargs] at hv
          dsimp only
          cases hacc : sp.accepts a with
          | false =>
            have hnone : conversion sp a = none := by
              rw [conversion, convert_refused hacc]
              rfl
            refine Or.inl ⟨?_, ?_⟩
            · rw [convert_refused hacc]
              rfl
            · rw [hargs, prints_known hsp, hnone]
              rfl
          | true =>
            obtain ⟨t, hconv, hall⟩ := convert_accepted (hv a List.mem_cons_self) hacc
            obtain ⟨b', hb'⟩ := hall s.utf16fmtbuf
            refine Or.inr ⟨⟨s.character+1, args, b', s.out++t⟩, tail, t, ?_, ?_,
              ⟨⟨_, hbehind, hbehindpos⟩, fun d hd => hv d (List.mem_cons_of_mem _ hd)⟩, rfl, ?_⟩
            · rw [hb']
              rfl
            · simp
            · rw [hargs, prints_known hsp, hconv]
              rfl

theorem printBody_follows (hnul : ∀ c ∈ format, c ≠ 0) {rest : List ℕ} (hne : rest ≠ [])
    (hr : Reading format rest s) : Follows format rest s (printBody format s) := by
  obtain ⟨before, hsplit, hc⟩ := hr.split
  obtain ⟨plain, tail, rfl, hplain, htail⟩ := exists_span Plain rest
  have hpos : (before++plain).length = before.length+plain.length := List.length_append
  have hsplit' : format = (before++plain)++tail := by rw [hsplit, List.append_assoc]
  have hscan := printPlain_eq before plain tail s.out hplain htail
  rw [← hsplit, ← hc] at hscan
  rw [printBody, hscan, Option.bind_eq_bind, Option.bind_some]
  dsimp only
  cases tail with
  | nil =>
    -- the end of the format: the pointer moves back and forth
    have hend : charAt format (s.character+plain.length) = some 0 := by
      rw [List.append_nil] at hsplit'
      rw [hc, ← hpos, ← hsplit']
      exact charAt_end format
    rw [List.append_nil] at hne
    have hplainpos := List.length_pos_of_ne_nil hne
    rw [hend, Option.bind_eq_bind, Option.bind_some, if_pos rfl]
    refine Or.inr ⟨_, [], plain, rfl, ?_, ⟨⟨before++plain, hsplit', ?_⟩, hr.valid⟩, rfl, ?_⟩
    · simpa using hplainpos
    · show s.character+plain.length-1+1 = _
      rw [hpos, hc]
      omega
    · exact prints_plain [] s.args hplain
  | cons ch tail =>
    have hhead : charAt format (s.character+plain.length) = some ch := by
      rw [hc, ← hpos, hsplit']
      exact charAt_cons _ ch tail
    have hzero : ch ≠ 0 := hnul ch (by rw [hsplit']; simp)
    obtain rfl : ch = '%'.toNat := by
      by_contra hne
      exact htail ch rfl ⟨hne, hzero⟩
    rw [hhead, Option.bind_eq_bind, Option.bind_some, if_neg (by decide)]
    rcases printSpecifier_follows (s := ⟨s.character+plain.length, s.args, s.utf16fmtbuf,
      s.out++plain⟩) hnul hsplit' (by rw [hpos, hc]) hr.valid with
      ⟨hnone, hprints⟩ | ⟨s', rest', out, hsome, hshort, hreading, hout, hprints⟩
    · refine Or.inl ⟨hnone, ?_⟩
      rw [prints_plain _ _ hplain, hprints]
      rfl
    · refine Or.inr ⟨s', rest', plain++out, hsome, ?_, hreading, ?_, ?_⟩
      · rw [List.length_append]
        omega
      · rw [hout, List.append_assoc]
      · rw [prints_plain _ _ hplain, hprints, Option.map_map]
        congr 1
        funext out'
        simp

/-- A run of the loop prints what the recursion prints of the rest. -/
theorem printLoop_prints (hnul : ∀ c ∈ format, c ≠ 0) (rest : List ℕ) (s : PrintState) (n : ℕ)
    (hn : rest.length < n) (hr : Reading format rest s) :
    (printLoop format n s).map PrintState.out = (prints rest s.args).map (s.out++·) := by
  induction hk : rest.length using Nat.strong_induction_on generalizing rest s n with
  | _ k ih =>
    obtain ⟨n, rfl⟩ : ∃ j, n = j+1 := ⟨n-1, by omega⟩
    obtain ⟨before, hsplit, hc⟩ := hr.split
    by_cases hne : rest = []
    · subst hne
      rw [List.append_nil] at hsplit
      have hend : charAt format s.character = some 0 := by
        rw [hc, ← hsplit]
        exact charAt_end format
      rw [printLoop, hend, Option.bind_eq_bind, Option.bind_some, if_pos rfl]
      exact congrArg some (List.append_nil _).symm
    · obtain ⟨ch, tail, hrest⟩ := List.exists_cons_of_ne_nil hne
      have hhead : charAt format s.character = some ch := by
        rw [hc, hsplit, hrest]
        exact charAt_cons before ch tail
      have hzero : ch ≠ 0 := hnul ch (by rw [hsplit, hrest]; simp)
      rw [printLoop, hhead, Option.bind_eq_bind, Option.bind_some, if_neg hzero]
      rcases printBody_follows hnul hne hr with
        ⟨hnone, hprints⟩ | ⟨s', rest', out, hsome, hshort, hreading, hout, hprints⟩
      · rw [hnone, hprints]
        rfl
      · have hloop := ih rest'.length (by omega) rest' { s' with character := s'.character+1 } n
          (by omega) hreading rfl
        rw [hsome, Option.bind_eq_bind, Option.bind_some, hloop, hprints, Option.map_map]
        dsimp only
        rw [hout]
        congr 1
        funext out'
        simp

/-- With fuel for every character the print is the recursion. -/
theorem vprintf_prints (hnul : ∀ c ∈ format, c ≠ 0) {args : List Arg} (hv : ∀ a ∈ args, a.Valid)
    (b : Buffer) {n : ℕ} (hn : format.length < n) :
    (vprintf format args b n).map PrintState.out = prints format args := by
  have hfill : fillUp formatbufsize 0 formatbufsize 0 b = some _ :=
    fillUp_eq _ _ _ _ le_rfl (by simp)
  have hrun := printLoop_prints hnul format ⟨0, args, fun i => if 0 ≤ i ∧ i < 0+(formatbufsize : ℤ)
    then 0 else b i, []⟩ n hn ⟨⟨[], rfl, rfl⟩, hv⟩
  rw [vprintf, hfill, Option.bind_eq_bind, Option.bind_some, hrun]
  simp

end Steps

/-- Induction over a format by what stands at its front. -/
@[elab_as_elim]
theorem format_induction {motive : List ℕ → Prop} (nil : motive [])
    (char : ∀ ch rest, ch ≠ '%'.toNat → motive rest → motive (ch::rest))
    (last : motive ['%'.toNat])
    (known : ∀ ch rest sp, specifier ch = some sp → motive rest → motive ('%'.toNat::ch::rest))
    (unknown : ∀ ch rest, specifier ch = none → motive rest → motive (ch::rest) →
      motive ('%'.toNat::ch::rest)) (format : List ℕ) : motive format := by
  induction hk : format.length using Nat.strong_induction_on generalizing format with
  | _ k ih =>
    cases format with
    | nil => exact nil
    | cons ch rest =>
      rw [List.length_cons] at hk
      by_cases hp : ch = '%'.toNat
      · subst hp
        cases rest with
        | nil => exact last
        | cons next rest =>
          rw [List.length_cons] at hk
          have hrest := ih rest.length (by omega) rest rfl
          cases hsp : specifier next with
          | none => exact unknown next rest hsp hrest (ih (rest.length+1) (by omega) (next::rest) rfl)
          | some sp => exact known next rest sp hsp hrest
      · exact char ch rest hp (ih rest.length (by omega) rest rfl)

section Comparison

/-- The arguments that the reader takes. -/
def readCount : List ℕ → ℕ
  | [] => 0
  | ch::rest =>
    if ch = '%'.toNat then
      match rest with
      | [] => 0
      | next::rest' => if (specifier next).isSome then readCount rest'+1 else readCount rest'
    else readCount rest

/-- The arguments that the code takes: one for every percent sign in front of a specifier. -/
def printCount : List ℕ → ℕ
  | [] => 0
  | ch::rest =>
    if ch = '%'.toNat then
      match rest with
      | [] => 0
      | next::rest' => if (specifier next).isSome then printCount rest'+1 else printCount (next::rest')
    else printCount rest

variable {rest : List ℕ} {args : List Arg} {ch : ℕ} {sp : Specifier}

theorem readCount_char (h : ch ≠ '%'.toNat) : readCount (ch::rest) = readCount rest := by
  rw [readCount.eq_def]
  exact if_neg h

theorem readCount_known (h : specifier ch = some sp) :
    readCount ('%'.toNat::ch::rest) = readCount rest+1 := by
  exact (if_pos rfl).trans (if_pos (by rw [h]; rfl))

theorem readCount_unknown (h : specifier ch = none) :
    readCount ('%'.toNat::ch::rest) = readCount rest := by
  exact (if_pos rfl).trans (if_neg (by rw [h]; decide))

theorem printCount_char (h : ch ≠ '%'.toNat) : printCount (ch::rest) = printCount rest := by
  rw [printCount.eq_def]
  exact if_neg h

theorem printCount_known (h : specifier ch = some sp) :
    printCount ('%'.toNat::ch::rest) = printCount rest+1 := by
  exact (if_pos rfl).trans (if_pos (by rw [h]; rfl))

theorem printCount_unknown (h : specifier ch = none) :
    printCount ('%'.toNat::ch::rest) = printCount (ch::rest) := by
  exact (if_pos rfl).trans (if_neg (by rw [h]; decide))

/-- A specifier is no percent sign. -/
theorem specifier_percent (h : specifier ch = some sp) : ch ≠ '%'.toNat := by
  rintro rfl
  exact absurd (show none = some sp from h) (by simp)

theorem printCount_cons (ch : ℕ) (rest : List ℕ) : printCount rest ≤ printCount (ch::rest) := by
  by_cases hp : ch = '%'.toNat
  · subst hp
    cases rest with
    | nil => exact Nat.zero_le _
    | cons next rest =>
      cases hsp : specifier next with
      | none => rw [printCount_unknown hsp]
      | some sp =>
        rw [printCount_known hsp, printCount_char (specifier_percent hsp)]
        exact Nat.le_succ _
  · rw [printCount_char hp]

/-- The code takes all arguments that the reader takes, and perhaps more. -/
theorem readCount_le (format : List ℕ) : readCount format ≤ printCount format := by
  induction format using format_induction with
  | nil => exact le_rfl
  | char ch rest hp ih =>
    rw [readCount_char hp, printCount_char hp]
    exact ih
  | last => exact le_rfl
  | known ch rest sp hsp ih =>
    rw [readCount_known hsp, printCount_known hsp]
    exact Nat.succ_le_succ ih
  | unknown ch rest hsp ih _ =>
    rw [readCount_unknown hsp, printCount_unknown hsp]
    exact ih.trans (printCount_cons ch rest)

/-- The arguments a format takes are valid, and the reader has a meaning for it with them. -/
theorem matches_count (format : List ℕ) (args : List Arg) (hm : Matches format args) :
    args.length = readCount format ∧ (∀ a ∈ args, a.Valid) ∧
      ∃ out, readFormat format args = some out := by
  induction format using format_induction generalizing args with
  | nil =>
    obtain rfl : args = [] := hm
    exact ⟨rfl, by simp, [], rfl⟩
  | char ch rest hp ih =>
    obtain ⟨h1, h2, out, h3⟩ := ih args ((matches_char hp).mp hm)
    rw [readCount_char hp, readFormat_char hp, h3]
    exact ⟨h1, h2, _, rfl⟩
  | last =>
    obtain rfl := matches_last.mp hm
    exact ⟨rfl, by simp, _, readFormat_last⟩
  | known ch rest sp hsp ih =>
    obtain ⟨a, args, rfl, ⟨ha, hacc⟩, hm⟩ := (matches_known hsp).mp hm
    obtain ⟨h1, h2, out, h3⟩ := ih args hm
    obtain ⟨t, hconv, -⟩ := convert_accepted ha hacc
    rw [readCount_known hsp, readFormat_known hsp, hconv, Option.bind_some, h3]
    refine ⟨congrArg (·+1) h1, ?_, _, rfl⟩
    intro d hd
    rcases List.mem_cons.mp hd with rfl | hd
    · exact ha
    · exact h2 d hd
  | unknown ch rest hsp ih _ =>
    obtain ⟨h1, h2, out, h3⟩ := ih args ((matches_unknown hsp).mp hm)
    rw [readCount_unknown hsp, readFormat_unknown hsp, h3]
    exact ⟨h1, h2, _, rfl⟩

/-- The code does not end without the arguments it takes. -/
theorem prints_count (format : List ℕ) (args : List Arg) (out : List ℕ)
    (h : prints format args = some out) : printCount format ≤ args.length := by
  induction format using format_induction generalizing args out with
  | nil => exact Nat.zero_le _
  | char ch rest hp ih =>
    rw [prints_char hp, Option.map_eq_some_iff] at h
    obtain ⟨out', h, -⟩ := h
    rw [printCount_char hp]
    exact ih args out' h
  | last => exact Nat.zero_le _
  | known ch rest sp hsp ih =>
    cases args with
    | nil =>
      rw [prints_missing hsp] at h
      cases h
    | cons a args =>
      rw [prints_known hsp, Option.bind_eq_some_iff] at h
      obtain ⟨t, -, h⟩ := h
      rw [Option.map_eq_some_iff] at h
      obtain ⟨out', h, -⟩ := h
      rw [printCount_known hsp]
      exact Nat.succ_le_succ (ih args out' h)
  | unknown ch rest hsp ih ih' =>
    rw [printCount_unknown hsp]
    by_cases hnl : ch = '\n'.toNat
    · subst hnl
      rw [prints_newline, Option.map_eq_some_iff] at h
      obtain ⟨out', h, -⟩ := h
      rw [printCount_char (by decide)]
      exact ih args out' h
    · rw [prints_unknown hnl hsp, Option.map_eq_some_iff] at h
      obtain ⟨out', h, -⟩ := h
      exact ih' args out' h

/-- On a clean format the code prints what the reader does. -/
theorem prints_clean (format : List ℕ) (args : List Arg) (hc : Clean format) :
    prints format args = readFormat format args := by
  induction format using format_induction generalizing args with
  | nil => rfl
  | char ch rest hp ih =>
    rw [prints_char hp, readFormat_char hp, ih args ((clean_char hp).mp hc)]
  | last => rw [prints_last, readFormat_last]
  | known ch rest sp hsp ih =>
    cases args with
    | nil => rw [prints_missing hsp, readFormat_missing hsp]
    | cons a args => rw [prints_known hsp, readFormat_known hsp, ih args (clean_percent.mp hc).2]
  | unknown ch rest hsp ih _ =>
    obtain ⟨hnext, hrest⟩ := clean_percent.mp hc
    obtain rfl : ch = '\n'.toNat := hnext.resolve_right (by simp [hsp])
    rw [prints_newline, readFormat_unknown hsp, ih args hrest]

/-- A character read again behind a percent sign is printed once more than the reader does. -/
theorem unknown_longer {o o' : List ℕ}
    (ih : ∀ out, prints rest args = some out → o'.length ≤ out.length)
    (h : prints (ch::rest) args = some o) (hcount : printCount (ch::rest) ≤ readCount rest)
    (h' : readFormat rest args = some o') : o'.length < o.length := by
  by_cases hp : ch = '%'.toNat
  · subst hp
    cases rest with
    | nil =>
      rw [prints_last] at h
      obtain rfl := Option.some.inj h
      obtain rfl := Option.some.inj h'
      exact Nat.zero_lt_one
    | cons next rest =>
      cases hsp : specifier next with
      | some sp =>
        -- the code takes an argument that the reader does not
        have hle := readCount_le rest
        rw [printCount_known hsp, readCount_char (specifier_percent hsp)] at hcount
        omega
      | none =>
        by_cases hnl : next = '\n'.toNat
        · subst hnl
          rw [prints_newline, Option.map_eq_some_iff] at h
          obtain ⟨out, h, rfl⟩ := h
          have hlen := ih ('\n'.toNat::out) (by rw [prints_char (by decide), h, Option.map_some])
          exact Nat.lt_succ_of_le hlen
        · rw [prints_unknown hnl hsp, Option.map_eq_some_iff] at h
          obtain ⟨out, h, rfl⟩ := h
          exact Nat.lt_succ_of_le ((ih out h).trans (Nat.le_succ _))
  · rw [prints_char hp, Option.map_eq_some_iff] at h
    obtain ⟨out, h, rfl⟩ := h
    exact Nat.lt_succ_of_le (ih out h)

/-- With the arguments of the reader alone the code prints no less than the reader, and more
where the format is not clean. -/
theorem prints_longer (format : List ℕ) (args : List Arg) (out out' : List ℕ)
    (hargs : args.length = readCount format) (h : prints format args = some out)
    (h' : readFormat format args = some out') :
    out'.length ≤ out.length ∧ (¬ Clean format → out'.length < out.length) := by
  induction format using format_induction generalizing args out out' with
  | nil =>
    obtain rfl := Option.some.inj h
    obtain rfl := Option.some.inj h'
    exact ⟨le_rfl, fun hc => absurd trivial hc⟩
  | char ch rest hp ih =>
    rw [prints_char hp, Option.map_eq_some_iff] at h
    rw [readFormat_char hp, Option.map_eq_some_iff] at h'
    obtain ⟨o, h, rfl⟩ := h
    obtain ⟨o', h', rfl⟩ := h'
    rw [readCount_char hp] at hargs
    rw [clean_char hp, List.length_cons, List.length_cons]
    have hlen := ih args o o' hargs h h'
    exact ⟨Nat.succ_le_succ hlen.1, fun hc => Nat.succ_lt_succ (hlen.2 hc)⟩
  | last =>
    rw [prints_last] at h
    rw [readFormat_last] at h'
    obtain rfl := Option.some.inj h
    obtain rfl := Option.some.inj h'
    exact ⟨le_rfl, fun hc => absurd trivial hc⟩
  | known ch rest sp hsp ih =>
    cases args with
    | nil =>
      rw [prints_missing hsp] at h
      cases h
    | cons a args =>
      rw [prints_known hsp, Option.bind_eq_some_iff] at h
      rw [readFormat_known hsp, Option.bind_eq_some_iff] at h'
      obtain ⟨t, hconv, h⟩ := h
      obtain ⟨t', hconv', h'⟩ := h'
      obtain rfl : t = t' := Option.some.inj (hconv.symm.trans hconv')
      rw [Option.map_eq_some_iff] at h h'
      obtain ⟨o, h, rfl⟩ := h
      obtain ⟨o', h', rfl⟩ := h'
      rw [readCount_known hsp, List.length_cons] at hargs
      have hlen := ih args o o' (Nat.succ.inj hargs) h h'
      rw [clean_percent, List.length_append, List.length_append]
      refine ⟨Nat.add_le_add_left hlen.1 _, fun hc => Nat.add_lt_add_left (hlen.2 ?_) _⟩
      exact fun hrest => hc ⟨Or.inr (by rw [hsp]; rfl), hrest⟩
  | unknown ch rest hsp ih ih' =>
    have hcount := prints_count _ _ _ h
    rw [readCount_unknown hsp] at hargs
    rw [printCount_unknown hsp, hargs] at hcount
    rw [readFormat_unknown hsp, Option.map_eq_some_iff] at h'
    obtain ⟨o', h', rfl⟩ := h'
    by_cases hnl : ch = '\n'.toNat
    · subst hnl
      rw [prints_newline, Option.map_eq_some_iff] at h
      obtain ⟨o, h, rfl⟩ := h
      have hlen := ih args o o' hargs h h'
      rw [clean_percent, List.length_cons, List.length_cons, List.length_cons, List.length_cons]
      refine ⟨Nat.add_le_add_right hlen.1 2, fun hc => Nat.add_lt_add_right (hlen.2 ?_) 2⟩
      exact fun hrest => hc ⟨Or.inl rfl, hrest⟩
    · rw [prints_unknown hnl hsp, Option.map_eq_some_iff] at h
      obtain ⟨o, h, rfl⟩ := h
      have hmore := unknown_longer (fun o h => (ih args o o' hargs h h').1) h hcount h'
      rw [List.length_cons, List.length_cons, List.length_cons, List.length_cons]
      exact ⟨by omega, fun _ => by omega⟩

end Comparison

end BruhOS.BootPrint
