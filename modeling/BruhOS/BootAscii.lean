import BruhOS.TextBuffer

/-!
# From ASCII to UTF-16

`format_ascii_to_utf16` copies a byte string into a buffer of 16-bit characters through a table,
with a replacement character for what the table does not hold. It stops at the end of the string
or of the buffer. In the second case the terminator takes the place of the last character.
-/

set_option autoImplicit false

namespace BruhOS.BootAscii

open BruhOS.TextBuffer

section Code

def asciiMax : ℕ := 128

/-- A byte as a `char`. -/
def signedChar (c : ℕ) : ℤ := if c < 128 then c else c-256

/-- The table `ascii_to_utf16`. -/
def asciiToUtf16 : List ℕ :=
  [0x00, 0x01, 0x02, 0x03, 0x04, 0x05, 0x06, 0x07, 0x08, 0x09, 0x0A, 0x0B, 0x0C, 0x0D, 0x0E, 0x0F,
    0x10, 0x11, 0x12, 0x13, 0x14, 0x15, 0x16, 0x17, 0x18, 0x19, 0x1A, 0x1B, 0x1C, 0x1D, 0x1E,
    0x1F] ++
  [' ', '!', '\"', '#', '$', '%', '&', '\'', '(', ')', '*', '+', ',', '-', '.', '/',
    '0', '1', '2', '3', '4', '5', '6', '7', '8', '9', ':', ';', '<', '=', '>', '?',
    '@', 'A', 'B', 'C', 'D', 'E', 'F', 'G', 'H', 'I', 'J', 'K', 'L', 'M', 'N', 'O',
    'P', 'Q', 'R', 'S', 'T', 'U', 'V', 'W', 'X', 'Y', 'Z', '[', '\\', ']', '^', '_',
    '\x60', 'a', 'b', 'c', 'd', 'e', 'f', 'g', 'h', 'i', 'j', 'k', 'l', 'm', 'n', 'o',
    'p', 'q', 'r', 's', 't', 'u', 'v', 'w', 'x', 'y', 'z', '\x7b', '|', '\x7d', '~',
    '\x7f'].map Char.toNat

/-- `invalid ? L'\ufffd' : ascii_to_utf16[c]`, refused outside the table. -/
def translate (c : ℕ) : Option ℕ :=
  if signedChar c < 0 ∨ c ≥ asciiMax then some 0xfffd else asciiToUtf16[c]?

variable (asciibuf : List ℕ) (utf16_maxsize : ℕ)

/-- The loop from the 16-bit index `i` on, for at most `n` tests. -/
def copyLoop : ℕ → ℕ → Buffer → Option (ℕ × Buffer)
  | 0, _, _ => none
  | n+1, i, b =>
    if i < utf16_maxsize then do
      let c ← charAt asciibuf i
      if c = 0 then some (i, b) else do
        let v ← translate c
        let b ← store utf16_maxsize b i v
        copyLoop n ((i+1)%2^16) b
    else some (i, b)

def formatAsciiToUtf16 (n : ℕ) (utf16_out : Buffer) : Option Buffer := do
  let r ← copyLoop asciibuf utf16_maxsize n 0 utf16_out
  if r.1 < utf16_maxsize then store utf16_maxsize r.2 r.1 0
  else store utf16_maxsize r.2 ((r.1 : ℤ)-1) 0

end Code

/-- A byte below 128 keeps its code, any other becomes the replacement character. -/
def utf16Of (c : ℕ) : ℕ := if c < 128 then c else 0xfffd

section Table

theorem table_identity : asciiToUtf16 = List.range 128 := by decide

theorem translate_eq (c : ℕ) : translate c = some (utf16Of c) := by
  unfold translate utf16Of signedChar asciiMax
  by_cases hc : c < 128
  · rw [if_neg (by rw [if_pos hc]; omega), if_pos hc, table_identity, List.getElem?_range hc]
  · rw [if_pos (Or.inr (by omega)), if_neg hc]

theorem utf16Of_nonzero {c : ℕ} (hc : c ≠ 0) : utf16Of c ≠ 0 := by
  unfold utf16Of
  split
  · exact hc
  · decide

end Table

section Copy

variable {asciibuf : List ℕ} {utf16_maxsize : ℕ}

/-- The loop copies characters behind those copied until the string or the buffer ends. -/
theorem copyLoop_place (before rest : List ℕ) (b : Buffer) (n : ℕ)
    (hb : before.length ≤ utf16_maxsize) (hmax : utf16_maxsize < 2^16)
    (hrest : ∀ c ∈ rest, c ≠ 0) (hn : rest.length < n) :
    copyLoop (before++rest) utf16_maxsize n before.length
        (place before.length b (before.map utf16Of)) =
      some ((before++rest.take (utf16_maxsize-before.length)).length,
        place (before++rest.take (utf16_maxsize-before.length)).length b
          ((before++rest.take (utf16_maxsize-before.length)).map utf16Of)) := by
  induction rest generalizing before n with
  | nil =>
    obtain ⟨k, rfl⟩ : ∃ k, n = k+1 := ⟨n-1, by simp at hn; omega⟩
    rw [List.append_nil, List.take_nil, List.append_nil, copyLoop, charAt_end]
    by_cases hroom : before.length < utf16_maxsize
    · rw [if_pos hroom]
      rfl
    · rw [if_neg hroom]
  | cons c rest ih =>
    rw [List.length_cons] at hn
    obtain ⟨k, rfl⟩ : ∃ k, n = k+1 := ⟨n-1, by omega⟩
    have hc : c ≠ 0 := hrest c List.mem_cons_self
    rw [copyLoop, charAt_cons]
    by_cases hroom : before.length < utf16_maxsize
    · obtain ⟨m, hm⟩ : ∃ m, utf16_maxsize-before.length = m+1 :=
        ⟨utf16_maxsize-before.length-1, by omega⟩
      have hlen : (before++[c]).length = before.length+1 := List.length_append
      have hword : (before.length+1)%2^16 = before.length+1 := Nat.mod_eq_of_lt (by omega)
      have hleft : utf16_maxsize-(before.length+1) = m := by omega
      have hnext := ih (before++[c]) k (by omega)
        (fun d hd => hrest d (List.mem_cons_of_mem c hd)) (by omega)
      rw [hlen, hleft, List.append_assoc, List.singleton_append, List.map_append,
        List.map_singleton, Nat.cast_add, Nat.cast_one, ← place_snoc] at hnext
      rw [if_pos hroom, hm, List.take_succ_cons]
      simp only [Option.bind_eq_bind, Option.bind_some, if_neg hc, translate_eq, hword]
      rw [store, if_pos (by omega), Option.bind_some, hnext, List.append_assoc,
        List.singleton_append]
    · have hzero : utf16_maxsize-before.length = 0 := by omega
      rw [if_neg hroom, hzero, List.take_zero, List.append_nil]

/-- What the call leaves in the buffer, whichever way the loop ends. -/
theorem formatAscii_place (hpos : 0 < utf16_maxsize) (hmax : utf16_maxsize < 2^16)
    (hbytes : ∀ c ∈ asciibuf, c ≠ 0) {n : ℕ} (hn : asciibuf.length < n) (b : Buffer) :
    formatAsciiToUtf16 asciibuf utf16_maxsize n b =
      some (place ((asciibuf.take (utf16_maxsize-1)).length+1) b
        ((asciibuf.take (utf16_maxsize-1)).map utf16Of++[0])) := by
  have hloop := copyLoop_place [] asciibuf b n (Nat.zero_le _) hmax hbytes hn
  have hstart : place (([] : List ℕ).length : ℤ) b (([] : List ℕ).map utf16Of) = b := rfl
  rw [hstart, List.nil_append, List.length_nil, Nat.sub_zero, List.nil_append] at hloop
  rw [formatAsciiToUtf16, hloop, Option.bind_eq_bind, Option.bind_some, ← place_snoc]
  dsimp only
  by_cases hshort : asciibuf.length < utf16_maxsize
  · have hall : asciibuf.take utf16_maxsize = asciibuf := List.take_of_length_le hshort.le
    have hcut : asciibuf.take (utf16_maxsize-1) = asciibuf := List.take_of_length_le (by omega)
    rw [hall, hcut, if_pos hshort, store, if_pos (by omega)]
  · -- The character behind the cut is written and then overwritten.
    obtain ⟨m, rfl⟩ : ∃ m, utf16_maxsize = m+1 := ⟨utf16_maxsize-1, by omega⟩
    have hlast : asciibuf.take (m+1) = asciibuf.take m++[asciibuf[m]] :=
      (List.take_append_getElem (by omega)).symm
    have hlen : (asciibuf.take m).length = m := by
      rw [List.length_take]
      omega
    have hfull : (asciibuf.take m++[asciibuf[m]]).length = m+1 := by
      rw [List.length_append, hlen, List.length_singleton]
    rw [hlast, hfull, if_neg (by omega), Nat.add_sub_cancel, hlen, List.map_append,
      List.map_singleton, Nat.cast_add, Nat.cast_one, Int.add_sub_cancel, ← place_snoc, store,
      if_pos (by omega), Function.update_idem]

end Copy

/-- The buffer after the call: the text up to the terminator, and what lies outside. -/
structure Translated (asciibuf : List ℕ) (utf16_maxsize : ℕ) (before after : Buffer) : Prop where
  text : readText utf16_maxsize after 0 =
    some ((asciibuf.take (min asciibuf.length (utf16_maxsize-1))).map utf16Of)
  outside : ∀ i : ℤ, i < 0 ∨ utf16_maxsize ≤ i → after i = before i

theorem translated_place (asciibuf : List ℕ) {utf16_maxsize : ℕ} (hpos : 0 < utf16_maxsize)
    (hbytes : ∀ c ∈ asciibuf, c ≠ 0) (b : Buffer) :
    Translated asciibuf utf16_maxsize b
      (place ((asciibuf.take (utf16_maxsize-1)).length+1) b
        ((asciibuf.take (utf16_maxsize-1)).map utf16Of++[0])) := by
  have hmin : asciibuf.take (min asciibuf.length (utf16_maxsize-1)) =
      asciibuf.take (utf16_maxsize-1) := by
    rw [List.take_eq_take_iff]
    omega
  have hlen : (asciibuf.take (utf16_maxsize-1)).length ≤ utf16_maxsize-1 := List.length_take_le _ _
  have hnonzero : ∀ c ∈ (asciibuf.take (utf16_maxsize-1)).map utf16Of, c ≠ 0 := by
    intro c hc
    obtain ⟨d, hd, rfl⟩ := List.mem_map.mp hc
    exact utf16Of_nonzero (hbytes d (List.mem_of_mem_take hd))
  rw [← place_snoc]
  constructor
  · rw [hmin]
    refine readText_agree (e := (asciibuf.take (utf16_maxsize-1)).length) (b := b) (by omega) le_rfl
      ?_ hnonzero (Function.update_self _ _ _) ?_
    · rw [List.length_map]
      omega
    · intro i _ hi
      exact Function.update_of_ne hi.ne _ _
  · intro i hi
    rw [Function.update_of_ne (by omega)]
    rcases hi with hlow | hhigh
    · exact place_below _ (by rw [List.length_map]; omega)
    · exact place_above _ (by omega)

/-- For every string and every size of a 16-bit index, each write is inside the buffer, and the
text there is the part of the string that fits in front of the terminator. -/
theorem ascii_translated (asciibuf : List ℕ) (hbytes : ∀ c ∈ asciibuf, c ≠ 0)
    (utf16_maxsize : ℕ) (hpos : 1 ≤ utf16_maxsize) (hmax : utf16_maxsize ≤ 65535)
    (utf16_out : Buffer) :
    ∃ after, (∀ n, asciibuf.length < n →
        formatAsciiToUtf16 asciibuf utf16_maxsize n utf16_out = some after) ∧
      Translated asciibuf utf16_maxsize utf16_out after :=
  ⟨_, fun _ hn => formatAscii_place hpos (by omega) hbytes hn utf16_out,
    translated_place asciibuf hpos hbytes utf16_out⟩

/-- Three bytes and room for two: the last byte makes way for the terminator. -/
theorem ascii_translated_cut :
    (formatAsciiToUtf16 [0x48, 0x80, 0x69] 3 4 (fun _ => 7)).bind (readText 3 · 0) =
      some [0x48, 0xfffd] := by
  obtain ⟨after, hafter, ht⟩ := ascii_translated [0x48, 0x80, 0x69] (by decide) 3 (by decide)
    (by decide) (fun _ => 7)
  rw [hafter 4 (by decide), Option.bind_some]
  exact ht.text

end BruhOS.BootAscii
