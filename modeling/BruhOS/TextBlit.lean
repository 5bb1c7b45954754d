import BruhOS.TextBuffer

/-!
# Bitmap-font text on the framebuffer

A glyph is drawn row by row: the eight bits of a byte of the font become
eight pixels, and one `memcpy` puts them at the pixel address, which then
moves down one scan line. Pixel addresses count pixels from the start of the
framebuffer. Three functions draw a character, a string and a part of a
string; between two characters they move a cursor of 16-bit coordinates.
-/

set_option autoImplicit false

namespace BruhOS.Gpcs2

open BruhOS.TextBuffer

/-- A pair of 16-bit coordinates. -/
@[ext] structure Vec2us where
  x : ℕ
  y : ℕ
  x_lt : x < 2^16
  y_lt : y < 2^16
  deriving DecidableEq

/-- The coordinates stored in 16 bits. -/
def vec2us (x y : ℕ) : Vec2us :=
  ⟨x % 2^16, y % 2^16, Nat.mod_lt _ (by decide), Nat.mod_lt _ (by decide)⟩

/-- A style. `char_t` is a signed byte, so a font has less than 128 glyph rows and columns. -/
structure FontStyle where
  GlyphBytesWidth : ℕ
  GlyphHeight : ℕ
  GlyphBitmaps : ℕ → ℕ
  width_lt : GlyphBytesWidth < 128
  height_lt : GlyphHeight < 128

structure Framebuffer where
  dims : Vec2us

def charOffsetX : ℕ := 2

def charOffsetY : ℕ := 2

/-- One `memcpy` of a glyph row: the place of the character, the loop counter, the address and
the pixels. -/
structure RowCopy where
  offset : Vec2us
  y : ℕ
  pixel_address : ℕ
  masks : List ℕ

/-- The pixels behind the start of the framebuffer, and the copies made so far. -/
structure Screen where
  pixels : ℕ → ℕ
  copies : List RowCopy

def Screen.memcpy (s : Screen) (c : RowCopy) : Screen :=
  ⟨fun i => if c.pixel_address ≤ i then c.masks.getD (i-c.pixel_address) (s.pixels i)
    else s.pixels i, s.copies++[c]⟩

/-- A condition used as a number. -/
def flag (p : Prop) [Decidable p] : ℕ := if p then 1 else 0

section Draw

variable (fb : Framebuffer) (style : FontStyle) (color backColor : ℕ)

/-- `masks[i]` for a byte of the bitmap. -/
def mask (byte i : ℕ) : ℕ :=
  let mask := flag (byte &&& (0x80 >>> i) ≠ 0)*color
  mask+flag (mask = 0)*backColor

/-- The variables that the drawing loops change. -/
structure Pen where
  pixel_address : ℕ
  chline : ℕ
  screen : Screen

/-- The body of the drawing loops. -/
def drawByte (offset : Vec2us) (y : ℕ) (pen : Pen) : Pen :=
  ⟨pen.pixel_address+fb.dims.x, pen.chline+1, pen.screen.memcpy ⟨offset, y, pen.pixel_address,
    (List.range 8).map (mask color backColor (style.GlyphBitmaps pen.chline))⟩⟩

/-- The drawing loops. -/
def drawLines (offset : Vec2us) (pen : Pen) : Pen :=
  (List.range style.GlyphHeight).foldl (fun pen y =>
    (List.range style.GlyphBytesWidth).foldl (fun pen _ =>
      drawByte fb style color backColor offset y pen) pen) pen

/-- The index of the bitmap of a character, in 32 bits. -/
def glyphIndex (ch : ℕ) : ℕ :=
  style.GlyphBytesWidth*style.GlyphHeight % 2^32*((ch+(2^32-32)) % 2^32) % 2^32

end Draw

/-- The three assignments that move the cursor behind a character. -/
def advance (style : FontStyle) (startoff maxoff offset : Vec2us) : Vec2us :=
  let x := (offset.x+(style.GlyphBytesWidth*8+charOffsetX)) % 2^16
  let x := (x*flag (x < maxoff.x)+startoff.x*flag (maxoff.x ≤ x)) % 2^16
  vec2us x (offset.y+(style.GlyphHeight+charOffsetY)*flag (x = startoff.x))

/-- The test for the bottom of the area. -/
def wrapBottom (startoff maxoff offset : Vec2us) : Vec2us :=
  if maxoff.y ≤ offset.y then startoff else offset

section Write

variable (fb : Framebuffer) (style : FontStyle) (startoff : Vec2us)

def framebufferWriteCharBmFontRGB (offset maxoff : Vec2us) (color backColor ch : ℕ)
    (s : Screen) : Vec2us × Screen :=
  let pixel_address := (offset.x+fb.dims.x*offset.y) % 2^32
  let pen := drawLines fb style color backColor offset ⟨pixel_address, glyphIndex style ch, s⟩
  (advance style startoff maxoff offset, pen.screen)

/-- The loop over the string, up to its terminator. -/
def writeStringLoop (maxoff : Vec2us) (color backColor : ℕ) :
    List ℕ → Vec2us → Screen → Vec2us × Screen
  | [], offset, s => (offset, s)
  | c::str, offset, s =>
    if c = 0 then (offset, s)
    else
      let pixel_address := fb.dims.x*offset.y % 2^32+offset.x
      let pen := drawLines fb style color backColor offset ⟨pixel_address, glyphIndex style c, s⟩
      let offset := advance style startoff maxoff offset
      writeStringLoop maxoff color backColor str (wrapBottom startoff maxoff offset) pen.screen

def framebufferWriteStringBmFontRGB (offset maxoff : Vec2us) (color backColor : ℕ)
    (str : Option (List ℕ)) (s : Screen) : Vec2us × Screen :=
  match str with
  | none => (vec2us 0xFFFF 0xFFFF, s)
  | some str => writeStringLoop fb style startoff maxoff color backColor str offset s

/-- The loop over `n` characters from the index `begin` on. -/
def writeSubStringLoop (maxoff : Vec2us) (color backColor : ℕ) (str : List ℕ) :
    ℕ → ℕ → Vec2us → Screen → Option (Vec2us × Screen)
  | 0, _, offset, s => some (offset, s)
  | n+1, start, offset, s => do
    let c ← charAt str start
    let pixel_address := fb.dims.x*offset.y % 2^32+offset.x
    let pen := drawLines fb style color backColor offset ⟨pixel_address, glyphIndex style c, s⟩
    let offset := advance style startoff maxoff offset
    writeSubStringLoop maxoff color backColor str n (start+1) (wrapBottom startoff maxoff offset)
      pen.screen

/-- `start` and `stop` are 32-bit words. -/
def framebufferWriteSubStringBmFontRGB (offset maxoff : Vec2us) (color backColor : ℕ)
    (str : Option (List ℕ)) (start stop : ℕ) (s : Screen) : Option (Vec2us × Screen) :=
  match str with
  | none => some (vec2us 0xFFFF 0xFFFF, s)
  | some str =>
    writeSubStringLoop fb style startoff maxoff color backColor str (stop % 2^32-start % 2^32)
      (start % 2^32) offset s

/-- Calls for one character each, every one from the place that the call before returned. -/
def writeChars (maxoff : Vec2us) (color backColor : ℕ) :
    List ℕ → Vec2us → Screen → Vec2us × Screen
  | [], offset, s => (offset, s)
  | ch::str, offset, s =>
    let written := framebufferWriteCharBmFontRGB fb style startoff offset maxoff color backColor ch s
    writeChars maxoff color backColor str written.1 written.2

/-- Calls for consecutive parts of a string, up to each of the cuts in turn. -/
def writeSubStrings (maxoff : Vec2us) (color backColor : ℕ) (str : List ℕ) :
    List ℕ → ℕ → Vec2us → Screen → Option (Vec2us × Screen)
  | [], _, offset, s => some (offset, s)
  | stop::cuts, start, offset, s => do
    let written ← framebufferWriteSubStringBmFontRGB fb style startoff offset maxoff color backColor
      (some str) start stop s
    writeSubStrings maxoff color backColor str cuts stop written.1 written.2

end Write

section Text

variable (fb : Framebuffer) (style : FontStyle) (color backColor : ℕ)

def drawGlyph (offset : Vec2us) (ch : ℕ) (s : Screen) : Screen :=
  (drawLines fb style color backColor offset
    ⟨fb.dims.x*offset.y+offset.x, glyphIndex style ch, s⟩).screen

/-- A text drawn with a cursor that moves by `next`. -/
def drawText (next : Vec2us → Vec2us) : List ℕ → Vec2us → Screen → Vec2us × Screen
  | [], offset, s => (offset, s)
  | ch::str, offset, s =>
    drawText next str (next offset) (drawGlyph fb style color backColor offset ch s)

variable {fb style color backColor} {next next' : Vec2us → Vec2us}

theorem drawText_append (str str' : List ℕ) (offset : Vec2us) (s : Screen) :
    drawText fb style color backColor next (str++str') offset s =
      drawText fb style color backColor next str'
        (drawText fb style color backColor next str offset s).1
        (drawText fb style color backColor next str offset s).2 := by
  induction str generalizing offset s with
  | nil => rfl
  | cons ch str ih => exact ih _ _

theorem drawText_offset (str : List ℕ) (offset : Vec2us) (s : Screen) :
    (drawText fb style color backColor next str offset s).1 = next^[str.length] offset := by
  induction str generalizing offset s with
  | nil => rfl
  | cons ch str ih =>
    rw [drawText, ih, List.length_cons, Function.iterate_succ_apply]

/-- Two cursors that visit the same places draw the same text. -/
theorem drawText_congr (str : List ℕ) (offset : Vec2us) (s : Screen)
    (h : ∀ m ≤ str.length, next^[m] offset = next'^[m] offset) :
    drawText fb style color backColor next str offset s =
      drawText fb style color backColor next' str offset s := by
  induction str generalizing offset s with
  | nil => rfl
  | cons ch str ih =>
    have hnext : next offset = next' offset := h 1 (by rw [List.length_cons]; omega)
    rw [drawText, drawText, ← hnext]
    apply ih
    intro m hm
    have hm' := h (m+1) (by rw [List.length_cons]; omega)
    rw [Function.iterate_succ_apply, Function.iterate_succ_apply, ← hnext] at hm'
    exact hm'

end Text

section Renderers

variable {fb : Framebuffer} {style : FontStyle} {startoff maxoff : Vec2us} {color backColor : ℕ}

/-- A pixel address of the screen fits 32 bits. -/
theorem pixel_address_lt (p q : Vec2us) : p.x*q.y+q.x < 2^32 := by
  have hrow : p.x*q.y ≤ (2^16-1)*(2^16-1) :=
    Nat.mul_le_mul (Nat.le_sub_one_of_lt p.x_lt) (Nat.le_sub_one_of_lt q.y_lt)
  have := q.x_lt
  omega

theorem writeChar_eq (offset : Vec2us) (ch : ℕ) (s : Screen) :
    framebufferWriteCharBmFontRGB fb style startoff offset maxoff color backColor ch s =
      (advance style startoff maxoff offset, drawGlyph fb style color backColor offset ch s) := by
  have haddr : (offset.x+fb.dims.x*offset.y) % 2^32 = fb.dims.x*offset.y+offset.x := by
    rw [Nat.add_comm]
    exact Nat.mod_eq_of_lt (pixel_address_lt _ _)
  rw [framebufferWriteCharBmFontRGB, haddr, drawGlyph]

theorem writeChars_eq (str : List ℕ) (offset : Vec2us) (s : Screen) :
    writeChars fb style startoff maxoff color backColor str offset s =
      drawText fb style color backColor (advance style startoff maxoff) str offset s := by
  induction str generalizing offset s with
  | nil => rfl
  | cons ch str ih => rw [writeChars, writeChar_eq, ih, drawText]

/-- The cursor of the two string functions. -/
def wrapped (style : FontStyle) (startoff maxoff offset : Vec2us) : Vec2us :=
  wrapBottom startoff maxoff (advance style startoff maxoff offset)

theorem string_address (offset : Vec2us) :
    fb.dims.x*offset.y % 2^32+offset.x = fb.dims.x*offset.y+offset.x := by
  have := pixel_address_lt fb.dims offset
  rw [Nat.mod_eq_of_lt (by omega)]

theorem writeString_eq (str : List ℕ) (hnul : ∀ c ∈ str, c ≠ 0) (offset : Vec2us) (s : Screen) :
    framebufferWriteStringBmFontRGB fb style startoff offset maxoff color backColor (some str) s =
      drawText fb style color backColor (wrapped style startoff maxoff) str offset s := by
  rw [framebufferWriteStringBmFontRGB]
  induction str generalizing offset s with
  | nil => rfl
  | cons c str ih =>
    rw [writeStringLoop, if_neg (hnul c List.mem_cons_self), string_address, drawText]
    exact ih (fun d hd => hnul d (List.mem_cons_of_mem c hd)) _ _

theorem writeSubStringLoop_eq (str : List ℕ) (n start : ℕ) (h : start+n ≤ str.length)
    (offset : Vec2us) (s : Screen) :
    writeSubStringLoop fb style startoff maxoff color backColor str n start offset s =
      some (drawText fb style color backColor (wrapped style startoff maxoff)
        ((str.drop start).take n) offset s) := by
  induction n generalizing start offset s with
  | zero => rfl
  | succ n ih =>
    have hlt : start < str.length := by omega
    have hchar : charAt str start = some (str.get ⟨start, hlt⟩) := by
      rw [charAt, List.getElem?_append_left hlt]
      exact List.getElem?_eq_getElem hlt
    rw [writeSubStringLoop, hchar, Option.bind_eq_bind, Option.bind_some, string_address,
      List.drop_eq_getElem_cons hlt, List.take_succ_cons, drawText]
    exact ih (start+1) (by omega) _ _

theorem writeSubString_eq (str : List ℕ) {start stop : ℕ} (hle : start ≤ stop)
    (h : stop ≤ str.length) (hlt : stop < 2^32) (offset : Vec2us) (s : Screen) :
    framebufferWriteSubStringBmFontRGB fb style startoff offset maxoff color backColor (some str)
      start stop s = some (drawText fb style color backColor (wrapped style startoff maxoff)
        ((str.drop start).take (stop-start)) offset s) := by
  rw [framebufferWriteSubStringBmFontRGB, Nat.mod_eq_of_lt hlt,
    Nat.mod_eq_of_lt (hle.trans_lt hlt)]
  exact writeSubStringLoop_eq str (stop-start) start (by omega) offset s

theorem chain_le_last (cuts : List ℕ) {start last : ℕ} (hcuts : (start::cuts).IsChain (· ≤ ·))
    (hend : (start::cuts).getLast? = some last) : start ≤ last := by
  induction cuts generalizing start with
  | nil =>
    obtain rfl : start = last := Option.some.inj hend
    exact le_rfl
  | cons stop cuts ih =>
    obtain ⟨hle, hrest⟩ := List.isChain_cons_cons.mp hcuts
    exact hle.trans (ih hrest (by rwa [List.getLast?_cons_cons] at hend))

/-- Consecutive parts up to `last` draw the text between. -/
theorem writeSubStrings_eq (str cuts : List ℕ) (start last : ℕ) (hlast : last ≤ str.length)
    (hlt : last < 2^32) (hcuts : (start::cuts).IsChain (· ≤ ·)) (hend : (start::cuts).getLast? = some last)
    (offset : Vec2us) (s : Screen) :
    writeSubStrings fb style startoff maxoff color backColor str cuts start offset s =
      some (drawText fb style color backColor (wrapped style startoff maxoff)
        ((str.drop start).take (last-start)) offset s) := by
  induction cuts generalizing start offset s with
  | nil =>
    obtain rfl : start = last := Option.some.inj hend
    rw [Nat.sub_self, List.take_zero]
    rfl
  | cons stop cuts ih =>
    obtain ⟨hle, hrest⟩ := List.isChain_cons_cons.mp hcuts
    rw [List.getLast?_cons_cons] at hend
    have hstop := chain_le_last cuts hrest hend
    have hsplit : (str.drop start).take (last-start) =
        (str.drop start).take (stop-start)++(str.drop stop).take (last-stop) := by
      have hsum : last-start = (stop-start)+(last-stop) := by omega
      have hdrop : start+(stop-start) = stop := by omega
      rw [hsum, List.take_add, List.drop_drop, hdrop]
    rw [writeSubStrings, writeSubString_eq str hle (hstop.trans hlast) (hstop.trans_lt hlt), Option.bind_eq_bind,
      Option.bind_some, ih stop hrest hend, hsplit, drawText_append]

end Renderers

/-- Every pixel of the copy is a pixel of the framebuffer, on the scan line of its glyph row. -/
def RowCopy.Inside (fb : Framebuffer) (c : RowCopy) : Prop :=
  ∀ i < c.masks.length, c.pixel_address+i < fb.dims.x*fb.dims.y ∧
    (c.pixel_address+i)/fb.dims.x = c.offset.y+c.y

/-- The place leaves room for a glyph, if glyphs have rows at all. -/
def Fits (fb : Framebuffer) (style : FontStyle) (p : Vec2us) : Prop :=
  style.GlyphHeight = 0 ∨ (p.x+8 ≤ fb.dims.x ∧ p.y+style.GlyphHeight ≤ fb.dims.y)

section Inside

variable {fb : Framebuffer} {style : FontStyle} {color backColor : ℕ} {next : Vec2us → Vec2us}

/-- The copies of the first `h` rows of a glyph, each one scan line below the last. -/
def rowCopies (fb : Framebuffer) (style : FontStyle) (color backColor : ℕ) (offset : Vec2us)
    (p g h : ℕ) : List RowCopy :=
  (List.range h).map (fun y => ⟨offset, y, p+y*fb.dims.x,
    (List.range 8).map (mask color backColor (style.GlyphBitmaps (g+y)))⟩)

theorem rowCopies_succ (offset : Vec2us) (p g h : ℕ) :
    rowCopies fb style color backColor offset p g (h+1) =
      rowCopies fb style color backColor offset p g h++[⟨offset, h, p+h*fb.dims.x,
        (List.range 8).map (mask color backColor (style.GlyphBitmaps (g+h)))⟩] := by
  rw [rowCopies, @List.range_succ h, List.map_append]
  rfl

theorem drawRows_eq (offset : Vec2us) (p g h : ℕ) (s : Screen) : ∃ pixels,
    (List.range h).foldl (fun pen y => drawByte fb style color backColor offset y pen) ⟨p, g, s⟩ =
      ⟨p+h*fb.dims.x, g+h,
        ⟨pixels, s.copies++rowCopies fb style color backColor offset p g h⟩⟩ := by
  induction h with
  | zero => exact ⟨s.pixels, by simp [rowCopies]⟩
  | succ h ih =>
    obtain ⟨pixels, ih⟩ := ih
    have haddr : p+h*fb.dims.x+fb.dims.x = p+(h+1)*fb.dims.x := by ring
    refine ⟨(Screen.memcpy ⟨pixels, []⟩ ⟨offset, h, p+h*fb.dims.x,
      (List.range 8).map (mask color backColor (style.GlyphBitmaps (g+h)))⟩).pixels, ?_⟩
    rw [List.range_succ, List.foldl_append, ih, List.foldl_cons, List.foldl_nil, drawByte, haddr,
      Screen.memcpy, rowCopies_succ, ← List.append_assoc]
    rfl

theorem drawGlyph_copies (hw : style.GlyphBytesWidth = 1) (offset : Vec2us) (ch : ℕ) (s : Screen) :
    (drawGlyph fb style color backColor offset ch s).copies =
      s.copies++rowCopies fb style color backColor offset (fb.dims.x*offset.y+offset.x)
        (glyphIndex style ch) style.GlyphHeight := by
  obtain ⟨pixels, hrows⟩ := @drawRows_eq fb style color backColor offset
    (fb.dims.x*offset.y+offset.x) (glyphIndex style ch) style.GlyphHeight s
  rw [drawGlyph, drawLines, hw]
  exact congrArg (fun pen => pen.screen.copies) hrows

/-- The rows of a glyph are inside where the place leaves room for it. -/
theorem rowCopies_inside (offset : Vec2us) (g : ℕ) :
    (∀ c ∈ rowCopies fb style color backColor offset (fb.dims.x*offset.y+offset.x) g
      style.GlyphHeight, c.Inside fb) ↔ Fits fb style offset := by
  simp only [rowCopies, List.forall_mem_map, List.mem_range, RowCopy.Inside, List.length_map,
    List.length_range]
  have haddr : ∀ y i, fb.dims.x*offset.y+offset.x+y*fb.dims.x+i =
      fb.dims.x*(offset.y+y)+(offset.x+i) := fun y i => by ring
  simp only [haddr]
  constructor
  · intro h
    by_cases hz : style.GlyphHeight = 0
    · exact Or.inl hz
    · obtain ⟨hlt, hrow⟩ := h (style.GlyphHeight-1) (by omega) 7 (by decide)
      have hx : 0 < fb.dims.x := Nat.pos_of_mul_pos_right (Nat.zero_lt_of_lt hlt)
      rw [Nat.mul_add_div hx, Nat.add_eq_left, Nat.div_eq_zero_iff_lt hx] at hrow
      have hy : offset.y+(style.GlyphHeight-1) < fb.dims.y := by
        by_contra hge
        have := Nat.mul_le_mul_left fb.dims.x (Nat.le_of_not_lt hge)
        omega
      exact Or.inr ⟨by omega, by omega⟩
  · rintro (hz | ⟨hx, hy⟩) y hlt i hi
    · omega
    · have hrow : offset.y+y+1 ≤ fb.dims.y := by omega
      have hle := Nat.mul_le_mul_left fb.dims.x hrow
      rw [Nat.mul_add, Nat.mul_one] at hle
      refine ⟨by omega, ?_⟩
      rw [Nat.mul_add_div (by omega), Nat.div_eq_of_lt (by omega), Nat.add_zero]

/-- A text stays inside where every place its cursor visits leaves room for a glyph. -/
theorem drawText_inside (hw : style.GlyphBytesWidth = 1) (str : List ℕ) (offset : Vec2us)
    (s : Screen) :
    (∀ c ∈ (drawText fb style color backColor next str offset s).2.copies, c.Inside fb) ↔
      (∀ c ∈ s.copies, c.Inside fb) ∧ ∀ m < str.length, Fits fb style (next^[m] offset) := by
  induction str generalizing offset s with
  | nil => simp [drawText]
  | cons ch str ih =>
    rw [drawText, ih, drawGlyph_copies hw, List.forall_mem_append, rowCopies_inside,
      List.length_cons, Nat.forall_lt_succ_left, and_assoc]
    rfl

end Inside

end BruhOS.Gpcs2
