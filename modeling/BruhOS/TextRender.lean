import BruhOS.TextLayout

/-!
# The three text renderers

A text stays inside the framebuffer where the columns and rows of its lines
have room for a glyph; the right and bottom edges of the area are compared
with the cursor alone, so the last line and the last column need not have
it. Strings go back to the first line at the bottom edge, single characters
do not.
-/

set_option autoImplicit false

namespace BruhOS.Gpcs2

open BruhOS.Restart

/-- The conditions that the functions do not check. -/
structure Documented (fb : Framebuffer) (style : FontStyle) (startoff offset maxoff : Vec2us) :
    Prop where
  columns : startoff.x ≤ offset.x ∧ offset.x ≤ maxoff.x ∧ maxoff.x ≤ fb.dims.x
  rows : startoff.y ≤ offset.y ∧ offset.y ≤ maxoff.y ∧ maxoff.y ≤ fb.dims.y
  room : offset.x+8 ≤ fb.dims.x ∧ offset.y+style.GlyphHeight ≤ fb.dims.y

/-- The characters of the font, which starts at the blank. -/
def Printable (str : List ℕ) : Prop := ∀ c ∈ str, 32 ≤ c ∧ c < 127

instance (str : List ℕ) : Decidable (Printable str) :=
  inferInstanceAs (Decidable (∀ c ∈ str, 32 ≤ c ∧ c < 127))

section Render

variable (fb : Framebuffer) (style : FontStyle) (startoff offset maxoff : Vec2us)
  (color backColor : ℕ) (str : List ℕ)

/-- Every pixel that the renderers write for a text is inside the framebuffer and on the scan line
of its glyph row. -/
structure TextInside (pixels : ℕ → ℕ) : Prop where
  string : ∀ c ∈ (framebufferWriteStringBmFontRGB fb style startoff offset maxoff color backColor
    (some str) ⟨pixels, []⟩).2.copies, c.Inside fb
  substrings : ∀ start stop, start ≤ stop → stop ≤ str.length → stop < 2^32 → ∃ written,
    framebufferWriteSubStringBmFontRGB fb style startoff offset maxoff color backColor (some str)
      start stop ⟨pixels, []⟩ = some written ∧ ∀ c ∈ written.2.copies, c.Inside fb
  chars : ∀ c ∈ (writeChars fb style startoff maxoff color backColor str offset
    ⟨pixels, []⟩).2.copies, c.Inside fb

/-- The renderers end with one cursor and one screen, as do consecutive parts of the text. -/
structure TextAgrees (s : Screen) : Prop where
  substring : framebufferWriteSubStringBmFontRGB fb style startoff offset maxoff color backColor
    (some str) 0 str.length s = some (framebufferWriteStringBmFontRGB fb style startoff offset
      maxoff color backColor (some str) s)
  chars : (writeChars fb style startoff maxoff color backColor str offset s).1 =
      (framebufferWriteStringBmFontRGB fb style startoff offset maxoff color backColor
        (some str) s).1 ∧
    (writeChars fb style startoff maxoff color backColor str offset s).2.pixels =
      (framebufferWriteStringBmFontRGB fb style startoff offset maxoff color backColor
        (some str) s).2.pixels
  parts : ∀ cuts : List ℕ, (0::cuts).IsChain (· ≤ ·) → (0::cuts).getLast? = some str.length →
    writeSubStrings fb style startoff maxoff color backColor str cuts 0 offset s =
      some (framebufferWriteStringBmFontRGB fb style startoff offset maxoff color backColor
        (some str) s)

/-- None of the first `n` characters is moved by the test for the bottom edge: the rows before it
are above the edge, or the cursor is at the start of the area already. -/
structure BottomUnused (n : ℕ) : Prop where
  firstLine : 0 < n → OnLine style startoff maxoff offset.x 1 → offset.y < maxoff.y
  laterLines : ∀ c d j, FillsLine style startoff maxoff offset.x c →
    FillsLine style startoff maxoff startoff.x d → c+j*d ≤ n →
      (offset.y+(j+1)*style.stepY) % 2^16 < maxoff.y ∨
        ((offset.y+(j+1)*style.stepY) % 2^16 = startoff.y ∧ (d = 1 ∨ c+j*d = n))

end Render

section Inside

variable {fb : Framebuffer} {style : FontStyle} {startoff offset maxoff : Vec2us}
  {color backColor : ℕ} {str : List ℕ}

theorem printable_nonzero (h : Printable str) : ∀ c ∈ str, c ≠ 0 := by
  intro c hc
  have := h c hc
  omega

/-- The renderers keep a text inside exactly where the lines of its pages, and for single
characters all its lines, have room. -/
theorem textInside_iff (hw : style.GlyphBytesWidth = 1) (hprint : Printable str)
    (pixels : ℕ → ℕ) :
    TextInside fb style startoff offset maxoff color backColor str pixels ↔
      style.GlyphHeight = 0 ∨ (PagesFit fb style startoff maxoff offset str.length ∧
        LinesFit fb style startoff maxoff offset str.length) := by
  have hnul := printable_nonzero hprint
  have hall : TextInside fb style startoff offset maxoff color backColor str pixels ↔
      (∀ m < str.length, Fits fb style ((wrapped style startoff maxoff)^[m] offset)) ∧
        ∀ m < str.length, Fits fb style ((advance style startoff maxoff)^[m] offset) := by
    constructor
    · rintro ⟨hstring, -, hchars⟩
      rw [writeString_eq str hnul, drawText_inside hw] at hstring
      rw [writeChars_eq, drawText_inside hw] at hchars
      exact ⟨hstring.2, hchars.2⟩
    · rintro ⟨hstring, hchars⟩
      refine ⟨?_, ?_, ?_⟩
      · rw [writeString_eq str hnul, drawText_inside hw]
        exact ⟨by simp, hstring⟩
      · intro start stop hle hstop hlt
        refine ⟨_, writeSubString_eq str hle hstop hlt offset _, ?_⟩
        rw [drawText_inside hw]
        refine ⟨by simp, fun m hm => hstring m (hm.trans_le ?_)⟩
        rw [List.length_take, List.length_drop]
        omega
      · rw [writeChars_eq, drawText_inside hw]
        exact ⟨by simp, hchars⟩
  rw [hall]
  by_cases hz : style.GlyphHeight = 0
  · exact iff_of_true ⟨fun m _ => Or.inl hz, fun m _ => Or.inl hz⟩ (Or.inl hz)
  · rw [← pagesFit_iff hz, ← linesFit_iff hz, or_iff_right hz]

/-- A style of the size of the font, with blank glyphs. -/
def blankStyle : FontStyle := ⟨1, 14, fun _ => 0, by decide, by decide⟩

/-- The last row of characters of 800 by 600 pixels starts above the bottom edge and ends below. -/
theorem textInside_lastRow :
    Documented ⟨vec2us 800 600⟩ blankStyle (vec2us 0 0) (vec2us 790 576) (vec2us 800 600) ∧
    Printable [65, 66] ∧
    ¬ TextInside ⟨vec2us 800 600⟩ blankStyle (vec2us 0 0) (vec2us 790 576) (vec2us 800 600)
      0xFFFFFF 0 [65, 66] (fun _ => 0) := by
  have hprint : Printable [65, 66] := by decide
  refine ⟨⟨by decide, by decide, by decide⟩, hprint, ?_⟩
  intro h
  have hstring := h.string
  rw [writeString_eq _ (printable_nonzero hprint), drawText_inside rfl] at hstring
  have hroom := (hstring.2 1 (by decide)).resolve_left (by decide)
  exact absurd hroom (by decide)

theorem line_800 : FillsLine blankStyle (vec2us 0 0) (vec2us 800 600) 0 80 :=
  fillsLine_of (by decide) (by decide) (by decide) (Or.inr (by decide)) (by decide) (by decide)

theorem textInside_twoChars :
    TextInside ⟨vec2us 800 600⟩ blankStyle (vec2us 0 0) (vec2us 0 0) (vec2us 800 600)
      0xFFFFFF 0 [65, 66] (fun _ => 0) := by
  have hline : ∀ c, FillsLine blankStyle (vec2us 0 0) (vec2us 800 600) (vec2us 0 0).x c → c = 80 :=
    fun c hc => (lines blankStyle (vec2us 0 0) (vec2us 800 600)).fills_unique
      (a := vec2us 0 0) hc line_800
  have hlines : ∀ m ≤ 2, LinesFit ⟨vec2us 800 600⟩ blankStyle (vec2us 0 0) (vec2us 800 600)
      (vec2us 0 0) m := by
    intro m hm
    refine ⟨fun _ => by decide, ?_, ?_, ?_⟩
    · intro i hi _
      obtain rfl | rfl : i = 0 ∨ i = 1 := by omega
      · decide
      · decide
    · intro c hc i _ hi
      have := hline c hc
      omega
    · intro c d j hc _ hj
      have := hline c hc
      omega
  have hpage : AboveBottom blankStyle (vec2us 0 0) (vec2us 800 600) (vec2us 0 0) 2 := by
    constructor
    · intro _ _
      decide
    · intro c d j hc _ hj
      have := hline c hc
      omega
  refine (textInside_iff rfl (by decide) _).mpr (Or.inr ⟨⟨fun m hm _ => hlines m hm, ?_⟩,
    hlines 2 le_rfl⟩)
  intro c m hc hm _
  exact absurd ((pages blankStyle (vec2us 0 0) (vec2us 800 600)).open_of_le hpage
    (show c ≤ 2 by exact (Nat.le_add_right c m).trans hm)) hc.2

end Inside

section Agree

variable {fb : Framebuffer} {style : FontStyle} {startoff offset maxoff : Vec2us}
  {color backColor : ℕ} {str : List ℕ} {n : ℕ}

theorem bottomUnused_iff : BottomUnused style startoff offset maxoff n ↔ ∀ m, 0 < m → m ≤ n →
    wrapBottom startoff maxoff ((advance style startoff maxoff)^[m] offset) =
      (advance style startoff maxoff)^[m] offset := by
  obtain ⟨d, hd⟩ := @exists_fillsLine style startoff maxoff
  have hy : offset.y % 2^16 = offset.y := Nat.mod_eq_of_lt offset.y_lt
  have hsame : ∀ p : Vec2us, wrapBottom startoff maxoff p = p ↔ p.y < maxoff.y ∨ startoff = p := by
    intro p
    rw [wrapBottom, ite_eq_right_iff, or_iff_not_imp_left, Nat.not_lt]
  constructor
  · intro h m h0 hm
    rw [hsame]
    rcases place_cases hd offset m with hopen | ⟨c, j, i, hc, hi, rfl⟩
    · rw [place_first hopen]
      left
      show offset.y % 2^16 < maxoff.y
      rw [hy]
      exact h.firstLine (by omega) (onLine_of_le hopen h0)
    · rw [place_later hc hd hi]
      rcases h.laterLines c d j hc hd (by omega) with hrow | ⟨hrow, hlast⟩
      · exact Or.inl hrow
      · obtain rfl : i = 0 := by omega
        right
        ext
        · rw [Nat.zero_mul, Nat.add_zero]
          exact (Nat.mod_eq_of_lt startoff.x_lt).symm
        · exact hrow.symm
  · intro h
    constructor
    · intro hn hopen
      have hrow := (hsame _).mp (h 1 (by decide) hn)
      rw [place_first hopen] at hrow
      rcases hrow with hrow | hrow
      · exact hy.symm.trans_lt hrow
      · exact absurd (congrArg Vec2us.x hrow).symm (hopen 1 (by decide) le_rfl).2
    · intro c d' j hc hd' hj
      have hpos := (lines style startoff maxoff).fills_pos hc
      have hpos' := (lines style startoff maxoff).fills_pos (a := startoff) hd'
      have hplace := fun i (hi : i < d') => place_later hc hd' hi j
      have hrow := (hsame _).mp (h (c+j*d'+0) (by omega) hj)
      rw [hplace 0 hpos'] at hrow
      rcases hrow with hrow | hrow
      · exact Or.inl hrow
      · by_cases hmore : d' = 1 ∨ c+j*d' = n
        · exact Or.inr ⟨(congrArg Vec2us.y hrow).symm, hmore⟩
        · have hopen : OnLine style startoff maxoff startoff.x 1 :=
            (onLine_iff_lt hd').mpr (by omega)
          have hnext := (hsame _).mp (h (c+j*d'+1) (by omega) (by omega))
          rw [hplace 1 (by omega)] at hnext
          rcases hnext with hnext | hnext
          · exact Or.inl hnext
          · exact absurd (congrArg Vec2us.x hnext).symm (hopen 1 (by decide) le_rfl).2

theorem cursors_agree_iff : (∀ m ≤ n, (wrapped style startoff maxoff)^[m] offset =
      (advance style startoff maxoff)^[m] offset) ↔ ∀ m, 0 < m → m ≤ n →
    wrapBottom startoff maxoff ((advance style startoff maxoff)^[m] offset) =
      (advance style startoff maxoff)^[m] offset := by
  constructor
  · intro h m h0 hm
    obtain ⟨m, rfl⟩ : ∃ k, m = k+1 := ⟨m-1, by omega⟩
    have hstep := h (m+1) hm
    rw [Function.iterate_succ_apply', h m (by omega), wrapped,
      ← Function.iterate_succ_apply' (advance style startoff maxoff)] at hstep
    exact hstep
  · intro h m hm
    induction m with
    | zero => rfl
    | succ m ih =>
      rw [Function.iterate_succ_apply', ih (by omega), wrapped,
        ← Function.iterate_succ_apply' (advance style startoff maxoff)]
      exact h (m+1) (Nat.succ_pos m) hm

/-- A text and all its beginnings are drawn alike exactly where the test for the bottom edge moves
none of its characters. -/
theorem textAgrees_iff (hprint : Printable str) (hlen : str.length < 2^32) (s : Screen) :
    (∀ k ≤ str.length, TextAgrees fb style startoff offset maxoff color backColor (str.take k) s) ↔
      BottomUnused style startoff offset maxoff str.length := by
  have hnul := printable_nonzero hprint
  rw [bottomUnused_iff, ← cursors_agree_iff]
  constructor
  · intro h m hm
    have hcursor := (h m hm).chars.1
    rw [writeChars_eq, drawText_offset, writeString_eq _ (fun c hc => hnul c (List.mem_of_mem_take hc)),
      drawText_offset, List.length_take_of_le hm] at hcursor
    exact hcursor.symm
  · intro h k hk
    have hstring := @writeString_eq fb style startoff maxoff color backColor (str.take k)
      (fun c hc => hnul c (List.mem_of_mem_take hc)) offset s
    have hchars : writeChars fb style startoff maxoff color backColor (str.take k) offset s =
        framebufferWriteStringBmFontRGB fb style startoff offset maxoff color backColor
          (some (str.take k)) s := by
      rw [writeChars_eq, hstring]
      refine (drawText_congr _ _ _ fun m hm => h m ?_).symm
      rw [List.length_take_of_le hk] at hm
      exact hm.trans hk
    have hlt : (str.take k).length < 2^32 := by
      rw [List.length_take_of_le hk]
      exact hk.trans_lt hlen
    refine ⟨?_, ⟨congrArg Prod.fst hchars, congrArg (fun w => w.2.pixels) hchars⟩, ?_⟩
    · rw [writeSubString_eq _ (Nat.zero_le _) le_rfl hlt, hstring, List.drop_zero, Nat.sub_zero,
        List.take_length]
    · intro cuts hcuts hend
      rw [writeSubStrings_eq _ cuts 0 _ le_rfl hlt hcuts hend, hstring, List.drop_zero, Nat.sub_zero,
        List.take_length]

/-- One character in the last corner of 800 by 600 pixels: the string goes back to the start, the
single character leaves the screen. -/
theorem textAgrees_lastChar :
    Documented ⟨vec2us 800 600⟩ blankStyle (vec2us 0 0) (vec2us 790 584) (vec2us 800 600) ∧
    Printable [65] ∧
    ¬ TextAgrees ⟨vec2us 800 600⟩ blankStyle (vec2us 0 0) (vec2us 790 584) (vec2us 800 600)
      0xFFFFFF 0 [65] ⟨fun _ => 0, []⟩ := by
  have hprint : Printable [65] := by decide
  refine ⟨⟨by decide, by decide, by decide⟩, hprint, ?_⟩
  intro h
  have hcursor := h.chars.1
  rw [writeChars_eq, drawText_offset, writeString_eq _ (printable_nonzero hprint),
    drawText_offset] at hcursor
  exact absurd hcursor (by decide)

theorem textAgrees_twoChars : TextAgrees ⟨vec2us 800 600⟩ blankStyle (vec2us 0 0) (vec2us 0 0)
    (vec2us 800 600) 0xFFFFFF 0 [65, 66] ⟨fun _ => 0, []⟩ := by
  have hprint : Printable [65, 66] := by decide
  have hunused : BottomUnused blankStyle (vec2us 0 0) (vec2us 0 0) (vec2us 800 600) 2 := by
    refine ⟨fun _ _ => by decide, ?_⟩
    intro c d j hc _ hj
    have := (lines blankStyle (vec2us 0 0) (vec2us 800 600)).fills_unique (a := vec2us 0 0) hc
      line_800
    omega
  exact (textAgrees_iff hprint (by decide) _).mpr hunused 2 le_rfl

end Agree

end BruhOS.Gpcs2
