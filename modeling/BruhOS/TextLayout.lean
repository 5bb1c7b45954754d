import BruhOS.RestartWalk
import BruhOS.TextBlit

/-!
# Lines and pages of the text cursor

A line is a path of equal steps to the right that closes where the column,
in 16 bits, reaches the right edge of the area or its first column again. A
page is a path of lines that closes where a row reaches the bottom edge.
Both restart, so the place of every character of a text is read off the
lengths of the lines and pages before it.
-/

set_option autoImplicit false

namespace BruhOS.Gpcs2

open BruhOS.Restart

/-- The columns that a character moves the cursor by. -/
def FontStyle.stepX (style : FontStyle) : ℕ := style.GlyphBytesWidth*8+charOffsetX

/-- The rows between two lines. -/
def FontStyle.stepY (style : FontStyle) : ℕ := style.GlyphHeight+charOffsetY

section Lines

variable (style : FontStyle) (startoff maxoff : Vec2us)

/-- The line that starts in column `a` goes on for `m` characters. -/
def OnLine (a m : ℕ) : Prop :=
  ∀ i, 0 < i → i ≤ m → (a+i*style.stepX) % 2^16 < maxoff.x ∧
    (a+i*style.stepX) % 2^16 ≠ startoff.x

/-- `c` characters fill the line that starts in column `a`. -/
def FillsLine (a c : ℕ) : Prop :=
  OnLine style startoff maxoff a (c-1) ∧ ¬ OnLine style startoff maxoff a c

variable {style startoff maxoff}

theorem vec2us_self (p : Vec2us) : vec2us p.x p.y = p := by
  ext
  · exact Nat.mod_eq_of_lt p.x_lt
  · exact Nat.mod_eq_of_lt p.y_lt

theorem vec2us_mod (x y : ℕ) : vec2us (x % 2^16) y = vec2us x y := by
  ext
  · exact Nat.mod_mod x (2^16)
  · rfl

/-- A character moves the cursor to the right, or to the first column of the next line. -/
theorem advance_eq (p : Vec2us) : advance style startoff maxoff p =
    if (p.x+style.stepX) % 2^16 < maxoff.x ∧ (p.x+style.stepX) % 2^16 ≠ startoff.x then
      vec2us (p.x+style.stepX) p.y
    else vec2us startoff.x (p.y+style.stepY) := by
  rw [advance, ← FontStyle.stepX, ← FontStyle.stepY]
  rw [← vec2us_mod (p.x+style.stepX)]
  have hstart := startoff.x_lt
  have hlt : (p.x+style.stepX) % 2^16 < 2^16 := Nat.mod_lt _ (by decide)
  generalize (p.x+style.stepX) % 2^16 = x at hlt ⊢
  by_cases hx : x < maxoff.x
  · have hcol : (x*flag (x < maxoff.x)+startoff.x*flag (maxoff.x ≤ x)) % 2^16 = x := by
      rw [flag, flag, if_pos hx, if_neg (by omega), Nat.mul_one, Nat.mul_zero, Nat.add_zero]
      exact Nat.mod_eq_of_lt hlt
    rw [hcol]
    by_cases hs : x = startoff.x
    · rw [if_neg (fun h => h.2 hs), flag, if_pos hs, Nat.mul_one, hs]
    · rw [if_pos ⟨hx, hs⟩, flag, if_neg hs, Nat.mul_zero, Nat.add_zero]
  · have hcol : (x*flag (x < maxoff.x)+startoff.x*flag (maxoff.x ≤ x)) % 2^16 = startoff.x := by
      rw [flag, flag, if_neg hx, if_pos (by omega), Nat.mul_one, Nat.mul_zero, Nat.zero_add]
      exact Nat.mod_eq_of_lt hstart
    rw [hcol, if_neg (fun h => hx h.1), flag, if_pos rfl, Nat.mul_one]

theorem advance_vec2us (x y : ℕ) : advance style startoff maxoff (vec2us x y) =
    if (x+style.stepX) % 2^16 < maxoff.x ∧ (x+style.stepX) % 2^16 ≠ startoff.x then
      vec2us (x+style.stepX) y
    else vec2us startoff.x (y+style.stepY) := by
  have hx : (x % 2^16+style.stepX) % 2^16 = (x+style.stepX) % 2^16 := Nat.mod_add_mod _ _ _
  have hy : (y % 2^16+style.stepY) % 2^16 = (y+style.stepY) % 2^16 := Nat.mod_add_mod _ _ _
  have hcol : vec2us (x % 2^16+style.stepX) (y % 2^16) = vec2us (x+style.stepX) y :=
    Vec2us.ext hx (Nat.mod_mod _ _)
  have hrow : vec2us startoff.x (y % 2^16+style.stepY) = vec2us startoff.x (y+style.stepY) :=
    Vec2us.ext rfl hy
  rw [advance_eq]
  show (if (x % 2^16+style.stepX) % 2^16 < maxoff.x ∧
      (x % 2^16+style.stepX) % 2^16 ≠ startoff.x then
    vec2us (x % 2^16+style.stepX) (y % 2^16)
    else vec2us startoff.x (y % 2^16+style.stepY)) = _
  rw [hx, hcol, hrow]

variable (style startoff maxoff) in
/-- The cursor of single characters as a walk along the lines. -/
def lines : Walk Vec2us where
  next := advance style startoff maxoff
  path p m := vec2us (p.x+m*style.stepX) p.y
  Open p m := OnLine style startoff maxoff p.x m
  restart p := vec2us startoff.x (p.y+style.stepY)
  path_zero p := by rw [Nat.zero_mul, Nat.add_zero, vec2us_self]
  open_zero p i h0 h := absurd h (by omega)
  open_of_succ p m h i h0 hi := h i h0 (by omega)
  next_open p m h := by
    have hstep : p.x+m*style.stepX+style.stepX = p.x+(m+1)*style.stepX := by ring
    rw [advance_vec2us, hstep, if_pos (h (m+1) (Nat.succ_pos m) le_rfl)]
  next_closed p m h hc := by
    have hstep : p.x+m*style.stepX+style.stepX = p.x+(m+1)*style.stepX := by ring
    rw [advance_vec2us, hstep, if_neg]
    intro hcol
    apply hc
    intro i h0 hi
    rcases Nat.lt_or_eq_of_le hi with hlt | rfl
    · exact h i h0 (by omega)
    · exact hcol

/-- Some number of characters fills a line that starts in the first column. -/
theorem exists_fillsLine : ∃ d, FillsLine style startoff maxoff startoff.x d := by
  rcases (lines style startoff maxoff).open_or_fills startoff (2^16) with h | ⟨d, -, hd, -⟩
  · have hback : (startoff.x+2^16*style.stepX) % 2^16 = startoff.x := by
      rw [Nat.add_mul_mod_self_left, Nat.mod_eq_of_lt startoff.x_lt]
    exact absurd hback (h (2^16) (by decide) le_rfl).2
  · exact ⟨d, hd⟩

theorem restart_fills {d : ℕ} (hd : FillsLine style startoff maxoff startoff.x d) (p : Vec2us) :
    (lines style startoff maxoff).Fills ((lines style startoff maxoff).restart p) d := by
  have hx : (vec2us startoff.x (p.y+style.stepY)).x = startoff.x := Nat.mod_eq_of_lt startoff.x_lt
  show FillsLine style startoff maxoff (vec2us startoff.x (p.y+style.stepY)).x d
  rwa [hx]

theorem restart_iterate (p : Vec2us) (j : ℕ) :
    (lines style startoff maxoff).restart^[j+1] p =
      vec2us startoff.x (p.y+(j+1)*style.stepY) := by
  induction j with
  | zero => rw [Nat.zero_add, Nat.one_mul]; rfl
  | succ j ih =>
    have hstep : p.y+(j+1)*style.stepY+style.stepY = p.y+(j+1+1)*style.stepY := by ring
    rw [Function.iterate_succ_apply', ih, ← hstep]
    ext
    · rfl
    · exact Nat.mod_add_mod _ _ _

/-- The place behind `m` characters of the first line. -/
theorem place_first {p : Vec2us} {m : ℕ} (h : OnLine style startoff maxoff p.x m) :
    (advance style startoff maxoff)^[m] p = vec2us (p.x+m*style.stepX) p.y :=
  (lines style startoff maxoff).iterate_open h

/-- The place behind `i` characters of a later line. -/
theorem place_later {p : Vec2us} {c d i : ℕ} (hc : FillsLine style startoff maxoff p.x c)
    (hd : FillsLine style startoff maxoff startoff.x d) (hi : i < d) (j : ℕ) :
    (advance style startoff maxoff)^[c+j*d+i] p =
      vec2us (startoff.x+i*style.stepX) (p.y+(j+1)*style.stepY) := by
  have hline := (lines style startoff maxoff).iterate_segments hc (restart_fills hd) j
  have hx : (vec2us startoff.x (p.y+(j+1)*style.stepY)).x = startoff.x :=
    Nat.mod_eq_of_lt startoff.x_lt
  have hopen : OnLine style startoff maxoff (vec2us startoff.x (p.y+(j+1)*style.stepY)).x i := by
    rw [hx]
    exact (lines style startoff maxoff).open_iff_lt (a := startoff) hd |>.mpr hi
  rw [restart_iterate] at hline
  rw [Nat.add_comm, Function.iterate_add_apply]
  refine (congrArg _ hline).trans ((place_first hopen).trans ?_)
  rw [hx]
  exact Vec2us.ext rfl (Nat.mod_mod _ _)

/-- Every place is on the first line or on a later one. -/
theorem place_cases {d : ℕ} (hd : FillsLine style startoff maxoff startoff.x d) (p : Vec2us)
    (m : ℕ) : OnLine style startoff maxoff p.x m ∨
      ∃ c j i, FillsLine style startoff maxoff p.x c ∧ i < d ∧ m = c+j*d+i :=
  (lines style startoff maxoff).segment_cases (restart_fills hd) p m

theorem onLine_of_le {a m n : ℕ} (h : OnLine style startoff maxoff a n) (hm : m ≤ n) :
    OnLine style startoff maxoff a m := fun i h0 hi => h i h0 (hi.trans hm)

theorem onLine_iff_lt {d i : ℕ} (hd : FillsLine style startoff maxoff startoff.x d) :
    OnLine style startoff maxoff startoff.x i ↔ i < d :=
  (lines style startoff maxoff).open_iff_lt (a := startoff) hd

/-- Without overflow a line takes the characters that start before the right edge. -/
theorem fillsLine_of {a c : ℕ} (hstart : startoff.x ≤ a) (hstep : 0 < style.stepX) (hc : 0 < c)
    (hlast : c = 1 ∨ a+(c-1)*style.stepX < maxoff.x) (hedge : maxoff.x ≤ a+c*style.stepX)
    (hlt : a+c*style.stepX < 2^16) : FillsLine style startoff maxoff a c := by
  constructor
  · intro i h0 hi
    have hle : i*style.stepX ≤ (c-1)*style.stepX := Nat.mul_le_mul_right _ hi
    have hpos : style.stepX ≤ i*style.stepX := Nat.le_mul_of_pos_left _ h0
    have hless : (c-1)*style.stepX ≤ c*style.stepX := Nat.mul_le_mul_right _ (Nat.sub_le c 1)
    rw [Nat.mod_eq_of_lt (by omega)]
    omega
  · intro h
    have hend := (h c hc le_rfl).1
    rw [Nat.mod_eq_of_lt hlt] at hend
    omega

end Lines

section Places

variable (fb : Framebuffer) (style : FontStyle) (startoff maxoff : Vec2us)

/-- `n` characters from the place `p` on, on as many lines as they need, all have room: in the
columns of the first line, in the columns of the later lines, and in the rows of the lines. -/
structure LinesFit (p : Vec2us) (n : ℕ) : Prop where
  start : 0 < n → p.y+style.GlyphHeight ≤ fb.dims.y
  firstLine : ∀ i < n, OnLine style startoff maxoff p.x i →
    (p.x+i*style.stepX) % 2^16+8 ≤ fb.dims.x
  laterLines : ∀ c, FillsLine style startoff maxoff p.x c → ∀ i,
    OnLine style startoff maxoff startoff.x i → c+i < n →
      (startoff.x+i*style.stepX) % 2^16+8 ≤ fb.dims.x
  rows : ∀ c d j, FillsLine style startoff maxoff p.x c →
    FillsLine style startoff maxoff startoff.x d → c+j*d < n →
      (p.y+(j+1)*style.stepY) % 2^16+style.GlyphHeight ≤ fb.dims.y

/-- None of the first `n` characters moves the cursor to the bottom edge of the area. -/
structure AboveBottom (p : Vec2us) (n : ℕ) : Prop where
  firstLine : 0 < n → OnLine style startoff maxoff p.x 1 → p.y < maxoff.y
  laterLines : ∀ c d j, FillsLine style startoff maxoff p.x c →
    FillsLine style startoff maxoff startoff.x d → c+j*d ≤ n →
      (p.y+(j+1)*style.stepY) % 2^16 < maxoff.y

/-- `c` characters fill the page from the place `p` on. -/
def FillsPage (p : Vec2us) (c : ℕ) : Prop :=
  AboveBottom style startoff maxoff p (c-1) ∧ ¬ AboveBottom style startoff maxoff p c

/-- `n` characters from the place `p` on, on as many pages as they need, all have room. -/
structure PagesFit (p : Vec2us) (n : ℕ) : Prop where
  firstPage : ∀ m ≤ n, AboveBottom style startoff maxoff p (m-1) →
    LinesFit fb style startoff maxoff p m
  laterPages : ∀ c m, FillsPage style startoff maxoff p c → c+m ≤ n →
    AboveBottom style startoff maxoff startoff (m-1) →
      LinesFit fb style startoff maxoff startoff m

variable {fb style startoff maxoff} {p : Vec2us} {n : ℕ}

theorem linesFit_iff (hz : style.GlyphHeight ≠ 0) :
    LinesFit fb style startoff maxoff p n ↔
      ∀ m < n, Fits fb style ((advance style startoff maxoff)^[m] p) := by
  obtain ⟨d, hd⟩ := @exists_fillsLine style startoff maxoff
  have hy : p.y % 2^16 = p.y := Nat.mod_eq_of_lt p.y_lt
  constructor
  · intro h m hm
    rcases place_cases hd p m with hopen | ⟨c, j, i, hc, hi, rfl⟩
    · rw [place_first hopen]
      refine Or.inr ⟨h.firstLine m hm hopen, ?_⟩
      show p.y % 2^16+style.GlyphHeight ≤ fb.dims.y
      rw [hy]
      exact h.start (Nat.zero_lt_of_lt hm)
    · rw [place_later hc hd hi]
      exact Or.inr ⟨h.laterLines c hc i ((onLine_iff_lt hd).mpr hi) (by omega),
        h.rows c d j hc hd (by omega)⟩
  · intro h
    refine ⟨?_, ?_, ?_, ?_⟩
    · intro hn
      exact ((h 0 hn).resolve_left hz).2
    · intro i hi hopen
      have hfits := (h i hi).resolve_left hz
      rw [place_first hopen] at hfits
      exact hfits.1
    · intro c hc i hopen hi
      have hplace := place_later hc hd ((onLine_iff_lt hd).mp hopen) 0
      rw [Nat.zero_mul, Nat.add_zero] at hplace
      have hfits := (h (c+i) hi).resolve_left hz
      rw [hplace] at hfits
      exact hfits.1
    · intro c d' j hc hd' hj
      have hplace := place_later hc hd' ((lines style startoff maxoff).fills_pos (a := startoff) hd') j
      have hfits := (h (c+j*d') hj).resolve_left hz
      rw [Nat.add_zero] at hplace
      rw [hplace] at hfits
      exact hfits.2

theorem aboveBottom_iff : AboveBottom style startoff maxoff p n ↔
    ∀ m, 0 < m → m ≤ n → ((advance style startoff maxoff)^[m] p).y < maxoff.y := by
  obtain ⟨d, hd⟩ := @exists_fillsLine style startoff maxoff
  have hy : p.y % 2^16 = p.y := Nat.mod_eq_of_lt p.y_lt
  constructor
  · intro h m h0 hm
    rcases place_cases hd p m with hopen | ⟨c, j, i, hc, hi, rfl⟩
    · rw [place_first hopen]
      show p.y % 2^16 < maxoff.y
      rw [hy]
      exact h.firstLine (by omega) (onLine_of_le hopen h0)
    · rw [place_later hc hd hi]
      exact h.laterLines c d j hc hd (by omega)
  · intro h
    constructor
    · intro hn hopen
      have hrow := h 1 (by decide) hn
      rw [place_first hopen] at hrow
      exact hy.symm.trans_lt hrow
    · intro c d' j hc hd' hj
      have hplace := place_later hc hd' ((lines style startoff maxoff).fills_pos (a := startoff) hd') j
      have hpos := (lines style startoff maxoff).fills_pos hc
      have hrow := h (c+j*d') (by omega) hj
      rw [Nat.add_zero] at hplace
      rw [hplace] at hrow
      exact hrow

variable (style startoff maxoff) in
/-- The cursor of strings as a walk along the pages. -/
def pages : Walk Vec2us where
  next := wrapped style startoff maxoff
  path p m := (advance style startoff maxoff)^[m] p
  Open p m := AboveBottom style startoff maxoff p m
  restart _ := startoff
  path_zero p := rfl
  open_zero p := aboveBottom_iff.mpr (fun m h0 hm => absurd h0 (by omega))
  open_of_succ p m h := aboveBottom_iff.mpr (fun i h0 hi => aboveBottom_iff.mp h i h0 (by omega))
  next_open p m h := by
    have hrow := aboveBottom_iff.mp h (m+1) (Nat.succ_pos m) le_rfl
    rw [Function.iterate_succ_apply'] at hrow ⊢
    exact if_neg (by omega)
  next_closed p m h hc := by
    have hrow : maxoff.y ≤ ((advance style startoff maxoff)^[m+1] p).y := by
      by_contra hlt
      apply hc
      rw [aboveBottom_iff] at h ⊢
      intro i h0 hi
      rcases Nat.lt_or_eq_of_le hi with hless | rfl
      · exact h i h0 (by omega)
      · omega
    rw [Function.iterate_succ_apply'] at hrow
    exact if_pos hrow

theorem pagesFit_iff (hz : style.GlyphHeight ≠ 0) :
    PagesFit fb style startoff maxoff p n ↔
      ∀ m < n, Fits fb style ((wrapped style startoff maxoff)^[m] p) := by
  have hopen : ∀ q m, AboveBottom style startoff maxoff q m →
      (wrapped style startoff maxoff)^[m] q = (advance style startoff maxoff)^[m] q :=
    fun q m h => (pages style startoff maxoff).iterate_open h
  constructor
  · intro h m hm
    rcases (pages style startoff maxoff).open_or_fills p m with ho | ⟨c, r, hc, rfl⟩
    · rw [hopen p m ho]
      exact (linesFit_iff hz).mp (h.firstPage (m+1) hm ho) m (Nat.lt_succ_self m)
    · obtain ⟨r', hle, ho, hr⟩ := (pages style startoff maxoff).iterate_shared (a := startoff) rfl r
      have hplace := ((pages style startoff maxoff).iterate_after hc r).trans hr
      refine (congrArg (Fits fb style) hplace).mpr ?_
      exact (linesFit_iff hz).mp (h.laterPages c (r'+1) hc (by omega) ho) r' (Nat.lt_succ_self r')
  · intro h
    constructor
    · intro m hm ho
      rw [linesFit_iff hz]
      intro i hi
      rw [← hopen p i ((pages style startoff maxoff).open_of_le ho (by omega))]
      exact h i (by omega)
    · intro c m hc hm ho
      rw [linesFit_iff hz]
      intro i hi
      have hplace := (pages style startoff maxoff).iterate_after hc i
      rw [← hopen startoff i ((pages style startoff maxoff).open_of_le ho (by omega))]
      exact (congrArg (Fits fb style) hplace).mp (h (c+i) (by omega))

end Places

end BruhOS.Gpcs2
