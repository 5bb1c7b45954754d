import BruhOS.BootExhaust

/-!
# The choice of the video mode

The bootloader asks the firmware for its video modes in turn until one has
the requested resolution. The loop steps its index once more behind the mode
that ended it, so the index that is set is one past the mode that was found.
-/

set_option autoImplicit false

namespace BruhOS.Boot

structure VideoMode where
  HorizontalResolution : ℕ
  VerticalResolution : ℕ
  deriving DecidableEq

/-- The graphics output of the firmware: its modes, of which one is always set. -/
structure Gop where
  modes : List VideoMode
  Mode : ℕ
  FrameBufferBase : ℕ
  mode_lt : Mode < modes.length

def Gop.MaxMode (gop : Gop) : ℕ := gop.modes.length

/-- The information on a mode, refused behind the last. -/
def QueryMode (gop : Gop) (i : ℕ) : Option VideoMode := gop.modes[i]?

/-- The firmware and the arguments of the calls of `SetMode`. -/
structure VideoState where
  gop : Gop
  setModes : List ℕ

/-- A call of `SetMode`; a mode behind the last is refused and changes nothing. -/
def SetMode (i : ℕ) (s : VideoState) : VideoState × Bool :=
  if h : i < s.gop.modes.length then
    (⟨{ s.gop with Mode := i, mode_lt := h }, s.setModes++[i]⟩, true)
  else (⟨s.gop, s.setModes++[i]⟩, false)

def hasResolution (width height : ℕ) (mode : VideoMode) : Bool :=
  mode.HorizontalResolution == width && mode.VerticalResolution == height

/-- The loop over the modes, with `n` rounds left; `none` is a call of `errexit`. -/
def searchModes (gop : Gop) (width height : ℕ) : ℕ → ℕ → Bool → Option (ℕ × Bool)
  | 0, i, found_mode => some (i, found_mode)
  | n+1, i, found_mode =>
    if found_mode then some (i, found_mode)
    else do
      let gop_mode ← QueryMode gop i
      searchModes gop width height n (i+1) (hasResolution width height gop_mode)

/-- The framebuffer of the mode that is set. -/
def Gop.framebuffer (gop : Gop) : Framebuffer :=
  let info := gop.modes.get ⟨gop.Mode, gop.mode_lt⟩
  ⟨gop.FrameBufferBase, info.HorizontalResolution % 2^16, info.VerticalResolution % 2^16⟩

/-- `none` is a call of `errexit`, which does not return. -/
def initialize_screenbuffer (debug : Bool) (width height : ℕ) (s : VideoState) :
    VideoState × Option Framebuffer :=
  match QueryMode s.gop s.gop.Mode with
  | none => (s, none)
  | some gop_mode =>
    let width := if width = 0 then 1920 else width
    let height := if height = 0 then 1080 else height
    let search :=
      if hasResolution width height gop_mode then some (s.gop.Mode, true)
      else searchModes s.gop width height s.gop.MaxMode 0 false
    match search with
    | none => (s, none)
    | some (i, found_mode) =>
      let reset := if debug then SetMode 0 s else (s, true)
      if reset.2 then
        let set := SetMode (found_mode.toNat*i) reset.1
        if set.2 then (set.1, some set.1.gop.framebuffer) else (set.1, none)
      else (reset.1, none)

/-- The index of a mode with the resolution if there is one, and 0 otherwise. -/
def RightMode (gop : Gop) (width height i : ℕ) : Prop :=
  if ∃ mode ∈ gop.modes, hasResolution width height mode then
    ∃ mode, gop.modes[i]? = some mode ∧ hasResolution width height mode
  else i = 0

/-- The last call of `SetMode` is for the right mode. -/
def SelectsMode (debug : Bool) (width height : ℕ) (s : VideoState) : Prop :=
  ∃ i, (initialize_screenbuffer debug width height s).1.setModes.getLast? = some i ∧
    RightMode s.gop (if width = 0 then 1920 else width) (if height = 0 then 1080 else height) i

/-- The mode that is set has the resolution, or none has it, or the first that has it is followed
by another. -/
def FindsMode (gop : Gop) (width height : ℕ) : Prop :=
  (∃ mode, gop.modes[gop.Mode]? = some mode ∧ hasResolution width height mode) ∨
  (∀ mode ∈ gop.modes, ¬ hasResolution width height mode) ∨
  ∃ before mode next after, gop.modes = before++mode::next::after ∧
    (∀ m ∈ before, ¬ hasResolution width height m) ∧ hasResolution width height mode ∧
    hasResolution width height next

section Search

variable {gop : Gop} {width height : ℕ} {s : VideoState}

theorem search_none {before rest : List VideoMode} (h : gop.modes = before++rest)
    (hr : ∀ m ∈ rest, ¬ hasResolution width height m) :
    searchModes gop width height rest.length before.length false =
      some (gop.modes.length, false) := by
  induction rest generalizing before with
  | nil => rw [h, List.append_nil]; rfl
  | cons m rest ih =>
    have hquery : QueryMode gop before.length = some m := by
      rw [QueryMode, h, List.getElem?_append_right le_rfl, Nat.sub_self]
      rfl
    have hm : hasResolution width height m = false := by
      simpa using hr m List.mem_cons_self
    have hnext := @ih (before++[m]) (by rw [h, List.append_assoc]; rfl)
      (fun m' hm' => hr m' (List.mem_cons_of_mem m hm'))
    rw [List.length_append, List.length_singleton] at hnext
    rw [List.length_cons, searchModes, if_neg (by decide), hquery, Option.bind_eq_bind,
      Option.bind_some, hm, hnext]

/-- The search ends one behind the first mode with the resolution. -/
theorem search_found {front before rest : List VideoMode} {mode : VideoMode}
    (h : gop.modes = front++(before++mode::rest))
    (hb : ∀ m ∈ before, ¬ hasResolution width height m) (hm : hasResolution width height mode) :
    searchModes gop width height (before++mode::rest).length front.length false =
      some (front.length+before.length+1, true) := by
  induction before generalizing front with
  | nil =>
    have hquery : QueryMode gop front.length = some mode := by
      rw [QueryMode, h, List.getElem?_append_right le_rfl, Nat.sub_self]
      rfl
    rw [List.nil_append, List.length_cons, searchModes, if_neg (by decide), hquery,
      Option.bind_eq_bind, Option.bind_some, hm]
    cases rest.length <;> rfl
  | cons m before ih =>
    have hquery : QueryMode gop front.length = some m := by
      rw [QueryMode, h, List.getElem?_append_right le_rfl, Nat.sub_self]
      rfl
    have hfirst : hasResolution width height m = false := by
      simpa using hb m List.mem_cons_self
    have hnext := @ih (front++[m]) (by rw [h, List.append_assoc]; rfl)
      (fun m' hm' => hb m' (List.mem_cons_of_mem m hm'))
    have hfront : (front++[m]).length = front.length+1 := List.length_append
    have hlen : front.length+1+before.length+1 = front.length+(before.length+1)+1 := by omega
    rw [hfront, hlen] at hnext
    rw [List.cons_append, List.length_cons, searchModes, if_neg (by decide), hquery,
      Option.bind_eq_bind, Option.bind_some, hfirst, hnext, List.length_cons]

theorem setMode_last (i : ℕ) (s : VideoState) : (SetMode i s).1.setModes.getLast? = some i := by
  rw [SetMode]
  split <;> exact List.getLast?_concat

/-- The mode that the function sets at last. -/
theorem initialize_last (debug : Bool) {mode : VideoMode}
    (hcur : s.gop.modes[s.gop.Mode]? = some mode) {i : ℕ} {found : Bool}
    (hsearch : (if hasResolution (if width = 0 then 1920 else width)
        (if height = 0 then 1080 else height) mode then some (s.gop.Mode, true)
      else searchModes s.gop (if width = 0 then 1920 else width)
        (if height = 0 then 1080 else height) s.gop.MaxMode 0 false) = some (i, found)) :
    (initialize_screenbuffer debug width height s).1.setModes.getLast? = some (found.toNat*i) := by
  have hzero : (if debug then SetMode 0 s else (s, true)).2 = true := by
    cases debug with
    | false => rfl
    | true => rw [if_pos rfl, SetMode, dif_pos (Nat.zero_lt_of_lt s.gop.mode_lt)]
  rw [initialize_screenbuffer, QueryMode, hcur]
  dsimp only
  rw [hsearch]
  dsimp only
  generalize (if debug then SetMode 0 s else (s, true)) = reset at hzero ⊢
  rw [if_pos hzero]
  split <;> exact setMode_last _ _

/-- The last mode that is set is right exactly where the search is not needed, finds nothing, or
finds a mode before another one with the same resolution. -/
theorem selectsMode_iff (debug : Bool) (width height : ℕ) (s : VideoState) :
    SelectsMode debug width height s ↔ FindsMode s.gop (if width = 0 then 1920 else width)
      (if height = 0 then 1080 else height) := by
  have hcur : s.gop.modes[s.gop.Mode]? = some (s.gop.modes.get ⟨s.gop.Mode, s.gop.mode_lt⟩) :=
    List.getElem?_eq_getElem s.gop.mode_lt
  have hlast := fun i found => @initialize_last width height s debug _ hcur i found
  unfold SelectsMode FindsMode RightMode
  generalize (if width = 0 then 1920 else width) = w at hlast ⊢
  generalize (if height = 0 then 1080 else height) = h at hlast ⊢
  generalize s.gop.modes.get ⟨s.gop.Mode, s.gop.mode_lt⟩ = mode at hcur hlast
  by_cases hmode : hasResolution w h mode
  · -- the current mode is set again
    have hmem : ∃ m ∈ s.gop.modes, hasResolution w h m :=
      ⟨mode, List.mem_of_getElem? hcur, hmode⟩
    have hset := hlast s.gop.Mode true (if_pos hmode)
    rw [Bool.toNat_true, Nat.one_mul] at hset
    simp only [if_pos hmem]
    exact iff_of_true ⟨_, hset, mode, hcur, hmode⟩ (Or.inl ⟨mode, hcur, hmode⟩)
  · have hfound : ∀ before rest m, s.gop.modes = before++m::rest →
        (∀ m ∈ before, ¬ hasResolution w h m) → hasResolution w h m →
        (initialize_screenbuffer debug width height s).1.setModes.getLast? =
            some (before.length+1) ∧ s.gop.modes[before.length+1]? = rest.head? := by
      intro before rest m hsplit hbefore hm
      have hsearch := @search_found s.gop w h [] before rest m hsplit hbefore hm
      rw [← hsplit, List.length_nil, Nat.zero_add] at hsearch
      have hset := hlast _ _ ((if_neg hmode).trans hsearch)
      have hone : before.length+1-before.length = 0+1 := by omega
      rw [Bool.toNat_true, Nat.one_mul] at hset
      refine ⟨hset, ?_⟩
      rw [hsplit, List.getElem?_append_right (Nat.le_succ _), hone, List.getElem?_cons_succ,
        List.head?_eq_getElem?]
    rcases hfind : s.gop.modes.find? (hasResolution w h) with _ | m
    · have hnone : ∀ m ∈ s.gop.modes, ¬ hasResolution w h m := List.find?_eq_none.mp hfind
      have hset := hlast _ _ ((if_neg hmode).trans (@search_none s.gop w h [] s.gop.modes rfl hnone))
      rw [Bool.toNat_false, Nat.zero_mul] at hset
      have hmem : ¬ ∃ m ∈ s.gop.modes, hasResolution w h m := by
        rintro ⟨m, hm, hr⟩
        exact hnone m hm hr
      simp only [if_neg hmem]
      exact iff_of_true ⟨0, hset, rfl⟩ (Or.inr (Or.inl hnone))
    · obtain ⟨hm, before, rest, hsplit, hb⟩ := List.find?_eq_some_iff_append.mp hfind
      have hbefore : ∀ m ∈ before, ¬ hasResolution w h m := by
        intro m' hm'
        simpa using hb m' hm'
      have hmem : ∃ m ∈ s.gop.modes, hasResolution w h m :=
        ⟨m, List.mem_of_find?_eq_some hfind, hm⟩
      simp only [if_pos hmem]
      constructor
      · rintro ⟨i, hi, next, hget, hr⟩
        obtain ⟨hset, hnext⟩ := hfound before rest m hsplit hbefore hm
        obtain rfl : before.length+1 = i := Option.some.inj (hset.symm.trans hi)
        rw [hnext] at hget
        obtain ⟨after, rfl⟩ := List.head?_eq_some_iff.mp hget
        exact Or.inr (Or.inr ⟨before, m, next, after, hsplit, hbefore, hm, hr⟩)
      · rintro (⟨m', hget, hr⟩ | hnone | ⟨before', m', next, after, hsplit', hb', hm', hr⟩)
        · obtain rfl : mode = m' := Option.some.inj (hcur.symm.trans hget)
          exact absurd hr hmode
        · exact absurd hm (hnone m (List.mem_of_find?_eq_some hfind))
        · obtain ⟨hset, hnext⟩ := hfound before' (next::after) m' hsplit' hb' hm'
          exact ⟨_, hset, next, hnext, hr⟩

/-- The default resolution is the second of three modes, and the third is set. -/
theorem selectsMode_second : ¬ SelectsMode false 0 0
    ⟨⟨[⟨640, 480⟩, ⟨1920, 1080⟩, ⟨800, 600⟩], 0, 0, by decide⟩, []⟩ := by
  rintro ⟨i, hi, hright⟩
  obtain rfl : 2 = i := Option.some.inj hi
  rw [RightMode, if_pos ⟨⟨1920, 1080⟩, by decide, rfl⟩] at hright
  obtain ⟨mode, hget, hr⟩ := hright
  obtain rfl : (⟨800, 600⟩ : VideoMode) = mode := Option.some.inj hget
  exact absurd hr (by decide)

end Search

end BruhOS.Boot
