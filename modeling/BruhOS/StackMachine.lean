import Mathlib.Data.BitVec
import Mathlib.Data.List.Basic
import Mathlib.Logic.Function.Basic
import Mathlib.Tactic.Common

/-!
# Stacks in byte memory

A machine of named registers and a stack of words in byte memory. A program is
a list of pushes, pops and moves and of calls of one outside procedure. Before
every instruction, and after the last one, there may be other activity, which
leaves the stack and all but some registers as they are.
-/

set_option autoImplicit false

namespace BruhOS.StackMachine

abbrev Word := BitVec 64

abbrev Bytes := ℕ → BitVec 8

section Words

/-- The word at an address, its lowest byte first. -/
def readWord (m : Bytes) (a : ℕ) : Word :=
  BitVec.ofNat 64 ((m a).toNat+(m (a+1)).toNat*2^8+(m (a+2)).toNat*2^16+(m (a+3)).toNat*2^24+
    (m (a+4)).toNat*2^32+(m (a+5)).toNat*2^40+(m (a+6)).toNat*2^48+(m (a+7)).toNat*2^56)

def writeWord (m : Bytes) (a : ℕ) (v : Word) : Bytes := fun b =>
  if a ≤ b ∧ b < a+8 then BitVec.ofNat 8 (v.toNat/2^(8*(b-a))) else m b

variable {m m' : Bytes} {a b : ℕ} {v : Word}

theorem writeWord_byte (i : ℕ) (hi : i < 8) :
    (writeWord m a v (a+i)).toNat = v.toNat/2^(8*i) % 2^8 := by
  rw [writeWord, if_pos (by omega), Nat.add_sub_cancel_left, BitVec.toNat_ofNat]

theorem readWord_writeWord : readWord (writeWord m a v) a = v := by
  have h0 := writeWord_byte (m := m) (a := a) (v := v) 0 (by decide)
  rw [Nat.add_zero] at h0
  rw [readWord, h0, writeWord_byte 1 (by decide), writeWord_byte 2 (by decide),
    writeWord_byte 3 (by decide), writeWord_byte 4 (by decide), writeWord_byte 5 (by decide),
    writeWord_byte 6 (by decide), writeWord_byte 7 (by decide)]
  apply BitVec.eq_of_toNat_eq
  have hv := v.isLt
  rw [BitVec.toNat_ofNat]
  simp only [Nat.reduceMul, Nat.reducePow]
  omega

theorem writeWord_of_ne (h : b < a ∨ a+8 ≤ b) : writeWord m a v b = m b :=
  if_neg (by omega)

theorem readWord_congr (h : ∀ i < 8, m' (a+i) = m (a+i)) : readWord m' a = readWord m a := by
  have h0 := h 0 (by decide)
  rw [Nat.add_zero] at h0
  rw [readWord, h0, h 1 (by decide), h 2 (by decide), h 3 (by decide), h 4 (by decide),
    h 5 (by decide), h 6 (by decide), h 7 (by decide), readWord]

end Words

/-- The words from an address on. -/
def Stacked (m : Bytes) : ℕ → List Word → Prop
  | _, [] => True
  | a, w::ws => readWord m a = w ∧ Stacked m (a+8) ws

section Stacked

variable {m m' : Bytes} {a : ℕ} {ws : List Word}

theorem stacked_congr (ws : List Word) (a : ℕ)
    (h : ∀ b, a ≤ b → b < a+8*ws.length → m' b = m b) (hs : Stacked m a ws) : Stacked m' a ws := by
  induction ws generalizing a with
  | nil => trivial
  | cons w ws ih =>
    rw [List.length_cons] at h
    obtain ⟨hw, hrest⟩ := hs
    constructor
    · rw [readWord_congr (fun i hi => h (a+i) (by omega) (by omega)), hw]
    · exact ih (a+8) (fun b hb hlt => h b (by omega) (by omega)) hrest

theorem Stacked.get (h : Stacked m a ws) {i : ℕ} {w : Word} (hi : ws[i]? = some w) :
    readWord m (a+8*i) = w := by
  induction ws generalizing a i with
  | nil => simp at hi
  | cons v ws ih =>
    cases i with
    | zero => exact h.1.trans (by simpa using hi)
    | succ i =>
      rw [show a+8*(i+1) = a+8+8*i by omega]
      exact ih h.2 (by simpa using hi)

end Stacked

structure Machine (R : Type) where
  regs : R → Word
  sp : Word
  mem : Bytes

inductive Instr (R : Type) where
  | push (r : R)
  | pushImm (v : Word)
  | pop (r : R)
  | mov (target source : R)
  | movSp (target : R)
  | addSp (n : Word)
  | call
  deriving DecidableEq, Repr

section Machine

variable {R : Type} [DecidableEq R]

/-- There is no push below the lowest word. -/
def Machine.push (s : Machine R) (v : Word) : Option (Machine R) :=
  if s.sp.toNat < 8 then none
  else some { s with sp := s.sp-8#64, mem := writeWord s.mem (s.sp.toNat-8) v }

def Machine.set (s : Machine R) (r : R) (v : Word) : Machine R :=
  { s with regs := Function.update s.regs r v }

@[simp] theorem Machine.set_self (s : Machine R) (r : R) (v : Word) : (s.set r v).regs r = v :=
  Function.update_self ..

theorem Machine.set_of_ne (s : Machine R) {r q : R} (h : q ≠ r) (v : Word) :
    (s.set r v).regs q = s.regs q := Function.update_of_ne h ..

@[simp] theorem Machine.set_sp (s : Machine R) (r : R) (v : Word) : (s.set r v).sp = s.sp := rfl

@[simp] theorem Machine.set_mem (s : Machine R) (r : R) (v : Word) : (s.set r v).mem = s.mem := rfl

def Machine.pop (s : Machine R) (r : R) : Machine R :=
  { s.set r (readWord s.mem s.sp.toNat) with sp := s.sp+8#64 }

/-- A call is not a step of the machine's own. -/
def exec : Instr R → Machine R → Option (Machine R)
  | .push r, s => s.push (s.regs r)
  | .pushImm v, s => s.push v
  | .pop r, s => some (s.pop r)
  | .mov d r, s => some (s.set d (s.regs r))
  | .movSp d, s => some (s.set d s.sp)
  | .addSp n, s => some { s with sp := s.sp+n }
  | .call, _ => none

end Machine

/-- The stack up to its end is kept, and all registers but those that may change. -/
structure Kept {R : Type} (noise : Set R) (base : ℕ) (s s' : Machine R) : Prop where
  sp : s'.sp = s.sp
  regs : ∀ r, r ∉ noise → s'.regs r = s.regs r
  mem : ∀ a, s.sp.toNat ≤ a → a < base → s'.mem a = s.mem a

/-- Activity that keeps the stack whenever it starts inside it. -/
def Quiet {R : Type} (noise : Set R) (base : ℕ) (s s' : Machine R) : Prop :=
  s.sp.toNat ≤ base → Kept noise base s s'

inductive Runs {R : Type} [DecidableEq R] (noise : Set R) (base : ℕ)
    (callee : Machine R → Machine R → Prop) : List (Instr R) → Machine R → Machine R → Prop
  | nil {s s' : Machine R} (hq : Quiet noise base s s') : Runs noise base callee [] s s'
  | exec {i : Instr R} {is : List (Instr R)} {s s₁ s₂ s' : Machine R} (hq : Quiet noise base s s₁)
    (he : exec i s₁ = some s₂) (hr : Runs noise base callee is s₂ s') :
    Runs noise base callee (i::is) s s'
  | call {is : List (Instr R)} {s s₁ s₂ s' : Machine R} (hq : Quiet noise base s s₁)
    (hc : callee s₁ s₂) (hr : Runs noise base callee is s₂ s') :
    Runs noise base callee (.call::is) s s'

section Quiet

variable {R : Type} {noise : Set R} {base : ℕ} {s s' t : Machine R}

theorem Quiet.refl (s : Machine R) : Quiet noise base s s :=
  fun _ => ⟨rfl, fun _ _ => rfl, fun _ _ _ => rfl⟩

theorem Quiet.trans (h : Quiet noise base s t) (h' : Quiet noise base t s') :
    Quiet noise base s s' := by
  intro hin
  obtain ⟨hsp, hregs, hmem⟩ := h hin
  obtain ⟨hsp', hregs', hmem'⟩ := h' (hsp ▸ hin)
  refine ⟨hsp'.trans hsp, fun r hr => (hregs' r hr).trans (hregs r hr), ?_⟩
  intro a ha hlt
  rw [hmem' a (hsp ▸ ha) hlt, hmem a ha hlt]

variable [DecidableEq R] {callee : Machine R → Machine R → Prop} {is js : List (Instr R)}

/-- Activity before a run is part of the run. -/
theorem Runs.after (h : Quiet noise base s t) (hr : Runs noise base callee is t s') :
    Runs noise base callee is s s' := by
  cases hr with
  | nil hq => exact .nil (h.trans hq)
  | exec hq he hr => exact .exec (h.trans hq) he hr
  | call hq hc hr => exact .call (h.trans hq) hc hr

theorem Runs.before (hr : Runs noise base callee is s t) (h : Quiet noise base t s') :
    Runs noise base callee is s s' := by
  induction hr with
  | nil hq => exact .nil (hq.trans h)
  | exec hq he _ ih => exact .exec hq he (ih h)
  | call hq hc _ ih => exact .call hq hc (ih h)

theorem runs_append (is : List (Instr R)) (hr : Runs noise base callee (is++js) s s') :
    ∃ t, Runs noise base callee is s t ∧ Runs noise base callee js t s' := by
  induction is generalizing s with
  | nil => exact ⟨s, .nil (Quiet.refl s), hr⟩
  | cons i is ih =>
    cases hr with
    | exec hq he hr =>
      obtain ⟨t, hi, hj⟩ := ih hr
      exact ⟨t, .exec hq he hi, hj⟩
    | call hq hc hr =>
      obtain ⟨t, hi, hj⟩ := ih hr
      exact ⟨t, .call hq hc hi, hj⟩

theorem runs_nil (hr : Runs noise base callee [] s s') : Quiet noise base s s' := by
  cases hr with
  | nil hq => exact hq

/-- One instruction of a run that is no call. -/
theorem runs_one {i : Instr R} (hi : i ≠ .call) (hr : Runs noise base callee (i::is) s s') :
    ∃ s₁ s₂, Quiet noise base s s₁ ∧ StackMachine.exec i s₁ = some s₂ ∧
      Runs noise base callee is s₂ s' := by
  cases hr with
  | exec hq he hr => exact ⟨_, _, hq, he, hr⟩
  | call hq hc hr => exact absurd rfl hi

theorem runs_call (hr : Runs noise base callee (.call::is) s s') :
    ∃ s₁ s₂, Quiet noise base s s₁ ∧ callee s₁ s₂ ∧ Runs noise base callee is s₂ s' := by
  cases hr with
  | exec hq he hr => cases he
  | call hq hc hr => exact ⟨_, _, hq, hc, hr⟩

end Quiet

/-- The words pushed since a state, above which the stack is as it was then. -/
structure Pushed {R : Type} (base : ℕ) (s₀ s : Machine R) (ws : List Word) : Prop where
  inside : s₀.sp.toNat ≤ base
  depth : s.sp.toNat+8*ws.length = s₀.sp.toNat
  words : Stacked s.mem s.sp.toNat ws
  kept : ∀ a, s₀.sp.toNat ≤ a → a < base → s.mem a = s₀.mem a

section Pushed

variable {R : Type} {noise : Set R} {base : ℕ} {s₀ s s' : Machine R} {ws : List Word} {v w : Word}

theorem Pushed.start (h : s.sp.toNat ≤ base) : Pushed base s s [] :=
  ⟨h, rfl, trivial, fun _ _ _ => rfl⟩

theorem Pushed.below (h : Pushed base s₀ s ws) : s.sp.toNat ≤ base := by
  have hdepth := h.depth
  have hin := h.inside
  omega

theorem Pushed.quiet (h : Pushed base s₀ s ws) (hq : Quiet noise base s s') :
    Pushed base s₀ s' ws := by
  have hdepth := h.depth
  have hin := h.inside
  obtain ⟨hsp, -, hmem⟩ := hq h.below
  refine ⟨hin, by rw [hsp]; exact hdepth, ?_, ?_⟩
  · rw [hsp]
    exact stacked_congr ws _ (fun b hb hlt => hmem b hb (by omega)) h.words
  · intro a ha hlt
    rw [hmem a (by omega) hlt, h.kept a ha hlt]

theorem toNat_sub_eight {x : Word} (h : ¬ x.toNat < 8) : (x-8#64).toNat = x.toNat-8 := by
  rw [BitVec.toNat_sub]
  have := x.isLt
  simp only [BitVec.toNat_ofNat]
  omega

theorem toNat_add_words {x : Word} {n : ℕ} (h : x.toNat+n < 2^64) :
    (x+BitVec.ofNat 64 n).toNat = x.toNat+n := by
  rw [BitVec.toNat_add, BitVec.toNat_ofNat]
  omega

theorem Pushed.push (h : Pushed base s₀ s ws) (hp : s.push v = some s') :
    Pushed base s₀ s' (v::ws) ∧ s'.regs = s.regs := by
  unfold Machine.push at hp
  split_ifs at hp with hroom
  obtain rfl := Option.some.inj hp
  have hdepth := h.depth
  have hsp := toNat_sub_eight hroom
  refine ⟨⟨h.inside, ?_, ⟨?_, ?_⟩, ?_⟩, rfl⟩
  · rw [List.length_cons]
    change (s.sp-8#64).toNat+_ = _
    omega
  · change readWord (writeWord _ _ _) (s.sp-8#64).toNat = v
    rw [hsp, readWord_writeWord]
  · change Stacked (writeWord _ _ _) ((s.sp-8#64).toNat+8) ws
    rw [hsp, show s.sp.toNat-8+8 = s.sp.toNat by omega]
    exact stacked_congr ws _ (fun b hb _ => writeWord_of_ne (by omega)) h.words
  · intro a ha hlt
    exact (writeWord_of_ne (by omega)).trans (h.kept a ha hlt)

/-- The words above are dropped together. -/
theorem Pushed.drop (vs : List Word) (h : Pushed base s₀ s (vs++ws)) :
    Pushed base s₀ { s with sp := s.sp+BitVec.ofNat 64 (8*vs.length) } ws := by
  have hdepth := h.depth
  rw [List.length_append] at hdepth
  have hlt := s₀.sp.isLt
  have hsp : (s.sp+BitVec.ofNat 64 (8*vs.length)).toNat = s.sp.toNat+8*vs.length :=
    toNat_add_words (by omega)
  refine ⟨h.inside, ?_, ?_, h.kept⟩
  · change (s.sp+BitVec.ofNat 64 (8*vs.length)).toNat+_ = _
    omega
  · change Stacked s.mem (s.sp+BitVec.ofNat 64 (8*vs.length)).toNat ws
    rw [hsp]
    have hwords := h.words
    clear h hdepth hsp hlt
    generalize s.sp.toNat = a at hwords ⊢
    induction vs generalizing a with
    | nil => exact hwords
    | cons v vs ih =>
      rw [List.length_cons, show a+8*(vs.length+1) = a+8+8*vs.length by omega]
      exact ih (a+8) hwords.2

variable [DecidableEq R] {r : R}

/-- A register changes, but not the stack. -/
theorem Pushed.set (h : Pushed base s₀ s ws) : Pushed base s₀ (s.set r v) ws :=
  ⟨h.inside, h.depth, h.words, h.kept⟩

theorem Pushed.pop (h : Pushed base s₀ s (w::ws)) :
    Pushed base s₀ (s.pop r) ws ∧ (s.pop r).regs = Function.update s.regs r w := by
  obtain ⟨hw, hrest⟩ := h.words
  have hdepth := h.depth
  rw [List.length_cons] at hdepth
  have hlt := s₀.sp.isLt
  have hsp : (s.sp+8#64).toNat = s.sp.toNat+8 := toNat_add_words (by omega)
  refine ⟨⟨h.inside, ?_, ?_, h.kept⟩, ?_⟩
  · change (s.sp+8#64).toNat+_ = _
    omega
  · change Stacked s.mem (s.sp+8#64).toNat ws
    rw [hsp]
    exact hrest
  · change Function.update s.regs r (readWord s.mem s.sp.toNat) = _
    rw [hw]

end Pushed

section Blocks

variable {R : Type} [DecidableEq R] {noise : Set R} {base : ℕ}
  {callee : Machine R → Machine R → Prop} {s₀ s s' : Machine R} {ws : List Word}

/-- Registers are pushed one by one. -/
theorem runs_pushes (rs : List R) (hn : ∀ r ∈ rs, r ∉ noise) (h : Pushed base s₀ s ws)
    (hr : Runs noise base callee (rs.map .push) s s') :
    Pushed base s₀ s' ((rs.map s.regs).reverse++ws) ∧
      ∀ r, r ∉ noise → s'.regs r = s.regs r := by
  induction rs generalizing s ws with
  | nil =>
    have hq := runs_nil hr
    exact ⟨h.quiet hq, (hq h.below).regs⟩
  | cons r rs ih =>
    obtain ⟨s₁, s₂, hq, he, hrest⟩ := runs_one (by simp) hr
    have hquiet := (hq h.below).regs
    obtain ⟨h₂, hregs⟩ := (h.quiet hq).push he
    obtain ⟨h', hkept⟩ := ih (fun q hq => hn q (by simp [hq])) h₂ hrest
    have hsame : ∀ q, q ∉ noise → s₂.regs q = s.regs q := fun q hqn => by
      rw [hregs, hquiet q hqn]
    constructor
    · have hmap : rs.map s₂.regs = rs.map s.regs := by
        apply List.map_congr_left
        intro q hq'
        exact hsame q (hn q (by simp [hq']))
      rw [hmap, hquiet r (hn r (by simp))] at h'
      simpa using h'
    · intro q hqn
      rw [hkept q hqn, hsame q hqn]

/-- Registers are copied one by one into another one and pushed from there. -/
theorem runs_moves {d : R} (hd : d ∉ noise) (rs : List R) (hrs : d ∉ rs) (hnodup : rs.Nodup)
    (h : Pushed base s₀ s ws)
    (hr : Runs noise base callee (rs.flatMap fun r => [.mov d r, .push d]) s s') :
    ∃ f : R → Word, Pushed base s₀ s' ((rs.map f).reverse++ws) ∧
      (∀ r, r ∉ noise → r ≠ d → f r = s.regs r) ∧
      ∀ r, r ∉ noise → r ≠ d → s'.regs r = s.regs r := by
  induction rs generalizing s ws with
  | nil =>
    have hq := runs_nil hr
    exact ⟨s.regs, h.quiet hq, fun _ _ _ => rfl, fun r hrn _ => (hq h.below).regs r hrn⟩
  | cons q rs ih =>
    simp only [List.mem_cons, not_or] at hrs
    obtain ⟨hq, hnodup⟩ := List.nodup_cons.mp hnodup
    obtain ⟨s₁, s₂, hq₁, he₁, hr₂⟩ := runs_one (by simp) hr
    obtain rfl := Option.some.inj he₁
    obtain ⟨s₃, s₄, hq₃, he₃, hr₄⟩ := runs_one (by simp) hr₂
    have h₂ := (h.quiet hq₁).set (r := d) (v := s₁.regs q)
    obtain ⟨h₄, hregs⟩ := (h₂.quiet hq₃).push he₃
    have hword : s₃.regs d = s₁.regs q := by
      rw [(hq₃ h₂.below).regs d hd, Machine.set_self]
    have hsame : ∀ r, r ∉ noise → r ≠ d → s₄.regs r = s.regs r := by
      intro r hrn hrd
      rw [hregs, (hq₃ h₂.below).regs r hrn, Machine.set_of_ne _ hrd, (hq₁ h.below).regs r hrn]
    obtain ⟨f, h', hf, hkept⟩ := ih hrs.2 hnodup h₄ hr₄
    refine ⟨Function.update f q (s₁.regs q), ?_, ?_, ?_⟩
    · have hmap : rs.map (Function.update f q (s₁.regs q)) = rs.map f := by
        apply List.map_congr_left
        intro r hmem
        have hne : r ≠ q := fun he => hq (he ▸ hmem)
        exact Function.update_of_ne hne _ _
      rw [List.map_cons, hmap, Function.update_self, ← hword]
      simpa using h'
    · intro r hrn hrd
      rw [Function.update_apply]
      split_ifs with he
      · rw [← he, (hq₁ h.below).regs r hrn]
      · rw [hf r hrn hrd, hsame r hrn hrd]
    · intro r hrn hrd
      rw [hkept r hrn hrd, hsame r hrn hrd]

/-- The registers after words were popped into some of them, in that order. -/
def loaded : List (R × Word) → (R → Word) → R → Word
  | [], g => g
  | (r, w)::rws, g => loaded rws (Function.update g r w)

theorem loaded_of_notMem (rws : List (R × Word)) (g : R → Word) {r : R}
    (h : r ∉ rws.map Prod.fst) : loaded rws g r = g r := by
  induction rws generalizing g with
  | nil => rfl
  | cons p rws ih =>
    simp only [List.map_cons, List.mem_cons, not_or] at h
    rw [loaded, ih _ h.2, Function.update_of_ne h.1]

/-- The last word that is popped into a register stays there. -/
theorem loaded_append (rws rws' : List (R × Word)) (g : R → Word) :
    loaded (rws++rws') g = loaded rws' (loaded rws g) := by
  induction rws generalizing g with
  | nil => rfl
  | cons p rws ih => exact ih _

theorem loaded_congr (rws : List (R × Word)) {g g' : R → Word} {r : R} (h : g' r = g r) :
    loaded rws g' r = loaded rws g r := by
  induction rws generalizing g g' with
  | nil => exact h
  | cons p rws ih =>
    apply ih
    simp only [Function.update_apply]
    split_ifs
    · rfl
    · exact h

/-- Popping what was pushed restores the registers. -/
theorem loaded_restores (rs : List R) (f g : R → Word) {r : R} (h : r ∈ rs) :
    loaded (rs.map fun q => (q, f q)) g r = f r := by
  induction rs generalizing g with
  | nil => simp at h
  | cons q rs ih =>
    rw [List.map_cons, loaded]
    by_cases hr : r ∈ rs
    · exact ih _ hr
    · obtain rfl : r = q := by simpa [hr] using h
      rw [loaded_of_notMem _ _ (by simpa using hr), Function.update_self]

/-- Words are popped one by one. -/
theorem runs_pops (rws : List (R × Word)) (h : Pushed base s₀ s (rws.map Prod.snd++ws))
    (hr : Runs noise base callee (rws.map fun p => .pop p.1) s s') :
    Pushed base s₀ s' ws ∧ ∀ r, r ∉ noise → s'.regs r = loaded rws s.regs r := by
  induction rws generalizing s with
  | nil =>
    have hq := runs_nil hr
    exact ⟨h.quiet hq, (hq h.below).regs⟩
  | cons p rws ih =>
    obtain ⟨s₁, s₂, hq, he, hrest⟩ := runs_one (by simp) hr
    obtain rfl := Option.some.inj he
    obtain ⟨h₂, hregs⟩ := (h.quiet hq).pop (r := p.1)
    obtain ⟨h', hkept⟩ := ih h₂ hrest
    refine ⟨h', fun q hqn => ?_⟩
    rw [hkept q hqn, loaded]
    apply loaded_congr
    rw [hregs, Function.update_apply, Function.update_apply, (hq h.below).regs q hqn]

end Blocks

end BruhOS.StackMachine
