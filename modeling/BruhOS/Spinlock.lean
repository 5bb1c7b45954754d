import Mathlib.Data.Nat.Notation
import Mathlib.Logic.Function.Basic

/-!
# The spinlock of `lock.h`

Every thread runs `lock`, `try_lock` and `unlock` one memory operation at a
time, in any interleaving. `unlock` passes the flag as its own expected value:
it reads the flag, compares and exchanges, and on failure would write what it
saw back to the flag. Only the holder gets there, and while it holds the lock
the others write nothing but the value the flag already has.
-/

set_option autoImplicit false

namespace BruhOS.Spinlock

def FALSE : UInt8 := 0
def TRUE : UInt8 := 1

/-- The next memory operation of a thread; `idle` is outside the three calls. -/
inductive Pc where
  | idle
  | lockExchange
  | lockLoad
  | tryLoad
  | tryExchange
  | unlockRead
  | unlockCas (expected : UInt8)
  | unlockWriteBack (seen : UInt8)
  deriving DecidableEq, Repr

inductive Call where
  | lock
  | tryLock
  | unlock
  deriving DecidableEq, Repr

/-- `held` runs from an exchange that returned `FALSE` to the compare-exchange
of `unlock`. -/
structure State (Thread : Type) where
  flag : UInt8
  pc : Thread → Pc
  held : Thread → Bool

section Machine

variable {Thread : Type}

def init : State Thread := ⟨FALSE, fun _ => .idle, fun _ => false⟩

def setFlag (s : State Thread) (v : UInt8) : State Thread := { s with flag := v }

/-- Where the program counter of a thread may be. -/
def Placed (s : State Thread) (t : Thread) : Prop :=
  match s.pc t with
  | .unlockRead => s.held t = true
  | .unlockCas expected => s.held t = true ∧ expected = TRUE
  | .unlockWriteBack _ => False
  | _ => True

structure Inv (s : State Thread) : Prop where
  single : ∀ t u, s.held t = true → s.held u = true → t = u
  flag : (s.flag = TRUE ∧ ∃ t, s.held t = true) ∨ (s.flag = FALSE ∧ ∀ t, s.held t = false)
  placed : ∀ t, Placed s t

section Reading

variable {s : State Thread} {t : Thread}

theorem Inv.free (h : Inv s) (hf : s.flag = FALSE) : ∀ u, s.held u = false := by
  rcases h.flag with ⟨hflag, -⟩ | ⟨-, hnone⟩
  · rw [hf] at hflag
    exact absurd hflag (by decide)
  · exact hnone

theorem Inv.taken (h : Inv s) (hf : s.flag ≠ FALSE) : s.flag = TRUE := by
  rcases h.flag with ⟨hflag, -⟩ | ⟨hflag, -⟩
  · exact hflag
  · exact absurd hflag hf

theorem Inv.flag_of_held (h : Inv s) (ht : s.held t = true) : s.flag = TRUE := by
  rcases h.flag with ⟨hflag, -⟩ | ⟨-, hnone⟩
  · exact hflag
  · rw [hnone t] at ht
    exact absurd ht (by decide)

theorem placed_congr {s' : State Thread} {u : Thread} (hpc : s'.pc u = s.pc u)
    (hheld : s'.held u = s.held u) (h : Placed s u) : Placed s' u := by
  unfold Placed at h ⊢
  rw [hpc, hheld]
  exact h

/-- An exchange that finds the lock taken writes the value that is there. -/
theorem setFlag_taken (h : Inv s) (hf : s.flag ≠ FALSE) : setFlag s TRUE = s := by
  rw [setFlag, ← h.taken hf]

theorem inv_init : Inv (init : State Thread) where
  single := by simp [init]
  flag := Or.inr ⟨rfl, fun _ => rfl⟩
  placed := by simp [Placed, init]

end Reading

variable [DecidableEq Thread]

def goto (s : State Thread) (t : Thread) (pc : Pc) : State Thread :=
  { s with pc := Function.update s.pc t pc }

def setHeld (s : State Thread) (t : Thread) (v : Bool) : State Thread :=
  { s with held := Function.update s.held t v }

def enter (s : State Thread) (t : Thread) : Call → State Thread
  | .lock => goto s t .lockExchange
  | .tryLock => goto s t .tryLoad
  | .unlock => goto s t .unlockRead

/-- One memory operation of thread `t`. -/
def step (s : State Thread) (t : Thread) : State Thread :=
  match s.pc t with
  | .idle => s
  | .lockExchange =>
    if s.flag = FALSE then setHeld (goto (setFlag s TRUE) t .idle) t true
    else goto (setFlag s TRUE) t .lockLoad
  | .lockLoad => if s.flag = FALSE then goto s t .lockExchange else s
  | .tryLoad => if s.flag = FALSE then goto s t .tryExchange else goto s t .idle
  | .tryExchange =>
    if s.flag = FALSE then setHeld (goto (setFlag s TRUE) t .idle) t true
    else goto (setFlag s TRUE) t .idle
  | .unlockRead => goto s t (.unlockCas s.flag)
  | .unlockCas expected =>
    if s.flag = expected then setHeld (goto (setFlag s FALSE) t .idle) t false
    else setHeld (goto s t (.unlockWriteBack s.flag)) t false
  | .unlockWriteBack seen => goto (setFlag s seen) t .idle

/-- A thread calls `unlock` only while it holds the lock. -/
def MayCall (s : State Thread) (t : Thread) (c : Call) : Prop :=
  s.pc t = .idle ∧ (c = .unlock → s.held t = true)

inductive Reachable : State Thread → Prop
  | init : Reachable init
  | call {s : State Thread} {t : Thread} {c : Call} : Reachable s → MayCall s t c →
      Reachable (enter s t c)
  | step {s : State Thread} {t : Thread} : Reachable s → Reachable (step s t)

section Steps

variable {s : State Thread} {t : Thread}

theorem inv_goto (h : Inv s) (pc : Pc) (hp : Placed (goto s t pc) t) : Inv (goto s t pc) where
  single := h.single
  flag := h.flag
  placed := by
    intro u
    by_cases hu : u = t
    · rw [hu]
      exact hp
    · apply placed_congr (s := s) _ _ (h.placed u)
      · simp [goto, hu]
      · rfl

theorem inv_acquire (h : Inv s) (hf : s.flag = FALSE) :
    Inv (setHeld (goto (setFlag s TRUE) t .idle) t true) where
  single := by
    intro u v hu hv
    have hnone := h.free hf
    simp only [setHeld, goto, setFlag, Function.update_apply, hnone] at hu hv
    by_cases hut : u = t
    · by_cases hvt : v = t
      · rw [hut, hvt]
      · simp [hvt] at hv
    · simp [hut] at hu
  flag := Or.inl ⟨rfl, t, by simp [setHeld]⟩
  placed := by
    intro u
    by_cases hu : u = t
    · simp [Placed, setHeld, goto, setFlag, hu]
    · apply placed_congr (s := s) _ _ (h.placed u)
      · simp [setHeld, goto, setFlag, hu]
      · simp [setHeld, goto, setFlag, hu]

theorem inv_release (h : Inv s) (ht : s.held t = true) :
    Inv (setHeld (goto (setFlag s FALSE) t .idle) t false) where
  single := by
    intro u v hu hv
    by_cases hut : u = t
    · simp [setHeld, hut] at hu
    · by_cases hvt : v = t
      · simp [setHeld, hvt] at hv
      · simp only [setHeld, goto, setFlag, Function.update_of_ne hut,
          Function.update_of_ne hvt] at hu hv
        exact h.single u v hu hv
  flag := by
    refine Or.inr ⟨rfl, ?_⟩
    intro u
    by_cases hu : u = t
    · simp [setHeld, hu]
    · simp only [setHeld, goto, setFlag, Function.update_of_ne hu]
      by_contra hheld
      exact hu (h.single u t (by simpa using hheld) ht)
  placed := by
    intro u
    by_cases hu : u = t
    · simp [Placed, setHeld, goto, setFlag, hu]
    · apply placed_congr (s := s) _ _ (h.placed u)
      · simp [setHeld, goto, setFlag, hu]
      · simp [setHeld, goto, setFlag, hu]

theorem inv_enter (h : Inv s) {c : Call} (hc : MayCall s t c) : Inv (enter s t c) := by
  cases c with
  | lock => exact inv_goto h _ (by simp [Placed, goto])
  | tryLock => exact inv_goto h _ (by simp [Placed, goto])
  | unlock => exact inv_goto h _ (by simpa [Placed, goto] using hc.2 rfl)

theorem inv_step (h : Inv s) : Inv (step s t) := by
  have hp := h.placed t
  unfold Placed at hp
  unfold step
  cases hpc : s.pc t with
  | idle => exact h
  | lockExchange =>
    by_cases hf : s.flag = FALSE
    · simp only [hf, if_true]
      exact inv_acquire h hf
    · simp only [hf, if_false]
      rw [setFlag_taken h hf]
      exact inv_goto h _ (by simp [Placed, goto])
  | lockLoad =>
    by_cases hf : s.flag = FALSE
    · simp only [hf, if_true]
      exact inv_goto h _ (by simp [Placed, goto])
    · simp only [hf, if_false]
      exact h
  | tryLoad =>
    by_cases hf : s.flag = FALSE
    · simp only [hf, if_true]
      exact inv_goto h _ (by simp [Placed, goto])
    · simp only [hf, if_false]
      exact inv_goto h _ (by simp [Placed, goto])
  | tryExchange =>
    by_cases hf : s.flag = FALSE
    · simp only [hf, if_true]
      exact inv_acquire h hf
    · simp only [hf, if_false]
      rw [setFlag_taken h hf]
      exact inv_goto h _ (by simp [Placed, goto])
  | unlockRead =>
    rw [hpc] at hp
    apply inv_goto h
    simpa [Placed, goto] using ⟨hp, h.flag_of_held hp⟩
  | unlockCas expected =>
    rw [hpc] at hp
    have heq : s.flag = expected := (h.flag_of_held hp.1).trans hp.2.symm
    simp only [heq, if_true]
    exact inv_release h hp.1
  | unlockWriteBack seen =>
    rw [hpc] at hp
    exact hp.elim

theorem inv_reachable (h : Reachable s) : Inv s := by
  induction h with
  | init => exact inv_init
  | call _ hc ih => exact inv_enter ih hc
  | step _ ih => exact inv_step ih

end Steps

/-- Mutual exclusion: one holder at most, the flag tells whether there is one,
and the compare-exchange of `unlock` succeeds and clears the flag. -/
theorem spinlock_exclusion (s : State Thread) (h : Reachable s) :
    (∀ t u, s.held t = true → s.held u = true → t = u) ∧
    (s.flag = TRUE ↔ ∃ t, s.held t = true) ∧ (s.flag = TRUE ∨ s.flag = FALSE) ∧
    (∀ t expected, s.pc t = .unlockCas expected →
      s.held t = true ∧ s.flag = expected ∧ (step s t).flag = FALSE ∧
      (step s t).pc t = .idle) ∧
    (∀ t seen, s.pc t ≠ .unlockWriteBack seen) := by
  have hi := inv_reachable h
  refine ⟨hi.single, ?_, ?_, ?_, ?_⟩
  · constructor
    · intro hf
      by_contra hnone
      rcases hi.flag with ⟨-, hsome⟩ | ⟨hflag, -⟩
      · exact hnone hsome
      · rw [hf] at hflag
        exact absurd hflag (by decide)
    · rintro ⟨t, ht⟩
      exact hi.flag_of_held ht
  · rcases hi.flag with ⟨hflag, -⟩ | ⟨hflag, -⟩
    · exact Or.inl hflag
    · exact Or.inr hflag
  · intro t expected hpc
    have hp := hi.placed t
    rw [Placed, hpc] at hp
    have heq : s.flag = expected := (hi.flag_of_held hp.1).trans hp.2.symm
    refine ⟨hp.1, heq, ?_, ?_⟩
    · simp [step, hpc, heq, setHeld, goto, setFlag]
    · simp [step, hpc, heq, setHeld, goto, setFlag]
  · intro t seen hpc
    have hp := hi.placed t
    rw [Placed, hpc] at hp
    exact hp

end Machine

/-- Thread 0 has taken the lock and is about to release it. -/
def releasing : State ℕ :=
  step (enter (step (enter init 0 .lock) 0) 0 .unlock) 0

theorem spinlock_exclusion_releasing : releasing.pc 0 = .unlockCas TRUE ∧
    releasing.flag = TRUE ∧ (step releasing 0).flag = FALSE := by
  have hcall : MayCall (init : State ℕ) 0 .lock := ⟨rfl, by decide⟩
  have hunlock : MayCall (step (enter (init : State ℕ) 0 .lock) 0) 0 .unlock := ⟨by decide, by decide⟩
  have hr : Reachable releasing := .step (.call (.step (.call .init hcall)) hunlock)
  have hpc : releasing.pc 0 = .unlockCas TRUE := by decide
  have h := (spinlock_exclusion releasing hr).2.2.2.1 0 TRUE hpc
  exact ⟨hpc, h.2.1, h.2.2.1⟩

end BruhOS.Spinlock
