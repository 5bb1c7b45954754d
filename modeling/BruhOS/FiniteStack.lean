import Mathlib.Tactic

/-!
# The finite stack

The stack of `finite_stack.h` is an array and a count, and the count is also the index of the
next free slot. `push` writes that slot and then counts it. `pop` and `top` read the slot that
the count points to before it changes, which is the slot above the top element. Elements and
their order are kept; what is read is whatever that slot held before.
-/

set_option autoImplicit false

namespace BruhOS.Ds

/-- `rsp` never exceeds the index of the last slot, so its 64 bits do not matter. -/
structure FiniteStack (α : Type*) (elemCount : ℕ) where
  rsp : ℕ
  data : Vector α elemCount

inductive Op (α : Type*) where
  | push (data : α)
  | pop
  | top

section Code

variable {α : Type*} [Zero α] {elemCount : ℕ}

/-- An access outside the array has no result. -/
def push (stack : FiniteStack α elemCount) (data : α) : Option (FiniteStack α elemCount) :=
  if stack.rsp = elemCount-1 then some stack
  else if h : stack.rsp < elemCount then some ⟨stack.rsp+1, stack.data.set stack.rsp data h⟩
  else none

def pop (stack : FiniteStack α elemCount) : Option (α × FiniteStack α elemCount) :=
  if stack.rsp = 0 then some (0, stack)
  else
    let stack := { stack with rsp := stack.rsp-1 }
    stack.data[stack.rsp+1]?.map (·, stack)

def top (stack : FiniteStack α elemCount) : Option α := stack.data[stack.rsp]?

/-- One call: what it returns, and the stack afterwards. -/
def step (stack : FiniteStack α elemCount) : Op α → Option (Option α × FiniteStack α elemCount)
  | .push data => (push stack data).map (none, ·)
  | .pop => (pop stack).map (fun r => (some r.1, r.2))
  | .top => (top stack).map (some ·, stack)

end Code

/-- A list of bounded length, the last element pushed in front. -/
structure Lifo (α : Type*) (cap : ℕ) where
  elems : List α
  bound : elems.length ≤ cap

namespace Lifo

variable {α : Type*} {cap : ℕ}

def empty : Lifo α cap := ⟨[], Nat.zero_le cap⟩

def step (l : Lifo α cap) : Op α → Lifo α cap
  | .push data => if h : l.elems.length < cap then ⟨data::l.elems, h⟩ else l
  | .pop => ⟨l.elems.tail, l.elems.length_tail ▸ (Nat.sub_le _ 1).trans l.bound⟩
  | .top => l

theorem step_pop_elems (l : Lifo α cap) : (l.step .pop).elems = l.elems.tail := rfl

/-- What a call may return; the top of an empty list is left open. -/
def Expects [Zero α] (l : Lifo α cap) : Op α → Option α → Prop
  | .push _, r => r = none
  | .pop, r => r = some (l.elems.headD 0)
  | .top, r => l.elems ≠ [] → r = l.elems.head?

end Lifo

section Runs

variable {α : Type*} [Zero α] {elemCount : ℕ}

/-- Every call of a run returns what the list expects, without leaving the array. -/
def Agrees : List (Op α) → FiniteStack α elemCount → Lifo α (elemCount-1) → Prop
  | [], _, _ => True
  | op::ops, stack, l => ∃ r stack', step stack op = some (r, stack') ∧ l.Expects op r ∧
      Agrees ops stack' (l.step op)

/-- A call that reads a stack with an element finds that element repeated above it. -/
def Repeats (stack : FiniteStack α elemCount) : Op α → Prop
  | .push _ => True
  | .pop | .top => stack.rsp ≠ 0 → stack.data[stack.rsp]? = stack.data[stack.rsp-1]?

/-- Every call of a run is made in such a state. -/
def RepeatsAlong : List (Op α) → FiniteStack α elemCount → Prop
  | [], _ => True
  | op::ops, stack => Repeats stack op ∧ ∀ p ∈ step stack op, RepeatsAlong ops p.2

end Runs

/-- The slots below the count hold the list from its end on. -/
structure Refines {α : Type*} {elemCount : ℕ} (stack : FiniteStack α elemCount)
    (l : Lifo α (elemCount-1)) : Prop where
  count : stack.rsp = l.elems.length
  slots : stack.data.toList.take stack.rsp = l.elems.reverse

section Refinement

variable {α : Type*} {elemCount : ℕ} {stack : FiniteStack α elemCount} {l : Lifo α (elemCount-1)}

theorem refines_empty (data : Vector α elemCount) : Refines ⟨0, data⟩ (Lifo.empty) :=
  ⟨rfl, List.take_zero⟩

theorem Refines.inside (h : Refines stack l) (hn : 2 ≤ elemCount) : stack.rsp < elemCount := by
  have := l.bound
  have := h.count
  omega

/-- Every slot that the count can point to is in the array. -/
theorem Refines.slot (h : Refines stack l) (hn : 2 ≤ elemCount) :
    ∃ v, stack.data[stack.rsp]? = some v :=
  ⟨_, Vector.getElem?_eq_getElem (h.inside hn)⟩

/-- The slot below the count holds the top element, and those below it the rest. -/
theorem Refines.below (h : Refines stack l) {x : α} {xs : List α} (hl : l.elems = x::xs) :
    stack.rsp = xs.length+1 ∧ stack.data[xs.length]? = some x ∧
      stack.data.toList.take xs.length = xs.reverse := by
  have hcount := h.count
  have hslots := h.slots
  rw [hl, List.length_cons] at hcount
  rw [hl, hcount, List.reverse_cons] at hslots
  have hlen : xs.reverse.length = xs.length := List.length_reverse
  refine ⟨hcount, ?_, ?_⟩
  · have hread := congrArg (·[xs.length]?) hslots
    simp only [List.getElem?_take_of_lt (Nat.lt_succ_self xs.length)] at hread
    rw [List.getElem?_append_right hlen.le, hlen, Nat.sub_self, List.getElem?_cons_zero] at hread
    rw [← hread, Vector.getElem?_toList]
  · have hcut := congrArg (List.take xs.length) hslots
    rw [List.take_take, Nat.min_eq_left (Nat.le_succ _), List.take_append_of_le_length hlen.ge,
      List.take_of_length_le hlen.le] at hcut
    exact hcut

theorem push_refines (h : Refines stack l) (hn : 2 ≤ elemCount) (data : α) :
    ∃ stack', push stack data = some stack' ∧ Refines stack' (l.step (.push data)) := by
  have hcount := h.count
  by_cases hfull : stack.rsp = elemCount-1
  · refine ⟨stack, if_pos hfull, ?_⟩
    rw [Lifo.step, dif_neg (by omega)]
    exact h
  · have hroom : l.elems.length < elemCount-1 := by
      have := l.bound
      omega
    have hin : stack.rsp < elemCount := h.inside hn
    refine ⟨⟨stack.rsp+1, stack.data.set stack.rsp data hin⟩, ?_, ?_, ?_⟩
    · rw [push, if_neg hfull, dif_pos hin]
    · rw [Lifo.step, dif_pos hroom, List.length_cons, ← hcount]
    · have hlen : stack.rsp < stack.data.toList.length := by rwa [Vector.length_toList]
      rw [Lifo.step, dif_pos hroom, List.reverse_cons, ← h.slots]
      dsimp only
      rw [Vector.toList_set, List.take_add_one, List.getElem?_set_self hlen, List.take_set_of_le le_rfl]
      rfl

/-- The element that comes off is the one in the slot above the top element. -/
theorem pop_refines [Zero α] (h : Refines stack l) (hn : 2 ≤ elemCount) :
    ∃ v stack', pop stack = some (v, stack') ∧ Refines stack' (l.step .pop) ∧
      (v = l.elems.headD 0 ↔ Repeats stack .pop) := by
  cases hl : l.elems with
  | nil =>
    have hzero : stack.rsp = 0 := by rw [h.count, hl, List.length_nil]
    refine ⟨0, stack, if_pos hzero, ⟨?_, ?_⟩, fun _ hne => absurd hzero hne, fun _ => rfl⟩
    · rw [hzero, Lifo.step_pop_elems, hl, List.tail_nil, List.length_nil]
    · rw [hzero, Lifo.step_pop_elems, hl, List.tail_nil, List.take_zero, List.reverse_nil]
  | cons x xs =>
    obtain ⟨hcount, htop, hrest⟩ := h.below hl
    obtain ⟨v, hv⟩ := h.slot hn
    have hne : stack.rsp ≠ 0 := by omega
    have hless : stack.rsp-1 = xs.length := by omega
    refine ⟨v, { stack with rsp := xs.length }, ?_, ⟨?_, ?_⟩, ?_⟩
    · rw [hcount] at hv
      simp only [pop, if_neg hne, hless, hv, Option.map_some]
    · rw [Lifo.step_pop_elems, hl, List.tail_cons]
    · rw [Lifo.step_pop_elems, hl, List.tail_cons]
      exact hrest
    · rw [Repeats, hless, hv, htop, Option.some_inj, List.headD_cons]
      exact ⟨fun heq _ => heq, fun heq => heq hne⟩

theorem top_refines [Zero α] (h : Refines stack l) (hn : 2 ≤ elemCount) :
    ∃ v, top stack = some v ∧
      ((l.elems ≠ [] → some v = l.elems.head?) ↔ Repeats stack .top) := by
  obtain ⟨v, hv⟩ := h.slot hn
  refine ⟨v, hv, ?_⟩
  cases hl : l.elems with
  | nil =>
    have hzero : stack.rsp = 0 := by rw [h.count, hl, List.length_nil]
    exact ⟨fun _ hne => absurd hzero hne, fun _ hne => absurd rfl hne⟩
  | cons x xs =>
    obtain ⟨hcount, htop, -⟩ := h.below hl
    have hless : stack.rsp-1 = xs.length := by omega
    rw [Repeats, hless, hv, htop, List.head?_cons]
    exact ⟨fun heq _ => heq (List.cons_ne_nil x xs), fun heq _ => heq (by omega)⟩

/-- One call keeps the refinement whatever it returns, and it returns what the list expects if
and only if the slot above the top element repeats it. -/
theorem step_refines [Zero α] (h : Refines stack l) (hn : 2 ≤ elemCount) (op : Op α) :
    ∃ r stack', step stack op = some (r, stack') ∧ Refines stack' (l.step op) ∧
      (l.Expects op r ↔ Repeats stack op) := by
  cases op with
  | push data =>
    obtain ⟨stack', hpush, href⟩ := push_refines h hn data
    exact ⟨none, stack', by rw [step, hpush, Option.map_some], href, fun _ => trivial,
      fun _ => rfl⟩
  | pop =>
    obtain ⟨v, stack', hpop, href, hiff⟩ := pop_refines h hn
    refine ⟨some v, stack', by rw [step, hpop, Option.map_some], href, ?_⟩
    rw [Lifo.Expects, Option.some_inj]
    exact hiff
  | top =>
    obtain ⟨v, htop, hiff⟩ := top_refines h hn
    exact ⟨some v, stack, by rw [step, htop, Option.map_some], h, hiff⟩

theorem agrees_iff [Zero α] (hn : 2 ≤ elemCount) (ops : List (Op α))
    (h : Refines stack l) : Agrees ops stack l ↔ RepeatsAlong ops stack := by
  induction ops generalizing stack l with
  | nil => exact Iff.rfl
  | cons op ops ih =>
    obtain ⟨r, stack', hstep, href, hiff⟩ := step_refines h hn op
    rw [Agrees, RepeatsAlong, hstep]
    constructor
    · rintro ⟨r₁, stack₁, heq, hexp, hrest⟩
      obtain ⟨rfl, rfl⟩ := Prod.mk.inj (Option.some.inj heq)
      refine ⟨hiff.mp hexp, ?_⟩
      rintro p hp
      rw [← Option.some.inj hp]
      exact (ih href).mp hrest
    · rintro ⟨hrep, hrest⟩
      exact ⟨r, stack', rfl, hiff.mpr hrep, (ih href).mpr (hrest _ rfl)⟩

end Refinement

/-- Over any memory and any sequence of calls the finite stack returns what a bounded list returns
if and only if each `pop` and each `top` of a stack with an element is called while the slot above
the top element holds the same value. -/
theorem finite_stack_iff {α : Type*} [Zero α] (elemCount : ℕ) (hn : 2 ≤ elemCount)
    (data : Vector α elemCount) (ops : List (Op α)) :
    Agrees ops ⟨0, data⟩ Lifo.empty ↔ RepeatsAlong ops ⟨0, data⟩ :=
  agrees_iff hn ops (refines_empty data)

/-- Two slots that held a three before; the second `push` finds the stack full. -/
theorem finite_stack_repeated :
    Agrees [.pop, .push 3, .push 4, .top, .pop] (⟨0, #v[3, 3]⟩ : FiniteStack ℕ 2) Lifo.empty :=
  (finite_stack_iff 2 (by decide) #v[3, 3] _).mpr
    (by simp [RepeatsAlong, Repeats, step, push, pop, top])

/-- What was pushed into zeroed memory does not come back. -/
theorem finite_stack_loses :
    ¬ Agrees [.push 5, .pop] (⟨0, #v[0, 0]⟩ : FiniteStack ℕ 2) Lifo.empty := by
  rw [agrees_iff (by decide) _ (refines_empty _)]
  rintro ⟨-, hnext⟩
  have hpop := (hnext (none, ⟨1, #v[5, 0]⟩) rfl).1
  simp [Repeats] at hpop


end BruhOS.Ds
