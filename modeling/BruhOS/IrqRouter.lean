import BruhOS.PagingMachine
import Mathlib.Tactic

/-!
# The interrupt router and the MADT

`init_irqRouter` walks the records of the MADT twice. The first pass applies
the interrupt source overrides, the second reads the version register of each
I/O APIC, enters its inputs in the table of global system interrupts and masks
them. The number of inputs is added to a counter that starts at one and is not
reset between the APICs, and the loop over the inputs has an 8-bit counter.

The table has 256 entries and the index is not checked: a write past its end
and a loop that cannot end are outcomes of the model. Writes to the registers
of an APIC are recorded in order.
-/

set_option autoImplicit false

namespace BruhOS.IrqRouter

open BruhOS.Paging (virt)

structure Mapped where
  intVec : ℕ
  delivMode : ℕ
  destmode : ℕ
  polarity : Bool
  trigger : Bool
  masked : Bool
  irq : ℕ
  apicID : ℕ
  apicInputIdx : ℕ
  dest : ℕ
  deriving DecidableEq, Repr

def Mapped.zero : Mapped := ⟨0, 0, 0, false, false, false, 0, 0, 0, 0⟩

/-- The router, and the registers written: the address of an APIC, an index and a value. -/
structure Router where
  re : ℕ → Mapped
  activeIRQs : ℕ
  activeAPICs : ℕ
  ioapics : ℕ → ℕ × ℕ
  writes : List (ℕ × ℕ × ℕ)

inductive Fault
  | diverges
  | outOfBounds
  deriving DecidableEq, Repr

/-- Byte `i` behind a pointer into the table. -/
def byte (table : List ℕ) (i : ℕ) : ℕ := table.getD i 0

def word (table : List ℕ) (i : ℕ) : ℕ := byte table i+byte table (i+1)*2^8

def dword (table : List ℕ) (i : ℕ) : ℕ := word table i+word table (i+2)*2^16

/-- The pointers that a pass visits; each record is followed by the next after `length` bytes. -/
def records : ℕ → List ℕ → List (List ℕ)
  | 0, _ => []
  | n+1, table => if table = [] then [] else table :: records n (table.drop (byte table 1))

/-- The type and fields of a record that the passes read. -/
structure Override where
  irqSrc : ℕ
  gsi : ℕ
  flags : ℕ
  deriving DecidableEq, Repr

structure IOApic where
  ioApicId : ℕ
  address : ℕ
  gsiBase : ℕ
  deriving DecidableEq, Repr

def override? (table : List ℕ) : Option Override :=
  if byte table 0 = 2 then some ⟨byte table 3, dword table 4, word table 8⟩ else none

def ioapic? (table : List ℕ) : Option IOApic :=
  if byte table 0 = 1 then some ⟨byte table 2, dword table 4, dword table 8⟩ else none

def Override.polarity (o : Override) : Bool := o.flags &&& 0x3 == 0x3

def Override.trigger (o : Override) : Bool := (o.flags >>> 2) &&& 0x3 == 0x3

def initialRouter : Router :=
  { re := fun i => if i < 16 then { Mapped.zero with irq := i, masked := true } else Mapped.zero
    activeIRQs := 0
    activeAPICs := 0
    ioapics := fun _ => (0, 0)
    writes := [] }

def applyOverride (r : Router) (o : Override) : Except Fault Router :=
  if o.gsi < 256 then
    .ok { r with
      re := Function.update r.re o.gsi
        { r.re o.gsi with irq := o.irqSrc, polarity := o.polarity, trigger := o.trigger } }
  else .error .outOfBounds

def overridePass : List (List ℕ) → Router → Except Fault Router
  | [], r => .ok r
  | table::tables, r =>
    match override? table with
    | some o => (applyOverride r o).bind (overridePass tables)
    | none => overridePass tables r

/-- `IOREDTBL_OFFSET_LOW(i)`, passed as an 8-bit register index. -/
def redirectLow (i : ℕ) : ℕ := (0x10+2*i) % 2^8

/-- The loop over the inputs of an APIC from `i` on. -/
def inputLoop (a : IOApic) (addr : ℕ) : ℕ → ℕ → Router → Except Fault Router
  | 0, _, r => .ok r
  | n+1, i, r =>
    if a.gsiBase+i < 256 then
      inputLoop a addr n (i+1)
        { r with
          re := Function.update r.re (a.gsiBase+i)
            { r.re (a.gsiBase+i) with apicID := a.ioApicId, apicInputIdx := i }
          writes := r.writes++[(addr, redirectLow i, 1 <<< 16)] }
    else .error .outOfBounds

/-- An 8-bit counter never reaches 256. -/
def inputs (a : IOApic) (addr irqs : ℕ) (r : Router) : Except Fault Router :=
  if irqs < 256 then inputLoop a addr irqs 0 r else .error .diverges

section Pass

variable (off : ℕ) (version : ℕ → ℕ)

/-- The maximum redirection entry in the version register of an APIC. -/
def maxEntry (a : IOApic) : ℕ := version (virt off a.address) >>> 16 % 2^8

def apicPass : List (List ℕ) → ℕ → Router → Except Fault Router
  | [], _, r => .ok r
  | table::tables, irqs, r =>
    match ioapic? table with
    | some a =>
      let irqs := irqs+maxEntry off version a
      (inputs a (virt off a.address) irqs r).bind (fun r =>
        apicPass tables irqs
          { r with
            ioapics := Function.update r.ioapics r.activeAPICs (a.ioApicId, virt off a.address)
            activeAPICs := (r.activeAPICs+1) % 2^8
            activeIRQs := (r.activeIRQs+irqs) % 2^8 })
    | none => apicPass tables irqs r

def initIrqRouter (table : List ℕ) : Except Fault Router :=
  (overridePass (records table.length table) initialRouter).bind
    (apicPass off version (records table.length table) 1)

end Pass

section Records

/-- The records of a well-formed table: each states its own length, and those that are read
are long enough. -/
structure WellFormed (rs : List (List ℕ)) : Prop where
  length : ∀ r ∈ rs, byte r 1 = r.length
  header : ∀ r ∈ rs, 2 ≤ r.length
  ioapic : ∀ r ∈ rs, byte r 0 = 1 → 12 ≤ r.length
  override : ∀ r ∈ rs, byte r 0 = 2 → 10 ≤ r.length

def overrides (rs : List (List ℕ)) : List Override := rs.filterMap override?

def apics (rs : List (List ℕ)) : List IOApic := rs.filterMap ioapic?

theorem byte_append {r : List ℕ} (t : List ℕ) {i : ℕ} (h : i < r.length) :
    byte (r++t) i = byte r i := by
  simp only [byte, List.getD_eq_getElem?_getD, List.getElem?_append_left h]

/-- A pass visits each record once, in order, with the rest of the table behind it. -/
theorem records_flatten (rs : List (List ℕ)) (h : WellFormed rs) (n : ℕ) (hn : rs.length ≤ n) :
    (records n rs.flatten).map override? = rs.map override? ∧
    (records n rs.flatten).map ioapic? = rs.map ioapic? := by
  induction rs generalizing n with
  | nil =>
    cases n with
    | zero => exact ⟨rfl, rfl⟩
    | succ n => exact ⟨rfl, rfl⟩
  | cons r rs ih =>
    obtain ⟨n, rfl⟩ : ∃ k, n = k+1 := ⟨n-1, by simp at hn; omega⟩
    have hr : r ∈ r::rs := List.mem_cons_self
    have hlen := h.header r hr
    have hne : (r::rs).flatten ≠ [] := by
      intro hnil
      rw [List.flatten_cons] at hnil
      rw [(List.append_eq_nil_iff.mp hnil).1] at hlen
      simp at hlen
    have hnext : ((r::rs).flatten).drop (byte (r::rs).flatten 1) = rs.flatten := by
      rw [List.flatten_cons, byte_append _ (by omega), h.length r hr, List.drop_left]
    have hrest := ih ⟨fun x hx => h.length x (List.mem_cons_of_mem _ hx),
      fun x hx => h.header x (List.mem_cons_of_mem _ hx),
      fun x hx => h.ioapic x (List.mem_cons_of_mem _ hx),
      fun x hx => h.override x (List.mem_cons_of_mem _ hx)⟩ n (by simpa using hn)
    rw [records, if_neg hne, hnext, List.map_cons, List.map_cons, List.map_cons, List.map_cons,
      hrest.1, hrest.2, List.flatten_cons]
    have htype : byte (r++rs.flatten) 0 = byte r 0 := byte_append _ (by omega)
    constructor
    · congr 1
      unfold override?
      rw [htype]
      by_cases h2 : byte r 0 = 2
      · have := h.override r hr h2
        simp only [if_pos h2, dword, word]
        repeat rw [byte_append _ (by omega)]
      · rw [if_neg h2, if_neg h2]
    · congr 1
      unfold ioapic?
      rw [htype]
      by_cases h1 : byte r 0 = 1
      · have := h.ioapic r hr h1
        simp only [if_pos h1, dword, word]
        repeat rw [byte_append _ (by omega)]
      · rw [if_neg h1, if_neg h1]

theorem records_overrides (rs : List (List ℕ)) (h : WellFormed rs) :
    (records rs.flatten.length rs.flatten).filterMap override? = overrides rs ∧
    (records rs.flatten.length rs.flatten).filterMap ioapic? = apics rs := by
  have hlen : rs.length ≤ rs.flatten.length := by
    have hwf := h.header
    clear h
    induction rs with
    | nil => exact le_refl _
    | cons r rs ih =>
      have h1 := hwf r List.mem_cons_self
      have h2 := ih (fun x hx => hwf x (List.mem_cons_of_mem _ hx))
      rw [List.flatten_cons, List.length_append, List.length_cons]
      omega
  obtain ⟨h1, h2⟩ := records_flatten rs h _ hlen
  have hmap : ∀ {β : Type} (f : List ℕ → Option β) (l : List (List ℕ)),
      l.filterMap f = (l.map f).filterMap id := by
    intro β f l
    rw [List.filterMap_map]
    rfl
  exact ⟨by rw [hmap, h1, overrides, hmap override? rs], by rw [hmap, h2, apics, hmap ioapic? rs]⟩

end Records

section Overrides

/-- The first pass over the overrides alone. -/
def applyOverrides : List Override → Router → Except Fault Router
  | [], r => .ok r
  | o::os, r => (applyOverride r o).bind (applyOverrides os)

theorem overridePass_eq (tables : List (List ℕ)) (r : Router) :
    overridePass tables r = applyOverrides (tables.filterMap override?) r := by
  induction tables generalizing r with
  | nil => rfl
  | cons t ts ih =>
    rw [overridePass]
    cases ht : override? t with
    | none =>
      rw [List.filterMap_cons_none ht]
      exact ih r
    | some o =>
      rw [List.filterMap_cons_some ht, applyOverrides]
      show (applyOverride r o).bind (overridePass ts) = _
      cases applyOverride r o with
      | error e => rfl
      | ok r' => exact ih r'

/-- What an entry of the table carries of an override. -/
def Carries (e : Mapped) (o : Override) : Prop :=
  e.irq = o.irqSrc ∧ e.polarity = o.polarity ∧ e.trigger = o.trigger

/-- The last override for an interrupt is the one its entry carries; nothing else is written. -/
theorem applyOverrides_spec (os : List Override) (r : Router) (h : ∀ o ∈ os, o.gsi < 256) :
    ∃ re, applyOverrides os r = .ok { r with re := re } ∧
      ∀ g, (∃ o ∈ os, o.gsi = g ∧ Carries (re g) o) ∨ ((∀ o ∈ os, o.gsi ≠ g) ∧ re g = r.re g) := by
  induction os generalizing r with
  | nil => exact ⟨r.re, rfl, fun g => Or.inr ⟨by simp, rfl⟩⟩
  | cons o os ih =>
    have ho := h o List.mem_cons_self
    obtain ⟨re, hre, hcarry⟩ := ih _ (fun x hx => h x (List.mem_cons_of_mem _ hx))
    refine ⟨re, ?_, fun g => ?_⟩
    · rw [applyOverrides, applyOverride, if_pos ho]
      exact hre
    · rcases hcarry g with ⟨x, hx, hg, hc⟩ | ⟨hnone, hsame⟩
      · exact Or.inl ⟨x, List.mem_cons_of_mem _ hx, hg, hc⟩
      · by_cases hg : o.gsi = g
        · left
          refine ⟨o, List.mem_cons_self, hg, ?_⟩
          rw [hsame, ← hg]
          simp [Carries]
        · right
          constructor
          · intro x hx
            rcases List.mem_cons.mp hx with rfl | hx
            · exact hg
            · exact hnone x hx
          · rw [hsame]
            exact Function.update_of_ne (Ne.symm hg) _ _

end Overrides

section Inputs

/-- The effect of `n` passes of the loop over the inputs, from input `i` on. -/
def recordInputs (a : IOApic) (addr n i : ℕ) (r : Router) : Router :=
  { r with
    re := fun g => if a.gsiBase+i ≤ g ∧ g < a.gsiBase+i+n then
      { r.re g with apicID := a.ioApicId, apicInputIdx := g-a.gsiBase } else r.re g
    writes := r.writes++(List.range' i n).map (fun k => (addr, redirectLow k, 1 <<< 16)) }

theorem recordInputs_succ (a : IOApic) (addr n i : ℕ) (r : Router) :
    recordInputs a addr n (i+1)
      { r with
        re := Function.update r.re (a.gsiBase+i)
          { r.re (a.gsiBase+i) with apicID := a.ioApicId, apicInputIdx := i }
        writes := r.writes++[(addr, redirectLow i, 1 <<< 16)] } = recordInputs a addr (n+1) i r := by
  simp only [recordInputs, Router.mk.injEq, List.range'_succ, List.map_cons, List.append_assoc,
    List.singleton_append, and_true]
  funext g
  by_cases hg : g = a.gsiBase+i
  · rw [if_neg (by omega), if_pos (by omega), hg, Function.update_self, Nat.add_sub_cancel_left]
  · rw [Function.update_of_ne hg]
    by_cases hin : a.gsiBase+(i+1) ≤ g ∧ g < a.gsiBase+(i+1)+n
    · rw [if_pos hin, if_pos (by omega)]
    · rw [if_neg hin, if_neg (by omega)]

theorem recordInputs_zero (a : IOApic) (addr i : ℕ) (r : Router) :
    recordInputs a addr 0 i r = r := by
  have hre : (fun g => if a.gsiBase+i ≤ g ∧ g < a.gsiBase+i+0 then
      { r.re g with apicID := a.ioApicId, apicInputIdx := g-a.gsiBase } else r.re g) = r.re := by
    funext g
    rw [if_neg (by omega)]
  rw [recordInputs, hre, List.range'_zero, List.map_nil, List.append_nil]

theorem inputLoop_eq (a : IOApic) (addr n i : ℕ) (r : Router) :
    inputLoop a addr n i r = if n = 0 ∨ a.gsiBase+i+n ≤ 256 then .ok (recordInputs a addr n i r)
      else .error .outOfBounds := by
  induction n generalizing i r with
  | zero =>
    rw [if_pos (Or.inl rfl), inputLoop, recordInputs_zero]
  | succ n ih =>
    rw [inputLoop]
    by_cases hfit : a.gsiBase+i+(n+1) ≤ 256
    · rw [if_pos (by omega), ih, if_pos (by omega), if_pos (Or.inr hfit), recordInputs_succ]
    · rw [if_neg (show ¬ (n+1 = 0 ∨ a.gsiBase+i+(n+1) ≤ 256) by omega)]
      by_cases hlt : a.gsiBase+i < 256
      · rw [if_pos hlt, ih, if_neg (by omega)]
      · rw [if_neg hlt]

end Inputs

section Apics

variable (off : ℕ) (version : ℕ → ℕ)

/-- The effect of an APIC with `irqs` inputs counted so far. -/
def recordApic (a : IOApic) (irqs : ℕ) (r : Router) : Router :=
  let r := recordInputs a (virt off a.address) irqs 0 r
  { r with
    ioapics := Function.update r.ioapics r.activeAPICs (a.ioApicId, virt off a.address)
    activeAPICs := (r.activeAPICs+1) % 2^8
    activeIRQs := (r.activeIRQs+irqs) % 2^8 }

def recordApics : List IOApic → ℕ → Router → Router
  | [], _, r => r
  | a::as, irqs, r => recordApics as (irqs+maxEntry off version a)
      (recordApic off a (irqs+maxEntry off version a) r)

/-- No loop runs forever or leaves the table. -/
def Fits : List IOApic → ℕ → Prop
  | [], _ => True
  | a::as, irqs => irqs+maxEntry off version a < 256 ∧
      (irqs+maxEntry off version a = 0 ∨ a.gsiBase+(irqs+maxEntry off version a) ≤ 256) ∧
      Fits as (irqs+maxEntry off version a)

variable {off version}

theorem apicPass_fits (tables : List (List ℕ)) (irqs : ℕ) (r : Router)
    (h : Fits off version (tables.filterMap ioapic?) irqs) :
    apicPass off version tables irqs r =
      .ok (recordApics off version (tables.filterMap ioapic?) irqs r) := by
  induction tables generalizing irqs r with
  | nil => rfl
  | cons t ts ih =>
    rw [apicPass]
    cases ht : ioapic? t with
    | none =>
      rw [List.filterMap_cons_none ht] at h ⊢
      exact ih irqs r h
    | some a =>
      rw [List.filterMap_cons_some ht] at h ⊢
      obtain ⟨h1, h2, h3⟩ := h
      simp only [inputs, if_pos h1, inputLoop_eq, Nat.add_zero, if_pos h2]
      exact ih _ _ h3

theorem apicPass_ok (tables : List (List ℕ)) (irqs : ℕ) (r r' : Router)
    (h : apicPass off version tables irqs r = .ok r') :
    r' = recordApics off version (tables.filterMap ioapic?) irqs r := by
  induction tables generalizing irqs r with
  | nil =>
    injection h with h
    exact h.symm
  | cons t ts ih =>
    rw [apicPass] at h
    cases ht : ioapic? t with
    | none =>
      rw [ht] at h
      rw [List.filterMap_cons_none ht]
      exact ih irqs r h
    | some a =>
      rw [ht] at h
      rw [List.filterMap_cons_some ht]
      simp only [inputs, inputLoop_eq, Nat.add_zero] at h
      split at h
      · split at h
        · exact ih _ _ h
        · cases h
      · cases h

theorem recordApics_carries (as : List IOApic) (irqs : ℕ) (r : Router) (g : ℕ) (o : Override) :
    Carries ((recordApics off version as irqs r).re g) o ↔ Carries (r.re g) o := by
  induction as generalizing irqs r with
  | nil => rfl
  | cons a as ih =>
    rw [recordApics, ih]
    simp only [recordApic, recordInputs, Carries]
    split <;> rfl

theorem recordApics_writes (as : List IOApic) (irqs : ℕ) (r : Router) (x : ℕ × ℕ × ℕ) :
    x ∈ (recordApics off version as irqs r).writes ↔ x ∈ r.writes ∨
      ∃ pre a post, as = pre++a::post ∧
        ∃ i < irqs+(pre.map (maxEntry off version)).sum+maxEntry off version a,
          x = (virt off a.address, redirectLow i, 1 <<< 16) := by
  induction as generalizing irqs r with
  | nil => simp [recordApics]
  | cons a as ih =>
    rw [recordApics, ih]
    have hwrites : x ∈ (recordApic off a (irqs+maxEntry off version a) r).writes ↔
        x ∈ r.writes ∨ ∃ i < irqs+maxEntry off version a,
          x = (virt off a.address, redirectLow i, 1 <<< 16) := by
      simp only [recordApic, recordInputs, List.mem_append, List.mem_map, List.mem_range'_1,
        Nat.zero_le, true_and, Nat.zero_add, eq_comm]
    rw [hwrites]
    constructor
    · rintro ((h | ⟨i, hi, hx⟩) | ⟨pre, b, post, rfl, i, hi, hx⟩)
      · exact Or.inl h
      · exact Or.inr ⟨[], a, as, rfl, i, by simpa using hi, hx⟩
      · refine Or.inr ⟨a::pre, b, post, rfl, i, ?_, hx⟩
        rw [List.map_cons, List.sum_cons]
        omega
    · rintro (h | ⟨pre, b, post, heq, i, hi, hx⟩)
      · exact Or.inl (Or.inl h)
      · cases pre with
        | nil =>
          obtain ⟨rfl, rfl⟩ := List.cons.inj heq
          exact Or.inl (Or.inr ⟨i, by simpa using hi, hx⟩)
        | cons c pre =>
          obtain ⟨rfl, rfl⟩ := List.cons.inj heq
          rw [List.map_cons, List.sum_cons] at hi
          exact Or.inr ⟨pre, b, post, rfl, i, by omega, hx⟩

/-- All inputs but those of the last APIC are single, so that the counter is right. -/
def SingleButLast (off : ℕ) (version : ℕ → ℕ) (as : List IOApic) : Prop :=
  ∀ a ∈ as.dropLast, maxEntry off version a = 0

theorem SingleButLast.cases {a : IOApic} {as : List IOApic}
    (h : SingleButLast off version (a::as)) :
    (as = [] ∨ maxEntry off version a = 0) ∧ SingleButLast off version as := by
  cases as with
  | nil => exact ⟨Or.inl rfl, by simp [SingleButLast]⟩
  | cons b as =>
    constructor
    · exact Or.inr (h a (by simp))
    · intro c hc
      exact h c (by
        rw [List.dropLast_cons_of_ne_nil (by simp)]
        exact List.mem_cons_of_mem _ hc)

/-- The counter starts at one for every APIC. -/
theorem recordApics_single {a : IOApic} {as : List IOApic}
    (h : SingleButLast off version (a::as)) (r : Router) :
    recordApics off version (a::as) 1 r =
      recordApics off version as 1 (recordApic off a (1+maxEntry off version a) r) := by
  rw [recordApics]
  rcases h.cases.1 with rfl | h0
  · rfl
  · rw [h0]

theorem SingleButLast.sum_before {as pre post : List IOApic} {a : IOApic}
    (h : SingleButLast off version as) (hsplit : as = pre++a::post) :
    (pre.map (maxEntry off version)).sum = 0 := by
  rw [List.sum_eq_zero_iff]
  intro x hx
  obtain ⟨b, hb, rfl⟩ := List.mem_map.mp hx
  apply h b
  rw [hsplit, List.dropLast_append_of_ne_nil (by simp)]
  exact List.mem_append_left _ hb

theorem SingleButLast.sum_le {as : List IOApic} (h : SingleButLast off version as)
    (hm : ∀ a ∈ as, maxEntry off version a ≤ 119) :
    (as.map (fun a => maxEntry off version a+1)).sum ≤ as.length+119 := by
  induction as with
  | nil => simp
  | cons a as ih =>
    have h1 := hm a List.mem_cons_self
    have hrest := ih h.cases.2 (fun x hx => hm x (List.mem_cons_of_mem _ hx))
    rw [List.map_cons, List.sum_cons, List.length_cons]
    rcases h.cases.1 with rfl | h0
    · simp only [List.map_nil, List.sum_nil, List.length_nil] at hrest ⊢
      omega
    · omega

theorem fits_single (as : List IOApic) (h : SingleButLast off version as)
    (hm : ∀ a ∈ as, maxEntry off version a ≤ 119)
    (hb : ∀ a ∈ as, a.gsiBase+maxEntry off version a < 256) : Fits off version as 1 := by
  induction as with
  | nil => trivial
  | cons a as ih =>
    have h1 := hm a List.mem_cons_self
    have h2 := hb a List.mem_cons_self
    have hrest := ih h.cases.2 (fun x hx => hm x (List.mem_cons_of_mem _ hx))
      (fun x hx => hb x (List.mem_cons_of_mem _ hx))
    refine ⟨by omega, by omega, ?_⟩
    rcases h.cases.1 with rfl | h0
    · trivial
    · rw [h0]
      exact hrest

theorem recordApics_counts (as : List IOApic) (h : SingleButLast off version as) (r : Router)
    (h1 : r.activeAPICs < 2^8) (h2 : r.activeIRQs < 2^8) :
    (recordApics off version as 1 r).activeAPICs = (r.activeAPICs+as.length) % 2^8 ∧
    (recordApics off version as 1 r).activeIRQs =
      (r.activeIRQs+(as.map (fun a => maxEntry off version a+1)).sum) % 2^8 := by
  induction as generalizing r with
  | nil =>
    simp only [recordApics, List.length_nil, List.map_nil, List.sum_nil, Nat.add_zero]
    exact ⟨(Nat.mod_eq_of_lt h1).symm, (Nat.mod_eq_of_lt h2).symm⟩
  | cons a as ih =>
    rw [recordApics_single h]
    obtain ⟨h3, h4⟩ := ih h.cases.2 (recordApic off a (1+maxEntry off version a) r)
      (Nat.mod_lt _ (by decide)) (Nat.mod_lt _ (by decide))
    rw [h3, h4, List.map_cons, List.sum_cons, List.length_cons]
    simp only [recordApic, recordInputs]
    constructor <;> omega

/-- Entries in no range stay, and those in the range of an APIC name it. -/
theorem recordApics_inputs (as : List IOApic) (h : SingleButLast off version as)
    (hd : as.Pairwise (fun a b => a.gsiBase+maxEntry off version a < b.gsiBase ∨
      b.gsiBase+maxEntry off version b < a.gsiBase)) (r : Router) (g : ℕ) :
    ((∀ a ∈ as, ¬ (a.gsiBase ≤ g ∧ g ≤ a.gsiBase+maxEntry off version a)) →
      (recordApics off version as 1 r).re g = r.re g) ∧
    ∀ a ∈ as, a.gsiBase ≤ g → g ≤ a.gsiBase+maxEntry off version a →
      ((recordApics off version as 1 r).re g).apicID = a.ioApicId ∧
      ((recordApics off version as 1 r).re g).apicInputIdx = g-a.gsiBase := by
  induction as generalizing r with
  | nil => exact ⟨fun _ => rfl, fun a ha => by cases ha⟩
  | cons a as ih =>
    rw [List.pairwise_cons] at hd
    obtain ⟨hout, hin⟩ := ih h.cases.2 hd.2 (recordApic off a (1+maxEntry off version a) r)
    rw [recordApics_single h]
    constructor
    · intro hall
      have ha := hall a List.mem_cons_self
      rw [hout (fun b hb => hall b (List.mem_cons_of_mem _ hb))]
      simp only [recordApic, recordInputs]
      rw [if_neg (by omega)]
    · intro b hb h1 h2
      rcases List.mem_cons.mp hb with rfl | hb
      · rw [hout (fun c hc => by have := hd.1 c hc; omega)]
        simp only [recordApic, recordInputs]
        rw [if_pos (by omega)]
        exact ⟨rfl, rfl⟩
      · exact hin b hb h1 h2

end Apics

section Result

variable (off : ℕ) (version : ℕ → ℕ)

/-- The router records the table: inputs, masks, counts and overrides. -/
structure RecordsMadt (rs : List (List ℕ)) (r : Router) : Prop where
  inputs : ∀ a ∈ apics rs, ∀ g, a.gsiBase ≤ g → g ≤ a.gsiBase+maxEntry off version a →
    (r.re g).apicID = a.ioApicId ∧ (r.re g).apicInputIdx = g-a.gsiBase
  masked : ∀ a ∈ apics rs, ∀ reg v, (virt off a.address, reg, v) ∈ r.writes ↔
    ∃ i ≤ maxEntry off version a, reg = 0x10+2*i ∧ v = 1 <<< 16
  activeAPICs : r.activeAPICs = (apics rs).length
  activeIRQs : r.activeIRQs = ((apics rs).map (fun a => maxEntry off version a+1)).sum
  overrides : ∀ o ∈ overrides rs, Carries (r.re o.gsi) o

/-- Every APIC but the last has one entry, none has more than 120, and overrides of one
interrupt agree. -/
structure RouterMeets (rs : List (List ℕ)) : Prop where
  single : SingleButLast off version (apics rs)
  reach : ∀ a ∈ apics rs, maxEntry off version a ≤ 119
  agree : ∀ o ∈ overrides rs, ∀ p ∈ overrides rs, o.gsi = p.gsi →
    o.irqSrc = p.irqSrc ∧ o.polarity = p.polarity ∧ o.trigger = p.trigger

variable {off version}

theorem mem_dropLast_split {α : Type} {l : List α} {x : α} (h : x ∈ l.dropLast) :
    ∃ pre y, l = pre++[y] ∧ x ∈ pre := by
  cases hl : l.getLast? with
  | none =>
    rw [List.getLast?_eq_none_iff] at hl
    rw [hl] at h
    cases h
  | some y =>
    obtain ⟨pre, rfl⟩ := List.getLast?_eq_some_iff.mp hl
    rw [List.dropLast_concat] at h
    exact ⟨pre, y, rfl, h⟩

/-- The masks alone show that the counter was right for every APIC. -/
theorem meets_of_records {rs : List (List ℕ)} {r : Router}
    (h : RecordsMadt off version rs (recordApics off version (apics rs) 1 r))
    (hw : r.writes = []) : RouterMeets off version rs := by
  have hreach : ∀ a ∈ apics rs, maxEntry off version a ≤ 119 := by
    intro a ha
    have hlast := (h.masked a ha (0x10+2*maxEntry off version a) (1 <<< 16)).mpr
      ⟨maxEntry off version a, le_refl _, rfl, rfl⟩
    rw [recordApics_writes, hw] at hlast
    rcases hlast with hlast | ⟨pre, b, post, -, i, -, hx⟩
    · cases hlast
    · have hreg : 0x10+2*maxEntry off version a = redirectLow i := congrArg (fun x => x.2.1) hx
      have := Nat.mod_lt (0x10+2*i) (show 0 < 2^8 by decide)
      unfold redirectLow at hreg
      omega
  constructor
  · intro a ha
    obtain ⟨pre, y, hsplit, hpre⟩ := mem_dropLast_split ha
    have hy : y ∈ apics rs := by
      rw [hsplit]
      exact List.mem_append_right _ (List.mem_singleton.mpr rfl)
    have hyreach := hreach y hy
    -- with a larger counter the entry behind the last one of `y` would be written
    have hsum : (pre.map (maxEntry off version)).sum = 0 := by
      by_contra hne
      have hover : (virt off y.address, redirectLow (maxEntry off version y+1), 1 <<< 16) ∈
          (recordApics off version (apics rs) 1 r).writes := by
        rw [recordApics_writes]
        exact Or.inr ⟨pre, y, [], hsplit, _, by omega, rfl⟩
      obtain ⟨j, hj, hreg, -⟩ := (h.masked y hy _ _).mp hover
      unfold redirectLow at hreg
      omega
    exact List.sum_eq_zero_iff.mp hsum _ (List.mem_map_of_mem hpre)
  · exact hreach
  · intro o ho p hp hgsi
    have h1 := h.overrides o ho
    have h2 := h.overrides p hp
    rw [← hgsi] at h2
    exact ⟨h1.1.symm.trans h2.1, h1.2.1.symm.trans h2.2.1, h1.2.2.symm.trans h2.2.2⟩

theorem records_of_meets {rs : List (List ℕ)} {r : Router} (h : RouterMeets off version rs)
    (hcount : (apics rs).length ≤ 4)
    (hd : (apics rs).Pairwise (fun a b => a.gsiBase+maxEntry off version a < b.gsiBase ∨
      b.gsiBase+maxEntry off version b < a.gsiBase))
    (hw : r.writes = []) (h0 : r.activeAPICs = 0 ∧ r.activeIRQs = 0)
    (hr : ∀ o ∈ overrides rs, ∃ p ∈ overrides rs, p.gsi = o.gsi ∧ Carries (r.re o.gsi) p) :
    RecordsMadt off version rs (recordApics off version (apics rs) 1 r) := by
  obtain ⟨hapics, hirqs⟩ := recordApics_counts (apics rs) h.single r (by rw [h0.1]; decide)
    (by rw [h0.2]; decide)
  constructor
  · intro a ha g h1 h2
    exact (recordApics_inputs (apics rs) h.single hd r g).2 a ha h1 h2
  · intro a ha reg v
    have hreach := h.reach a ha
    rw [recordApics_writes, hw]
    constructor
    · rintro (hnil | ⟨pre, b, post, hsplit, i, hi, hx⟩)
      · cases hnil
      · rw [h.single.sum_before hsplit] at hi
        have haddr : virt off a.address = virt off b.address := congrArg Prod.fst hx
        have hsame : maxEntry off version b = maxEntry off version a := by
          rw [maxEntry, maxEntry, haddr]
        have hreg : reg = redirectLow i := congrArg (fun x => x.2.1) hx
        refine ⟨i, by omega, ?_, congrArg (fun x => x.2.2) hx⟩
        unfold redirectLow at hreg
        omega
    · rintro ⟨i, hi, rfl, rfl⟩
      obtain ⟨pre, post, hsplit⟩ := List.append_of_mem ha
      refine Or.inr ⟨pre, a, post, hsplit, i, by omega, ?_⟩
      have hlow : redirectLow i = 0x10+2*i := by
        unfold redirectLow
        omega
      rw [hlow]
  · rw [hapics, h0.1]
    omega
  · have hsum := h.single.sum_le h.reach
    rw [hirqs, h0.2]
    omega
  · intro o ho
    rw [recordApics_carries]
    obtain ⟨p, hp, hgsi, hcarry⟩ := hr o ho
    obtain ⟨h1, h2, h3⟩ := h.agree p hp o ho hgsi
    exact ⟨hcarry.1.trans h1, hcarry.2.1.trans h2, hcarry.2.2.trans h3⟩

end Result

/-- The router records a well-formed MADT exactly when every I/O APIC but the last has a single
redirection entry, none has more than 120, and overrides of the same interrupt agree. -/
theorem router_records_iff (off : ℕ) (version : ℕ → ℕ) (rs : List (List ℕ)) (hwf : WellFormed rs)
    (hgsi : ∀ o ∈ overrides rs, o.gsi < 256)
    (hcount : 1 ≤ (apics rs).length ∧ (apics rs).length ≤ 4)
    (hbelow : ∀ a ∈ apics rs, a.gsiBase+maxEntry off version a < 256)
    (hd : (apics rs).Pairwise (fun a b => a.gsiBase+maxEntry off version a < b.gsiBase ∨
      b.gsiBase+maxEntry off version b < a.gsiBase)) :
    (∃ r, initIrqRouter off version rs.flatten = .ok r ∧ RecordsMadt off version rs r) ↔
      RouterMeets off version rs := by
  obtain ⟨ho, ha⟩ := records_overrides rs hwf
  obtain ⟨re, hre, hcarry⟩ := applyOverrides_spec (overrides rs) initialRouter hgsi
  have hinit : initIrqRouter off version rs.flatten =
      apicPass off version (records rs.flatten.length rs.flatten) 1 { initialRouter with re := re } := by
    rw [initIrqRouter, overridePass_eq, ho, hre]
    rfl
  rw [hinit]
  constructor
  · rintro ⟨r, hr, hrec⟩
    have heq := apicPass_ok _ _ _ _ hr
    rw [ha] at heq
    rw [heq] at hrec
    exact meets_of_records hrec rfl
  · intro hm
    refine ⟨_, apicPass_fits _ _ _ (by rw [ha]; exact fits_single _ hm.single hm.reach hbelow), ?_⟩
    rw [ha]
    refine records_of_meets hm hcount.2 hd rfl ⟨rfl, rfl⟩ (fun o ho' => ?_)
    rcases hcarry o.gsi with hp | ⟨hnone, -⟩
    · exact hp
    · exact absurd rfl (hnone o ho')

section Small

/-- Two I/O APICs of 24 entries each. -/
def twoApics : List (List ℕ) :=
  [[1, 12, 7, 0, 0, 0, 0xc0, 0xfe, 0, 0, 0, 0], [1, 12, 8, 0, 0, 0x10, 0xc0, 0xfe, 24, 0, 0, 0]]

def version24 : ℕ → ℕ := fun _ => 0x170020

/-- The second APIC is taken to have 47 entries: 23 masks too many and a wrong count. -/
theorem router_miscounts :
    WellFormed twoApics ∧ overrides twoApics = [] ∧ (apics twoApics).length = 2 ∧
    ((apics twoApics).map (maxEntry 0 version24)) = [23, 23] ∧
    ¬ ∃ r, initIrqRouter 0 version24 twoApics.flatten = .ok r ∧ RecordsMadt 0 version24 twoApics r := by
  refine ⟨⟨by decide, by decide, by decide, by decide⟩, by decide, by decide, by decide, ?_⟩
  rintro ⟨r, hr, hrec⟩
  have hcount : (initIrqRouter 0 version24 twoApics.flatten).map (fun r => r.activeIRQs) = .ok 71 := by
    decide +kernel
  rw [hr] at hcount
  have h71 : r.activeIRQs = 71 := Except.ok.inj hcount
  rw [hrec.activeIRQs] at h71
  revert h71
  decide

/-- One APIC of 24 entries and an override of the timer. -/
def oneApic : List (List ℕ) :=
  [[1, 12, 7, 0, 0, 0, 0xc0, 0xfe, 0, 0, 0, 0], [2, 10, 0, 0, 2, 0, 0, 0, 0, 0]]

theorem router_records_one :
    ∃ r, initIrqRouter 0 version24 oneApic.flatten = .ok r ∧ RecordsMadt 0 version24 oneApic r :=
  (router_records_iff 0 version24 oneApic ⟨by decide, by decide, by decide, by decide⟩
    (by decide) (by decide) (by decide) (by decide)).mpr
      ⟨show ∀ a ∈ (apics oneApic).dropLast, maxEntry 0 version24 a = 0 by decide, by decide,
        by decide⟩

end Small

end BruhOS.IrqRouter
