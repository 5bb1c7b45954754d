import BruhOS.TableTree
import Mathlib.Data.Nat.Bitwise

/-!
# Four-level page tables of the kernel

A page table is 512 entries of 64 bits, found at a virtual pointer; an entry
holds flags and the 40-bit number of a physical page in its bits 12 to 51.
`map_vtop` walks the three upper levels, takes a zeroed page from the page
frame allocator wherever an entry is not present, and writes the leaf.
`unmapVirtual` follows the address fields of two entries and clears one
present bit. `vtopFlag`, `toVirtualFlag` and `unVirtual` repeat them page
by page.
-/

set_option autoImplicit false

namespace BruhOS.Paging

open BruhOS.TableTree

abbrev Index := Fin 512

abbrev Tables := Mem ℕ Index ℕ

/-- `VIRT`, on 64 bits. -/
def virt (off p : ℕ) : ℕ := (p+off) % 2^64

/-- `PHYS`, on 64 bits. -/
def phys (off v : ℕ) : ℕ := (v+(2^64-off % 2^64)) % 2^64

def present (e : ℕ) : Bool := e.testBit 0

def writeable (e : ℕ) : Bool := e.testBit 1

def userAccess (e : ℕ) : Bool := e.testBit 2

def pageSize (e : ℕ) : Bool := e.testBit 7

def noExec (e : ℕ) : Bool := e.testBit 63

/-- The bit field `address`. -/
def address (e : ℕ) : ℕ := e/2^12 % 2^40

/-- An assignment to the bit field `address`. -/
def setAddress (e a : ℕ) : ℕ := e % 2^12 + (a % 2^40)*2^12 + (e/2^52)*2^52

/-- An entry without its bit field `address`. -/
def flagBits (e : ℕ) : ℕ := e % 2^12 + (e/2^52)*2^52

/-- An assignment of false to the bit field `present`. -/
def clearPresent (e : ℕ) : ℕ := e/2*2

def sanitizeFlags (flags : ℕ) : ℕ := flags &&& 0x8000000000000f9f

/-- `indices[l]` of a virtual address. -/
def index (va l : ℕ) : Index := Fin.ofNat 512 (va >>> (12+9*l))

/-- The indices of the three upper levels, from the PML4 down. -/
def upper (va : ℕ) : List Index := [index va 3, index va 2, index va 1]

/-- The table that an entry names through its address field. -/
def target (off e : ℕ) : ℕ := virt off (address e*2^12)

/-- The table below a present entry. -/
def child (off e : ℕ) : Option ℕ := if present e then some (target off e) else none

/-- The table memory and the number of calls of `pfa_alloc_page` so far. -/
abbrev State := Heap ℕ Index ℕ

section Code

variable (off : ℕ) (pfaAllocPage : ℕ → ℕ)

/-- The entry that `map_vtop` writes for a new table. -/
def tableEntry (flags table : ℕ) : ℕ := setAddress flags (phys off table/2^12)

/-- The entry that `map_vtop` writes for the page. -/
def leafEntry (flags pa : ℕ) : ℕ := setAddress (sanitizeFlags flags) (pa/2^12)

/-- The loop of `map_vtop` over the three upper levels. -/
def mapLevels (flags va : ℕ) (table : ℕ) (s : State) : ℕ × State :=
  grow (child off) (tableEntry off flags) 0 (fun k => virt off (pfaAllocPage k)) (upper va) table s

def mapVtop (Table va pa flags : ℕ) (s : State) : State :=
  let r := mapLevels off pfaAllocPage (sanitizeFlags flags) va (virt off Table) s
  { r.2 with mem := write r.2.mem r.1 (index va 0) (leafEntry flags pa) }

/-- The loop of `vtopFlag` from page `i` on, `n` more pages. -/
def vtopLoop (Table v p flags : ℕ) : ℕ → ℕ → State → State
  | 0, _, s => s
  | n+1, i, s => vtopLoop Table v p flags n (i+1)
      (mapVtop off pfaAllocPage Table ((v+i*4096) % 2^64) ((p+i*4096) % 2^64) flags s)

def vtopFlag (Table v p pages flags : ℕ) (s : State) : State :=
  vtopLoop off pfaAllocPage Table v p flags pages 0 s

def toVirtualFlag (Table p pages flags : ℕ) (s : State) : State :=
  vtopLoop off pfaAllocPage Table (virt off p) p flags pages 0 s

/-- `&table->entry[i]` as a pointer. -/
def entryPtr (table : ℕ) (i : Index) : ℕ := (table+8*i.val) % 2^64

/-- The loop of `unmapVirtual`: the table in which it ends, none where it meets a null entry. -/
def unmapDescend (m : Tables) : List Index → ℕ → Index → Option ℕ
  | [], table, i => if entryPtr table i = 0 then none else some table
  | j::js, table, i =>
    if entryPtr table i = 0 then none else unmapDescend m js (target off (m table i)) j

def unmapVirtual (Table va : ℕ) (m : Tables) : Tables :=
  match unmapDescend off m [index va 2, index va 1] (virt off Table) (index va 3) with
  | none => m
  | some table => write m table (index va 0) (clearPresent (m table (index va 0)))

/-- The loop of `unVirtual` from page `i` on, `n` more pages. -/
def unLoop (Table v : ℕ) : ℕ → ℕ → Tables → Tables
  | 0, _, m => m
  | n+1, i, m => unLoop Table v n (i+1) (unmapVirtual off Table ((v+i*4096) % 2^64) m)

def unVirtual (Table v pages : ℕ) (m : Tables) : Tables := unLoop off Table v pages 0 m

end Code

/-- The walk of a virtual address through the present bits and the address fields. -/
def walk (off : ℕ) (m : Tables) (Table va : ℕ) : Option ℕ :=
  (leaf (child off) m (virt off Table) (upper va) (index va 0)).filter present

/-- The same 4 KiB page of the 48-bit address space. -/
def SamePage (a b : ℕ) : Prop := a/4096 % 2^36 = b/4096 % 2^36

instance (a b : ℕ) : Decidable (SamePage a b) := inferInstanceAs (Decidable (_ = _))

section Words

theorem phys_virt (off p : ℕ) (hp : p < 2^64) : phys off (virt off p) = p := by
  simp only [virt, phys]
  omega

theorem virt_injective {off p q : ℕ} (hp : p < 2^64) (hq : q < 2^64)
    (h : virt off p = virt off q) : p = q := by
  rw [← phys_virt off p hp, ← phys_virt off q hq, h]

theorem address_setAddress (e a : ℕ) : address (setAddress e a) = a % 2^40 := by
  simp only [address, setAddress]
  omega

theorem flagBits_setAddress (e a : ℕ) : flagBits (setAddress e a) = flagBits e := by
  simp only [flagBits, setAddress]
  omega

theorem testBit_flagBits_low (e b : ℕ) (hb : b < 52) :
    (flagBits e).testBit b = (e % 2^12).testBit b := by
  have hsum : flagBits e = 2^52*(e/2^52)+e % 2^12 := by
    simp only [flagBits]
    omega
  rw [hsum, Nat.testBit_two_pow_mul_add _ (by omega), if_pos hb]

theorem testBit_flagBits (e b : ℕ) (hb : b < 12 ∨ 52 ≤ b) :
    (flagBits e).testBit b = e.testBit b := by
  rcases hb with hb | hb
  · rw [testBit_flagBits_low e b (by omega), Nat.testBit_mod_two_pow, decide_eq_true hb,
      Bool.true_and]
  · have hhigh : flagBits e/2^52 = e/2^52 := by
      simp only [flagBits]
      omega
    have hb' : b = b-52+52 := by omega
    rw [hb', ← Nat.testBit_div_two_pow, ← Nat.testBit_div_two_pow, hhigh]

theorem testBit_setAddress (e a b : ℕ) (hb : b < 12 ∨ 52 ≤ b) :
    (setAddress e a).testBit b = e.testBit b := by
  rw [← testBit_flagBits _ b hb, flagBits_setAddress, testBit_flagBits _ b hb]

theorem testBit_sanitizeFlags (flags b : ℕ) (hb : (0x8000000000000f9f : ℕ).testBit b = true) :
    (sanitizeFlags flags).testBit b = flags.testBit b := by
  rw [sanitizeFlags, Nat.testBit_and, hb, Bool.and_true]

theorem mask_middle (b : ℕ) (h1 : 12 ≤ b) (h2 : b < 52) :
    (0x8000000000000f9f : ℕ).testBit b = false := by
  have hsum : (0x8000000000000f9f : ℕ) = 2^52*2048+0xf9f := rfl
  rw [hsum, Nat.testBit_two_pow_mul_add _ (by decide), if_pos h2]
  apply Nat.testBit_lt_two_pow
  calc 0xf9f < 2^12 := by decide
    _ ≤ 2^b := Nat.pow_le_pow_right (by decide) h1

theorem flagBits_sanitizeFlags (flags : ℕ) :
    flagBits (sanitizeFlags flags) = sanitizeFlags flags := by
  apply Nat.eq_of_testBit_eq
  intro b
  by_cases hb : b < 12 ∨ 52 ≤ b
  · exact testBit_flagBits _ b hb
  · rw [testBit_flagBits_low _ b (by omega), Nat.testBit_mod_two_pow, decide_eq_false (by omega),
      Bool.false_and, sanitizeFlags, Nat.testBit_and, mask_middle b (by omega) (by omega),
      Bool.and_false]

end Words

end BruhOS.Paging
