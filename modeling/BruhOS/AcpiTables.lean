import BruhOS.PagingMachine
import Mathlib.Algebra.BigOperators.Group.List.Basic
import Mathlib.Data.BitVec
import Mathlib.Order.Bounds.Basic
import Mathlib.Tactic

/-!
# The ACPI tables

`init_acpi` looks for two tables among the entries of the XSDT. The last entry
with a signature counts, and its table is checked byte by byte before anything
in it is used. The number of entries has 32 bits and the counter of the loop has
eight.
-/

set_option autoImplicit false

namespace BruhOS.AcpiTables

open BruhOS.Paging (virt)

abbrev Memory := ℕ → BitVec 8

def dword (m : Memory) (a : ℕ) : ℕ :=
  (m a).toNat+(m (a+1)).toNat*2^8+(m (a+2)).toNat*2^16+(m (a+3)).toNat*2^24

def qword (m : Memory) (a : ℕ) : ℕ := dword m a+dword m (a+4)*2^32

/-- `memcmp` runs down from the last byte; what is left of `size` plus one when it ends. -/
def memcmpLoop (a b : ℕ → BitVec 8) : ℕ → ℕ
  | 0 => 0
  | size+1 => if a size = b size then memcmpLoop a b size else size+1

def memcmp (a b : ℕ → BitVec 8) (size : ℕ) : Bool := memcmpLoop a b size != 0

def madtSig (i : ℕ) : BitVec 8 := [0x41, 0x50, 0x49, 0x43].getD i 0

def hpetSig (i : ℕ) : BitVec 8 := [0x48, 0x50, 0x45, 0x54].getD i 0

/-- The `length` of a table header. -/
def hdrLength (m : Memory) (hdr : ℕ) : ℕ := dword m (hdr+4)

/-- The remaining passes, the index and the sum. -/
def checksumLoop (m : Memory) (hdr : ℕ) : ℕ → ℕ → BitVec 8 → BitVec 8
  | 0, _, sum => sum
  | n+1, i, sum => checksumLoop m hdr n (i+1) (sum+m (hdr+i))

def tableChecksum (m : Memory) (hdr : ℕ) : Bool :=
  checksumLoop m hdr (hdrLength m hdr) 0 0 == 0

inductive Failure
  | notImplemented
  | madtMissing
  | hpetMissing
  | madtInvalid
  | hpetInvalid
  deriving DecidableEq, Repr

def Failure.code : Failure → ℕ
  | .notImplemented => 18
  | .madtMissing => 4
  | .hpetMissing => 4
  | .madtInvalid => 5
  | .hpetInvalid => 5

def Failure.message : Failure → String
  | .notImplemented => "ACPI 1.0 and below isn't supported. Exiting...\n"
  | .madtMissing => "    ACPI MADT       Table Not Found."
  | .hpetMissing => "    ACPI HPET Timer Table Not Found."
  | .madtInvalid => "    ACPI MADT Table is invalid."
  | .hpetInvalid => "    ACPI HPET Table is invalid."

/-- The tables that the rest of the kernel is given, and the registers of the local APIC. -/
structure Found where
  madt : ℕ
  hpet : ℕ
  lapic : ℕ
  deriving DecidableEq, Repr

def noIndex : ℕ := 2^32-1

section Init

variable (off : ℕ) (m : Memory) (xsdt : ℕ)

def entries : ℕ := (hdrLength m xsdt+(2^64-36)) % 2^64 / 2^3 % 2^32

/-- The table of an entry, behind the offset of the kernel. -/
def table (i : ℕ) : ℕ := virt off (qword m (xsdt+36+8*i))

def signed (sig : ℕ → BitVec 8) (i : ℕ) : Bool :=
  !memcmp (fun b => m (table off m xsdt i+b)) sig 4

/-- `found * i + idxreg * !found`. -/
def select (found : Bool) (i idxreg : ℕ) : ℕ := found.toNat*i+idxreg*(!found).toNat

def scanLoop : ℕ → ℕ → ℕ → ℕ → Option (ℕ × ℕ)
  | 0, _, _, _ => none
  | fuel+1, i, idxreg0, idxreg1 =>
    if i < entries m xsdt then
      scanLoop fuel ((i+1) % 2^8) (select (signed off m xsdt madtSig i) i idxreg0)
        (select (signed off m xsdt hpetSig i) i idxreg1)
    else some (idxreg0, idxreg1)

/-- `none` is a scan that does not end. -/
def initAcpi (extended : Bool) (fuel : ℕ) : Option (Except Failure Found) :=
  if extended = false then some (.error .notImplemented)
  else
    (scanLoop off m xsdt fuel 0 noIndex noIndex).map fun (idxreg0, idxreg1) =>
      if idxreg0 = noIndex then .error .madtMissing
      else if idxreg1 = noIndex then .error .hpetMissing
      else
        let madt := table off m xsdt idxreg0
        let hpet := table off m xsdt idxreg1
        if tableChecksum m madt ≠ true then .error .madtInvalid
        else if tableChecksum m hpet ≠ true then .error .hpetInvalid
        else .ok ⟨madt, hpet, virt off (dword m (madt+36))⟩

end Init

/-- The bytes of a table add up to nothing. -/
def Valid (m : Memory) (hdr : ℕ) : Prop :=
  ((List.range (hdrLength m hdr)).map fun i => m (hdr+i)).sum = 0

/-- An entry has a table with the signature. -/
def Signed (off : ℕ) (m : Memory) (xsdt : ℕ) (sig : ℕ → BitVec 8) (i : ℕ) : Prop :=
  ∀ b < 4, m (table off m xsdt i+b) = sig b

section Bytes

variable {m : Memory} {hdr : ℕ}

theorem memcmpLoop_eq_zero {a b : ℕ → BitVec 8} (size : ℕ) :
    memcmpLoop a b size = 0 ↔ ∀ i < size, a i = b i := by
  induction size with
  | zero => simp [memcmpLoop]
  | succ size ih =>
    rw [memcmpLoop]
    split_ifs with h
    · rw [ih]
      constructor
      · intro hall i hi
        rcases Nat.lt_succ_iff_lt_or_eq.mp hi with hlt | rfl
        · exact hall i hlt
        · exact h
      · exact fun hall i hi => hall i (by omega)
    · simp only [false_iff, not_forall]
      exact ⟨size, by omega, h⟩

theorem signed_iff {off xsdt : ℕ} {sig : ℕ → BitVec 8} {i : ℕ} :
    signed off m xsdt sig i = true ↔ Signed off m xsdt sig i := by
  rw [signed, memcmp, Signed, ← memcmpLoop_eq_zero]
  simp

theorem checksumLoop_eq (n i : ℕ) (sum : BitVec 8) : checksumLoop m hdr n i sum =
    sum+((List.range' i n).map fun k => m (hdr+k)).sum := by
  induction n generalizing i sum with
  | zero => simp [checksumLoop]
  | succ n ih =>
    rw [checksumLoop, ih, List.range'_succ, List.map_cons, List.sum_cons, add_assoc]

theorem tableChecksum_iff : tableChecksum m hdr = true ↔ Valid m hdr := by
  rw [tableChecksum, checksumLoop_eq, Valid, List.range_eq_range', beq_iff_eq, zero_add]

end Bytes

section Scan

variable {P : ℕ → Prop} {i n old new : ℕ}

/-- The last index from `i` on, or the old one where there is none. -/
def Latest (P : ℕ → Prop) (i n old new : ℕ) : Prop :=
  IsGreatest {k | i ≤ k ∧ k < n ∧ P k} new ∨ (∀ k, i ≤ k → k < n → ¬ P k) ∧ new = old

theorem latest_end (h : n ≤ i) : Latest P i n old old :=
  .inr ⟨fun _ _ _ => by omega, rfl⟩

theorem latest_step [Decidable (P i)] (hi : i < n)
    (h : Latest P (i+1) n (if P i then i else old) new) : Latest P i n old new := by
  rcases h with ⟨⟨hle, hlt, hP⟩, hmax⟩ | ⟨hnone, hnew⟩
  · refine .inl ⟨⟨by omega, hlt, hP⟩, fun k hk => ?_⟩
    by_cases hki : k = i
    · omega
    · exact hmax ⟨by have := hk.1; omega, hk.2⟩
  · split_ifs at hnew with hP
    · subst hnew
      refine .inl ⟨⟨le_rfl, hi, hP⟩, fun k hk => ?_⟩
      by_contra hlt
      exact hnone k (by omega) hk.2.1 hk.2.2
    · refine .inr ⟨fun k hle hlt => ?_, hnew⟩
      by_cases hki : k = i
      · rwa [hki]
      · exact hnone k (by omega) hlt

theorem select_eq (found : Bool) (i idxreg : ℕ) :
    select found i idxreg = if found = true then i else idxreg := by
  cases found <;> simp [select]

variable {off : ℕ} {m : Memory} {xsdt : ℕ}

theorem scanLoop_latest (hn : entries m xsdt ≤ 255) (fuel i idxreg0 idxreg1 : ℕ) {j0 j1 : ℕ}
    (h : scanLoop off m xsdt fuel i idxreg0 idxreg1 = some (j0, j1)) :
    Latest (Signed off m xsdt madtSig) i (entries m xsdt) idxreg0 j0 ∧
      Latest (Signed off m xsdt hpetSig) i (entries m xsdt) idxreg1 j1 := by
  classical
  induction fuel generalizing i idxreg0 idxreg1 with
  | zero => cases h
  | succ fuel ih =>
    rw [scanLoop] at h
    split_ifs at h with hi
    · obtain ⟨h0, h1⟩ := ih _ _ _ h
      rw [show (i+1) % 2^8 = i+1 by omega] at h0 h1
      simp only [select_eq, signed_iff] at h0 h1
      exact ⟨latest_step hi h0, latest_step hi h1⟩
    · obtain ⟨rfl, rfl⟩ : idxreg0 = j0 ∧ idxreg1 = j1 := by simpa using h
      exact ⟨latest_end (by omega), latest_end (by omega)⟩

theorem scanLoop_ends (off : ℕ) (hn : entries m xsdt ≤ 255) (fuel i idxreg0 idxreg1 : ℕ)
    (hi : i ≤ entries m xsdt) (hfuel : entries m xsdt < i+fuel) :
    ∃ j0 j1, scanLoop off m xsdt fuel i idxreg0 idxreg1 = some (j0, j1) := by
  induction fuel generalizing i idxreg0 idxreg1 with
  | zero => omega
  | succ fuel ih =>
    rw [scanLoop]
    split_ifs with hlt
    · exact ih _ _ _ (by omega) (by omega)
    · exact ⟨_, _, rfl⟩

/-- The counter does not reach a larger number of entries. -/
theorem scanLoop_diverges (hn : 255 < entries m xsdt) (fuel i idxreg0 idxreg1 : ℕ) (hi : i < 256) :
    scanLoop off m xsdt fuel i idxreg0 idxreg1 = none := by
  induction fuel generalizing i idxreg0 idxreg1 with
  | zero => rfl
  | succ fuel ih =>
    rw [scanLoop, if_pos (by omega)]
    exact ih _ _ _ (Nat.mod_lt _ (by decide))

theorem latest_found (h : Latest P 0 n noIndex new) (hn : n ≤ 255) :
    new ≠ noIndex ↔ IsGreatest {k | k < n ∧ P k} new := by
  have hset : {k | 0 ≤ k ∧ k < n ∧ P k} = {k | k < n ∧ P k} := by simp
  rw [Latest, hset] at h
  rcases h with hgreatest | ⟨hnone, rfl⟩
  · have hlt := hgreatest.1.1
    exact ⟨fun _ => hgreatest, fun _ => by
      rw [noIndex]
      omega⟩
  · exact ⟨fun h => absurd rfl h, fun h => absurd h.1.2 (hnone _ (Nat.zero_le _) h.1.1)⟩

theorem latest_unique (h : Latest P 0 n old new) (hi : IsGreatest {k | k < n ∧ P k} i) :
    new = i := by
  rcases h with hgreatest | ⟨hnone, -⟩
  · simp only [Nat.zero_le, true_and] at hgreatest
    exact hgreatest.unique hi
  · exact absurd hi.1.2 (hnone i (Nat.zero_le _) hi.1.1)

theorem latest_exists (h : Latest P 0 n noIndex new) (hn : n ≤ 255) :
    (∃ i, IsGreatest {k | k < n ∧ P k} i) ↔ new ≠ noIndex := by
  rw [latest_found h hn]
  constructor
  · rintro ⟨i, hi⟩
    rwa [latest_unique h hi]
  · exact fun hnew => ⟨new, hnew⟩

/-- What the two indices make of the tables. -/
theorem initAcpi_ok {fuel : ℕ} {f : Found} :
    initAcpi off m xsdt true fuel = some (.ok f) ↔
      ∃ j0 j1, scanLoop off m xsdt fuel 0 noIndex noIndex = some (j0, j1) ∧ j0 ≠ noIndex ∧
        j1 ≠ noIndex ∧ Valid m (table off m xsdt j0) ∧ Valid m (table off m xsdt j1) ∧
        f = ⟨table off m xsdt j0, table off m xsdt j1,
          virt off (dword m (table off m xsdt j0+36))⟩ := by
  rw [initAcpi, if_neg (by decide)]
  constructor
  · intro h
    obtain ⟨⟨j0, j1⟩, hscan, h⟩ := Option.map_eq_some_iff.mp h
    simp only at h
    split_ifs at h with h0 h1 hmadt hhpet
    exact ⟨j0, j1, hscan, h0, h1, tableChecksum_iff.mp (not_not.mp hmadt),
      tableChecksum_iff.mp (not_not.mp hhpet), (Except.ok.inj h).symm⟩
  · rintro ⟨j0, j1, hscan, h0, h1, hmadt, hhpet, rfl⟩
    rw [← tableChecksum_iff] at hmadt hhpet
    simp [hscan, h0, h1, hmadt, hhpet]

end Scan

section Outcome

variable {off : ℕ} {m : Memory} {xsdt : ℕ}

theorem scan_indices (off : ℕ) (hn : entries m xsdt ≤ 255) {fuel : ℕ} (hfuel : 256 ≤ fuel) :
    ∃ j0 j1, scanLoop off m xsdt fuel 0 noIndex noIndex = some (j0, j1) ∧
      Latest (Signed off m xsdt madtSig) 0 (entries m xsdt) noIndex j0 ∧
      Latest (Signed off m xsdt hpetSig) 0 (entries m xsdt) noIndex j1 := by
  obtain ⟨j0, j1, hscan⟩ := scanLoop_ends off hn fuel 0 noIndex noIndex (Nat.zero_le _)
    (by omega)
  exact ⟨j0, j1, hscan, scanLoop_latest hn _ _ _ _ hscan⟩

/-- The last entry with a signature. -/
def Chosen (off : ℕ) (m : Memory) (xsdt : ℕ) (sig : ℕ → BitVec 8) (i : ℕ) : Prop :=
  IsGreatest {k | k < entries m xsdt ∧ Signed off m xsdt sig k} i

/-- What the search hands on. -/
def foundAt (off : ℕ) (m : Memory) (xsdt i j : ℕ) : Found :=
  ⟨table off m xsdt i, table off m xsdt j, virt off (dword m (table off m xsdt i+36))⟩

theorem found_iff {f : Found} : (∃ fuel, initAcpi off m xsdt true fuel = some (.ok f)) ↔
    entries m xsdt ≤ 255 ∧ ∃ i j, Chosen off m xsdt madtSig i ∧ Chosen off m xsdt hpetSig j ∧
      Valid m (table off m xsdt i) ∧ Valid m (table off m xsdt j) ∧ f = foundAt off m xsdt i j := by
  constructor
  · rintro ⟨fuel, h⟩
    obtain ⟨j0, j1, hscan, h0, h1, hrest⟩ := initAcpi_ok.mp h
    have hn : entries m xsdt ≤ 255 := by
      by_contra hlt
      rw [scanLoop_diverges (by omega) fuel 0 _ _ (by decide)] at hscan
      cases hscan
    obtain ⟨hlatest0, hlatest1⟩ := scanLoop_latest hn _ _ _ _ hscan
    exact ⟨hn, j0, j1, (latest_found hlatest0 hn).mp h0, (latest_found hlatest1 hn).mp h1, hrest⟩
  · rintro ⟨hn, i, j, hi, hj, hrest⟩
    obtain ⟨j0, j1, hscan, hlatest0, hlatest1⟩ := scan_indices off hn le_rfl
    obtain rfl := latest_unique hlatest0 hi
    obtain rfl := latest_unique hlatest1 hj
    exact ⟨256, initAcpi_ok.mpr ⟨j0, j1, hscan, (latest_found hlatest0 hn).mpr hi,
      (latest_found hlatest1 hn).mpr hj, hrest⟩⟩

end Outcome

/-- The search does not end on more than 255 entries. Otherwise the last entry with each signature
decides: the kernel stops with the first of the four complaints that applies, or goes on with the
two tables. -/
theorem acpi_outcome (off : ℕ) (m : Memory) (xsdt : ℕ) :
    (255 < entries m xsdt → ∀ fuel, initAcpi off m xsdt true fuel = none) ∧
    (entries m xsdt ≤ 255 → ∀ fuel, 256 ≤ fuel → ∃ r, initAcpi off m xsdt true fuel = some r ∧
      (r = .error .madtMissing ↔ ¬ ∃ i, Chosen off m xsdt madtSig i) ∧
      (r = .error .hpetMissing ↔
        (∃ i, Chosen off m xsdt madtSig i) ∧ ¬ ∃ j, Chosen off m xsdt hpetSig j) ∧
      ∀ i j, Chosen off m xsdt madtSig i → Chosen off m xsdt hpetSig j →
        (¬ Valid m (table off m xsdt i) → r = .error .madtInvalid) ∧
        (Valid m (table off m xsdt i) → ¬ Valid m (table off m xsdt j) →
          r = .error .hpetInvalid) ∧
        (Valid m (table off m xsdt i) → Valid m (table off m xsdt j) →
          r = .ok (foundAt off m xsdt i j))) := by
  constructor
  · intro hn fuel
    rw [initAcpi, if_neg (by decide), scanLoop_diverges hn fuel 0 _ _ (by decide), Option.map_none]
  · intro hn fuel hfuel
    obtain ⟨j0, j1, hscan, hlatest0, hlatest1⟩ := scan_indices off hn hfuel
    have hrun : ∀ r, (if j0 = noIndex then Except.error Failure.madtMissing
        else if j1 = noIndex then .error .hpetMissing
        else if tableChecksum m (table off m xsdt j0) ≠ true then .error .madtInvalid
        else if tableChecksum m (table off m xsdt j1) ≠ true then .error .hpetInvalid
        else .ok (foundAt off m xsdt j0 j1)) = r → initAcpi off m xsdt true fuel = some r := by
      rintro r rfl
      rw [initAcpi, if_neg (by decide), hscan]
      rfl
    have hmadt : (∃ i, Chosen off m xsdt madtSig i) ↔ j0 ≠ noIndex := latest_exists hlatest0 hn
    have hhpet : (∃ j, Chosen off m xsdt hpetSig j) ↔ j1 ≠ noIndex := latest_exists hlatest1 hn
    refine ⟨_, hrun _ rfl, ?_, ?_, fun i j hi hj => ?_⟩
    · rw [hmadt]
      split_ifs with h0 <;> simp [h0]
    · rw [hmadt, hhpet]
      by_cases h0 : j0 = noIndex
      · simp [h0]
      · by_cases h1 : j1 = noIndex
        · simp [h0, h1]
        · simp only [if_neg h0, if_neg h1]
          split_ifs <;> simp [h1]
    · obtain rfl := latest_unique hlatest0 hi
      obtain rfl := latest_unique hlatest1 hj
      have hne0 : j0 ≠ noIndex := (latest_found hlatest0 hn).mpr hi
      have hne1 : j1 ≠ noIndex := (latest_found hlatest1 hn).mpr hj
      rw [if_neg hne0, if_neg hne1, ← tableChecksum_iff, ← tableChecksum_iff]
      refine ⟨fun hbad => if_pos hbad, fun hgood hbad => ?_, fun hgood hgood' => ?_⟩
      · rw [if_neg (not_not.mpr hgood), if_pos hbad]
      · rw [if_neg (not_not.mpr hgood), if_neg (not_not.mpr hgood')]

section Corruption

variable {off xsdt : ℕ} {m : Memory} {x : ℕ} {v : BitVec 8}

/-- The bytes that decide which tables are chosen and how long they are. -/
def SearchReads (off : ℕ) (m : Memory) (xsdt : ℕ) : Set ℕ :=
  {x | xsdt+4 ≤ x ∧ x < xsdt+8 ∨ xsdt+36 ≤ x ∧ x < xsdt+36+8*entries m xsdt ∨
    ∃ k < entries m xsdt, table off m xsdt k ≤ x ∧ x < table off m xsdt k+8}

theorem dword_update {a : ℕ} (h : x < a ∨ a+4 ≤ x) : dword (Function.update m x v) a = dword m a := by
  simp only [dword, Function.update_of_ne (show a ≠ x by omega),
    Function.update_of_ne (show a+1 ≠ x by omega), Function.update_of_ne (show a+2 ≠ x by omega),
    Function.update_of_ne (show a+3 ≠ x by omega)]

theorem entries_update (hx : x ∉ SearchReads off m xsdt) :
    entries (Function.update m x v) xsdt = entries m xsdt := by
  have hlength : x < xsdt+4 ∨ xsdt+4+4 ≤ x := by
    by_contra hin
    exact hx (.inl (by omega))
  rw [entries, entries, hdrLength, hdrLength, dword_update hlength]

theorem table_update (hx : x ∉ SearchReads off m xsdt) {k : ℕ} (hk : k < entries m xsdt) :
    table off (Function.update m x v) xsdt k = table off m xsdt k := by
  have hentry : x < xsdt+36+8*k ∨ xsdt+36+8*k+8 ≤ x := by
    by_contra hin
    exact hx (.inr (.inl (by omega)))
  rw [table, table, qword, qword, dword_update (by omega), dword_update (by omega)]

theorem signed_update (hx : x ∉ SearchReads off m xsdt) (sig : ℕ → BitVec 8) :
    {k | k < entries m xsdt ∧ Signed off (Function.update m x v) xsdt sig k} =
      {k | k < entries m xsdt ∧ Signed off m xsdt sig k} := by
  ext k
  refine and_congr_right fun hk => ?_
  rw [Signed, Signed, table_update hx hk]
  refine forall₂_congr fun b hb => ?_
  have hne : table off m xsdt k+b ≠ x := by
    rintro rfl
    exact hx (.inr (.inr ⟨k, hk, by omega, by omega⟩))
  rw [Function.update_of_ne hne]

theorem sum_changed {f g : ℕ → BitVec 8} {n k : ℕ} (hk : k < n) (h : ∀ i, i ≠ k → g i = f i) :
    ((List.range n).map g).sum = ((List.range n).map f).sum+(g k-f k) := by
  induction n with
  | zero => omega
  | succ n ih =>
    simp only [List.range_succ, List.map_append, List.sum_append, List.map_singleton,
      List.sum_singleton]
    by_cases hkn : k = n
    · subst hkn
      have hsame : (List.range k).map g = (List.range k).map f := by
        apply List.map_congr_left
        intro i hi
        have hlt := List.mem_range.mp hi
        exact h i (by omega)
      rw [hsame]
      ring
    · rw [ih (by omega), h n (by omega)]
      ring

/-- One byte of a table is in its sum. -/
theorem valid_update {hdr : ℕ} (hle : hdr+8 ≤ x) (hlt : x < hdr+hdrLength m hdr) (hv : v ≠ m x)
    (h : Valid m hdr) : ¬ Valid (Function.update m x v) hdr := by
  have hlength : hdrLength (Function.update m x v) hdr = hdrLength m hdr :=
    dword_update (by omega)
  intro hvalid
  rw [Valid, hlength, sum_changed (f := fun i => m (hdr+i)) (k := x-hdr) (by omega), h] at hvalid
  · rw [show hdr+(x-hdr) = x by omega, Function.update_self, zero_add, sub_eq_zero] at hvalid
    exact hv hvalid
  · intro i hi
    exact Function.update_of_ne (by omega) _ _

end Corruption

/-- An XSDT at page 1 with a MADT at page 2 and an HPET table at page 3. -/
def smallTables : Memory := fun a =>
  if a = 0x1004 then 52
  else if a = 0x1025 then 0x20
  else if a = 0x102d then 0x30
  else if 0x2000 ≤ a ∧ a < 0x2004 then madtSig (a-0x2000)
  else if a = 0x2004 then 44
  else if a = 0x2009 then 0xb7
  else if 0x3000 ≤ a ∧ a < 0x3004 then hpetSig (a-0x3000)
  else if a = 0x3004 then 56
  else if a = 0x3009 then 0x97
  else 0

theorem smallTables_found :
    initAcpi 0 smallTables 0x1000 true 3 = some (.ok ⟨0x2000, 0x3000, 0⟩) := by decide +kernel

end BruhOS.AcpiTables
