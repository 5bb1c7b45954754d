import BruhOS.BuddyRuns
import BruhOS.BuddySafety

/-!
# The three encodings of a block

A block is an offset in the tree, a level with an index, and an address. All
conversions between them go through the integer logarithm. With the documented
logarithm they are inverse to each other; the logarithm of the library is
larger by one on every word, and with it each level is wrong.
-/

set_option autoImplicit false

namespace BruhOS.NodeCodec
open BruhOS.BlockTree BruhOS.StdMath BruhOS.BuddyMachine BruhOS.BuddyOperations
open BruhOS.BuddyRuns BruhOS.BuddySafety BruhOS.BuddyLists

/-- `log` is the floor of the binary logarithm at `x`. -/
def FloorLog (log : ℕ → ℕ) (x : ℕ) : Prop := 2^log x ≤ x ∧ x < 2^(log x+1)

instance (log : ℕ → ℕ) (x : ℕ) : Decidable (FloorLog log x) := inferInstanceAs (Decidable (_ ∧ _))

/-- The level of an offset, and the way back from its address. -/
def OffsetCoded (B : Build) (s : BuddyAllocator) (o : ℕ) : Prop :=
  (levelStart (B.getLevel o) ≤ o ∧ o ≤ levelEnd (B.getLevel o)) ∧
  freeOffset B s (getAddress B s o) (B.getLevel o) = o

/-- The level of a request as `alloc_pages` and `pfa_free` compute it, before it is narrowed. -/
def requestedLevel (B : Build) (count : ℕ) : ℤ := (B.depth : ℤ)-B.log2ui (pageCount count)

/-- `BLOCK_SIZE` at a level that may be negative. -/
def blockSizeAt (B : Build) (l : ℤ) : ℕ := 2^((B.depth : ℤ)+12-l).toNat

def CountCoded (B : Build) (count : ℕ) : Prop :=
  (0 ≤ requestedLevel B count ∧ requestedLevel B count ≤ B.depth) ∧
  blockSizeAt B (requestedLevel B count) = round2 count*4096

instance (B : Build) (count : ℕ) : Decidable (CountCoded B count) :=
  inferInstanceAs (Decidable (_ ∧ _))

section Contract

variable {B : Build}

theorem offsetCoded_of_contract (hlog : Log2Contract B.log2ui) {s : BuddyAllocator}
    (hs : s.start < 2^64) (ha : s.start%2^(B.depth+12) = 0) {o : ℕ} (ho : level o ≤ B.depth) :
    OffsetCoded B s o := by
  rw [OffsetCoded, getLevel_eq B hlog ho]
  exact ⟨(level_range_iff o _).mp rfl, freeOffset_eq ho (block_address hlog hs ha rfl ho)⟩

/-- The block size at the level that a logarithm too large by `e` leads to. -/
theorem blockSizeAt_request {log2ui : ℕ → ℕ} {count e : ℕ} (h1 : 1 ≤ count) (h2 : count ≤ 2^16)
    (he : log2ui (pageCount count) = Nat.clog 2 count+e) :
    blockSizeAt (buddy log2ui) (requestedLevel (buddy log2ui) count) =
      round2 count*4096*2^e := by
  obtain ⟨-, hr, hc⟩ := pageCount_of_le h1 h2
  have hexp : (((buddy log2ui).depth : ℤ)+12-requestedLevel (buddy log2ui) count).toNat =
      Nat.clog 2 count+12+e := by
    have hd : (buddy log2ui).depth = 16 := rfl
    have hl : (buddy log2ui).log2ui (pageCount count) = Nat.clog 2 count+e := he
    rw [requestedLevel, hl, hd]
    omega
  rw [blockSizeAt, hexp, hr, show 4096 = 2^12 by rfl, ← pow_add, ← pow_add]

theorem countCoded_of_contract {log2ui : ℕ → ℕ} (hlog : Log2Contract log2ui) {count : ℕ}
    (h1 : 1 ≤ count) (h2 : count ≤ 2^16) : CountCoded (buddy log2ui) count := by
  obtain ⟨hp, -, hc⟩ := pageCount_of_le h1 h2
  have hlt : 2^Nat.clog 2 count < 2^32 := Nat.pow_lt_pow_right (by decide) (by omega)
  have hl : log2ui (pageCount count) = Nat.clog 2 count+0 := by
    rw [hp, hlog _ (by positivity) hlt, Nat.log2_two_pow, Nat.add_zero]
  refine ⟨?_, by rw [blockSizeAt_request h1 h2 hl, pow_zero, Nat.mul_one]⟩
  have hl' : (buddy log2ui).log2ui (pageCount count) = Nat.clog 2 count+0 := hl
  have hd : (buddy log2ui).depth = 16 := rfl
  rw [requestedLevel, hl', hd]
  omega

end Contract

section Library

theorem not_floorLog_succ {log : ℕ → ℕ} {x : ℕ} (h : log x = Nat.log2 x+1) :
    ¬ FloorLog log x := by
  rintro ⟨hle, -⟩
  rw [h] at hle
  have := Nat.lt_log2_self (n := x)
  omega

theorem getLevel_succ {o : ℕ} (ho : level o ≤ 16) : (buddy log2ui).getLevel o = level o+1 := by
  have hs := offset_small (buddy log2ui) ho
  have harg : (1+o)%2^32 = o+1 := by omega
  rw [Build.getLevel, harg]
  show log2ui (o+1)%2^8 = level o+1
  rw [log2ui_eq (o+1) (by omega) (by omega)]
  unfold level at ho ⊢
  omega

/-- The index is then negative and wraps, and `free_pages` would undo the wrap: the two errors
cancel in the offset, though not in the level. -/
theorem freeOffset_wrapped {s : BuddyAllocator} (hs : s.start+2^59 ≤ 2^64) {o : ℕ}
    (ho : level o ≤ 16) :
    freeOffset (buddy log2ui) s (getAddress (buddy log2ui) s o) ((buddy log2ui).getLevel o) = o := by
  obtain ⟨hlo, hhi⟩ := level_bounds o
  have hsmall := offset_small (buddy log2ui) ho
  have hpow : 2^(level o+1) ≤ 2^17 := Nat.pow_le_pow_right (by decide) (by omega)
  have hidx : getIndex o (level o+1) = 2^32+(o+1)-2^(level o+1) := by
    rw [getIndex]
    omega
  have hsize : (buddy log2ui).blockSize (level o+1) = 2^(12+(buddy log2ui).depth-(level o+1)) := by
    rw [Build.blockSize, Nat.add_comm (buddy log2ui).depth 12]
  have hle : 2^(12+(buddy log2ui).depth-(level o+1)) ≤ 2^27 :=
    Nat.pow_le_pow_right (by decide) (by show 12+16-(level o+1) ≤ 27; omega)
  have hbytes : (2^32+(o+1)-2^(level o+1))*2^(12+(buddy log2ui).depth-(level o+1)) < 2^59 := by
    calc (2^32+(o+1)-2^(level o+1))*2^(12+(buddy log2ui).depth-(level o+1))
        ≤ (2^32+(o+1)-2^(level o+1))*2^27 := Nat.mul_le_mul_left _ hle
      _ < 2^59 := by omega
  have haddr : (s.start+(2^32+(o+1)-2^(level o+1))*2^(12+(buddy log2ui).depth-(level o+1)))%2^64 =
      s.start+(2^32+(o+1)-2^(level o+1))*2^(12+(buddy log2ui).depth-(level o+1)) :=
    Nat.mod_eq_of_lt (by omega)
  rw [getLevel_succ ho, freeOffset, getAddress, getLevel_succ ho, hidx, hsize, haddr,
    Nat.add_sub_cancel_left, Nat.mul_div_cancel _ (by positivity), levelStart]
  omega

theorem not_offsetCoded (s : BuddyAllocator) {o : ℕ} (ho : level o ≤ 16) :
    ¬ OffsetCoded (buddy log2ui) s o := by
  rintro ⟨⟨hle, -⟩, -⟩
  have hb := (level_bounds o).2
  rw [getLevel_succ ho, levelStart] at hle
  omega

theorem not_countCoded {count : ℕ} (h1 : 1 ≤ count) (h2 : count ≤ 2^16) :
    ¬ CountCoded (buddy log2ui) count := by
  rintro ⟨-, hsize⟩
  obtain ⟨hp, hr, hc⟩ := pageCount_of_le h1 h2
  have hlt : 2^Nat.clog 2 count < 2^32 := Nat.pow_lt_pow_right (by decide) (by omega)
  have hl : log2ui (pageCount count) = Nat.clog 2 count+1 := by
    rw [hp, log2ui_eq _ (by positivity) hlt, Nat.log2_two_pow]
  rw [blockSizeAt_request h1 h2 hl, pow_one] at hsize
  have hpos : 0 < round2 count := by
    rw [hr]
    positivity
  omega

end Library

/-- With the logarithm of the library no word has its logarithm, no offset its level and no
request its block size. -/
theorem codec_never_holds (s : BuddyAllocator) :
    (∀ x, 0 < x → x < 2^32 → ¬ FloorLog log2ui x) ∧
    (∀ x, 0 < x → x < 2^64 → ¬ FloorLog log2ul x) ∧
    (∀ o < nodes 16, ¬ OffsetCoded (buddy log2ui) s o) ∧
    (∀ count, 1 ≤ count → count ≤ 65536 → ¬ CountCoded (buddy log2ui) count) := by
  refine ⟨?_, ?_, ?_, ?_⟩
  · intro x h0 h
    exact not_floorLog_succ (log2ui_eq x h0 h)
  · intro x h0 h
    exact not_floorLog_succ (log2ul_eq x h0 h)
  · intro o ho
    exact not_offsetCoded s ((lt_nodes_iff 16 o).mp ho)
  · intro count h1 h2
    exact not_countCoded h1 h2

theorem codec_never_holds_one :
    ¬ FloorLog log2ui 1 ∧ ¬ FloorLog log2ul 1 ∧ ¬ OffsetCoded (buddy log2ui) zeroMemory 0 ∧
      ¬ CountCoded (buddy log2ui) 1 := by
  obtain ⟨h1, h2, h3, h4⟩ := codec_never_holds zeroMemory
  exact ⟨h1 1 (by decide) (by decide), h2 1 (by decide) (by decide), h3 0 (by decide),
    h4 1 (by decide) (by decide)⟩

/-- The root is taken for a node of level 1, and a request for all pages for level -1. -/
theorem codec_fails :
    log2ui 1 = 1 ∧ ¬ FloorLog log2ui 1 ∧ log2ul 1 = 1 ∧ ¬ FloorLog log2ul 1 ∧
    (buddy log2ui).getLevel 0 = 1 ∧ ¬ OffsetCoded (buddy log2ui) zeroMemory 0 ∧
    requestedLevel (buddy log2ui) 65536 = -1 ∧ ¬ CountCoded (buddy log2ui) 65536 := by
  refine ⟨by decide, by decide, by decide, by decide, by decide, ?_, by decide, by decide⟩
  rintro ⟨⟨h, -⟩, -⟩
  exact absurd h (by decide)

end BruhOS.NodeCodec
