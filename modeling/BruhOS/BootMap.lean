import BruhOS.CountedLoop
import BruhOS.PagingMachine

/-!
# The memory map of the bootloader

The firmware's descriptors lie in a buffer, `entry_size` bytes apart. The
bootloader gives each of them a virtual address, takes the largest usable
region for its page tables, and before it jumps to the kernel splits that
descriptor in place: the later ones move one entry to the right, and the size
of the map is adjusted. The kernel decodes `used_size / entry_size` entries.

Memory holds a descriptor at each byte address. Descriptors of the buffer
do not overlap when `entry_size` is at least their size of 40 bytes.
-/

set_option autoImplicit false

namespace BruhOS.Boot

open BruhOS.Paging

structure Descriptor where
  memtype : ℕ
  pad : ℕ
  physAddr : ℕ
  virtAddr : ℕ
  pages : ℕ
  attrib : ℕ
  deriving DecidableEq, Repr

structure MemoryMap where
  mmap : ℕ
  usedSize : ℕ
  mapSize : ℕ
  entrySize : ℕ
  deriving DecidableEq, Repr

abbrev Memory := ℕ → Descriptor

def sizeofDescriptor : ℕ := 40

def bootServicesCode : ℕ := 3
def bootServicesData : ℕ := 4
def runtimeServicesCode : ℕ := 5
def runtimeServicesData : ℕ := 6
def conventional : ℕ := 7

/-- `BOOT_PAGING_MEM_TYPE`. -/
def bootPaging : ℕ := 0x80AAAAAA

/-- `__KERNEL_HEADER_MEMMAP_ENTRY_AT`. -/
def entryAt (map : MemoryMap) (i : ℕ) : ℕ := map.mmap+i*map.entrySize

def MemoryMap.count (map : MemoryMap) : ℕ := map.usedSize/map.entrySize

/-- The descriptors that a reader of the buffer at `base` finds. -/
def decode (map : MemoryMap) (base : ℕ) (mem : Memory) : List Descriptor :=
  (List.range map.count).map (fun i => mem (base+i*map.entrySize))

def fixVirtualAddress (virtualOffset : ℕ) (d : Descriptor) : Descriptor :=
  let notRuntimeRelated := d.memtype != runtimeServicesCode && d.memtype != runtimeServicesData
  { d with virtAddr := (d.physAddr+(if notRuntimeRelated then virtualOffset else 0)) % 2^64 }

def fixVirtualAddresses (map : MemoryMap) (virtualOffset : ℕ) (mem : Memory) : Memory :=
  (List.range map.count).foldl (fun mem i =>
    Function.update mem (entryAt map i) (fixVirtualAddress virtualOffset (mem (entryAt map i)))) mem

/-- `efi_memory_region_t`: a pointer into the buffer and the index it belongs to. -/
structure Region where
  dsc : ℕ
  indexInMap : ℕ

def Descriptor.usable (d : Descriptor) : Bool :=
  d.memtype == conventional || d.memtype == bootServicesCode || d.memtype == bootServicesData

def findBiggestUsableMemoryRegion (map : MemoryMap) (mem : Memory) : Region :=
  (List.range map.count).foldl (fun r i =>
    if decide ((mem r.dsc).pages < (mem (entryAt map i)).pages) && (mem (entryAt map i)).usable then
      ⟨entryAt map i, i⟩
    else r) ⟨map.mmap, 0⟩

/-- The loop of `finalizeMemoryMap`, from entry `idx+k` down. -/
def moveRight (map : MemoryMap) (idx : ℕ) : ℕ → Memory → Memory
  | 0, mem => mem
  | k+1, mem => moveRight map idx k
      (Function.update mem (entryAt map (idx+k+1)) (mem (entryAt map (idx+k))))

def finalizeMemoryMap (map : MemoryMap) (biggestFreeZone : Region) (stackPages virtualOffset : ℕ)
    (mem : Memory) : MemoryMap × Memory :=
  let idx := biggestFreeZone.indexInMap
  let mem := moveRight map idx (map.count-idx) mem
  let virtualMappingPages := entryAt map idx
  let mem := Function.update mem virtualMappingPages
    { mem virtualMappingPages with memtype := bootPaging }
  let mem := Function.update mem virtualMappingPages
    { mem virtualMappingPages with
        pages := ((mem biggestFreeZone.dsc).pages+(2^64-stackPages)) % 2^64 }
  let remainingMemoryPages := entryAt map (idx+1)
  let physAddr := ((mem virtualMappingPages).physAddr+
    (mem virtualMappingPages).pages*2^12) % 2^64
  let mem := Function.update mem remainingMemoryPages
    { mem remainingMemoryPages with
        memtype := conventional
        physAddr := physAddr
        virtAddr := (physAddr+virtualOffset) % 2^64
        pages := stackPages }
  ({ map with
      usedSize := (map.usedSize+1) % 2^64
      mmap := virt virtualOffset map.mmap }, mem)

section Layout

variable {map : MemoryMap} {mem : Memory}

theorem entryAt_inj (h : 0 < map.entrySize) {i j : ℕ} : entryAt map i = entryAt map j ↔ i = j := by
  unfold entryAt
  constructor
  · intro he
    exact Nat.eq_of_mul_eq_mul_right h (Nat.add_left_cancel he)
  · rintro rfl
    rfl

theorem update_entry (h : 0 < map.entrySize) (i j : ℕ) (d : Descriptor) :
    Function.update mem (entryAt map i) d (entryAt map j) =
      if j = i then d else mem (entryAt map j) := by
  by_cases hij : j = i
  · rw [hij, if_pos rfl, Function.update_self]
  · rw [if_neg hij, Function.update_of_ne (fun he => hij ((entryAt_inj h).mp he))]

theorem decode_getElem? (base k : ℕ) : (decode map base mem)[k]? =
    if k < map.count then some (mem (base+k*map.entrySize)) else none := by
  unfold decode
  rw [List.getElem?_map]
  by_cases hk : k < map.count
  · rw [if_pos hk, List.getElem?_range hk]
    rfl
  · rw [if_neg hk, List.getElem?_eq_none (by simpa using hk)]
    rfl

theorem fixVirtualAddresses_entry (h : 0 < map.entrySize) (off j : ℕ) :
    fixVirtualAddresses map off mem (entryAt map j) =
      if j < map.count then fixVirtualAddress off (mem (entryAt map j)) else mem (entryAt map j) := by
  let I : ℕ → Memory → Prop := fun k mem' => ∀ j, mem' (entryAt map j) =
    if j < k then fixVirtualAddress off (mem (entryAt map j)) else mem (entryAt map j)
  have hloop : I map.count (fixVirtualAddresses map off mem) := by
    apply CountedLoop.range_loop _ I
    · intro j
      rw [if_neg (by omega)]
    · intro k hk mem' hI j
      rw [update_entry h]
      by_cases hj : j = k
      · rw [if_pos hj, hI k, if_neg (by omega), if_pos (by omega), hj]
      · rw [if_neg hj, hI j]
        by_cases hlt : j < k
        · rw [if_pos hlt, if_pos (by omega)]
        · rw [if_neg hlt, if_neg (by omega)]
  exact hloop j

/-- The descriptors after `fixVirtualAddresses`. -/
theorem decode_fixVirtualAddresses (h : 0 < map.entrySize) (off : ℕ) :
    decode map map.mmap (fixVirtualAddresses map off mem) =
      (decode map map.mmap mem).map (fixVirtualAddress off) := by
  unfold decode
  rw [List.map_map]
  apply List.map_congr_left
  intro i hi
  have hi' := List.mem_range.mp hi
  show fixVirtualAddresses map off mem (entryAt map i) = fixVirtualAddress off (mem (entryAt map i))
  rw [fixVirtualAddresses_entry h, if_pos hi']

/-- The pointer and the index that are found belong together. -/
theorem findBiggest_entry (hn : 0 < map.count) :
    (findBiggestUsableMemoryRegion map mem).dsc =
      entryAt map (findBiggestUsableMemoryRegion map mem).indexInMap ∧
    (findBiggestUsableMemoryRegion map mem).indexInMap < map.count := by
  let I : ℕ → Region → Prop := fun _ r => r.dsc = entryAt map r.indexInMap ∧ r.indexInMap < map.count
  apply CountedLoop.range_loop _ I map.count
  · exact ⟨by simp [entryAt], hn⟩
  · intro k hk r hr
    show I (k+1) (if _ then _ else _)
    split
    · exact ⟨rfl, hk⟩
    · exact hr

theorem moveRight_entry (h : 0 < map.entrySize) (idx k j : ℕ) :
    moveRight map idx k mem (entryAt map j) =
      if idx < j ∧ j ≤ idx+k then mem (entryAt map (j-1)) else mem (entryAt map j) := by
  induction k generalizing mem with
  | zero => rw [moveRight, if_neg (by omega)]
  | succ k ih =>
    rw [moveRight, ih, update_entry h, update_entry h]
    by_cases hj : idx < j ∧ j ≤ idx+k
    · rw [if_pos hj, if_neg (by omega), if_pos (by omega)]
    · rw [if_neg hj]
      by_cases htop : j = idx+k+1
      · rw [if_pos htop, if_pos (by omega), htop]
        rfl
      · rw [if_neg htop, if_neg (by omega)]

end Layout

/-- The part of a split descriptor that holds the page tables. -/
def pagingPart (d : Descriptor) (r : ℕ) : Descriptor :=
  { d with memtype := bootPaging, pages := d.pages-r }

/-- The part of a split descriptor that is left, right after it. -/
def remainingPart (virtualOffset : ℕ) (d : Descriptor) (r : ℕ) : Descriptor :=
  let physAddr := (d.physAddr+(d.pages-r)*2^12) % 2^64
  { d with
      memtype := conventional
      physAddr := physAddr
      virtAddr := (physAddr+virtualOffset) % 2^64
      pages := r }

/-- The list with the descriptor at `idx` replaced by its two parts. -/
def splitAt (virtualOffset r idx : ℕ) (ds : List Descriptor) : List Descriptor :=
  ds.take idx ++
    ((ds.drop idx).take 1).flatMap (fun d => [pagingPart d r, remainingPart virtualOffset d r]) ++
    ds.drop (idx+1)

section Finalize

variable {map : MemoryMap} {mem : Memory} {idx r off : ℕ}

/-- Entry `j` after `finalizeMemoryMap`. -/
theorem finalize_entry (h : 0 < map.entrySize) (hidx : idx < map.count)
    (hr : r ≤ (mem (entryAt map idx)).pages) (hp : (mem (entryAt map idx)).pages < 2^64) (j : ℕ) :
    (finalizeMemoryMap map ⟨entryAt map idx, idx⟩ r off mem).2 (entryAt map j) =
      if j = idx then pagingPart (mem (entryAt map idx)) r
      else if j = idx+1 then remainingPart off (mem (entryAt map idx)) r
      else if idx < j ∧ j ≤ map.count then mem (entryAt map (j-1)) else mem (entryAt map j) := by
  set d := mem (entryAt map idx) with hd
  have hmoved : ∀ j, moveRight map idx (map.count-idx) mem (entryAt map j) =
      if idx < j ∧ j ≤ map.count then mem (entryAt map (j-1)) else mem (entryAt map j) := by
    intro j
    rw [moveRight_entry h, Nat.add_sub_cancel' hidx.le]
  have hat : moveRight map idx (map.count-idx) mem (entryAt map idx) = d := by
    rw [hmoved, if_neg (by omega)]
  have hnext : moveRight map idx (map.count-idx) mem (entryAt map (idx+1)) = d := by
    rw [hmoved, if_pos (by omega), Nat.add_sub_cancel]
  have hpages : (d.pages+(2^64-r)) % 2^64 = d.pages-r := by omega
  simp only [finalizeMemoryMap, update_entry h, if_pos]
  by_cases h1 : j = idx+1
  · rw [if_pos h1, if_neg (by omega), if_pos h1, if_neg (by omega), if_neg (by omega), hat, hnext,
      hpages]
    rfl
  · rw [if_neg h1]
    by_cases h0 : j = idx
    · rw [if_pos h0, if_pos h0, hat, hpages]
      rfl
    · rw [if_neg h0, if_neg h0, if_neg h0, if_neg h1, hmoved]

theorem finalize_count (h : 0 < map.entrySize) (hu : map.usedSize+1 < 2^64) :
    (finalizeMemoryMap map ⟨entryAt map idx, idx⟩ r off mem).1.count =
      if map.usedSize % map.entrySize = map.entrySize-1 then map.count+1 else map.count := by
  have hcount : (finalizeMemoryMap map ⟨entryAt map idx, idx⟩ r off mem).1.count =
      (map.usedSize+1)/map.entrySize := by
    show (map.usedSize+1) % 2^64/map.entrySize = _
    rw [Nat.mod_eq_of_lt hu]
  rw [hcount, Nat.succ_div, MemoryMap.count]
  have hdvd : map.entrySize ∣ map.usedSize+1 ↔ map.usedSize % map.entrySize = map.entrySize-1 := by
    have hlt := Nat.mod_lt map.usedSize h
    rw [Nat.dvd_iff_mod_eq_zero, Nat.add_mod]
    constructor
    · intro h0
      by_contra hne
      have h1 : 1 % map.entrySize = 1 := Nat.mod_eq_of_lt (by omega)
      rw [h1, Nat.mod_eq_of_lt (by omega)] at h0
      omega
    · intro he
      by_cases h1 : map.entrySize = 1
      · simp [h1, Nat.mod_one]
      · rw [he, Nat.mod_eq_of_lt (show 1 < map.entrySize by omega),
          Nat.sub_add_cancel (by omega), Nat.mod_self]
  by_cases hc : map.usedSize % map.entrySize = map.entrySize-1
  · rw [if_pos hc, if_pos (hdvd.mpr hc)]
  · rw [if_neg hc, if_neg (fun hd => hc (hdvd.mp hd)), Nat.add_zero]

theorem splitAt_getElem? (ds : List Descriptor) (hidx : idx < ds.length) (j : ℕ) :
    (splitAt off r idx ds)[j]? =
      if j = idx then ds[idx]?.map (pagingPart · r)
      else if j = idx+1 then ds[idx]?.map (remainingPart off · r)
      else if idx < j then ds[j-1]? else ds[j]? := by
  have hsplit : splitAt off r idx ds =
      ds.take idx ++ ([pagingPart ds[idx] r, remainingPart off ds[idx] r] ++ ds.drop (idx+1)) := by
    unfold splitAt
    rw [List.append_assoc, List.drop_eq_getElem_cons hidx]
    rfl
  have hlen : (ds.take idx).length = idx := by
    rw [List.length_take]
    omega
  rw [hsplit, List.getElem?_eq_getElem hidx]
  by_cases hlt : j < idx
  · rw [List.getElem?_append_left (by omega), List.getElem?_take_of_lt hlt, if_neg (by omega),
      if_neg (by omega), if_neg (by omega)]
  · rw [List.getElem?_append_right (by omega), hlen]
    by_cases h0 : j = idx
    · rw [if_pos h0, h0, Nat.sub_self]
      rfl
    · rw [if_neg h0]
      by_cases h1 : j = idx+1
      · rw [if_pos h1, h1, Nat.add_sub_cancel_left]
        rfl
      · rw [if_neg h1, if_pos (by omega), List.getElem?_append_right (by simp; omega),
          List.getElem?_drop]
        congr 1
        simp
        omega

end Finalize

section Small

/-- One free region of eight pages, in a buffer with room for two entries. -/
def smallMap (usedSize : ℕ) : MemoryMap := ⟨0x3000, usedSize, 96, 48⟩

def smallMemory : Memory := fun _ => ⟨conventional, 0, 0x100000, 0, 8, 15⟩

end Small

end BruhOS.Boot
