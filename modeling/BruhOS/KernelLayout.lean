import Mathlib.Data.List.Basic
import Mathlib.Tactic

/-!
# The memory that `loadKernel` allocates and where it places the kernel

The size of the allocation is a sum: the memory sizes of the loadable
segments, one stack and one task state segment for each core, the descriptor
table and the kernel header. The placement follows the physical addresses of
the program headers instead, and puts the other structures one after another
behind the segment that comes last in the table.
-/

set_option autoImplicit false

namespace BruhOS.KernelLoad

structure Phdr where
  pType : ℕ
  pOffset : ℕ
  pPaddr : ℕ
  pFilesz : ℕ
  pMemsz : ℕ
  deriving DecidableEq, Repr

/-- `PT_LOAD`. -/
def ptLoad : ℕ := 1

def Phdr.load (h : Phdr) : Bool := h.pType == ptLoad

/-- `__KERNEL_PERCPU_STACK_SIZE`. -/
def percpuStackSize : ℕ := 0x10000

/-- `__KERNEL_GDT_ENTRY_SIZE`. -/
def gdtEntrySize : ℕ := 8

/-- `__KERNEL_PERCPU_TSS_x86_64_SIZE`. -/
def percpuTSSSize : ℕ := 108

/-- `sizeof(kernel_header_t)`. -/
def kernelHeaderSize : ℕ := 160

def stackArrayBytes (cores : ℕ) : ℕ := percpuStackSize*cores % 2^64

def gdtBytes (cores : ℕ) : ℕ := gdtEntrySize*((5+cores) % 2^64) % 2^64

def tssArrayBytes (cores : ℕ) : ℕ := percpuTSSSize*cores % 2^64

/-- `programHeaderLoadSectionsTotalSizeBytes`. -/
def loadSectionsBytes (phs : List Phdr) : ℕ :=
  phs.foldl (fun n h => (n+if h.load then h.pMemsz else 0) % 2^64) 0

def kernelTotalSizeBytes (cores : ℕ) (phs : List Phdr) : ℕ :=
  (loadSectionsBytes phs+gdtBytes cores+stackArrayBytes cores+tssArrayBytes cores+
    kernelHeaderSize) % 2^64

def kernelTotalSizePages (cores : ℕ) (phs : List Phdr) : ℕ :=
  let tmpsize := kernelTotalSizeBytes cores phs/2^12
  (tmpsize+if tmpsize % 4096 = 0 then 0 else 1) % 2^64

/-- `lastPTLoadSegmentHdr`, none for the null pointer. -/
def lastPTLoad (phs : List Phdr) : Option Phdr :=
  phs.foldl (fun last h => if h.load then some h else last) none

structure ProgramConfig where
  percpuStackOffset : ℕ
  percpuTSSOffset : ℕ
  gdtOffset : ℕ
  postbootServicesHeader : ℕ
  deriving DecidableEq, Repr

/-- The placement behind the last segment; there is none when no segment was loaded and the
null pointer is read. -/
def placement (kernelAddress cores : ℕ) (phs : List Phdr) : Option ProgramConfig :=
  (lastPTLoad phs).map (fun last =>
    let kernelEndOffset := (last.pPaddr+last.pMemsz) % 2^64
    let stack := (kernelAddress+kernelEndOffset) % 2^64
    let tss := (stack+stackArrayBytes cores) % 2^64
    let gdt := (tss+tssArrayBytes cores) % 2^64
    ⟨stack, tss, gdt, (gdt+gdtBytes cores) % 2^64⟩)

/-- A range of bytes: its start and its length. -/
abbrev Range := ℕ × ℕ

def Range.Holds (r : Range) (a : ℕ) : Prop := r.1 ≤ a ∧ a < r.1+r.2

def Apart (r q : Range) : Prop := ∀ a, ¬ (Range.Holds r a ∧ Range.Holds q a)

def loaded (phs : List Phdr) : List Phdr := phs.filter Phdr.load

/-- The destination of a segment. -/
def destination (kernelAddress : ℕ) (h : Phdr) : Range :=
  ((kernelAddress+h.pPaddr) % 2^64, h.pMemsz)

/-- Everything that is placed in the allocation. -/
def placed (kernelAddress cores : ℕ) (phs : List Phdr) (c : ProgramConfig) : List Range :=
  (loaded phs).map (destination kernelAddress) ++
    [(c.percpuStackOffset, stackArrayBytes cores), (c.percpuTSSOffset, tssArrayBytes cores),
      (c.gdtOffset, gdtBytes cores), (c.postbootServicesHeader, kernelHeaderSize)]

/-- The ranges placed are pairwise disjoint and lie inside the allocation. -/
def LayoutFits (kernelAddress cores : ℕ) (phs : List Phdr) : Prop :=
  ∃ c, placement kernelAddress cores phs = some c ∧
    (placed kernelAddress cores phs c).Pairwise Apart ∧
    ∀ r ∈ placed kernelAddress cores phs c, ∀ a, Range.Holds r a →
      Range.Holds (kernelAddress, kernelTotalSizePages cores phs*4096) a

/-- The bytes behind the last segment. -/
def tailBytes (cores : ℕ) : ℕ :=
  percpuStackSize*cores+percpuTSSSize*cores+gdtEntrySize*(5+cores)+kernelHeaderSize

/-- The sums that `loadKernel` computes stay below 2^64. -/
structure NoOverflow (kernelAddress cores : ℕ) (phs : List Phdr) : Prop where
  size : ((loaded phs).map Phdr.pMemsz).sum+tailBytes cores < 2^64
  segments : ∀ h ∈ loaded phs, kernelAddress+h.pPaddr+h.pMemsz+tailBytes cores < 2^64

/-- The size that the rounding of `loadKernel` gives for a number of bytes. -/
def roundedSize (bytes : ℕ) : ℕ := (bytes/4096+if bytes/4096 % 4096 = 0 then 0 else 1)*4096

/-- There is a segment, none that is not empty ends behind the last, and the structures fit
behind it. -/
def LayoutMeets (cores : ℕ) (phs : List Phdr) : Prop :=
  ∃ last, (loaded phs).getLast? = some last ∧
    (∀ h ∈ loaded phs, 0 < h.pMemsz → h.pPaddr+h.pMemsz ≤ last.pPaddr+last.pMemsz) ∧
    last.pPaddr+last.pMemsz+tailBytes cores ≤
      roundedSize (((loaded phs).map Phdr.pMemsz).sum+tailBytes cores)

section Sizes

variable {kernelAddress cores : ℕ} {phs : List Phdr}

theorem loadSections_eq (h : ((loaded phs).map Phdr.pMemsz).sum < 2^64) :
    loadSectionsBytes phs = ((loaded phs).map Phdr.pMemsz).sum := by
  have hfold : ∀ (l : List Phdr) (n : ℕ), n+((loaded l).map Phdr.pMemsz).sum < 2^64 →
      l.foldl (fun n h => (n+if h.load then h.pMemsz else 0) % 2^64) n =
        n+((loaded l).map Phdr.pMemsz).sum := by
    intro l
    induction l with
    | nil =>
      intro n _
      rfl
    | cons x l ih =>
      intro n hn
      rw [List.foldl_cons]
      cases hx : x.load with
      | true =>
        have hl : loaded (x::l) = x::loaded l := List.filter_cons_of_pos hx
        rw [hl, List.map_cons, List.sum_cons] at hn ⊢
        rw [if_pos rfl, Nat.mod_eq_of_lt (by omega), ih _ (by omega), Nat.add_assoc]
      | false =>
        have hl : loaded (x::l) = loaded l := List.filter_cons_of_neg (by simp [hx])
        rw [hl] at hn ⊢
        rw [if_neg Bool.false_ne_true, Nat.add_zero, Nat.mod_eq_of_lt (by omega), ih n hn]
  have := hfold phs 0 (by omega)
  rwa [Nat.zero_add] at this

theorem lastPTLoad_eq (phs : List Phdr) : lastPTLoad phs = (loaded phs).getLast? := by
  have hfold : ∀ (l : List Phdr) (o : Option Phdr),
      l.foldl (fun last h => if h.load then some h else last) o =
        ((loaded l).getLast?).or o := by
    intro l
    induction l with
    | nil =>
      intro o
      rfl
    | cons x l ih =>
      intro o
      rw [List.foldl_cons, ih]
      cases hx : x.load with
      | true =>
        have hl : loaded (x::l) = x::loaded l := List.filter_cons_of_pos hx
        rw [hl, if_pos rfl, List.getLast?_cons]
        cases (loaded l).getLast? <;> rfl
      | false =>
        have hl : loaded (x::l) = loaded l := List.filter_cons_of_neg (by simp [hx])
        rw [hl, if_neg Bool.false_ne_true]
  rw [lastPTLoad, hfold, Option.or_none]

theorem sizes_eq (h : tailBytes cores < 2^64) : stackArrayBytes cores = percpuStackSize*cores ∧
    tssArrayBytes cores = percpuTSSSize*cores ∧ gdtBytes cores = gdtEntrySize*(5+cores) := by
  unfold tailBytes percpuStackSize percpuTSSSize gdtEntrySize kernelHeaderSize at h
  unfold stackArrayBytes tssArrayBytes gdtBytes percpuStackSize percpuTSSSize gdtEntrySize
  omega

theorem totalPages_eq (h : NoOverflow kernelAddress cores phs) :
    kernelTotalSizePages cores phs*4096 =
      roundedSize (((loaded phs).map Phdr.pMemsz).sum+tailBytes cores) := by
  have hsize := h.size
  obtain ⟨h1, h2, h3⟩ := sizes_eq (show tailBytes cores < 2^64 by omega)
  have hbytes : kernelTotalSizeBytes cores phs =
      ((loaded phs).map Phdr.pMemsz).sum+tailBytes cores := by
    rw [kernelTotalSizeBytes, loadSections_eq (by omega), h1, h2, h3]
    unfold tailBytes at hsize ⊢
    omega
  have hpage : (2:ℕ)^12 = 4096 := rfl
  rw [kernelTotalSizePages, hbytes, roundedSize, hpage, Nat.mod_eq_of_lt]
  split <;> omega

end Sizes

section Placement

variable {kernelAddress cores : ℕ} {phs : List Phdr}

theorem pairwise_last {α : Type} {R : α → α → Prop} {l : List α} {x y : α} (h : l.Pairwise R)
    (hx : l.getLast? = some x) (hy : y ∈ l) : y = x ∨ R y x := by
  obtain ⟨l', rfl⟩ := List.getLast?_eq_some_iff.mp hx
  rcases List.mem_append.mp hy with hy | hy
  · exact Or.inr ((List.pairwise_append.mp h).2.2 y hy x (List.mem_singleton.mpr rfl))
  · exact Or.inl (List.mem_singleton.mp hy)

/-- The four structures stand one behind the other. -/
theorem placement_eq (ho : NoOverflow kernelAddress cores phs) {last : Phdr}
    (hl : (loaded phs).getLast? = some last) :
    placement kernelAddress cores phs =
      some ⟨kernelAddress+(last.pPaddr+last.pMemsz),
        kernelAddress+(last.pPaddr+last.pMemsz)+percpuStackSize*cores,
        kernelAddress+(last.pPaddr+last.pMemsz)+percpuStackSize*cores+percpuTSSSize*cores,
        kernelAddress+(last.pPaddr+last.pMemsz)+percpuStackSize*cores+percpuTSSSize*cores+
          gdtEntrySize*(5+cores)⟩ := by
  have hseg := ho.segments last (List.mem_of_getLast? hl)
  obtain ⟨h1, h2, h3⟩ := sizes_eq (show tailBytes cores < 2^64 by omega)
  unfold tailBytes at hseg
  simp only [placement, lastPTLoad_eq, hl, Option.map_some, h1, h2, h3]
  rw [Nat.mod_eq_of_lt (show last.pPaddr+last.pMemsz < 2^64 by omega),
    Nat.mod_eq_of_lt (show kernelAddress+(last.pPaddr+last.pMemsz) < 2^64 by omega),
    Nat.mod_eq_of_lt (a := kernelAddress+(last.pPaddr+last.pMemsz)+percpuStackSize*cores) (by omega),
    Nat.mod_eq_of_lt (a := kernelAddress+(last.pPaddr+last.pMemsz)+percpuStackSize*cores+
      percpuTSSSize*cores) (by omega),
    Nat.mod_eq_of_lt (by omega)]

theorem destination_eq (ho : NoOverflow kernelAddress cores phs) {h : Phdr} (hh : h ∈ loaded phs) :
    destination kernelAddress h = (kernelAddress+h.pPaddr, h.pMemsz) := by
  have := ho.segments h hh
  rw [destination, Nat.mod_eq_of_lt (by omega)]

theorem segments_apart (ho : NoOverflow kernelAddress cores phs)
    (hd : (loaded phs).Pairwise (fun a b => Apart (a.pPaddr, a.pMemsz) (b.pPaddr, b.pMemsz))) :
    ((loaded phs).map (destination kernelAddress)).Pairwise Apart := by
  rw [List.pairwise_map]
  refine hd.imp_of_mem (fun {a b} ha hb hab => ?_)
  rw [destination_eq ho ha, destination_eq ho hb]
  intro x ⟨⟨h1, h2⟩, ⟨h3, h4⟩⟩
  simp only at h1 h2 h3 h4
  refine hab (x-kernelAddress) ⟨⟨?_, ?_⟩, ⟨?_, ?_⟩⟩ <;> simp only <;> omega

/-- The structures behind a last segment that ends at offset `e`. -/
def tailRanges (kernelAddress cores e : ℕ) : List Range :=
  [(kernelAddress+e, percpuStackSize*cores),
    (kernelAddress+e+percpuStackSize*cores, percpuTSSSize*cores),
    (kernelAddress+e+percpuStackSize*cores+percpuTSSSize*cores, gdtEntrySize*(5+cores)),
    (kernelAddress+e+percpuStackSize*cores+percpuTSSSize*cores+gdtEntrySize*(5+cores),
      kernelHeaderSize)]

def placedFrom (kernelAddress cores e : ℕ) (phs : List Phdr) : List Range :=
  (loaded phs).map (destination kernelAddress) ++ tailRanges kernelAddress cores e

theorem layoutFits_iff_placed (ho : NoOverflow kernelAddress cores phs) {last : Phdr}
    (hl : (loaded phs).getLast? = some last) :
    LayoutFits kernelAddress cores phs ↔
      (placedFrom kernelAddress cores (last.pPaddr+last.pMemsz) phs).Pairwise Apart ∧
      ∀ r ∈ placedFrom kernelAddress cores (last.pPaddr+last.pMemsz) phs, ∀ a, Range.Holds r a →
        Range.Holds (kernelAddress, roundedSize (((loaded phs).map Phdr.pMemsz).sum+
          tailBytes cores)) a := by
  have hsize := ho.size
  obtain ⟨h1, h2, h3⟩ := sizes_eq (show tailBytes cores < 2^64 by omega)
  unfold LayoutFits
  rw [placement_eq ho hl, totalPages_eq ho]
  simp only [placed, placedFrom, tailRanges, h1, h2, h3]
  constructor
  · rintro ⟨c, hc, h⟩
    obtain rfl := Option.some.inj hc
    exact h
  · intro h
    exact ⟨_, rfl, h⟩

/-- The first byte behind the last segment belongs to one of the structures. -/
theorem tail_first (kernelAddress cores e : ℕ) :
    ∃ r ∈ tailRanges kernelAddress cores e, Range.Holds r (kernelAddress+e) := by
  unfold tailRanges
  by_cases hc : cores = 0
  · refine ⟨_, by right; right; left, ?_⟩
    subst hc
    simp [Range.Holds, gdtEntrySize]
  · refine ⟨_, by left, ?_⟩
    simp only [Range.Holds, percpuStackSize]
    omega

theorem meets_of_fits (ho : NoOverflow kernelAddress cores phs)
    (hsorted : (loaded phs).Pairwise (fun a b => a.pPaddr ≤ b.pPaddr))
    (hf : LayoutFits kernelAddress cores phs) : LayoutMeets cores phs := by
  cases hl : (loaded phs).getLast? with
  | none =>
    obtain ⟨c, hc, -⟩ := hf
    rw [placement, lastPTLoad_eq, hl] at hc
    cases hc
  | some last =>
    obtain ⟨hpair, hin⟩ := (layoutFits_iff_placed ho hl).mp hf
    refine ⟨last, hl, fun h hh hpos => ?_, ?_⟩
    · by_contra hend
      have hle : h.pPaddr ≤ last.pPaddr := by
        rcases pairwise_last hsorted hl hh with rfl | hle
        · exact le_refl _
        · exact hle
      obtain ⟨r, hr, hfirst⟩ := tail_first kernelAddress cores (last.pPaddr+last.pMemsz)
      refine (List.pairwise_append.mp hpair).2.2 _ (List.mem_map_of_mem hh) r hr
        (kernelAddress+(last.pPaddr+last.pMemsz)) ⟨?_, hfirst⟩
      rw [destination_eq ho hh]
      constructor <;> simp only <;> omega
    · have hlast := hin (kernelAddress+(last.pPaddr+last.pMemsz)+percpuStackSize*cores+
          percpuTSSSize*cores+gdtEntrySize*(5+cores), kernelHeaderSize)
        (by simp [placedFrom, tailRanges])
        (kernelAddress+(last.pPaddr+last.pMemsz)+percpuStackSize*cores+percpuTSSSize*cores+
          gdtEntrySize*(5+cores)+(kernelHeaderSize-1))
        (by constructor <;> simp [kernelHeaderSize])
      have hend := hlast.2
      unfold tailBytes kernelHeaderSize at *
      simp only at hend
      omega

theorem fits_of_meets (ho : NoOverflow kernelAddress cores phs)
    (hapart : (loaded phs).Pairwise
      (fun a b => Apart (a.pPaddr, a.pMemsz) (b.pPaddr, b.pMemsz)))
    (hm : LayoutMeets cores phs) : LayoutFits kernelAddress cores phs := by
  obtain ⟨last, hl, hends, hroom⟩ := hm
  rw [layoutFits_iff_placed ho hl]
  have hseg : ∀ r ∈ (loaded phs).map (destination kernelAddress), ∀ a, Range.Holds r a →
      kernelAddress ≤ a ∧ a < kernelAddress+(last.pPaddr+last.pMemsz) := by
    intro r hr a ha
    obtain ⟨h, hh, rfl⟩ := List.mem_map.mp hr
    rw [destination_eq ho hh] at ha
    obtain ⟨h1, h2⟩ := ha
    simp only at h1 h2
    have := hends h hh (by omega)
    omega
  unfold tailBytes at hroom
  constructor
  · rw [placedFrom, List.pairwise_append]
    refine ⟨segments_apart ho hapart, ?_, fun r hr q hq a ⟨har, haq⟩ => ?_⟩
    · unfold tailRanges
      simp only [List.pairwise_cons, List.mem_cons, List.not_mem_nil, or_false, forall_eq_or_imp,
        forall_eq, Apart, Range.Holds, List.Pairwise.nil, IsEmpty.forall_iff, implies_true, and_true]
      refine ⟨⟨?_, ?_, ?_⟩, ⟨?_, ?_⟩, ?_⟩ <;> intro a <;> omega
    · have := hseg r hr a har
      simp only [tailRanges, List.mem_cons, List.not_mem_nil, or_false] at hq
      rcases hq with rfl | rfl | rfl | rfl <;> (obtain ⟨h1, h2⟩ := haq; simp only at h1 h2; omega)
  · intro r hr a ha
    rw [placedFrom, List.mem_append] at hr
    unfold tailBytes
    rcases hr with hr | hr
    · have := hseg r hr a ha
      constructor <;> simp only <;> omega
    · simp only [tailRanges, List.mem_cons, List.not_mem_nil, or_false] at hr
      rcases hr with rfl | rfl | rfl | rfl <;>
        (obtain ⟨h1, h2⟩ := ha; simp only at h1 h2; constructor <;> simp only <;> omega)

end Placement

/-- The layout fits its allocation exactly when the structures behind the last segment end
within the size that the sum of the memory sizes is rounded to. -/
theorem layout_fits_iff (kernelAddress cores : ℕ) (phs : List Phdr)
    (ho : NoOverflow kernelAddress cores phs)
    (hsorted : (loaded phs).Pairwise (fun a b => a.pPaddr ≤ b.pPaddr))
    (hapart : (loaded phs).Pairwise
      (fun a b => Apart (a.pPaddr, a.pMemsz) (b.pPaddr, b.pMemsz))) :
    LayoutFits kernelAddress cores phs ↔ LayoutMeets cores phs :=
  ⟨meets_of_fits ho hsorted, fits_of_meets ho hapart⟩

section Small

/-- Two segments with a gap of 4 MiB between them, as after a linker script that moves data. -/
def gapTable : List Phdr := [⟨ptLoad, 0x1000, 0, 0x1000, 0x1000⟩, ⟨ptLoad, 0x2000, 0x400000, 0x1000, 0x1000⟩]

/-- The second segment already lies outside the allocation. -/
theorem layout_overruns :
    NoOverflow 0x1000000 1 gapTable ∧
    (loaded gapTable).Pairwise (fun a b => a.pPaddr ≤ b.pPaddr) ∧
    (loaded gapTable).Pairwise (fun a b => Apart (a.pPaddr, a.pMemsz) (b.pPaddr, b.pMemsz)) ∧
    ¬ LayoutFits 0x1000000 1 gapTable := by
  have ho : NoOverflow 0x1000000 1 gapTable := ⟨by decide, by decide⟩
  have hsorted : (loaded gapTable).Pairwise (fun a b => a.pPaddr ≤ b.pPaddr) := by decide
  refine ⟨ho, hsorted, ?_, fun hf => ?_⟩
  · show [_, _].Pairwise _
    rw [List.pairwise_pair]
    rintro a ⟨⟨-, h1⟩, ⟨h2, -⟩⟩
    simp only at h1 h2
    omega
  · obtain ⟨last, hl, -, hroom⟩ := meets_of_fits ho hsorted hf
    obtain rfl : Phdr.mk ptLoad 0x2000 0x400000 0x1000 0x1000 = last := Option.some.inj hl
    revert hroom
    decide

/-- A single segment at offset zero fits. -/
theorem layout_fits_single :
    LayoutFits 0x1000000 1 [⟨ptLoad, 0x1000, 0, 0x800, 0x1000⟩] :=
  (layout_fits_iff 0x1000000 1 [⟨ptLoad, 0x1000, 0, 0x800, 0x1000⟩] ⟨by decide, by decide⟩
    (by decide) (List.pairwise_singleton _ _)).mpr ⟨_, rfl, by decide, by decide⟩

end Small

end BruhOS.KernelLoad
