import BruhOS.KernelLayout

/-!
# How `loadKernel` fills the segments

The allocation is zeroed, then every loadable segment is read from the file
with `readFile`, which asks for as many bytes as the segment has in memory.
A request that reaches past the end of the file is dropped; a failed read is
reported and ignored. The check that follows hands a truth value to a test for
the top bit of a status.

A device may fail any read: such a read leaves some bytes in the buffer, given
by the outcome. Positions are set and read back as the firmware's interface
defines it.
-/

set_option autoImplicit false

namespace BruhOS.KernelLoad

abbrev Memory := ℕ → UInt8

structure File where
  bytes : List UInt8
  position : ℕ

def File.setPosition (f : File) (p : ℕ) : File :=
  { f with position := if p = 0xFFFFFFFFFFFFFFFF then f.bytes.length else p }

/-- `EFI_ERROR`: the top bit of a status. -/
def efiError (status : ℕ) : Bool := decide (2^63 ≤ status % 2^64)

/-- What a read does: it succeeds, or fails and leaves some bytes in the buffer. -/
inductive Outcome
  | success
  | failure (left : ℕ → Option UInt8)

def copyBytes (mem : Memory) (dst n : ℕ) (src : ℕ → Option UInt8) : Memory := fun a =>
  if dst ≤ a ∧ a < dst+n then (src (a-dst)).getD (mem a) else mem a

/-- `EFI_FILE_PROTOCOL.Read`: the number of bytes, the file and the memory afterwards. -/
def File.read (o : Outcome) (f : File) (count dst : ℕ) (mem : Memory) : ℕ × File × Memory :=
  match o with
  | .success =>
    let n := min count (f.bytes.length-f.position)
    (n, { f with position := f.position+n }, copyBytes mem dst n (fun i => f.bytes[f.position+i]?))
  | .failure left => (count, f, copyBytes mem dst count left)

/-- The size found by seeking to the end and back. -/
def getFileSize (f : File) : ℕ × File :=
  let f1 := f.setPosition 0xFFFFFFFFFFFFFFFF
  let f2 := f1.setPosition 0
  (f1.position-f2.position, f2)

def readFile (o : Outcome) (f : File) (offset count dst : ℕ) (mem : Memory) : ℕ × File × Memory :=
  let size := getFileSize f
  if size.1 < (offset+count) % 2^64 then (0, size.2, mem)
  else
    let r := (size.2.setPosition offset).read o count dst mem
    (r.1, r.2.1.setPosition 0, r.2.2)

/-- The loop over the program headers from entry `i` on; none where `errexit` is called. -/
def loadSegments (kernelAddress : ℕ) (outcome : ℕ → Outcome) :
    List Phdr → ℕ → File → Memory → Option Memory
  | [], _, _, mem => some mem
  | h::hs, i, f, mem =>
    if h.load then
      let r := readFile (outcome i) f h.pOffset h.pMemsz ((kernelAddress+h.pPaddr) % 2^64) mem
      if efiError (if r.1 ≠ h.pMemsz then 1 else 0) then none
      else loadSegments kernelAddress outcome hs (i+1) r.2.1 r.2.2
    else loadSegments kernelAddress outcome hs (i+1) f mem

/-- The segment is in memory as the ELF rules say. -/
structure SegmentLoaded (kernelAddress : ℕ) (bytes : List UInt8) (h : Phdr) (mem : Memory) : Prop where
  fits : h.pFilesz ≤ h.pMemsz
  contents : ∀ i < h.pFilesz, bytes[h.pOffset+i]? = some (mem (kernelAddress+h.pPaddr+i))
  zeros : ∀ i, h.pFilesz ≤ i → i < h.pMemsz → mem (kernelAddress+h.pPaddr+i) = 0

/-- The byte that a read into zeroed memory leaves at offset `i` of a segment. -/
def readByte (bytes : List UInt8) (h : Phdr) (o : Outcome) (i : ℕ) : UInt8 :=
  match o with
  | .success => (bytes[h.pOffset+i]?).getD 0
  | .failure left => (left i).getD 0

/-- The file and the outcome of the read under which a segment is loaded right. -/
def SegmentMeets (bytes : List UInt8) (h : Phdr) (o : Outcome) : Prop :=
  h.pFilesz ≤ h.pMemsz ∧
  if bytes.length < (h.pOffset+h.pMemsz) % 2^64 then
    ∀ i < h.pFilesz, bytes[h.pOffset+i]? = some 0
  else
    (∀ i < h.pFilesz, bytes[h.pOffset+i]? = some (readByte bytes h o i)) ∧
    ∀ i, h.pFilesz ≤ i → i < h.pMemsz → readByte bytes h o i = 0

section Read

variable {f : File} {o : Outcome} {offset count dst : ℕ} {mem : Memory}

theorem getFileSize_eq (f : File) : getFileSize f = (f.bytes.length, { f with position := 0 }) := by
  simp [getFileSize, File.setPosition]

theorem copyBytes_out {n a : ℕ} (src : ℕ → Option UInt8) (h : ¬ (dst ≤ a ∧ a < dst+n)) :
    copyBytes mem dst n src a = mem a := by
  rw [copyBytes, if_neg h]

theorem copyBytes_in {n i : ℕ} (src : ℕ → Option UInt8) (h : i < n) :
    copyBytes mem dst n src (dst+i) = (src i).getD (mem (dst+i)) := by
  rw [copyBytes, if_pos ⟨by omega, by omega⟩, Nat.add_sub_cancel_left]

theorem readFile_bytes : (readFile o f offset count dst mem).2.1.bytes = f.bytes := by
  unfold readFile
  rw [getFileSize_eq]
  simp only
  split
  · rfl
  · cases o <;> rfl

theorem read_success_eq (g : File) (count dst : ℕ) (mem : Memory) :
    (g.read .success count dst mem).2.2 =
      copyBytes mem dst (min count (g.bytes.length-g.position))
        (fun i => g.bytes[g.position+i]?) := rfl

/-- Nothing outside the buffer changes. -/
theorem readFile_out {a : ℕ} (h : ¬ (dst ≤ a ∧ a < dst+count)) :
    (readFile o f offset count dst mem).2.2 a = mem a := by
  unfold readFile
  rw [getFileSize_eq]
  simp only
  split
  · rfl
  · cases o with
    | success =>
      simp only [read_success_eq]
      refine copyBytes_out _ (fun hn => h ⟨hn.1, lt_of_lt_of_le hn.2 ?_⟩)
      exact Nat.add_le_add_left (Nat.min_le_left _ _) _
    | failure left => exact copyBytes_out _ h

/-- A successful read into zeroed memory, from any position. -/
theorem read_success {g : File} {i : ℕ} (hi : i < count) (hmem : mem (dst+i) = 0) :
    (g.read .success count dst mem).2.2 (dst+i) = (g.bytes[g.position+i]?).getD 0 := by
  rw [read_success_eq]
  by_cases hn : i < min count (g.bytes.length-g.position)
  · rw [copyBytes_in _ hn, hmem]
  · rw [copyBytes_out _ (by omega), hmem, List.getElem?_eq_none (by omega)]
    rfl

theorem readFile_in (hsize : f.bytes.length < 2^64) {h : Phdr} {i : ℕ} (hi : i < h.pMemsz)
    (hmem : mem (dst+i) = 0) :
    (readFile o f h.pOffset h.pMemsz dst mem).2.2 (dst+i) =
      if f.bytes.length < (h.pOffset+h.pMemsz) % 2^64 then 0 else readByte f.bytes h o i := by
  unfold readFile
  rw [getFileSize_eq]
  simp only
  split
  · exact hmem
  · cases o with
    | failure left =>
      show copyBytes mem dst h.pMemsz left (dst+i) = (left i).getD 0
      rw [copyBytes_in _ hi, hmem]
    | success =>
      show (File.read .success _ h.pMemsz dst mem).2.2 (dst+i) = (f.bytes[h.pOffset+i]?).getD 0
      rw [read_success hi hmem]
      by_cases hend : h.pOffset = 0xFFFFFFFFFFFFFFFF
      · simp only [File.setPosition, if_pos hend]
        rw [List.getElem?_eq_none (by omega), List.getElem?_eq_none (by omega)]
      · simp only [File.setPosition, if_neg hend]

theorem efiError_flag (b : Prop) [Decidable b] : efiError (if b then 1 else 0) = false := by
  by_cases hb : b <;> simp [hb, efiError]

end Read

section Loop

/-- The destination of a segment, as a set of addresses. -/
def Phdr.Covers (kernelAddress : ℕ) (h : Phdr) (a : ℕ) : Prop :=
  kernelAddress+h.pPaddr ≤ a ∧ a < kernelAddress+h.pPaddr+h.pMemsz

/-- The loop ends without `errexit`; it leaves what no segment covers and puts the bytes of each
read where it belongs. -/
theorem loadSegments_spec (kernelAddress : ℕ) (outcome : ℕ → Outcome) (hs : List Phdr) (k : ℕ)
    (f : File) (mem : Memory)
    (hsize : f.bytes.length < 2^64)
    (hword : ∀ h ∈ hs, h.load = true → 0 < h.pMemsz → kernelAddress+h.pPaddr < 2^64)
    (hapart : (loaded hs).Pairwise
      (fun g h => ∀ a, ¬ (g.Covers kernelAddress a ∧ h.Covers kernelAddress a)))
    (hzero : ∀ h ∈ hs, h.load = true → ∀ a, h.Covers kernelAddress a → mem a = 0) :
    ∃ mem', loadSegments kernelAddress outcome hs k f mem = some mem' ∧
      (∀ a, (∀ h ∈ hs, h.load = true → ¬ h.Covers kernelAddress a) → mem' a = mem a) ∧
      ∀ j h, hs[j]? = some h → h.load = true → ∀ i < h.pMemsz,
        mem' (kernelAddress+h.pPaddr+i) =
          if f.bytes.length < (h.pOffset+h.pMemsz) % 2^64 then 0
          else readByte f.bytes h (outcome (k+j)) i := by
  induction hs generalizing k f mem with
  | nil => exact ⟨mem, rfl, fun _ _ => rfl, fun j h hj => by simp at hj⟩
  | cons g hs ih =>
    cases hg : g.load with
    | false =>
      have hl : loaded (g::hs) = loaded hs := List.filter_cons_of_neg (by simp [hg])
      rw [hl] at hapart
      obtain ⟨mem', hrun, hout, hin⟩ := ih (k+1) f mem hsize
        (fun h hh => hword h (List.mem_cons_of_mem _ hh)) hapart
        (fun h hh => hzero h (List.mem_cons_of_mem _ hh))
      refine ⟨mem', ?_, fun a ha => hout a (fun h hh => ha h (List.mem_cons_of_mem _ hh)), ?_⟩
      · rw [loadSegments, if_neg (by simp [hg])]
        exact hrun
      · intro j h hj hload i hi
        cases j with
        | zero =>
          obtain rfl := Option.some.inj hj
          rw [hg] at hload
          cases hload
        | succ j =>
          have hidx : k+(j+1) = k+1+j := by omega
          rw [hidx]
          exact hin j h hj hload i hi
    | true =>
      have hl : loaded (g::hs) = g::loaded hs := List.filter_cons_of_pos hg
      rw [hl, List.pairwise_cons] at hapart
      set dst := (kernelAddress+g.pPaddr) % 2^64 with hdst'
      have hdst : 0 < g.pMemsz → dst = kernelAddress+g.pPaddr := fun hpos =>
        Nat.mod_eq_of_lt (hword g List.mem_cons_self hg hpos)
      set r := readFile (outcome k) f g.pOffset g.pMemsz dst mem with hr
      have hframe : ∀ a, ¬ g.Covers kernelAddress a → r.2.2 a = mem a := by
        intro a ha
        apply readFile_out
        intro hn
        have := hdst (by omega)
        exact ha ⟨by omega, by omega⟩
      have hbytes : r.2.1.bytes = f.bytes := readFile_bytes
      have hother : ∀ h ∈ hs, h.load = true → ∀ a, h.Covers kernelAddress a →
          ¬ g.Covers kernelAddress a := by
        intro h hh hload a ha hga
        exact hapart.1 h (List.mem_filter.mpr ⟨hh, hload⟩) a ⟨hga, ha⟩
      obtain ⟨mem', hrun, hout, hin⟩ := ih (k+1) r.2.1 r.2.2 (by rw [hbytes]; exact hsize)
        (fun h hh => hword h (List.mem_cons_of_mem _ hh)) hapart.2
        (by
          intro h hh hload a ha
          rw [hframe a (hother h hh hload a ha)]
          exact hzero h (List.mem_cons_of_mem _ hh) hload a ha)
      rw [hbytes] at hin
      refine ⟨mem', ?_, ?_, ?_⟩
      · rw [loadSegments, if_pos hg]
        show (if efiError (if r.1 ≠ g.pMemsz then 1 else 0) = true then none else
          loadSegments kernelAddress outcome hs (k+1) r.2.1 r.2.2) = some mem'
        rw [efiError_flag, if_neg Bool.false_ne_true]
        exact hrun
      · intro a ha
        rw [hout a (fun h hh => ha h (List.mem_cons_of_mem _ hh)),
          hframe a (ha g List.mem_cons_self hg)]
      · intro j h hj hload i hi
        cases j with
        | zero =>
          obtain rfl := Option.some.inj hj
          have hcov : g.Covers kernelAddress (kernelAddress+g.pPaddr+i) := ⟨by omega, by omega⟩
          have hzero' := hzero g List.mem_cons_self hg _ hcov
          rw [hout _ (fun h hh hload hc => hother h hh hload _ hc hcov), hr]
          rw [← hdst (by omega)] at hzero' ⊢
          exact readFile_in hsize hi hzero'
        | succ j =>
          have hidx : k+(j+1) = k+1+j := by omega
          rw [hidx]
          exact hin j h hj hload i hi

end Loop

/-- What `loadKernel` leaves: an exit, or every segment loaded by the ELF rules. -/
def LoadedOrExit (kernelAddress : ℕ) (bytes : List UInt8) (phs : List Phdr) (out : Option Memory) :
    Prop :=
  ∀ mem, out = some mem → ∀ h ∈ phs, h.load = true → SegmentLoaded kernelAddress bytes h mem

theorem segmentLoaded_iff {kernelAddress : ℕ} {bytes : List UInt8} {h : Phdr} {o : Outcome}
    {mem : Memory}
    (hb : ∀ i < h.pMemsz, mem (kernelAddress+h.pPaddr+i) =
      if bytes.length < (h.pOffset+h.pMemsz) % 2^64 then 0 else readByte bytes h o i) :
    SegmentLoaded kernelAddress bytes h mem ↔ SegmentMeets bytes h o := by
  unfold SegmentMeets
  constructor
  · intro hl
    refine ⟨hl.fits, ?_⟩
    have hfits := hl.fits
    split at hb
    · rename_i hskip
      rw [if_pos hskip]
      intro i hi
      rw [hl.contents i hi, hb i (by omega)]
    · rename_i hskip
      rw [if_neg hskip]
      constructor
      · intro i hi
        rw [hl.contents i hi, hb i (by omega)]
      · intro i h1 h2
        rw [← hb i h2, hl.zeros i h1 h2]
  · rintro ⟨hfits, hm⟩
    split at hb
    · rename_i hskip
      rw [if_pos hskip] at hm
      refine ⟨hfits, fun i hi => ?_, fun i _ h2 => hb i h2⟩
      rw [hm i hi, hb i (by omega)]
    · rename_i hskip
      rw [if_neg hskip] at hm
      refine ⟨hfits, fun i hi => ?_, fun i h1 h2 => ?_⟩
      · rw [hm.1 i hi, hb i (by omega)]
      · rw [hb i h2, hm.2 i h1 h2]

section Small

/-- A segment of four bytes in the file and eight in memory, with other data behind it. -/
def bssSegment : Phdr := ⟨ptLoad, 0, 0, 4, 8⟩

def bssFile : File := ⟨[1, 2, 3, 4, 9, 9, 9, 9], 0⟩

end Small

end BruhOS.KernelLoad
