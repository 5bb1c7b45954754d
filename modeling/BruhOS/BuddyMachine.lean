import BruhOS.BlockTree
import BruhOS.StdMath

/-!
# The two buddy allocators as one machine

`buddy.c` and `buddyLow.c` are the same program at two sizes: tree depth,
width of the link fields, number of nodes cleared at initialisation and
distance of the list heads from the node array differ. A `Build` carries
these values together with the integer logarithm the program is linked to.
Node pointers are offsets from `linkedmap`; `levels.head` follows the array,
so heads and nodes share one address space. Levels are natural numbers: the
subtraction `depth - log2ui` stays non-negative under the documented logarithm.
-/

set_option autoImplicit false

namespace BruhOS.BuddyMachine
open BruhOS.BlockTree BruhOS.StdMath

structure Build where
  depth : ℕ
  cleared : ℕ
  headBase : ℕ
  linkBits : ℕ
  log2ui : ℕ → ℕ
  depth_pos : 0 < depth
  depth_le : depth ≤ 16
  inner_cleared : 2^depth-1 ≤ cleared
  cleared_le : cleared ≤ nodes depth
  tree_fits : nodes depth ≤ headBase
  links_fit : headBase+depth < 2^linkBits

/-- `buddy.c`: 8-byte nodes, the heads follow the array directly. -/
def buddy (log2ui : ℕ → ℕ) : Build where
  depth := 16
  cleared := 2^17-1
  headBase := 131071
  linkBits := 31
  log2ui := log2ui
  depth_pos := by decide
  depth_le := by decide
  inner_cleared := by decide
  cleared_le := by decide
  tree_fits := by decide
  links_fit := by decide

/-- `buddyLow.c`: 4-byte nodes, one word of padding before the heads, and
only the inner nodes are cleared. -/
def buddyLow (log2ui : ℕ → ℕ) : Build where
  depth := 10
  cleared := 2^10-1
  headBase := 2048
  linkBits := 15
  log2ui := log2ui
  depth_pos := by decide
  depth_le := by decide
  inner_cleared := by decide
  cleared_le := by decide
  tree_fits := by decide
  links_fit := by decide

/-- A two-bit field; memory that was never initialised may hold 2 or 3. -/
abbrev BlockState := Fin 4

def USED : BlockState := 0
def FREE : BlockState := 1

structure Node where
  prev : ℕ
  next : ℕ
  state : BlockState

structure BuddyAllocator where
  start : ℕ
  linkedmap : ℕ → Node
  free : ℕ → ℕ
  size : ℕ → ℕ

def BuddyAllocator.next (s : BuddyAllocator) (o : ℕ) : ℕ := (s.linkedmap o).next
def BuddyAllocator.prev (s : BuddyAllocator) (o : ℕ) : ℕ := (s.linkedmap o).prev
def BuddyAllocator.state (s : BuddyAllocator) (o : ℕ) : BlockState := (s.linkedmap o).state

def setState (s : BuddyAllocator) (o : ℕ) (v : BlockState) : BuddyAllocator :=
  { s with
    linkedmap := Function.update s.linkedmap o ⟨s.prev o, s.next o, v⟩ }

def setNext (B : Build) (s : BuddyAllocator) (o v : ℕ) : BuddyAllocator :=
  { s with
    linkedmap := Function.update s.linkedmap o ⟨s.prev o, v%2^B.linkBits, s.state o⟩ }

def setPrev (B : Build) (s : BuddyAllocator) (o v : ℕ) : BuddyAllocator :=
  { s with
    linkedmap := Function.update s.linkedmap o ⟨v%2^B.linkBits, s.next o, s.state o⟩ }

def setFree (s : BuddyAllocator) (l o : ℕ) : BuddyAllocator :=
  { s with free := Function.update s.free l o }

def setSize (s : BuddyAllocator) (l v : ℕ) : BuddyAllocator :=
  { s with size := Function.update s.size l (v%2^32) }

def Build.head (B : Build) (l : ℕ) : ℕ := B.headBase+l

def levelStart (l : ℕ) : ℕ := 2^l-1

def levelEnd (l : ℕ) : ℕ := 2*levelStart l

def Build.blockSize (B : Build) (l : ℕ) : ℕ := 2^(B.depth+12-l)

def Build.getLevel (B : Build) (o : ℕ) : ℕ := B.log2ui ((1+o)%2^32)%2^8

def getIndex (o l : ℕ) : ℕ := (o+1+(2^32-2^l))%2^32

def getBuddy (o : ℕ) : ℕ := (o+2*(o%2)-(if o ≠ 0 then 1 else 0))%2^32

def getAddress (B : Build) (s : BuddyAllocator) (o : ℕ) : ℕ :=
  (s.start+getIndex o (B.getLevel o)*B.blockSize (B.getLevel o))%2^64

def removeEntry (B : Build) (s : BuddyAllocator) (entry : ℕ) : BuddyAllocator :=
  let s := setState s entry USED
  let s := setNext B s (s.prev entry) (s.next entry)
  let s := setPrev B s (s.next entry) (s.prev entry)
  setSize s (B.getLevel entry) (s.size (B.getLevel entry)+(2^32-1))

def pushEntry (B : Build) (s : BuddyAllocator) (lvl entry : ℕ) : BuddyAllocator :=
  let lastFree := s.free lvl
  let s := setState s entry FREE
  let s := setNext B s entry (s.next lastFree)
  let s := setPrev B s entry lastFree
  let s := setNext B s lastFree entry
  let s := setPrev B s (s.next entry) entry
  let s := setFree s lvl entry
  setSize s lvl (s.size lvl+1)

def popEntry (B : Build) (s : BuddyAllocator) (lvl : ℕ) : ℕ × BuddyAllocator :=
  if s.size lvl = 0 then (B.head lvl, s)
  else
    let entry := s.free lvl
    let s := removeEntry B s entry
    (entry, setFree s lvl (s.prev entry))

/-- The loop of `try_merge`; `cond` is the flag its previous pass computed. -/
def mergeLoop (B : Build) : ℕ → ℕ → Bool → BuddyAllocator → BuddyAllocator
  | 0, _, _, s => s
  | lvl+1, offset, cond, s =>
    if cond then
      let s := removeEntry B s (getBuddy offset)
      let s := (popEntry B s (lvl+1)).2
      let offset := (offset-1)/2
      let s := pushEntry B s lvl offset
      mergeLoop B lvl offset (s.state (getBuddy offset) != 0 && s.state offset != 0) s
    else s

def tryMerge (B : Build) (s : BuddyAllocator) (offset lvl : ℕ) : BuddyAllocator :=
  mergeLoop B lvl offset (s.state (getBuddy offset) != 0) s

def clearNodes (B : Build) (s : BuddyAllocator) : BuddyAllocator :=
  { s with linkedmap := fun o => if o < B.cleared then ⟨0, 0, USED⟩ else s.linkedmap o }

def initLevel (B : Build) (s : BuddyAllocator) (i : ℕ) : BuddyAllocator :=
  let h := B.head i%2^B.linkBits
  let s := { s with linkedmap := Function.update s.linkedmap (B.head i) ⟨h, h, USED⟩ }
  setSize (setFree s i (B.head i)) i 0

/-- `s` is whatever the memory of the allocator held before the call. -/
@[irreducible] def buddyAllocInit (B : Build) (s : BuddyAllocator) (start : ℕ) : BuddyAllocator :=
  let s := clearNodes B { s with start := start }
  let s := (List.range (B.depth+1)).foldl (initLevel B) s
  pushEntry B s 0 0

structure MemZone where
  mem : ℕ
  pages : ℕ
  deriving DecidableEq, Repr

def zoneOffset (B : Build) (start : ℕ) (z : MemZone) : ℕ :=
  ((z.mem+(2^64-start))%2^64/2^12+levelStart B.depth)%2^32

def markZone (B : Build) (s : BuddyAllocator) (z : MemZone) : BuddyAllocator :=
  (List.range z.pages).foldl (fun s j => setState s (zoneOffset B s.start z+j) FREE) s

/-- A node takes over from its two children when both are free. -/
def settle (s : BuddyAllocator) (offset : ℕ) : BuddyAllocator :=
  let both := s.state (offset*2+1) != 0 && s.state (offset*2+2) != 0
  let s := setState s offset (if both then FREE else USED)
  let s := setState s (offset*2+1) (if both then USED else s.state (offset*2+1))
  setState s (offset*2+2) (if both then USED else s.state (offset*2+2))

def settleLevel (s : BuddyAllocator) (i : ℕ) : BuddyAllocator :=
  (List.range (2^i)).foldl (fun s k => settle s (levelEnd i-k)) s

def settleTree (B : Build) (s : BuddyAllocator) : BuddyAllocator :=
  (List.range B.depth).foldl (fun s k => settleLevel s (B.depth-1-k)) s

def freeCount (B : Build) (s : BuddyAllocator) : ℕ :=
  (List.range (nodes B.depth)).foldl (fun c i => (c+(s.state i).val)%2^16) 0

structure Collected where
  indices : ℕ → ℕ
  lg2idx : ℕ → ℕ
  idx : ℕ

def collectStep (B : Build) (s : BuddyAllocator) (c : Collected) (i : ℕ) : Collected where
  indices := Function.update c.indices c.idx i
  lg2idx := Function.update c.lg2idx c.idx (B.log2ui (i+1))
  idx := c.idx+(s.state i).val

def collect (B : Build) (s : BuddyAllocator) : Collected :=
  (List.range (nodes B.depth)).foldl (collectStep B s) ⟨fun _ => 0, fun _ => 0, 0⟩

@[irreducible] def buddyAllocInitFreeRegions (B : Build) (s : BuddyAllocator) (start : ℕ)
    (zones : List MemZone) : BuddyAllocator :=
  let s := buddyAllocInit B s start
  let s := (popEntry B s 0).2
  let s := zones.foldl (markZone B) s
  let s := settleTree B s
  let c := collect B s
  (List.range (freeCount B s)).foldl
    (fun s i => pushEntry B s (c.lg2idx i%2^8) (c.indices i)) s

/-- The state in which `buddy_alloc_init_free_regions` counts the free nodes. -/
def settledRegions (B : Build) (s : BuddyAllocator) (start : ℕ) (zones : List MemZone) :
    BuddyAllocator :=
  settleTree B (zones.foldl (markZone B) (popEntry B (buddyAllocInit B s start) 0).2)

/-- The first `k` passes of the collecting loop on the arrays `c`. -/
def collectOn (B : Build) (s : BuddyAllocator) (c : Collected) (k : ℕ) : Collected :=
  (List.range k).foldl (collectStep B s) c

/-- The arrays are on the stack: `indices` and `lg2idx` are what they hold before the loop. An
entry that the loop leaves out is then read as it was. -/
@[irreducible] def initFreeRegionsOn (B : Build) (indices lg2idx : ℕ → ℕ) (s : BuddyAllocator)
    (start : ℕ) (zones : List MemZone) : BuddyAllocator :=
  let s := settledRegions B s start zones
  let c := collectOn B s ⟨indices, lg2idx, 0⟩ (nodes B.depth)
  (List.range (freeCount B s)).foldl
    (fun s i => pushEntry B s (c.lg2idx i%2^8) (c.indices i)) s

/-- The search for a block at the requested level or above it. -/
def searchLoop (B : Build) : ℕ → ℕ → ℕ → BuddyAllocator → ℕ × ℕ × ℕ × BuddyAllocator
  | 0, block, splits, s => (0, block, splits, s)
  | lvl+1, block, splits, s =>
    if block = B.head (lvl+1) then
      let (block, s) := popEntry B s lvl
      searchLoop B lvl block (splits+1) s
    else (lvl+1, block, splits, s)

/-- The remaining `splits` passes of the split loop from level `i` on. -/
def splitLoop (B : Build) : ℕ → ℕ → ℕ → BuddyAllocator → ℕ × BuddyAllocator
  | 0, _, block, s => (block, s)
  | splits+1, i, block, s =>
    let s := pushEntry B s (i+1) (block*2+2)
    let s := pushEntry B s (i+1) (block*2+1)
    let (block, s) := popEntry B s (i+1)
    splitLoop B splits (i+1) block s

def Build.requestLevel (B : Build) (count : ℕ) : ℕ := B.depth-B.log2ui (pageCount count)

@[irreducible] def allocPages (B : Build) (s : BuddyAllocator) (count : ℕ) : ℕ × BuddyAllocator :=
  if pageCount count > 2^B.depth ∨ pageCount count = 0 then (0, s)
  else
    let lvl := B.requestLevel count
    let (lvl, block, splits, s) := searchLoop B lvl (s.free lvl) 0 s
    if block = B.head lvl then (0, s)
    else
      let (block, s) := splitLoop B splits lvl block s
      let (block, s) := if splits = 0 then popEntry B s lvl else (block, s)
      (getAddress B s block, s)

def kernelSuccess : ℕ := 0
def kernelInvalidInput : ℕ := 6

def freeOffset (B : Build) (s : BuddyAllocator) (ptr lvl : ℕ) : ℕ :=
  (levelStart lvl+(ptr-s.start)/2^(12+B.depth-lvl))%2^32

@[irreducible] def freePages (B : Build) (s : BuddyAllocator) (ptr lvl : ℕ) : ℕ × BuddyAllocator :=
  if ptr = 0 ∨ ptr < s.start ∨ ptr%2^12 ≠ 0 ∨ lvl > B.depth then (kernelInvalidInput, s)
  else
    let offset := freeOffset B s ptr lvl
    let s := pushEntry B s lvl offset
    (kernelSuccess, tryMerge B s offset lvl)

def freeMemorySize (B : Build) (s : BuddyAllocator) : ℕ :=
  (List.range (B.depth+1)).foldl (fun S i => (S+s.size i*B.blockSize i)%2^64) 0

/-- The remaining `n` passes of the loop that skips empty levels from `i` on. -/
def skipEmpty (s : BuddyAllocator) : ℕ → ℕ → ℕ
  | 0, i => i
  | n+1, i => if s.size i = 0 then skipEmpty s n (i+1) else i

/-- The loop reads one size behind the array before it tests its bound, and ignores it. -/
def maxBlockReq (B : Build) (s : BuddyAllocator) : ℕ :=
  let i := skipEmpty s (B.depth+1) 0
  B.blockSize i*(if i ≠ B.depth+1 then 1 else 0)

def fullLoop (s : BuddyAllocator) : ℕ → ℕ → Bool → Bool
  | 0, _, budFull => budFull
  | n+1, i, budFull => if budFull then fullLoop s n (i+1) (budFull && s.size i == 0) else budFull

def isBuddyFull (B : Build) (s : BuddyAllocator) : Bool := fullLoop s B.depth 0 true

/-- The climb from a block to the first node that is not used; `indices` holds the path. -/
def climbLoop (s : BuddyAllocator) : ℕ → ℕ → (ℕ → ℕ) → ℕ × ℕ × (ℕ → ℕ)
  | 0, offset, indices => (0, offset, indices)
  | lvl+1, offset, indices =>
    if s.state offset = 0 then
      let offset := (offset-1)/2
      climbLoop s lvl offset (Function.update indices lvl (offset%2^32))
    else (lvl+1, offset, indices)

/-- The remaining passes of the split loop of `reserveBlock`; each of them looks at the node of
level `lvl` on the path again. -/
def carveLoop (B : Build) (lvl : ℕ) (indices : ℕ → ℕ) :
    ℕ → ℕ → ℕ → BuddyAllocator → ℕ × BuddyAllocator
  | 0, _, block, s => (block, s)
  | n+1, i, _, s =>
    let s := if indices lvl = s.free lvl then (popEntry B s lvl).2
      else if 0 < s.size lvl then removeEntry B s (indices lvl) else s
    let s := pushEntry B s (i+1) (getBuddy (indices (i+1)))
    let s := pushEntry B s (i+1) (indices (i+1))
    let (block, s) := popEntry B s (i+1)
    carveLoop B lvl indices n (i+1) block s

def reserveOffset (B : Build) (s : BuddyAllocator) (blockAddr reqlvl : ℕ) : ℕ :=
  ((blockAddr+(2^64-s.start))%2^64/B.blockSize reqlvl+levelStart reqlvl)%2^64

@[irreducible] def reserveBlock (B : Build) (s : BuddyAllocator) (blockAddr count : ℕ) :
    ℕ × BuddyAllocator :=
  if pageCount count > 2^B.depth ∨ pageCount count = 0 then (0, s)
  else
    let reqlvl := B.requestLevel count
    let offset := reserveOffset B s blockAddr reqlvl
    let (lvl, block, indices) := climbLoop s reqlvl offset
      (Function.update (fun _ => 0) reqlvl (offset%2^32))
    if s.state block = 0 then (0, s)
    else
      let (block, s) := carveLoop B lvl indices (reqlvl-lvl) lvl block s
      (getAddress B s block, s)

end BruhOS.BuddyMachine
