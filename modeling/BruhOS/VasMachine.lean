import BruhOS.PointerTree
import BruhOS.PagingMachine

/-!
# The virtual address space manager

`vas.c` keeps a record for every region of an address space in a node of a
balanced tree. A node is 48 bytes, the record and behind it the words of the
tree, and lies in a slot of 64 bytes with a link for the free list. 63 slots
and 64 bytes of bookkeeping fill a page, and a full list takes another page.

Pointers are what the C text computes. The wrappers cast between pointers to
nodes and pointers to their tree words, which are 24 bytes apart: `insert_node`
leaves a pointer to tree words in `vas->root` and returns another one, and
`lookup_by_address` adds 24 to the root once more.
-/

set_option autoImplicit false

namespace BruhOS.Vas

open BruhOS.PointerTree

/-- `vm_region_t` without the working set, which nothing reads. -/
structure Region where
  address : ℕ
  extent : ℕ
  flags : ℕ
  deriving DecidableEq, Repr

/-- `live` lists the nodes that `alloc_node` has handed out and `free_node` has not got back. -/
structure State where
  mem : Cells
  alloc : ℕ
  root : ℕ
  tables : Paging.State
  live : List ℕ

/-- `avl_tree_entry` of the tree words of a node. -/
def entry (q : ℕ) : ℕ := (q+(2^64-24)) % 2^64

/-- `&node->node`. -/
def words (n : ℕ) : ℕ := (n+24) % 2^64

def region (m : Cells) (q : ℕ) : Option Region :=
  match load64 m (entry q), load32 m (entry q+8), load64 m (entry q+16) with
  | some address, some extent, some flags => some ⟨address, extent, flags⟩
  | _, _, _ => none

def avlCmpVmAddress (m : Cells) (address q : ℕ) : Option ℤ :=
  (load64 m (entry q)).map (fun a =>
    (if address < a then -1 else 0)+(if a < address then 1 else 0))

/-- `__avl_cmp_vm_sort_region` on two regions: the extents are pages, the addresses bytes. -/
def sortRegion (address1 extent1 address2 extent2 : ℕ) : ℤ :=
  (if (address1+extent1) % 2^64 < address2 then -1 else 0)+
    (if (address2+extent2) % 2^64 < address1 then 1 else 0)

def avlCmpVmSortRegion (m : Cells) (node1 node2 : ℕ) : Option ℤ := do
  let address1 ← load64 m (entry node1)
  let extent1 ← load32 m (entry node1+8)
  let address2 ← load64 m (entry node2)
  let extent2 ← load32 m (entry node2+8)
  some (sortRegion address1 extent1 address2 extent2)

/-- `memset` with zeros. -/
def clear (m : Cells) (a bytes : ℕ) : Cells :=
  fun b => if a ≤ b ∧ b < a+bytes then some 0 else m b

/-- The assignments `slot.nextNode = &slot + 1` of `n` slots from `slot` on. -/
def chainNodes : ℕ → ℕ → Cells → Cells
  | 0, _, m => m
  | n+1, slot, m => chainNodes n (slot+64) (store64 m (slot+48) (slot+64))

section Code

variable (off : ℕ) (pfaAllocPage : ℕ → ℕ)

/-- The next page of the page frame allocator, as a virtual pointer. -/
def page (k : ℕ) : ℕ := Paging.virt off (pfaAllocPage k)

/-- `create_node_list`, and the tree that is empty. -/
def createNodeList (m : Cells) (tables : Paging.State) : State :=
  let head := page off pfaAllocPage tables.taken
  let m := store64 m head 0
  let m := store64 m (head+16) (head+64)
  let m := store64 m (head+24) (head+64)
  let m := store32 m (head+32) 63
  let m := store32 m (head+36) 0
  let m := store32 m (head+40) 1
  let m := chainNodes 62 (head+64) m
  let m := store64 m (head+64*63+48) 0
  { mem := m, alloc := head, root := 0, live := []
    tables := { tables with taken := tables.taken+1 } }

/-- The page that `alloc_node` appends: the list of pages. -/
def appendPage (m : Cells) (head new : ℕ) : Option Cells := do
  let nextPage ← load64 m head
  if nextPage = 0 then some (store64 (store64 m (head+8) new) head new)
  else do
    let last ← load64 m (head+8)
    let m := store64 m last new
    let last ← load64 m (head+8)
    let next ← load64 m last
    some (store64 m (head+8) next)

/-- The page that `alloc_node` appends: its slots. The `memset` starts behind the
bookkeeping and has the size of the page. -/
def initPage (m : Cells) (head : ℕ) : Option Cells := do
  let last ← load64 m (head+8)
  let m := clear m (last+64) 4096
  let last ← load64 m (head+8)
  let m := chainNodes 63 (last+64) m
  let m := store64 m (last+64*63+48) 0
  let m := store64 m (head+24) (last+64)
  let totalNodes ← load32 m (head+32)
  let m := store32 m (head+32) (totalNodes+63)
  let totalPages ← load32 m (head+40)
  some (store32 m (head+40) (totalPages+1))

def allocNode (s : State) : Option (ℕ × State) := do
  let out ← load64 s.mem (s.alloc+24)
  let next ← load64 s.mem (out+48)
  let m := store64 s.mem (s.alloc+24) next
  let usedNodes ← load32 m (s.alloc+36)
  let m := store32 m (s.alloc+36) (usedNodes+1)
  let usedNodes ← load32 m (s.alloc+36)
  let totalNodes ← load32 m (s.alloc+32)
  if usedNodes < totalNodes then
    some (out, { s with mem := m, live := out::s.live })
  else do
    let m ← appendPage m s.alloc (page off pfaAllocPage s.tables.taken)
    let m ← initPage m s.alloc
    some (out, { s with mem := m, live := out::s.live
                        tables := { s.tables with taken := s.tables.taken+1 } })

def freeNode (s : State) (node : ℕ) : Option State := do
  let usedNodes ← load32 s.mem (s.alloc+36)
  if usedNodes = 0 then some s
  else do
    let free ← load64 s.mem (s.alloc+24)
    let m := store64 s.mem (node+48) free
    let m := store64 m (s.alloc+24) node
    let usedNodes ← load32 m (s.alloc+36)
    some { s with mem := store32 m (s.alloc+36) (usedNodes+(2^32-1)), live := s.live.erase node }

/-- The assignment of a record to a node. -/
def setRecord (m : Cells) (n : ℕ) (r : Region) : Cells :=
  store64 (store32 (store32 (store64 m n r.address) (n+8) r.extent) (n+12) 0) (n+16) r.flags

variable (avl : Avl) (Table fuel : ℕ)

/-- The search of `insert_node`: the tree words of a conflicting node, or a vacant place. -/
def insertWalk (s : State) (newnode : ℕ) : Option (ℕ ⊕ Place) :=
  walk (avlCmpVmSortRegion s.mem (words newnode)) s.mem fuel .root s.root

/-- The insertion at a vacant place. -/
def insertAt (s : State) (pl : Place) (newnode : ℕ) : State :=
  let l := link s.mem s.root pl (words newnode)
  let r := avl.rebalance l.1 l.2 (words newnode)
  { s with mem := r.1, root := r.2 }

/-- The node that `vas_alloc` has filled in before it inserts it. -/
def prepare (s : State) (r : Region) : Option (ℕ × State) := do
  let (newnode, s) ← allocNode off pfaAllocPage s
  some (newnode, { s with mem := setRecord s.mem newnode r })

/-- The mapping of a region after its node is in the tree. -/
def mapRegion (s : State) (r : Region) : State :=
  { s with
    tables := Paging.toVirtualFlag off pfaAllocPage Table r.address r.extent r.flags s.tables }

def vasAlloc (s : State) (r : Region) : Option (ℕ × State) := do
  let (newnode, s) ← prepare off pfaAllocPage s r
  match ← insertWalk fuel s newnode with
  | .inl tmp => do
    let s ← freeNode s tmp
    some (0, s)
  | .inr pl => some (r.address, mapRegion off pfaAllocPage Table (insertAt avl s pl newnode) r)

def lookupByAddress (s : State) (address : ℕ) : Option ℕ :=
  seek (avlCmpVmAddress s.mem address) s.mem fuel (words s.root)

def vasFree (s : State) (ptr : ℕ) : Option State := do
  let toDel ← lookupByAddress fuel s ptr
  if toDel = 0 then some s
  else do
    let r := avl.remove s.mem s.root (words toDel)
    let extent ← load32 r.1 (toDel+8)
    let tables := { s.tables with mem := Paging.unVirtual off Table ptr extent s.tables.mem }
    freeNode { s with mem := r.1, root := r.2, tables := tables } toDel

inductive Op where
  | alloc (r : Region)
  | free (ptr : ℕ)
  deriving DecidableEq, Repr

def step (s : State) : Op → Option State
  | .alloc r => (vasAlloc off pfaAllocPage avl Table fuel s r).map Prod.snd
  | .free ptr => vasFree off avl Table fuel s ptr

def run : List Op → State → Option State
  | [], s => some s
  | op::ops, s => (step off pfaAllocPage avl Table fuel s op).bind (run ops)

variable {off pfaAllocPage avl Table fuel}

/-- A run from a state whose remaining calls are all in order; `n` counts the calls made. -/
theorem run_invariant {I : ℕ → State → Prop} {M : List Op → State → Prop} {k : ℕ}
    (hstep : ∀ n s op ops, I n s → n < k → M (op::ops) s →
      ∃ s', step off pfaAllocPage avl Table fuel s op = some s' ∧ I (n+1) s' ∧ M ops s')
    (ops : List Op) (n : ℕ) (s : State) (h : I n s) (hn : n+ops.length < k+1) (hm : M ops s) :
    ∃ s', run off pfaAllocPage avl Table fuel ops s = some s' ∧ I (n+ops.length) s' := by
  induction ops generalizing n s with
  | nil => exact ⟨s, rfl, h⟩
  | cons op ops ih =>
    rw [List.length_cons] at hn ⊢
    obtain ⟨s', heq, hI, hM⟩ := hstep n s op ops h (by omega) hm
    obtain ⟨s'', hrun, hI'⟩ := ih (n+1) s' hI (by omega) hM
    refine ⟨s'', ?_, ?_⟩
    · rw [run, heq, Option.bind_some, hrun]
    · rwa [show n+(ops.length+1) = n+1+ops.length by omega]

end Code

end BruhOS.Vas
