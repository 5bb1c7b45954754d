import BruhOS.PointerTree

/-!
# The balanced tree library

`avl_tree.c` and the insertion and lookup of its header. A node is its three
words, the root pointer a variable beside the memory. A sign chooses between
the left and the right child, as in the source. A loop has fuel and no result
without it; that it ends is a theorem about the trees it runs on.
-/

set_option autoImplicit false

namespace BruhOS.AvlTree
open PointerTree

section Node

variable (m : Cells) (node : ℕ)

/-- `node->left` -/
def left : Option ℕ := load64 m node

/-- `node->right` -/
def right : Option ℕ := load64 m (node+8)

/-- `node->parent_balance` -/
def parentBalance : Option ℕ := load64 m (node+16)

def avlGetParent : Option ℕ := (parentBalance m node).map (fun w => w/4*4)

def avlGetChild (sign : ℤ) : Option ℕ := if sign < 0 then left m node else right m node

def avlSetChild (sign : ℤ) (child : ℕ) : Cells :=
  if sign < 0 then store64 m node child else store64 m (node+8) child

def avlSetParentBalance (parent : ℕ) (balanceFactor : ℤ) : Cells :=
  store64 m (node+16) (parent ||| ((balanceFactor+1) % 2^64).toNat)

def avlSetParent (parent : ℕ) : Option Cells :=
  (parentBalance m node).map (fun w => store64 m (node+16) (parent ||| w % 4))

def avlGetBalanceFactor : Option ℤ := (parentBalance m node).map (fun w => ((w % 4 : ℕ) : ℤ)-1)

def avlAdjustBalanceFactor (amount : ℤ) : Option Cells :=
  (parentBalance m node).map (fun w => store64 m (node+16) (((w : ℤ)+amount) % 2^64).toNat)

def avlTreeNodeSetUnlinked : Cells := store64 m (node+16) node

def avlTreeNodeIsUnlinked : Option Bool := (parentBalance m node).map (fun w => w == node)

end Node

section Rotate

variable (m : Cells) (root : ℕ)

def avlReplaceChild (parent oldChild newChild : ℕ) : Option (Cells × ℕ) :=
  if parent = 0 then some (m, newChild)
  else (left m parent).map (fun l =>
    if oldChild = l then (store64 m parent newChild, root)
    else (store64 m (parent+8) newChild, root))

/-- `if (E) avl_set_parent(E, parent)` -/
def setParentIf (E parent : ℕ) : Option Cells :=
  if E = 0 then some m else avlSetParent m E parent

def avlRotate (A : ℕ) (sign : ℤ) : Option (Cells × ℕ) := do
  let B ← avlGetChild m A (-sign)
  let E ← avlGetChild m B sign
  let P ← avlGetParent m A
  let m := avlSetChild m A (-sign) E
  let m ← avlSetParent m A B
  let m := avlSetChild m B sign A
  let m ← avlSetParent m B P
  let m ← setParentIf m E A
  avlReplaceChild m root P A B

/-- The root pointer and the node that is on top afterwards. -/
def avlDoDoubleRotate (B A : ℕ) (sign : ℤ) : Option (Cells × ℕ × ℕ) := do
  let E ← avlGetChild m B sign
  let F ← avlGetChild m E (-sign)
  let G ← avlGetChild m E sign
  let P ← avlGetParent m A
  let e ← avlGetBalanceFactor m E
  let m := avlSetChild m A (-sign) G
  let m := avlSetParentBalance m A E (if 0 ≤ sign*e then 0 else -e)
  let m := avlSetChild m B sign F
  let m := avlSetParentBalance m B E (if sign*e ≤ 0 then 0 else -e)
  let m := avlSetChild m E sign A
  let m := avlSetChild m E (-sign) B
  let m := avlSetParentBalance m E P 0
  let m ← setParentIf m G A
  let m ← setParentIf m F B
  let (m, root) ← avlReplaceChild m root P A E
  return (m, root, E)

end Rotate

/-- The Boolean tells that the whole tree is balanced. -/
def avlHandleSubtreeGrowth (m : Cells) (root node parent : ℕ) (sign : ℤ) :
    Option (Cells × ℕ × Bool) := do
  let oldBalanceFactor ← avlGetBalanceFactor m parent
  if oldBalanceFactor = 0 then
    let m ← avlAdjustBalanceFactor m parent sign
    return (m, root, false)
  else if oldBalanceFactor+sign = 0 then
    let m ← avlAdjustBalanceFactor m parent sign
    return (m, root, true)
  else
    let factor ← avlGetBalanceFactor m node
    if 0 < sign*factor then
      let (m, root) ← avlRotate m root parent (-sign)
      let m ← avlAdjustBalanceFactor m parent (-sign)
      let m ← avlAdjustBalanceFactor m node (-sign)
      return (m, root, true)
    else
      let (m, root, _) ← avlDoDoubleRotate m root node parent (-sign)
      return (m, root, true)

/-- The loop of `avl_tree_rebalance_after_insert`: `node` is the subtree that has grown. -/
def growthLoop : ℕ → Cells → ℕ → ℕ → Option (Cells × ℕ)
  | 0, _, _, _ => none
  | fuel+1, m, root, node => do
    let parent ← avlGetParent m node
    if parent = 0 then return (m, root)
    else
      let l ← left m parent
      let (m, root, done) ← avlHandleSubtreeGrowth m root node parent (if node = l then -1 else 1)
      if done then return (m, root) else growthLoop fuel m root parent

def avlTreeRebalanceAfterInsert (fuel : ℕ) (m : Cells) (root inserted : ℕ) :
    Option (Cells × ℕ) := do
  let m := store64 (store64 m inserted 0) (inserted+8) 0
  let parent ← avlGetParent m inserted
  if parent = 0 then return (m, root)
  else
    let l ← left m parent
    let m ← avlAdjustBalanceFactor m parent (if inserted = l then -1 else 1)
    let factor ← avlGetBalanceFactor m parent
    if factor = 0 then return (m, root) else growthLoop fuel m root parent

/-- The end of `avl_handle_subtree_shrink`: the parent of a node that has shrunk, and
whether the node is its left child. -/
def shrunkParent (m : Cells) (root node : ℕ) (leftDeleted : Bool) :
    Option (Cells × ℕ × ℕ × Bool) := do
  let parent ← avlGetParent m node
  if parent = 0 then return (m, root, 0, leftDeleted)
  else
    let l ← left m parent
    return (m, root, parent, node == l)

/-- The result is the parent to go on with, or zero. -/
def avlHandleSubtreeShrink (m : Cells) (root parent : ℕ) (sign : ℤ) (leftDeleted : Bool) :
    Option (Cells × ℕ × ℕ × Bool) := do
  let oldBalanceFactor ← avlGetBalanceFactor m parent
  if oldBalanceFactor = 0 then
    let m ← avlAdjustBalanceFactor m parent sign
    return (m, root, 0, leftDeleted)
  else if oldBalanceFactor+sign = 0 then
    let m ← avlAdjustBalanceFactor m parent sign
    shrunkParent m root parent leftDeleted
  else
    let node ← avlGetChild m parent sign
    let factor ← avlGetBalanceFactor m node
    if 0 ≤ sign*factor then
      let (m, root) ← avlRotate m root parent (-sign)
      let factor ← avlGetBalanceFactor m node
      if factor = 0 then
        let m ← avlAdjustBalanceFactor m node (-sign)
        return (m, root, 0, leftDeleted)
      else
        let m ← avlAdjustBalanceFactor m parent (-sign)
        let m ← avlAdjustBalanceFactor m node (-sign)
        shrunkParent m root node leftDeleted
    else
      let (m, root, node) ← avlDoDoubleRotate m root node parent (-sign)
      shrunkParent m root node leftDeleted

/-- `do { Q = Y; Y = Y->left; } while (Y->left);` -/
def descend : ℕ → Cells → ℕ → Option (ℕ × ℕ)
  | 0, _, _ => none
  | fuel+1, m, Q => do
    let Y ← left m Q
    let l ← left m Y
    if l = 0 then return (Q, Y) else descend fuel m Y

/-- The two cases of `avl_tree_swap_with_successor`: the successor, what the function
returns, and whether the successor was a left child. -/
def detachSuccessor (fuel : ℕ) (m : Cells) (X : ℕ) : Option (Cells × ℕ × ℕ × Bool) := do
  let Y ← right m X
  let l ← left m Y
  if l = 0 then return (m, Y, Y, false)
  else
    let (Q, Y) ← descend fuel m Y
    let B ← right m Y
    let m := store64 m Q B
    let m ← setParentIf m B Q
    let r ← right m X
    let m := store64 m (Y+8) r
    let r ← right m X
    let m ← avlSetParent m r Y
    return (m, Y, Q, true)

/-- The parent of the unlinked node, and whether the node was its left child. -/
def avlTreeSwapWithSuccessor (fuel : ℕ) (m : Cells) (root X : ℕ) :
    Option (Cells × ℕ × ℕ × Bool) := do
  let (m, Y, ret, leftDeleted) ← detachSuccessor fuel m X
  let l ← left m X
  let m := store64 m Y l
  let l ← left m X
  let m ← avlSetParent m l Y
  let w ← parentBalance m X
  let m := store64 m (Y+16) w
  let P ← avlGetParent m X
  let (m, root) ← avlReplaceChild m root P X Y
  return (m, root, ret, leftDeleted)

/-- The last loop of `avl_tree_remove`. -/
def shrinkLoop : ℕ → Cells → ℕ → ℕ → Bool → Option (Cells × ℕ)
  | 0, _, _, _, _ => none
  | fuel+1, m, root, parent, leftDeleted => do
    let (m, root, parent, leftDeleted) ←
      avlHandleSubtreeShrink m root parent (if leftDeleted then 1 else -1) leftDeleted
    if parent = 0 then return (m, root) else shrinkLoop fuel m root parent leftDeleted

def avlTreeRemove (fuel : ℕ) (m : Cells) (root node : ℕ) : Option (Cells × ℕ) := do
  let l ← left m node
  let r ← right m node
  if l ≠ 0 ∧ r ≠ 0 then
    let (m, root, parent, leftDeleted) ← avlTreeSwapWithSuccessor fuel m root node
    shrinkLoop fuel m root parent leftDeleted
  else
    let child := if l ≠ 0 then l else r
    let parent ← avlGetParent m node
    if parent = 0 then
      let m ← setParentIf m child 0
      return (m, child)
    else
      let pl ← left m parent
      let m := if node = pl then store64 m parent child else store64 m (parent+8) child
      let m ← setParentIf m child parent
      shrinkLoop fuel m root parent (node == pl)

section Header

/-- `avl_tree_lookup` -/
def avlTreeLookup (fuel : ℕ) (cmp : ℕ → Option ℤ) (m : Cells) (root : ℕ) : Option ℕ :=
  seek cmp m fuel root

/-- `avl_tree_insert`: the node that compares equal, or zero. -/
def avlTreeInsert (fuel : ℕ) (cmp : ℕ → Option ℤ) (m : Cells) (root item : ℕ) :
    Option (Cells × ℕ × ℕ) := do
  match ← walk cmp m fuel .root root with
  | .inl cur => return (m, root, cur)
  | .inr pl =>
    let l := link m root pl item
    let (m, root) ← avlTreeRebalanceAfterInsert fuel l.1 l.2 item
    return (m, root, 0)

end Header

section Traversal

/-- The loop of `avl_tree_first_or_last_in_order`. -/
def outermost : ℕ → Cells → ℕ → ℤ → Option ℕ
  | 0, _, _, _ => none
  | fuel+1, m, first, sign => do
    let child ← avlGetChild m first sign
    if child = 0 then return first else outermost fuel m child sign

/-- The second loop of `avl_tree_next_or_prev_in_order`. -/
def ascend : ℕ → Cells → ℕ → ℤ → Option ℕ
  | 0, _, _, _ => none
  | fuel+1, m, node, sign => do
    let next ← avlGetParent m node
    if next = 0 then return 0
    else
      let child ← avlGetChild m next sign
      if node = child then ascend fuel m next sign else return next

/-- The loop of both postorder functions. -/
def deepest : ℕ → Cells → ℕ → Option ℕ
  | 0, _, _ => none
  | fuel+1, m, first => do
    let l ← left m first
    if l ≠ 0 then deepest fuel m l
    else
      let r ← right m first
      if r ≠ 0 then deepest fuel m r else return first

variable (fuel : ℕ) (m : Cells)

def avlTreeFirstOrLastInOrder (root : ℕ) (sign : ℤ) : Option ℕ :=
  if root = 0 then some 0 else outermost fuel m root sign

def avlTreeFirstInOrder (root : ℕ) : Option ℕ := avlTreeFirstOrLastInOrder fuel m root (-1)

def avlTreeLastInOrder (root : ℕ) : Option ℕ := avlTreeFirstOrLastInOrder fuel m root 1

def avlTreeNextOrPrevInOrder (node : ℕ) (sign : ℤ) : Option ℕ := do
  let child ← avlGetChild m node sign
  if child ≠ 0 then outermost fuel m child (-sign) else ascend fuel m node sign

def avlTreeNextInOrder (node : ℕ) : Option ℕ := avlTreeNextOrPrevInOrder fuel m node 1

def avlTreePrevInOrder (node : ℕ) : Option ℕ := avlTreeNextOrPrevInOrder fuel m node (-1)

def avlTreeFirstInPostorder (root : ℕ) : Option ℕ :=
  if root = 0 then some 0 else deepest fuel m root

/-- `prev` is compared and not read. -/
def avlTreeNextInPostorder (prev prevParent : ℕ) : Option ℕ :=
  if prevParent = 0 then some 0
  else do
    let l ← left m prevParent
    if prev = l then
      let r ← right m prevParent
      if r ≠ 0 then deepest fuel m r else return prevParent
    else return prevParent

/-- The loop of `avl_tree_for_each_in_order` (positive sign) and of its reverse: the nodes that
the body sees. -/
def forEachFrom (sign : ℤ) : ℕ → ℕ → Option (List ℕ)
  | 0, _ => none
  | n+1, cur =>
    if cur = 0 then some []
    else do
      let next ← avlTreeNextOrPrevInOrder fuel m cur sign
      let rest ← forEachFrom sign n next
      return cur::rest

def avlTreeForEachInOrder (sign : ℤ) (n root : ℕ) : Option (List ℕ) := do
  let first ← avlTreeFirstOrLastInOrder fuel m root (-sign)
  forEachFrom fuel m sign n first

/-- The loop of `avl_tree_for_each_in_postorder`, whose body may change memory. -/
def postorderFrom (body : Cells → ℕ → Cells) : ℕ → Cells → ℕ → Option (List ℕ × Cells)
  | 0, _, _ => none
  | n+1, m, cur =>
    if cur = 0 then some ([], m)
    else do
      let parent ← avlGetParent m cur
      let m := body m cur
      let next ← avlTreeNextInPostorder fuel m cur parent
      let (rest, m) ← postorderFrom body n m next
      return (cur::rest, m)

def avlTreeForEachInPostorder (body : Cells → ℕ → Cells) (n root : ℕ) :
    Option (List ℕ × Cells) := do
  let first ← avlTreeFirstInPostorder fuel m root
  postorderFrom fuel body n m first

end Traversal

end BruhOS.AvlTree
