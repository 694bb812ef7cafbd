/-
  The red-black tree of lib/rbtree.c, over a heap.

  Source: lib/rbtree.c and include/linux/rbtree.h.

  A heap holds one `struct rb_node` per live address.  `rb_parent_color` packs
  the parent pointer and the colour into one word; the two are separate fields
  here, and every macro of rbtree.h that touches one of them keeps the other.
  Pointers are `Option α`, with `none` for NULL.

  Every dereference goes through the heap and fails (`none`) when the address is
  NULL or not live, so a result `some h` says that the code dereferenced existing
  nodes only.  The two `while` loops are written as such with `partial_fixpoint`:
  a loop that does not terminate has the value `none` as well.  Termination is
  part of the theorems of `Lib/RbtreeInsert.lean` and `Lib/RbtreeErase.lean`.

  The source spells out each function twice, once for each side.  `Side` is the
  side named first in the source's left-hand branch; the mirror branch is the
  same definition at the other side.
-/
import LinuxKernel.Foundation.ColorTree

namespace LinuxKernel.Lib.Rbtree

open Foundation Function

/-! ## Memory -/

/-- A pointer-sized location that holds a link to a node: `root->rb_node`, or
`rb_left` / `rb_right` of a node. -/
inductive Loc (α : Type) where
  | root
  | child (a : α) (d : Side)
  deriving DecidableEq, Repr

/-- The memory of one tree. -/
@[ext]
structure RbHeap (α : Type) where
  /-- the addresses that hold a `struct rb_node` -/
  live : α → Bool
  /-- `rb_parent(r)` -/
  parent : α → Option α
  /-- `rb_color(r)` -/
  color : α → Color
  /-- the links -/
  slot : Loc α → Option α

variable {α : Type} [DecidableEq α]

namespace RbHeap

/-- Overwrite a parent pointer, leaving the colour bit alone. -/
def putParent (h : RbHeap α) (a : α) (p : Option α) : RbHeap α :=
  { h with parent := update h.parent a p }

/-- Overwrite a colour bit, leaving the parent pointer alone. -/
def putColor (h : RbHeap α) (a : α) (c : Color) : RbHeap α :=
  { h with color := update h.color a c }

/-- Overwrite a link. -/
def putSlot (h : RbHeap α) (loc : Loc α) (p : Option α) : RbHeap α :=
  { h with slot := update h.slot loc p }

/-- `rb_parent(r)`. -/
def rbParent (h : RbHeap α) (a : α) : Option (Option α) :=
  if h.live a then some (h.parent a) else none

/-- `rb_color(r)`. -/
def rbColor (h : RbHeap α) (a : α) : Option Color :=
  if h.live a then some (h.color a) else none

/-- `r->rb_left` and `r->rb_right`. -/
def rbChild (h : RbHeap α) (a : α) (d : Side) : Option (Option α) :=
  if h.live a then some (h.slot (.child a d)) else none

/-- `rb_set_parent(r, p)`. -/
def rbSetParent (h : RbHeap α) (a : α) (p : Option α) : Option (RbHeap α) :=
  if h.live a then some (h.putParent a p) else none

/-- `rb_set_color(r, c)`, and with it `rb_set_red(r)` and `rb_set_black(r)`. -/
def rbSetColor (h : RbHeap α) (a : α) (c : Color) : Option (RbHeap α) :=
  if h.live a then some (h.putColor a c) else none

/-- `r->rb_left = p` and `r->rb_right = p`. -/
def rbSetChild (h : RbHeap α) (a : α) (d : Side) (p : Option α) : Option (RbHeap α) :=
  if h.live a then some (h.putSlot (.child a d) p) else none

/-- `!n || rb_is_black(n)` for a possibly NULL child `n`. -/
def blackOrNull (h : RbHeap α) : Option α → Option Bool
  | none => some true
  | some a => (h.rbColor a).map fun c => decide (c = .black)

/-- `if (n) rb_set_parent(n, p)`. -/
def setParentIf (h : RbHeap α) (n : Option α) (p : Option α) : Option (RbHeap α) :=
  match n with
  | none => some h
  | some a => h.rbSetParent a p

/-- `if (n) rb_set_color(n, c)`. -/
def setColorIf (h : RbHeap α) (n : Option α) (c : Color) : Option (RbHeap α) :=
  match n with
  | none => some h
  | some a => h.rbSetColor a c

/-- Make the link that held `old` hold `new`: in the parent's child on side `d`
if that is `old`, else in its other child, or in the root when there is no
parent. -/
def replaceChild (h : RbHeap α) (d : Side) (parent : Option α) (old : α) (new : Option α) :
    Option (RbHeap α) :=
  match parent with
  | none => some (h.putSlot .root new)
  | some p => do
      if (← h.rbChild p d) = some old then h.rbSetChild p d new
      else h.rbSetChild p d.opp new

end RbHeap

open RbHeap

/-! ## Rotations -/

/-- `__rb_rotate_left` at `Side.left` and `__rb_rotate_right` at `Side.right`. -/
def rbRotate (h : RbHeap α) (d : Side) (node : α) : Option (RbHeap α) := do
  let right ← (← h.rbChild node d.opp)
  let parent ← h.rbParent node
  let inner ← h.rbChild right d
  let h ← h.rbSetChild node d.opp inner
  let h ← h.setParentIf inner (some node)
  let h ← h.rbSetChild right d (some node)
  let h ← h.rbSetParent right parent
  let h ← h.replaceChild d parent node (some right)
  h.rbSetParent node (some right)

/-! ## Insertion -/

/-- `rb_link_node`; `rb_link` is the location the caller found. -/
def rbLinkNode (h : RbHeap α) (node : α) (parent : Option α) (rbLink : Loc α) :
    Option (RbHeap α) := do
  let h ← h.rbSetParent node parent
  let h ← h.rbSetColor node .red
  let h ← h.rbSetChild node .left none
  let h ← h.rbSetChild node .right none
  match rbLink with
  | .root => some (h.putSlot .root (some node))
  | .child p d => h.rbSetChild p d (some node)

/-- The body of the loop of `rb_insert_color` when `parent` is the child of
`gparent` on side `d`.  The result is the heap and the node the loop goes on
with. -/
def insertColorBody (h : RbHeap α) (d : Side) (node parent gparent : α) :
    Option (RbHeap α × α) := do
  let uncle ← h.rbChild gparent d.opp
  if (← h.blackOrNull uncle) then
    if (← h.rbChild parent d.opp) = some node then
      let h ← rbRotate h d parent
      -- node and parent trade places
      let h ← h.rbSetColor node .black
      let h ← h.rbSetColor gparent .red
      let h ← rbRotate h d.opp gparent
      some (h, parent)
    else
      let h ← h.rbSetColor parent .black
      let h ← h.rbSetColor gparent .red
      let h ← rbRotate h d.opp gparent
      some (h, node)
  else
    let h ← h.setColorIf uncle .black
    let h ← h.rbSetColor parent .black
    let h ← h.rbSetColor gparent .red
    some (h, gparent)

/-- The loop of `rb_insert_color`. -/
def RbHeap.insertColorLoop (h : RbHeap α) (node : α) : Option (RbHeap α) := do
  match (← h.rbParent node) with
  | none => some h
  | some parent =>
    if (← h.rbColor parent) = .black then some h
    else
      let gparent ← (← h.rbParent parent)
      let d := if (← h.rbChild gparent .left) = some parent then Side.left else Side.right
      let (h, node) ← insertColorBody h d node parent gparent
      h |>.insertColorLoop node
partial_fixpoint

/-- `rb_insert_color`. -/
def rbInsertColor (h : RbHeap α) (node : α) : Option (RbHeap α) := do
  let h ← insertColorLoop h node
  let root ← h.slot .root
  h.rbSetColor root .black

/-! ## Removal -/

/-- How the body of the loop of `__rb_erase_color` ends: the loop goes on one
level up, or it is left by `break` with the root as current node. -/
inductive EraseNext (α : Type) where
  | again (node : α) (parent : Option α)
  | done (node : Option α)
  deriving DecidableEq, Repr

/-- The sibling `other` of the current node, which hangs on side `d` of `parent`;
a red sibling is rotated away first. -/
def eraseColorSibling (h : RbHeap α) (d : Side) (parent : α) : Option (RbHeap α × α) := do
  let other ← (← h.rbChild parent d.opp)
  if (← h.rbColor other) = .red then
    let h ← h.rbSetColor other .black
    let h ← h.rbSetColor parent .red
    let h ← rbRotate h d parent
    let other ← (← h.rbChild parent d.opp)
    some (h, other)
  else some (h, other)

/-- The last rotation of `__rb_erase_color`, when the child of `other` on the far
side is red. -/
def eraseColorRotate (h : RbHeap α) (d : Side) (parent other : α) : Option (RbHeap α) := do
  let h ← h.rbSetColor other (← h.rbColor parent)
  let h ← h.rbSetColor parent .black
  let far ← h.rbChild other d.opp
  let h ← h.setColorIf far .black
  rbRotate h d parent

/-- The rest of the body of the loop of `__rb_erase_color`, once the sibling
`other` is black: recolour it, or rotate once or twice. -/
def eraseColorBlack (h : RbHeap α) (d : Side) (parent other : α) :
    Option (RbHeap α × EraseNext α) := do
  let near ← h.rbChild other d
  let far ← h.rbChild other d.opp
  if (← h.blackOrNull near) ∧ (← h.blackOrNull far) then
    let h ← h.rbSetColor other .red
    let up ← h.rbParent parent
    some (h, .again parent up)
  else if (← h.blackOrNull far) then
    let h ← h.setColorIf near .black
    let h ← h.rbSetColor other .red
    let h ← rbRotate h d.opp other
    let other ← (← h.rbChild parent d.opp)
    let h ← eraseColorRotate h d parent other
    some (h, .done (h.slot .root))
  else
    let h ← eraseColorRotate h d parent other
    some (h, .done (h.slot .root))

/-- The body of the loop of `__rb_erase_color` when `node` is the child of
`parent` on side `d`. -/
def eraseColorBody (h : RbHeap α) (d : Side) (parent : α) :
    Option (RbHeap α × EraseNext α) := do
  let (h, other) ← eraseColorSibling h d parent
  eraseColorBlack h d parent other

/-- The loop of `__rb_erase_color`, with the node it ends at. -/
def RbHeap.eraseColorLoop (h : RbHeap α) (node parent : Option α) :
    Option (RbHeap α × Option α) := do
  if (← h.blackOrNull node) ∧ node ≠ h.slot .root then
    let parent ← parent
    let d := if (← h.rbChild parent .left) = node then Side.left else Side.right
    let (h, next) ← eraseColorBody h d parent
    match next with
    | .again node parent => h |>.eraseColorLoop (some node) parent
    | .done node => some (h, node)
  else some (h, node)
partial_fixpoint

/-- `__rb_erase_color`. -/
def rbEraseColor (h : RbHeap α) (node parent : Option α) : Option (RbHeap α) := do
  let (h, node) ← eraseColorLoop h node parent
  h.setColorIf node .black

/-- `while ((left = node->rb_left) != NULL) node = left;` -/
def RbHeap.leftmost (h : RbHeap α) (node : α) : Option α := do
  match (← h.rbChild node .left) with
  | none => some node
  | some left => h |>.leftmost left
partial_fixpoint

/-- `rb_erase` of a node with at most one child: unlink it and hang `child` in its
place. -/
def eraseOneChild (h : RbHeap α) (node : α) (child : Option α) : Option (RbHeap α) := do
  let parent ← h.rbParent node
  let color ← h.rbColor node
  let h ← h.setParentIf child parent
  let h ← h.replaceChild .left parent node child
  if color = .black then rbEraseColor h child parent else some h

/-- The part of `rb_erase` that puts `node` in the place of `old`: its parent,
colour and children become those of `old`, and their links point to it. -/
def takePlace (h : RbHeap α) (old node : α) : Option (RbHeap α) := do
  let h ← h.rbSetParent node (← h.rbParent old)
  let h ← h.rbSetColor node (← h.rbColor old)
  let h ← h.rbSetChild node .right (← h.rbChild old .right)
  let h ← h.rbSetChild node .left (← h.rbChild old .left)
  let h ← h.replaceChild .left (← h.rbParent old) old (some node)
  let left ← (← h.rbChild old .left)
  let h ← h.rbSetParent left (some node)
  h.setParentIf (← h.rbChild old .right) (some node)

/-- `rb_erase` of a node `old` with two children, up to the label `color`: the
successor `node` of `old` leaves its place to its right child and takes over the
place of `old`.  The result is the heap with `child`, `parent` and `color`. -/
def eraseSuccessor (h : RbHeap α) (old right : α) :
    Option (RbHeap α × Option α × α × Color) := do
  let node ← leftmost h right
  let child ← h.rbChild node .right
  let parent ← (← h.rbParent node)
  let color ← h.rbColor node
  let h ← h.setParentIf child (some parent)
  if parent = old then
    let h ← h.rbSetChild parent .right child
    let h ← takePlace h old node
    some (h, child, node, color)
  else
    let h ← h.rbSetChild parent .left child
    let h ← takePlace h old node
    some (h, child, parent, color)

/-- `rb_erase`. -/
def rbErase (h : RbHeap α) (node : α) : Option (RbHeap α) := do
  match (← h.rbChild node .left), (← h.rbChild node .right) with
  | none, right => eraseOneChild h node right
  | some left, none => eraseOneChild h node (some left)
  | some _, some right =>
    let (h, child, parent, color) ← eraseSuccessor h node right
    if color = .black then rbEraseColor h child (some parent) else some h

end LinuxKernel.Lib.Rbtree
