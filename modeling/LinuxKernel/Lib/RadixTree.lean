/-
  Radix trees with tags.

  Source: lib/radix-tree.c, `radix_tree_node_alloc`, `radix_tree_extend`,
  `radix_tree_insert`, `radix_tree_lookup`, `radix_tree_tag_set`,
  `radix_tree_tag_clear`, `radix_tree_shrink`, `radix_tree_delete`,
  `radix_tree_tagged`; include/linux/radix-tree.h.

  Nodes are records in memory.  A node that is freed goes back to the slab as it
  is, and `radix_tree_node_alloc` hands it out again without clearing it; whether
  the memory comes from the slab or from the preloaded nodes makes no difference.
  A BUG and an access to anything but a node in use are failures (`none`).
  Writers are excluded by the callers' locks, so a call is one step.
-/
import LinuxKernel.Foundation.Run

namespace LinuxKernel.Lib.RadixTree

open Foundation Function

/-! ## Data -/

/-- `RADIX_TREE_MAP_SHIFT` and `RADIX_TREE_INDEX_BITS`. -/
structure Config where
  mapShift : Nat
  indexBits : Nat
  mapShift_pos : 0 < mapShift

/-- The values for a 32-bit machine, with CONFIG_BASE_SMALL set and not set. -/
def Config.ofBaseSmall : Bool → Config
  | true => ⟨4, 32, by decide⟩
  | false => ⟨6, 32, by decide⟩

/-- `RADIX_TREE_MAP_SIZE` -/
def Config.mapSize (c : Config) : Nat := 2 ^ c.mapShift

/-- `RADIX_TREE_MAX_PATH` -/
def Config.maxPath (c : Config) : Nat := c.indexBits / c.mapShift + 2

/-- `RADIX_TREE_MAX_TAGS` is 2. -/
abbrev Tag := Fin 2

/-- What a `void *` points to; `direct` is an item whose low bit has been set by
`radix_tree_ptr_to_direct`. -/
inductive Target (α β : Type) where
  | node (a : α)
  | item (x : β)
  | direct (x : β)
  deriving DecidableEq

/-- Pointers; NULL is `none`. -/
abbrev Ptr (α β : Type) := Option (Target α β)

/-- `radix_tree_ptr_to_direct` -/
def ptrToDirect {α β : Type} : Ptr α β → Ptr α β
  | some (.item x) => some (.direct x)
  | p => p

/-- `radix_tree_direct_to_ptr` -/
def directToPtr {α β : Type} : Ptr α β → Ptr α β
  | some (.direct x) => some (.item x)
  | p => p

inductive Errno where
  | ENOMEM
  | EEXIST
  deriving DecidableEq, Repr

/-- The nodes in memory and the fields of the root. -/
structure State (α β : Type) where
  live : α → Bool
  height : α → Nat
  count : α → Nat
  slots : α → Nat → Ptr α β
  tags : α → Tag → Nat → Bool
  rootHeight : Nat
  gfpMask : BitVec 32
  rnode : Ptr α β

section

variable {α β : Type} [DecidableEq α] (c : Config)

namespace State

def setSlot (s : State α β) (a : α) (off : Nat) (p : Ptr α β) : State α β :=
  { s with slots := update s.slots a (update (s.slots a) off p) }

def setCount (s : State α β) (a : α) (n : Nat) : State α β :=
  { s with count := update s.count a n }

def setHeight (s : State α β) (a : α) (n : Nat) : State α β :=
  { s with height := update s.height a n }

def setTag (s : State α β) (a : α) (tag : Tag) (off : Nat) (b : Bool) : State α β :=
  let bits := update (s.tags a tag) off b
  { s with tags := update s.tags a (update (s.tags a) tag bits) }

def setRoot (s : State α β) (height : Nat) (rnode : Ptr α β) : State α β :=
  { s with rootHeight := height, rnode := rnode }

/-! ## Tags -/

/-- `tag_set` -/
def tagSet (s : State α β) (a : α) (tag : Tag) (off : Nat) : State α β := s.setTag a tag off true

/-- `tag_clear` -/
def tagClear (s : State α β) (a : α) (tag : Tag) (off : Nat) : State α β :=
  s.setTag a tag off false

/-- `tag_get` -/
def tagGet (s : State α β) (a : α) (tag : Tag) (off : Nat) : Bool := s.tags a tag off

/-- `1 << (tag + __GFP_BITS_SHIFT)` -/
def tagBit (tag : Tag) : BitVec 32 := BitVec.twoPow 32 (tag.val + 20)

/-- `root_tag_set` -/
def rootTagSet (s : State α β) (tag : Tag) : State α β :=
  { s with gfpMask := s.gfpMask ||| tagBit tag }

/-- `root_tag_clear` -/
def rootTagClear (s : State α β) (tag : Tag) : State α β :=
  { s with gfpMask := s.gfpMask &&& ~~~tagBit tag }

/-- `root_tag_clear_all`; `__GFP_BITS_MASK` is `(1 << 20) - 1`. -/
def rootTagClearAll (s : State α β) : State α β :=
  { s with gfpMask := s.gfpMask &&& (BitVec.twoPow 32 20 - 1) }

/-- `root_tag_get` -/
def rootTagGet (s : State α β) (tag : Tag) : Bool := s.gfpMask &&& tagBit tag != 0

/-- `any_tag_set` -/
def anyTagSet (s : State α β) (a : α) (tag : Tag) : Bool :=
  (List.range c.mapSize).any fun off => s.tags a tag off

/-! ## Nodes -/

/-- `radix_tree_node_alloc`; `mem` is the memory there is. -/
def nodeAlloc (s : State α β) : List α → Option (α × State α β × List α)
  | [] => none
  | a :: mem => some (a, { s with live := update s.live a true }, mem)

/-- `radix_tree_node_free` -/
def nodeFree (s : State α β) (a : α) : State α β :=
  { s with live := update s.live a false }

end State

/-- `__maxindex`, the contents of the table `height_to_maxindex`. -/
def maxindex (height : Nat) : Nat :=
  let tmp := height * c.mapShift
  if tmp ≥ c.indexBits then 2 ^ c.indexBits - 1
  else (2 ^ c.indexBits - 1) >>> (c.indexBits - tmp - 1) >>> 1

/-- `(index >> shift) & RADIX_TREE_MAP_MASK` -/
def slotOffset (index shift : Nat) : Nat := (index >>> shift) &&& (2 ^ c.mapShift - 1)

/-! ## Insertion -/

/-- `while (index > radix_tree_maxindex(height)) height++`, with `rest` entries of the
table from `height` on. -/
def extendHeight (index : Nat) : Nat → Nat → Option Nat
  | 0, _ => none
  | rest + 1, height =>
    if index > maxindex c height then extendHeight index rest (height + 1) else some height

/-- `if (root_tag_get(root, tag)) tag_set(node, tag, 0)` -/
def inheritTag (s : State α β) (node : α) (tag : Tag) : State α β :=
  if s.rootTagGet tag then s.tagSet node tag 0 else s

/-- One round of the loop of `radix_tree_extend`: `node` goes on top. -/
def extendOnce (s : State α β) (node : α) : State α β :=
  let s := s.setSlot node 0 (directToPtr s.rnode)
  let s := inheritTag (inheritTag s node 0) node 1
  let newheight := s.rootHeight + 1
  let s := (s.setHeight node newheight).setCount node 1
  s.setRoot newheight (some (.node node))

/-- The loop of `radix_tree_extend`, for `height - root->height` rounds. -/
def extendLoop : Nat → State α β → List α → State α β × List α × Option Errno
  | 0, s, mem => (s, mem, none)
  | rounds + 1, s, mem =>
    match s.nodeAlloc mem with
    | none => (s, mem, some .ENOMEM)
    | some (node, s, mem) => extendLoop rounds (extendOnce s node) mem

/-- `radix_tree_extend` -/
def radixTreeExtend (s : State α β) (index : Nat) (mem : List α) :
    Option (State α β × List α × Option Errno) := do
  let height ← extendHeight c index (c.maxPath - (s.rootHeight + 1)) (s.rootHeight + 1)
  match s.rnode with
  | none => some ({ s with rootHeight := height }, mem, none)
  | some _ => some (extendLoop (height - s.rootHeight) s mem)

/-- Where the descent of `radix_tree_insert` has arrived. -/
structure Cursor (α β : Type) where
  node : Option α
  offset : Nat
  slot : Ptr α β

/-- The child node that `radix_tree_insert` has to add. -/
def addChild (s : State α β) (height : Nat) (at_ : Cursor α β) (new : α) : State α β :=
  let s := s.setHeight new height
  match at_.node with
  | some node =>
    (s.setSlot node at_.offset (some (.node new))).setCount node (s.count node + 1)
  | none => { s with rnode := some (.node new) }

/-- The loop of `radix_tree_insert`. -/
def insertLoop (index : Nat) : Nat → Nat → State α β → List α → Cursor α β →
    Option (State α β × Except Errno (Cursor α β))
  | 0, _, s, _, at_ => some (s, .ok at_)
  | height + 1, shift, s, mem, at_ =>
    let offset := slotOffset c index shift
    match at_.slot with
    | none =>
      match s.nodeAlloc mem with
      | none => some (s, .error .ENOMEM)
      | some (new, s, mem) =>
        let s := addChild s (height + 1) at_ new
        insertLoop index height (shift - c.mapShift) s mem ⟨some new, offset, s.slots new offset⟩
    | some (.node a) =>
      if s.live a then
        insertLoop index height (shift - c.mapShift) s mem ⟨some a, offset, s.slots a offset⟩
      else none
    | some _ => none

/-- The item goes into a node; a tag there is a BUG. -/
def insertIntoNode (s : State α β) (node : α) (offset : Nat) (item : β) : Option (State α β) :=
  let s := (s.setSlot node offset (some (.item item))).setCount node (s.count node + 1)
  if s.tagGet node 0 offset || s.tagGet node 1 offset then none else some s

/-- The item goes into the root; a tag there is a BUG. -/
def insertIntoRoot (s : State α β) (item : β) : Option (State α β) :=
  let s := { s with rnode := ptrToDirect (some (.item item)) }
  if s.rootTagGet 0 || s.rootTagGet 1 then none else some s

/-- The end of `radix_tree_insert`: the item goes where the descent has arrived. -/
def insertItem (s : State α β) (at_ : Cursor α β) (item : β) :
    Option (State α β × Option Errno) :=
  match at_.slot, at_.node with
  | some _, _ => some (s, some .EEXIST)
  | none, some node => (insertIntoNode s node at_.offset item).map fun s => (s, none)
  | none, none => (insertIntoRoot s item).map fun s => (s, none)

/-- `radix_tree_insert` for a tree that is high enough. -/
def insertBelow (s : State α β) (index : Nat) (item : β) (mem : List α) :
    Option (State α β × Option Errno) := do
  let (s, res) ← insertLoop c index s.rootHeight ((s.rootHeight - 1) * c.mapShift) s mem
    ⟨none, 0, s.rnode⟩
  match res with
  | .error e => some (s, some e)
  | .ok at_ => insertItem s at_ item

/-- `radix_tree_insert` -/
def radixTreeInsert (s : State α β) (index : Nat) (item : β) (mem : List α) :
    Option (State α β × Option Errno) :=
  if index > maxindex c s.rootHeight then do
    let (s, mem, error) ← radixTreeExtend c s index mem
    match error with
    | some e => some (s, some e)
    | none => insertBelow c s index item mem
  else insertBelow c s index item mem

/-! ## Lookup -/

/-- The loop of `radix_tree_lookup`. -/
def lookupLoop (s : State α β) (index : Nat) : Nat → Nat → Ptr α β → Option (Ptr α β)
  | 0, _, node => some node
  | height + 1, shift, node =>
    match node with
    | some (.node a) =>
      if s.live a then
        match s.slots a (slotOffset c index shift) with
        | none => some none
        | some target => lookupLoop s index height (shift - c.mapShift) (some target)
      else none
    | _ => none

/-- `radix_tree_lookup` -/
def radixTreeLookup (s : State α β) (index : Nat) : Option (Ptr α β) :=
  match s.rnode with
  | none => some none
  | some (.direct x) => if index > 0 then some none else some (directToPtr (some (.direct x)))
  | some (.node a) =>
    if s.live a then
      if index > maxindex c (s.height a) then some none
      else lookupLoop c s index (s.height a) ((s.height a - 1) * c.mapShift) s.rnode
    else none
  | some (.item _) => none

/-! ## Setting and clearing a tag -/

/-- `if (!tag_get(slot, tag, offset)) tag_set(slot, tag, offset)` -/
def ensureTag (s : State α β) (a : α) (tag : Tag) (offset : Nat) : State α β :=
  if !s.tagGet a tag offset then s.tagSet a tag offset else s

/-- `if (slot && !root_tag_get(root, tag)) root_tag_set(root, tag)` -/
def ensureRootTag (s : State α β) (slot : Ptr α β) (tag : Tag) : State α β :=
  if slot.isSome && !s.rootTagGet tag then s.rootTagSet tag else s

/-- The loop of `radix_tree_tag_set`. -/
def tagSetLoop (index : Nat) (tag : Tag) : Nat → Nat → State α β → Ptr α β →
    Option (State α β × Ptr α β)
  | 0, _, s, slot => some (s, slot)
  | height + 1, shift, s, slot =>
    match slot with
    | some (.node a) =>
      if s.live a then
        let offset := slotOffset c index shift
        let s := ensureTag s a tag offset
        -- BUG_ON(slot == NULL)
        match s.slots a offset with
        | none => none
        | some target => tagSetLoop index tag height (shift - c.mapShift) s (some target)
      else none
    | _ => none

/-- `radix_tree_tag_set` -/
def radixTreeTagSet (s : State α β) (index : Nat) (tag : Tag) :
    Option (State α β × Ptr α β) := do
  -- BUG_ON(index > radix_tree_maxindex(height))
  if index > maxindex c s.rootHeight then none
  else
    let (s, slot) ← tagSetLoop c index tag s.rootHeight ((s.rootHeight - 1) * c.mapShift) s s.rnode
    some (ensureRootTag s slot tag, slot)

/-- The descent of `radix_tree_tag_clear` and `radix_tree_delete`: the slot, and the
nodes above it with the offsets taken, the last one first.  `none` in place of the
path is the jump to `out`. -/
def descend (s : State α β) (index : Nat) : Nat → Nat → List (α × Nat) → Ptr α β →
    Option (Option (List (α × Nat)) × Ptr α β)
  | 0, _, path, slot => some (some path, slot)
  | height + 1, shift, path, slot =>
    match slot with
    | none => some (none, none)
    | some (.node a) =>
      if s.live a then
        let offset := slotOffset c index shift
        descend s index height (shift - c.mapShift) ((a, offset) :: path) (s.slots a offset)
      else none
    | some _ => none

/-- The second loop of `radix_tree_tag_clear`. -/
def clearLoop (tag : Tag) : List (α × Nat) → State α β → State α β
  | [], s => if s.rootTagGet tag then s.rootTagClear tag else s
  | (node, offset) :: path, s =>
    if !s.tagGet node tag offset then s
    else
      let s := s.tagClear node tag offset
      if s.anyTagSet c node tag then s else clearLoop tag path s

/-- `radix_tree_tag_clear` -/
def radixTreeTagClear (s : State α β) (index : Nat) (tag : Tag) :
    Option (State α β × Ptr α β) :=
  if index > maxindex c s.rootHeight then some (s, none)
  else do
    let (path, slot) ← descend c s index s.rootHeight ((s.rootHeight - 1) * c.mapShift) [] s.rnode
    match path, slot with
    | some path, some target => some (clearLoop c tag path s, some target)
    | _, slot => some (s, slot)

/-! ## Deletion -/

/-- One round of the loop of `radix_tree_shrink`: the root node `a` goes. -/
def shrinkOnce (s : State α β) (a : α) : State α β :=
  let newptr := s.slots a 0
  let newptr := if s.rootHeight = 1 then ptrToDirect newptr else newptr
  let s := s.setRoot (s.rootHeight - 1) newptr
  let s := (s.tagClear a 0 0).tagClear a 1 0
  ((s.setSlot a 0 none).setCount a 0).nodeFree a

/-- The loop of `radix_tree_shrink`, by the height of the root. -/
def shrinkLoop : Nat → State α β → Option (State α β)
  | 0, s => some s
  | height + 1, s =>
    match s.rnode with
    | some (.node a) =>
      if s.live a then
        if s.count a = 1 ∧ (s.slots a 0).isSome then shrinkLoop height (shrinkOnce s a)
        else some s
      else none
    | _ => none

/-- `radix_tree_shrink` -/
def radixTreeShrink (s : State α β) : Option (State α β) := shrinkLoop s.rootHeight s

/-- `if (to_free) radix_tree_node_free(to_free)` -/
def freeIf (s : State α β) : Option α → State α β
  | none => s
  | some a => s.nodeFree a

/-- The last loop of `radix_tree_delete`. -/
def deleteLoop [DecidableEq β] : List (α × Nat) → Option α → State α β → Option (State α β)
  | [], toFree, s => some (freeIf (s.rootTagClearAll.setRoot 0 none) toFree)
  | (node, offset) :: path, toFree, s =>
    let s := (s.setSlot node offset none).setCount node (s.count node - 1)
    let s := freeIf s toFree
    if s.count node ≠ 0 then
      if s.rnode = some (.node node) then radixTreeShrink s else some s
    else deleteLoop path (some node) s

/-- `if (tag_get(pathp->node, tag, pathp->offset)) radix_tree_tag_clear(root, index, tag)` -/
def clearIf (s : State α β) (index : Nat) (node : α) (offset : Nat) (tag : Tag) :
    Option (State α β) :=
  if s.tagGet node tag offset then (radixTreeTagClear c s index tag).map Prod.fst else some s

/-- `radix_tree_delete`.  The descent loop, a `do` loop, is entered with height 0 only
when the tree is empty, and is left there at once. -/
def radixTreeDelete [DecidableEq β] (s : State α β) (index : Nat) :
    Option (State α β × Ptr α β) :=
  if index > maxindex c s.rootHeight then some (s, none)
  else if s.rootHeight = 0 ∧ s.rnode.isSome then
    some ({ s.rootTagClearAll with rnode := none }, directToPtr s.rnode)
  else do
    let (path, slot) ← descend c s index s.rootHeight ((s.rootHeight - 1) * c.mapShift) [] s.rnode
    match path, slot with
    | some ((node, offset) :: path), some target =>
      let s ← clearIf c s index node offset 0
      let s ← clearIf c s index node offset 1
      let s ← deleteLoop ((node, offset) :: path) none s
      some (s, some target)
    | _, slot => some (s, slot)

/-- `radix_tree_tagged` -/
def radixTreeTagged (s : State α β) (tag : Tag) : Bool := s.rootTagGet tag

/-! ## Calls -/

inductive Call (α β : Type) where
  | insert (index : Nat) (item : β) (mem : List α)
  | delete (index : Nat)
  | tagSet (index : Nat) (tag : Tag)
  | tagClear (index : Nat) (tag : Tag)

/-- The calls that have returned. -/
inductive Event (α β : Type) where
  | insert (index : Nat) (item : β) (error : Option Errno)
  | delete (index : Nat) (found : Ptr α β)
  | tagSet (index : Nat) (tag : Tag)
  | tagClear (index : Nat) (tag : Tag)

def step [DecidableEq β] (s : State α β) : Call α β → Option (State α β × List (Event α β))
  | .insert index item mem => do
      let (s, error) ← radixTreeInsert c s index item mem
      some (s, [.insert index item error])
  | .delete index => do
      let (s, found) ← radixTreeDelete c s index
      some (s, [.delete index found])
  | .tagSet index tag => do
      let (s, _) ← radixTreeTagSet c s index tag
      some (s, [.tagSet index tag])
  | .tagClear index tag => do
      let (s, _) ← radixTreeTagClear c s index tag
      some (s, [.tagClear index tag])

end

end LinuxKernel.Lib.RadixTree
