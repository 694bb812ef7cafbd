/-
  The fragment tree of a JFFS2 inode.

  Source: fs/jffs2/nodelist.c, `jffs2_lookup_node_frag`, `jffs2_truncate_fragtree`,
  `jffs2_obsolete_node_frag`, `jffs2_fragtree_insert`, `new_fragment`,
  `no_overlapping_node`, `jffs2_add_frag_to_fragtree`, `jffs2_add_full_dnode_to_inode`.

  A fragment is a node of the red-black tree of `Lib/Rbtree.lean` with an offset, a
  size and the data node it belongs to.  Fragments and data nodes that have been freed
  cannot be read: `none` is an access to one of them, to NULL, or a `BUG()`.  Offsets
  are natural numbers; no sum below leaves 32 bits while every data node ends below
  2^32.  Of the raw node references only the flag bits are kept.
-/
import LinuxKernel.Lib.RbtreeWalk
import LinuxKernel.Foundation.Run

namespace LinuxKernel.Fs.Jffs2

open Foundation Lib.Rbtree Function

/-- `PAGE_CACHE_SHIFT` -/
def PAGE_CACHE_SHIFT : Nat := 12

/-- `PAGE_CACHE_SIZE` -/
def PAGE_CACHE_SIZE : Nat := 2 ^ PAGE_CACHE_SHIFT

/-- `struct jffs2_node_frag`, without its place in the tree. -/
structure NodeFrag (N : Type) where
  node : Option N
  size : Nat
  ofs : Nat
  deriving DecidableEq

/-- `struct jffs2_full_dnode` -/
structure FullDnode where
  ofs : Nat
  size : Nat
  frags : Nat

/-- The flags in `flash_offset` of a raw node reference. -/
inductive RefFlag where
  | REF_UNCHECKED
  | REF_OBSOLETE
  | REF_PRISTINE
  | REF_NORMAL
  deriving DecidableEq, Repr

/-- `dnode` is `none` for a data node that has been freed, or has not been made. -/
structure State (F N : Type) where
  fragtree : RbHeap F
  frag : F → NodeFrag N
  dnode : N → Option FullDnode
  flag : N → RefFlag

inductive Result where
  | ok
  | ENOMEM
  deriving DecidableEq

section

variable {F N : Type} [DecidableEq F] [DecidableEq N]

namespace State

/-- Read a fragment. -/
def get (s : State F N) (a : F) : Option (NodeFrag N) :=
  if s.fragtree.live a then some (s.frag a) else none

def setFrag (s : State F N) (a : F) (f : NodeFrag N) : State F N :=
  { s with frag := update s.frag a f }

/-- `mark_ref_normal(node->raw)` -/
def markRefNormal (s : State F N) (n : N) : Option (State F N) :=
  match s.dnode n with
  | none => none
  | some _ => some { s with flag := update s.flag n .REF_NORMAL }

/-- `if (frag->node) mark_ref_normal(frag->node->raw)` -/
def markIf (s : State F N) (node : Option N) : Option (State F N) :=
  match node with
  | none => some s
  | some n => s.markRefNormal n

/-- `jffs2_free_node_frag` -/
def freeNodeFrag (s : State F N) (a : F) : State F N :=
  { s with fragtree := { s.fragtree with live := update s.fragtree.live a false } }

end State

/-- `new_fragment`; `a` is what `jffs2_alloc_node_frag` returns. -/
def newFragment (s : State F N) (a : F) (fn : Option N) (ofs size : Nat) : State F N :=
  { s with
    fragtree := { s.fragtree with live := update s.fragtree.live a true }
    frag := update s.frag a ⟨fn, size, ofs⟩ }

/-- `jffs2_obsolete_node_frag` -/
def obsoleteNodeFrag (s : State F N) (this : F) : Option (State F N) := do
  let f ← s.get this
  match f.node with
  | none => some (s.freeNodeFrag this)
  | some n =>
    let d ← s.dnode n
    let frags := d.frags - 1
    if frags = 0 then
      -- `jffs2_mark_node_obsolete`, `jffs2_free_full_dnode`
      let s := { s with
        flag := update s.flag n .REF_OBSOLETE
        dnode := update s.dnode n none }
      some (s.freeNodeFrag this)
    else
      let s := { s with
        flag := update s.flag n .REF_NORMAL
        dnode := update s.dnode n (some { d with frags := frags }) }
      some (s.freeNodeFrag this)

/-- `if (!prev || frag->ofs > prev->ofs) prev = frag;` -/
def closer (s : State F N) (prev : Option F) (frag : F) (ofs : Nat) : Option F :=
  match prev with
  | none => some frag
  | some p => if ofs > (s.frag p).ofs then some frag else some p

/-- The loop of `jffs2_lookup_node_frag`. -/
def State.lookupLoop (s : State F N) (offset : Nat) (next prev : Option F) : Option (Option F) :=
  match next with
  | none => some prev
  | some frag => do
    let f ← s.get frag
    if f.ofs + f.size ≤ offset then
      let right ← s.fragtree.rbChild frag .right
      s |>.lookupLoop offset right (closer s prev frag f.ofs)
    else if f.ofs > offset then
      let left ← s.fragtree.rbChild frag .left
      s |>.lookupLoop offset left prev
    else some (some frag)
partial_fixpoint

/-- `jffs2_lookup_node_frag` -/
def lookupNodeFrag (s : State F N) (offset : Nat) : Option (Option F) :=
  s.lookupLoop offset (s.fragtree.slot .root) none

/-- The loop of `jffs2_fragtree_insert`: the last node and the link that is empty. -/
def State.insertLoop (s : State F N) (ofs : Nat) (base : F) : Option (F × Loc F) := do
  let b ← s.get base
  if ofs > b.ofs then
    match (← s.fragtree.rbChild base .right) with
    | none => some (base, .child base .right)
    | some next => s |>.insertLoop ofs next
  else if ofs < b.ofs then
    match (← s.fragtree.rbChild base .left) with
    | none => some (base, .child base .left)
    | some next => s |>.insertLoop ofs next
  else none
partial_fixpoint

/-- `rb_link_node`, `rb_insert_color` -/
def linkColor (s : State F N) (new : F) (parent : Option F) (link : Loc F) : Option (State F N) := do
  let fragtree ← rbLinkNode s.fragtree new parent link
  let fragtree ← rbInsertColor fragtree new
  some { s with fragtree := fragtree }

/-- `jffs2_fragtree_insert`, `rb_insert_color` -/
def fragtreeInsert (s : State F N) (newfrag base : F) : Option (State F N) := do
  let f ← s.get newfrag
  let (parent, link) ← s.insertLoop f.ofs base
  linkColor s newfrag (some parent) link

/-- Where `no_overlapping_node` puts a fragment: on the right of the last one. -/
def linkLast (s : State F N) (new : F) (this : Option F) : Option (State F N) :=
  match this with
  | some this => linkColor s new (some this) (.child this .right)
  | none => linkColor s new none .root

/-- `no_overlapping_node` -/
def noOverlappingNode (s : State F N) (newfrag : F) (ofs : Nat) (this : Option F) (lastend : Nat)
    (holefrag : Option F) : Option (State F N × Result) :=
  if lastend < ofs then
    match holefrag with
    | none => some (s.freeNodeFrag newfrag, .ENOMEM)
    | some holefrag => do
      let s := newFragment s holefrag none lastend (ofs - lastend)
      let s ← linkLast s holefrag this
      let s ← linkLast s newfrag (some holefrag)
      some (s, .ok)
  else do
    let s ← linkLast s newfrag this
    some (s, .ok)

/-- The loop of `jffs2_add_frag_to_fragtree` over the fragments that are covered, with the
one it ends at. -/
def State.obsoleteLoop (s : State F N) (newfrag : F) : Option (State F N × Option F) := do
  match (← rbNext s.fragtree newfrag) with
  | none => some (s, none)
  | some this =>
    let nf ← s.get newfrag
    let f ← s.get this
    if nf.ofs + nf.size ≥ f.ofs + f.size then
      let fragtree ← rbErase s.fragtree this
      let s ← obsoleteNodeFrag { s with fragtree := fragtree } this
      s |>.obsoleteLoop newfrag
    else some (s, some this)
partial_fixpoint

/-- `jffs2_add_frag_to_fragtree` from the loop on. -/
def swallow (s : State F N) (newfrag : F) (fn : N) : Option (State F N × Result) := do
  let (s, this) ← s.obsoleteLoop newfrag
  match this with
  | none => some (s, .ok)
  | some this =>
    let nf ← s.get newfrag
    let f ← s.get this
    if nf.ofs + nf.size = f.ofs then some (s, .ok)
    else
      let s := s.setFrag this
        { f with size := (f.ofs + f.size) - (nf.ofs + nf.size), ofs := nf.ofs + nf.size }
      let s ← s.markIf f.node
      let s ← s.markRefNormal fn
      some (s, .ok)

/-- The part of `jffs2_add_frag_to_fragtree` for a fragment whose start remains valid. -/
def overlapTail (s : State F N) (newfrag this : F) (fn : N) (newfrag2 : Option F) :
    Option (State F N × Result) := do
  let nf ← s.get newfrag
  let f ← s.get this
  let s ← s.markRefNormal fn
  let s ← s.markIf f.node
  if f.ofs + f.size > nf.ofs + nf.size then
    -- the new node splits 'this' frag into two
    match newfrag2 with
    | none => some (s, .ENOMEM)
    | some newfrag2 =>
      let s := newFragment s newfrag2 f.node (nf.ofs + nf.size)
        (f.ofs + f.size - nf.ofs - nf.size)
      let s ← moreFrags s f.node
      let s := s.setFrag this { f with size := nf.ofs - f.ofs }
      let s ← fragtreeInsert s newfrag this
      let s ← fragtreeInsert s newfrag2 newfrag
      some (s, .ok)
  else
    let s := s.setFrag this { f with size := nf.ofs - f.ofs }
    let s ← fragtreeInsert s newfrag this
    swallow s newfrag fn
where
  /-- `if (this->node) this->node->frags++` -/
  moreFrags (s : State F N) (node : Option N) : Option (State F N) :=
    match node with
    | none => some s
    | some n =>
      match s.dnode n with
      | none => none
      | some d =>
        some { s with dnode := update s.dnode n (some { d with frags := d.frags + 1 }) }

/-- The part of `jffs2_add_frag_to_fragtree` for a fragment that starts where the new one
does. -/
def replaceFrag (s : State F N) (newfrag this : F) (fn : N) : Option (State F N × Result) := do
  let nf ← s.get newfrag
  let f ← s.get this
  let fragtree ← rbReplaceNode s.fragtree this newfrag
  let s := { s with fragtree := fragtree }
  if nf.ofs + nf.size ≥ f.ofs + f.size then
    let s ← obsoleteNodeFrag s this
    swallow s newfrag fn
  else
    let s := s.setFrag this { f with ofs := f.ofs + nf.size, size := f.size - nf.size }
    let s ← fragtreeInsert s this newfrag
    some (s, .ok)

/-- The marks of `jffs2_add_frag_to_fragtree` when the last fragment and the new one share
a page. -/
def markShared (s : State F N) (this : Option F) (lastend ofs : Nat) (fn : N) :
    Option (State F N) :=
  if lastend ≠ 0 ∧ (lastend - 1) >>> PAGE_CACHE_SHIFT = ofs >>> PAGE_CACHE_SHIFT then
    match this with
    | none => none
    | some this => do
      let f ← s.get this
      let s ← s.markIf f.node
      s.markRefNormal fn
  else some s

/-- `jffs2_add_frag_to_fragtree`; `spare` is the memory for a second fragment. -/
def addFragToFragtree (s : State F N) (newfrag : F) (fn : N) (spare : Option F) :
    Option (State F N × Result) := do
  let nf ← s.get newfrag
  match (← lookupNodeFrag s nf.ofs) with
  | none =>
    let s ← markShared s none 0 nf.ofs fn
    noOverlappingNode s newfrag nf.ofs none 0 spare
  | some this =>
    let f ← s.get this
    if f.ofs + f.size ≤ nf.ofs then
      let s ← markShared s (some this) (f.ofs + f.size) nf.ofs fn
      noOverlappingNode s newfrag nf.ofs (some this) (f.ofs + f.size) spare
    else if nf.ofs > f.ofs then overlapTail s newfrag this fn spare
    else replaceFrag s newfrag this fn

/-- The first mark of `jffs2_add_full_dnode_to_inode`. -/
def markPrev (s : State F N) (newfrag : F) (fn : N) : Option (State F N) := do
  let nf ← s.get newfrag
  if nf.ofs % PAGE_CACHE_SIZE ≠ 0 then
    let prev ← rbPrev s.fragtree newfrag
    let s ← s.markRefNormal fn
    -- if we don't start at zero there's always a previous
    let prev ← prev
    let p ← s.get prev
    s.markIf p.node
  else some s

/-- The second mark. -/
def markNext (s : State F N) (newfrag : F) (fn : N) : Option (State F N) := do
  let nf ← s.get newfrag
  if (nf.ofs + nf.size) % PAGE_CACHE_SIZE ≠ 0 then
    match (← rbNext s.fragtree newfrag) with
    | none => some s
    | some next =>
      let s ← s.markRefNormal fn
      let f ← s.get next
      s.markIf f.node
  else some s

/-- `jffs2_add_full_dnode_to_inode`; `newfrag` and `spare` are what the allocations
return. -/
def addFullDnodeToInode (s : State F N) (fn : N) (ofs size : Nat) (newfrag spare : Option F) :
    Option (State F N × Result) :=
  if size = 0 then some (s, .ok)
  else
    match newfrag with
    | none => some (s, .ENOMEM)
    | some newfrag => do
      let s := newFragment s newfrag (some fn) ofs size
      let s := { s with dnode := update s.dnode fn (some ⟨ofs, size, 1⟩) }
      match (← addFragToFragtree s newfrag fn spare) with
      | (s, .ENOMEM) => some (s, .ENOMEM)
      | (s, .ok) =>
        let s ← markPrev s newfrag fn
        let s ← markNext s newfrag fn
        some (s, .ok)

/-- The loop of `jffs2_truncate_fragtree`. -/
def State.truncateLoop (s : State F N) (size : Nat) (frag : Option F) : Option (State F N) :=
  match frag with
  | none => some s
  | some frag => do
    let f ← s.get frag
    if f.ofs ≥ size then
      let next ← rbNext s.fragtree frag
      let fragtree ← rbErase s.fragtree frag
      let s ← obsoleteNodeFrag { s with fragtree := fragtree } frag
      s |>.truncateLoop size next
    else some s
partial_fixpoint

/-- The last fragment may be REF_PRISTINE after a truncation. -/
def markPristine (s : State F N) (size : Nat) : Option (State F N × Nat) := do
  if size = 0 then some (s, 0)
  else
    match (← rbLast s.fragtree) with
    | none => some (s, 0)
    | some frag =>
      let f ← s.get frag
      if f.ofs + f.size < size then some (s, f.ofs + f.size)
      else
        match f.node with
        | none => some (s, size)
        | some n =>
          if f.ofs % PAGE_CACHE_SIZE = 0 then
            match s.dnode n with
            | none => none
            | some _ => some ({ s with flag := update s.flag n .REF_PRISTINE }, size)
          else some (s, size)

/-- The fragment that contains the new end is made smaller. -/
def truncateFirst (s : State F N) (size : Nat) (frag : Option F) : Option (State F N × Option F) :=
  match frag with
  | none => some (s, none)
  | some frag => do
    let f ← s.get frag
    if f.ofs ≠ size then
      let s := if f.ofs + f.size > size then s.setFrag frag { f with size := size - f.ofs } else s
      let next ← rbNext s.fragtree frag
      some (s, next)
    else some (s, some frag)

/-- `jffs2_truncate_fragtree` -/
def truncateFragtree (s : State F N) (size : Nat) : Option (State F N × Nat) := do
  let frag ← lookupNodeFrag s size
  let (s, frag) ← truncateFirst s size frag
  let s ← s.truncateLoop size frag
  markPristine s size

inductive Call (F N : Type) where
  | add (fn : N) (ofs size : Nat) (newfrag spare : Option F)
  | truncate (size : Nat)

/-- What a call returns. -/
inductive Event where
  | added (result : Result)
  | truncated (size : Nat)

def step (s : State F N) : Call F N → Option (State F N × List Event)
  | .add fn ofs size newfrag spare =>
    (addFullDnodeToInode s fn ofs size newfrag spare).map fun r => (r.1, [.added r.2])
  | .truncate size => (truncateFragtree s size).map fun r => (r.1, [.truncated r.2])

end

end LinuxKernel.Fs.Jffs2
