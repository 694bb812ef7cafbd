/-
  The resource tree.

  Source: kernel/resource.c, `__request_resource`, `__release_resource`,
  `request_resource`, `release_resource`, `find_resource`, `allocate_resource`,
  `insert_resource`, `__request_region`, `__release_region`.

  A resource is a record in memory; its children are linked through `child` and
  `sibling`.  `resource_size_t` has `bits` bits (32 or 64) and wraps around.
  Access to a record that is not there, and to a NULL pointer, is a failure
  (`none`).  `resource_lock` makes each call one step.  `name` is never read.
-/
import LinuxKernel.Foundation.Chain
import LinuxKernel.Foundation.Run

namespace LinuxKernel.Kernel.Resource

open Foundation Function

/-! ## Memory -/

/-- The places that hold a link of the tree. -/
inductive Loc (α : Type) where
  | child (a : α)
  | sibling (a : α)
  deriving DecidableEq

/-- `struct resource` records, by address. -/
structure Heap (α : Type) (bits : Nat) where
  live : α → Bool
  start : α → BitVec bits
  end_ : α → BitVec bits
  flags : α → BitVec 32
  parent : α → Option α
  slot : Loc α → Option α

def IORESOURCE_BUSY : BitVec 32 := 0x80000000#32

inductive Errno where
  | EBUSY
  | EINVAL
  deriving DecidableEq, Repr

section

variable {α : Type} [DecidableEq α] {bits : Nat}

/-- Access to the record at `a`. -/
def Heap.deref (h : Heap α bits) (a : α) : Option Unit :=
  if h.live a then some () else none

def Heap.setSlot (h : Heap α bits) (p : Loc α) (v : Option α) : Heap α bits :=
  { h with slot := update h.slot p v }

def Heap.setParent (h : Heap α bits) (a : α) (v : Option α) : Heap α bits :=
  { h with parent := update h.parent a v }

def Heap.setRange (h : Heap α bits) (a : α) (start end_ : BitVec bits) : Heap α bits :=
  { h with start := update h.start a start, end_ := update h.end_ a end_ }

def Heap.setFlags (h : Heap α bits) (a : α) (flags : BitVec 32) : Heap α bits :=
  { h with flags := update h.flags a flags }

/-- `kzalloc` at `a`: a record of zeroes. -/
def Heap.kzalloc (h : Heap α bits) (a : α) : Heap α bits :=
  { live := update h.live a true
    start := update h.start a 0
    end_ := update h.end_ a 0
    flags := update h.flags a 0
    parent := update h.parent a none
    slot := update (update h.slot (.child a) none) (.sibling a) none }

def Heap.kfree (h : Heap α bits) (a : α) : Heap α bits :=
  { h with live := update h.live a false }

/-! ## Requesting and releasing a resource -/

/-- `new->sibling = *p; *p = new; new->parent = root` -/
def Heap.link (h : Heap α bits) (root new : α) (p : Loc α) : Heap α bits :=
  ((h.setSlot (.sibling new) (h.slot p)).setSlot p (some new)).setParent new (some root)

/-- The loop of `__request_resource`. -/
def Heap.requestLoop (h : Heap α bits) (root new : α) (p : Loc α) :
    Option (Heap α bits × Option α) :=
  match h.slot p with
  | none => some (h.link root new p, none)
  | some tmp =>
    if h.live tmp then
      if h.start tmp > h.end_ new then
        some (h.link root new p, none)
      else if h.end_ tmp < h.start new then
        h |>.requestLoop root new (.sibling tmp)
      else some (h, some tmp)
    else none
partial_fixpoint

/-- `__request_resource`: the conflict, if there is one. -/
def requestResource' (h : Heap α bits) (root new : α) : Option (Heap α bits × Option α) := do
  h.deref root
  h.deref new
  if h.end_ new < h.start new then some (h, some root)
  else if h.start new < h.start root then some (h, some root)
  else if h.end_ new > h.end_ root then some (h, some root)
  else h.requestLoop root new (.child root)

/-- The loop of `__release_resource`. -/
def Heap.releaseLoop (h : Heap α bits) (old : α) (p : Loc α) :
    Option (Heap α bits × Option Errno) :=
  match h.slot p with
  | none => some (h, some .EINVAL)
  | some tmp =>
    if h.live tmp then
      if tmp = old then
        some ((h.setSlot p (h.slot (.sibling tmp))).setParent old none, none)
      else h |>.releaseLoop old (.sibling tmp)
    else none
partial_fixpoint

/-- `__release_resource` -/
def releaseResource' (h : Heap α bits) (old : α) : Option (Heap α bits × Option Errno) := do
  h.deref old
  let parent ← h.parent old
  h.deref parent
  h.releaseLoop old (.child parent)

/-- `request_resource` -/
def requestResource (h : Heap α bits) (root new : α) : Option (Heap α bits × Option Errno) := do
  let (h, conflict) ← requestResource' h root new
  some (h, if conflict.isSome then some .EBUSY else none)

/-- `release_resource` -/
def releaseResource (h : Heap α bits) (old : α) : Option (Heap α bits × Option Errno) :=
  releaseResource' h old

/-! ## Allocating a resource -/

/-- `ALIGN` -/
def align (x a : BitVec bits) : BitVec bits := (x + (a - 1)) &&& ~~~(a - 1)

/-- What `find_resource` is asked for.  The alignment function may change the
range of the new resource. -/
structure Wish (bits : Nat) where
  size : BitVec bits
  min : BitVec bits
  max : BitVec bits
  align : BitVec bits
  alignf : Option (BitVec bits × BitVec bits → BitVec bits × BitVec bits)

/-- The range that one round of `find_resource` looks at: from `start` to the
next resource. -/
def Wish.window (w : Wish bits) (start end_ : BitVec bits) : BitVec bits × BitVec bits :=
  let start := if start < w.min then w.min else start
  let end_ := if end_ > w.max then w.max else end_
  let start := Resource.align start w.align
  match w.alignf with
  | some alignf => alignf (start, end_)
  | none => (start, end_)

/-- The loop of `find_resource`, for the range of `new` set so far. -/
def Heap.findLoop (h : Heap α bits) (root new : α) (w : Wish bits) (this : Option α)
    (start : BitVec bits) : Option (Heap α bits × Option Errno) :=
  match this with
  | none =>
    let (start, end_) := w.window start (h.end_ root)
    if start < end_ ∧ end_ - start ≥ w.size - 1 then
      some (h.setRange new start (start + w.size - 1), none)
    else some (h.setRange new start end_, some .EBUSY)
  | some res =>
    if h.live res then
      let (start, end_) := w.window start (h.start res - 1)
      if start < end_ ∧ end_ - start ≥ w.size - 1 then
        some (h.setRange new start (start + w.size - 1), none)
      else h.setRange new start end_ |>.findLoop root new w (h.slot (.sibling res)) (h.end_ res + 1)
    else none
partial_fixpoint

/-- `find_resource` -/
def findResource (h : Heap α bits) (root new : α) (w : Wish bits) :
    Option (Heap α bits × Option Errno) := do
  h.deref root
  h.deref new
  match h.slot (.child root) with
  | none => h.findLoop root new w none (h.start root)
  | some this =>
    h.deref this
    if h.start this = 0 then
      h.findLoop root new w (h.slot (.sibling this)) (h.end_ this + 1)
    else h.findLoop root new w (some this) (h.start root)

/-- `allocate_resource` -/
def allocateResource (h : Heap α bits) (root new : α) (w : Wish bits) :
    Option (Heap α bits × Option Errno) := do
  let (h, err) ← findResource h root new w
  match err with
  | some e => some (h, some e)
  | none =>
    let (h, conflict) ← requestResource' h root new
    some (h, if conflict.isSome then some .EBUSY else none)

/-! ## Inserting a resource above others -/

/-- How the descent of `insert_resource` ends. -/
inductive Descent (α : Type) where
  | requested
  | refused
  | above (parent first : α)

/-- The first loop of `insert_resource`. -/
def Heap.insertDescend (h : Heap α bits) (parent new : α) :
    Option (Heap α bits × Descent α) := do
  let (h, conflict) ← requestResource' h parent new
  match conflict with
  | none => some (h, .requested)
  | some first =>
    if first = parent then some (h, .refused)
    else if h.start first > h.start new ∨ h.end_ first < h.end_ new then
      some (h, .above parent first)
    else if h.start first = h.start new ∧ h.end_ first = h.end_ new then
      some (h, .above parent first)
    else h |>.insertDescend first new
partial_fixpoint

/-- The second loop of `insert_resource`: the last resource that `new` covers, or
nothing if there is a partial overlap. -/
def Heap.insertCover (h : Heap α bits) (new next : α) : Option (Option α) := do
  h.deref next
  if h.start next < h.start new ∨ h.end_ next > h.end_ new then some none
  else
    match h.slot (.sibling next) with
    | none => some (some next)
    | some sibling =>
      h.deref sibling
      if h.start sibling > h.end_ new then some (some next)
      else h |>.insertCover new sibling
partial_fixpoint

/-- `for (next = first; next; next = next->sibling) next->parent = new` -/
def Heap.reparent (h : Heap α bits) (new : α) (next : Option α) : Option (Heap α bits) :=
  match next with
  | none => some h
  | some a =>
    if h.live a then h.setParent a (some new) |>.reparent new (h.slot (.sibling a)) else none
partial_fixpoint

/-- `while (next->sibling != first) next = next->sibling` -/
def Heap.insertPrevious (h : Heap α bits) (next first : α) : Option α := do
  h.deref next
  if h.slot (.sibling next) = some first then some next
  else
    let sibling ← h.slot (.sibling next)
    h |>.insertPrevious sibling first
partial_fixpoint

/-- The end of `insert_resource`: the resources from `first` to `last` become the
children of `new`, which takes their place. -/
def insertAbove (h : Heap α bits) (parent new first last : α) : Option (Heap α bits) := do
  let h := h.setParent new (some parent)
  let h := h.setSlot (.sibling new) (h.slot (.sibling last))
  let h := h.setSlot (.child new) (some first)
  let h := h.setSlot (.sibling last) none
  let h ← h.reparent new (some first)
  if h.slot (.child parent) = some first then some (h.setSlot (.child parent) (some new))
  else
    let next ← h.slot (.child parent)
    let next ← h.insertPrevious next first
    some (h.setSlot (.sibling next) (some new))

/-- `insert_resource` -/
def insertResource (h : Heap α bits) (parent new : α) :
    Option (Heap α bits × Option Errno) := do
  let (h, descent) ← h.insertDescend parent new
  match descent with
  | .requested => some (h, none)
  | .refused => some (h, some .EBUSY)
  | .above parent first =>
    let last ← h.insertCover new first
    match last with
    | none => some (h, some .EBUSY)
    | some last =>
      let h ← insertAbove h parent new first last
      some (h, none)

/-! ## Regions -/

/-- The loop of `__request_region`. -/
def Heap.regionLoop (h : Heap α bits) (parent res : α) : Option (Heap α bits × Option α) := do
  let (h, conflict) ← requestResource' h parent res
  match conflict with
  | none => some (h, some res)
  | some conflict =>
    if conflict ≠ parent ∧ h.flags conflict &&& IORESOURCE_BUSY = 0 then
      h |>.regionLoop conflict res
    else some (h.kfree res, none)
partial_fixpoint

/-- `__request_region`; `mem` is what `kzalloc` returns. -/
def requestRegion (h : Heap α bits) (parent : α) (start n : BitVec bits) (mem : Option α) :
    Option (Heap α bits × Option α) :=
  match mem with
  | none => some (h, none)
  | some res =>
    let h := (h.kzalloc res).setRange res start (start + n - 1)
    (h.setFlags res IORESOURCE_BUSY).regionLoop parent res

/-- The loop of `__release_region`; `false` stands for the warning. -/
def Heap.releaseRegionLoop (h : Heap α bits) (start end_ : BitVec bits) (p : Loc α) :
    Option (Heap α bits × Bool) :=
  match h.slot p with
  | none => some (h, false)
  | some res =>
    if h.live res then
      if h.start res ≤ start ∧ h.end_ res ≥ end_ then
        if h.flags res &&& IORESOURCE_BUSY = 0 then
          h |>.releaseRegionLoop start end_ (.child res)
        else if h.start res ≠ start ∨ h.end_ res ≠ end_ then some (h, false)
        else some ((h.setSlot p (h.slot (.sibling res))).kfree res, true)
      else h |>.releaseRegionLoop start end_ (.sibling res)
    else none
partial_fixpoint

/-- `__release_region` -/
def releaseRegion (h : Heap α bits) (parent : α) (start n : BitVec bits) :
    Option (Heap α bits × Bool) := do
  h.deref parent
  h.releaseRegionLoop start (start + n - 1) (.child parent)

/-! ## Calls -/

/-- The calls of the interface.  `declare` and `describe` are what a driver does
with a descriptor of its own: a record of zeroes comes into being, and a range and
flags are written into it. -/
inductive Call (α : Type) (bits : Nat) where
  | declare (new : α)
  | describe (new : α) (start end_ : BitVec bits) (flags : BitVec 32)
  | request (root new : α)
  | insert (parent new : α)
  | allocate (root new : α) (wish : Wish bits)
  | release (old : α)
  | requestRegion (parent : α) (start n : BitVec bits) (mem : Option α)
  | releaseRegion (parent : α) (start n : BitVec bits)

/-- What a call returns. -/
inductive Outcome (α : Type) where
  | error (e : Option Errno)
  | region (res : Option α)
  | warned (found : Bool)

/-- An error code, NULL or the warning of `__release_region`. -/
def Outcome.Failed : Outcome α → Prop
  | .error e => e ≠ none
  | .region res => res = none
  | .warned found => found = false

def step (h : Heap α bits) : Call α bits → Option (Heap α bits × List (Outcome α))
  | .declare new => some (h.kzalloc new, [])
  | .describe new start end_ flags => some ((h.setRange new start end_).setFlags new flags, [])
  | .request root new => do
      let (h, err) ← requestResource h root new
      some (h, [.error err])
  | .insert parent new => do
      let (h, err) ← insertResource h parent new
      some (h, [.error err])
  | .allocate root new wish => do
      let (h, err) ← allocateResource h root new wish
      some (h, [.error err])
  | .release old => do
      let (h, err) ← releaseResource h old
      some (h, [.error err])
  | .requestRegion parent start n mem => do
      let (h, res) ← requestRegion h parent start n mem
      some (h, [.region res])
  | .releaseRegion parent start n => do
      let (h, found) ← releaseRegion h parent start n
      some (h, [.warned found])

end

end LinuxKernel.Kernel.Resource
