/-
  The buddy system of one zone.

  Source: mm/page_alloc.c, `__page_find_buddy`, `__find_combined_index`,
  `page_is_buddy`, `__free_one_page`, `expand`, `__rmqueue`, `set_page_order`,
  `rmv_page_order`, and of `free_pages_check` what it does to the reference count.

  Pages are named by their page frame number.  The zone has no holes and its
  bounds are multiples of `MAX_ORDER_NR_PAGES`; a `struct page` exists for the
  frames of the zone and nothing is assumed about others: reading one is a fault.
  Faults, `BUG_ON` and (with CONFIG_DEBUG_VM) `VM_BUG_ON` have the value `none`.

  Compound pages, the per-cpu lists and the flags other than PG_buddy are left
  out: none of the functions above reads or writes them for the bookkeeping.
-/
import LinuxKernel.Foundation.Dyadic
import LinuxKernel.Foundation.Run

namespace LinuxKernel.Mm.PageAlloc

open Foundation

/-! ## Data -/

/-- The constant part of `struct zone`.  The bounds are aligned to the size of the
largest block, and `MAX_ORDER` is positive. -/
structure Zone where
  maxOrder : Nat
  zoneStartPfn : Nat
  zoneEndPfn : Nat
  maxOrder_pos : 0 < maxOrder
  start_aligned : 2 ^ (maxOrder - 1) ∣ zoneStartPfn
  end_aligned : 2 ^ (maxOrder - 1) ∣ zoneEndPfn

/-- `page_outside_zone_boundaries`. -/
def Zone.badRange (z : Zone) (pfn : Nat) : Bool :=
  decide (z.zoneEndPfn ≤ pfn) || decide (pfn < z.zoneStartPfn)

/-- The fields of `struct page` that matter here: PG_buddy, `private` and the
reference count. -/
structure Page where
  pgBuddy : Bool
  priv : Nat
  count : Nat
  deriving DecidableEq, Repr

/-- `struct free_area`. -/
structure FreeArea where
  freeList : List Nat
  nrFree : Int
  deriving DecidableEq, Repr

/-- The variable part of the zone with its pages. -/
structure Mem where
  page : Nat → Page
  freeArea : Nat → FreeArea
  nrFreePages : Int

namespace Mem

/-- Overwrite one `struct page`. -/
def putPage (m : Mem) (pfn : Nat) (p : Page) : Mem :=
  { m with page := Function.update m.page pfn p }

/-- Overwrite one `struct free_area`. -/
def putArea (m : Mem) (order : Nat) (a : FreeArea) : Mem :=
  { m with freeArea := Function.update m.freeArea order a }

/-- `set_page_order(page, order)`. -/
def setPageOrder (m : Mem) (page order : Nat) : Mem :=
  m.putPage page { m.page page with pgBuddy := true, priv := order }

/-- `rmv_page_order(page)`. -/
def rmvPageOrder (m : Mem) (page : Nat) : Mem :=
  m.putPage page { m.page page with pgBuddy := false, priv := 0 }

/-- `list_add(&page->lru, &zone->free_area[order].free_list)`. -/
def listAdd (m : Mem) (page order : Nat) : Mem :=
  m.putArea order { m.freeArea order with freeList := page :: (m.freeArea order).freeList }

/-- `list_del(&page->lru)`: the page leaves whatever list it is on. -/
def listDel (m : Mem) (page : Nat) : Mem :=
  { m with freeArea := fun order =>
      { m.freeArea order with freeList := (m.freeArea order).freeList.erase page } }

/-- `zone->free_area[order].nr_free += d`. -/
def addNrFree (m : Mem) (order : Nat) (d : Int) : Mem :=
  m.putArea order { m.freeArea order with nrFree := (m.freeArea order).nrFree + d }

/-- `__mod_zone_page_state(zone, NR_FREE_PAGES, d)`. -/
def modFreePages (m : Mem) (d : Int) : Mem :=
  { m with nrFreePages := m.nrFreePages + d }

/-- The effect of `free_pages_check` on the counts of the pages of a block: a page
that still has references is reported and its count is reset. -/
def freePagesCheck (m : Mem) (page order : Nat) : Mem :=
  { m with page := fun pfn =>
      if page ≤ pfn ∧ pfn < page + 2 ^ order then { m.page pfn with count := 0 }
      else m.page pfn }

end Mem

/-! ## Freeing -/

/-- `__page_find_buddy`. -/
def pageFindBuddy (page pageIdx order : Nat) : Nat :=
  page + (pageIdx ^^^ 2 ^ order) - pageIdx

/-- `__find_combined_index`. -/
def findCombinedIndex (pageIdx order : Nat) : Nat := Nat.ldiff pageIdx (2 ^ order)

/-- `page_is_buddy`, for a page of the zone.  The comparison of the zone ids reads
`buddy->flags`; within the zone it is always equal. -/
def pageIsBuddy (z : Zone) (m : Mem) (buddy order : Nat) : Option Bool :=
  if z.badRange buddy then none
  else if (m.page buddy).pgBuddy && decide ((m.page buddy).priv = order) then
    if (m.page buddy).count ≠ 0 then none else some true
  else some false

/-- The loop of `__free_one_page`, with the block it ends at; `levels` is
`MAX_ORDER-1 - order`, so that the loop condition is `levels ≠ 0`. -/
def freeLoop (z : Zone) : (levels : Nat) → Mem → (page pageIdx order : Nat) →
    Option (Mem × Nat × Nat)
  | 0, m, page, _, order => some (m, page, order)
  | levels + 1, m, page, pageIdx, order => do
      let buddy := pageFindBuddy page pageIdx order
      if (← pageIsBuddy z m buddy order) then
        let m := m.listDel buddy
        let m := m.addNrFree order (-1)
        let m := m.rmvPageOrder buddy
        let combinedIdx := findCombinedIndex pageIdx order
        freeLoop z levels m (page + combinedIdx - pageIdx) combinedIdx (order + 1)
      else some (m, page, order)

/-- `__free_one_page`. -/
def freeOnePage (z : Zone) (m : Mem) (page order : Nat) : Option Mem :=
  let pageIdx := page &&& (2 ^ z.maxOrder - 1)
  if pageIdx &&& (2 ^ order - 1) ≠ 0 ∨ z.badRange page then none
  else do
    let m := m.modFreePages (2 ^ order)
    let (m, page, order) ← freeLoop z (z.maxOrder - 1 - order) m page pageIdx order
    let m := m.setPageOrder page order
    let m := m.listAdd page order
    some (m.addNrFree order 1)

/-! ## Allocation -/

/-- `expand`: the halves above `low` that the caller does not need go back to the
free lists, largest first. -/
def expand (z : Zone) (page low : Nat) : Nat → Mem → Option Mem
  | 0, m => some m
  | high + 1, m =>
    if low < high + 1 then
      let half := page + 2 ^ high
      if z.badRange half then none
      else
        let m := m.listAdd half high
        let m := m.addNrFree high 1
        let m := m.setPageOrder half high
        expand z page low high m
    else some m

/-- The loop of `__rmqueue` from `currentOrder` on; `levels` is
`MAX_ORDER - currentOrder`. -/
def rmqueueLoop (z : Zone) (m : Mem) (order : Nat) : (levels currentOrder : Nat) →
    Option (Mem × Option Nat)
  | 0, _ => some (m, none)
  | levels + 1, currentOrder =>
    match (m.freeArea currentOrder).freeList with
    | [] => rmqueueLoop z m order levels (currentOrder + 1)
    | page :: _ => do
        let m := m.listDel page
        let m := m.rmvPageOrder page
        let m := m.addNrFree currentOrder (-1)
        let m := m.modFreePages (-2 ^ order)
        let m ← expand z page order currentOrder m
        some (m, some page)

/-- `__rmqueue`. -/
def rmqueue (z : Zone) (m : Mem) (order : Nat) : Option (Mem × Option Nat) :=
  rmqueueLoop z m order (z.maxOrder - order) order

/-! ## The system -/

/-- The zone together with the blocks that are in use. -/
structure System where
  mem : Mem
  held : List Block

/-- What can happen: an allocation, the release of a block by its holder, and a
write of the holder to `private` and the reference count of a page. -/
inductive Call where
  | rmqueue (order : Nat)
  | free (page order : Nat)
  | touch (pfn priv count : Nat)
  deriving DecidableEq, Repr

/-- The result of an allocation. -/
structure Allocated where
  order : Nat
  page : Option Nat
  deriving DecidableEq, Repr

/-- One call.  A block is freed by its holder and at its own order, and only the
holder of a page writes to it. -/
def step (z : Zone) (s : System) : Call → Option (System × List Allocated)
  | .rmqueue order => do
      let (m, page) ← rmqueue z s.mem order
      let held := match page with
        | none => s.held
        | some page => ⟨page, order⟩ :: s.held
      some (⟨m, held⟩, [⟨order, page⟩])
  | .free page order =>
    if ⟨page, order⟩ ∈ s.held then do
      let m ← freeOnePage z (s.mem.freePagesCheck page order) page order
      some (⟨m, s.held.erase ⟨page, order⟩⟩, [])
    else none
  | .touch pfn priv count =>
    if ∃ b ∈ s.held, b.Has pfn then
      some (⟨s.mem.putPage pfn { s.mem.page pfn with priv, count }, s.held⟩, [])
    else none

/-- A free block: it is on the free list of its order. -/
def Mem.Free (m : Mem) (b : Block) : Prop := b.start ∈ (m.freeArea b.order).freeList

instance (m : Mem) (b : Block) : Decidable (m.Free b) :=
  inferInstanceAs (Decidable (_ ∈ _))

/-- The state handed over at boot: nothing is free, and the blocks in use tile the
zone. -/
structure Boot (z : Zone) (s : System) : Prop where
  lists : ∀ order, s.mem.freeArea order = ⟨[], 0⟩
  noBuddy : ∀ pfn, (s.mem.page pfn).pgBuddy = false
  noFreePages : s.mem.nrFreePages = 0
  nodup : s.held.Nodup
  orders : ∀ b ∈ s.held, b.order < z.maxOrder
  tiles : Tiling z.zoneStartPfn z.zoneEndPfn {b | b ∈ s.held}

end LinuxKernel.Mm.PageAlloc
