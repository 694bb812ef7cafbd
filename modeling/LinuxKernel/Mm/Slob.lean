/-
  Kmalloc on the SLOB allocator.

  Source: mm/slob.c, `slob_alloc`, `slob_free`, `__kmalloc`, `kfree`, `ksize`, and
  `get_order` of include/asm-generic/page.h.

  Addresses are numbers of bytes, and 0 is NULL.  `bigblocks` is the list of the records
  themselves, apart from the memory of slob_alloc that they are in.  What the page
  allocator returns is given with a call.
-/
import LinuxKernel.Foundation.Run
import LinuxKernel.Foundation.Loop
import LinuxKernel.Foundation.Gaps

namespace LinuxKernel.Mm.Slob

open Foundation Option Function

/-! ## The code -/

def PAGE_SIZE : Nat := 4096

/-- `sizeof(slob_t)` -/
def SLOB_UNIT : Nat := 8

/-- `sizeof(bigblock_t)` -/
def BIGBLOCK : Nat := 12

/-- `SLOB_UNITS` -/
def slobUnits (size : Nat) : Nat := (size + SLOB_UNIT - 1) / SLOB_UNIT

/-- The `slob_t` in memory, and `slobfree`. -/
structure Heap where
  units : Nat → Int
  next : Nat → Nat
  slobfree : Nat

def Heap.setUnits (s : Heap) (b : Nat) (units : Int) : Heap :=
  { s with units := update s.units b units }

def Heap.setNext (s : Heap) (b next : Nat) : Heap :=
  { s with next := update s.next b next }

/-- `b + b->units` -/
def Heap.stop (s : Heap) (b : Nat) : Int := b + s.units b * SLOB_UNIT

/-- The end of `slob_free`: the block `b` goes behind `cur`. -/
def slobJoin (s : Heap) (b cur : Nat) : Heap :=
  let after := s.next cur
  let s :=
    if s.stop b = after then
      (s.setUnits b (s.units b + s.units after)).setNext b (s.next after)
    else s.setNext b after
  let s :=
    if s.stop cur = b then (s.setUnits cur (s.units cur + s.units b)).setNext cur (s.next b)
    else s.setNext cur b
  { s with slobfree := cur }

/-- `slob_free` -/
def slobFree (s : Heap) (b size : Nat) : Option Heap :=
  if b = 0 then some s
  else
    let s := if size ≠ 0 then s.setUnits b (slobUnits size) else s
    let search := loop (fun cur => some (
      if b > cur ∧ b < s.next cur then .inl cur
      else if cur ≥ s.next cur ∧ (b > cur ∨ b < s.next cur) then .inl cur
      else .inr (s.next cur))) s.slobfree
    search.map (slobJoin s b)

/-- Take the first units of `cur`, which is behind `prev`. -/
def slobTake (s : Heap) (units prev cur : Nat) : Heap :=
  let s :=
    if s.units cur = units then s.setNext prev (s.next cur)
    else
      let rest := cur + units * SLOB_UNIT
      let s := s.setNext prev rest
      let s := s.setUnits rest (s.units cur - units)
      let s := s.setNext rest (s.next cur)
      s.setUnits cur units
  { s with slobfree := prev }

/-- One time through the loop of `slob_alloc`; `pages` are the results of
`__get_free_page`, until it fails. -/
def slobRound (size align : Nat) : Heap × List Nat × Nat × Nat →
    Option ((Heap × List Nat × Nat) ⊕ (Heap × List Nat × Nat × Nat))
  | (s, pages, prev, cur) =>
    let units := slobUnits size
    let aligned := if align ≠ 0 then alignUp align cur else cur
    let delta := (aligned - cur) / SLOB_UNIT
    if s.units cur ≥ units + delta then
      if delta ≠ 0 then
        let s := (s.setUnits aligned (s.units cur - delta)).setNext aligned (s.next cur)
        let s := (s.setNext cur aligned).setUnits cur delta
        some (.inl (slobTake s units cur aligned, pages, aligned))
      else some (.inl (slobTake s units prev cur, pages, cur))
    else if cur = s.slobfree then
      match if size = PAGE_SIZE then [] else pages with
      | [] => some (.inl (s, pages, 0))
      | page :: pages => (slobFree s page PAGE_SIZE).map fun s =>
        .inr (s, pages, s.slobfree, s.next s.slobfree)
    else some (.inr (s, pages, cur, s.next cur))

/-- `slob_alloc`; the pages that it has not taken are left. -/
def slobAlloc (s : Heap) (size align : Nat) (pages : List Nat) : Option (Heap × List Nat × Nat) :=
  loop (slobRound size align) (s, pages, s.slobfree, s.next s.slobfree)

/-- The loop of `get_order`. -/
def orderLoop (size : Nat) : Nat :=
  if size / 2 = 0 then 0 else orderLoop (size / 2) + 1

/-- `get_order` -/
def getOrder (size : Nat) : Nat := orderLoop ((size - 1) / (PAGE_SIZE / 2))

structure Bigblock where
  addr : Nat
  order : Nat
  pages : Nat

structure Mem where
  slob : Heap
  bigblocks : List Bigblock

/-- `__kmalloc`; `big` is the result of `__get_free_pages`. -/
def kmalloc (m : Mem) (size : Nat) (pages : List Nat) (big : Nat) : Option (Mem × Nat) :=
  if size < PAGE_SIZE - SLOB_UNIT then
    (slobAlloc m.slob (size + SLOB_UNIT) 0 pages).map fun out =>
      ({ m with slob := out.1 }, if out.2.2 = 0 then 0 else out.2.2 + SLOB_UNIT)
  else
    (slobAlloc m.slob BIGBLOCK 0 pages).bind fun out =>
      if out.2.2 = 0 then some ({ m with slob := out.1 }, 0)
      else if big = 0 then (slobFree out.1 out.2.2 BIGBLOCK).map fun slob => ({ m with slob }, 0)
      else some (⟨out.1, ⟨out.2.2, getOrder size, big⟩ :: m.bigblocks⟩, big)

/-- The record of a big block. -/
def findBig (m : Mem) (block : Nat) : Option Bigblock :=
  if block % PAGE_SIZE = 0 then m.bigblocks.find? fun bb => decide (bb.pages = block) else none

def kfree (m : Mem) (block : Nat) : Option Mem :=
  if block = 0 then some m
  else
    match findBig m block with
    | some bb => (slobFree m.slob bb.addr BIGBLOCK).map fun slob =>
      ⟨slob, m.bigblocks.eraseP fun bb => decide (bb.pages = block)⟩
    | none => (slobFree m.slob (block - SLOB_UNIT) 0).map fun slob => { m with slob }

def ksize (m : Mem) (block : Nat) : Int :=
  if block = 0 then 0
  else
    match findBig m block with
    | some bb => PAGE_SIZE * 2 ^ bb.order
    | none => m.slob.units (block - SLOB_UNIT) * SLOB_UNIT

/-- An object, with the memory from `lo` to `hi` that was handed out for it. -/
structure Obj where
  ptr : Nat
  size : Nat
  lo : Nat
  hi : Nat

def objOf (size p : Nat) : Obj :=
  if size < PAGE_SIZE - SLOB_UNIT then
    ⟨p, size, p - SLOB_UNIT, p - SLOB_UNIT + slobUnits (size + SLOB_UNIT) * SLOB_UNIT⟩
  else ⟨p, size, p, p + PAGE_SIZE * 2 ^ getOrder size⟩

inductive Call where
  | kmalloc (size : Nat) (pages : List Nat) (big : Nat)
  | kfree (block : Nat)

/-- The memory, and the objects that are not yet freed. -/
def step (s : Mem × List Obj) : Call → Option ((Mem × List Obj) × List Unit)
  | .kmalloc size pages big => (kmalloc s.1 size pages big).map fun out =>
    ((out.1, if out.2 = 0 then s.2 else objOf size out.2 :: s.2), [])
  | .kfree block => (kfree s.1 block).map fun m =>
    ((m, s.2.filter fun o => decide (o.ptr ≠ block)), [])

/-- What ksize promises of an object. -/
def Inside (m : Mem) (o : Obj) : Prop :=
  o.lo ≤ o.ptr ∧ o.ptr + ksize m o.ptr ≤ o.hi ∧ o.size ≤ ksize m o.ptr

/-- Only big objects are asked for, in pages that are not in use, and only objects are
freed. -/
def BigCall (s : Mem × List Obj) : Call → Prop
  | .kmalloc size _ big => PAGE_SIZE - SLOB_UNIT ≤ size ∧
      (big ≠ 0 → big % PAGE_SIZE = 0 ∧ ∀ bb ∈ s.1.bigblocks, bb.pages ≠ big)
  | .kfree block => ∃ o ∈ s.2, o.ptr = block

/-! ## What is handed out -/

section

variable {s s' : Heap} {m m' : Mem} {size p big order : Nat} {pages : List Nat} {o : Obj}

theorem slobTake_units (s : Heap) (units prev cur : Nat) :
    (slobTake s units prev cur).units cur = units := by
  unfold slobTake
  split
  · assumption
  · exact update_self ..

/-- A block that is returned has the units that were asked for. -/
theorem slobAlloc_units {align : Nat} {left : List Nat}
    (h : slobAlloc s size align pages = some (s', left, p)) (hp : p ≠ 0) : s'.units p = slobUnits size := by
  have hdone : ∀ x (out : Heap × List Nat × Nat), True → slobRound size align x = some (.inl out) →
      out.2.2 ≠ 0 → out.1.units out.2.2 = slobUnits size := by
    rintro ⟨s, pages, prev, cur⟩ out - hround hout
    unfold slobRound at hround
    dsimp only at hround
    generalize (if align ≠ 0 then alignUp align cur else cur) = aligned at hround
    generalize (if size = PAGE_SIZE then [] else pages) = pages at hround
    split_ifs at hround
    · cases hround
      exact slobTake_units ..
    · cases hround
      exact slobTake_units ..
    · split at hround
      · cases hround
        exact absurd rfl hout
      · simp at hround
    · cases hround
  exact loop_partial (fun _ => True) hdone (fun _ _ _ _ => trivial) trivial h hp

theorem lt_orderLoop (n : Nat) : n < 2 ^ (orderLoop n + 1) := by
  induction n using orderLoop.induct with
  | case1 n h =>
    rw [orderLoop, if_pos h]
    omega
  | case2 n h ih =>
    rw [orderLoop, if_neg h]
    omega

theorem le_getOrder (size : Nat) : size ≤ PAGE_SIZE * 2 ^ getOrder size := by
  have h := lt_orderLoop ((size - 1) / (PAGE_SIZE / 2))
  simp only [PAGE_SIZE, getOrder] at *
  omega

/-- Right after it is returned, ksize of a small object goes beyond it. -/
theorem not_inside_small (hsize : size < PAGE_SIZE - SLOB_UNIT)
    (h : kmalloc m size pages big = some (m', p)) (hp : p ≠ 0)
    (hbig : ∀ bb ∈ m'.bigblocks, bb.pages ≠ p) : ¬ Inside m' (objOf size p) := by
  rw [kmalloc, if_pos hsize, map_eq_some_iff] at h
  obtain ⟨⟨s, left, b⟩, halloc, hout⟩ := h
  by_cases hb : b = 0
  · simp [hb, Ne.symm hp] at hout
  obtain ⟨rfl, rfl⟩ : { m with slob := s } = m' ∧ b + SLOB_UNIT = p := by simpa [hb] using hout
  have hunits := slobAlloc_units halloc hb
  have hfind : findBig { m with slob := s } (b + SLOB_UNIT) = none := by
    unfold findBig
    simpa using fun _ => hbig
  rintro ⟨-, hinside, -⟩
  simp only [objOf, if_pos hsize, ksize, hfind, Nat.add_sub_cancel, hunits] at hinside
  simp only [SLOB_UNIT] at hinside
  omega

/-- Every object is a big one with its record. -/
def Recorded (m : Mem) (o : Obj) : Prop :=
  o = objOf o.size o.ptr ∧ PAGE_SIZE - SLOB_UNIT ≤ o.size ∧ o.ptr ≠ 0 ∧
    ∃ bb, findBig m o.ptr = some bb ∧ bb.order = getOrder o.size

theorem Recorded.inside (h : Recorded m o) : Inside m o := by
  obtain ⟨ho, hsize, hptr, bb, hfind, horder⟩ := h
  have hle := le_getOrder o.size
  have hks : ksize m o.ptr = (PAGE_SIZE * 2 ^ getOrder o.size : Nat) := by
    simp [ksize, hptr, hfind, horder]
  rw [objOf, if_neg (by omega)] at ho
  rw [Inside, ho]
  dsimp only
  omega

theorem Recorded.congr (h : Recorded m o) (hfind : findBig m' o.ptr = findBig m o.ptr) :
    Recorded m' o := by
  rw [Recorded, hfind]
  exact h

theorem find_eraseP {l : List Bigblock} {block : Nat} (hne : p ≠ block) :
    (l.eraseP fun bb => decide (bb.pages = block)).find? (fun bb => decide (bb.pages = p)) =
      l.find? fun bb => decide (bb.pages = p) := by
  induction l with
  | nil => rfl
  | cons bb l ih => grind

theorem recorded_step {live live' : List Obj} {call : Call} {evs : List Unit}
    (h : ∀ o ∈ live, Recorded m o) (hcall : BigCall (m, live) call)
    (hstep : step (m, live) call = some ((m', live'), evs)) : ∀ o ∈ live', Recorded m' o := by
  cases call with
  | kmalloc size pages big =>
    obtain ⟨hsize, hbig⟩ := hcall
    simp only [step, kmalloc, if_neg (Nat.not_lt.mpr hsize), map_eq_some_iff,
      bind_eq_some_iff, Prod.exists] at hstep
    obtain ⟨m1, p, ⟨slob, left, b, -, hout⟩, hlive⟩ := hstep
    split_ifs at hout with hb hnone
    · cases hout
      cases hlive
      exact fun o ho => (h o ho).congr rfl
    · obtain ⟨slob', -, hout⟩ := map_eq_some_iff.mp hout
      cases hout
      cases hlive
      exact fun o ho => (h o ho).congr rfl
    · cases hout
      simp only [if_neg hnone] at hlive
      cases hlive
      obtain ⟨haligned, hfresh⟩ := hbig hnone
      refine List.forall_mem_cons.mpr ⟨?_, fun o ho => (h o ho).congr ?_⟩
      · have hobj : objOf size big = ⟨big, size, big, _⟩ := if_neg (Nat.not_lt.mpr hsize)
        rw [hobj]
        exact ⟨hobj.symm, hsize, hnone, ⟨b, getOrder size, big⟩, by simp [findBig, haligned], rfl⟩
      · obtain ⟨-, -, -, bb, hfind, -⟩ := h o ho
        unfold findBig at hfind ⊢
        split_ifs at hfind ⊢
        have hptr : bb.pages = o.ptr := by simpa using List.find?_some hfind
        have hne := hfresh bb (List.mem_of_find?_eq_some hfind)
        exact List.find?_cons_of_neg (by simpa [← hptr] using Ne.symm hne)
  | kfree block =>
    simp only [step, map_eq_some_iff] at hstep
    obtain ⟨m1, hout, hlive⟩ := hstep
    cases hlive
    intro o ho
    obtain ⟨ho, hne⟩ : o ∈ live ∧ o.ptr ≠ block := by simpa using ho
    refine (h o ho).congr ?_
    unfold kfree at hout
    split_ifs at hout
    · cases hout
      rfl
    split at hout
    · obtain ⟨slob, -, rfl⟩ := map_eq_some_iff.mp hout
      simp [findBig, find_eraseP hne]
    · obtain ⟨slob, -, rfl⟩ := map_eq_some_iff.mp hout
      rfl

/-- If only big objects are asked for, ksize of every object is inside the pages handed
out for it, and at least its size.  It is beyond every small object. -/
theorem ksize_inside {live : List Obj} {evs : List Unit}
    (hrun : RunWith BigCall step (m, []) evs (m', live)) :
    (∀ o ∈ live, Inside m' o) ∧ ∀ {m m' size pages big p}, size < PAGE_SIZE - SLOB_UNIT →
      kmalloc m size pages big = some (m', p) → p ≠ 0 → (∀ bb ∈ m'.bigblocks, bb.pages ≠ p) →
      ¬ Inside m' (objOf size p) := by
  refine ⟨fun o ho => Recorded.inside ?_, not_inside_small⟩
  refine hrun.invariant (motive := fun _ s => ∀ o ∈ s.2, Recorded s.1 o) (by simp) ?_ o ho
  exact fun call h hcall hstep => recorded_step h hcall hstep

/-- A page of free units behind the arena. -/
def onePage : Mem := ⟨⟨fun b => if b = 8 then 1 else 512, fun b => if b = 8 then 4096 else 8, 8⟩, []⟩

theorem ksize_inside_one : ∃ m, Inside m (objOf 5000 8192) := by
  obtain ⟨slob, halloc⟩ : ∃ slob, slobAlloc onePage.slob BIGBLOCK 0 [] = some (slob, [], 4096) :=
    ⟨_, loop_of_rounds 3 rfl⟩
  have hstep : step (onePage, []) (.kmalloc 5000 [] 8192) =
      some ((⟨slob, [⟨4096, getOrder 5000, 8192⟩]⟩, [objOf 5000 8192]), []) := by
    rw [step, kmalloc, halloc]
    rfl
  exact ⟨_, (ksize_inside (.tail (.kmalloc 5000 [] 8192) (.refl (onePage, []))
    ⟨by decide, fun _ => ⟨by decide, by simp [onePage]⟩⟩ hstep)).1 _ List.mem_cons_self⟩

/-- 24 bytes: ksize is 32, and 24 are left behind the header. -/
theorem ksize_beyond : ∃ m, kmalloc onePage 24 [] 0 = some (m, 4104) ∧ ¬ Inside m (objOf 24 4104) := by
  obtain ⟨slob, halloc⟩ : ∃ slob, slobAlloc onePage.slob (24 + SLOB_UNIT) 0 [] =
      some (slob, [], 4096) := ⟨_, loop_of_rounds 3 rfl⟩
  have h : kmalloc onePage 24 [] 0 = some ({ onePage with slob }, 4104) := by
    rw [kmalloc, halloc]
    rfl
  exact ⟨_, h, not_inside_small (by decide) h (by decide) (by simp [onePage])⟩

end

end LinuxKernel.Mm.Slob
