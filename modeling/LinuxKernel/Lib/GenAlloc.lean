/-
  The general purpose allocator.

  Source: lib/genalloc.c.

  Addresses and sizes are 32-bit words and wrap; `int`s wrap too.  A chunk's bitmap has
  no end, so a search or a loop that leaves it goes on.  `BUG()` is `none`.  There is
  memory for every new chunk.
-/
import LinuxKernel.Foundation.Bitmap
import LinuxKernel.Foundation.CInt
import LinuxKernel.Foundation.Loop
import LinuxKernel.Foundation.Run

namespace LinuxKernel.Lib.GenAlloc

open Foundation List

variable {evs : List Empty} {order size b' : Nat} {a : Nat × Nat} {s : System}
  {c : Chunk}

/-! ## The code -/

section

structure Chunk where
  startAddr : Nat
  endAddr : Nat
  bits : Bits

structure GenPool where
  minAllocOrder : Nat
  /-- from the newest to the oldest -/
  chunks : List Chunk

/-- `nbits`, for a request of `size` bytes -/
def nbitsFor (order size : Nat) : Int := toInt ((size + 2 ^ order - 1) % 2 ^ 32 / 2 ^ order : Nat)

/-- `end_bit`, before it is moved down -/
def Chunk.endBit (order : Nat) (chunk : Chunk) : Int :=
  toInt ((chunk.endAddr + (2 ^ 32 - chunk.startAddr)) % 2 ^ 32 / 2 ^ order : Nat)

/-- The number of rounds of `while (nbits--)` -/
def countDown (nbits : Int) : Nat := (nbits % 2 ^ 32).toNat

/-- `gen_pool_create` -/
def genPoolCreate (minAllocOrder : Nat) : GenPool := ⟨minAllocOrder, []⟩

/-- `gen_pool_add` -/
def genPoolAdd (pool : GenPool) (addr size : Nat) : GenPool :=
  { pool with chunks := ⟨addr, (addr + size) % 2 ^ 32, fun _ => false⟩ :: pool.chunks }

/-- The `while` loop over the bits of a chunk: `start_bit`, if there is one. -/
def scanChunk (bits : Bits) (nbits endBit : Int) : Option (Option Nat) :=
  loop (fun bit : Int =>
    if bit + 1 < endBit then
      let startBit := findNext bits false endBit.toNat (bit + 1).toNat
      if (startBit : Int) ≥ endBit then some (.inl none)
      else if nbits > 1 then
        let bit := findNext bits true (startBit + nbits).toNat (startBit + 1)
        if (bit : Int) - startBit < nbits then some (.inr bit)
        else some (.inl (some startBit))
      else some (.inl (some startBit))
    else some (.inl none)) (-1)

/-- The loop over the chunks of `gen_pool_alloc` -/
def allocFrom (order : Nat) (nbits : Int) : List Chunk → Option (Nat × List Chunk)
  | [] => some (0, [])
  | chunk :: rest =>
    match scanChunk chunk.bits nbits (toInt (chunk.endBit order - (nbits + 1))) with
    | none => none
    | some (some startBit) =>
      some ((chunk.startAddr + startBit * 2 ^ order) % 2 ^ 32,
        { chunk with bits := fill true (countDown nbits) startBit chunk.bits } :: rest)
    | some none => (allocFrom order nbits rest).map fun (addr, rest) => (addr, chunk :: rest)

/-- `gen_pool_alloc` -/
def genPoolAlloc (pool : GenPool) (size : Nat) : Option (Nat × GenPool) :=
  if size = 0 then some (0, pool)
  else
    (allocFrom pool.minAllocOrder (nbitsFor pool.minAllocOrder size) pool.chunks).map
      fun (addr, chunks) => (addr, { pool with chunks := chunks })

/-- The loop over the chunks of `gen_pool_free` -/
def freeFrom (order addr size : Nat) (nbits : Int) : List Chunk → Option (List Chunk)
  | [] => if nbits > 0 then none else some []
  | chunk :: rest =>
    if chunk.startAddr ≤ addr ∧ addr < chunk.endAddr then
      if (addr + size) % 2 ^ 32 > chunk.endAddr then none
      else
        let bit := (addr - chunk.startAddr) / 2 ^ order
        some ({ chunk with bits := fill false (countDown nbits) bit chunk.bits } :: rest)
    else (freeFrom order addr size nbits rest).map (chunk :: ·)

/-- `gen_pool_free` -/
def genPoolFree (pool : GenPool) (addr size : Nat) : Option GenPool :=
  (freeFrom pool.minAllocOrder addr size (nbitsFor pool.minAllocOrder size) pool.chunks).map
    fun chunks => { pool with chunks := chunks }

end

/-! ## Runs

A pool together with the addresses and sizes that its users hold. -/

section

structure System where
  pool : GenPool
  live : List (Nat × Nat)

inductive Call where
  | add (addr size : Nat)
  | alloc (size : Nat)
  | free (addr size : Nat)

def step (s : System) : Call → Option (System × List Empty)
  | .add addr size => some (⟨genPoolAdd s.pool addr size, s.live⟩, [])
  | .alloc size =>
    (genPoolAlloc s.pool size).map fun (addr, pool) =>
      (⟨pool, if addr = 0 then s.live else (addr, size) :: s.live⟩, [])
  | .free addr size =>
    if (addr, size) ∈ s.live then
      (genPoolFree s.pool addr size).map fun pool => (⟨pool, s.live.erase (addr, size)⟩, [])
    else none

/-- The granules of a request: `size / 2^order`, rounded up. -/
def granules (order size : Nat) : Nat := (size + 2 ^ order - 1) / 2 ^ order

/-- The granules of a chunk. -/
def Chunk.granules (order : Nat) (chunk : Chunk) : Nat :=
  (chunk.endAddr - chunk.startAddr) / 2 ^ order

/-- A request whose granules can be counted in an `int`. -/
def Fits (order size : Nat) : Prop := size + 2 ^ order ≤ 2 ^ 32 ∧ granules order size < 2 ^ 31

/-- Memory that can be added: not at address zero, below the end of the address space, in
no other chunk, and with a number of granules that is an `int`. -/
structure Addable (pool : GenPool) (addr size : Nat) : Prop where
  pos : 0 < addr
  top : addr + size < 2 ^ 32
  small : size / 2 ^ pool.minAllocOrder < 2 ^ 31
  apart : ∀ chunk ∈ pool.chunks, addr + size ≤ chunk.startAddr ∨ chunk.endAddr ≤ addr

def Allowed (s : System) : Call → Prop
  | .add addr size => Addable s.pool addr size
  | .alloc size => Fits s.pool.minAllocOrder size
  | .free _ _ => True

/-- A run of free granules in one of the chunks, `spare` granules before its end. -/
def FreeRun (pool : GenPool) (size spare : Nat) : Prop :=
  ∃ chunk ∈ pool.chunks, ∃ b,
    b + granules pool.minAllocOrder size + spare ≤ chunk.granules pool.minAllocOrder ∧
    Clear chunk.bits b (granules pool.minAllocOrder size)

/-- What is asked of an allocation. -/
def AllocExact (s : System) (size : Nat) : Prop :=
  ∃ addr pool, genPoolAlloc s.pool size = some (addr, pool) ∧
    (addr = 0 → ¬ FreeRun s.pool size 0) ∧
    (addr ≠ 0 →
      (∃ chunk ∈ s.pool.chunks, ∃ b, addr = chunk.startAddr + b * 2 ^ s.pool.minAllocOrder ∧
        addr + granules s.pool.minAllocOrder size * 2 ^ s.pool.minAllocOrder ≤ chunk.endAddr ∧
        Clear chunk.bits b (granules s.pool.minAllocOrder size)) ∧
      (∀ a ∈ s.live, addr + size ≤ a.1 ∨ a.1 + a.2 ≤ addr) ∧
      genPoolFree pool addr size = some s.pool)

end

/-! ## The scan of a chunk -/

section

variable (bits : Bits) {n : Nat} (endBit : Int)

/-- What the scan of a chunk is for: a clear run of `n` bits that starts before `endBit`. -/
def Scanned (bits : Bits) (n : Nat) (endBit : Int) : Option Nat → Prop
  | none => ∀ b : Nat, (b : Int) < endBit → ¬ Clear bits b n
  | some b => (b : Int) < endBit ∧ Clear bits b n

theorem scanChunk_spec (hn : 0 < n) : ∃ r, scanChunk bits n endBit = some r ∧ Scanned bits n endBit r := by
  -- no clear run starts at or before `bit`
  refine loop_of_measure (fun bit : Int => -1 ≤ bit ∧ ∀ b : Nat, (b : Int) ≤ bit → ¬ Clear bits b n)
    (fun bit => (endBit - bit).toNat) ?_ ⟨Int.le_refl _, fun b hb => absurd hb (by omega)⟩
  rintro bit ⟨hlow, hnone⟩
  dsimp only
  split
  case isFalse hend => exact .inl ⟨none, rfl, fun b hb => hnone b (by omega)⟩
  obtain ⟨hlower, -, hbefore, hhere⟩ := findNext_spec bits false
    (show (bit + 1).toNat ≤ endBit.toNat by omega)
  generalize findNext bits false endBit.toNat (bit + 1).toNat = start at *
  have hskip (b : Nat) (hb : b < start) : ¬ Clear bits b n := by
    by_cases hle : (b : Int) ≤ bit
    · exact hnone b hle
    · refine Clear.not_of_set ?_ le_rfl (Nat.lt_add_of_pos_right hn)
      simpa using hbefore b (by omega) hb
  split
  · exact .inl ⟨none, rfl, fun b hb => hskip b (by omega)⟩
  have hzero : bits start = false := hhere (by omega)
  split
  · obtain ⟨hlower', hupper', hbefore', hhere'⟩ := findNext_spec bits true
      (show start + 1 ≤ ((start : Int) + n).toNat by omega)
    generalize findNext bits true ((start : Int) + n).toNat (start + 1) = next at *
    split
    · -- the set bit is in every run that starts from `start` up to it
      refine .inr ⟨next, rfl, ⟨by omega, ?_⟩, by omega⟩
      intro b hb
      by_cases hless : b < start
      · exact hskip b hless
      · exact Clear.not_of_set (hhere' (by omega)) (by omega) (by omega)
    · refine .inl ⟨some start, rfl, by omega, ?_⟩
      intro i hi hlt
      rcases Nat.eq_or_lt_of_le hi with rfl | hi
      · exact hzero
      · simpa using hbefore' i hi (by omega)
  · refine .inl ⟨some start, rfl, by omega, ?_⟩
    intro i hi hlt
    obtain rfl : i = start := by omega
    exact hzero

end

/-! ## Granules -/

section

variable {chunk : Chunk}

theorem granules_pos (h : 0 < size) : 0 < granules order size :=
  Nat.div_pos (by omega) (Nat.two_pow_pos order)

theorem le_granules_mul : size ≤ granules order size * 2 ^ order := by
  have hdiv := Nat.div_add_mod' (size + 2 ^ order - 1) (2 ^ order)
  unfold granules
  omega

theorem nbitsFor_eq (h : Fits order size) : nbitsFor order size = granules order size := by
  obtain ⟨htop, hsmall⟩ := h
  unfold nbitsFor granules at *
  rw [Nat.mod_eq_of_lt (by omega)]
  exact toInt_natCast hsmall

theorem countDown_natCast {n : Nat} (h : n < 2 ^ 31) : countDown n = n := by
  unfold countDown
  omega

/-- A chunk as `gen_pool_add` makes it, of memory that can be added. -/
structure Chunk.Valid (order : Nat) (chunk : Chunk) : Prop where
  pos : 0 < chunk.startAddr
  ordered : chunk.startAddr ≤ chunk.endAddr
  top : chunk.endAddr < 2 ^ 32
  small : chunk.granules order < 2 ^ 31

theorem Chunk.Valid.endBit_eq (h : chunk.Valid order) :
    chunk.endBit order = chunk.granules order := by
  obtain ⟨-, hordered, htop, hsmall⟩ := h
  unfold Chunk.endBit Chunk.granules at *
  have hsub : (chunk.endAddr + (2 ^ 32 - chunk.startAddr)) % 2 ^ 32 =
      chunk.endAddr - chunk.startAddr := by omega
  rw [hsub]
  exact toInt_natCast hsmall

/-- The granules of a chunk lie in it. -/
theorem Chunk.granule_le {m : Nat} (hordered : chunk.startAddr ≤ chunk.endAddr)
    (h : m ≤ chunk.granules order) : chunk.startAddr + m * 2 ^ order ≤ chunk.endAddr := by
  have hmul := Nat.mul_le_mul_right (2 ^ order) h
  have hdiv : chunk.granules order * 2 ^ order ≤ chunk.endAddr - chunk.startAddr :=
    Nat.div_mul_le_self _ _
  omega

end

/-! ## The loops over the chunks -/

section

variable {n : Nat}

/-- What `gen_pool_alloc` does with the chunks.  The last start that is tried in a chunk
leaves more than one granule after the run. -/
theorem allocFrom_spec (hpos : 0 < n) (hsmall : n < 2 ^ 31) (chunks : List Chunk)
    (hvalid : ∀ c ∈ chunks, c.Valid order) : (allocFrom order n chunks = some (0, chunks) ∧
      ∀ c ∈ chunks, ∀ b, b + n + 2 ≤ c.granules order → ¬ Clear c.bits b n) ∨
      ∃ pre c post b, chunks = pre ++ c :: post ∧ b + n + 2 ≤ c.granules order ∧ Clear c.bits b n ∧
      allocFrom order n chunks = some (c.startAddr + b * 2 ^ order,
        pre ++ { c with bits := fill true n b c.bits } :: post) := by
  induction chunks with
  | nil => exact .inl ⟨rfl, fun c hc => absurd hc not_mem_nil⟩
  | cons c rest ih =>
    have hc := hvalid c mem_cons_self
    have hlimit : toInt (c.endBit order - ((n : Int) + 1)) = c.granules order - ((n : Int) + 1) := by
      have hcount := hc.small
      rw [hc.endBit_eq]
      exact toInt_of_bounds (by omega) (by omega)
    obtain ⟨r, hscan, hr⟩ := scanChunk_spec c.bits (c.granules order - ((n : Int) + 1)) hpos
    cases r with
    | some b =>
      obtain ⟨hb, hclear⟩ := hr
      have hin := Chunk.granule_le hc.ordered (show b + n + 2 ≤ c.granules order by omega)
      have haddr : (c.startAddr + b * 2 ^ order) % 2 ^ 32 = c.startAddr + b * 2 ^ order := by
        have htop := hc.top
        have hle := Nat.mul_le_mul_right (2 ^ order) (show b ≤ b + n + 2 by omega)
        exact Nat.mod_eq_of_lt (by omega)
      refine .inr ⟨[], c, rest, b, rfl, by omega, hclear, ?_⟩
      rw [allocFrom, hlimit, hscan]
      simp only [haddr, countDown_natCast hsmall, nil_append]
    | none =>
      have hnone : ∀ b, b + n + 2 ≤ c.granules order → ¬ Clear c.bits b n :=
        fun b hb => hr b (by omega)
      have hstep : allocFrom order n (c :: rest) =
          (allocFrom order n rest).map fun (addr, rest) => (addr, c :: rest) := by
        rw [allocFrom, hlimit, hscan]
      rcases ih fun d hd => hvalid d (mem_cons_of_mem c hd) with
        ⟨halloc, hrest⟩ | ⟨pre, d, post, b, hsplit, hb, hclear, halloc⟩
      · exact .inl ⟨by rw [hstep, halloc]; rfl, forall_mem_cons.mpr ⟨hnone, hrest⟩⟩
      · refine .inr ⟨c :: pre, d, post, b, by rw [hsplit]; rfl, hb, hclear, ?_⟩
        rw [hstep, halloc]
        rfl

/-- `gen_pool_free` finds the chunk of the address. -/
theorem freeFrom_spec (order : Nat) {addr : Nat} (post : List Chunk) (hsmall : n < 2 ^ 31)
    (hlo : c.startAddr ≤ addr) (hhi : addr < c.endAddr) (hend : addr + size ≤ c.endAddr)
    (htop : c.endAddr < 2 ^ 32) (pre : List Chunk)
    (hpre : ∀ d ∈ pre, ¬ (d.startAddr ≤ addr ∧ addr < d.endAddr)) :
    freeFrom order addr size n (pre ++ c :: post) = some (pre ++
        { c with bits := fill false n ((addr - c.startAddr) / 2 ^ order) c.bits } :: post) := by
  induction pre with
  | nil =>
    rw [nil_append, freeFrom, if_pos ⟨hlo, hhi⟩,
      if_neg (by rw [Nat.mod_eq_of_lt (by omega)]; omega)]
    simp [countDown_natCast hsmall]
  | cons d pre ih =>
    rw [cons_append, freeFrom, if_neg (hpre d mem_cons_self),
      ih fun e he => hpre e (mem_cons_of_mem d he)]
    rfl

end

/-! ## What the bits say -/

section

variable {d : Chunk} {b i : Nat}

/-- Chunks of different memory. -/
def Apart (c d : Chunk) : Prop := c.endAddr ≤ d.startAddr ∨ d.endAddr ≤ c.startAddr

theorem Apart.symm (h : Apart c d) : Apart d c := h.elim .inr .inl

/-- The allocation `a` begins at granule `b` of the chunk and lies in it. -/
structure Placed (order : Nat) (c : Chunk) (a : Nat × Nat) (b : Nat) : Prop where
  addr : a.1 = c.startAddr + b * 2 ^ order
  inside : b + granules order a.2 ≤ c.granules order

/-- The memory of an allocation, in whole granules. -/
def span (order : Nat) (a : Nat × Nat) : Nat := granules order a.2 * 2 ^ order

section

variable (h : Placed order c a b)
include h

theorem Placed.end_le (hc : c.startAddr ≤ c.endAddr) : a.1 + span order a ≤ c.endAddr := by
  have hle := Chunk.granule_le hc h.inside
  rw [Nat.add_mul] at hle
  rw [h.addr, span]
  omega

theorem Placed.start_le : c.startAddr ≤ a.1 := by
  rw [h.addr]
  exact Nat.le_add_right _ _

theorem Placed.unique (h' : Placed order c a b') : b = b' := by
  have heq : b * 2 ^ order = b' * 2 ^ order := by
    have h1 := h.addr
    have h2 := h'.addr
    omega
  exact Nat.eq_of_mul_eq_mul_right (Nat.two_pow_pos order) heq

end

theorem span_pos (h : 0 < a.2) : 0 < span order a :=
  Nat.mul_pos (granules_pos h) (Nat.two_pow_pos order)

/-- An allocation is in one chunk only. -/
theorem Placed.not_placed (h : Placed order c a b) (hpos : 0 < a.2) (hapart : Apart d c)
    (hc : c.startAddr ≤ c.endAddr) (hd : d.startAddr ≤ d.endAddr) : ¬ Placed order d a b' := by
  intro h'
  have hspan : 0 < span order a := span_pos hpos
  have h1 := h.end_le hc
  have h2 := h.start_le
  have h3 := h'.end_le hd
  have h4 := h'.start_le
  unfold Apart at hapart
  omega

/-- A granule that is in use. -/
def Used (order : Nat) (live : List (Nat × Nat)) (c : Chunk) (i : Nat) : Prop :=
  ∃ a ∈ live, ∃ b, Placed order c a b ∧ b ≤ i ∧ i < b + granules order a.2

/-- Allocations that share no granule. -/
def Separate (order : Nat) (a a' : Nat × Nat) : Prop :=
  a.1 + span order a ≤ a'.1 ∨ a'.1 + span order a' ≤ a.1

instance : Std.Symm (Separate order) := ⟨fun _ _ h => h.elim .inr .inl⟩

/-- In one chunk, allocations that share no granule have disjoint runs. -/
theorem Placed.separate_iff {a' : Nat × Nat} (h : Placed order c a b) (h' : Placed order c a' b') :
    Separate order a a' ↔ b + granules order a.2 ≤ b' ∨ b' + granules order a'.2 ≤ b := by
  have hle (x y : Nat) : c.startAddr + x * 2 ^ order ≤ c.startAddr + y * 2 ^ order ↔ x ≤ y := by
    rw [Nat.add_le_add_iff_left]
    exact Nat.mul_le_mul_right_iff (Nat.two_pow_pos order)
  unfold Separate span
  rw [h.addr, h'.addr, Nat.add_assoc, ← Nat.add_mul, Nat.add_assoc, ← Nat.add_mul, hle, hle]

/-- The bits that are set are those of the live allocations, which lie in the chunks and
share nothing. -/
structure Consistent (order : Nat) (s : System) : Prop where
  order_eq : s.pool.minAllocOrder = order
  valid : ∀ c ∈ s.pool.chunks, c.Valid order
  apart : s.pool.chunks.Pairwise Apart
  fits : ∀ a ∈ s.live, 0 < a.2 ∧ Fits order a.2
  placed : ∀ a ∈ s.live, ∃ c ∈ s.pool.chunks, ∃ b, Placed order c a b
  exact : ∀ c ∈ s.pool.chunks, ∀ i, c.bits i = true ↔ Used order s.live c i
  separate : s.live.Pairwise (Separate order)

theorem consistent_create (order : Nat) : Consistent order ⟨genPoolCreate order, []⟩ where
  order_eq := rfl
  valid := fun _ hc => absurd hc not_mem_nil
  apart := .nil
  fits := fun _ ha => absurd ha not_mem_nil
  placed := fun _ ha => absurd ha not_mem_nil
  exact := fun _ hc => absurd hc not_mem_nil
  separate := .nil

end

/-! ## Steps -/

section

variable {pre post : List Chunk} {live live' : List (Nat × Nat)}

theorem others_apart (h : (pre ++ c :: post).Pairwise Apart) :
    ∀ d, d ∈ pre ∨ d ∈ post → Apart d c := by
  obtain ⟨-, hpost, hcross⟩ := pairwise_append.mp h
  intro d hd
  rcases hd with hd | hd
  · exact hcross d hd c mem_cons_self
  · exact ((pairwise_cons.mp hpost).1 d hd).symm

theorem others_mem {d : Chunk} (hd : d ∈ pre ∨ d ∈ post) : d ∈ pre ++ c :: post := by
  rw [mem_append, mem_cons]
  exact hd.imp_right .inr

section

variable (h : Consistent order ⟨⟨order, pre ++ c :: post⟩, live⟩)
include h

/-- The bits of one chunk change, and the allocations in it: the other chunks must not
notice. -/
theorem Consistent.replace {bits : Bits} (hfits : ∀ a ∈ live', 0 < a.2 ∧ Fits order a.2)
    (hplaced : ∀ a ∈ live', ∃ d ∈ pre ++ c :: post, ∃ b, Placed order d a b)
    (hothers : ∀ d, d ∈ pre ∨ d ∈ post → ∀ i, Used order live' d i ↔ Used order live d i)
    (hbits : ∀ i, bits i = true ↔ Used order live' c i)
    (hseparate : live'.Pairwise (Separate order)) :
    Consistent order ⟨⟨order, pre ++ { c with bits := bits } :: post⟩, live'⟩ := by
  refine ⟨rfl, ?_, ?_, hfits, ?_, ?_, hseparate⟩
  · have hvalid : ∀ d ∈ pre ++ c :: post, d.Valid order := h.valid
    rw [forall_mem_append, forall_mem_cons] at hvalid ⊢
    exact ⟨hvalid.1, { hvalid.2.1 with }, hvalid.2.2⟩
  · have happart : (pre ++ c :: post).Pairwise Apart := h.apart
    simp only [pairwise_append, pairwise_cons, forall_mem_cons] at happart ⊢
    exact happart
  · intro a ha
    obtain ⟨d, hd, b, hb⟩ := hplaced a ha
    rcases mem_append.mp hd with hd | hd
    · exact ⟨d, mem_append_left _ hd, b, hb⟩
    · rcases mem_cons.mp hd with rfl | hd
      · exact ⟨_, mem_append_cons_self, b, { hb with }⟩
      · exact ⟨d, mem_append_right _ (mem_cons_of_mem _ hd), b, hb⟩
  · intro d hd i
    rw [mem_append, mem_cons, or_left_comm] at hd
    rcases hd with rfl | hd
    · rw [hbits i]
      constructor
      · rintro ⟨a, ha, b, hb, hi⟩
        exact ⟨a, ha, b, { hb with }, hi⟩
      · rintro ⟨a, ha, b, hb, hi⟩
        exact ⟨a, ha, b, { hb with }, hi⟩
    · rw [h.exact d (others_mem hd) i, hothers d hd i]

section

variable {b : Nat} (ha : Placed order c a b) (hpos : 0 < a.2)
include ha hpos

/-- A run that is clear shares no granule with a live allocation. -/
theorem Consistent.separate_of_clear (hclear : Clear c.bits b (granules order a.2)) (a')
    (ha' : a' ∈ live) : Separate order a a' := by
  have hc : c ∈ pre ++ c :: post := mem_append_cons_self
  have hvalid := h.valid c hc
  obtain ⟨d, hd, b', hb'⟩ := h.placed a' ha'
  have hone := hd
  rw [mem_append, mem_cons, or_left_comm] at hone
  rcases hone with rfl | hother
  · -- in one chunk, a common granule would be both clear and set
    rw [ha.separate_iff hb']
    by_contra hno
    have hsize : 0 < granules order a.2 := granules_pos hpos
    have hsize' : 0 < granules order a'.2 := granules_pos (h.fits a' ha').1
    have hset : d.bits (max b b') = true := by
      rw [h.exact d hc]
      exact ⟨a', ha', b', hb', le_max_right _ _, by omega⟩
    exact Clear.not_of_set hset (le_max_left _ _) (by omega) hclear
  · have hapart := others_apart h.apart d hother
    have h1 := ha.end_le hvalid.ordered
    have h2 := ha.start_le
    have h3 := hb'.end_le (h.valid d hd).ordered
    have h4 := hb'.start_le
    unfold Apart at hapart
    unfold Separate
    omega

/-- The bits of one allocation change, and whether it is live. -/
theorem Consistent.refill {v : Bool} (hlive : ∀ a', a' ≠ a → (a' ∈ live' ↔ a' ∈ live))
    (hfits : ∀ a ∈ live', 0 < a.2 ∧ Fits order a.2)
    (hplaced : ∀ a ∈ live', ∃ d ∈ pre ++ c :: post, ∃ b, Placed order d a b)
    (hown : ∀ i, b ≤ i ∧ i < b + granules order a.2 → (v = true ↔ Used order live' c i))
    (hseparate : live'.Pairwise (Separate order)) : Consistent order ⟨⟨order, pre ++
      { c with bits := fill v (granules order a.2) b c.bits } :: post⟩, live'⟩ := by
  have hc : c ∈ pre ++ c :: post := mem_append_cons_self
  have hused (d i) (hnot : ∀ b', Placed order d a b' → ¬ (b' ≤ i ∧ i < b' + granules order a.2)) :
      (Used order live' d i ↔ Used order live d i) := by
    refine exists_congr fun a' => and_congr_left fun ⟨b', hb', hi⟩ => hlive a' ?_
    rintro rfl
    exact hnot b' hb' hi
  refine h.replace hfits hplaced ?_ ?_ hseparate
  · intro d hd i
    exact hused d i fun b' hb' => absurd hb' (ha.not_placed hpos (others_apart h.apart d hd)
      (h.valid c hc).ordered (h.valid d (others_mem hd)).ordered)
  · intro i
    rw [fill_apply]
    split
    · exact hown i (by assumption)
    rw [h.exact c hc i]
    refine (hused c i fun b' hb' => ?_).symm
    rw [hb'.unique ha]
    assumption

theorem Consistent.alloc (hfits : Fits order a.2) (hclear : Clear c.bits b (granules order a.2)) :
    Consistent order ⟨⟨order, pre ++
      { c with bits := fill true (granules order a.2) b c.bits } :: post⟩, a :: live⟩ := by
  have hc : c ∈ pre ++ c :: post := mem_append_cons_self
  refine h.refill ha hpos ?_ ?_ ?_ ?_ ?_
  · intro a' hne
    exact mem_cons.trans (or_iff_right hne)
  · exact forall_mem_cons.mpr ⟨⟨hpos, hfits⟩, h.fits⟩
  · exact forall_mem_cons.mpr ⟨⟨c, hc, b, ha⟩, h.placed⟩
  · intro i hi
    exact iff_of_true rfl ⟨a, mem_cons_self, b, ha, hi⟩
  · exact pairwise_cons.mpr ⟨h.separate_of_clear ha hpos hclear, h.separate⟩

end

end

theorem Consistent.nodup (h : Consistent order s) : s.live.Nodup := by
  refine h.separate.imp_of_mem ?_
  rintro a a' ha - hsep rfl
  have hpos : 0 < span order a := span_pos (h.fits a ha).1
  unfold Separate at hsep
  omega

section

variable {b : Nat} (h : Consistent order ⟨⟨order, pre ++ c :: post⟩, live⟩)
  (ha : Placed order c a b)
include h ha

theorem Consistent.free (hmem : a ∈ live) : Consistent order ⟨⟨order, pre ++
      { c with bits := fill false (granules order a.2) b c.bits } :: post⟩, live.erase a⟩ := by
  have herase (a') : a' ∈ live.erase a ↔ a' ≠ a ∧ a' ∈ live := h.nodup.mem_erase_iff
  refine h.refill ha (h.fits a hmem).1 ?_ ?_ ?_ ?_ ?_
  · intro a' hne
    exact (herase a').trans (and_iff_right hne)
  · intro a' ha'
    exact h.fits a' ((herase a').mp ha').2
  · intro a' ha'
    exact h.placed a' ((herase a').mp ha').2
  · -- a granule of the allocation: no other one has it
    intro i hi
    refine iff_of_false (by decide) ?_
    rintro ⟨a', ha', b', hb', hi'⟩
    obtain ⟨hne, ha'⟩ := (herase a').mp ha'
    have hsep : Separate order a a' := h.separate.forall hmem ha' hne.symm
    rw [ha.separate_iff hb'] at hsep
    omega
  · exact h.separate.sublist erase_sublist

/-- `gen_pool_free` clears the bits of an allocation in its chunk. -/
theorem Consistent.genPoolFree_eq (hpos : 0 < a.2) (hfits : Fits order a.2) :
    genPoolFree ⟨order, pre ++ c :: post⟩ a.1 a.2 =
      some ⟨order, pre ++ { c with bits := fill false (granules order a.2) b c.bits } :: post⟩ := by
  have hc : c ∈ pre ++ c :: post := mem_append_cons_self
  have hvalid := h.valid c hc
  have hend := ha.end_le hvalid.ordered
  have hstart := ha.start_le
  have hspan : a.2 ≤ span order a := le_granules_mul
  have hbit : (a.1 - c.startAddr) / 2 ^ order = b := by
    rw [ha.addr, Nat.add_sub_cancel_left, Nat.mul_div_cancel b (Nat.two_pow_pos order)]
  have hpre (d) (hd : d ∈ pre) : ¬ (d.startAddr ≤ a.1 ∧ a.1 < d.endAddr) := by
    have hapart := others_apart h.apart d (.inl hd)
    unfold Apart at hapart
    omega
  have hin : a.1 + a.2 ≤ c.endAddr := by omega
  have hfree := freeFrom_spec order post hfits.2 hstart (by omega) hin hvalid.top pre hpre
  unfold genPoolFree
  rw [nbitsFor_eq hfits, hfree, hbit]
  rfl

end

/-- The outcomes of `gen_pool_alloc`. -/
theorem Consistent.genPoolAlloc_cases (h : Consistent order s) (hpos : 0 < size)
    (hfits : Fits order size) :
    (genPoolAlloc s.pool size = some (0, s.pool) ∧ ¬ FreeRun s.pool size 2) ∨
    ∃ pre c post b, s.pool = ⟨order, pre ++ c :: post⟩ ∧ b + granules order size + 2 ≤ c.granules order ∧
      Clear c.bits b (granules order size) ∧ c.startAddr + b * 2 ^ order ≠ 0 ∧
      Placed order c (c.startAddr + b * 2 ^ order, size) b ∧
      genPoolAlloc s.pool size = some (c.startAddr + b * 2 ^ order,
        ⟨order, pre ++ { c with bits := fill true (granules order size) b c.bits } :: post⟩) := by
  obtain ⟨⟨order', chunks⟩, live⟩ := s
  obtain rfl : order' = order := h.order_eq
  have heq : genPoolAlloc ⟨order', chunks⟩ size =
      (allocFrom order' (granules order' size) chunks).map
        fun (addr, chunks) => (addr, ⟨order', chunks⟩) := by
    unfold genPoolAlloc
    rw [if_neg (by omega), nbitsFor_eq hfits]
  rcases allocFrom_spec (granules_pos hpos) hfits.2 chunks h.valid with
    ⟨halloc, hnone⟩ | ⟨pre, c, post, b, rfl, hb, hclear, halloc⟩
  · refine .inl ⟨by rw [heq, halloc]; rfl, ?_⟩
    rintro ⟨c, hc, b, hb, hclear⟩
    exact hnone c hc b hb hclear
  · have hvalid := h.valid c (mem_append_cons_self)
    have hstart := hvalid.pos
    refine .inr ⟨pre, c, post, b, rfl, hb, hclear, by omega, ⟨rfl, ?_⟩, by rw [heq, halloc]; rfl⟩
    show b + granules order' size ≤ c.granules order'
    omega

theorem Consistent.add {addr : Nat} (h : Consistent order s) (hadd : Addable s.pool addr size) :
    Consistent order ⟨genPoolAdd s.pool addr size, s.live⟩ := by
  obtain ⟨hpos, htop, hsmall, hapart⟩ := hadd
  have hend : (addr + size) % 2 ^ 32 = addr + size := Nat.mod_eq_of_lt htop
  rw [h.order_eq] at hsmall
  unfold genPoolAdd
  rw [hend]
  have hapart' : ∀ d ∈ s.pool.chunks, Apart ⟨addr, addr + size, fun _ => false⟩ d := hapart
  have hvalid : Chunk.Valid order ⟨addr, addr + size, fun _ => false⟩ := by
    refine ⟨hpos, Nat.le_add_right _ _, htop, ?_⟩
    unfold Chunk.granules
    rwa [Nat.add_sub_cancel_left]
  refine ⟨h.order_eq, forall_mem_cons.mpr ⟨hvalid, h.valid⟩, pairwise_cons.mpr ⟨hapart', h.apart⟩,
    h.fits, ?_, ?_, h.separate⟩
  · intro a ha
    obtain ⟨c, hc, hrest⟩ := h.placed a ha
    exact ⟨c, mem_cons_of_mem _ hc, hrest⟩
  · intro c hc i
    rcases mem_cons.mp hc with rfl | hc
    · -- every allocation is in one of the old chunks
      refine iff_of_false Bool.false_ne_true ?_
      rintro ⟨a, ha, b, hb, -⟩
      obtain ⟨d, hd, b', hb'⟩ := h.placed a ha
      exact hb'.not_placed (h.fits a ha).1 (hapart' d hd) (h.valid d hd).ordered hvalid.ordered hb
    · exact h.exact c hc i

theorem consistent_step {s' : System} (call : Call) (h : Consistent order s)
    (hallowed : Allowed s call) (hstep : step s call = some (s', evs)) : Consistent order s' := by
  cases call with
  | add addr size =>
    obtain ⟨rfl, -⟩ := hstep
    exact h.add hallowed
  | alloc size =>
    have hfits : Fits order size := by
      rw [← h.order_eq]
      exact hallowed
    rcases Nat.eq_zero_or_pos size with rfl | hpos
    · obtain ⟨rfl, -⟩ := hstep
      exact h
    rcases h.genPoolAlloc_cases hpos hfits with
      ⟨halloc, -⟩ | ⟨pre, c, post, b, hpool, -, hclear, haddr, hplaced, halloc⟩
    · simp only [step, halloc] at hstep
      obtain ⟨rfl, -⟩ := hstep
      exact h
    · simp only [step, halloc, if_neg haddr, Option.map_some] at hstep
      obtain ⟨rfl, -⟩ := hstep
      obtain ⟨pool, live⟩ := s
      obtain rfl : pool = ⟨order, pre ++ c :: post⟩ := hpool
      exact h.alloc hplaced hpos hfits hclear
  | free addr size =>
    simp only [step] at hstep
    split at hstep
    case isFalse => cases hstep
    rename_i hmem
    obtain ⟨c, hc, b, hplaced⟩ := h.placed _ hmem
    obtain ⟨hpos, hfits⟩ := h.fits _ hmem
    obtain ⟨⟨order', chunks⟩, live⟩ := s
    obtain rfl : order' = order := h.order_eq
    obtain ⟨pre, post, hsplit⟩ := append_of_mem hc
    obtain rfl : chunks = pre ++ c :: post := hsplit
    rw [h.genPoolFree_eq hplaced hpos hfits] at hstep
    obtain ⟨rfl, -⟩ := hstep
    exact h.free hplaced hmem

theorem run_consistent (h : RunWith Allowed step ⟨genPoolCreate order, []⟩ evs s) :
    Consistent order s :=
  h.invariant (consistent_create order)
    fun call h hallowed hstep => consistent_step call h hallowed hstep

end

/-! ## Allocation -/

section

theorem Consistent.allocExact_iff (h : Consistent order s) (hpos : 0 < size)
    (hfits : Fits order size) :
    AllocExact s size ↔ (FreeRun s.pool size 0 → FreeRun s.pool size 2) := by
  rcases h.genPoolAlloc_cases hpos hfits with
    ⟨halloc, hnone⟩ | ⟨pre, c, post, b, hpool, hb, hclear, haddr, hplaced, halloc⟩
  · constructor
    · rintro ⟨addr, pool, heq, hzero, -⟩ hfree
      rw [halloc] at heq
      cases heq
      exact absurd hfree (hzero rfl)
    · intro hspare
      exact ⟨0, s.pool, halloc, fun _ hfree => hnone (hspare hfree), fun hne => absurd rfl hne⟩
  · obtain ⟨pool, live⟩ := s
    obtain rfl : pool = ⟨order, pre ++ c :: post⟩ := hpool
    have hc : c ∈ pre ++ c :: post := mem_append_cons_self
    refine iff_of_true ⟨_, _, halloc, fun hzero => absurd hzero haddr, fun _ => ⟨?_, ?_, ?_⟩⟩
      fun _ => ⟨c, hc, b, hb, hclear⟩
    · exact ⟨c, hc, b, rfl, hplaced.end_le (h.valid c hc).ordered, hclear⟩
    · intro a ha
      have hsep := h.separate_of_clear hplaced hpos hclear a ha
      have h1 : size ≤ span order (c.startAddr + b * 2 ^ order, size) := le_granules_mul
      have h2 : a.2 ≤ span order a := le_granules_mul
      unfold Separate at hsep
      omega
    · have hnew := h.alloc hplaced hpos hfits hclear
      rw [hnew.genPoolFree_eq { hplaced with } hpos hfits, hclear.fill_fill]

/-- After any sequence of calls, an allocation is exact if and only if the pool has a run
of free granules with two more granules behind it, or no run of free granules at all. -/
theorem gen_pool_alloc_exact_iff (hrun : RunWith Allowed step ⟨genPoolCreate order, []⟩ evs s)
    (hpos : 0 < size) (hfits : Fits order size) :
    AllocExact s size ↔ (FreeRun s.pool size 0 → FreeRun s.pool size 2) :=
  (run_consistent hrun).allocExact_iff hpos hfits

/-- A pool of pages with one chunk. -/
def onePool (pages : Nat) : System := ⟨genPoolAdd (genPoolCreate 12) 4096 (pages * 4096), []⟩

theorem onePool_run {pages : Nat} (h : pages ≤ 16) :
    RunWith Allowed step ⟨genPoolCreate 12, []⟩ [] (onePool pages) := by
  have hadd : Addable (genPoolCreate 12) 4096 (pages * 4096) := by
    refine ⟨by decide, by omega, ?_, fun c hc => absurd hc not_mem_nil⟩
    show pages * 4096 / 2 ^ 12 < 2 ^ 31
    omega
  exact .tail (Call.add 4096 (pages * 4096)) (.refl _) hadd rfl

/-- A page out of four. -/
theorem gen_pool_alloc_exact_iff_page : AllocExact (onePool 4) 4096 :=
  (gen_pool_alloc_exact_iff (onePool_run (by decide)) (by decide) ⟨by decide, by decide⟩).mpr
    fun _ => ⟨_, List.mem_cons_self, 0, by decide, fun _ _ _ => rfl⟩

/-- The only page of a pool is free, and is not given out. -/
theorem gen_pool_alloc_fails : ∃ evs s, RunWith Allowed step ⟨genPoolCreate 12, []⟩ evs s ∧
    ¬ AllocExact s 4096 := by
  have hrun : RunWith Allowed step ⟨genPoolCreate 12, []⟩ [] (onePool 1) := onePool_run (by decide)
  refine ⟨[], onePool 1, hrun, ?_⟩
  rw [(run_consistent hrun).allocExact_iff (by decide) ⟨by decide, by decide⟩]
  intro hspare
  obtain ⟨c, hc, b, hb, -⟩ := hspare ⟨_, mem_cons_self, 0, by decide, fun _ _ _ => rfl⟩
  obtain rfl := mem_singleton.mp hc
  have hone : (⟨4096, (4096 + 1 * 4096) % 2 ^ 32, fun _ => false⟩ : Chunk).granules 12 = 1 := rfl
  dsimp only [onePool, genPoolAdd, genPoolCreate] at hb
  omega

end

end LinuxKernel.Lib.GenAlloc
