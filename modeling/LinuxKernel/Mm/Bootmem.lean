/-
  The boot-time allocator of a node and its scan for free pages.

  Source: mm/bootmem.c.

  `unsigned long` is a 32-bit word and wraps.  `BUG()` is `none`; a NULL result is an
  inner `none`, and the pointers returned are the physical addresses behind them.
-/
import LinuxKernel.Foundation.Bitmap
import LinuxKernel.Foundation.Loop

namespace LinuxKernel.Mm.Bootmem

open Foundation

variable {bits : Bits}

/-! ## The code -/

section

def pageSize : Nat := 4096

/-- `PFN_DOWN` -/
def pfnDown (x : Nat) : Nat := x / pageSize

/-- `PFN_UP` -/
def pfnUp (x : Nat) : Nat := (x + (pageSize - 1)) % 2 ^ 32 / pageSize

/-- `PFN_PHYS` -/
def pfnPhys (x : Nat) : Nat := x * pageSize % 2 ^ 32

/-- `ALIGN(x, a)` for a power of two; for zero it is zero -/
def alignUp (x a : Nat) : Nat := (x + (a - 1)) % 2 ^ 32 / a * a

structure BootmemData where
  nodeBootStart : Nat
  nodeLowPfn : Nat
  nodeBootmemMap : Option Bits
  lastOffset : Nat
  lastPos : Nat
  lastSuccess : Nat

/-- `get_mapsize` -/
def getMapsize (nodeBootStart nodeLowPfn : Nat) : Nat :=
  alignUp (((nodeLowPfn + (2 ^ 32 - pfnDown nodeBootStart)) % 2 ^ 32 + 7) % 2 ^ 32 / 8) 4

/-- `init_bootmem_core`, with the memory at `mapstart`; the node data were zero -/
def initBootmemCore (memory : Bits) (start end_ : Nat) : BootmemData where
  nodeBootStart := pfnPhys start
  nodeLowPfn := end_
  nodeBootmemMap := some (fill true (getMapsize (pfnPhys start) end_ * 8) 0 memory)
  lastOffset := 0
  lastPos := 0
  lastSuccess := 0

/-- `reserve_bootmem_core` -/
def reserveBootmemCore (bdata : BootmemData) (addr size : Nat) : Option BootmemData :=
  if size = 0 then none
  else if pfnDown addr ≥ bdata.nodeLowPfn then none
  else if pfnUp ((addr + size) % 2 ^ 32) > bdata.nodeLowPfn then none
  else
    let sidx := pfnDown ((addr + (2 ^ 32 - bdata.nodeBootStart)) % 2 ^ 32)
    let eidx := pfnUp ((addr + size + (2 ^ 32 - bdata.nodeBootStart)) % 2 ^ 32)
    bdata.nodeBootmemMap.map fun bits =>
      { bdata with nodeBootmemMap := some (fill true (eidx - sidx) sidx bits) }

/-- The loop of `free_bootmem_core` -/
def freePages : (n i : Nat) → Bits → Option Bits
  | 0, _, bits => some bits
  | n + 1, i, bits => if bits i then freePages n (i + 1) (Function.update bits i false) else none

/-- `free_bootmem_core` -/
def freeBootmemCore (bdata : BootmemData) (addr size : Nat) : Option BootmemData :=
  if size = 0 then none
  else if pfnDown ((addr + size) % 2 ^ 32) > bdata.nodeLowPfn then none
  else
    let lastSuccess := if addr < bdata.lastSuccess then addr else bdata.lastSuccess
    let sidx := (pfnUp addr + (2 ^ 32 - pfnDown bdata.nodeBootStart)) % 2 ^ 32
    let eidx := pfnDown ((addr + size + (2 ^ 32 - bdata.nodeBootStart)) % 2 ^ 32)
    match bdata.nodeBootmemMap with
    | none => none
    | some bits =>
      (freePages (eidx - sidx) sidx bits).map fun bits =>
        { bdata with nodeBootmemMap := some bits, lastSuccess := lastSuccess }

/-- The loop over `j`: the page that makes the block fail. -/
def failsAt (bits : Bits) (eidx : Nat) : (n j : Nat) → Option Nat
  | 0, _ => none
  | n + 1, j => if j ≥ eidx then some j else if bits j then some j else failsAt bits eidx n (j + 1)

/-- A round of the loop over `i` -/
def scanRound (bits : Bits) (eidx incr areasize i : Nat) : Option (Option Nat ⊕ Nat) :=
  if i < eidx then
    let i := alignUp (findNext bits false eidx i) incr
    if i ≥ eidx then some (.inl none)
    else if bits i then some (.inr ((i + incr) % 2 ^ 32))
    else
      match failsAt bits eidx ((i + areasize) % 2 ^ 32 - (i + 1)) (i + 1) with
      | none => some (.inl (some i))
      | some j => some (.inr ((alignUp j incr + incr) % 2 ^ 32))
  else some (.inl none)

/-- The loop over `i`, from `preferred` on -/
def scanFrom (bits : Bits) (eidx incr areasize preferred : Nat) : Option (Option Nat) :=
  loop (scanRound bits eidx incr areasize) preferred

/-- The scan with its restart: `start` -/
def findBlock (bits : Bits) (eidx incr areasize offset preferred : Nat) : Option (Option Nat) :=
  match scanFrom bits eidx incr areasize preferred with
  | some none =>
    if preferred > offset then scanFrom bits eidx incr areasize offset else some none
  | result => result

/-- `preferred`, as an index; `limit` is a page number by now -/
def preferredIndex (bdata : BootmemData) (align goal limit endPfn offset : Nat) : Nat :=
  let preferred :=
    if goal ≠ 0 ∧ goal ≥ bdata.nodeBootStart ∧ pfnDown goal < endPfn then
      let preferred := goal - bdata.nodeBootStart
      if bdata.lastSuccess ≥ preferred ∧ (limit = 0 ∨ limit > bdata.lastSuccess) then
        bdata.lastSuccess
      else preferred
    else 0
  (pfnDown (alignUp preferred align) + offset) % 2 ^ 32

/-- Where a block goes: the address, the pages to reserve, `last_pos` and `last_offset`. -/
structure Placement where
  ret : Nat
  areasize : Nat
  lastPos : Nat
  lastOffset : Nat

/-- The part after `found:`, up to the reservation. -/
def place (bdata : BootmemData) (size align start areasize : Nat) : Option Placement :=
  if align < pageSize ∧ bdata.lastOffset ≠ 0 ∧ (bdata.lastPos + 1) % 2 ^ 32 = start then
    let offset := alignUp bdata.lastOffset align
    if offset > pageSize then none
    else
      let ret := (bdata.lastPos * pageSize + offset + bdata.nodeBootStart) % 2 ^ 32
      let remainingSize := pageSize - offset
      if size < remainingSize then
        some ⟨ret, 0, bdata.lastPos, (offset + size) % pageSize⟩
      else
        let remainingSize := size - remainingSize
        let areasize := (remainingSize + (pageSize - 1)) % 2 ^ 32 / pageSize
        some ⟨ret, areasize, (start + areasize + (2 ^ 32 - 1)) % 2 ^ 32, remainingSize % pageSize⟩
  else
    some ⟨(start * pageSize + bdata.nodeBootStart) % 2 ^ 32, areasize,
      (start + areasize + (2 ^ 32 - 1)) % 2 ^ 32, size % pageSize⟩

/-- The loop that reserves the area -/
def reservePages : (n i : Nat) → Bits → Option Bits
  | 0, _, bits => some bits
  | n + 1, i, bits => if bits i then none else reservePages n (i + 1) (Function.update bits i true)

/-- `eidx`; `limit` is a page number by now -/
def endIndex (bdata : BootmemData) (limit : Nat) : Nat × Nat :=
  let endPfn := if limit ≠ 0 ∧ bdata.nodeLowPfn > limit then limit else bdata.nodeLowPfn
  (endPfn, (endPfn + (2 ^ 32 - pfnDown bdata.nodeBootStart)) % 2 ^ 32)

/-- `offset`, in pages -/
def offsetPages (nodeBootStart align : Nat) : Nat :=
  pfnDown (if align ≠ 0 ∧ nodeBootStart &&& (align - 1) ≠ 0 then
    align - (nodeBootStart &&& (align - 1)) else 0)

/-- `areasize` -/
def areaPages (size : Nat) : Nat := (size + (pageSize - 1)) % 2 ^ 32 / pageSize

/-- `incr` -/
def increment (align : Nat) : Nat := if align / pageSize = 0 then 1 else align / pageSize

/-- `__alloc_bootmem_core` -/
def allocBootmemCore (bdata : BootmemData) (size align goal limit : Nat) :
    Option (Option Nat × BootmemData) :=
  if size = 0 then none
  else if align &&& (align - 1) ≠ 0 then none
  else if limit ≠ 0 ∧ bdata.nodeBootStart ≥ limit then some (none, bdata)
  else
    match bdata.nodeBootmemMap with
    | none => some (none, bdata)
    | some bits =>
      let limit := pfnDown limit
      let (endPfn, eidx) := endIndex bdata limit
      let offset := offsetPages bdata.nodeBootStart align
      match findBlock bits eidx (increment align) (areaPages size) offset
          (preferredIndex bdata align goal limit endPfn offset) with
      | none => none
      | some none => some (none, bdata)
      | some (some start) =>
        if start ≥ eidx then none
        else
          match place bdata size align start (areaPages size) with
          | none => none
          | some p =>
            (reservePages p.areasize start bits).map fun bits =>
              (some p.ret, ⟨bdata.nodeBootStart, bdata.nodeLowPfn, some bits, p.lastOffset,
                p.lastPos, pfnPhys start⟩)

end

/-! ## Alignment -/

section

variable {x a c : Nat}

theorem alignUp_eq (h : x + a ≤ 2 ^ 32) (ha : 0 < a) : alignUp x a = (x + (a - 1)) / a * a := by
  unfold alignUp
  rw [Nat.mod_eq_of_lt (by omega)]

theorem le_alignUp (h : x + a ≤ 2 ^ 32) (ha : 0 < a) : x ≤ alignUp x a := by
  rw [alignUp_eq h ha]
  have hdiv := Nat.div_add_mod' (x + (a - 1)) a
  have hmod := Nat.mod_lt (x + (a - 1)) ha
  omega

theorem dvd_alignUp (x a : Nat) : a ∣ alignUp x a := Nat.dvd_mul_left _ _

theorem alignUp_le (h : x + a ≤ 2 ^ 32) (ha : 0 < a) (hdvd : a ∣ c) (hle : x ≤ c) :
    alignUp x a ≤ c := by
  rw [alignUp_eq h ha]
  obtain ⟨q, rfl⟩ := hdvd
  have hq : (x + (a - 1)) / a ≤ q := by
    rw [← Nat.lt_succ_iff, Nat.div_lt_iff_lt_mul ha, Nat.succ_mul, Nat.mul_comm]
    omega
  rw [Nat.mul_comm a q]
  exact Nat.mul_le_mul_right a hq

end

/-! ## The scan -/

section

variable {eidx incr areasize : Nat}

/-- What `failsAt` says about the `n` pages from `j` on. -/
theorem failsAt_spec (bits : Bits) (eidx : Nat) (n j : Nat) :
    (failsAt bits eidx n j = none ∧ ∀ i, j ≤ i → i < j + n → i < eidx ∧ bits i = false) ∨
      ∃ i, failsAt bits eidx n j = some i ∧ j ≤ i ∧ i < j + n ∧ (eidx ≤ i ∨ bits i = true) ∧
      ∀ m, j ≤ m → m < i → m < eidx ∧ bits m = false := by
  induction n generalizing j with
  | zero => exact .inl ⟨rfl, fun i hi hlt => absurd hlt (Nat.not_lt.mpr hi)⟩
  | succ n ih =>
    rw [failsAt]
    split
    · rename_i hge
      exact .inr ⟨j, rfl, le_rfl, by omega, .inl hge, fun m hm hlt => absurd hlt (Nat.not_lt.mpr hm)⟩
    split
    · rename_i hset
      exact .inr ⟨j, rfl, le_rfl, by omega, .inr hset, fun m hm hlt => absurd hlt (Nat.not_lt.mpr hm)⟩
    rename_i hclear
    have hfirst : j < eidx ∧ bits j = false := ⟨by omega, by simpa using hclear⟩
    have hextend (top) (hrest : ∀ m, j + 1 ≤ m → m < top → m < eidx ∧ bits m = false) (m)
        (hm : j ≤ m) (hlt : m < top) : m < eidx ∧ bits m = false := by
      rcases Nat.eq_or_lt_of_le hm with rfl | hm
      · exact hfirst
      · exact hrest m hm hlt
    rcases ih (j + 1) with ⟨hnone, hall⟩ | ⟨i, hsome, hle, hlt, hwhy, hbefore⟩
    · exact .inl ⟨hnone, hextend _ fun m hm hlt => hall m hm (by omega)⟩
    · exact .inr ⟨i, hsome, by omega, by omega, hwhy, hextend _ hbefore⟩

/-- The sizes for which no index of the scan wraps. -/
structure Small (eidx incr areasize : Nat) : Prop where
  eidx : eidx ≤ 2 ^ 20
  incr_pos : 0 < incr
  incr : incr ≤ 2 ^ 20
  areasize : areasize ≤ 2 ^ 20

/-- A block that the scan may return. -/
structure Block (bits : Bits) (eidx incr areasize start : Nat) : Prop where
  inside : start < eidx
  aligned : incr ∣ start
  clear : bits start = false
  rest : ∀ j, start < j → j < start + areasize → j < eidx ∧ bits j = false

/-- The outcomes of a round: `next` is the first aligned index that may begin a block. -/
inductive Round (bits : Bits) (eidx incr areasize next : Nat) : Option (Option Nat ⊕ Nat) → Prop
  | beyond (h : eidx ≤ next) : Round bits eidx incr areasize next (some (.inl none))
  | set (h : bits next = true) : Round bits eidx incr areasize next (some (.inr (next + incr)))
  | found (h : Block bits eidx incr areasize next) :
      Round bits eidx incr areasize next (some (.inl (some next)))
  | fails {j : Nat} (hlo : next < j) (hhi : j < next + areasize)
      (hwhy : eidx ≤ j ∨ bits j = true)
      (hbefore : ∀ m, next ≤ m → m < j → m < eidx ∧ bits m = false) :
      Round bits eidx incr areasize next (some (.inr (alignUp j incr + incr)))

theorem alignUp_lt {x : Nat} (hpos : 0 < incr) (h : x + incr ≤ 2 ^ 32) :
    alignUp x incr < x + incr := by
  rw [alignUp_eq h hpos]
  have hdiv := Nat.div_mul_le_self (x + (incr - 1)) incr
  omega

theorem scanRound_spec (bits : Bits) (h : Small eidx incr areasize) {i : Nat} (hi : i < eidx) :
    ∃ next, i ≤ next ∧ incr ∣ next ∧
      (∀ c, incr ∣ c → i ≤ c → c < eidx → bits c = false → next ≤ c) ∧
      Round bits eidx incr areasize next (scanRound bits eidx incr areasize i) := by
  obtain ⟨heidx, hpos, hincr, harea⟩ := h
  obtain ⟨hlower, hupper, hbefore, -⟩ := findNext_spec bits false (Nat.le_of_lt hi)
  have hle : findNext bits false eidx i ≤ alignUp (findNext bits false eidx i) incr :=
    le_alignUp (by omega) hpos
  have hleast (c) (hdvd : incr ∣ c) (hic : i ≤ c) (hc : c < eidx) (hclear : bits c = false) :
      alignUp (findNext bits false eidx i) incr ≤ c := by
    refine alignUp_le (by omega) hpos hdvd ?_
    by_contra hlt
    exact hbefore c hic (by omega) hclear
  have hdvd : incr ∣ alignUp (findNext bits false eidx i) incr := dvd_alignUp _ _
  refine ⟨alignUp (findNext bits false eidx i) incr, by omega, hdvd, hleast, ?_⟩
  unfold scanRound
  rw [if_pos hi]
  dsimp only
  generalize alignUp (findNext bits false eidx i) incr = next at *
  split
  · rename_i hge
    exact .beyond hge
  split
  · rename_i hset
    rw [Nat.mod_eq_of_lt (by omega)]
    exact .set hset
  rename_i hclear
  have hclear : bits next = false := by simpa using hclear
  rw [Nat.mod_eq_of_lt (show next + areasize < 2 ^ 32 by omega)]
  rcases failsAt_spec bits eidx (next + areasize - (next + 1)) (next + 1) with
    ⟨hnone, hall⟩ | ⟨j, hsome, hle', hlt', hwhy, hbefore'⟩
  · rw [hnone]
    exact .found ⟨by omega, hdvd, hclear, fun j hj hlt => hall j hj (by omega)⟩
  rw [hsome]
  have halign := alignUp_lt hpos (show j + incr ≤ 2 ^ 32 by omega)
  dsimp only
  rw [Nat.mod_eq_of_lt (by omega)]
  refine .fails (by omega) (by omega) hwhy ?_
  intro m hm hlt
  rcases Nat.eq_or_lt_of_le hm with rfl | hm
  · exact ⟨by omega, hclear⟩
  · exact hbefore' m hm hlt

/-- The scan ends, and what it finds is a block. -/
theorem scanFrom_sound (bits : Bits) (h : Small eidx incr areasize) (preferred : Nat) :
    ∃ r, scanFrom bits eidx incr areasize preferred = some r ∧
      ∀ start, r = some start → Block bits eidx incr areasize start := by
  have hpos := h.incr_pos
  have heidx := h.eidx
  have hincr := h.incr
  refine loop_of_measure (fun _ => True) (fun i => eidx - i) ?_ trivial
  intro i _
  by_cases hi : i < eidx
  case neg => refine .inl ⟨none, by rw [scanRound, if_neg hi], fun start hstart => by cases hstart⟩
  obtain ⟨next, hle, -, -, hround⟩ := scanRound_spec bits h hi
  generalize scanRound bits eidx incr areasize i = r at hround
  cases hround with
  | beyond _ => exact .inl ⟨none, rfl, fun start hstart => by cases hstart⟩
  | set _ => exact .inr ⟨_, rfl, trivial, by omega⟩
  | found hblock =>
    refine .inl ⟨some next, rfl, ?_⟩
    intro start hstart
    cases hstart
    exact hblock
  | @fails j hlo _ _ hbefore =>
    have hnext := (hbefore next le_rfl hlo).1
    have hj : j ≤ eidx := by
      have hin := hbefore eidx
      omega
    have halign : j ≤ alignUp j incr := le_alignUp (by omega) hpos
    exact .inr ⟨_, rfl, trivial, by omega⟩

/-- The run of `n` pages at `c` is not jumped over: a reserved page between the aligned
index before `c` and `c` itself does not end a stretch that begins at that index. -/
def Kept (bits : Bits) (incr c : Nat) : Prop :=
  ∀ j, c < j + incr → j < c → bits j = true → bits (c - incr) = true

/-- From an aligned index on, the scan does not miss every run of clear pages, if one of
them is not jumped over. -/
theorem scanFrom_complete (h : Small eidx incr areasize) {n c : Nat} (hn : 0 < n)
    (harea : areasize ≤ n) (hdvd : incr ∣ c) (hin : c + n ≤ eidx) (hclear : Clear bits c n)
    (hkept : areasize ≤ 1 ∨ Kept bits incr c) {i : Nat} (hi : incr ∣ i) (hic : i ≤ c) :
    ∃ start, scanFrom bits eidx incr areasize i = some (some start) := by
  have hpos := h.incr_pos
  have heidx := h.eidx
  have hc : bits c = false := hclear c le_rfl (by omega)
  obtain ⟨r, hr, hsome⟩ : ∃ r, scanFrom bits eidx incr areasize i = some r ∧ ∃ start, r = some start := by
    refine loop_of_measure (fun i => incr ∣ i ∧ i ≤ c) (fun i => eidx - i) ?_ ⟨hi, hic⟩
    rintro i ⟨hi, hic⟩
    obtain ⟨next, hle, hnext, hleast, hround⟩ := scanRound_spec bits h (show i < eidx by omega)
    have hnc : next ≤ c := hleast c hdvd hic (by omega) hc
    -- an aligned index before `c` is at least one step before it
    have hstep (x) (hx : incr ∣ x) (hlt : x < c) : x + incr ≤ c := by
      have hsub := Nat.le_of_dvd (by omega) (Nat.dvd_sub hdvd hx)
      omega
    generalize scanRound bits eidx incr areasize i = r at hround
    cases hround with
    | beyond hge => omega
    | set hset =>
      have hlt : next < c := by
        rcases Nat.eq_or_lt_of_le hnc with rfl | hlt
        · rw [hc] at hset
          cases hset
        · exact hlt
      exact .inr ⟨_, rfl, ⟨Nat.dvd_add hnext (Nat.dvd_refl incr), hstep next hnext hlt⟩, by omega⟩
    | found _ => exact .inl ⟨some next, rfl, next, rfl⟩
    | @fails j hlo hhi hwhy hbefore =>
      have hset : bits j = true := by
        rcases hwhy with hge | hset
        · omega
        · exact hset
      have hjc : j < c := by
        by_contra hge
        rw [hclear j (by omega) (by omega)] at hset
        cases hset
      have hlast : j + incr ≤ c := by
        rcases hkept with hone | hkept
        · omega
        by_contra hgt
        have hprev := hkept j (by omega) hjc hset
        have hnextle := hstep next hnext (by omega)
        rw [(hbefore (c - incr) (by omega) (by omega)).2] at hprev
        cases hprev
      have hup : alignUp j incr ≤ c - incr :=
        alignUp_le (by omega) hpos (Nat.dvd_sub hdvd (Nat.dvd_refl incr)) (by omega)
      have hge : j ≤ alignUp j incr := le_alignUp (by omega) hpos
      exact .inr ⟨_, rfl, ⟨Nat.dvd_add (dvd_alignUp j incr) (Nat.dvd_refl incr), by omega⟩, by omega⟩
  obtain ⟨start, rfl⟩ := hsome
  exact ⟨start, hr⟩

end

/-! ## Completeness -/

section

variable {size align : Nat}

/-- A node whose pages have 32-bit physical addresses. -/
structure BootmemData.WellFormed (bdata : BootmemData) : Prop where
  ordered : pfnDown bdata.nodeBootStart ≤ bdata.nodeLowPfn
  top : bdata.nodeLowPfn ≤ 2 ^ 20

/-- The pages of the node. -/
def BootmemData.pages (bdata : BootmemData) : Nat := bdata.nodeLowPfn - pfnDown bdata.nodeBootStart

/-- The pages that a request needs: `size / PAGE_SIZE`, rounded up. -/
def pagesFor (size : Nat) : Nat := (size + (pageSize - 1)) / pageSize

/-- A request without a limit fails only if there is no run of clear bits for it. -/
def Complete (size align : Nat) : Prop :=
  ∀ (bdata bdata' : BootmemData) (bits : Bits) (goal : Nat), bdata.WellFormed →
    bdata.nodeBootmemMap = some bits → align ∣ bdata.nodeBootStart →
    allocBootmemCore bdata size align goal 0 = some (none, bdata') →
    ¬ ∃ c, max 1 (align / pageSize) ∣ c ∧ c + pagesFor size ≤ bdata.pages ∧
      Clear bits c (pagesFor size)

theorem increment_eq (align : Nat) : increment align = max 1 (align / pageSize) := by
  unfold increment pageSize
  split <;> omega

theorem increment_pos (align : Nat) : 0 < increment align := by
  rw [increment_eq]
  omega

theorem increment_le {k : Nat} (hk : k < 32) : increment (2 ^ k) ≤ 2 ^ 20 := by
  have hle : 2 ^ k ≤ 2 ^ 31 := Nat.pow_le_pow_right (by decide) (by omega)
  unfold increment pageSize
  split <;> omega

theorem areaPages_le (size : Nat) : areaPages size ≤ 2 ^ 20 := by
  unfold areaPages pageSize
  omega

theorem pagesFor_pos (h : 0 < size) : 0 < pagesFor size := by
  unfold pagesFor pageSize
  omega

/-- Without a limit the scan goes to the end of the node. -/
theorem endIndex_zero {bdata : BootmemData} (h : bdata.WellFormed) :
    endIndex bdata 0 = (bdata.nodeLowPfn, bdata.pages) := by
  obtain ⟨hordered, htop⟩ := h
  unfold endIndex BootmemData.pages
  simp only [ne_eq, not_true_eq_false, false_and, if_false, Prod.mk.injEq, true_and]
  omega

theorem land_pred_eq_zero (k : Nat) : 2 ^ k &&& (2 ^ k - 1) = 0 := by
  rw [Nat.and_two_pow_sub_one_eq_mod, Nat.mod_self]

theorem offsetPages_of_dvd {k start : Nat} (h : 2 ^ k ∣ start) : offsetPages start (2 ^ k) = 0 := by
  unfold offsetPages
  rw [Nat.and_two_pow_sub_one_eq_mod, Nat.mod_eq_zero_of_dvd h]
  simp [pfnDown]

/-- A request fails when no block is found, and only then. -/
theorem alloc_null_iff {k goal : Nat} {bdata bdata' : BootmemData} (hsize : 0 < size)
    (hwell : bdata.WellFormed) (hmap : bdata.nodeBootmemMap = some bits)
    (hdvd : 2 ^ k ∣ bdata.nodeBootStart) :
    allocBootmemCore bdata size (2 ^ k) goal 0 = some (none, bdata') ↔
      findBlock bits bdata.pages (increment (2 ^ k)) (areaPages size) 0
        (preferredIndex bdata (2 ^ k) goal 0 bdata.nodeLowPfn 0) = some none ∧ bdata = bdata' := by
  unfold allocBootmemCore
  rw [if_neg (by omega), if_neg (by rw [land_pred_eq_zero]; simp), if_neg (by simp), hmap]
  simp only [show pfnDown 0 = 0 from rfl, endIndex_zero hwell, offsetPages_of_dvd hdvd]
  generalize findBlock bits bdata.pages (increment (2 ^ k)) (areaPages size) 0
    (preferredIndex bdata (2 ^ k) goal 0 bdata.nodeLowPfn 0) = r
  rcases r with _ | _ | start
  · simp
  · simp
  refine iff_of_false ?_ (by simp)
  intro halloc
  dsimp only at halloc
  split at halloc
  · cases halloc
  split at halloc
  · cases halloc
  · simp at halloc

/-- A request that finds no block has scanned the node from its beginning. -/
theorem scanFrom_of_findBlock {eidx incr areasize preferred : Nat}
    (h : findBlock bits eidx incr areasize 0 preferred = some none) :
    scanFrom bits eidx incr areasize 0 = some none := by
  unfold findBlock at h
  split at h
  · rename_i hscan
    split at h
    · exact h
    · obtain rfl : preferred = 0 := by omega
      exact hscan
  · rename_i hno
    exact absurd h hno

/-- The bitmap of a node in which the pages between the first two aligned ones are
reserved. -/
def gap (incr : Nat) : Bits := fun j => decide (0 < j ∧ j < incr)

/-- The scan tries the page at zero, and goes on after the next aligned one. -/
theorem scanFrom_gap {incr area : Nat} (hincr : 2 ≤ incr) (harea : 2 ≤ area)
    (htop : incr + area ≤ 2 ^ 20) : scanFrom (gap incr) (incr + area) incr area 0 = some none := by
  have hsmall : Small (incr + area) incr area := ⟨htop, by omega, by omega, by omega⟩
  have hone : gap incr 1 = true := by exact decide_eq_true (by omega)
  have hafter (j) (hj : incr ≤ j) : gap incr j = false := by exact decide_eq_false (by omega)
  have hfirst : scanRound (gap incr) (incr + area) incr area 0 = some (.inr (incr + incr)) := by
    obtain ⟨next, -, -, hleast, hround⟩ := scanRound_spec (gap incr) hsmall (show 0 < incr + area by omega)
    obtain rfl : next = 0 := Nat.le_zero.mp (hleast 0 (Nat.dvd_zero _) le_rfl (by omega) rfl)
    generalize scanRound (gap incr) (incr + area) incr area 0 = r at hround
    cases hround with
    | beyond hge => omega
    | set hset => cases hset
    | found hblock =>
      have hclear := (hblock.rest 1 (by omega) (by omega)).2
      rw [hone] at hclear
      cases hclear
    | @fails j hlo _ _ hbefore =>
      obtain rfl : j = 1 := by
        by_contra hne
        have hclear := (hbefore 1 (by omega) (by omega)).2
        rw [hone] at hclear
        cases hclear
      have hle := alignUp_le (show 1 + incr ≤ 2 ^ 32 by omega) (by omega) (Nat.dvd_refl incr) (by omega)
      have hge := le_alignUp (show 1 + incr ≤ 2 ^ 32 by omega) (by omega)
      have hdvd := Nat.le_of_dvd (by omega) (dvd_alignUp 1 incr)
      rw [show alignUp 1 incr = incr by omega]
  unfold scanFrom
  rw [loop_next hfirst]
  by_cases hend : incr + incr < incr + area
  case neg => exact loop_done (by rw [scanRound, if_neg hend])
  obtain ⟨next, hle, -, -, hround⟩ := scanRound_spec (gap incr) hsmall hend
  generalize hr : scanRound (gap incr) (incr + area) incr area (incr + incr) = r at hround
  cases hround with
  | beyond _ => exact loop_done hr
  | set hset =>
    rw [hafter next (by omega)] at hset
    cases hset
  | found hblock =>
    have hin := (hblock.rest (incr + area) hblock.inside (by omega)).1
    omega
  | @fails j hlo hhi hwhy hbefore =>
    have hj : incr + area ≤ j := by
      rcases hwhy with hge | hset
      · exact hge
      · rw [hafter j (by omega)] at hset
        cases hset
    have hnext := (hbefore next le_rfl hlo).1
    have hup : j ≤ alignUp j incr := le_alignUp (by omega) (by omega)
    rw [loop_next hr]
    exact loop_done (by rw [scanRound, if_neg (by omega)])

/-- The node of `gap`. -/
def gapNode (incr area : Nat) : BootmemData := ⟨0, incr + area, some (gap incr), 0, 0, 0⟩

theorem gapNode_wellFormed {incr area : Nat} (h : incr + area ≤ 2 ^ 20) :
    (gapNode incr area).WellFormed := by
  refine ⟨?_, h⟩
  show 0 / pageSize ≤ incr + area
  exact Nat.zero_le _

section

variable {k : Nat} (hk : k < 32) (hsize : 0 < size) (hincr : 2 ≤ increment (2 ^ k))
  (harea : 2 ≤ areaPages size)
include hk hsize hincr harea

/-- A request there fails. -/
theorem gapNode_null (htop : increment (2 ^ k) + areaPages size ≤ 2 ^ 20) :
    allocBootmemCore (gapNode (increment (2 ^ k)) (areaPages size)) size (2 ^ k) 0 0 =
      some (none, gapNode (increment (2 ^ k)) (areaPages size)) := by
  have hwell := gapNode_wellFormed htop
  have hpow : 2 ^ k ≤ 2 ^ 31 := Nat.pow_le_pow_right (by decide) (by omega)
  have hzero : alignUp 0 (2 ^ k) = 0 :=
    Nat.le_zero.mp (alignUp_le (by omega) (Nat.two_pow_pos k) (Nat.dvd_zero _) le_rfl)
  rw [alloc_null_iff hsize hwell rfl (Nat.dvd_zero _)]
  refine ⟨?_, rfl⟩
  have hpreferred : preferredIndex (gapNode (increment (2 ^ k)) (areaPages size)) (2 ^ k) 0 0
      (increment (2 ^ k) + areaPages size) 0 = 0 := by
    simp [preferredIndex, hzero, pfnDown]
  have hscan := scanFrom_gap hincr harea htop
  unfold findBlock
  simp only [gapNode, BootmemData.pages, pfnDown, Nat.zero_div, Nat.sub_zero] at hpreferred ⊢
  rw [hpreferred, hscan]
  rfl

theorem not_complete (htop : increment (2 ^ k) + pagesFor size ≤ 2 ^ 20)
    (heq : areaPages size = pagesFor size) : ¬ Complete size (2 ^ k) := by
  intro hcomplete
  rw [← heq] at htop
  refine hcomplete (gapNode (increment (2 ^ k)) (areaPages size)) _ _ 0
    (gapNode_wellFormed htop) rfl (Nat.dvd_zero _) (gapNode_null hk hsize hincr harea htop) ⟨increment (2 ^ k), ?_, ?_, ?_⟩
  · exact ⟨1, by rw [increment_eq, Nat.mul_one]⟩
  · rw [← heq]
    show _ ≤ increment (2 ^ k) + areaPages size - 0 / pageSize
    exact le_rfl
  · intro i hi _
    exact decide_eq_false (by omega)

end

/-- For a size and an alignment, every failed request is justified if and only if the
alignment is at most a page, or one page is enough, or the area cannot lie behind an
aligned page that is not the first. -/
theorem alloc_bootmem_complete_iff {k : Nat} (hk : k < 32) (hsize : 0 < size)
    (hword : size < 2 ^ 32) :
    Complete size (2 ^ k) ↔
      2 ^ k ≤ pageSize ∨ size ≤ pageSize ∨ 2 ^ 20 < 2 ^ k / pageSize + pagesFor size := by
  have harea : areaPages size = pagesFor size ∨ areaPages size = 0 ∧ pagesFor size = 2 ^ 20 := by
    unfold areaPages pagesFor pageSize
    omega
  constructor
  · intro hcomplete
    by_contra hno
    rw [not_or, not_or] at hno
    obtain ⟨halign, hlarge, htop⟩ := hno
    have hincr : increment (2 ^ k) = 2 ^ k / pageSize := by
      unfold increment pageSize at *
      rw [if_neg (by omega)]
    have hpages : 2 ≤ pagesFor size := by
      unfold pagesFor pageSize at *
      omega
    have htwo : 2 ≤ increment (2 ^ k) := by
      rw [hincr]
      have hpow : 2 ^ 13 ≤ 2 ^ k := by
        refine Nat.pow_le_pow_right (by decide) ?_
        by_contra hsmall
        exact halign (Nat.pow_le_pow_right (by decide) (show k ≤ 12 by omega))
      unfold pageSize
      omega
    have heq : areaPages size = pagesFor size := by omega
    exact not_complete hk hsize htwo (by omega) (by omega) heq hcomplete
  · intro hcond bdata bdata' bits goal hwell hmap hdvd halloc
    rintro ⟨c, hc, hin, hclear⟩
    have hscan := scanFrom_of_findBlock ((alloc_null_iff hsize hwell hmap hdvd).mp halloc).1
    have htop : bdata.pages ≤ 2 ^ 20 := le_trans (Nat.sub_le _ _) hwell.top
    have hsmall : Small bdata.pages (increment (2 ^ k)) (areaPages size) :=
      ⟨htop, increment_pos _, increment_le hk, areaPages_le size⟩
    rw [← increment_eq] at hc
    have hkept : areaPages size ≤ 1 ∨ Kept bits (increment (2 ^ k)) c := by
      rcases hcond with halign | hone | hfar
      · right
        intro j hj hlt _
        have hincr : increment (2 ^ k) = 1 := by
          unfold increment pageSize at *
          split <;> omega
        omega
      · unfold areaPages pageSize at *
        omega
      · right
        have hzero : c = 0 := by
          refine Nat.eq_zero_of_dvd_of_lt hc ?_
          rw [increment_eq]
          omega
        intro j _ hlt _
        omega
    obtain ⟨start, hfound⟩ := scanFrom_complete hsmall (pagesFor_pos hsize) (by omega) hc hin hclear
      hkept (Nat.dvd_zero _) (Nat.zero_le c)
    rw [hscan] at hfound
    cases hfound

/-- Pages on page boundaries. -/
theorem alloc_bootmem_complete_iff_page : Complete 8192 (2 ^ 12) :=
  (alloc_bootmem_complete_iff (by decide) (by decide) (by decide)).mpr (.inl (by decide))

/-- Two pages at an even page: of four pages the second is reserved, and the last two are
not found. -/
theorem alloc_bootmem_misses_block :
    (gapNode 2 2).WellFormed ∧ (gapNode 2 2).nodeBootmemMap = some (gap 2) ∧
    2 ^ 13 ∣ (gapNode 2 2).nodeBootStart ∧
    allocBootmemCore (gapNode 2 2) 8192 (2 ^ 13) 0 0 = some (none, gapNode 2 2) ∧
    ∃ c, max 1 (2 ^ 13 / pageSize) ∣ c ∧ c + pagesFor 8192 ≤ (gapNode 2 2).pages ∧
      Clear (gap 2) c (pagesFor 8192) := by
  refine ⟨gapNode_wellFormed (by decide), rfl, by decide, ?_, 2, by decide, by decide, ?_⟩
  · exact @gapNode_null 8192 13 (by decide) (by decide) (by decide) (by decide) (by decide)
  · intro i hi _
    exact decide_eq_false (by omega)

end

end LinuxKernel.Mm.Bootmem
