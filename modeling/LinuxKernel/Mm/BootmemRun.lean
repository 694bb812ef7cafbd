/-
  Sequences of boot-time allocations.

  Source: mm/bootmem.c.

  A node is set up by `init_bootmem_core`, `free_bootmem_core` and `reserve_bootmem_core`;
  then memory is handed out and never comes back.  The unused end of the last page is
  handed out too, so what holds of every granted byte is said byte by byte.
-/
import LinuxKernel.Mm.Bootmem
import LinuxKernel.Foundation.Run

namespace LinuxKernel.Mm.Bootmem

open Foundation

variable {bdata : BootmemData} {start low : Nat} {evs : List Empty}

/-! ## Runs -/

section

/-- The calls before the first allocation. -/
inductive SetupCall where
  | free (addr size : Nat)
  | reserve (addr size : Nat)

def setupStep (bdata : BootmemData) : SetupCall → Option (BootmemData × List Empty)
  | .free addr size => (freeBootmemCore bdata addr size).map fun bdata => (bdata, [])
  | .reserve addr size => (reserveBootmemCore bdata addr size).map fun bdata => (bdata, [])

structure Request where
  size : Nat
  align : Nat
  goal : Nat
  limit : Nat

/-- Memory that was handed out. -/
structure Grant where
  request : Request
  addr : Nat

def step (bdata : BootmemData) (r : Request) : Option (BootmemData × List Grant) :=
  (allocBootmemCore bdata r.size r.align r.goal r.limit).map fun (ret, bdata) =>
    (bdata, ret.toList.map fun addr => ⟨r, addr⟩)

/-- The arguments that callers pass. -/
structure Request.WellFormed (r : Request) : Prop where
  size_pos : 0 < r.size
  size_lt : r.size < 2 ^ 32
  align : ∃ k < 32, r.align = 2 ^ k

/-- A request that the node serves correctly: the node begins at a multiple of the
alignment, the number of pages is counted without overflow, and a limit is zero, or not
below the first page boundary, or not above the node. -/
structure Request.Served (nodeBootStart : Nat) (r : Request) : Prop extends r.WellFormed where
  aligned : r.align ∣ nodeBootStart
  counted : r.size ≤ 2 ^ 32 - pageSize
  limit : r.limit = 0 ∨ pageSize ≤ r.limit ∨ r.limit ≤ nodeBootStart

def Allowed (bdata : BootmemData) (r : Request) : Prop := r.Served bdata.nodeBootStart

/-- What is asked of a grant, for a node with the bitmap `bits` before the first one. -/
structure Granted (nodeBootStart nodeLowPfn : Nat) (bits : Bits) (g : Grant) : Prop where
  aligned : g.request.align ∣ g.addr
  lower : nodeBootStart ≤ g.addr
  upper : g.addr + g.request.size ≤ nodeLowPfn * pageSize
  limit : g.request.limit ≠ 0 → g.addr + g.request.size ≤ g.request.limit
  free : ∀ x, g.addr ≤ x → x < g.addr + g.request.size →
    bits ((x - nodeBootStart) / pageSize) = false

def Disjoint (g g' : Grant) : Prop :=
  g.addr + g.request.size ≤ g'.addr ∨ g'.addr + g'.request.size ≤ g.addr

end

/-! ## Setting up -/

section

/-- What the calls before the first allocation leave. -/
structure Base (start low : Nat) (bdata : BootmemData) : Prop where
  start_eq : bdata.nodeBootStart = start
  low_eq : bdata.nodeLowPfn = low
  offset_eq : bdata.lastOffset = 0
  map : ∃ bits, bdata.nodeBootmemMap = some bits

theorem base_step {bdata' : BootmemData} (call : SetupCall) (h : Base start low bdata)
    (hstep : setupStep bdata call = some (bdata', evs)) : Base start low bdata' := by
  obtain ⟨hstart, hlow, hoffset, bits, hmap⟩ := h
  cases call with
  | free addr size =>
    simp only [setupStep, Option.map_eq_some_iff] at hstep
    obtain ⟨b, hfree, rfl, -⟩ := hstep
    unfold freeBootmemCore at hfree
    split at hfree
    · cases hfree
    split at hfree
    · cases hfree
    rw [hmap] at hfree
    obtain ⟨bits', -, rfl⟩ := Option.map_eq_some_iff.mp hfree
    exact ⟨hstart, hlow, hoffset, bits', rfl⟩
  | reserve addr size =>
    simp only [setupStep, Option.map_eq_some_iff] at hstep
    obtain ⟨b, hreserve, rfl, -⟩ := hstep
    unfold reserveBootmemCore at hreserve
    split at hreserve
    · cases hreserve
    split at hreserve
    · cases hreserve
    split at hreserve
    · cases hreserve
    obtain ⟨bits', -, rfl⟩ := Option.map_eq_some_iff.mp hreserve
    exact ⟨hstart, hlow, hoffset, _, rfl⟩

theorem base_run {memory : Bits} (h : Run setupStep (initBootmemCore memory start low) evs bdata) :
    Base (pfnPhys start) low bdata :=
  h.invariant ⟨rfl, rfl, rfl, _, rfl⟩ fun call h hstep => base_step call h hstep

/-- A node as `init_bootmem_core` makes it. -/
structure Node (start low : Nat) : Prop where
  aligned : pageSize ∣ start
  ordered : start ≤ low * pageSize
  top : low ≤ 2 ^ 20

theorem node_init (h : start ≤ low) (htop : low ≤ 2 ^ 20) : Node (pfnPhys start) low := by
  refine ⟨?_, ?_, htop⟩
  · exact (Nat.dvd_mod_iff (by decide)).mpr (Nat.dvd_mul_left _ _)
  · unfold pfnPhys pageSize
    omega

end

/-! ## One allocation -/

variable {bits : Bits} {r : Request}

section

variable {size align areasize : Nat}

/-- The block begins at byte `o` of the node: at its first page, or in the unused end of
the page before.  The end of the block is remembered. -/
structure PlaceSpec (bdata : BootmemData) (size align start : Nat) (p : Placement) (o : Nat) :
    Prop where
  ret : p.ret = bdata.nodeBootStart + o
  aligned : align ∣ o
  begins : o = start * pageSize ∨ bdata.lastOffset ≠ 0 ∧ bdata.lastPos + 1 = start ∧
    bdata.lastPos * pageSize + bdata.lastOffset ≤ o ∧ o ≤ start * pageSize
  area : p.areasize ≤ pagesFor size
  covers : o + size ≤ (start + p.areasize) * pageSize
  offset : p.lastOffset = (o + size) % pageSize
  pos : p.lastOffset ≠ 0 → p.lastPos = (o + size) / pageSize

theorem dvd_mul_pageSize {k : Nat} (h : increment (2 ^ k) ∣ start) : 2 ^ k ∣ start * pageSize := by
  rcases Nat.le_total k 12 with hk | hk
  · exact Nat.dvd_mul_left_of_dvd (Nat.pow_dvd_pow 2 hk) start
  have hpow : 2 ^ k = 2 ^ (k - 12) * pageSize := by
    rw [show pageSize = 2 ^ 12 from rfl, ← Nat.pow_add, Nat.sub_add_cancel hk]
  have hincr : increment (2 ^ k) = 2 ^ (k - 12) := by
    rw [increment_eq, hpow, Nat.mul_div_cancel _ (by decide)]
    exact Nat.max_eq_right (Nat.two_pow_pos _)
  rw [hpow]
  rw [hincr] at h
  exact Nat.mul_dvd_mul_right h pageSize

theorem place_spec {k : Nat} (hlast : bdata.lastOffset < pageSize)
    (hpos : bdata.lastOffset ≠ 0 → bdata.lastPos < 2 ^ 20) (hsize : 0 < size)
    (hcount : size ≤ 2 ^ 32 - pageSize) (hstart : increment (2 ^ k) ∣ start)
    (hfits : bdata.nodeBootStart + (start + pagesFor size) * pageSize ≤ 2 ^ 32) :
    ∃ p o, place bdata size (2 ^ k) start (areaPages size) = some p ∧
      PlaceSpec bdata size (2 ^ k) start p o := by
  unfold place
  split
  · -- the block begins in the page that `last_pos` names
    rename_i hmerge
    obtain ⟨halign, hoffset, hnext⟩ := hmerge
    have hdvd : 2 ^ k ∣ pageSize := by
      have hk : k ≤ 12 := by
        by_contra hgt
        have hle : 2 ^ 12 ≤ 2 ^ k := Nat.pow_le_pow_right (by decide) (by omega)
        exact absurd halign (Nat.not_lt.mpr hle)
      exact Nat.pow_dvd_pow 2 hk
    have hup := alignUp_le (by unfold pageSize at *; omega)
      (Nat.two_pow_pos k) hdvd (Nat.le_of_lt hlast)
    have hlow := le_alignUp (x := bdata.lastOffset) (by unfold pageSize at *; omega)
      (Nat.two_pow_pos k)
    have hmul := dvd_alignUp bdata.lastOffset (2 ^ k)
    generalize alignUp bdata.lastOffset (2 ^ k) = offset at *
    rw [if_neg (by omega)]
    have hnext : bdata.lastPos + 1 = start := by omega
    have haligned : 2 ^ k ∣ bdata.lastPos * pageSize + offset :=
      Nat.dvd_add (Nat.dvd_mul_left_of_dvd hdvd _) hmul
    dsimp only
    split
    · refine ⟨_, bdata.lastPos * pageSize + offset, rfl, ?_, haligned, .inr ⟨hoffset, hnext, ?_, ?_⟩, ?_, ?_, ?_, ?_⟩
      all_goals simp only [pageSize] at *
      all_goals omega
    · refine ⟨_, bdata.lastPos * pageSize + offset, rfl, ?_, haligned, .inr ⟨hoffset, hnext, ?_, ?_⟩, ?_, ?_, ?_, ?_⟩
      all_goals simp only [pagesFor, pageSize] at *
      all_goals omega
  · refine ⟨_, start * pageSize, rfl, ?_, dvd_mul_pageSize hstart, .inl rfl, ?_, ?_, ?_, ?_⟩
    all_goals simp only [pagesFor, areaPages, pageSize] at *
    all_goals omega

theorem reservePages_clear (n i : Nat) (bits : Bits) (hclear : Clear bits i n) :
    reservePages n i bits = some (fill true n i bits) := by
  induction n generalizing i bits with
  | zero => rfl
  | succ n ih =>
    rw [reservePages, hclear i le_rfl (by omega)]
    refine ih (i + 1) _ ?_
    intro j hj hlt
    rw [Function.update_of_ne (by omega)]
    exact hclear j (by omega) (by omega)

theorem findBlock_sound (bits : Bits) {eidx incr areasize : Nat} (h : Small eidx incr areasize)
    (offset preferred : Nat) : ∃ r, findBlock bits eidx incr areasize offset preferred = some r ∧
      ∀ start, r = some start → Block bits eidx incr areasize start := by
  obtain ⟨r, hr, hblock⟩ := scanFrom_sound bits h preferred
  unfold findBlock
  rw [hr]
  cases r with
  | none =>
    dsimp only
    split
    · exact scanFrom_sound bits h offset
    · exact ⟨none, rfl, hblock⟩
  | some start => exact ⟨some start, rfl, hblock⟩

section

variable (hnode : Node start low) (hstart : bdata.nodeBootStart = start)
  (hlow : bdata.nodeLowPfn = low)
include hnode hstart hlow

/-- The end of the scan is below the limit and in the node. -/
theorem endIndex_bounds {limit : Nat} (hlimit : limit = 0 ∨ pageSize ≤ limit ∧ start < limit) :
    start + (endIndex bdata (pfnDown limit)).2 * pageSize ≤ low * pageSize ∧
      (limit ≠ 0 → start + (endIndex bdata (pfnDown limit)).2 * pageSize ≤ limit) ∧
      (endIndex bdata (pfnDown limit)).2 ≤ 2 ^ 20 := by
  obtain ⟨⟨q, rfl⟩, hordered, htop⟩ := hnode
  unfold endIndex
  rw [hlow]
  by_cases hcut : pfnDown limit ≠ 0 ∧ low > pfnDown limit
  · rw [if_pos hcut]
    simp only [pfnDown, pageSize] at *
    omega
  · rw [if_neg hcut]
    simp only [pfnDown, pageSize] at *
    omega

/-- The outcomes of a request that the node serves. -/
theorem alloc_cases (hmap : bdata.nodeBootmemMap = some bits)
    (hlast : bdata.lastOffset < pageSize) (hpos : bdata.lastOffset ≠ 0 → bdata.lastPos < 2 ^ 20)
    (hserved : r.Served start) :
    allocBootmemCore bdata r.size r.align r.goal r.limit = some (none, bdata) ∨
    ∃ first p o, Clear bits first (pagesFor r.size) ∧
      start + (first + pagesFor r.size) * pageSize ≤ low * pageSize ∧
      (r.limit ≠ 0 → start + (first + pagesFor r.size) * pageSize ≤ r.limit) ∧
      PlaceSpec bdata r.size r.align first p o ∧
      allocBootmemCore bdata r.size r.align r.goal r.limit =
        some (some p.ret, ⟨start, low, some (fill true p.areasize first bits), p.lastOffset,
          p.lastPos, pfnPhys first⟩) := by
  obtain ⟨⟨hsize, -, k, hk, halign⟩, hdvd, hcount, hlimit⟩ := hserved
  unfold allocBootmemCore
  rw [if_neg (by omega), halign, if_neg (by rw [land_pred_eq_zero]; simp), hmap]
  split
  · exact .inl rfl
  obtain ⟨hin, hcap, hend⟩ := endIndex_bounds hnode hstart hlow
    (show r.limit = 0 ∨ pageSize ≤ r.limit ∧ start < r.limit by omega)
  have hpages : areaPages r.size = pagesFor r.size := by
    unfold areaPages pagesFor pageSize at *
    omega
  have hsmall : Small (endIndex bdata (pfnDown r.limit)).2 (increment (2 ^ k)) (areaPages r.size) :=
    ⟨hend, increment_pos _, increment_le hk, areaPages_le _⟩
  dsimp only
  generalize preferredIndex bdata (2 ^ k) r.goal (pfnDown r.limit)
    (endIndex bdata (pfnDown r.limit)).1 (offsetPages bdata.nodeBootStart (2 ^ k)) = preferred
  obtain ⟨found, hfound, hblock⟩ := findBlock_sound bits hsmall
    (offsetPages bdata.nodeBootStart (2 ^ k)) preferred
  rw [hfound]
  cases found with
  | none => exact .inl rfl
  | some first =>
    right
    obtain ⟨hfirst, hmul, hclear, hrest⟩ := hblock first rfl
    rw [hpages] at hrest
    generalize (endIndex bdata (pfnDown r.limit)).2 = eidx at *
    -- all the pages of the block are below the end of the scan
    have hlastPage : first + pagesFor r.size ≤ eidx := by
      rcases Nat.lt_or_ge 1 (pagesFor r.size) with hmany | hmany
      · have hlt := (hrest (first + pagesFor r.size - 1) (by omega) (by omega)).1
        omega
      · omega
    have hbytes := Nat.mul_le_mul_right pageSize hlastPage
    have hrun : Clear bits first (pagesFor r.size) := by
      intro i hi hlt
      rcases Nat.eq_or_lt_of_le hi with rfl | hi
      · exact hclear
      · exact (hrest i hi hlt).2
    have hword : low * pageSize ≤ 2 ^ 32 := Nat.mul_le_mul_right pageSize hnode.top
    obtain ⟨p, o, hplace, hspec⟩ := place_spec hlast hpos hsize hcount hmul (by rw [hstart]; omega)
    refine ⟨first, p, o, hrun, by omega, fun hne => le_trans (by omega) (hcap hne), hspec, ?_⟩
    dsimp only
    rw [if_neg (by omega), hplace]
    dsimp only
    rw [reservePages_clear _ _ _ (hrun.mono le_rfl (Nat.add_le_add_left hspec.area _)), hstart, hlow]
    rfl

end

end

/-! ## Sequences of allocations -/

section

variable {bits₀ : Bits} {grants : List Grant} {p : Placement}

/-- The grants so far and the state of the node: every granted byte is in a page that was
free and is reserved now, and after `last_offset` the page `last_pos` is not used. -/
structure Consistent (start low : Nat) (bits₀ : Bits) (grants : List Grant) (bdata : BootmemData)
    (bits : Bits) : Prop where
  start_eq : bdata.nodeBootStart = start
  low_eq : bdata.nodeLowPfn = low
  map : bdata.nodeBootmemMap = some bits
  keeps : ∀ i, bits₀ i = true → bits i = true
  granted : ∀ g ∈ grants, 0 < g.request.size ∧ Granted start low bits₀ g
  disjoint : grants.Pairwise Disjoint
  taken : ∀ g ∈ grants, ∀ y, g.addr ≤ start + y → start + y < g.addr + g.request.size →
    bits (y / pageSize) = true
  last_lt : bdata.lastOffset < pageSize
  last_page : bdata.lastOffset ≠ 0 →
    bits₀ bdata.lastPos = false ∧ bits bdata.lastPos = true ∧ bdata.lastPos < 2 ^ 20
  last_free : bdata.lastOffset ≠ 0 → ∀ g ∈ grants, ∀ y,
    bdata.lastPos * pageSize + bdata.lastOffset ≤ y → y < (bdata.lastPos + 1) * pageSize →
    ¬ (g.addr ≤ start + y ∧ start + y < g.addr + g.request.size)

theorem consistent_base (h : Base start low bdata) (hmap : bdata.nodeBootmemMap = some bits) :
    Consistent start low bits [] bdata bits where
  start_eq := h.start_eq
  low_eq := h.low_eq
  map := hmap
  keeps := fun _ hi => hi
  granted := fun _ hg => absurd hg List.not_mem_nil
  disjoint := .nil
  taken := fun _ hg => absurd hg List.not_mem_nil
  last_lt := by rw [h.offset_eq]; decide
  last_page := fun hne => absurd h.offset_eq hne
  last_free := fun hne => absurd h.offset_eq hne

/-- Where the bytes of a new block are: in the unused end of the last page, or in pages
that are reserved for it. -/
theorem PlaceSpec.page {size align first o y : Nat} (h : PlaceSpec bdata size align first p o)
    (hlo : o ≤ y) (hhi : y < o + size) : (bdata.lastOffset ≠ 0 ∧ y / pageSize = bdata.lastPos ∧
      bdata.lastPos * pageSize + bdata.lastOffset ≤ y ∧ y < (bdata.lastPos + 1) * pageSize) ∨
    (first ≤ y / pageSize ∧ y / pageSize < first + p.areasize) := by
  have hbegins := h.begins
  have hcovers := h.covers
  simp only [pageSize] at *
  omega

section

variable (h : Consistent start low bits₀ grants bdata bits)
include h

/-- What is known of the bytes of a new block. -/
theorem Consistent.byte {size align first o : Nat} (hclear : Clear bits first (pagesFor size))
    (hspec : PlaceSpec bdata size align first p o) {y : Nat} (hlo : o ≤ y) (hhi : y < o + size) :
    bits₀ (y / pageSize) = false ∧ fill true p.areasize first bits (y / pageSize) = true ∧
      ∀ g ∈ grants, ∀ z, z / pageSize = y / pageSize → y ≤ z →
        ¬ (g.addr ≤ start + z ∧ start + z < g.addr + g.request.size) := by
  rcases hspec.page hlo hhi with ⟨hne, hpage, hfrom, hto⟩ | ⟨hfirst, hlast⟩
  · obtain ⟨hfree, hset, -⟩ := h.last_page hne
    rw [hpage]
    refine ⟨hfree, ?_, ?_⟩
    · rw [fill_apply, hset, ite_self]
    · intro g hg z hz hyz
      refine h.last_free hne g hg z (by omega) ?_
      simp only [pageSize] at *
      omega
  · have hnow : bits (y / pageSize) = false :=
      hclear _ hfirst (lt_of_lt_of_le hlast (Nat.add_le_add_left hspec.area first))
    refine ⟨?_, fill_inside hfirst hlast, ?_⟩
    · by_contra hset
      rw [h.keeps _ (by simpa using hset)] at hnow
      cases hnow
    · rintro g hg z hz - ⟨hg1, hg2⟩
      have htaken := h.taken g hg z hg1 hg2
      rw [hz, hnow] at htaken
      cases htaken

/-- A block that is handed out. -/
theorem Consistent.grant {first o : Nat} (hnode : Node start low)
    (hserved : r.Served start) (hclear : Clear bits first (pagesFor r.size))
    (hin : start + (first + pagesFor r.size) * pageSize ≤ low * pageSize)
    (hcap : r.limit ≠ 0 → start + (first + pagesFor r.size) * pageSize ≤ r.limit)
    (hspec : PlaceSpec bdata r.size r.align first p o) :
    Consistent start low bits₀ (grants ++ [⟨r, p.ret⟩])
      ⟨start, low, some (fill true p.areasize first bits), p.lastOffset, p.lastPos, pfnPhys first⟩
      (fill true p.areasize first bits) := by
  have hret : p.ret = start + o := by rw [hspec.ret, h.start_eq]
  have hpos := hserved.size_pos
  have hword : low * pageSize ≤ 2 ^ 32 := Nat.mul_le_mul_right pageSize hnode.top
  have hend : o + r.size ≤ (first + pagesFor r.size) * pageSize :=
    le_trans hspec.covers (Nat.mul_le_mul_right _ (Nat.add_le_add_left hspec.area first))
  have hbyte := fun y => h.byte hclear hspec (y := y)
  have hmem (g) (hg : g ∈ grants ++ [(⟨r, p.ret⟩ : Grant)]) : g ∈ grants ∨ g = ⟨r, p.ret⟩ := by
    simpa using hg
  refine ⟨rfl, rfl, rfl, ?_, ?_, ?_, ?_, ?_, ?_, ?_⟩
  · intro i hi
    rw [fill_apply, h.keeps i hi, ite_self]
  · intro g hg
    rcases hmem g hg with hg | rfl
    · exact h.granted g hg
    refine ⟨hpos, ?_, ?_, ?_, ?_, ?_⟩
    · rw [hret]
      exact Nat.dvd_add hserved.aligned hspec.aligned
    · show start ≤ p.ret
      omega
    · show p.ret + r.size ≤ low * pageSize
      omega
    · intro hne
      have hlimit := hcap hne
      show p.ret + r.size ≤ r.limit
      omega
    · intro x hx hlt
      dsimp only at hx hlt
      exact (hbyte (x - start) (by omega) (by omega)).1
  · refine List.pairwise_append.mpr ⟨h.disjoint, List.pairwise_singleton _ _, ?_⟩
    intro g hg g' hg'
    obtain rfl := List.mem_singleton.mp hg'
    obtain ⟨hgpos, hgranted⟩ := h.granted g hg
    by_contra hno
    unfold Disjoint at hno
    dsimp only at hno
    exact (hbyte (max (g.addr - start) o) (by omega) (by omega)).2.2 g hg _ rfl le_rfl (by omega)
  · intro g hg y hlo hhi
    rcases hmem g hg with hg | rfl
    · rw [fill_apply, h.taken g hg y hlo hhi, ite_self]
    · dsimp only at hlo hhi
      exact (hbyte y (by omega) (by omega)).2.1
  · rw [hspec.offset]
    exact Nat.mod_lt _ (by decide)
  · intro hne
    have hpage := hspec.pos hne
    rw [hspec.offset] at hne
    obtain ⟨hfree, hset, -⟩ := hbyte (o + r.size - 1) (by omega) (by omega)
    have hsame : (o + r.size - 1) / pageSize = (o + r.size) / pageSize := by
      simp only [pageSize] at *
      omega
    rw [hsame] at hfree hset
    rw [hpage]
    refine ⟨hfree, hset, ?_⟩
    simp only [pageSize] at *
    omega
  · intro hne g hg y hlo hhi
    have hpage := hspec.pos hne
    have hoffset := hspec.offset
    rcases hmem g hg with hg | rfl
    · refine (hbyte (o + r.size - 1) (by omega) (by omega)).2.2 g hg y ?_ ?_
      · simp only [pageSize] at *
        omega
      · simp only [pageSize] at *
        omega
    · simp only [pageSize] at *
      omega

/-- The outcomes of a step, with what they keep. -/
theorem Consistent.step (hnode : Node start low) (hserved : r.Served start) :
    ∃ bdata' new bits', step bdata r = some (bdata', new) ∧
      Consistent start low bits₀ (grants ++ new) bdata' bits' := by
  unfold Bootmem.step
  rcases alloc_cases hnode h.start_eq h.low_eq h.map h.last_lt (fun hne => (h.last_page hne).2.2)
    hserved with halloc | ⟨first, p, o, hclear, hin, hcap, hspec, halloc⟩
  · refine ⟨bdata, [], bits, by rw [halloc]; rfl, ?_⟩
    rwa [List.append_nil]
  · exact ⟨_, _, _, by rw [halloc]; rfl, h.grant hnode hserved hclear hin hcap hspec⟩

end

theorem run_consistent {bdata0 : BootmemData} (hnode : Node start low)
    (hbase : Base start low bdata0) (hmap : bdata0.nodeBootmemMap = some bits)
    (hrun : RunWith Allowed Bootmem.step bdata0 grants bdata) :
    ∃ bits', Consistent start low bits grants bdata bits' := by
  refine hrun.invariant ⟨bits, consistent_base hbase hmap⟩ ?_
  rintro t u evs new r ⟨bits', h⟩ hallowed hstep
  have hserved : r.Served start := by
    rw [← h.start_eq]
    exact hallowed
  obtain ⟨bdata', new', bits'', hstep', h'⟩ := h.step hnode hserved
  rw [hstep] at hstep'
  obtain ⟨rfl, rfl⟩ := Prod.mk.inj (Option.some.inj hstep')
  exact ⟨bits'', h'⟩

/-- Of a node that was set up, every sequence of requests that it serves hands out aligned
memory below the limits, which was free before and is handed out once; no request ends in
a `BUG()`. -/
theorem alloc_bootmem_sound {memory : Bits} {startPfn : Nat} {bdata₀ : BootmemData}
    (hordered : startPfn ≤ low) (htop : low ≤ 2 ^ 20)
    (hsetup : Run setupStep (initBootmemCore memory startPfn low) [] bdata₀)
    (hrun : RunWith Allowed Bootmem.step bdata₀ grants bdata) :
    ∃ bits, bdata₀.nodeBootmemMap = some bits ∧
      (∀ g ∈ grants, Granted bdata₀.nodeBootStart bdata₀.nodeLowPfn bits g) ∧
      grants.Pairwise Disjoint ∧ ∀ r, Allowed bdata r → (Bootmem.step bdata r).isSome = true := by
  have hnode := node_init hordered htop
  have hbase := base_run hsetup
  obtain ⟨bits, hmap⟩ := hbase.map
  obtain ⟨bits', h⟩ := run_consistent hnode hbase hmap hrun
  refine ⟨bits, hmap, ?_, h.disjoint, ?_⟩
  · intro g hg
    rw [hbase.start_eq, hbase.low_eq]
    exact (h.granted g hg).2
  · intro r hallowed
    have hserved : r.Served (pfnPhys startPfn) := by
      rw [← h.start_eq]
      exact hallowed
    obtain ⟨bdata', new, bits'', hstep, -⟩ := h.step hnode hserved
    rw [hstep]
    rfl

end

/-! ## Two nodes of four pages -/

section

/-- A request whose scan ends within `n` rounds. -/
theorem alloc_of_rounds (n : Nat) (bdata : BootmemData) (size align goal limit start : Nat)
    (p : Placement) {bits bits' : Bits} (hsize : size ≠ 0) (halign : align &&& (align - 1) = 0)
    (hlimit : ¬ (limit ≠ 0 ∧ bdata.nodeBootStart ≥ limit)) (hmap : bdata.nodeBootmemMap = some bits)
    (hscan : rounds (scanRound bits (endIndex bdata (pfnDown limit)).2 (increment align)
      (areaPages size)) n (preferredIndex bdata align goal (pfnDown limit) (endIndex bdata
      (pfnDown limit)).1 (offsetPages bdata.nodeBootStart align)) = some (some start))
    (hin : ¬ start ≥ (endIndex bdata (pfnDown limit)).2)
    (hplace : place bdata size align start (areaPages size) = some p)
    (hreserve : reservePages p.areasize start bits = some bits') :
    allocBootmemCore bdata size align goal limit =
      some (some p.ret, ⟨bdata.nodeBootStart, bdata.nodeLowPfn, some bits', p.lastOffset, p.lastPos,
        pfnPhys start⟩) := by
  have hfind : scanFrom bits (endIndex bdata (pfnDown limit)).2 (increment align) (areaPages size)
      (preferredIndex bdata align goal (pfnDown limit) (endIndex bdata (pfnDown limit)).1
        (offsetPages bdata.nodeBootStart align)) = some (some start) := loop_of_rounds n hscan
  unfold allocBootmemCore findBlock
  rw [if_neg hsize, if_neg (by rw [halign]; simp), if_neg hlimit, hmap]
  dsimp only
  rw [hfind]
  dsimp only
  rw [if_neg hin, hplace]
  dsimp only
  rw [hreserve]
  rfl

/-- The bitmap of a node of which the first `n` pages are free. -/
def freeFirst (n : Nat) : Bits := fill false n 0 (fill true 32 0 fun _ => false)

/-- A node of four pages at zero, and one of three pages after the first page. -/
def evenNode : BootmemData := ⟨0, 4, some (freeFirst 4), 0, 0, 0⟩
def oddNode : BootmemData := ⟨4096, 4, some (freeFirst 3), 0, 0, 0⟩

theorem evenNode_setup : Run setupStep (initBootmemCore (fun _ => false) 0 4) [] evenNode :=
  Run.single (SetupCall.free 0 16384) rfl

theorem oddNode_setup : Run setupStep (initBootmemCore (fun _ => false) 1 4) [] oddNode :=
  Run.single (SetupCall.free 4096 12288) rfl

/-- A hundred bytes at a multiple of 32, and a page at an even page. -/
def hundred : Request := ⟨100, 32, 0, 0⟩
def evenPage : Request := ⟨4096, 8192, 0, 0⟩

theorem hundred_served : hundred.Served 0 :=
  ⟨⟨by decide, by decide, 5, by decide, rfl⟩, Nat.dvd_zero _, by decide, .inl rfl⟩

/-- The second request is served from the page of the first. -/
theorem evenNode_run : ∃ bdata,
    RunWith Allowed Bootmem.step evenNode [⟨hundred, 0⟩, ⟨hundred, 128⟩] bdata := by
  have hfirst : allocBootmemCore evenNode 100 32 0 0 =
      some (some 0, ⟨0, 4, some (fill true 1 0 (freeFirst 4)), 100, 0, 0⟩) :=
    alloc_of_rounds 1 evenNode 100 32 0 0 0 ⟨0, 1, 0, 100⟩ (by decide) rfl (by decide) rfl rfl
      (by decide) rfl rfl
  have hsecond : allocBootmemCore ⟨0, 4, some (fill true 1 0 (freeFirst 4)), 100, 0, 0⟩ 100 32 0 0 =
      some (some 128, ⟨0, 4, some (fill true 1 0 (freeFirst 4)), 228, 0, 4096⟩) :=
    alloc_of_rounds 1 _ 100 32 0 0 1 ⟨128, 0, 0, 228⟩ (by decide) rfl (by decide) rfl rfl
      (by decide) rfl rfl
  refine ⟨⟨0, 4, some (fill true 1 0 (freeFirst 4)), 228, 0, 4096⟩, ?_⟩
  have hone : RunWith Allowed Bootmem.step evenNode [⟨hundred, 0⟩]
      ⟨0, 4, some (fill true 1 0 (freeFirst 4)), 100, 0, 0⟩ :=
    .tail hundred (.refl _) hundred_served (congrArg (Option.map _) hfirst)
  exact .tail hundred hone hundred_served (congrArg (Option.map _) hsecond)

theorem alloc_bootmem_sound_hundred : ∃ bits, evenNode.nodeBootmemMap = some bits ∧
    (∀ g ∈ [(⟨hundred, 0⟩ : Grant), ⟨hundred, 128⟩], Granted 0 4 bits g) ∧
    [(⟨hundred, 0⟩ : Grant), ⟨hundred, 128⟩].Pairwise Disjoint := by
  obtain ⟨bdata, hrun⟩ := evenNode_run
  obtain ⟨bits, hmap, hgranted, hdisjoint, -⟩ :=
    alloc_bootmem_sound (by decide) (by decide) evenNode_setup hrun
  exact ⟨bits, hmap, hgranted, hdisjoint⟩

/-- The page that is handed out begins at an odd page. -/
theorem alloc_bootmem_misaligned :
    Run setupStep (initBootmemCore (fun _ => false) 1 4) [] oddNode ∧ evenPage.WellFormed ∧
    (∃ bdata, Bootmem.step oddNode evenPage = some (bdata, [⟨evenPage, 12288⟩])) ∧
    ¬ evenPage.align ∣ 12288 := by
  have halloc : allocBootmemCore oddNode 4096 8192 0 0 =
      some (some 12288, ⟨4096, 4, some (fill true 1 2 (freeFirst 3)), 0, 2, 8192⟩) :=
    alloc_of_rounds 1 oddNode 4096 8192 0 0 2 ⟨12288, 1, 2, 0⟩ (by decide) rfl (by decide) rfl rfl
      (by decide) rfl rfl
  refine ⟨oddNode_setup, ⟨by decide, by decide, 13, by decide, rfl⟩, ⟨_, congrArg (Option.map _) halloc⟩, ?_⟩
  decide

end

end LinuxKernel.Mm.Bootmem
