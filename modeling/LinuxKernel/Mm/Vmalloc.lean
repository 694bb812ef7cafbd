/-
  Where vmalloc areas are put.

  Source: mm/vmalloc.c, `__get_vm_area_node`, `__remove_vm_area`; the 32-bit ARM values
  of `PAGE_SHIFT` and `IOREMAP_MAX_ORDER`.

  `vmlist` is the list of its areas.  Addresses and sizes are `unsigned long`s, so sums
  are taken modulo 2^32.  The bounds test `addr > end - size` is made on one path of the
  walk only; the runs considered at the end are those in which that is enough.
-/
import LinuxKernel.Foundation.Gaps
import LinuxKernel.Foundation.Run

namespace LinuxKernel.Mm.Vmalloc

open Foundation

variable {vmlist : List VmStruct} {tmp : VmStruct}

/-! ## The code -/

/-- One more than the largest `unsigned long`. -/
def WORD : Nat := 2 ^ 32

def PAGE_SHIFT : Nat := 12

def PAGE_SIZE : Nat := 2 ^ PAGE_SHIFT

def IOREMAP_MAX_ORDER : Nat := 24

/-- `struct vm_struct` -/
structure VmStruct where
  addr : Nat
  size : Nat
  deriving DecidableEq, Repr

/-- The arguments of `__get_vm_area_node`, and whether `kmalloc_node` has memory. -/
structure Request where
  size : Nat
  /-- VM_IOREMAP -/
  ioremap : Bool
  memory : Bool

inductive Result where
  | area (area : VmStruct)
  /-- NULL for a request of no page -/
  | noSize
  /-- NULL from `kmalloc_node` -/
  | noMemory
  /-- out of vmalloc space -/
  | noSpace
  deriving DecidableEq, Repr

/-- `ALIGN(x, a)` for a power of two: the mask clears what is below `a`. -/
def align (x a : Nat) : Nat := (x + (a - 1)) % WORD / a * a

/-- `align` -/
def alignOf (r : Request) : Nat :=
  if r.ioremap then
    let bit := r.size.size
    2 ^ (if bit > IOREMAP_MAX_ORDER then IOREMAP_MAX_ORDER
      else if bit < PAGE_SHIFT then PAGE_SHIFT else bit)
  else 1

/-- The walk over `vmlist` from `*p` on, and the insertion behind it. -/
def place (size a stop : Nat) : List VmStruct → Nat → Option (List VmStruct × VmStruct)
  | [], addr => some ([⟨addr, size⟩], ⟨addr, size⟩)
  | tmp :: rest, addr =>
    if tmp.addr < addr then
      let addr := if (tmp.addr + tmp.size) % WORD ≥ addr then align (tmp.size + tmp.addr) a else addr
      (place size a stop rest addr).map fun (l, area) => (tmp :: l, area)
    else if (size + addr) % WORD < addr then none
    else if (size + addr) % WORD ≤ tmp.addr then some (⟨addr, size⟩ :: tmp :: rest, ⟨addr, size⟩)
    else
      let addr := align (tmp.size + tmp.addr) a
      if addr > (stop + WORD - size) % WORD then none
      else (place size a stop rest addr).map fun (l, area) => (tmp :: l, area)

/-- `__get_vm_area_node` -/
def getVmAreaNode (start stop : Nat) (vmlist : List VmStruct) (r : Request) :
    List VmStruct × Result :=
  let a := alignOf r
  let addr := align start a
  let size := align r.size PAGE_SIZE
  if size = 0 then (vmlist, .noSize)
  else if !r.memory then (vmlist, .noMemory)
  else
    -- we always allocate a guard page
    let size := (size + PAGE_SIZE) % WORD
    match place size a stop vmlist addr with
    | none => (vmlist, .noSpace)
    | some (vmlist, area) => (vmlist, .area area)

/-- `__remove_vm_area` -/
def removeVmArea (vmlist : List VmStruct) (addr : Nat) : List VmStruct × Option VmStruct :=
  match vmlist with
  | [] => ([], none)
  | tmp :: rest =>
    if tmp.addr = addr then (rest, some { tmp with size := (tmp.size + WORD - PAGE_SIZE) % WORD })
    else
      let (rest, area) := removeVmArea rest addr
      (tmp :: rest, area)

inductive Call where
  | get (r : Request)
  | remove (addr : Nat)

def step (start stop : Nat) (vmlist : List VmStruct) : Call → Option (List VmStruct × List Result)
  | .get r =>
    let out := getVmAreaNode start stop vmlist r
    some (out.1, [out.2])
  | .remove addr => some ((removeVmArea vmlist addr).1, [])

/-! ## What it is for -/

/-- The addresses of an area, its guard page included. -/
def span (area : VmStruct) : Nat × Nat := (area.addr, area.addr + area.size)

/-- The areas are sorted, disjoint and inside `[start, stop)`. -/
abbrev Sorted (start stop : Nat) (vmlist : List VmStruct) : Prop :=
  InOrder stop (vmlist.map span) start

/-- The bytes that a request needs. -/
def need (r : Request) : Nat := alignUp PAGE_SIZE r.size + PAGE_SIZE

/-- There is an aligned address with room for the request between the areas. -/
def Room (start stop : Nat) (vmlist : List VmStruct) (r : Request) : Prop :=
  ∃ s, Suits stop (vmlist.map span) start (alignOf r) start stop (need r) s

/-- What a call has to do. -/
structure Sound (start stop : Nat) (vmlist : List VmStruct) (r : Request)
    (out : List VmStruct × Result) : Prop where
  area : ∀ a, out.2 = .area a →
    out.1.Perm (a :: vmlist) ∧ Sorted start stop out.1 ∧ alignOf r ∣ a.addr ∧ a.size = need r
  same : (∀ a, out.2 ≠ .area a) → out.1 = vmlist
  space : out.2 = .noSpace → ¬ Room start stop vmlist r

/-- The test inside the walk is enough: there is room, or the request has no alignment,
is not larger than the whole range, and there is an area that leads to the test. -/
def Bounded (start stop : Nat) (vmlist : List VmStruct) : Call → Prop
  | .get r => r.size = 0 ∨ Room start stop vmlist r ∨
      r.ioremap = false ∧ need r ≤ stop - start ∧ vmlist ≠ []
  | .remove _ => True

/-! ## The walk -/

section

variable {start stop n a g : Nat} {r : Request}

theorem sorted_cons : Sorted g stop (tmp :: vmlist) ↔
    g ≤ tmp.addr ∧ 0 < tmp.size ∧ Sorted (tmp.addr + tmp.size) stop vmlist := by
  simp [Sorted, span, InOrder]

theorem Sorted.le (h : Sorted g stop vmlist) : g ≤ stop := InOrder.le_top h

/-- A place has been found. -/
def Found (n a stop g : Nat) (l : List VmStruct) (out : Option (List VmStruct × VmStruct)) : Prop :=
  ∃ l' area, out = some (l', area) ∧ l'.Perm (area :: l) ∧ Sorted g stop l' ∧ a ∣ area.addr ∧
    area.size = n

theorem Found.head (hn : 0 < n) {addr : Nat} (hg : g ≤ addr) (ha : a ∣ addr)
    (hrest : Sorted (addr + n) stop vmlist) :
    Found n a stop g vmlist (some (⟨addr, n⟩ :: vmlist, ⟨addr, n⟩)) :=
  ⟨_, _, rfl, .refl _, sorted_cons.mpr ⟨hg, hn, hrest⟩, ha, rfl⟩

theorem Found.cons {out : Option (List VmStruct × VmStruct)}
    (h : Found n a stop (tmp.addr + tmp.size) vmlist out) (hg : g ≤ tmp.addr)
    (hsize : 0 < tmp.size) :
    Found n a stop g (tmp :: vmlist) (out.map fun (l, area) => (tmp :: l, area)) := by
  obtain ⟨l', area, rfl, hperm, hsorted, hrest⟩ := h
  exact ⟨tmp :: l', area, rfl, (hperm.cons tmp).trans (.swap area tmp _),
    sorted_cons.mpr ⟨hg, hsize, hsorted⟩, hrest⟩

theorem align_eq (ha : a ∣ WORD) {x s : Nat} (hs : a ∣ s) (hx : x ≤ s) (hlt : s < WORD) :
    align x a = alignUp a x := by
  obtain ⟨k, hk⟩ := ha
  have hpos : 0 < a := Nat.pos_of_ne_zero (by rintro rfl; simp [WORD] at hk)
  have hle := (alignUp_le_iff hpos hs).mpr hx
  have hlt' : (x + (a - 1)) / a < k := by
    have : (x + (a - 1)) / a * a < k * a := by
      rw [Nat.mul_comm k, ← hk]
      exact Nat.lt_of_le_of_lt hle hlt
    exact Nat.lt_of_mul_lt_mul_right this
  rw [align, Nat.mod_eq_of_lt, alignUp]
  rw [hk, Nat.mul_comm]
  exact (Nat.div_lt_iff_lt_mul hpos).mp hlt'

/-- `end - size` -/
theorem last_eq (hstop : stop < WORD) (hn : n ≤ stop) : (stop + WORD - n) % WORD = stop - n := by
  rw [show stop + WORD - n = stop - n + WORD by omega, Nat.add_mod_right, Nat.mod_eq_of_lt (by omega)]

/-- With room at `s` the walk finds a place. -/
theorem place_of_room (ha : a ∣ WORD) (hstop : stop < WORD) (hn : 0 < n) {s : Nat} (has : a ∣ s)
    (hs : s + n ≤ stop) : ∀ {l : List VmStruct} {g addr : Nat}, Sorted g stop l → g ≤ addr →
    a ∣ addr → addr ≤ s → (∀ i ∈ l.map span, s + n ≤ i.1 ∨ i.2 ≤ s) →
    Found n a stop g l (place n a stop l addr) := by
  intro l
  have hpos : 0 < a := Nat.pos_of_ne_zero (by rintro rfl; simp [WORD] at ha)
  induction l with
  | nil =>
    intro g addr _ hg haddr hle _
    exact .head hn hg haddr (show addr + n ≤ stop by omega)
  | cons tmp rest ih =>
    intro g addr hsorted hg haddr hle hfree
    obtain ⟨hlo, hsize, hrest⟩ := sorted_cons.mp hsorted
    have hfree' (i) (hi : i ∈ rest.map span) : s + n ≤ i.1 ∨ i.2 ≤ s :=
      hfree i (List.mem_cons_of_mem _ hi)
    have htmp : s + n ≤ tmp.addr ∨ tmp.addr + tmp.size ≤ s := hfree _ List.mem_cons_self
    -- the walk behind `tmp`, from the aligned end of `tmp`
    have hnext (hbelow : tmp.addr + tmp.size ≤ s) : align (tmp.size + tmp.addr) a ≤ s ∧
          Found n a stop g (tmp :: rest) ((place n a stop rest (align (tmp.size + tmp.addr) a)).map
              fun (l, area) => (tmp :: l, area)) := by
      rw [Nat.add_comm tmp.size, align_eq ha has hbelow (by omega)]
      have hup := (alignUp_le_iff hpos has).mpr hbelow
      exact ⟨hup, (ih hrest (le_alignUp hpos _) (dvd_alignUp a _) hup hfree').cons hlo hsize⟩
    rw [place]
    by_cases hbefore : tmp.addr < addr
    · rw [if_pos hbefore]
      simp only [Nat.mod_eq_of_lt (show tmp.addr + tmp.size < WORD by omega)]
      by_cases hover : tmp.addr + tmp.size ≥ addr
      · rw [if_pos hover]
        exact (hnext (by omega)).2
      · rw [if_neg hover]
        exact (ih hrest (by omega) haddr hle hfree').cons hlo hsize
    rw [if_neg hbefore, Nat.mod_eq_of_lt (show n + addr < WORD by omega), if_neg (by omega)]
    by_cases hfit : n + addr ≤ tmp.addr
    · rw [if_pos hfit]
      exact .head hn hg haddr (sorted_cons.mpr ⟨by omega, hsize, hrest⟩)
    rw [if_neg hfit]
    obtain ⟨hup, hfound⟩ := hnext (by omega)
    simp only [last_eq hstop (show n ≤ stop by omega)]
    rw [if_neg (by omega)]
    exact hfound

/-- Without an alignment every area leads to the test. -/
theorem place_unaligned (hstop : stop < WORD) (hn : 0 < n) (hle : n ≤ stop) {l : List VmStruct}
    {g : Nat} (hsorted : Sorted g stop l) (hend : l = [] → g + n ≤ stop) :
    place n 1 stop l g = none ∨ Found n 1 stop g l (place n 1 stop l g) := by
  induction l generalizing g with
  | nil => exact .inr (.head hn (Nat.le_refl g) (Nat.one_dvd g) (hend rfl))
  | cons tmp rest ih =>
    obtain ⟨hlo, hsize, hrest⟩ := sorted_cons.mp hsorted
    have hend := hrest.le
    rw [place, if_neg (by omega)]
    by_cases hwrap : n + g < WORD
    · rw [Nat.mod_eq_of_lt hwrap, if_neg (by omega)]
      by_cases hfit : n + g ≤ tmp.addr
      · rw [if_pos hfit]
        exact .inr (.head hn (Nat.le_refl g) (Nat.one_dvd g) (sorted_cons.mpr ⟨by omega, hsize, hrest⟩))
      have hnext : align (tmp.size + tmp.addr) 1 = tmp.addr + tmp.size := by
        rw [align, Nat.mod_eq_of_lt (by omega)]
        omega
      simp only [if_neg hfit, hnext, last_eq hstop hle]
      by_cases hlast : tmp.addr + tmp.size > stop - n
      · exact .inl (if_pos hlast)
      rw [if_neg hlast]
      rcases ih hrest fun _ => by omega with hnone | hfound
      · exact .inl (by rw [hnone]; rfl)
      · exact .inr (hfound.cons hlo hsize)
    · refine .inl (if_pos ?_)
      rw [Nat.mod_eq_sub_mod (by omega), Nat.mod_eq_of_lt (by omega)]
      omega

end

/-! ## The calls -/

section

variable {start stop : Nat} {r : Request} {evs : List Result}

theorem alignOf_dvd (r : Request) : alignOf r ∣ WORD := by
  unfold alignOf
  split
  · refine Nat.pow_dvd_pow 2 ?_
    simp only [IOREMAP_MAX_ORDER, PAGE_SHIFT]
    grind
  · exact Nat.one_dvd _

/-- A request that fits, in the words of the code. -/
theorem getVmAreaNode_eq (hstop : stop < WORD) (hneed : need r ≤ stop) (hsize : r.size ≠ 0)
    (hmem : r.memory = true) : getVmAreaNode start stop vmlist r =
      match place (need r) (alignOf r) stop vmlist (align start (alignOf r)) with
      | none => (vmlist, .noSpace)
      | some (vmlist, area) => (vmlist, .area area) := by
  have hpage : align r.size PAGE_SIZE = alignUp PAGE_SIZE r.size :=
    align_eq (by decide) (dvd_alignUp PAGE_SIZE r.size) (le_alignUp (by decide) _)
      (by simp [need] at hneed; omega)
  have hpos : alignUp PAGE_SIZE r.size ≠ 0 := by
    have := le_alignUp (show 0 < PAGE_SIZE by decide) r.size
    omega
  rw [getVmAreaNode]
  simp only [hpage, hpos, hmem, if_false, Bool.not_true, Bool.false_eq_true]
  rw [show alignUp PAGE_SIZE r.size + PAGE_SIZE = need r from rfl, Nat.mod_eq_of_lt (by omega)]

/-- A call within the bounds is right. -/
theorem getVmAreaNode_sound (hstop : stop < WORD) (hsorted : Sorted start stop vmlist)
    (hb : Bounded start stop vmlist (.get r)) :
    Sound start stop vmlist r (getVmAreaNode start stop vmlist r) := by
  by_cases hsize : r.size = 0
  · have : getVmAreaNode start stop vmlist r = (vmlist, .noSize) := by
      rw [getVmAreaNode, hsize]
      rfl
    rw [this]
    exact ⟨by simp, fun _ => rfl, by simp⟩
  by_cases hmem : r.memory = true
  swap
  · have : ∃ res, (∀ a, res ≠ .area a) ∧ res ≠ .noSpace ∧
        getVmAreaNode start stop vmlist r = (vmlist, res) := by
      rw [getVmAreaNode]
      split
      · exact ⟨_, by simp, by simp, rfl⟩
      · exact ⟨_, by simp, by simp, if_pos (by simpa using hmem)⟩
    obtain ⟨res, harea, hspace, hres⟩ := this
    rw [hres]
    exact ⟨fun a ha => absurd ha (harea a), fun _ => rfl, fun h => absurd h hspace⟩
  have hpos : 0 < need r := Nat.add_pos_right _ (by decide)
  -- room gives a place
  have hroom : Room start stop vmlist r → need r ≤ stop ∧ Found (need r) (alignOf r) stop start vmlist
      (place (need r) (alignOf r) stop vmlist (align start (alignOf r))) := by
    rintro ⟨s, has, hlo, hhi, -, -, hfree⟩
    have hapos := Nat.pos_of_dvd_of_pos (alignOf_dvd r) (by decide)
    rw [align_eq (alignOf_dvd r) has hlo (by omega)]
    exact ⟨by omega, place_of_room (alignOf_dvd r) hstop hpos has hhi hsorted (le_alignUp hapos _)
      (dvd_alignUp _ _) ((alignUp_le_iff hapos has).mpr hlo) hfree⟩
  have hfound : ∀ {out}, Found (need r) (alignOf r) stop start vmlist out →
      Sound start stop vmlist r (match out with
        | none => (vmlist, .noSpace)
        | some (vmlist, area) => (vmlist, .area area)) := by
    rintro out ⟨l', area, rfl, hperm, hs, hd, hn⟩
    refine ⟨?_, fun h => absurd rfl (h area), fun h => by cases h⟩
    rintro a ⟨⟩
    exact ⟨hperm, hs, hd, hn⟩
  rcases hb with h | h | ⟨hio, hneed, hne⟩
  · exact absurd h hsize
  · rw [getVmAreaNode_eq hstop (hroom h).1 hsize hmem]
    exact hfound (hroom h).2
  rw [getVmAreaNode_eq hstop (by omega) hsize hmem]
  have hone : alignOf r = 1 := by simp [alignOf, hio]
  have hstart : align start (alignOf r) = start := by
    rw [hone, align, Nat.mod_eq_of_lt (by omega)]
    omega
  have hcases := place_unaligned hstop hpos (by omega) hsorted fun h => absurd h hne
  rw [← hone, ← hstart] at hcases
  rw [hstart] at hcases ⊢
  rcases hcases with hnone | h
  · rw [hnone]
    refine ⟨fun a h => (by cases h), fun _ => rfl, fun _ h => ?_⟩
    obtain ⟨l', area, hsome, -⟩ := (hroom h).2
    rw [hstart, hnone] at hsome
    cases hsome
  · exact hfound h

theorem removeVmArea_sorted (hsorted : Sorted start stop vmlist) (addr : Nat) :
    Sorted start stop (removeVmArea vmlist addr).1 := by
  induction vmlist generalizing start with
  | nil => exact hsorted
  | cons tmp rest ih =>
    obtain ⟨hlo, hsize, hrest⟩ := sorted_cons.mp hsorted
    rw [removeVmArea]
    split
    · cases rest with
      | nil => exact Nat.le_trans (by omega) hrest.le
      | cons t rest =>
        obtain ⟨h1, h2⟩ := sorted_cons.mp hrest
        exact sorted_cons.mpr ⟨by omega, h2⟩
    · exact sorted_cons.mpr ⟨hlo, hsize, ih hrest⟩

/-- In every run of calls within the bounds the areas stay sorted, disjoint and inside
`[start, stop)`, and every such call is right. -/
theorem vmlist_sound (hle : start ≤ stop) (hstop : stop < WORD)
    (hrun : RunWith (Bounded start stop) (step start stop) [] evs vmlist) :
    Sorted start stop vmlist ∧ ∀ r, Bounded start stop vmlist (.get r) →
      Sound start stop vmlist r (getVmAreaNode start stop vmlist r) := by
  have hsorted : Sorted start stop vmlist := by
    refine hrun.invariant (show Sorted start stop [] from hle) ?_
    intro l l' evs new call hl hb hstep
    cases call with
    | get r =>
      cases hstep
      have hsound := getVmAreaNode_sound hstop hl hb
      by_cases harea : ∃ a, (getVmAreaNode start stop l r).2 = .area a
      · obtain ⟨a, ha⟩ := harea
        exact (hsound.area a ha).2.1
      · rw [hsound.same fun a ha => harea ⟨a, ha⟩]
        exact hl
    | remove addr =>
      cases hstep
      exact removeVmArea_sorted hl addr
  exact ⟨hsorted, fun r => getVmAreaNode_sound hstop hsorted⟩

/-- One page in an empty list. -/
theorem vmlist_sound_one : Sorted 0xd0000000 0xd1000000 [⟨0xd0000000, 0x2000⟩] :=
  (vmlist_sound (by decide) (by decide) (.tail (.get ⟨0x1000, false, true⟩) (.refl [])
    (.inr (.inl ⟨0xd0000000, by decide, by decide, by decide, by decide, by decide, by simp⟩))
    rfl)).1

/-- With no area the test is not reached: 32 MB in a range of 16 MB. -/
theorem getVmAreaNode_beyond : ¬ Sound 0xd0000000 0xd1000000 [] ⟨0x2000000, false, true⟩
    (getVmAreaNode 0xd0000000 0xd1000000 [] ⟨0x2000000, false, true⟩) := by
  intro h
  obtain ⟨-, hsorted, -⟩ := h.area ⟨0xd0000000, 0x2001000⟩ rfl
  obtain ⟨-, -, hend⟩ := sorted_cons.mp hsorted
  exact absurd hend.le (by decide)

end

end LinuxKernel.Mm.Vmalloc
