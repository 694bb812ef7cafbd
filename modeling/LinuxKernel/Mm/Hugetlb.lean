/-
  Reservations of huge pages.

  Source: mm/hugetlb.c, `region_add`, `region_chg`, `region_truncate`,
  `hugetlb_acct_memory`, `hugetlb_reserve_pages`, `hugetlb_unreserve_pages`, and what
  `alloc_huge_page` and `truncate_hugepages` do to the counters.

  A region list denotes the set of pages in its entries (`pages`); an entry that
  `region_chg` leaves as a placeholder is empty and does not count.  The pages of a file
  that are in the page cache have taken their charge out of `resv_huge_pages`.
-/
import LinuxKernel.Foundation.Run

namespace LinuxKernel.Mm.Hugetlb

open Foundation Function List Function

/-! ## The code -/

/-- `struct file_region`, with its fields `from` and `to` -/
structure FileRegion where
  lo : Int
  hi : Int
  deriving DecidableEq, Repr

/-- The second loop of `region_add`: the new right edge, and what is left. -/
def absorb (t : Int) : List FileRegion → Int × List FileRegion
  | [] => (t, [])
  | rg :: rest => if rg.lo > t then (t, rg :: rest) else absorb (if rg.hi > t then rg.hi else t) rest

/-- `region_add`; `none` if there is no region to reuse, so that the head of the list is
taken for one. -/
def regionAdd (f t : Int) : List FileRegion → Option (List FileRegion)
  | [] => none
  | rg :: rest =>
    if f ≤ rg.hi then
      let f := if f > rg.lo then rg.lo else f
      let (t, rest) := if rg.lo > t then (t, rest) else absorb (if rg.hi > t then rg.hi else t) rest
      some (⟨f, t⟩ :: rest)
    else (regionAdd f t rest).map (rg :: ·)

/-- The second loop of `region_chg`. -/
def charge (t chg : Int) : List FileRegion → Int
  | [] => chg
  | rg :: rest =>
    if rg.lo > t then chg
    else if rg.hi > t then charge rg.hi (chg + (rg.hi - t) - (rg.hi - rg.lo)) rest
    else charge t (chg - (rg.hi - rg.lo)) rest

/-- The new region of `region_chg`; `memory` says whether `kmalloc` returns some.  No
number is -ENOMEM. -/
def newRegion (f t : Int) (memory : Bool) (rest : List FileRegion) :
    Option Int × List FileRegion :=
  if memory then (some (t - f), ⟨f, f⟩ :: rest) else (none, rest)

/-- `region_chg` -/
def regionChg (f t : Int) (memory : Bool) : List FileRegion → Option Int × List FileRegion
  | [] => newRegion f t memory []
  | rg :: rest =>
    if f ≤ rg.hi then
      if t < rg.lo then newRegion f t memory (rg :: rest)
      else
        let f := if f > rg.lo then rg.lo else f
        (some (charge t (t - f) (rg :: rest)), rg :: rest)
    else
      let out := regionChg f t memory rest
      (out.1, rg :: out.2)

/-- The second loop of `region_truncate`. -/
def dropAll (chg : Int) : List FileRegion → Int
  | [] => chg
  | rg :: rest => dropAll (chg + (rg.hi - rg.lo)) rest

/-- `region_truncate` -/
def regionTruncate (stop : Int) : List FileRegion → Int × List FileRegion
  | [] => (0, [])
  | rg :: rest =>
    if stop ≤ rg.hi then
      if stop > rg.lo then (dropAll (rg.hi - stop) rest, [⟨rg.lo, stop⟩])
      else (dropAll 0 (rg :: rest), [])
    else
      let out := regionTruncate stop rest
      (out.1, rg :: out.2)

/-- The files `ι` with their regions and the pages in their page cache, and the counters
of the pool. -/
structure State (ι : Type) where
  regions : ι → List FileRegion
  cache : ι → Finset Int
  /-- `resv_huge_pages` -/
  resv : Int
  /-- `free_huge_pages` -/
  free : Int

section

variable {ι : Type} [DecidableEq ι]

/-- `hugetlb_acct_memory`; the sum is an `unsigned long`. -/
def hugetlbAcctMemory (s : State ι) (delta : Int) : State ι × Bool :=
  if (delta + s.resv) % 2 ^ 32 ≤ s.free then ({ s with resv := s.resv + delta }, true) else (s, false)

/-- `hugetlb_reserve_pages`; `nr` is what `cpuset_mems_nr` returns. -/
def hugetlbReservePages (s : State ι) (i : ι) (f t : Int) (memory : Bool) (nr : Int) :
    Option (State ι × Bool) :=
  let out := regionChg f t memory (s.regions i)
  let s := { s with regions := update s.regions i out.2 }
  match out.1 with
  | none => some (s, false)
  | some chg =>
    if chg > nr then some (s, false)
    else
      let acct := hugetlbAcctMemory s chg
      if acct.2 then
        (regionAdd f t (acct.1.regions i)).map fun l =>
          ({ acct.1 with regions := update acct.1.regions i l }, true)
      else some (acct.1, false)

/-- `truncate_hugepages`: the pages of the cache go back to the pool, then
`hugetlb_unreserve_pages`. -/
def truncateHugepages (s : State ι) (i : ι) (start : Int) : State ι × Bool :=
  let freed := ((s.cache i).filter (start ≤ ·)).card
  let out := regionTruncate start (s.regions i)
  hugetlbAcctMemory { s with
    cache := update s.cache i ((s.cache i).filter (· < start))
    free := s.free + freed
    regions := update s.regions i out.2 } (freed - out.1)

inductive Call (ι : Type) where
  | reserve (i : ι) (f t : Int) (memory : Bool) (nr : Int)
  | truncate (i : ι) (start : Int)
  /-- `alloc_huge_page` for a shared mapping, and the page cache -/
  | fault (i : ι) (page : Int)
  /-- pages come to the pool or are taken out of it for private mappings -/
  | pool (free : Int)

def step (s : State ι) : Call ι → Option (State ι × List Bool)
  | .reserve i f t memory nr => (hugetlbReservePages s i f t memory nr).map fun out => (out.1, [out.2])
  | .truncate i start =>
    let out := truncateHugepages s i start
    some (out.1, [out.2])
  | .fault i page => some ({ s with
      resv := s.resv - 1
      free := s.free - 1
      cache := update s.cache i (insert page (s.cache i)) }, [])
  | .pool free => some ({ s with free := free }, [])

end

/-! ## Regions as sets -/

/-- Sorted and disjoint, with a page between two regions. -/
def Sorted : List FileRegion → Prop
  | [] => True
  | rg :: rest => rg.lo ≤ rg.hi ∧ (∀ r ∈ rest, rg.hi < r.lo) ∧ Sorted rest

/-- The pages from `f` to `t`, with the order that computes. -/
def interval (f t : Int) : Finset Int := (Finset.range (t - f).toNat).image fun n : Nat => f + n

/-- The pages in the regions. -/
def pages : List FileRegion → Finset Int
  | [] => ∅
  | rg :: rest => interval rg.lo rg.hi ∪ pages rest

section

variable {f t x : Int} {rg : FileRegion} {l rest : List FileRegion}

theorem mem_interval : x ∈ interval f t ↔ f ≤ x ∧ x < t := by
  simp only [interval, Finset.mem_image, Finset.mem_range]
  constructor
  · omega
  · intro hx
    exact ⟨(x - f).toNat, by omega, by omega⟩

theorem card_interval (f t : Int) : (interval f t).card = (t - f).toNat := by
  rw [interval, Finset.card_image_of_injective _ fun a b h => by omega, Finset.card_range]

theorem interval_filter_lt (f t u : Int) : (interval f t).filter (· < u) = interval f (min t u) := by
  ext x
  simp only [Finset.mem_filter, mem_interval]
  omega

theorem interval_empty (h : t ≤ f) : interval f t = ∅ :=
  Finset.eq_empty_of_forall_notMem fun x hx => by
    have := mem_interval.mp hx
    omega

theorem mem_pages : x ∈ pages l ↔ ∃ r ∈ l, r.lo ≤ x ∧ x < r.hi := by
  induction l with
  | nil => simp [pages]
  | cons rg rest ih => simp [pages, ih, mem_interval]

/-- What is behind a region is behind its pages. -/
theorem lt_of_mem_pages (h : ∀ r ∈ l, t < r.lo) (hx : x ∈ pages l) : t < x := by
  obtain ⟨r, hr, h1, -⟩ := mem_pages.mp hx
  exact Int.lt_of_lt_of_le (h r hr) h1

theorem card_pages_cons (h : Sorted (rg :: rest)) :
    ((pages (rg :: rest)).card : Int) = rg.hi - rg.lo + (pages rest).card := by
  have hdisj : Disjoint (interval rg.lo rg.hi) (pages rest) := by
    refine Finset.disjoint_left.mpr fun x hx hx' => ?_
    have := lt_of_mem_pages h.2.1 hx'
    have := mem_interval.mp hx
    omega
  have := h.1
  rw [pages, Finset.card_union_of_disjoint hdisj, card_interval]
  omega

theorem charge_eq (h : Sorted l) (t chg : Int) :
    charge t chg l = chg - ((pages l).filter (· < t)).card := by
  induction l generalizing t chg with
  | nil => simp [charge, pages]
  | cons rg rest ih =>
    obtain ⟨hle, hbehind, hrest⟩ := h
    -- the pages below `t` are those of the first region and those of the rest
    have hsplit : ∀ {t}, ((pages (rg :: rest)).filter (· < t)).card =
        (interval rg.lo (min rg.hi t)).card + ((pages rest).filter (· < t)).card := by
      intro t
      rw [pages, Finset.filter_union, interval_filter_lt, Finset.card_union_of_disjoint]
      refine Finset.disjoint_left.mpr fun x hx hx' => ?_
      have := lt_of_mem_pages hbehind (Finset.mem_filter.mp hx').1
      have := mem_interval.mp hx
      omega
    have hnone : ∀ {t}, t ≤ rg.hi → ((pages rest).filter (· < t)).card = 0 := by
      intro t ht
      rw [Finset.card_eq_zero, Finset.filter_eq_empty_iff]
      intro x hx
      have := lt_of_mem_pages hbehind hx
      omega
    rw [charge, hsplit, card_interval]
    split
    · rw [hnone (by omega)]
      omega
    split
    · rw [ih hrest, hnone (Int.le_refl _), hnone (by omega)]
      omega
    · rw [ih hrest]
      omega

/-- What is missing in a range, when nothing is in front of it. -/
theorem card_missing {s : Finset Int} (hft : f ≤ t) (hs : ∀ x ∈ s, f ≤ x) :
    ((interval f t \ s).card : Int) = t - f - (s.filter (· < t)).card := by
  have hinter : s.filter (· < t) = interval f t ∩ s := by
    ext x
    simp only [Finset.mem_filter, Finset.mem_inter, mem_interval]
    exact ⟨fun h => ⟨⟨hs x h.1, h.2⟩, h.1⟩, fun h => ⟨h.2, h.1.2⟩⟩
  have := Finset.card_sdiff_add_card_inter (interval f t) s
  rw [card_interval] at this
  rw [hinter]
  omega

/-- A region that overlaps or touches `[f, t)` is where `region_add` goes. -/
def Ready (f t : Int) : List FileRegion → Prop
  | [] => False
  | rg :: rest => if f ≤ rg.hi then rg.lo ≤ t else Ready f t rest

/-- What `region_chg` does: it counts what is missing in `[f, t)`, or has no memory for a
new region.  A new region starts at `f`. -/
structure Charged (f t : Int) (l : List FileRegion) (chg : Int) (l' : List FileRegion) : Prop where
  chg : chg = (interval f t \ pages l).card
  pages : pages l' = pages l
  sorted : Sorted l'
  ready : Ready f t l'
  low : ∀ b, b < f → (∀ r ∈ l, b < r.lo) → ∀ r ∈ l', b < r.lo

theorem newRegion_spec (hft : f ≤ t) (memory : Bool) (hl : Sorted l) (hbelow : ∀ r ∈ l, t < r.lo) :
    memory = false ∧ newRegion f t memory l = (none, l) ∨
      ∃ chg l', newRegion f t memory l = (some chg, l') ∧ Charged f t l chg l' := by
  cases memory with
  | false => exact .inl ⟨rfl, rfl⟩
  | true =>
    have hall : interval f t \ pages l = interval f t := by
      refine Finset.sdiff_eq_self_of_disjoint (Finset.disjoint_left.mpr fun x hx hx' => ?_)
      have := lt_of_mem_pages hbelow hx'
      have := mem_interval.mp hx
      omega
    refine .inr ⟨_, _, rfl, ?_, ?_, ⟨Int.le_refl _, fun r hr => ?_, hl⟩, ?_, fun b hb h => ?_⟩
    · rw [hall, card_interval]
      omega
    · rw [pages, interval_empty le_rfl, Finset.empty_union]
    · exact Int.lt_of_le_of_lt hft (hbelow r hr)
    · rw [Ready, if_pos (Int.le_refl f)]
      exact hft
    · exact forall_mem_cons.mpr ⟨hb, h⟩

theorem regionChg_spec (hft : f ≤ t) (memory : Bool) (hl : Sorted l) :
    memory = false ∧ regionChg f t memory l = (none, l) ∨
      ∃ chg l', regionChg f t memory l = (some chg, l') ∧ Charged f t l chg l' := by
  induction l with
  | nil => exact newRegion_spec hft memory trivial (by simp)
  | cons rg rest ih =>
    have ⟨hle, hbehind, hrest⟩ := hl
    rw [regionChg]
    by_cases hf : f ≤ rg.hi
    · rw [if_pos hf]
      by_cases ht : t < rg.lo
      · rw [if_pos ht]
        refine newRegion_spec hft memory hl (forall_mem_cons.mpr ⟨ht, fun r hr => ?_⟩)
        have := hbehind r hr
        omega
      rw [if_neg ht]
      refine .inr ⟨_, _, rfl, ?_, rfl, hl, by rw [Ready, if_pos hf]; omega, fun _ _ h => h⟩
      have hlow (x) (hx : x ∈ pages (rg :: rest)) : rg.lo ≤ x := by
        rcases Finset.mem_union.mp hx with hx | hx
        · exact (mem_interval.mp hx).1
        · have := lt_of_mem_pages hbehind hx
          omega
      rw [charge_eq hl, ← card_missing (by split <;> omega) fun x hx => ?_]
      · -- between `rg.lo` and `f` nothing is missing
        congr 2
        ext x
        simp only [pages, Finset.mem_sdiff, Finset.mem_union, mem_interval]
        refine and_congr_left fun hx => ?_
        split <;> omega
      · have := hlow x hx
        split <;> omega
    · rw [if_neg hf]
      rcases ih hrest with ⟨hmem, hout⟩ | ⟨chg, l', hout, h⟩
      · exact .inl ⟨hmem, by rw [hout]⟩
      rw [hout]
      refine .inr ⟨_, _, rfl, ?_, by rw [pages, h.pages, pages],
        ⟨hle, h.low rg.hi (by omega) hbehind, h.sorted⟩, by rw [Ready, if_neg hf]; exact h.ready,
        fun b hb hr => ?_⟩
      · rw [h.chg]
        congr 2
        ext x
        simp only [pages, Finset.mem_sdiff, Finset.mem_union, mem_interval, not_or]
        exact and_congr_right fun hx => ⟨fun h => ⟨by omega, h⟩, And.right⟩
      · obtain ⟨h1, h2⟩ := forall_mem_cons.mp hr
        exact forall_mem_cons.mpr ⟨h1, h.low b hb h2⟩

/-- The loop of `region_add`, behind a region that starts at `f`. -/
theorem absorb_spec (hl : Sorted l) (hf : ∀ r ∈ l, f ≤ r.lo) (hft : f ≤ t) :
    f ≤ (absorb t l).1 ∧ (∀ r ∈ (absorb t l).2, (absorb t l).1 < r.lo) ∧ Sorted (absorb t l).2 ∧
      interval f (absorb t l).1 ∪ pages (absorb t l).2 = interval f t ∪ pages l := by
  induction l generalizing t with
  | nil => exact ⟨hft, by simp [absorb], trivial, rfl⟩
  | cons rg rest ih =>
    have ⟨hle, hbehind, hrest⟩ := hl
    have hlo := hf rg mem_cons_self
    rw [absorb]
    split
    · refine ⟨hft, forall_mem_cons.mpr ⟨by assumption, fun r hr => ?_⟩, hl, rfl⟩
      have := hbehind r hr
      omega
    obtain ⟨h1, h2, h3, h4⟩ := @ih (if rg.hi > t then rg.hi else t) hrest
      (fun r hr => hf r (mem_cons_of_mem _ hr)) (by split <;> omega)
    refine ⟨h1, h2, h3, h4.trans ?_⟩
    rw [pages, ← Finset.union_assoc]
    congr 1
    ext x
    simp only [Finset.mem_union, mem_interval]
    split <;> omega

/-- `region_add` where `region_chg` has been: it needs no memory. -/
theorem regionAdd_spec (hft : f ≤ t) (hl : Sorted l) (hready : Ready f t l) :
    ∃ l', regionAdd f t l = some l' ∧ pages l' = pages l ∪ interval f t ∧ Sorted l' ∧
      ∀ b, b < f → (∀ r ∈ l, b < r.lo) → ∀ r ∈ l', b < r.lo := by
  induction l with
  | nil => exact hready.elim
  | cons rg rest ih =>
    have ⟨hle, hbehind, hrest⟩ := hl
    rw [Ready] at hready
    rw [regionAdd]
    by_cases hf : f ≤ rg.hi
    · rw [if_pos hf] at hready ⊢
      simp only [if_neg (Int.not_lt.mpr hready)]
      obtain ⟨h1, h2, h3, h4⟩ := @absorb_spec (if f > rg.lo then rg.lo else f)
        (if rg.hi > t then rg.hi else t) rest hrest
        (fun r hr => by have := hbehind r hr; split <;> omega) (by split <;> split <;> omega)
      refine ⟨_, rfl, ?_, ⟨h1, h2, h3⟩, fun b hb hr => ?_⟩
      · rw [pages, h4, pages, Finset.union_right_comm]
        congr 1
        ext x
        simp only [Finset.mem_union, mem_interval]
        split <;> split <;> omega
      · have := hr rg mem_cons_self
        have hb' : b < if f > rg.lo then rg.lo else f := by split <;> assumption
        refine forall_mem_cons.mpr ⟨hb', fun r hr => ?_⟩
        have := h2 r hr
        omega
    · rw [if_neg hf] at hready ⊢
      obtain ⟨l', hadd, hpages, hsorted, hlow⟩ := ih hrest hready
      refine ⟨rg :: l', by rw [hadd]; rfl, by rw [pages, hpages, pages, Finset.union_assoc],
        ⟨hle, hlow rg.hi (by omega) hbehind, hsorted⟩, fun b hb hr => ?_⟩
      obtain ⟨h1, h2⟩ := forall_mem_cons.mp hr
      exact forall_mem_cons.mpr ⟨h1, hlow b hb h2⟩

theorem dropAll_eq (hl : Sorted l) (chg : Int) : dropAll chg l = chg + (pages l).card := by
  induction l generalizing chg with
  | nil => simp [dropAll, pages]
  | cons rg rest ih =>
    rw [dropAll, ih hl.2.2, card_pages_cons hl]
    omega

/-- `region_truncate` keeps the pages below `stop`, and counts the others. -/
theorem regionTruncate_spec (stop : Int) (hl : Sorted l) :
    (regionTruncate stop l).1 = ((pages l).filter (stop ≤ ·)).card ∧
      pages (regionTruncate stop l).2 = (pages l).filter (· < stop) ∧
      Sorted (regionTruncate stop l).2 := by
  -- with the number as a difference, and a bound for the regions that stay
  have main : (regionTruncate stop l).1 + (pages (regionTruncate stop l).2).card = (pages l).card ∧
      pages (regionTruncate stop l).2 = (pages l).filter (· < stop) ∧
      Sorted (regionTruncate stop l).2 ∧
      ∀ b, (∀ r ∈ l, b < r.lo) → ∀ r ∈ (regionTruncate stop l).2, b < r.lo := by
    induction l with
    | nil => exact ⟨rfl, rfl, trivial, fun _ h => h⟩
    | cons rg rest ih =>
      have ⟨hle, hbehind, hrest⟩ := hl
      have hfilter : (pages (rg :: rest)).filter (· < stop) =
          interval rg.lo (min rg.hi stop) ∪ (pages rest).filter (· < stop) := by
        rw [pages, Finset.filter_union, interval_filter_lt]
      rw [hfilter, card_pages_cons hl, regionTruncate]
      by_cases hstop : stop ≤ rg.hi
      · have hnone : (pages rest).filter (· < stop) = ∅ := by
          refine Finset.filter_eq_empty_iff.mpr fun x hx => ?_
          have := lt_of_mem_pages hbehind hx
          omega
        rw [if_pos hstop, hnone, min_eq_right hstop]
        by_cases hmid : stop > rg.lo
        · have hone : Sorted [⟨rg.lo, stop⟩] := ⟨Int.le_of_lt hmid, by simp, trivial⟩
          rw [if_pos hmid, dropAll_eq hrest, card_pages_cons hone]
          refine ⟨by simp only [pages, Finset.card_empty]; omega, rfl, hone, fun b h => ?_⟩
          exact forall_mem_cons.mpr ⟨h rg mem_cons_self, by simp⟩
        · rw [if_neg hmid, dropAll_eq hl, card_pages_cons hl, interval_empty (by omega)]
          exact ⟨by simp [pages], rfl, trivial, by simp⟩
      · obtain ⟨h1, h2, h3, h4⟩ := ih hrest
        have hsorted : Sorted (rg :: (regionTruncate stop rest).2) := ⟨hle, h4 rg.hi hbehind, h3⟩
        rw [if_neg hstop, card_pages_cons hsorted, min_eq_left (by omega), ← h2]
        refine ⟨by simp only; omega, rfl, hsorted, fun b h => ?_⟩
        obtain ⟨hrg, hb⟩ := forall_mem_cons.mp h
        exact forall_mem_cons.mpr ⟨hrg, h4 b hb⟩
  obtain ⟨h1, h2, h3, -⟩ := main
  have hcard := Finset.card_filter_add_card_filter_not (s := pages l) (· < stop)
  simp only [Int.not_lt] at hcard
  rw [h2] at h1
  exact ⟨by omega, h2, h3⟩

end

/-! ## The counters -/

section

variable {ι : Type} [Fintype ι] [DecidableEq ι] {s s' : State ι} {evs new : List Bool}

/-- The number of pages in the sets of all files. -/
def count (sets : ι → Finset Int) : Int := ∑ i, ((sets i).card : Int)

theorem count_update (sets : ι → Finset Int) (i : ι) (set : Finset Int) :
    count (update sets i set) = count sets - (sets i).card + set.card := by
  have h1 := Finset.add_sum_erase Finset.univ (fun j => ((sets j).card : Int)) (Finset.mem_univ i)
  have h2 := Finset.add_sum_erase Finset.univ
    (fun j => ((update sets i set j).card : Int)) (Finset.mem_univ i)
  have h3 : ∑ j ∈ Finset.univ.erase i, ((update sets i set j).card : Int) =
      ∑ j ∈ Finset.univ.erase i, ((sets j).card : Int) :=
    Finset.sum_congr rfl fun j hj => by rw [update_of_ne (Finset.ne_of_mem_erase hj)]
  rw [update_self] at h2
  simp only [count]
  omega

/-- What the callers of the modelled functions keep to: page numbers are `long`s, a page
that is faulted in is reserved and not there yet, and the pool keeps enough pages for
the reservations and has less than `LONG_MAX` pages. -/
def Allowed (s : State ι) : Call ι → Prop
  | .reserve _ f t _ _ => 0 ≤ f ∧ f ≤ t ∧ t < 2 ^ 31
  | .truncate _ _ => True
  | .fault i page => page ∈ pages (s.regions i) ∧ page ∉ s.cache i
  | .pool free => s.resv ≤ free ∧ free + count s.cache < 2 ^ 31

structure Inv (s : State ι) : Prop where
  sorted : ∀ i, Sorted (s.regions i)
  cached : ∀ i, s.cache i ⊆ pages (s.regions i)
  charged : s.resv + count s.cache = count fun i => pages (s.regions i)
  enough : s.resv ≤ s.free
  bound : s.free + count s.cache < 2 ^ 31

omit [DecidableEq ι] in
theorem Inv.bounds (h : Inv s) : 0 ≤ s.resv ∧ s.free < 2 ^ 31 := by
  have hle : count s.cache ≤ count fun i => pages (s.regions i) :=
    Finset.sum_le_sum fun i _ => Int.ofNat_le.mpr (Finset.card_le_card (h.cached i))
  have hpos : 0 ≤ count s.cache := Finset.sum_nonneg fun _ _ => Int.natCast_nonneg _
  have := h.charged
  have := h.bound
  omega

/-- One file changes, and the counters with it. -/
theorem Inv.setFile (h : Inv s) (i : ι) {l : List FileRegion} {c : Finset Int} {r n : Int}
    (hl : Sorted l) (hc : c ⊆ pages l)
    (hr : r = s.resv + (s.cache i).card - c.card - (pages (s.regions i)).card + (pages l).card)
    (hn : n = s.free + (s.cache i).card - c.card) (henough : r ≤ n) :
    Inv ⟨update s.regions i l, update s.cache i c, r, n⟩ := by
  have hpages : (fun j => pages (update s.regions i l j)) =
      update (fun j => pages (s.regions j)) i (pages l) :=
    comp_update pages s.regions i l
  have hcharged := h.charged
  have hbound := h.bound
  refine ⟨fun j => ?_, fun j => ?_, ?_, henough, ?_⟩
  · by_cases hj : j = i
    · subst hj
      simpa using hl
    · simpa [update_of_ne hj] using h.sorted j
  · by_cases hj : j = i
    · subst hj
      simpa using hc
    · simpa [update_of_ne hj] using h.cached j
  · simp only [hpages, count_update]
    omega
  · simp only [count_update]
    omega

theorem hugetlbReservePages_spec (h : Inv s) (i : ι) {f t : Int} (hf : 0 ≤ f) (hft : f ≤ t)
    (ht : t < 2 ^ 31) (memory : Bool) (nr : Int) :
    ∃ s' ok, hugetlbReservePages s i f t memory nr = some (s', ok) ∧ Inv s' := by
  have hsame : ∀ {l}, Sorted l → pages l = pages (s.regions i) →
      Inv { s with regions := update s.regions i l } := by
    intro l hl hpages
    have := h.setFile i hl (hpages ▸ h.cached i) (r := s.resv)
      (by rw [hpages]; omega) (by omega) h.enough
    rwa [update_eq_self] at this
  rw [hugetlbReservePages]
  rcases regionChg_spec hft memory (h.sorted i) with ⟨-, hout⟩ | ⟨chg, l, hout, hl⟩
  · simp only [hout]
    exact ⟨_, _, rfl, hsame (h.sorted i) rfl⟩
  simp only [hout]
  split
  · exact ⟨_, _, rfl, hsame hl.sorted hl.pages⟩
  obtain ⟨l', hadd, hpages, hsorted, -⟩ := regionAdd_spec hft hl.sorted hl.ready
  rw [hl.pages] at hpages
  have hcard := Finset.card_sdiff_add_card (interval f t) (pages (s.regions i))
  have hle := Finset.card_le_card (Finset.sdiff_subset (s := interval f t) (t := pages (s.regions i)))
  have hchg := hl.chg
  have hbounds := h.bounds
  have henough := h.enough
  rw [card_interval] at hle
  rw [hugetlbAcctMemory]
  by_cases hacct : (chg + s.resv) % 2 ^ 32 ≤ s.free
  · rw [Int.emod_eq_of_lt (by omega) (by omega)] at hacct
    simp only [Int.emod_eq_of_lt (show 0 ≤ chg + s.resv by omega) (show _ < 2 ^ 32 by omega), hacct,
      if_true, update_self, hadd, update_idem]
    refine ⟨_, _, rfl, ?_⟩
    have := h.setFile i hsorted (c := s.cache i) (r := s.resv + chg) (n := s.free)
      (by rw [hpages]; exact (h.cached i).trans Finset.subset_union_left)
      (by rw [hpages, Finset.union_comm]; omega) (by omega) (by omega)
    rwa [update_eq_self] at this
  · simp only [hacct]
    exact ⟨_, _, rfl, hsame hl.sorted hl.pages⟩

/-- Releasing reservations is accounted for, whatever is in the cache. -/
theorem truncateHugepages_spec (h : Inv s) (i : ι) (start : Int) :
    (truncateHugepages s i start).2 = true ∧ Inv (truncateHugepages s i start).1 := by
  obtain ⟨hchg, hpages, hsorted⟩ := regionTruncate_spec start (h.sorted i)
  have hcache := Finset.card_filter_add_card_filter_not (s := s.cache i) (· < start)
  have hregion := Finset.card_filter_add_card_filter_not (s := pages (s.regions i)) (· < start)
  simp only [Int.not_lt] at hcache hregion
  have henough := h.enough
  have hinv := h.setFile i hsorted (c := (s.cache i).filter (· < start))
    (r := s.resv + (((s.cache i).filter (start ≤ ·)).card - (regionTruncate start (s.regions i)).1))
    (n := s.free + ((s.cache i).filter (start ≤ ·)).card)
    (by rw [hpages]; exact Finset.filter_subset_filter _ (h.cached i))
    (by rw [hpages]; omega) (by omega) (by omega)
  have hbounds := hinv.bounds
  rw [truncateHugepages, hugetlbAcctMemory]
  simp only at hbounds ⊢
  rw [if_pos]
  · exact ⟨rfl, hinv⟩
  · omega

theorem inv_step (call : Call ι) (h : Inv s) (hallowed : Allowed s call)
    (hstep : step s call = some (s', new)) : Inv s' := by
  cases call with
  | reserve i f t memory nr =>
    obtain ⟨hf, hft, ht⟩ := hallowed
    obtain ⟨t', ok, hout, hinv⟩ := hugetlbReservePages_spec h i hf hft ht memory nr
    rw [step, hout] at hstep
    cases hstep
    exact hinv
  | truncate i start =>
    cases hstep
    exact (truncateHugepages_spec h i start).2
  | fault i page =>
    obtain ⟨hmem, hnot⟩ := hallowed
    cases hstep
    have hcard := Finset.card_insert_of_notMem hnot
    have henough := h.enough
    have := h.setFile i (h.sorted i) (Finset.insert_subset hmem (h.cached i))
      (r := s.resv - 1) (n := s.free - 1) (by omega) (by omega) (by omega)
    rwa [update_eq_self] at this
  | pool free =>
    cases hstep
    exact { h with enough := hallowed.1, bound := hallowed.2 }

/-- Reservations are exact: in every state that the calls reach, the regions are sorted,
`resv_huge_pages` with the charges that the cached pages have taken is the number of
reserved pages, and the region functions count and change them as sets. -/
theorem hugetlb_reservations {free : Int} (hpos : 0 ≤ free) (hfree : free < 2 ^ 31)
    (hrun : RunWith Allowed step (⟨fun _ => [], fun _ => ∅, 0, free⟩ : State ι) evs s) :
    (s.resv + count s.cache = count fun i => pages (s.regions i)) ∧ ∀ i, Sorted (s.regions i) ∧
    (∀ f t memory, f ≤ t →
      memory = false ∧ regionChg f t memory (s.regions i) = (none, s.regions i) ∨
      ∃ chg l l', regionChg f t memory (s.regions i) = (some chg, l) ∧
        chg = (interval f t \ pages (s.regions i)).card ∧ pages l = pages (s.regions i) ∧
        regionAdd f t l = some l' ∧ pages l' = pages (s.regions i) ∪ interval f t) ∧
    ∀ start, (regionTruncate start (s.regions i)).1 =
        ((pages (s.regions i)).filter (start ≤ ·)).card ∧
      pages (regionTruncate start (s.regions i)).2 = (pages (s.regions i)).filter (· < start) := by
  have hinv : Inv s := by
    refine RunWith.invariant ?_ inv_step hrun
    exact ⟨fun _ => trivial, fun _ => Finset.Subset.refl _, Int.zero_add _, hpos, by simpa [count] using hfree⟩
  refine ⟨hinv.charged, fun i => ⟨hinv.sorted i, fun f t memory hft => ?_, fun start => ?_⟩⟩
  · rcases regionChg_spec hft memory (hinv.sorted i) with h | ⟨chg, l, hout, hl⟩
    · exact .inl h
    · obtain ⟨l', hadd, hpages, -⟩ := regionAdd_spec hft hl.sorted hl.ready
      exact .inr ⟨chg, l, l', hout, hl.chg, hl.pages, hadd, by rw [hpages, hl.pages]⟩
  · obtain ⟨h1, h2, -⟩ := regionTruncate_spec start (hinv.sorted i)
    exact ⟨h1, h2⟩

/-- A reservation of three pages that the pool can satisfy. -/
theorem hugetlb_reservations_three : ∃ (s : State Unit) (evs : List Bool),
    RunWith Allowed step (⟨fun _ => [], fun _ => ∅, 0, 8⟩ : State Unit) evs s ∧
      s.resv + count s.cache = count fun i => pages (s.regions i) := by
  have hrun : RunWith Allowed step (⟨fun _ => [], fun _ => ∅, 0, 8⟩ : State Unit) _ _ :=
    .tail (.reserve () 2 5 true 8) (.refl _) ⟨by decide, by decide, by decide⟩ rfl
  exact ⟨_, _, hrun, (hugetlb_reservations (by decide) (by decide) hrun).1⟩

end

end LinuxKernel.Mm.Hugetlb
