/-
  Busy regions, requested and released.

  Source: kernel/resource.c, `__request_region`, `__release_region`.

  A request goes down through the resources that it meets and that are not busy; a
  release goes down through those that contain the region.  Both come to the innermost
  resource around the region, because the ranges of siblings are disjoint
  (`regionLoop_succeeds_iff`, `releaseRegionLoop_finds`).
-/
import LinuxKernel.Kernel.ResourceAllocate

namespace LinuxKernel.Kernel.Resource

open Foundation Function Option Loc Heap
open List (mem_append mem_cons mem_cons_self)

variable {α : Type} {bits : Nat} {kids : α → List α} {h : Heap α bits} {root : α}

/-- Busy, as both functions test it. -/
def Busy (h : Heap α bits) (a : α) : Prop := h.flags a &&& IORESOURCE_BUSY ≠ 0

/-- The ranges of `a` and `b` do not meet. -/
def Apart (h : Heap α bits) (a b : α) : Prop := h.end_ a < h.start b ∨ h.end_ b < h.start a

section

variable {a b c new : α}

/-- What is below a resource is inside it. -/
theorem Tree.inside_of_reach (ht : Tree h root kids) (ha : Reach kids root a)
    (hb : Reach kids a b) : h.start a ≤ h.start b ∧ h.end_ b ≤ h.end_ a := by
  induction hb with
  | refl => exact ⟨BitVec.le_refl _, BitVec.le_refl _⟩
  | tail hb hc ih =>
    have hin := ht.inside _ (ha.trans hb) _ hc
    exact ⟨by bv_omega, by bv_omega⟩

theorem Tree.apart_of_mem (ht : Tree h root kids) (ha : Reach kids root a) (hb : b ∈ kids a)
    (hc : c ∈ kids a) (hne : b ≠ c) : Apart h b c := by
  have hsorted := ht.sorted a ha
  obtain ⟨l1, l2, hkids⟩ := List.append_of_mem hb
  rw [hkids] at hsorted hc
  obtain ⟨-, h2, h12⟩ := List.pairwise_append.mp hsorted
  rcases mem_append.mp hc with hc | hc
  · exact .inr (h12 c hc b (mem_cons_self ..))
  · rcases mem_cons.mp hc with rfl | hc
    · exact absurd rfl hne
    · exact .inl ((List.pairwise_cons.mp h2).1 c hc)

/-- A resource below another one is that one or below one of its children. -/
theorem reach_cases (h : Reach kids a b) : b = a ∨ ∃ c ∈ kids a, Reach kids c b := by
  induction h with
  | refl => exact .inl rfl
  | tail _ hc ih =>
    right
    rcases ih with rfl | ⟨d, hd, hreach⟩
    · exact ⟨_, hc, .refl⟩
    · exact ⟨d, hd, hreach.tail hc⟩

/-- What is apart from a resource is apart from all below it. -/
theorem Tree.apart_of_reach (ht : Tree h root kids) (ha : Reach kids root a)
    (hb : Reach kids a b) (hapart : Apart h new a) : Apart h new b := by
  have hin := ht.inside_of_reach ha hb
  unfold Apart at *
  bv_omega

/-- The resources below `a`, when the range of `new` is inside its child `c`. -/
theorem Tree.below_cases (ht : Tree h root kids) (ha : Reach kids root a) (hc : c ∈ kids a)
    (hfits : Fits h c new) (hb : Reach kids a b) (hne : b ≠ a) :
    b = c ∨ (Reach kids c b ∧ b ≠ c) ∨ Apart h new b := by
  obtain ⟨d, hd, hreach⟩ := (reach_cases hb).resolve_left hne
  by_cases hdc : d = c
  · subst hdc
    by_cases hbd : b = d
    · exact .inl hbd
    · exact .inr (.inl ⟨hreach, hbd⟩)
  · refine .inr (.inr (ht.apart_of_reach (ha.tail hd) hreach ?_))
    have hapart := ht.apart_of_mem ha hc hd (Ne.symm hdc)
    obtain ⟨-, h1, h2⟩ := hfits
    unfold Apart at *
    bv_omega

end

section

variable [DecidableEq α] {a new : α}

/-- The resource that `__request_resource` returns is in the way. -/
theorem requestLoop_conflict (root new : α) {h' : Heap α bits} {c : α} (l : List α) (p : Loc α)
    (hchain : Chain sibling h.slot p l) (hlive : ∀ b ∈ l, h.live b = true)
    (heq : requestLoop h root new p = some (h', some c)) : ¬ Apart h new c := by
  induction l generalizing p with
  | nil =>
    rw [requestLoop, (chain_nil p).mp hchain] at heq
    cases (Prod.mk.inj (some.inj heq)).2
  | cons b l ih =>
    obtain ⟨hp, hrest⟩ := (chain_cons p b l).mp hchain
    rw [requestLoop, hp] at heq
    simp only [hlive b mem_cons_self, if_true] at heq
    split at heq
    · cases (Prod.mk.inj (some.inj heq)).2
    split at heq
    · exact ih (.sibling b) hrest (fun d hd => hlive d (List.mem_cons_of_mem b hd)) heq
    · obtain rfl := some.inj (Prod.mk.inj (some.inj heq)).2
      unfold Apart
      tauto

/-- How a request under `a` ends, and why. -/
theorem requestResource'_cases (ht : Tree h root kids) (ha : Reach kids root a)
    (hnew : h.live new = true) : (requestResource' h a new = some (h, some a) ∧ ¬ Fits h a new) ∨
    (∃ l1 l2, requestResource' h a new =
        some (h.link a new (endLoc sibling (.child a) l1), none) ∧
      Fits h a new ∧ kids a = l1 ++ l2 ∧ Gap h new l1 [] l2) ∨
    ∃ c ∈ kids a, requestResource' h a new = some (h, some c) ∧ Fits h a new ∧ ¬ Apart h new c := by
  have hbody : Fits h a new → requestResource' h a new = requestLoop h a new (.child a) := by
    rintro ⟨h1, h2, h3⟩
    unfold requestResource'
    rw [deref_eq (ht.live a ha), deref_eq hnew]
    simp only [bind_eq_bind, bind_some]
    rw [if_neg (by bv_omega), if_neg (by bv_omega), if_neg (by bv_omega)]
  have hlive (c) (hc : c ∈ kids a) : h.live c = true := ht.live c (ha.tail hc)
  by_cases hfits : Fits h a new
  · obtain ⟨res, heq, hres⟩ := requestResource'_spec ht ha hnew
    rw [hbody hfits] at heq ⊢
    cases hres with
    | refused =>
      -- the loop returns children only
      exfalso
      rcases requestLoop_spec a new (kids a) (.child a) (ht.chain a ha) hlive
        (fun c hc => ht.ordered c (ha.tail hc)) (ht.sorted a ha) with
        ⟨l1, l2, -, -, hloop⟩ | ⟨l1, c, l2, hkids, -, hloop⟩
      · rw [heq] at hloop
        cases (Prod.mk.inj (some.inj hloop)).2
      · rw [heq] at hloop
        have hca := some.inj (Prod.mk.inj (some.inj hloop)).2
        exact ht.ne_of_mem ha (by rw [hkids]; simp) hca.symm
    | linked l1 l2 _ hkids hgap => exact .inr (.inl ⟨l1, l2, heq, hfits, hkids, hgap⟩)
    | conflict l1 c l2 _ hkids _ =>
      refine .inr (.inr ⟨c, by rw [hkids]; simp, heq, hfits, ?_⟩)
      exact requestLoop_conflict a new (kids a) (.child a) (ht.chain a ha) hlive heq
  · obtain ⟨res, heq, hres⟩ := requestResource'_spec ht ha hnew
    cases hres with
    | refused => exact .inl ⟨heq, hfits⟩
    | linked _ _ hf _ _ => exact absurd hf hfits
    | conflict _ _ _ hf _ _ => exact absurd hf hfits

/-- The range of `new` is inside `a`, and below `a` it meets no busy resource and only such
other ones that contain it. -/
structure Admissible (h : Heap α bits) (kids : α → List α) (a new : α) : Prop where
  fits : Fits h a new
  busy : ∀ c, Reach kids a c → c ≠ a → Busy h c → Apart h new c
  other : ∀ c, Reach kids a c → c ≠ a → ¬ Busy h c → Fits h c new ∨ Apart h new c

/-- The loop of `__request_region` links the region exactly if it is admissible, under a
resource that is not busy. -/
theorem regionLoop_succeeds_iff (ht : Tree h root kids) (ha : Reach kids root a)
    (hlive : h.live new = true) :
    (¬ Admissible h kids a new ∧ regionLoop h a new = some (h.kfree new, none)) ∨
    (Admissible h kids a new ∧ ∃ b l1 l2, Reach kids a b ∧ (b = a ∨ ¬ Busy h b) ∧
      regionLoop h a new =
        some (h.link b new (endLoc sibling (.child b) l1), some new) ∧
      Fits h b new ∧ kids b = l1 ++ l2 ∧ Gap h new l1 [] l2) := by
  refine ht.induction ha fun a ha ih => ?_
  rw [regionLoop]
  rcases requestResource'_cases ht ha hlive with
    ⟨heq, hfits⟩ | ⟨l1, l2, heq, hfits, hkids, hgap⟩ | ⟨c, hc, heq, hfits, hmeet⟩
  · rw [heq]
    exact .inl ⟨fun hadm => hfits hadm.fits, if_neg (by simp)⟩
  · rw [heq]
    -- nothing below `a` meets the range
    have hapart (d) (hd : Reach kids a d) (hne : d ≠ a) : Apart h new d := by
      obtain ⟨e, he, hreach⟩ := (reach_cases hd).resolve_left hne
      refine ht.apart_of_reach (ha.tail he) hreach ?_
      rw [hkids] at he
      rcases mem_append.mp he with he | he
      · exact .inr (hgap.before e he)
      · exact .inl (hgap.after e he)
    exact .inr ⟨⟨hfits, fun d hd hne _ => hapart d hd hne, fun d hd hne _ => .inr (hapart d hd hne)⟩,
      a, l1, l2, .refl, .inl rfl, rfl, hfits, hkids, hgap⟩
  · rw [heq]
    have hca : c ≠ a := ht.ne_of_mem ha hc
    have hac : Reach kids a c := .single hc
    simp only [bind_eq_bind, bind_some]
    by_cases hbusy : h.flags c &&& IORESOURCE_BUSY = 0
    · rw [if_pos ⟨hca, hbusy⟩]
      have hnb : ¬ Busy h c := fun hb => hb hbusy
      rcases ih c hc with
        ⟨hnot, hloop⟩ | ⟨hadm, b, l1, l2, hb, hbb, hloop, hrest⟩
      · refine .inl ⟨fun hadm => hnot ⟨?_, ?_, ?_⟩, hloop⟩
        · exact (hadm.other c hac hca hnb).resolve_right hmeet
        · intro d hd hne
          exact hadm.busy d (hac.trans hd) (ht.ne_of_below ha hc hd)
        · intro d hd hne
          exact hadm.other d (hac.trans hd) (ht.ne_of_below ha hc hd)
      refine .inr ⟨⟨hfits, ?_, ?_⟩, b, l1, l2, hac.trans hb, .inr ?_, hloop, hrest⟩
      · intro d hd hne hdb
        rcases ht.below_cases ha hc hadm.fits hd hne with rfl | hcd | hap
        · exact absurd hdb hnb
        · exact hadm.busy d hcd.1 hcd.2 hdb
        · exact hap
      · intro d hd hne hdb
        rcases ht.below_cases ha hc hadm.fits hd hne with rfl | hcd | hap
        · exact .inl hadm.fits
        · exact hadm.other d hcd.1 hcd.2 hdb
        · exact .inr hap
      · rcases hbb with rfl | hbb
        · exact hnb
        · exact hbb
    · rw [if_neg fun hand => hbusy hand.2]
      exact .inl ⟨fun hadm => hmeet (hadm.busy c hac hca hbusy), rfl⟩

end

/-! ## What a graft and a pruning do to the set of resources -/

section

variable [DecidableEq α] {a b new old : α} {l1 l2 : List α}

theorem reach_graftKids_iff (ha : Reach kids root a) (hkids : kids a = l1 ++ l2)
    (hnew : ¬ Reach kids root new) :
    Reach (graftKids kids a new l1 [] l2) root b ↔ Reach kids root b ∨ b = new := by
  have hne : new ≠ a := fun heq => hnew (heq ▸ ha)
  have hkeep : ∀ {c}, Reach kids root c → Reach (graftKids kids a new l1 [] l2) root c := by
    intro c hc
    induction hc with
    | refl => exact .refl
    | @tail c d hc hd ih =>
      refine ih.tail ?_
      by_cases hca : c = a
      · subst hca
        rw [hkids] at hd
        rw [graftKids_self]
        exact ((List.sublist_cons_self new l2).append_left l1).subset hd
      · have hcn : c ≠ new := fun heq => hnew (heq ▸ hc)
        rwa [graftKids_of_ne hca hcn]
  constructor
  · exact reach_graftKids ha (by rw [hkids]; rfl) hne
  · rintro (hb | rfl)
    · exact hkeep hb
    · refine (hkeep ha).tail ?_
      rw [graftKids_self]
      simp

/-- Without a resource that has no children, all others are still there. -/
theorem reach_prune_iff (ht : Tree h root kids) (ha : Reach kids root a)
    (hkids : kids a = l1 ++ old :: l2) (hleaf : kids old = []) :
    Reach (update kids a (l1 ++ l2)) root b ↔ Reach kids root b ∧ b ≠ old := by
  have hold : old ∈ kids a := by rw [hkids]; simp
  have hnodup := ht.nodup ha
  rw [hkids] at hnodup
  have hmem (c d) (hc : Reach kids root c) :
      (d ∈ update kids a (l1 ++ l2) c ↔ d ∈ kids c ∧ d ≠ old) := by
    by_cases hca : c = a
    · subst hca
      have hnot : old ∉ l1 ++ l2 := (List.nodup_middle.mp hnodup).notMem
      rw [update_self, hkids]
      constructor
      · intro hd
        refine ⟨?_, fun heq => hnot (heq ▸ hd)⟩
        exact ((List.sublist_cons_self old l2).append_left l1).subset hd
      · rintro ⟨hd, hne⟩
        rcases mem_append.mp hd with hd | hd
        · exact List.mem_append_left _ hd
        · exact List.mem_append_right _ ((mem_cons.mp hd).resolve_left hne)
    · rw [update_of_ne hca]
      refine ⟨fun hd => ⟨hd, ?_⟩, fun hd => hd.1⟩
      rintro rfl
      exact hca (ht.parent_unique hc ha hd hold)
  constructor
  · intro hb
    induction hb with
    | refl =>
      refine ⟨.refl, ?_⟩
      rintro rfl
      exact ht.root_notMem ha hold
    | tail _ hd ih =>
      have := (hmem _ _ ih.1).mp hd
      exact ⟨ih.1.tail this.1, this.2⟩
  · rintro ⟨hb, hne⟩
    induction hb with
    | refl => exact .refl
    | @tail c d hc hd ih =>
      have hco : c ≠ old := by
        rintro rfl
        rw [hleaf] at hd
        cases hd
      exact (ih hco).tail ((hmem c d hc).mpr ⟨hd, hne⟩)

end

/-! ## Releasing -/

section

variable [DecidableEq α] {res : α}

/-- The loop of `__release_region` finds a busy region, wherever it is below. -/
theorem releaseRegionLoop_finds {a : α} (ht : Tree h root kids) (ha : Reach kids root a) (hbusy : Busy h res)
    (hleaf : ∀ a, Reach kids root a → a ≠ root → Busy h a → kids a = []) : ∀ (l2 l1 : List α),
    kids a = l1 ++ l2 → (∃ c ∈ l2, Reach kids c res) →
    ∃ b m1 m2, Reach kids root b ∧ kids b = m1 ++ res :: m2 ∧
      releaseRegionLoop h (h.start res) (h.end_ res) (endLoc sibling (.child a) l1) =
        some ((h.setSlot (endLoc sibling (.child b) m1) (h.slot (.sibling res))).kfree res,
          true) := by
  refine ht.induction ha fun a ha ihn l2 => ?_
  induction l2 with
  | nil => rintro l1 _ ⟨c, hc, -⟩; cases hc
  | cons c l2 ih =>
    intro l1 hkids hbelow
    have hchain := ht.chain a ha
    rw [hkids, chain_append, chain_cons] at hchain
    have hc : c ∈ kids a := by rw [hkids]; simp
    have hcroot : c ≠ root := fun heq => ht.root_notMem ha (heq ▸ hc)
    rw [releaseRegionLoop, hchain.2.1]
    simp only [ht.live c (ha.tail hc), if_true]
    by_cases hcr : Reach kids c res
    · have hin := ht.inside_of_reach (ha.tail hc) hcr
      rw [if_pos ⟨hin.1, hin.2⟩]
      by_cases hcb : h.flags c &&& IORESOURCE_BUSY = 0
      · rw [if_pos hcb]
        have hne : res ≠ c := by
          rintro rfl
          exact hbusy hcb
        exact ihn c hc (kids c) [] rfl ((reach_cases hcr).resolve_left hne)
      · rw [if_neg hcb]
        -- a busy resource has no children, so it is the region itself
        have hnil := hleaf c (ha.tail hc) hcroot hcb
        rcases reach_cases hcr with rfl | ⟨d, hd, -⟩
        · exact ⟨a, l1, l2, ha, hkids, if_neg (by simp)⟩
        · rw [hnil] at hd
          cases hd
    · obtain ⟨d, hd, hdr⟩ := hbelow
      have hd' : d ∈ l2 := by
        rcases mem_cons.mp hd with rfl | hd
        · exact absurd hdr hcr
        · exact hd
      have hda : d ∈ kids a := by rw [hkids]; simp [hd']
      have hapart := ht.apart_of_mem ha hc hda fun heq => hcr (heq ▸ hdr)
      have hin := ht.inside_of_reach (ha.tail hda) hdr
      have hord := ht.ordered res ((ha.tail hda).trans hdr)
      have hnot : ¬ (h.start c ≤ h.start res ∧ h.end_ c ≥ h.end_ res) := by
        unfold Apart at hapart
        bv_omega
      rw [if_neg hnot]
      have hnext := ih (l1 ++ [c]) (by rw [hkids]; simp) ⟨d, hd', hdr⟩
      rw [endLoc_append] at hnext
      exact hnext

end

/-! ## Bookkeeping -/

/-- A region that has been requested: its memory, start and size. -/
structure Region (α : Type) (bits : Nat) where
  res : α
  start : BitVec bits
  n : BitVec bits

/-- `start + n - 1` -/
def Region.last (r : Region α bits) : BitVec bits := r.start + r.n - 1

/-- The busy resources of the tree are the regions `live`. -/
structure Regions (h : Heap α bits) (root : α) (kids : α → List α) (live : List (Region α bits)) :
    Prop where
  tree : Tree h root kids
  busy : ∀ a, (Reach kids root a ∧ a ≠ root ∧ Busy h a) ↔ ∃ r ∈ live, r.res = a
  range : ∀ r ∈ live, h.start r.res = r.start ∧ h.end_ r.res = r.last
  leaf : ∀ r ∈ live, kids r.res = []
  apart : live.Pairwise fun r r' => r.last < r'.start ∨ r'.last < r.start

/-- A region of `n` addresses from `start` on may be requested. -/
structure Requestable (h : Heap α bits) (root : α) (kids : α → List α)
    (live : List (Region α bits)) (start n : BitVec bits) : Prop where
  nonempty : start ≤ start + n - 1
  inside : h.start root ≤ start ∧ start + n - 1 ≤ h.end_ root
  /-- it straddles no boundary of a resource that is not busy -/
  other : ∀ c, Reach kids root c → c ≠ root → ¬ Busy h c →
    (h.start c ≤ start ∧ start + n - 1 ≤ h.end_ c) ∨ start + n - 1 < h.start c ∨ h.end_ c < start
  busy : ∀ r ∈ live, start + n - 1 < r.start ∨ r.last < start

section

variable {h' : Heap α bits} {live : List (Region α bits)} {r r' : Region α bits}

theorem Regions.ordered (hr : Regions h root kids live) {r : Region α bits} (hmem : r ∈ live) :
    r.start ≤ r.last := by
  obtain ⟨hreach, -, -⟩ := (hr.busy r.res).mpr ⟨r, hmem, rfl⟩
  have hord := hr.tree.ordered _ hreach
  rwa [(hr.range r hmem).1, (hr.range r hmem).2] at hord

theorem Regions.apart_of_ne (hr : Regions h root kids live) (hmem : r ∈ live)
    (hmem' : r' ∈ live) (hne : r' ≠ r) : r.last < r'.start ∨ r'.last < r.start := by
  have hpairs := hr.apart
  obtain ⟨l1, l2, rfl⟩ := List.append_of_mem hmem
  obtain ⟨-, h2, h12⟩ := List.pairwise_append.mp hpairs
  rcases mem_append.mp hmem' with hmem' | hmem'
  · exact (h12 r' hmem' r (mem_cons_self ..)).symm
  · exact (List.pairwise_cons.mp h2).1 r' ((mem_cons.mp hmem').resolve_left hne)

/-- Two regions with the same range are one. -/
theorem Regions.unique (hr : Regions h root kids live) (hmem : r ∈ live)
    (hmem' : r' ∈ live) (hstart : r'.start = r.start) (hn : r'.n = r.n) : r' = r := by
  by_contra hne
  have hord := hr.ordered hmem
  have hlast : r'.last = r.last := by rw [Region.last, Region.last, hstart, hn]
  have := hr.apart_of_ne hmem hmem' hne
  bv_omega

/-- Memory outside the tree does not matter. -/
theorem Regions.frame (hr : Regions h root kids live) (hsame : Unchanged h h' root kids) :
    Regions h' root kids live where
  tree := hr.tree.frame hsame
  busy a := by
    rw [← hr.busy a]
    refine and_congr_right fun ha => ?_
    rw [Busy, Busy, (hsame a ha).flags]
  range r hmem := by
    have hreach := ((hr.busy r.res).mpr ⟨r, hmem, rfl⟩).1
    rw [(hsame _ hreach).start, (hsame _ hreach).end_]
    exact hr.range r hmem
  leaf := hr.leaf
  apart := hr.apart

end

section

variable [DecidableEq α] {live : List (Region α bits)}

section

variable (hr : Regions h root kids live)
include hr

/-- A region that is linked under a resource that is not busy is one more. -/
theorem Regions.link {r : Region α bits} (hnew : ¬ Reach kids root r.res)
    (hlive : h.live r.res = true) (hchild : h.slot (.child r.res) = none) (hbusy : Busy h r.res)
    (hrange : h.start r.res = r.start ∧ h.end_ r.res = r.last)
    (hapart : ∀ r' ∈ live, r.last < r'.start ∨ r'.last < r.start) {b : α} {l1 l2 : List α}
    (hb : Reach kids root b) (hnb : b = root ∨ ¬ Busy h b) (hfits : Fits h b r.res)
    (hkids : kids b = l1 ++ l2) (hgap : Gap h r.res l1 [] l2) :
    Regions (h.link b r.res (endLoc sibling (.child b) l1)) root
      (graftKids kids b r.res l1 [] l2) (r :: live) := by
  have hne : r.res ≠ b := fun heq => hnew (heq ▸ hb)
  have hnroot : r.res ≠ root := fun heq => hnew (heq ▸ .refl)
  have hold : ∀ r' ∈ live, Reach kids root r'.res ∧ r'.res ≠ root ∧ Busy h r'.res :=
    fun r' hmem => (hr.busy r'.res).mpr ⟨r', hmem, rfl⟩
  refine ⟨hr.tree.graft hb hkids hnew hlive hfits hgap (link_grafted hr.tree hb hnew hchild hkids),
    fun a => ?_, fun r' hmem => ?_, fun r' hmem => ?_, List.pairwise_cons.mpr ⟨hapart, hr.apart⟩⟩
  · rw [reach_graftKids_iff hb hkids hnew]
    constructor
    · rintro ⟨ha | rfl, hroot, hab⟩
      · obtain ⟨r', hmem, heq⟩ := (hr.busy a).mp ⟨ha, hroot, hab⟩
        exact ⟨r', List.mem_cons_of_mem _ hmem, heq⟩
      · exact ⟨r, mem_cons_self .., rfl⟩
    · rintro ⟨r', hmem, rfl⟩
      rcases mem_cons.mp hmem with rfl | hmem
      · exact ⟨.inr rfl, hnroot, hbusy⟩
      · obtain ⟨h1, h2, h3⟩ := hold r' hmem
        exact ⟨.inl h1, h2, h3⟩
  · rcases mem_cons.mp hmem with rfl | hmem
    · exact hrange
    · exact hr.range r' hmem
  · rcases mem_cons.mp hmem with rfl | hmem
    · exact graftKids_new hne
    · obtain ⟨h1, h2, h3⟩ := hold r' hmem
      have hrb : r'.res ≠ b := by
        rintro rfl
        rcases hnb with hroot | hnb
        · exact h2 hroot
        · exact hnb h3
      have hrr : r'.res ≠ r.res := fun heq => hnew (heq ▸ h1)
      rw [graftKids_of_ne hrb hrr]
      exact hr.leaf r' hmem

/-- `__request_region` with memory for the region. -/
theorem requestRegion_regions (start n : BitVec bits) {res : α} (hfresh : h.live res = false) :
    (¬ Requestable h root kids live start n ∧ ∃ h',
      requestRegion h root start n (some res) = some (h', none) ∧ Regions h' root kids live) ∨
    (Requestable h root kids live start n ∧ ∃ h' kids',
      requestRegion h root start n (some res) = some (h', some res) ∧
        Regions h' root kids' (⟨res, start, n⟩ :: live)) := by
  have hnew : ¬ Reach kids root res := by
    intro hreach
    have hlive := hr.tree.live res hreach
    rw [hfresh] at hlive
    cases hlive
  -- the heap in which the new record has been filled in
  let h1 := ((h.kzalloc res).setRange res start (start + n - 1)).setFlags res IORESOURCE_BUSY
  have hsame : Unchanged h h1 root kids := ((kzalloc_unchanged hnew).trans
    (setRange_unchanged hnew start (start + n - 1))).trans (setFlags_unchanged hnew IORESOURCE_BUSY)
  have hr1 := hr.frame hsame
  have hlive1 : h1.live res = true := update_self ..
  have hchild1 : h1.slot (.child res) = none := kzalloc_child
  have hstart1 : h1.start res = start := update_self ..
  have hend1 : h1.end_ res = start + n - 1 := update_self ..
  have hflags1 : h1.flags res = IORESOURCE_BUSY := update_self ..
  have hbusy1 : Busy h1 res := by
    rw [Busy, hflags1]
    decide
  have hiff : Admissible h1 kids root res ↔ Requestable h root kids live start n := by
    have hlast : ∀ r ∈ live, h1.start r.res = r.start ∧ h1.end_ r.res = r.last := hr1.range
    constructor
    · rintro ⟨⟨h2, h3, h4⟩, hb, ho⟩
      rw [hstart1, hend1] at h2
      rw [hstart1, (hsame root .refl).start] at h3
      rw [hend1, (hsame root .refl).end_] at h4
      refine ⟨h2, ⟨h3, h4⟩, fun c hc hne hcb => ?_, fun r hmem => ?_⟩
      · have hcb1 : ¬ Busy h1 c := by rwa [Busy, (hsame c hc).flags]
        rcases ho c hc hne hcb1 with ⟨-, hin⟩ | hap
        · rw [hstart1, hend1, (hsame c hc).start, (hsame c hc).end_] at hin
          exact .inl hin
        · rw [Apart, hstart1, hend1, (hsame c hc).start, (hsame c hc).end_] at hap
          exact .inr hap
      · obtain ⟨hc, hne, hcb⟩ := (hr1.busy r.res).mpr ⟨r, hmem, rfl⟩
        have hap := hb r.res hc hne hcb
        rwa [Apart, hstart1, hend1, (hlast r hmem).1, (hlast r hmem).2] at hap
    · rintro ⟨h2, ⟨h3, h4⟩, ho, hb⟩
      refine ⟨⟨?_, ?_, ?_⟩, fun c hc hne hcb => ?_, fun c hc hne hcb => ?_⟩
      · rwa [hstart1, hend1]
      · rwa [hstart1, (hsame root .refl).start]
      · rwa [hend1, (hsame root .refl).end_]
      · obtain ⟨r, hmem, rfl⟩ := (hr1.busy c).mp ⟨hc, hne, hcb⟩
        have hap := hb r hmem
        rwa [Apart, hstart1, hend1, (hlast r hmem).1, (hlast r hmem).2]
      · have hcb' : ¬ Busy h c := by rwa [Busy, ← (hsame c hc).flags]
        rcases ho c hc hne hcb' with hin | hap
        · refine .inl ⟨by rwa [hstart1, hend1], ?_⟩
          rwa [hstart1, hend1, (hsame c hc).start, (hsame c hc).end_]
        · refine .inr ?_
          rwa [Apart, hstart1, hend1, (hsame c hc).start, (hsame c hc).end_]
  rcases regionLoop_succeeds_iff hr1.tree .refl hlive1 with
    ⟨hnot, heq⟩ | ⟨hadm, b, l1, l2, hb, hnb, heq, hfits, hkids, hgap⟩
  · exact .inl ⟨fun hreq => hnot (hiff.mpr hreq), _, heq, hr1.frame (kfree_unchanged hnew)⟩
  · have hreq := hiff.mp hadm
    exact .inr ⟨hreq, _, _, heq, hr1.link (r := ⟨res, start, n⟩) hnew hlive1 hchild1 hbusy1
      ⟨hstart1, hend1⟩ hreq.busy hb hnb hfits hkids hgap⟩

/-- `__release_region` for one of the regions. -/
theorem releaseRegion_regions {r : Region α bits} (hmem : r ∈ live) :
    ∃ h' kids', releaseRegion h root r.start r.n = some (h', true) ∧ h'.live r.res = false ∧
      (∀ a, Reach kids' root a ↔ Reach kids root a ∧ a ≠ r.res) ∧
      ∀ live', (∀ r', r' ∈ live' ↔ r' ∈ live ∧ r' ≠ r) → live'.Sublist live →
        Regions h' root kids' live' := by
  obtain ⟨hreach, hroot, hbusy⟩ := (hr.busy r.res).mpr ⟨r, hmem, rfl⟩
  have hleaf (a) (ha : Reach kids root a) (hne : a ≠ root) (hab : Busy h a) : kids a = [] := by
    obtain ⟨r', hmem', rfl⟩ := (hr.busy a).mp ⟨ha, hne, hab⟩
    exact hr.leaf r' hmem'
  obtain ⟨b, m1, m2, hb, hkids, hloop⟩ := releaseRegionLoop_finds hr.tree .refl hbusy hleaf
    (kids root) [] rfl ((reach_cases hreach).resolve_left hroot)
  rw [(hr.range r hmem).1, (hr.range r hmem).2] at hloop
  have hreach_iff (a) : Reach (update kids b (m1 ++ m2)) root a ↔ Reach kids root a ∧ a ≠ r.res :=
    reach_prune_iff hr.tree hb hkids (hr.leaf r hmem)
  refine ⟨(h.setSlot (endLoc sibling (.child b) m1) (h.slot (.sibling r.res))).kfree r.res, _, ?_,
    update_self .., hreach_iff, fun live' hlive' hsub => ?_⟩
  · unfold releaseRegion
    rw [deref_eq (hr.tree.live root .refl)]
    exact hloop
  · refine ⟨hr.tree.prune hb hkids (unlink_pruned hr.tree hb hkids rfl rfl rfl ?_ ?_), fun a => ?_,
      fun r' hmem' => hr.range r' ((hlive' r').mp hmem').1, fun r' hmem' => ?_,
      hr.apart.sublist hsub⟩
    · intro c hc
      exact update_of_ne hc ..
    · intro c _
      rfl
    · rw [hreach_iff]
      constructor
      · rintro ⟨⟨ha, hne⟩, haroot, hab⟩
        obtain ⟨r', hmem', rfl⟩ := (hr.busy a).mp ⟨ha, haroot, hab⟩
        exact ⟨r', (hlive' r').mpr ⟨hmem', fun heq => hne (heq ▸ rfl)⟩, rfl⟩
      · rintro ⟨r', hmem', rfl⟩
        obtain ⟨hmem', hne⟩ := (hlive' r').mp hmem'
        obtain ⟨h1, h2, h3⟩ := (hr.busy r'.res).mpr ⟨r', hmem', rfl⟩
        refine ⟨⟨h1, fun heq => ?_⟩, h2, h3⟩
        -- the same record would have the same range
        have hapart := hr.apart_of_ne hmem hmem' hne
        have hord := hr.ordered hmem
        have h4 := hr.range r' hmem'
        rw [heq, (hr.range r hmem).1, (hr.range r hmem).2] at h4
        bv_omega
    · obtain ⟨hmem', -⟩ := (hlive' r').mp hmem'
      by_cases hrb : r'.res = b
      · have hnil := hr.leaf r' hmem'
        rw [hrb, hkids] at hnil
        simp at hnil
      · rw [update_of_ne hrb]
        exact hr.leaf r' hmem'

end

end

/-! ## Runs -/

section

/-- The tree, and the regions that have been requested and not yet released. -/
structure RegionState (α : Type) (bits : Nat) where
  heap : Heap α bits
  live : List (Region α bits)

inductive RegionCall (α : Type) (bits : Nat) where
  | request (start n : BitVec bits) (mem : Option α)
  | release (start n : BitVec bits)

variable [DecidableEq α]

/-- `__request_region(root, ..)` and `__release_region(root, ..)`. -/
def regionStep (root : α) (s : RegionState α bits) :
    RegionCall α bits → Option (RegionState α bits × List (Outcome α))
  | .request start n mem => do
      let (h, res) ← requestRegion s.heap root start n mem
      match res with
      | some res => some (⟨h, ⟨res, start, n⟩ :: s.live⟩, [.region (some res)])
      | none => some (⟨h, s.live⟩, [.region none])
  | .release start n => do
      let (h, found) ← releaseRegion s.heap root start n
      some (⟨h, s.live.eraseP fun r => r.start = start ∧ r.n = n⟩, [.warned found])

/-- Memory that is handed out is unused, and what is released has been requested. -/
def RegionAllowed (s : RegionState α bits) : RegionCall α bits → Prop
  | .request _ _ mem => ∀ res ∈ mem, s.heap.live res = false
  | .release start n => ∃ r ∈ s.live, r.start = start ∧ r.n = n

omit [DecidableEq α] in
/-- What a release takes off the list. -/
theorem Regions.mem_eraseP {live : List (Region α bits)} (hr : Regions h root kids live)
    {r : Region α bits} (hmem : r ∈ live) (r' : Region α bits) :
    r' ∈ live.eraseP (fun x => x.start = r.start ∧ x.n = r.n) ↔ r' ∈ live ∧ r' ≠ r := by
  have hnodup : live.Nodup := by
    refine hr.apart.imp_of_mem ?_
    rintro x y hx - hapart rfl
    have := hr.ordered hx
    bv_omega
  obtain ⟨x, l1, l2, hl1, hx, hlive, herase⟩ := List.exists_of_eraseP (p := fun x : Region α bits =>
    decide (x.start = r.start ∧ x.n = r.n)) hmem (by simp)
  have hxr : x = r := by
    have hx' := of_decide_eq_true hx
    exact hr.unique hmem (by rw [hlive]; simp) hx'.1 hx'.2
  subst hxr
  rw [herase, hlive]
  rw [hlive] at hnodup
  have hnot : x ∉ l1 ++ l2 := (List.nodup_middle.mp hnodup).notMem
  simp only [mem_append, mem_cons]
  constructor
  · intro hmem'
    refine ⟨by tauto, ?_⟩
    rintro rfl
    exact hnot (mem_append.mpr hmem')
  · tauto

theorem regionStep_regions {s : RegionState α bits} (hr : Regions s.heap root kids s.live)
    (call : RegionCall α bits) (hallowed : RegionAllowed s call) :
    ∃ s' outs kids', regionStep root s call = some (s', outs) ∧
      Regions s'.heap root kids' s'.live := by
  cases call with
  | request start n mem =>
    cases mem with
    | none => exact ⟨s, _, kids, rfl, hr⟩
    | some res =>
      rcases requestRegion_regions hr start n (hallowed res rfl) with
        ⟨-, h', heq, hr'⟩ | ⟨-, h', kids', heq, hr'⟩
      · refine ⟨⟨h', s.live⟩, [.region none], kids, ?_, hr'⟩
        simp [regionStep, heq]
      · refine ⟨⟨h', _⟩, [.region (some res)], kids', ?_, hr'⟩
        simp [regionStep, heq]
  | release start n =>
    obtain ⟨r, hmem, rfl, rfl⟩ := hallowed
    obtain ⟨h', kids', heq, -, -, hr'⟩ := releaseRegion_regions hr hmem
    refine ⟨⟨h', _⟩, [.warned true], kids', ?_, hr' _ (hr.mem_eraseP hmem) List.eraseP_sublist⟩
    simp [regionStep, heq]

/-- In every state that requests and matching releases lead to from a tree without busy
resources, the busy resources are the regions requested and not yet released, and disjoint.
A request for which there is memory succeeds exactly if it is requestable, and a release
finds and removes its own region and nothing else. -/
theorem region_run_bookkeeping {h₀ : Heap α bits} {kids₀ : α → List α} (ht : Tree h₀ root kids₀)
    (hfree : ∀ a, Reach kids₀ root a → a ≠ root → ¬ Busy h₀ a) {s : RegionState α bits}
    {outs : List (Outcome α)}
    (hrun : RunWith RegionAllowed (regionStep root) ⟨h₀, []⟩ outs s) :
    ∃ kids, Regions s.heap root kids s.live ∧
      (∀ start n res, s.heap.live res = false →
        ∃ h' r, requestRegion s.heap root start n (some res) = some (h', r) ∧
          (r = some res ↔ Requestable s.heap root kids s.live start n) ∧
          (r ≠ some res → r = none)) ∧
      ∀ r ∈ s.live, ∃ h' kids' live', releaseRegion s.heap root r.start r.n = some (h', true) ∧
        h'.live r.res = false ∧ (∀ a, Reach kids' root a ↔ Reach kids root a ∧ a ≠ r.res) ∧
        (∀ r', r' ∈ live' ↔ r' ∈ s.live ∧ r' ≠ r) ∧ Regions h' root kids' live' := by
  have hinv : ∃ kids, Regions s.heap root kids s.live := by
    refine hrun.invariant_of_step ⟨kids₀, ht, fun a => ?_, by simp, by simp, List.Pairwise.nil⟩ ?_
    · constructor
      · rintro ⟨ha, hne, hb⟩
        exact absurd hb (hfree a ha hne)
      · rintro ⟨r, hr, -⟩
        cases hr
    · rintro s call ⟨kids, hr⟩ hallowed
      obtain ⟨s', outs, kids', heq, hr'⟩ := regionStep_regions hr call hallowed
      exact ⟨_, heq, kids', hr'⟩
  obtain ⟨kids, hr⟩ := hinv
  refine ⟨kids, hr, fun start n res hlive => ?_, fun r hmem => ?_⟩
  · rcases requestRegion_regions hr start n hlive with ⟨hnot, h', heq, -⟩ | ⟨hreq, h', _, heq, -⟩
    · exact ⟨h', none, heq, ⟨(fun h => by cases h), fun h => absurd h hnot⟩, fun _ => rfl⟩
    · exact ⟨h', some res, heq, ⟨fun _ => hreq, fun _ => rfl⟩, fun h => absurd rfl h⟩
  · obtain ⟨h', kids', heq, hdead, hreach, hr'⟩ := releaseRegion_regions hr hmem
    exact ⟨h', kids', _, heq, hdead, hreach, hr.mem_eraseP hmem,
      hr' _ (hr.mem_eraseP hmem) List.eraseP_sublist⟩

end

/-! ## Two requests -/

theorem requestRegion_oneRegion :
    requestRegion ioports 0 0x60 16 (some 1) = some (oneRegion, some 1) := by
  simp only [requestRegion]
  rw [regionLoop, requestResource'_empty rfl rfl ⟨by decide, by decide, by decide⟩ rfl]
  rfl

theorem region_run_bookkeeping_ioports : ∃ s outs,
    RunWith RegionAllowed (regionStep 0) ⟨ioports, []⟩ outs s ∧ s.live = [⟨1, 0x60, 16⟩] ∧
    ∃ kids, Regions s.heap 0 kids s.live := by
  have hallowed : RegionAllowed (⟨ioports, []⟩ : RegionState Nat 32)
      (.request 0x60 16 (some 1)) := by
    intro res hres
    obtain rfl := mem_some_iff.mp hres
    rfl
  have hstep : regionStep 0 (⟨ioports, []⟩ : RegionState Nat 32) (.request 0x60 16 (some 1)) =
      some (⟨oneRegion, [⟨1, 0x60, 16⟩]⟩, [.region (some 1)]) := by
    simp only [regionStep, requestRegion_oneRegion]
    rfl
  have hrun := RunWith.tail _ (.refl _) hallowed hstep
  have hfree (a) (ha : Reach (fun _ : Nat => []) 0 a) (hne : a ≠ 0) : ¬ Busy ioports a := by
    rcases reach_cases ha with rfl | ⟨c, hc, -⟩
    · exact absurd rfl hne
    · cases hc
  obtain ⟨kids, hr, -⟩ := region_run_bookkeeping ioports_initial.tree hfree hrun
  exact ⟨_, _, hrun, rfl, kids, hr⟩

/-- A root that covers all addresses. -/
def memoryRoot : Heap Nat 32 := { ioports with end_ := fun _ => 0xffffffff }

/-- No addresses from 0 on are all addresses: `0 + 0 - 1` wraps around. -/
theorem requestRegion_no_addresses : Tree memoryRoot 0 (fun _ => []) ∧
    ∃ h', requestRegion memoryRoot 0 0 0 (some 1) = some (h', some 1) ∧ h'.start 1 = 0 ∧
      h'.end_ 1 = 0xffffffff := by
  refine ⟨Initial.tree ⟨rfl, rfl, by decide⟩, (((memoryRoot.kzalloc 1).setRange 1 0
    0xffffffff).setFlags 1 IORESOURCE_BUSY).link 0 1 (.child 0), ?_, rfl, rfl⟩
  simp only [requestRegion]
  rw [regionLoop, requestResource'_empty rfl rfl ⟨by decide, by decide, by decide⟩ rfl]
  rfl

end LinuxKernel.Kernel.Resource
