/-
  Changing the range of a resource in the tree.

  Source: kernel/resource.c, `adjust_resource`.

  The new end is `start + size - 1`, and unlike `__request_resource` the function does
  not compare it with `start`: a range that is empty or wraps around is refused only if
  something else is in the way (`adjustResource_keeps_tree_iff`).
-/
import LinuxKernel.Kernel.ResourceRun

namespace LinuxKernel.Kernel.Resource

open Foundation Function List Heap

variable {α : Type} [DecidableEq α] {bits : Nat}

/-! ## The code -/

omit [DecidableEq α] in
/-- The loop over the children: whether all of them are inside the new range. -/
def Heap.childrenInside (h : Heap α bits) (start end_ : BitVec bits) (tmp : Option α) : Option Bool :=
  match tmp with
  | none => some true
  | some a =>
    if h.live a then
      if h.start a < start ∨ h.end_ a > end_ then some false
      else h |>.childrenInside start end_ (h.slot (.sibling a))
    else none
partial_fixpoint

omit [DecidableEq α] in
/-- `res->sibling && (res->sibling->start <= end)` -/
def siblingInside (h : Heap α bits) (res : α) (end_ : BitVec bits) : Option Bool :=
  match h.slot (.sibling res) with
  | none => some false
  | some sibling => do
    h.deref sibling
    some (decide (h.start sibling ≤ end_))

/-- Whether the resource in front of `res` reaches up to `start`. -/
def previousReaches (h : Heap α bits) (parent res : α) (start : BitVec bits) : Option Bool := do
  let tmp ← h.slot (.child parent)
  if tmp ≠ res then
    let tmp ← insertPrevious h tmp res
    some (decide (start ≤ h.end_ tmp))
  else some false

/-- `adjust_resource` -/
def adjustResource (h : Heap α bits) (res : α) (start size : BitVec bits) :
    Option (Heap α bits × Option Errno) := do
  h.deref res
  let parent ← h.parent res
  h.deref parent
  let end_ := start + size - 1
  if start < h.start parent ∨ end_ > h.end_ parent then some (h, some .EBUSY)
  else
    let inside ← h.childrenInside start end_ (h.slot (.child res))
    if inside = false then some (h, some .EBUSY)
    else
      let next ← siblingInside h res end_
      if next = true then some (h, some .EBUSY)
      else
        let previous ← previousReaches h parent res start
        if previous = true then some (h, some .EBUSY)
        else some (h.setRange res start end_, none)

/-! ## When it refuses -/

variable {h : Heap α bits} {root a res : α} {kids : α → List α} {start end_ : BitVec bits}

omit [DecidableEq α] in
theorem childrenInside_spec (start end_ : BitVec bits) (l : List α) (p : Loc α)
    (hchain : Chain Loc.sibling h.slot p l) (hlive : ∀ c ∈ l, h.live c = true) :
    ∃ inside, h.childrenInside start end_ (h.slot p) = some inside ∧
      (inside = false ↔ ∃ c ∈ l, h.start c < start ∨ h.end_ c > end_) := by
  induction l generalizing p with
  | nil =>
    rw [(chain_nil p).mp hchain, childrenInside]
    exact ⟨true, rfl, by simp⟩
  | cons c l ih =>
    obtain ⟨hp, hrest⟩ := (chain_cons p c l).mp hchain
    rw [hp, childrenInside]
    simp only [hlive c mem_cons_self]
    by_cases hout : h.start c < start ∨ h.end_ c > end_
    · rw [if_pos hout]
      exact ⟨false, rfl, fun _ => ⟨c, mem_cons_self, hout⟩, fun _ => rfl⟩
    · rw [if_neg hout]
      obtain ⟨inside, heq, hiff⟩ := ih (.sibling c) hrest fun b hb => hlive b (mem_cons_of_mem c hb)
      exact ⟨inside, heq, by rw [hiff, exists_mem_cons_iff, or_iff_right hout]⟩

omit [DecidableEq α] in
theorem siblingInside_spec {l : List α} (hchain : Chain Loc.sibling h.slot (.sibling res) l)
    (hlive : ∀ c ∈ l, h.live c = true) (hordered : ∀ c ∈ l, h.start c ≤ h.end_ c)
    (hsorted : l.Pairwise fun b c => h.end_ b < h.start c) (end_ : BitVec bits) :
    ∃ next, siblingInside h res end_ = some next ∧
      (next = true ↔ ∃ b ∈ l, h.start b ≤ end_) := by
  unfold siblingInside
  cases l with
  | nil =>
    rw [(chain_nil _).mp hchain]
    exact ⟨false, rfl, by simp⟩
  | cons c l =>
    rw [((chain_cons _ _ _).mp hchain).1]
    dsimp only
    rw [deref_eq (hlive c mem_cons_self)]
    refine ⟨_, rfl, decide_eq_true_iff.trans ⟨fun hle => ⟨c, mem_cons_self, hle⟩, ?_⟩⟩
    rintro ⟨b, hb, hle⟩
    rcases mem_cons.mp hb with rfl | hb
    · exact hle
    · have hlt := (pairwise_cons.mp hsorted).1 b hb
      have hc := hordered c mem_cons_self
      bv_omega

omit [DecidableEq α] in
theorem eq_concat_of_endLoc {b c : α} {m : List α}
    (h : Loc.sibling b = endLoc Loc.sibling (.sibling c) m) : ∃ m', c :: m = m' ++ [b] := by
  rcases eq_nil_or_concat m with rfl | ⟨m', x, rfl⟩
  · obtain rfl : b = c := Loc.sibling.inj h
    exact ⟨[], rfl⟩
  · rw [concat_eq_append, endLoc_append] at h
    obtain rfl : b = x := Loc.sibling.inj h
    exact ⟨c :: m', by simp⟩

theorem previousReaches_spec {l1 l2 : List α}
    (hchain : Chain Loc.sibling h.slot (.child a) (l1 ++ res :: l2)) (hres : res ∉ l1)
    (hlive : ∀ c ∈ l1, h.live c = true) (hordered : ∀ c ∈ l1, h.start c ≤ h.end_ c)
    (hsorted : l1.Pairwise fun b c => h.end_ b < h.start c) (start : BitVec bits) :
    ∃ previous, previousReaches h a res start = some previous ∧
      (previous = true ↔ ∃ b ∈ l1, start ≤ h.end_ b) := by
  unfold previousReaches
  cases l1 with
  | nil =>
    rw [((chain_cons _ _ _).mp hchain).1]
    exact ⟨false, if_neg (by simp), by simp⟩
  | cons c m =>
    obtain ⟨hc, hrest⟩ := (chain_cons _ _ _).mp hchain
    obtain ⟨hne, hm⟩ : res ≠ c ∧ res ∉ m := by simpa using hres
    obtain ⟨hseg, hend⟩ := (chain_append _ _ _).mp hrest
    obtain ⟨b, hb, hloc⟩ := insertPrevious_spec m c hseg ((chain_cons _ _ _).mp hend).1 hm hlive
    obtain ⟨m', hlast⟩ := eq_concat_of_endLoc hloc
    rw [hc]
    simp only [Option.bind_eq_bind, Option.bind_some, if_pos (Ne.symm hne), hb]
    rw [hlast] at hsorted hordered ⊢
    refine ⟨_, rfl, decide_eq_true_iff.trans ⟨fun hle => ⟨b, by simp, hle⟩, ?_⟩⟩
    rintro ⟨d, hd, hle⟩
    rcases mem_append.mp hd with hd | hd
    · -- the one in front of `res` ends last
      have hlt := (pairwise_append.mp hsorted).2.2 d hd b (by simp)
      have := hordered b (by simp)
      bv_omega
    · rw [mem_singleton.mp hd] at hle
      exact hle

omit [DecidableEq α] in
/-- The siblings behind a child are those that start after its end, and those in front of it
end before its start. -/
theorem Tree.mem_siblings_iff (ht : Tree h root kids) (ha : Reach kids root a) {l1 l2 : List α}
    (hkids : kids a = l1 ++ res :: l2) (b : α) : (b ∈ l2 ↔ b ∈ kids a ∧ h.end_ res < h.start b) ∧
    (b ∈ l1 ↔ b ∈ kids a ∧ h.end_ b < h.start res) := by
  have hsorted := ht.sorted a ha
  have hord (c) (hc : c ∈ kids a) : h.start c ≤ h.end_ c := ht.ordered c (ha.tail hc)
  rw [hkids] at hsorted hord ⊢
  obtain ⟨-, h2, h12⟩ := pairwise_append.mp hsorted
  have hbehind : b ∈ l2 → h.end_ res < h.start b := (pairwise_cons.mp h2).1 b
  have hfront (hb : b ∈ l1) : h.end_ b < h.start res := h12 b hb res (by simp)
  have hres := hord res (by simp)
  refine ⟨⟨fun hb => ⟨by simp [hb], hbehind hb⟩, ?_⟩, fun hb => ⟨by simp [hb], hfront hb⟩, ?_⟩
  · rintro ⟨hb, hlt⟩
    have hle := hord b hb
    rcases mem_append.mp hb with hb | hb
    · have := hfront hb
      bv_omega
    · refine (mem_cons.mp hb).resolve_left ?_
      rintro rfl
      bv_omega
  · rintro ⟨hb, hlt⟩
    have hle := hord b hb
    refine (mem_append.mp hb).resolve_right fun hb => ?_
    rcases mem_cons.mp hb with rfl | hb
    · bv_omega
    · have := hbehind hb
      bv_omega

/-- What is in the way of a new range for the child `res` of `a`: the parent, a child or a
sibling. -/
def InTheWay (h : Heap α bits) (kids : α → List α) (a res : α) (start end_ : BitVec bits) : Prop :=
  start < h.start a ∨ h.end_ a < end_ ∨
    (∃ c ∈ kids res, h.start c < start ∨ end_ < h.end_ c) ∨
    (∃ b ∈ kids a, h.end_ res < h.start b ∧ h.start b ≤ end_) ∨
    ∃ b ∈ kids a, h.end_ b < h.start res ∧ start ≤ h.end_ b

theorem adjustResource_spec (ht : Tree h root kids) (ha : Reach kids root a) (hres : res ∈ kids a)
    (start size : BitVec bits) : (InTheWay h kids a res start (start + size - 1) ∧
      adjustResource h res start size = some (h, some .EBUSY)) ∨
    (¬ InTheWay h kids a res start (start + size - 1) ∧
      adjustResource h res start size = some (h.setRange res start (start + size - 1), none)) := by
  have hr : Reach kids root res := ha.tail hres
  obtain ⟨l1, l2, hkids⟩ := append_of_mem hres
  have hnodup := ht.nodup ha
  have hchain := ht.chain a ha
  have hsorted := ht.sorted a ha
  have hlive (c) (hc : c ∈ kids a) : h.live c = true := ht.live c (ha.tail hc)
  have hord (c) (hc : c ∈ kids a) : h.start c ≤ h.end_ c := ht.ordered c (ha.tail hc)
  have hsib := ht.mem_siblings_iff ha hkids
  have hl1 (c) (hc : c ∈ l1) : c ∈ kids a := ((hsib c).2.mp hc).1
  have hl2 (c) (hc : c ∈ l2) : c ∈ kids a := ((hsib c).1.mp hc).1
  rw [hkids] at hchain hsorted hnodup
  obtain ⟨-, hrest⟩ := (chain_append _ _ _).mp hchain
  obtain ⟨inside, hinside, hinside_iff⟩ :=
    childrenInside_spec start (start + size - 1) (kids res) (.child res) (ht.chain res hr)
      (fun c hc => ht.live c (hr.tail hc))
  obtain ⟨next, hnext, hnext_iff⟩ :=
    siblingInside_spec ((chain_cons _ _ _).mp hrest).2 (fun c hc => hlive c (hl2 c hc))
      (fun c hc => hord c (hl2 c hc)) (pairwise_cons.mp (pairwise_append.mp hsorted).2.1).2
      (start + size - 1)
  have hresl1 : res ∉ l1 := fun hmem => (nodup_append.mp hnodup).2.2 res hmem res (by simp) rfl
  obtain ⟨previous, hprevious, hprevious_iff⟩ :=
    previousReaches_spec hchain hresl1 (fun c hc => hlive c (hl1 c hc))
      (fun c hc => hord c (hl1 c hc)) (pairwise_append.mp hsorted).1 start
  have hbody : adjustResource h res start size =
      if start < h.start a ∨ start + size - 1 > h.end_ a then some (h, some .EBUSY)
      else if inside = false then some (h, some .EBUSY)
      else if next = true then some (h, some .EBUSY)
      else if previous = true then some (h, some .EBUSY)
      else some (h.setRange res start (start + size - 1), none) := by
    unfold adjustResource
    rw [deref_eq (ht.live res hr), ht.parent a ha res hres]
    simp only [Option.bind_eq_bind, Option.bind_some]
    rw [deref_eq (ht.live a ha), hinside, hnext, hprevious]
    rfl
  rw [hbody]
  by_cases h1 : start < h.start a ∨ start + size - 1 > h.end_ a
  · refine .inl ⟨?_, if_pos h1⟩
    exact h1.elim .inl fun hlt => .inr (.inl hlt)
  rw [if_neg h1]
  by_cases h2 : inside = false
  · exact .inl ⟨.inr (.inr (.inl (hinside_iff.mp h2))), if_pos h2⟩
  rw [if_neg h2]
  by_cases h3 : next = true
  · obtain ⟨b, hb, hle⟩ := hnext_iff.mp h3
    obtain ⟨hb, hlt⟩ := (hsib b).1.mp hb
    exact .inl ⟨.inr (.inr (.inr (.inl ⟨b, hb, hlt, hle⟩))), if_pos h3⟩
  rw [if_neg h3]
  by_cases h4 : previous = true
  · obtain ⟨b, hb, hle⟩ := hprevious_iff.mp h4
    obtain ⟨hb, hlt⟩ := (hsib b).2.mp hb
    exact .inl ⟨.inr (.inr (.inr (.inr ⟨b, hb, hlt, hle⟩))), if_pos h4⟩
  rw [if_neg h4]
  refine .inr ⟨?_, rfl⟩
  rintro (hway | hway | hway | ⟨b, hb, hlt, hle⟩ | ⟨b, hb, hlt, hle⟩)
  · exact h1 (.inl hway)
  · exact h1 (.inr hway)
  · exact h2 (hinside_iff.mpr hway)
  · exact h3 (hnext_iff.mpr ⟨b, (hsib b).1.mpr ⟨hb, hlt⟩, hle⟩)
  · exact h4 (hprevious_iff.mpr ⟨b, (hsib b).2.mpr ⟨hb, hlt⟩, hle⟩)

/-! ## The tree afterwards -/

/-- A range that is none, with nothing in the way of it, is not in a tree. -/
theorem setRange_not_tree (hr : Reach kids root res) (hlt : end_ < start) :
    ¬ Tree (h.setRange res start end_) root kids := by
  intro ht
  have hord := ht.ordered res hr
  simp only [Heap.setRange, update_self] at hord
  bv_omega

theorem setRange_tree (ht : Tree h root kids) (ha : Reach kids root a) (hres : res ∈ kids a)
    (hle : start ≤ end_) (hway : ¬ InTheWay h kids a res start end_) :
    Tree (h.setRange res start end_) root kids := by
  have hne (c) (hc : res ∈ kids c) (hreach : Reach kids root c) : c = a :=
    ht.parent_unique hreach ha hc hres
  have hstart : ∀ c, c ≠ res → (h.setRange res start end_).start c = h.start c :=
    fun c hc => update_of_ne hc ..
  have hend : ∀ c, c ≠ res → (h.setRange res start end_).end_ c = h.end_ c :=
    fun c hc => update_of_ne hc ..
  have hstart' : (h.setRange res start end_).start res = start := update_self ..
  have hend' : (h.setRange res start end_).end_ res = end_ := update_self ..
  refine ⟨ht.live, ht.chain, ht.parent, ?ordered, ?inside, ?sorted, ht.acyclic⟩
  case ordered =>
    intro b hb
    by_cases hbr : b = res
    · rw [hbr, hstart', hend']
      exact hle
    · rw [hstart b hbr, hend b hbr]
      exact ht.ordered b hb
  case inside =>
    intro b hb c hc
    by_cases hcr : c = res
    · subst hcr
      obtain rfl := hne b hc hb
      rw [hstart b (Ne.symm (ht.ne_of_mem hb hc)), hend b (Ne.symm (ht.ne_of_mem hb hc))]
      constructor
      · by_contra hout
        exact hway (.inl (by bv_omega))
      · by_contra hout
        exact hway (.inr (.inl (by bv_omega)))
    · rw [hstart c hcr, hend c hcr]
      by_cases hbr : b = res
      · subst hbr
        have hin : ¬ (h.start c < start ∨ end_ < h.end_ c) := fun hout =>
          hway (.inr (.inr (.inl ⟨c, hc, hout⟩)))
        exact ⟨by bv_omega, by bv_omega⟩
      · rw [hstart b hbr, hend b hbr]
        exact ht.inside b hb c hc
  case sorted =>
    intro b hb
    refine (ht.sorted b hb).imp_of_mem ?_
    intro c d hc hd hlt
    by_cases hcr : c = res
    · subst hcr
      obtain rfl := hne b hc hb
      have hdr : d ≠ c := by
        rintro rfl
        have := ht.ordered d (hb.tail hd)
        bv_omega
      rw [hstart d hdr]
      by_contra hle'
      exact hway (.inr (.inr (.inr (.inl ⟨d, hd, hlt, by bv_omega⟩))))
    · rw [hend c hcr]
      by_cases hdr : d = res
      · subst hdr
        obtain rfl := hne b hd hb
        by_contra hle'
        exact hway (.inr (.inr (.inr (.inr ⟨c, hc, hlt, by bv_omega⟩))))
      · rw [hstart d hdr]
        exact hlt

/-- `adjust_resource` returns `-EBUSY` and changes nothing, or returns 0 and leaves a
well-formed tree, exactly if the new range is one, or if the resource has a child or a
parent or sibling is in the way. -/
theorem adjustResource_keeps_tree_iff (ht : Tree h root kids) (ha : Reach kids root a)
    (hres : res ∈ kids a) (start size : BitVec bits) :
    (∃ h' err, adjustResource h res start size = some (h', err) ∧
      (err = some .EBUSY ∧ h' = h ∨ err = none ∧ Tree h' root kids)) ↔
    (start ≤ start + size - 1 ∨ kids res ≠ [] ∨ start < h.start a ∨ h.end_ a < start + size - 1 ∨
      (∃ b ∈ kids a, h.end_ res < h.start b ∧ h.start b ≤ start + size - 1) ∨
      ∃ b ∈ kids a, h.end_ b < h.start res ∧ start ≤ h.end_ b) := by
  have hr : Reach kids root res := ha.tail hres
  rcases adjustResource_spec ht ha hres start size with ⟨hway, heq⟩ | ⟨hway, heq⟩
  · refine ⟨fun _ => ?_, fun _ => ⟨h, _, heq, .inl ⟨rfl, rfl⟩⟩⟩
    unfold InTheWay at hway
    grind
  constructor
  · rintro ⟨h', err, heq', hcases⟩
    rw [heq] at heq'
    obtain ⟨rfl, rfl⟩ := Prod.mk.inj (Option.some.inj heq')
    rcases hcases with ⟨hbusy, -⟩ | ⟨-, htree⟩
    · cases hbusy
    · by_contra hlt
      exact setRange_not_tree hr (by bv_omega) htree
  · intro hcond
    have hle : start ≤ start + size - 1 := by
      rcases hcond with hle | hchild | hway'
      · exact hle
      · obtain ⟨c, hc⟩ := exists_mem_of_ne_nil _ hchild
        have hin : ¬ (h.start c < start ∨ start + size - 1 < h.end_ c) := fun hout =>
          hway (.inr (.inr (.inl ⟨c, hc, hout⟩)))
        have := ht.ordered c (hr.tail hc)
        bv_omega
      · unfold InTheWay at hway
        grind
    exact ⟨_, _, heq, .inr ⟨rfl, setRange_tree ht ha hres hle hway⟩⟩

/-! ## A range that is none -/

section

/-- The region 0x60 to 0x6f, in the memory at 1. -/
def oneRegion : Heap Nat 32 :=
  (((ioports.kzalloc 1).setRange 1 0x60 0x6f).setFlags 1 IORESOURCE_BUSY).link 0 1 (.child 0)

def oneKid : Nat → List Nat := graftKids (fun _ => []) 0 1 [] [] []

theorem oneRegion_tree : Tree oneRegion 0 oneKid := by
  have hnew : ¬ Reach (fun _ => []) 0 1 := by
    intro hr
    cases hr with
    | tail _ hc => cases hc
  have hsame := ((kzalloc_unchanged (h := ioports) hnew).trans
    (setRange_unchanged hnew 0x60 0x6f)).trans (setFlags_unchanged hnew IORESOURCE_BUSY)
  have ht := ioports_initial.tree.frame hsame
  have hkids : ([] : List Nat) = [] ++ [] := rfl
  exact ht.graft .refl rfl hnew rfl ⟨by decide, by decide, by decide⟩
    ⟨by simp, by simp, by simp⟩ (link_grafted ht .refl hnew rfl hkids)

/-- Moved up by 16 and made empty, the region ends before it starts. -/
theorem adjustResource_empty_range : Tree oneRegion 0 oneKid ∧ 1 ∈ oneKid 0 ∧
    adjustResource oneRegion 1 0x70 0 = some (oneRegion.setRange 1 0x70 0x6f, none) ∧
    ¬ ∃ kids, Tree (oneRegion.setRange 1 0x70 0x6f) 0 kids := by
  refine ⟨oneRegion_tree, by decide, ?_, ?_⟩
  · rcases adjustResource_spec oneRegion_tree .refl (show 1 ∈ oneKid 0 by decide) 0x70 0 with
      ⟨hway, -⟩ | ⟨-, heq⟩
    · exact absurd hway (by unfold InTheWay; decide)
    · exact heq
  · rintro ⟨kids, ht⟩
    have hone : 1 ∈ kids 0 := by
      have hhead := (ht.chain 0 .refl).slot_eq
      exact mem_of_head? hhead.symm
    have hord := ht.ordered 1 (Tree.reach_kid .refl hone)
    exact absurd hord (by decide)

theorem adjustResource_keeps_tree_iff_grown :
    Tree oneRegion 0 oneKid ∧ 1 ∈ oneKid 0 ∧ ∃ h' err, adjustResource oneRegion 1 0x50 0x30 =
      some (h', err) ∧ (err = some .EBUSY ∧ h' = oneRegion ∨ err = none ∧ Tree h' 0 oneKid) :=
  ⟨oneRegion_tree, by decide,
    (adjustResource_keeps_tree_iff oneRegion_tree .refl (by decide) 0x50 0x30).mpr
      (.inl (by decide))⟩

end

end LinuxKernel.Kernel.Resource
