/-
  What the operations of kernel/resource.c do to a tree.

  One specification for each loop, by induction on the list it walks along or on
  the depth it descends to; the operations are then grafts and prunings of the
  tree, or leave it alone.
-/
import LinuxKernel.Kernel.ResourceTree

namespace LinuxKernel.Kernel.Resource

open Foundation Function Loc Option Heap
open List (forall_mem_cons mem_append mem_append_left mem_append_right mem_cons mem_cons_of_mem mem_cons_self
  nodup_append)

variable {α : Type} {bits : Nat} {h : Heap α bits} {root a new : α} {kids : α → List α} {first : α}

theorem deref_eq (hl : h.live a = true) : h.deref a = some () := if_pos hl

variable [DecidableEq α] {l1 l2 : List α} {old : α}

/-! ## `__request_resource` -/

/-- The ways `__request_resource` ends for `new` under a resource `a` of the tree. -/
inductive Requested (h : Heap α bits) (kids : α → List α) (a new : α) :
    Heap α bits × Option α → Prop
  | refused : Requested h kids a new (h, some a)
  | linked (l₁ l₂ : List α) : Fits h a new → kids a = l₁ ++ l₂ → Gap h new l₁ [] l₂ →
      Requested h kids a new (h.link a new (endLoc Loc.sibling (.child a) l₁), none)
  | conflict (l₁ : List α) (c : α) (l₂ : List α) : Fits h a new → kids a = l₁ ++ c :: l₂ →
      (∀ b ∈ l₁, h.end_ b < h.start new) → Requested h kids a new (h, some c)

theorem requestLoop_spec (root new : α) (l : List α) (p : Loc α)
    (hchain : Chain sibling h.slot p l) (hlive : ∀ c ∈ l, h.live c = true)
    (hordered : ∀ c ∈ l, h.start c ≤ h.end_ c)
    (hsorted : l.Pairwise (fun b c => h.end_ b < h.start c)) :
    (∃ l1 l2, l = l1 ++ l2 ∧ Gap h new l1 [] l2 ∧
      requestLoop h root new p = some (h.link root new (endLoc sibling p l1), none)) ∨
      (∃ l1 c l2, l = l1 ++ c :: l2 ∧ (∀ b ∈ l1, h.end_ b < h.start new) ∧
      requestLoop h root new p = some (h, some c)) := by
  induction l generalizing p with
  | nil =>
    refine .inl ⟨[], [], rfl, ⟨by simp, by simp, by simp⟩, ?_⟩
    rw [requestLoop, (chain_nil p).mp hchain]
    rfl
  | cons c l ih =>
    obtain ⟨hp, hrest⟩ := (chain_cons p c l).mp hchain
    rw [forall_mem_cons] at hlive hordered
    have hloop : requestLoop h root new p =
        if h.start c > h.end_ new then some (h.link root new p, none)
        else if h.end_ c < h.start new then requestLoop h root new (.sibling c)
        else some (h, some c) := by
      rw [requestLoop, hp]
      exact if_pos hlive.1
    obtain ⟨hc, hsorted'⟩ := List.pairwise_cons.mp hsorted
    have hcle := hordered.1
    by_cases hafter : h.start c > h.end_ new
    · refine .inl ⟨[], c :: l, rfl, ⟨by simp, by simp, ?_⟩, by rw [hloop, if_pos hafter]; rfl⟩
      refine forall_mem_cons.mpr ⟨hafter, fun b hb => ?_⟩
      have := hc b hb
      bv_omega
    rw [if_neg hafter] at hloop
    by_cases hbefore : h.end_ c < h.start new
    · rw [if_pos hbefore] at hloop
      rw [hloop]
      rcases ih (.sibling c) hrest hlive.2 hordered.2 hsorted' with
        ⟨l1, l2, rfl, hgap, heq⟩ | ⟨l1, b, l2, rfl, hlt, heq⟩
      · refine .inl ⟨c :: l1, l2, rfl, ⟨?_, by simp, hgap.after⟩, heq⟩
        exact forall_mem_cons.mpr ⟨hbefore, hgap.before⟩
      · exact .inr ⟨c :: l1, b, l2, rfl, forall_mem_cons.mpr ⟨hbefore, hlt⟩, heq⟩
    · rw [if_neg hbefore] at hloop
      exact .inr ⟨[], c, l, rfl, by simp, hloop⟩

theorem requestResource'_spec (ht : Tree h root kids) (ha : Reach kids root a)
    (hnew : h.live new = true) :
    ∃ res, requestResource' h a new = some res ∧ Requested h kids a new res := by
  have heq : requestResource' h a new = if h.end_ new < h.start new then some (h, some a)
      else if h.start new < h.start a then some (h, some a)
      else if h.end_ new > h.end_ a then some (h, some a)
      else requestLoop h a new (.child a) := by
    unfold requestResource'
    rw [deref_eq (ht.live a ha), deref_eq hnew]
    rfl
  rw [heq]
  split
  · exact ⟨_, rfl, .refused⟩
  split
  · exact ⟨_, rfl, .refused⟩
  split
  · exact ⟨_, rfl, .refused⟩
  have hfits : Fits h a new := ⟨by bv_omega, by bv_omega, by bv_omega⟩
  rcases requestLoop_spec a new (kids a) (.child a) (ht.chain a ha)
    (fun c hc => ht.live c (ha.tail hc)) (fun c hc => ht.ordered c (ha.tail hc))
    (ht.sorted a ha) with ⟨l1, l2, hkids, hgap, hloop⟩ | ⟨l1, c, l2, hkids, hlt, hloop⟩
  · exact ⟨_, hloop, .linked l1 l2 hfits hkids hgap⟩
  · exact ⟨_, hloop, .conflict l1 c l2 hfits hkids hlt⟩

section

variable {b c : α}

omit [DecidableEq α] in
theorem child_of_endLoc (hb : child b = endLoc sibling (.child a) l1) : b = a := by
  have hmem := endLoc_mem sibling l1 (child a)
  rw [← hb] at hmem
  simpa [locs] using hmem

omit [DecidableEq α] in
theorem sibling_of_endLoc (hc : sibling c = endLoc sibling (.child a) l1) : c ∈ l1 := by
  have hmem := endLoc_mem sibling l1 (child a)
  rw [← hc] at hmem
  simpa [locs] using hmem

end

theorem link_slot (p : Loc α) : (h.link a new p).slot =
    update (update h.slot (.sibling new) (h.slot p)) p (some new) := rfl

section

variable (ht : Tree h root kids) (ha : Reach kids root a) (hnew : ¬ Reach kids root new)
include ht ha hnew

/-- Linking a resource without children is a graft. -/
theorem link_grafted (hchild : h.slot (.child new) = none) (hkids : kids a = l1 ++ l2) :
    Grafted h (h.link a new (endLoc sibling (.child a) l1)) kids a new l1 [] l2 := by
  have hchain := ht.chain a ha
  have hnodup := ht.locs_nodup ha
  have hnewkid : new ∉ kids a := fun hmem => hnew (ha.tail hmem)
  rw [hkids] at hchain hnodup
  refine ⟨rfl, rfl, rfl, ?_, ?_, ?_, ?_, update_self .., by simp, ?_⟩
  · refine hchain.insert hnodup ?_
    rw [← hkids]
    simpa [locs] using hnewkid
  · refine (chain_nil _).mpr ?_
    rw [link_slot, update_of_ne, update_of_ne (by simp), hchild]
    intro heq
    exact hnew (child_of_endLoc heq ▸ ha)
  · intro b hba _
    rw [link_slot, update_of_ne (fun heq => hba (child_of_endLoc heq)), update_of_ne (by simp)]
  · intro c hc hcn
    rw [hkids, mem_append, not_or] at hc
    rw [link_slot, update_of_ne fun heq => hc.1 (sibling_of_endLoc heq),
      update_of_ne (by simpa using hcn)]
  · intro c _ hcn
    exact update_of_ne hcn ..

theorem link_tree (hlive : h.live new = true) (hchild : h.slot (.child new) = none)
    (hkids : kids a = l1 ++ l2) (hfits : Fits h a new) (hgap : Gap h new l1 [] l2) :
    ∃ kids', Tree (h.link a new (endLoc sibling (.child a) l1)) root kids' :=
  ⟨_, ht.graft ha hkids hnew hlive hfits hgap (link_grafted ht ha hnew hchild hkids)⟩

end

/-! ## `__release_resource` -/

theorem releaseLoop_spec : ∀ (l : List α) (p : Loc α),
    Chain sibling h.slot p l → (∀ c ∈ l, h.live c = true) →
    releaseLoop h old p = some (h, some .EINVAL) ∨
    ∃ l1 l2, l = l1 ++ old :: l2 ∧ releaseLoop h old p =
      some ((h.setSlot (endLoc sibling p l1) (h.slot (.sibling old))).setParent old none,
        none) := by
  intro l
  induction l with
  | nil =>
    intro p hchain _
    left
    rw [releaseLoop, (chain_nil p).mp hchain]
  | cons c l ih =>
    intro p hchain hlive
    obtain ⟨hp, hrest⟩ := (chain_cons p c l).mp hchain
    rw [forall_mem_cons] at hlive
    rw [releaseLoop, hp]
    simp only [hlive.1]
    by_cases hc : c = old
    · subst hc
      exact .inr ⟨[], l, rfl, if_pos rfl⟩
    rw [if_neg hc]
    rcases ih (.sibling c) hrest hlive.2 with
      heq | ⟨l1, l2, rfl, heq⟩
    · exact .inl heq
    · exact .inr ⟨c :: l1, l2, rfl, heq⟩

/-- Taking a child off the list is a pruning, whatever becomes of its parent
pointer and of its memory. -/
theorem unlink_pruned (ht : Tree h root kids) (ha : Reach kids root a)
    (hkids : kids a = l1 ++ old :: l2) {h' : Heap α bits}
    (hslot : h'.slot = update h.slot (endLoc sibling (.child a) l1) (h.slot (.sibling old)))
    (hstart : h'.start = h.start) (hend : h'.end_ = h.end_)
    (hlive : ∀ b, b ≠ old → h'.live b = h.live b)
    (hparent : ∀ c, c ≠ old → h'.parent c = h.parent c) : Pruned h h' kids a old l1 l2 := by
  have hchain := ht.chain a ha
  have hnodup := ht.locs_nodup ha
  rw [hkids] at hchain hnodup
  refine ⟨hlive, hstart, hend, ?_, ?_, ?_, hparent⟩
  · rw [hslot]
    exact hchain.remove hnodup
  · intro b hba
    rw [hslot, update_of_ne fun heq => hba (child_of_endLoc heq)]
  · intro c hc
    rw [hkids, mem_append, not_or] at hc
    rw [hslot, update_of_ne fun heq => hc.1 (sibling_of_endLoc heq)]

/-- `release_resource` for a resource whose parent is in the tree. -/
theorem releaseResource_spec (ht : Tree h root kids) (ha : Reach kids root a)
    (hold : h.live old = true) (hparent : h.parent old = some a) :
    releaseResource h old = some (h, some .EINVAL) ∨
    ∃ h' kids', releaseResource h old = some (h', none) ∧ Tree h' root kids' := by
  have heq : releaseResource h old = releaseLoop h old (.child a) := by
    unfold releaseResource releaseResource'
    rw [deref_eq hold, hparent]
    change ((h.deref a).bind fun _ => releaseLoop h old (.child a)) = _
    rw [deref_eq (ht.live a ha)]
    rfl
  rw [heq]
  rcases releaseLoop_spec (kids a) (.child a) (ht.chain a ha)
    (fun c hc => ht.live c (ha.tail hc)) with hloop | ⟨l1, l2, hkids, hloop⟩
  · exact .inl hloop
  refine .inr ⟨_, _, hloop, ht.prune ha hkids (unlink_pruned ht ha hkids rfl rfl rfl ?_ ?_)⟩
  · intro b _
    rfl
  · intro c hc
    exact update_of_ne hc ..

/-! ## `find_resource` -/

/-- `find_resource` changes the range of `new` only. -/
theorem setRange_unchanged (hnew : ¬ Reach kids root new) (s e : BitVec bits) :
    Unchanged h (h.setRange new s e) root kids := by
  intro b hb
  have hbn : b ≠ new := fun heq => hnew (heq ▸ hb)
  exact ⟨rfl, update_of_ne hbn .., update_of_ne hbn .., rfl, rfl, rfl, rfl⟩

theorem findLoop_spec {w : Wish bits} (hnew : ¬ Reach kids root new) (l : List α) (h : Heap α bits)
    (p : Loc α) (start : BitVec bits) (hchain : Chain sibling h.slot p l)
    (hlive : ∀ c ∈ l, h.live c = true) :
    ∃ h' err, findLoop h a new w (h.slot p) start = some (h', err) ∧
      h'.live = h.live ∧ h'.slot = h.slot ∧ Unchanged h h' root kids := by
  induction l generalizing h p start with
  | nil =>
    rw [(chain_nil p).mp hchain, findLoop]
    by_cases hfound : (w.window start (h.end_ a)).1 < (w.window start (h.end_ a)).2 ∧
        (w.window start (h.end_ a)).2 - (w.window start (h.end_ a)).1 ≥ w.size - 1
    · exact ⟨_, _, if_pos hfound, rfl, rfl, setRange_unchanged hnew _ _⟩
    · exact ⟨_, _, if_neg hfound, rfl, rfl, setRange_unchanged hnew _ _⟩
  | cons c l ih =>
    obtain ⟨hp, hrest⟩ := (chain_cons p c l).mp hchain
    rw [forall_mem_cons] at hlive
    rw [hp, findLoop]
    simp only [hlive.1, if_true]
    split
    · exact ⟨_, _, rfl, rfl, rfl, setRange_unchanged hnew _ _⟩
    obtain ⟨h', err, heq, hl, hs, hsame⟩ :=
      ih (h.setRange new (w.window start (h.start c - 1)).1 (w.window start (h.start c - 1)).2)
        (.sibling c) (h.end_ c + 1) hrest hlive.2
    exact ⟨h', err, heq, hl, hs, (setRange_unchanged hnew _ _).trans hsame⟩

/-- `find_resource` has its loop over the children, without a first one that starts at 0. -/
theorem findResource_eq (ht : Tree h root kids) (ha : Reach kids root a) (hlive : h.live new = true)
    (w : Wish bits) : ((∀ c ∈ (kids a).head?, h.start c ≠ 0) ∧
      findResource h a new w = findLoop h a new w (h.slot (.child a)) (h.start a)) ∨
    ∃ c l, kids a = c :: l ∧ h.start c = 0 ∧
      findResource h a new w = findLoop h a new w (h.slot (.sibling c)) (h.end_ c + 1) := by
  have hchain := ht.chain a ha
  unfold findResource
  rw [deref_eq (ht.live a ha), deref_eq hlive]
  cases hk : kids a with
  | nil =>
    rw [hk] at hchain
    rw [(chain_nil _).mp hchain]
    exact .inl ⟨by simp, rfl⟩
  | cons c l =>
    have hc := ht.live c (ha.tail (hk ▸ mem_cons_self))
    rw [hk] at hchain
    rw [((chain_cons _ _ _).mp hchain).1]
    simp only [deref_eq hc]
    by_cases hzero : h.start c = 0
    · exact .inr ⟨c, l, rfl, hzero, if_pos hzero⟩
    · exact .inl ⟨by simpa using hzero, if_neg hzero⟩

theorem findResource_spec (ht : Tree h root kids) (ha : Reach kids root a)
    (hnew : ¬ Reach kids root new) (hlive : h.live new = true) (w : Wish bits) :
    ∃ h' err, findResource h a new w = some (h', err) ∧
      h'.live = h.live ∧ h'.slot = h.slot ∧ Unchanged h h' root kids := by
  have hchain := ht.chain a ha
  have hkids (c) (hc : c ∈ kids a) : h.live c = true := ht.live c (ha.tail hc)
  rcases findResource_eq ht ha hlive w with ⟨-, heq⟩ | ⟨c, l, hk, -, heq⟩
  · rw [heq]
    exact findLoop_spec hnew (kids a) h _ _ hchain hkids
  · rw [hk] at hchain hkids
    rw [heq]
    exact findLoop_spec hnew l h _ _ ((chain_cons _ _ _).mp hchain).2 (forall_mem_cons.mp hkids).2

/-! ## `insert_resource` -/

/-- The ways the descent of `insert_resource` ends. -/
inductive Descended (h : Heap α bits) (root : α) (kids : α → List α) (new : α) :
    Heap α bits × Descent α → Prop
  | requested (b : α) (l₁ l₂ : List α) : Reach kids root b → Fits h b new → kids b = l₁ ++ l₂ →
      Gap h new l₁ [] l₂ →
      Descended h root kids new (h.link b new (endLoc Loc.sibling (.child b) l₁), .requested)
  | refused : Descended h root kids new (h, .refused)
  | above (b : α) (l₁ : List α) (c : α) (l₂ : List α) : Reach kids root b → Fits h b new →
      kids b = l₁ ++ c :: l₂ → (∀ d ∈ l₁, h.end_ d < h.start new) →
      Descended h root kids new (h, .above b c)

theorem insertDescend_spec (ht : Tree h root kids) (ha : Reach kids root a)
    (hnew : h.live new = true) :
    ∃ res, insertDescend h a new = some res ∧ Descended h root kids new res := by
  refine ht.induction ha fun a ha ih => ?_
  rw [insertDescend]
  obtain ⟨res, heq, hres⟩ := requestResource'_spec ht ha hnew
  rw [heq]
  cases hres with
  | refused => exact ⟨_, if_pos rfl, .refused⟩
  | linked l1 l2 hfits hkids hgap => exact ⟨_, rfl, .requested a l1 l2 ha hfits hkids hgap⟩
  | conflict l1 c l2 hfits hkids hlt =>
    have hc : c ∈ kids a := by rw [hkids]; simp
    simp only [bind_eq_bind, bind_some, if_neg (ht.ne_of_mem ha hc)]
    split
    · exact ⟨_, rfl, .above a l1 c l2 ha hfits hkids hlt⟩
    split
    · exact ⟨_, rfl, .above a l1 c l2 ha hfits hkids hlt⟩
    · exact ih c hc

omit [DecidableEq α] in
/-- The second loop finds the last of the resources that `new` covers. -/
theorem insertCover_spec (new : α) (l : List α) (c : α)
    (hchain : Chain sibling h.slot (.sibling c) l) (hlive : ∀ b ∈ c :: l, h.live b = true)
    (hordered : ∀ b ∈ c :: l, h.start b ≤ h.end_ b)
    (hsorted : (c :: l).Pairwise (fun b d => h.end_ b < h.start d)) :
    insertCover h new c = some none ∨
      ∃ m last l2, c :: l = (m ++ [last]) ++ l2 ∧
      (∀ b ∈ m ++ [last], h.start new ≤ h.start b ∧ h.end_ b ≤ h.end_ new) ∧
      (∀ b ∈ l2, h.end_ new < h.start b) ∧ insertCover h new c = some (some last) := by
  induction l generalizing c with
  | nil =>
    rw [insertCover, deref_eq (hlive c mem_cons_self), (chain_nil _).mp hchain]
    by_cases hpart : h.start c < h.start new ∨ h.end_ c > h.end_ new
    · exact .inl (if_pos hpart)
    · refine .inr ⟨[], c, [], rfl, ?_, by simp, if_neg hpart⟩
      simp only [List.nil_append, List.mem_singleton, forall_eq]
      exact ⟨by bv_omega, by bv_omega⟩
  | cons d l ih =>
    obtain ⟨hd, hrest⟩ := (chain_cons _ _ _).mp hchain
    obtain ⟨-, hsorted'⟩ := List.pairwise_cons.mp hsorted
    rw [forall_mem_cons] at hlive hordered
    rw [insertCover, deref_eq hlive.1, hd]
    simp only [deref_eq (hlive.2 d mem_cons_self)]
    by_cases hpart : h.start c < h.start new ∨ h.end_ c > h.end_ new
    · exact .inl (if_pos hpart)
    rw [if_neg hpart]
    have hc : h.start new ≤ h.start c ∧ h.end_ c ≤ h.end_ new := ⟨by bv_omega, by bv_omega⟩
    by_cases hafter : h.start d > h.end_ new
    · refine .inr ⟨[], c, d :: l, rfl, ?_, ?_, if_pos hafter⟩
      · simp only [List.nil_append, List.mem_singleton, forall_eq]
        exact hc
      · refine forall_mem_cons.mpr ⟨hafter, fun b hb => ?_⟩
        have hlt := (List.pairwise_cons.mp hsorted').1 b hb
        have hle := hordered.2 d mem_cons_self
        bv_omega
    · rw [if_neg hafter]
      rcases ih d hrest hlive.2 hordered.2 hsorted' with
        heq | ⟨m, last, l2, hsplit, hcov, hlt, heq⟩
      · exact .inl heq
      · refine .inr ⟨c :: m, last, l2, by rw [hsplit]; rfl, ?_, hlt, heq⟩
        exact forall_mem_cons.mpr ⟨hc, hcov⟩

/-- The third loop, over the resources `l`. -/
theorem reparent_spec (new : α) (l : List α) (h : Heap α bits) (p : Loc α)
    (hchain : Chain sibling h.slot p l) (hlive : ∀ c ∈ l, h.live c = true) :
    reparent h new (h.slot p) =
      some { h with parent := fun x => if x ∈ l then some new else h.parent x } := by
  induction l generalizing h p with
  | nil =>
    rw [(chain_nil p).mp hchain, reparent]
    simp
  | cons c l ih =>
    obtain ⟨hp, hrest⟩ := (chain_cons p c l).mp hchain
    rw [forall_mem_cons] at hlive
    rw [hp, reparent]
    simp only [hlive.1]
    refine (ih (h.setParent c (some new)) (.sibling c) hrest hlive.2).trans ?_
    simp only [Heap.setParent, some.injEq, Heap.mk.injEq, true_and, and_true]
    funext x
    by_cases hxc : x = c <;> simp [hxc]

/-- The last loop finds the resource in front of `first`. -/
theorem insertPrevious_spec : ∀ (m : List α) (next : α),
    Segment sibling h.slot (.sibling next) m →
    h.slot (endLoc sibling (.sibling next) m) = some first → first ∉ m →
    (∀ c ∈ next :: m, h.live c = true) →
    ∃ b, insertPrevious h next first = some b ∧
      sibling b = endLoc sibling (.sibling next) m := by
  intro m
  induction m with
  | nil =>
    intro next _ hend _ hlive
    refine ⟨next, ?_, rfl⟩
    rw [insertPrevious, deref_eq (hlive next mem_cons_self)]
    exact if_pos hend
  | cons c m ih =>
    intro next hseg hend hnot hlive
    obtain ⟨hc, hseg'⟩ := hseg
    obtain ⟨hne, hnot'⟩ : first ≠ c ∧ first ∉ m := by simpa using hnot
    rw [forall_mem_cons] at hlive
    obtain ⟨b, hb, hloc⟩ := ih c hseg' hend hnot' hlive.2
    refine ⟨b, ?_, hloc⟩
    rw [insertPrevious, deref_eq hlive.1, hc]
    have hne' : ¬ some c = some first := by simpa using Ne.symm hne
    simp only [bind_eq_bind, bind_some, if_neg hne', hb]

/-- The links after the four assignments of `insert_resource`. -/
def displaced (slot : Loc α → Option α) (new first last : α) : Loc α → Option α :=
  update (update (update slot (.sibling new) (slot (.sibling last)))
    (.child new) (some first)) (.sibling last) none

section

variable {slot : Loc α → Option α} {last : α}

theorem displaced_last : displaced slot new first last (.sibling last) = none := update_self ..

theorem displaced_child_new : displaced slot new first last (.child new) = some first := by
  rw [displaced, update_of_ne (by simp), update_self]

theorem displaced_sibling_new (hne : new ≠ last) :
    displaced slot new first last (.sibling new) = slot (.sibling last) := by
  rw [displaced, update_of_ne (by simpa using hne), update_of_ne (by simp), update_self]

theorem displaced_child {b : α} (hne : b ≠ new) :
    displaced slot new first last (.child b) = slot (.child b) := by
  rw [displaced, update_of_ne (by simp), update_of_ne (by simpa using hne), update_of_ne (by simp)]

theorem displaced_sibling {c : α} (hnew : c ≠ new) (hlast : c ≠ last) :
    displaced slot new first last (.sibling c) = slot (.sibling c) := by
  rw [displaced, update_of_ne (by simpa using hlast), update_of_ne (by simp),
    update_of_ne (by simpa using hnew)]

end

section

variable (ht : Tree h root kids) (ha : Reach kids root a) (hnew : ¬ Reach kids root new)
include ht ha hnew

/-- The resource that takes the place of `first` to `last`. -/
theorem insertAbove_spec {l1 m l2 : List α} {last : α}
    (hkids : kids a = l1 ++ ((m ++ [last]) ++ l2)) (hfirst : (m ++ [last]).head? = some first) :
    ∃ h', insertAbove h a new first last = some h' ∧
      Grafted h h' kids a new l1 (m ++ [last]) l2 := by
  have hne (b) (hb : Reach kids root b) : b ≠ new := fun heq => hnew (heq ▸ hb)
  have hkid (c) (hc : c ∈ kids a) : c ≠ new := hne c (ha.tail hc)
  have hl1 (c) (hc : c ∈ l1) : c ∈ kids a := by grind
  have hmid (c) (hc : c ∈ m ++ [last]) : c ∈ kids a := by grind
  have hl2 (c) (hc : c ∈ l2) : c ∈ kids a := by grind
  have hlastmem : last ∈ m ++ [last] := by simp
  have hfirstmem : first ∈ m ++ [last] := List.mem_of_head? hfirst
  -- the list of the children of `a`, cut into three
  have hchain := ht.chain a ha
  have hnodup := ht.locs_nodup ha
  have hkn := ht.nodup ha
  rw [hkids] at hchain hnodup hkn
  obtain ⟨hseg1, hrest⟩ := (chain_append _ _ _).mp hchain
  obtain ⟨hseg, hchain2⟩ := (chain_append _ _ _).mp hrest
  obtain ⟨-, hkn2, hapart1⟩ := nodup_append.mp hkn
  obtain ⟨-, -, hapart2⟩ := nodup_append.mp hkn2
  have hlast1 (c) (hc : c ∈ l1) : c ≠ last := hapart1 c hc last (mem_append_left _ hlastmem)
  have hlast2 : ∀ c ∈ l2, c ≠ last := fun c hc heq => hapart2 last hlastmem c hc heq.symm
  have hlocs : locs sibling (.child a) (l1 ++ ((m ++ [last]) ++ l2)) =
      locs sibling (.child a) l1 ++ ((m ++ [last]).map sibling ++ l2.map sibling) := by
    simp [locs]
  rw [hlocs] at hnodup
  obtain ⟨hnd1, hnd2, hndapart⟩ := nodup_append.mp hnodup
  have hq := endLoc_mem sibling l1 (child a)
  generalize hqdef : endLoc sibling (child a) l1 = q at *
  have hendlast : endLoc sibling q (m ++ [last]) = .sibling last := by rw [endLoc_append]; rfl
  rw [hendlast] at hchain2
  have hslotq : h.slot q = some first := by
    obtain ⟨rest, hmlast⟩ := List.head?_eq_some_iff.mp hfirst
    rw [hmlast] at hseg
    exact hseg.1
  -- `q` is a link of `l1`
  have hqchild (b) (hb : child b = q) : b = a := child_of_endLoc (hb.trans hqdef.symm)
  have hqsib (c) (hc : sibling c = q) : c ∈ l1 := sibling_of_endLoc (hc.trans hqdef.symm)
  let s := displaced h.slot new first last
  have hs1 (loc) (hloc : loc ∈ locs sibling (.child a) l1) : s loc = h.slot loc := by
    rcases mem_cons.mp hloc with rfl | hloc
    · exact displaced_child (hne a ha)
    · obtain ⟨c, hc, rfl⟩ := List.mem_map.mp hloc
      exact displaced_sibling (hkid c (hl1 c hc)) (hlast1 c hc)
  have hsq : s q = some first := (hs1 q hq).trans hslotq
  have hschain : Chain sibling s (.child new) (m ++ [last]) := by
    obtain ⟨rest, hmlast⟩ := List.head?_eq_some_iff.mp hfirst
    have hndq : (locs sibling q (m ++ [last])).Nodup := by
      refine List.nodup_cons.mpr ⟨?_, (nodup_append.mp hnd2).1⟩
      exact fun hmem => hndapart q hq q (mem_append_left _ hmem) rfl
    rw [hmlast] at hseg hndq hendlast hmid ⊢
    refine hseg.close hndq (displaced_child_new.trans hslotq.symm) ?_ ?_
    · intro b hb hbl
      rw [hendlast] at hbl
      exact displaced_sibling (hkid b (hmid b hb)) (by simpa using hbl)
    · rw [hendlast]
      exact displaced_last
  -- the heap at the end
  refine ⟨{ h with
    parent := fun x => if x ∈ m ++ [last] then some new else update h.parent new (some a) x
    slot := update s q (some new) }, ?_, ?_⟩
  · let h3 : Heap α bits := { h with parent := update h.parent new (some a), slot := s }
    have hreparent := reparent_spec new (m ++ [last]) h3 (.child new) hschain
      (fun c hc => ht.live c (ha.tail (hmid c hc)))
    have hchild : h3.slot (.child new) = some first := displaced_child_new
    rw [hchild] at hreparent
    have hbody : insertAbove h a new first last = (reparent h3 new (some first)).bind fun h =>
        if h.slot (.child a) = some first then some (h.setSlot (.child a) (some new))
        else (h.slot (.child a)).bind fun next => (insertPrevious h next first).bind fun next =>
          some (h.setSlot (.sibling next) (some new)) := rfl
    rw [hbody, hreparent]
    cases l1 with
    | nil =>
      obtain rfl : child a = q := hqdef
      exact if_pos hsq
    | cons b l1 =>
      have hsb : s (.child a) = some b := (hs1 _ mem_cons_self).trans hseg1.1
      have hbf : first ≠ b := fun heq =>
        hapart1 b mem_cons_self first (mem_append_left _ hfirstmem) heq.symm
      have hfl1 : first ∉ l1 := fun hmem =>
        hapart1 first (mem_cons_of_mem b hmem) first (mem_append_left _ hfirstmem) rfl
      have hsseg : Segment sibling s (.child a) (b :: l1) :=
        hseg1.congr hnd1 fun loc hloc _ => hs1 loc hloc
      obtain ⟨prev, hprev, hloc⟩ := insertPrevious_spec
        (h := { h3 with parent := fun x => if x ∈ m ++ [last] then some new else h3.parent x })
        l1 b hsseg.2 ((congrArg s hqdef).trans hsq) hfl1
        (fun c hc => ht.live c (ha.tail (hl1 c hc)))
      have hne' : ¬ some b = some first := by simpa using Ne.symm hbf
      have hif : ¬ s (.child a) = some first := by rw [hsb]; exact hne'
      refine (if_neg hif).trans ?_
      change ((s (.child a)).bind fun next => _) = _
      rw [hsb, bind_some, hprev, bind_some]
      have hlocq : sibling prev = q := hloc.trans hqdef
      rw [hlocq]
      rfl
  · refine ⟨rfl, rfl, rfl, ?_, ?_, ?_, ?_, ?_, ?_, ?_⟩
    · refine (chain_append _ _ _).mpr ⟨hseg1.congr hnd1 ?_, ?_⟩
      · intro loc hloc hlocq
        rw [hqdef] at hlocq
        exact (update_of_ne hlocq ..).trans (hs1 loc hloc)
      · rw [hqdef]
        refine (chain_cons _ _ _).mpr ⟨update_self .., hchain2.congr ?_ ?_⟩
        · refine (update_of_ne ?_ ..).trans
            (displaced_sibling_new (hkid last (hmid last hlastmem)).symm)
          exact fun heq => hkid new (hl1 new (hqsib new heq)) rfl
        · intro c hc
          refine (update_of_ne ?_ ..).trans (displaced_sibling (hkid c (hl2 c hc)) (hlast2 c hc))
          exact fun heq => hapart1 c (hqsib c heq) c (mem_append_right _ hc) rfl
    · refine hschain.congr (update_of_ne ?_ ..) ?_
      · exact fun heq => hne a ha (hqchild new heq).symm
      · intro c hc
        refine update_of_ne ?_ ..
        exact fun heq => hapart1 c (hqsib c heq) c (mem_append_left _ hc) rfl
    · intro b hba hbn
      exact (update_of_ne (fun heq => hba (hqchild b heq)) ..).trans (displaced_child hbn)
    · intro c hc hcn
      refine (update_of_ne (fun heq => hc (hl1 c (hqsib c heq))) ..).trans
        (displaced_sibling hcn ?_)
      exact fun heq => hc (heq ▸ hmid last hlastmem)
    · refine (if_neg ?_).trans (update_self ..)
      exact fun hmem => hkid new (hmid new hmem) rfl
    · intro c hc
      exact if_pos hc
    · intro c hc hcn
      exact (if_neg hc).trans (update_of_ne hcn ..)

/-- `insert_resource` under a resource of the tree. -/
theorem insertResource_spec (hlive : h.live new = true) (hchild : h.slot (.child new) = none) :
    insertResource h a new = some (h, some .EBUSY) ∨
    ∃ h' kids', insertResource h a new = some (h', none) ∧ Tree h' root kids' := by
  obtain ⟨res, heq, hres⟩ := insertDescend_spec ht ha hlive
  unfold insertResource
  rw [heq]
  cases hres with
  | requested b l1 l2 hb hfits hkids hgap =>
    obtain ⟨kids', htree⟩ := link_tree ht hb hnew hlive hchild hkids hfits hgap
    exact .inr ⟨_, kids', rfl, htree⟩
  | refused => exact .inl rfl
  | above b l1 c l2 hb hfits hkids hlt =>
    have hchain := ht.chain b hb
    have hsorted := ht.sorted b hb
    rw [hkids] at hchain hsorted
    obtain ⟨-, hrest⟩ := (chain_append _ _ _).mp hchain
    have hmem (d) (hd : d ∈ c :: l2) : Reach kids root d :=
      hb.tail (by rw [hkids]; exact mem_append_right _ hd)
    rcases insertCover_spec new l2 c ((chain_cons _ _ _).mp hrest).2
      (fun d hd => ht.live d (hmem d hd)) (fun d hd => ht.ordered d (hmem d hd))
      (List.pairwise_append.mp hsorted).2.1 with
      hcover | ⟨m, last, l2', hsplit, hcov, hafter, hcover⟩
    · simp [hcover]
    right
    have hfirst : (m ++ [last]).head? = some c := by
      have hhead := congrArg List.head? hsplit
      rw [List.head?_append_of_ne_nil _ (by simp)] at hhead
      exact hhead.symm
    rw [hsplit] at hkids
    obtain ⟨h', habove, hg⟩ := insertAbove_spec ht hb hnew hkids hfirst
    refine ⟨h', _, ?_, ht.graft hb hkids hnew hlive hfits ⟨hlt, hcov, hafter⟩ hg⟩
    simp [hcover, habove]

end

/-! ## `allocate_resource` -/

section

variable (ht : Tree h root kids) (ha : Reach kids root a) (hnew : ¬ Reach kids root new)
  (hlive : h.live new = true)
include ht ha hnew hlive

theorem allocateResource_spec (hchild : h.slot (.child new) = none) (w : Wish bits) :
    ∃ h' err, allocateResource h a new w = some (h', err) ∧ (∃ kids', Tree h' root kids') ∧
      (err ≠ none → Unchanged h h' root kids) := by
  obtain ⟨h1, err, hfind, hl, hs, hsame⟩ := findResource_spec ht ha hnew hlive w
  have ht1 := ht.frame hsame
  unfold allocateResource
  rw [hfind]
  cases err with
  | some e => exact ⟨h1, some e, rfl, ⟨kids, ht1⟩, fun _ => hsame⟩
  | none =>
    have hlive1 : h1.live new = true := by rw [hl, hlive]
    have hchild1 : h1.slot (.child new) = none := by rw [hs, hchild]
    obtain ⟨res, heq, hres⟩ := requestResource'_spec ht1 ha hlive1
    simp only [bind_eq_bind, bind_some, heq]
    cases hres with
    | refused | conflict => exact ⟨_, _, rfl, ⟨kids, ht1⟩, fun _ => hsame⟩
    | linked l1 l2 hfits hkids hgap =>
      exact ⟨_, _, rfl, link_tree ht1 ha hnew hlive1 hchild1 hkids hfits hgap, by simp⟩

theorem requestResource_spec (hchild : h.slot (.child new) = none) :
    requestResource h a new = some (h, some .EBUSY) ∨
    ∃ h' kids', requestResource h a new = some (h', none) ∧ Tree h' root kids' := by
  obtain ⟨res, heq, hres⟩ := requestResource'_spec ht ha hlive
  unfold requestResource
  rw [heq]
  cases hres with
  | refused | conflict => exact .inl rfl
  | linked l1 l2 hfits hkids hgap =>
    obtain ⟨kids', htree⟩ := link_tree ht ha hnew hlive hchild hkids hfits hgap
    exact .inr ⟨_, kids', rfl, htree⟩

end

section

variable (ha : h.live a = true) (hnew : h.live new = true) (hfits : Fits h a new)
  (hchild : h.slot (.child a) = none)
include ha hnew hfits hchild

/-- A request under a resource without children. -/
theorem requestResource'_empty :
    requestResource' h a new = some (h.link a new (.child a), none) := by
  obtain ⟨hle, hstart, hend⟩ := hfits
  unfold requestResource'
  rw [deref_eq ha, deref_eq hnew]
  simp only [bind_eq_bind, bind_some]
  rw [if_neg (by bv_omega), if_neg (by bv_omega), if_neg (by bv_omega), requestLoop, hchild]

theorem requestResource_empty : requestResource h a new = some (h.link a new (.child a), none) := by
  unfold requestResource
  rw [requestResource'_empty ha hnew hfits hchild]
  rfl

end

/-- The release of the first child of a resource. -/
theorem releaseResource_first (hold : h.live old = true) (hparent : h.parent old = some a)
    (ha : h.live a = true) (hchild : h.slot (.child a) = some old) : releaseResource h old =
      some ((h.setSlot (.child a) (h.slot (.sibling old))).setParent old none, none) := by
  unfold releaseResource releaseResource'
  simp only [deref_eq hold, hparent, deref_eq ha, bind_eq_bind, bind_some]
  rw [releaseLoop, hchild]
  simp [hold]

/-! ## Regions -/

/-- Memory outside the tree may come and go. -/
theorem kzalloc_unchanged (hnew : ¬ Reach kids root new) :
    Unchanged h (h.kzalloc new) root kids := by
  intro b hb
  have hbn : b ≠ new := fun heq => hnew (heq ▸ hb)
  have hslot (p) (hc : p ≠ child new) (hs : p ≠ sibling new) :
      (h.kzalloc new).slot p = h.slot p := by
    exact (update_of_ne hs ..).trans (update_of_ne hc ..)
  exact ⟨update_of_ne hbn .., update_of_ne hbn .., update_of_ne hbn ..,
    update_of_ne hbn .., update_of_ne hbn ..,
    hslot _ (by simpa using hbn) (by simp), hslot _ (by simp) (by simpa using hbn)⟩

theorem kzalloc_child : (h.kzalloc a).slot (.child a) = none := by simp [Heap.kzalloc]

theorem kfree_unchanged (hnew : ¬ Reach kids root new) : Unchanged h (h.kfree new) root kids := by
  intro b hb
  have hbn : b ≠ new := fun heq => hnew (heq ▸ hb)
  exact ⟨update_of_ne hbn .., rfl, rfl, rfl, rfl, rfl, rfl⟩

theorem setFlags_unchanged (hnew : ¬ Reach kids root new) (flags : BitVec 32) :
    Unchanged h (h.setFlags new flags) root kids := by
  intro b hb
  have hbn : b ≠ new := fun heq => hnew (heq ▸ hb)
  exact ⟨rfl, rfl, rfl, update_of_ne hbn .., rfl, rfl, rfl⟩

section

variable (ht : Tree h root kids) (ha : Reach kids root a)
include ht ha

/-- A region is linked somewhere below the resource it is requested from, or its
memory is freed. -/
theorem regionLoop_spec (hnew : ¬ Reach kids root new) (hlive : h.live new = true)
    (hchild : h.slot (.child new) = none) : regionLoop h a new = some (h.kfree new, none) ∨
    ∃ h' kids', regionLoop h a new = some (h', some new) ∧ Tree h' root kids' := by
  refine ht.induction ha fun a ha ih => ?_
  rw [regionLoop]
  obtain ⟨res, heq, hres⟩ := requestResource'_spec ht ha hlive
  rw [heq]
  cases hres with
  | refused => exact .inl (if_neg (by simp))
  | linked l1 l2 hfits hkids hgap =>
    obtain ⟨kids', htree⟩ := link_tree ht ha hnew hlive hchild hkids hfits hgap
    exact .inr ⟨_, kids', rfl, htree⟩
  | conflict l1 c l2 hfits hkids hlt =>
    have hc : c ∈ kids a := by rw [hkids]; simp
    simp only [bind_eq_bind, bind_some]
    split
    · exact ih c hc
    · exact .inl rfl

theorem requestRegion_spec
    (start n : BitVec bits) {mem : Option α} (hmem : ∀ res ∈ mem, h.live res = false) :
    ∃ h' res, requestRegion h a start n mem = some (h', res) ∧ (∃ kids', Tree h' root kids') ∧
      (res = none → Unchanged h h' root kids) := by
  cases mem with
  | none => exact ⟨h, none, rfl, ⟨kids, ht⟩, fun _ => .refl h root kids⟩
  | some res =>
    have hnew : ¬ Reach kids root res := by
      intro hr
      have hlive := ht.live res hr
      rw [hmem res rfl] at hlive
      cases hlive
    have hsame := ((kzalloc_unchanged (h := h) hnew).trans
      (setRange_unchanged hnew start (start + n - 1))).trans
      (setFlags_unchanged hnew IORESOURCE_BUSY)
    have ht1 := ht.frame hsame
    have hlive1 : (((h.kzalloc res).setRange res start (start + n - 1)).setFlags res
        IORESOURCE_BUSY).live res = true := update_self ..
    have hchild1 : (((h.kzalloc res).setRange res start (start + n - 1)).setFlags res
        IORESOURCE_BUSY).slot (.child res) = none := kzalloc_child
    rcases regionLoop_spec ht1 ha hnew hlive1 hchild1 with heq | ⟨h', kids', heq, htree⟩
    · have hsame' := hsame.trans (kfree_unchanged hnew)
      exact ⟨_, none, heq, ⟨kids, ht.frame hsame'⟩, fun _ => hsame'⟩
    · exact ⟨h', some res, heq, ⟨kids', htree⟩, by simp⟩

/-- The loop of `__release_region` from any place in a list of children on. -/
theorem releaseRegionLoop_spec (start end_ : BitVec bits) : ∀ (l2 l1 : List α), kids a = l1 ++ l2 →
    releaseRegionLoop h start end_ (endLoc sibling (.child a) l1) = some (h, false) ∨
    ∃ h' kids', releaseRegionLoop h start end_ (endLoc sibling (.child a) l1) =
      some (h', true) ∧ Tree h' root kids' := by
  refine ht.induction ha fun a ha ihn l2 => ?_
  induction l2 with
  | nil =>
    intro l1 hkids
    have hchain := ht.chain a ha
    rw [hkids, chain_append] at hchain
    left
    rw [releaseRegionLoop, (chain_nil _).mp hchain.2]
  | cons c l2 ih =>
    intro l1 hkids
    have hchain := ht.chain a ha
    rw [hkids, chain_append, chain_cons] at hchain
    have hc : c ∈ kids a := by rw [hkids]; simp
    rw [releaseRegionLoop, hchain.2.1]
    simp only [ht.live c (ha.tail hc), if_true]
    split
    · split
      · -- not busy: look among the children of `c`
        exact ihn c hc (kids c) [] rfl
      · split
        · exact .inl rfl
        · refine .inr ⟨_, _, rfl, ht.prune ha hkids (unlink_pruned ht ha hkids rfl rfl rfl ?_ ?_)⟩
          · intro b hb
            exact update_of_ne hb ..
          · intro b _
            rfl
    · have hnext := ih (l1 ++ [c]) (by rw [hkids]; simp)
      rw [endLoc_append] at hnext
      exact hnext

theorem releaseRegion_spec (start n : BitVec bits) : releaseRegion h a start n = some (h, false) ∨
    ∃ h' kids', releaseRegion h a start n = some (h', true) ∧ Tree h' root kids' := by
  unfold releaseRegion
  rw [deref_eq (ht.live a ha)]
  exact releaseRegionLoop_spec ht ha start (start + n - 1) (kids a) [] rfl

end

end LinuxKernel.Kernel.Resource
