/-
  The shape of the resource tree.

  `Tree h root kids` describes the memory in terms of the lists of children: the
  list at `a->child` is `kids a`, the parent pointers agree with it, the ranges of
  siblings are disjoint and in order, and lie inside the range of their parent.
  Two changes of such a tree are enough for all of kernel/resource.c: a resource
  takes the place of a (possibly empty) run of siblings, which become its children
  (`Tree.graft`), and a resource is unlinked (`Tree.prune`).
-/
import LinuxKernel.Kernel.Resource

namespace LinuxKernel.Kernel.Resource

open Foundation Function List Loc

variable {α : Type} {bits : Nat} {kids : α → List α} {h : Heap α bits} {root : α}

/-! ## Trees -/

/-- The resources below `root`, for given lists of children. -/
def Reach (kids : α → List α) (root : α) : α → Prop :=
  Relation.ReflTransGen (fun a c => c ∈ kids a) root

structure Tree (h : Heap α bits) (root : α) (kids : α → List α) : Prop where
  live : ∀ a, Reach kids root a → h.live a = true
  chain : ∀ a, Reach kids root a → Chain Loc.sibling h.slot (.child a) (kids a)
  parent : ∀ a, Reach kids root a → ∀ c ∈ kids a, h.parent c = some a
  ordered : ∀ a, Reach kids root a → h.start a ≤ h.end_ a
  inside : ∀ a, Reach kids root a → ∀ c ∈ kids a,
    h.start a ≤ h.start c ∧ h.end_ c ≤ h.end_ a
  /-- siblings are in order and disjoint -/
  sorted : ∀ a, Reach kids root a → (kids a).Pairwise fun b c => h.end_ b < h.start c
  acyclic : ∃ rank : α → Nat, ∀ a, Reach kids root a → ∀ c ∈ kids a, rank c < rank a

/-- The record at `a` is the same in two memories. -/
structure SameAt (h h' : Heap α bits) (a : α) : Prop where
  live : h'.live a = h.live a
  start : h'.start a = h.start a
  end_ : h'.end_ a = h.end_ a
  flags : h'.flags a = h.flags a
  parent : h'.parent a = h.parent a
  child : h'.slot (.child a) = h.slot (.child a)
  sibling : h'.slot (.sibling a) = h.slot (.sibling a)

/-- All records of the tree are as they were. -/
def Unchanged (h h' : Heap α bits) (root : α) (kids : α → List α) : Prop :=
  ∀ a, Reach kids root a → SameAt h h' a

theorem Unchanged.refl (h : Heap α bits) (root : α) (kids : α → List α) :
    Unchanged h h root kids := fun _ _ => ⟨rfl, rfl, rfl, rfl, rfl, rfl, rfl⟩

theorem Unchanged.trans {h' h'' : Heap α bits} (h1 : Unchanged h h' root kids)
    (h2 : Unchanged h' h'' root kids) : Unchanged h h'' root kids := by
  intro a ha
  have s1 := h1 a ha
  have s2 := h2 a ha
  exact ⟨s2.live.trans s1.live, s2.start.trans s1.start, s2.end_.trans s1.end_,
    s2.flags.trans s1.flags, s2.parent.trans s1.parent, s2.child.trans s1.child,
    s2.sibling.trans s1.sibling⟩

namespace Tree

variable {h' : Heap α bits} {a b c : α}

theorem reach_kid (ha : Reach kids root a) (hc : c ∈ kids a) : Reach kids root c := ha.tail hc

section

variable (ht : Tree h root kids)
include ht

/-- Induction from the children of a resource to the resource. -/
@[elab_as_elim]
theorem induction {motive : α → Prop} {a : α} (ha : Reach kids root a)
    (hstep : ∀ a, Reach kids root a → (∀ c ∈ kids a, motive c) → motive a) : motive a := by
  obtain ⟨rank, hrank⟩ := ht.acyclic
  induction hn : rank a using Nat.strongRecOn generalizing a with
  | ind n ih => exact hstep a ha fun c hc => ih (rank c) (hn ▸ hrank a ha c hc) (ha.tail hc) rfl

section

variable (ha : Reach kids root a)
include ha

theorem nodup : (kids a).Nodup := by
  refine (List.Pairwise.imp_of_mem ?_ (ht.sorted a ha) : List.Pairwise _ _)
  intro b c hb _ hlt heq
  have hle := ht.ordered b (reach_kid ha hb)
  subst heq
  bv_omega

theorem start_sorted : (kids a).Pairwise fun b c => h.start b < h.start c := by
  refine List.Pairwise.imp_of_mem ?_ (ht.sorted a ha)
  intro b c hb _ hlt
  have hle := ht.ordered b (reach_kid ha hb)
  bv_omega

theorem parent_unique (hb : Reach kids root b) (hca : c ∈ kids a) (hcb : c ∈ kids b) : a = b := by
  have hpa := ht.parent a ha c hca
  have hpb := ht.parent b hb c hcb
  rw [hpa] at hpb
  exact Option.some.inj hpb

/-- A resource is not below its children. -/
theorem ne_of_below (hc : c ∈ kids a) (hb : Reach kids c b) : b ≠ a := by
  rintro rfl
  obtain ⟨rank, hrank⟩ := ht.acyclic
  have hle : rank b ≤ rank c := by
    have hroot := ha.tail hc
    clear ha hc
    induction hb with
    | refl => exact Nat.le_refl _
    | tail hb hc ih => exact Nat.le_trans (Nat.le_of_lt (hrank _ (hroot.trans hb) _ hc)) ih
  have hlt := hrank b ha c hc
  omega

/-- The root is nobody's child, and no resource its own. -/
theorem root_notMem : root ∉ kids a := fun hmem => ht.ne_of_below ha hmem ha rfl

theorem ne_of_mem (hc : c ∈ kids a) : c ≠ a := ht.ne_of_below ha hc .refl

theorem locs_nodup : (locs sibling (.child a) (kids a)).Nodup := by
  refine nodup_cons.mpr ⟨by simp, (ht.nodup ha).map ?_⟩
  intro b c heq
  exact sibling.inj heq

end

/-- Only the records of the tree matter. -/
theorem frame (hsame : Unchanged h h' root kids) : Tree h' root kids where
  live a ha := (hsame a ha).live.trans (ht.live a ha)
  chain a ha := (ht.chain a ha).congr (hsame a ha).child
    fun c hc => (hsame c (reach_kid ha hc)).sibling
  parent a ha c hc := (hsame c (reach_kid ha hc)).parent.trans (ht.parent a ha c hc)
  ordered a ha := by
    rw [(hsame a ha).start, (hsame a ha).end_]
    exact ht.ordered a ha
  inside a ha c hc := by
    have hc' := hsame c (reach_kid ha hc)
    rw [(hsame a ha).start, (hsame a ha).end_, hc'.start, hc'.end_]
    exact ht.inside a ha c hc
  sorted a ha := by
    refine (ht.sorted a ha).imp_of_mem ?_
    intro b c hb hc hlt
    rw [(hsame b (reach_kid ha hb)).end_, (hsame c (reach_kid ha hc)).start]
    exact hlt
  acyclic := ht.acyclic

end

end Tree

/-! ## Membership, as the pointers have it -/

/-- `c` is on the list of the children of `a`. -/
def Heap.OnList (h : Heap α bits) (a c : α) : Prop :=
  ∃ l, Segment Loc.sibling h.slot (.child a) (l ++ [c])

/-- `a` can be reached from `root` along the links. -/
def Heap.InTree (h : Heap α bits) (root : α) : α → Prop :=
  Relation.ReflTransGen h.OnList root

theorem Tree.onList_iff {a c : α} (ht : Tree h root kids) (ha : Reach kids root a) :
    h.OnList a c ↔ c ∈ kids a := by
  constructor
  · rintro ⟨l, hl⟩
    exact (ht.chain a ha).mem_of_segment hl c (by simp)
  · intro hc
    obtain ⟨m, r, hkids⟩ := append_of_mem hc
    have hchain := ht.chain a ha
    rw [hkids, show m ++ c :: r = (m ++ [c]) ++ r by simp, chain_append] at hchain
    exact ⟨m, hchain.1⟩

theorem Tree.inTree_iff {a : α} (ht : Tree h root kids) : h.InTree root a ↔ Reach kids root a := by
  constructor
  · intro ha
    induction ha with
    | refl => exact .refl
    | tail _ hc ih => exact ih.tail ((ht.onList_iff ih).mp hc)
  · intro ha
    induction ha with
    | refl => exact .refl
    | tail hb hc ih => exact ih.tail ((ht.onList_iff hb).mpr hc)

/-! ## Grafting -/

section

variable [DecidableEq α] {h' : Heap α bits} {a new old : α} {l₁ mid l₂ : List α}

/-- `new` takes the place of the resources `mid` among the children of `a`. -/
structure Grafted (h h' : Heap α bits) (kids : α → List α) (a new : α)
    (l₁ mid l₂ : List α) : Prop where
  live : h'.live = h.live
  start : h'.start = h.start
  end_ : h'.end_ = h.end_
  chain : Chain Loc.sibling h'.slot (.child a) (l₁ ++ new :: l₂)
  chain_new : Chain Loc.sibling h'.slot (.child new) mid
  child : ∀ b, b ≠ a → b ≠ new → h'.slot (.child b) = h.slot (.child b)
  sibling : ∀ c, c ∉ kids a → c ≠ new → h'.slot (.sibling c) = h.slot (.sibling c)
  parent_new : h'.parent new = some a
  parent_mid : ∀ c ∈ mid, h'.parent c = some new
  parent : ∀ c, c ∉ mid → c ≠ new → h'.parent c = h.parent c

/-- The range of `new` is inside that of `a`. -/
def Fits (h : Heap α bits) (a new : α) : Prop :=
  h.start new ≤ h.end_ new ∧ h.start a ≤ h.start new ∧ h.end_ new ≤ h.end_ a

/-- Where `new` belongs among the children of a resource. -/
structure Gap (h : Heap α bits) (new : α) (l₁ mid l₂ : List α) : Prop where
  before : ∀ b ∈ l₁, h.end_ b < h.start new
  covered : ∀ c ∈ mid, h.start new ≤ h.start c ∧ h.end_ c ≤ h.end_ new
  after : ∀ b ∈ l₂, h.end_ new < h.start b

/-- The lists of children after a graft. -/
def graftKids (kids : α → List α) (a new : α) (l₁ mid l₂ : List α) : α → List α :=
  Function.update (Function.update kids new mid) a (l₁ ++ new :: l₂)

theorem graftKids_self : graftKids kids a new l₁ mid l₂ a = l₁ ++ new :: l₂ := update_self ..

theorem graftKids_new (hne : new ≠ a) : graftKids kids a new l₁ mid l₂ new = mid := by
  rw [graftKids, update_of_ne hne, update_self]

theorem graftKids_of_ne {b : α} (ha : b ≠ a) (hnew : b ≠ new) :
    graftKids kids a new l₁ mid l₂ b = kids b := by
  rw [graftKids, update_of_ne ha, update_of_ne hnew]

/-- The edges after a graft: to `new`, from `new`, and those that were there. -/
theorem mem_graftKids (hkids : kids a = l₁ ++ (mid ++ l₂)) (hne : new ≠ a) {b c : α}
    (hc : c ∈ graftKids kids a new l₁ mid l₂ b) : (b = a ∧ c = new) ∨ (b = new ∧ c ∈ mid) ∨
      b ≠ new ∧ c ∈ kids b ∧ (b = a → c ∈ l₁ ∨ c ∈ l₂) := by
  by_cases hba : b = a
  · subst hba
    rw [graftKids_self, mem_append, mem_cons] at hc
    rcases hc with hc | rfl | hc
    · exact .inr (.inr ⟨Ne.symm hne, by simp [hkids, hc], fun _ => .inl hc⟩)
    · exact .inl ⟨rfl, rfl⟩
    · exact .inr (.inr ⟨Ne.symm hne, by simp [hkids, hc], fun _ => .inr hc⟩)
  · by_cases hbn : b = new
    · subst hbn
      rw [graftKids_new hne] at hc
      exact .inr (.inl ⟨rfl, hc⟩)
    · rw [graftKids_of_ne hba hbn] at hc
      exact .inr (.inr ⟨hbn, hc, fun heq => absurd heq hba⟩)

/-- A graft adds no resource but `new`. -/
theorem reach_graftKids (ha : Reach kids root a) (hkids : kids a = l₁ ++ (mid ++ l₂))
    (hne : new ≠ a) {b : α} (hb : Reach (graftKids kids a new l₁ mid l₂) root b) :
    Reach kids root b ∨ b = new := by
  induction hb with
  | refl => exact .inl .refl
  | tail _ hc ih =>
    rcases mem_graftKids hkids hne hc with ⟨-, rfl⟩ | ⟨rfl, hcm⟩ | ⟨hbn, hc, -⟩
    · exact .inr rfl
    · exact .inl (ha.tail (by simp [hkids, hcm]))
    · exact .inl ((ih.resolve_right hbn).tail hc)

theorem Tree.graft (ht : Tree h root kids) (ha : Reach kids root a)
    (hkids : kids a = l₁ ++ (mid ++ l₂)) (hnew : ¬ Reach kids root new) (hlive : h.live new = true)
    (hfits : Fits h a new) (hgap : Gap h new l₁ mid l₂) (hg : Grafted h h' kids a new l₁ mid l₂) :
    Tree h' root (graftKids kids a new l₁ mid l₂) := by
  have hne : new ≠ a := fun heq => hnew (heq ▸ ha)
  have hold {b : α} (hb : Reach (graftKids kids a new l₁ mid l₂) root b) (hbn : b ≠ new) :
      Reach kids root b := (reach_graftKids ha hkids hne hb).resolve_right hbn
  have hmid (c) (hc : c ∈ mid) : c ∈ kids a := by simp [hkids, hc]
  have hapart : ∀ c ∈ mid, c ∉ l₁ ∧ c ∉ l₂ := by
    have hnodup := ht.nodup ha
    grind
  have hkid {b c : α} (hb : Reach kids root b) (hc : c ∈ kids b) : c ≠ new :=
    fun heq => hnew (heq ▸ hb.tail hc)
  have hsorted := ht.sorted a ha
  rw [hkids] at hsorted
  obtain ⟨hs1, hs2, hs12⟩ := pairwise_append.mp hsorted
  obtain ⟨hsm, hs2, -⟩ := pairwise_append.mp hs2
  refine ⟨?live, ?chain, ?parent, ?ordered, ?inside, ?sorted, ?acyclic⟩
  case live =>
    intro b hb
    rw [hg.live]
    by_cases hbn : b = new
    · rw [hbn, hlive]
    · exact ht.live b (hold hb hbn)
  case chain =>
    intro b hb
    by_cases hba : b = a
    · rw [hba, graftKids_self]
      exact hg.chain
    by_cases hbn : b = new
    · rw [hbn, graftKids_new hne]
      exact hg.chain_new
    rw [graftKids_of_ne hba hbn]
    have hb' := hold hb hbn
    refine (ht.chain b hb').congr (hg.child b hba hbn) ?_
    intro c hc
    refine hg.sibling c ?_ (hkid hb' hc)
    exact fun hca => hba (ht.parent_unique hb' ha hc hca)
  case parent =>
    intro b hb c hc
    rcases mem_graftKids hkids hne hc with ⟨rfl, rfl⟩ | ⟨rfl, hcm⟩ | ⟨hbn, hc, hside⟩
    · exact hg.parent_new
    · exact hg.parent_mid c hcm
    have hb' := hold hb hbn
    have hcm : c ∉ mid := fun hcm => not_or.mpr (hapart c hcm)
      (hside (ht.parent_unique hb' ha hc (hmid c hcm)))
    rw [hg.parent c hcm (hkid hb' hc)]
    exact ht.parent b hb' c hc
  case ordered =>
    intro b hb
    rw [hg.start, hg.end_]
    by_cases hbn : b = new
    · rw [hbn]
      exact hfits.1
    · exact ht.ordered b (hold hb hbn)
  case inside =>
    intro b hb c hc
    rw [hg.start, hg.end_]
    rcases mem_graftKids hkids hne hc with ⟨rfl, rfl⟩ | ⟨rfl, hcm⟩ | ⟨hbn, hc, -⟩
    · exact hfits.2
    · exact hgap.covered c hcm
    · exact ht.inside b (hold hb hbn) c hc
  case sorted =>
    intro b hb
    rw [hg.start, hg.end_]
    by_cases hba : b = a
    · rw [hba, graftKids_self]
      refine pairwise_append.mpr ⟨hs1, pairwise_cons.mpr ⟨hgap.after, hs2⟩, fun c hc => ?_⟩
      exact forall_mem_cons.mpr ⟨hgap.before c hc, (forall_mem_append.mp (hs12 c hc)).2⟩
    · by_cases hbn : b = new
      · rw [hbn, graftKids_new hne]
        exact hsm
      · rw [graftKids_of_ne hba hbn]
        exact ht.sorted b (hold hb hbn)
  case acyclic =>
    obtain ⟨rank, hrank⟩ := ht.acyclic
    -- `new` gets a place between `a` and its former children
    refine ⟨fun x => if x = new then 2 * rank a + 1 else 2 * rank x + 2, fun b hb c hc => ?_⟩
    rcases mem_graftKids hkids hne hc with ⟨rfl, rfl⟩ | ⟨rfl, hcm⟩ | ⟨hbn, hc, -⟩
    · simp [Ne.symm hne]
    · have := hrank a ha c (hmid c hcm)
      simp only [if_true, if_neg (hkid ha (hmid c hcm))]
      omega
    · have := hrank b (hold hb hbn) c hc
      simp only [if_neg hbn, if_neg (hkid (hold hb hbn) hc)]
      omega

/-! ## Pruning -/

/-- `old` is taken off the list of the children of `a`. -/
structure Pruned (h h' : Heap α bits) (kids : α → List α) (a old : α)
    (l₁ l₂ : List α) : Prop where
  live : ∀ b, b ≠ old → h'.live b = h.live b
  start : h'.start = h.start
  end_ : h'.end_ = h.end_
  chain : Chain Loc.sibling h'.slot (.child a) (l₁ ++ l₂)
  child : ∀ b, b ≠ a → h'.slot (.child b) = h.slot (.child b)
  sibling : ∀ c, c ∉ kids a → h'.slot (.sibling c) = h.slot (.sibling c)
  parent : ∀ c, c ≠ old → h'.parent c = h.parent c

theorem Tree.prune (ht : Tree h root kids) (ha : Reach kids root a)
    (hkids : kids a = l₁ ++ old :: l₂) (hp : Pruned h h' kids a old l₁ l₂) :
    Tree h' root (update kids a (l₁ ++ l₂)) := by
  have hsub : ∀ b, (update kids a (l₁ ++ l₂) b).Sublist (kids b) := by
    refine (forall_update_iff kids fun b l => l.Sublist (kids b)).mpr ⟨?_, fun b _ => .refl _⟩
    rw [hkids]
    exact (sublist_cons_self old l₂).append_left l₁
  have hnodup := ht.nodup ha
  rw [hkids] at hnodup
  have holdmem : old ∈ kids a := by rw [hkids]; simp
  -- what remains was there, and `old` is gone
  have hreach {b : α} (hb : Reach (update kids a (l₁ ++ l₂)) root b) :
      Reach kids root b ∧ b ≠ old := by
    induction hb with
    | refl =>
      refine ⟨.refl, ?_⟩
      rintro rfl
      exact ht.root_notMem ha holdmem
    | @tail b c _ hc ih =>
      refine ⟨ih.1.tail ((hsub b).subset hc), ?_⟩
      rintro rfl
      obtain rfl := ht.parent_unique ih.1 ha ((hsub b).subset hc) holdmem
      rw [update_self] at hc
      exact (nodup_middle.mp hnodup).notMem hc
  refine ⟨?live, ?chain, ?parent, ?ordered, ?inside, ?sorted, ?acyclic⟩
  case live =>
    intro b hb
    rw [hp.live b (hreach hb).2]
    exact ht.live b (hreach hb).1
  case chain =>
    intro b hb
    by_cases hba : b = a
    · rw [hba, update_self]
      exact hp.chain
    rw [update_of_ne hba]
    refine (ht.chain b (hreach hb).1).congr (hp.child b hba) ?_
    intro c hc
    exact hp.sibling c fun hca => hba (ht.parent_unique (hreach hb).1 ha hc hca)
  case parent =>
    intro b hb c hc
    rw [hp.parent c (hreach (hb.tail hc)).2]
    exact ht.parent b (hreach hb).1 c ((hsub b).subset hc)
  case ordered =>
    intro b hb
    rw [hp.start, hp.end_]
    exact ht.ordered b (hreach hb).1
  case inside =>
    intro b hb c hc
    rw [hp.start, hp.end_]
    exact ht.inside b (hreach hb).1 c ((hsub b).subset hc)
  case sorted =>
    intro b hb
    rw [hp.start, hp.end_]
    exact (ht.sorted b (hreach hb).1).sublist (hsub b)
  case acyclic =>
    obtain ⟨rank, hrank⟩ := ht.acyclic
    exact ⟨rank, fun b hb c hc => hrank b (hreach hb).1 c ((hsub b).subset hc)⟩

end

end LinuxKernel.Kernel.Resource
