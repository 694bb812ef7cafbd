/-
  Which heaps hold which trees, and what the primitive
  heap operations do to the tree they hold.

  `Represents h t` ties the heap of `Lib/Rbtree.lean` to a tree of addresses:
  links, parent pointers and colours are those of `t`, and no address occurs
  twice.  All reasoning about aliasing is in this file.  The files on insertion
  and removal see only the lemmas

      Represents.reads     the fields of a node anywhere in the tree
      Represents.recolor   painting a node
      Represents.rotate    rotating at a node
      Represents.link      hanging a new leaf into an empty place
      Represents.unlink    replacing a node by its only child
      Represents.takePlace putting a node outside the tree in the place of another

  each stated for an arbitrary context, and they rewrite trees only.
-/
import LinuxKernel.Lib.Rbtree

namespace LinuxKernel.Lib.Rbtree

open Foundation Foundation.ColorTree Function List Option RbHeap Ctx

variable {α : Type} {h h' : RbHeap α} {ctx : Ctx α} {f : Frame α} {d : Side} {c : Color}
  {t u l r : ColorTree α} {a : α} {p : Option α}

/-! ## Representation -/

/-- The records of a subtree whose parent is `p`. -/
def Rep (h : RbHeap α) (p : Option α) : ColorTree α → Prop
  | .nil => True
  | .node c l a r =>
    h.live a = true ∧ h.parent a = p ∧ h.color a = c ∧
      h.slot (.child a .left) = l.root ∧ h.slot (.child a .right) = r.root ∧
      Rep h (some a) l ∧ Rep h (some a) r

/-- The heap holds the tree `t`: `root->rb_node` is its root, all records agree
with it, and the addresses are distinct. -/
structure Represents (h : RbHeap α) (t : ColorTree α) : Prop where
  root : h.slot .root = t.root
  rep : Rep h none t
  nodup : t.toList.Nodup

/-- The location of the hole of a context. -/
def hole : Ctx α → Loc α
  | [] => .root
  | f :: _ => .child f.label f.side

@[simp] theorem hole_nil : hole ([] : Ctx α) = .root := rfl
@[simp] theorem hole_cons (f : Frame α) (ctx : Ctx α) :
    hole (f :: ctx) = .child f.label f.side := rfl

/-- The records of a context. -/
def CtxRep (h : RbHeap α) : Ctx α → Prop
  | [] => True
  | f :: ctx =>
    h.live f.label = true ∧ h.parent f.label = Ctx.top ctx ∧ h.color f.label = f.color ∧
      h.slot (hole ctx) = some f.label ∧
      h.slot (.child f.label f.side.opp) = f.sibling.root ∧
      Rep h (some f.label) f.sibling ∧ CtxRep h ctx

theorem rep_sideNode : Rep h p (d.node c t a u) ↔
      h.live a = true ∧ h.parent a = p ∧ h.color a = c ∧
        h.slot (.child a d) = t.root ∧ h.slot (.child a d.opp) = u.root ∧
        Rep h (some a) t ∧ Rep h (some a) u := by
  cases d
  · rfl
  · simp only [Side.node, Rep]
    tauto

/-- A whole tree is represented exactly when the subtree at some hole and the
context around it are. -/
theorem rep_fill_iff (ctx : Ctx α) (t : ColorTree α) :
    (Rep h none (ctx.fill t) ∧ h.slot .root = (ctx.fill t).root) ↔
      CtxRep h ctx ∧ h.slot (hole ctx) = t.root ∧ Rep h ctx.top t := by
  induction ctx generalizing t with
  | nil => tauto
  | cons f ctx ih =>
    rw [fill_cons, ih]
    simp only [Frame.plug, rep_sideNode, root_sideNode, CtxRep]
    tauto

theorem represents_fill_iff : Represents h (ctx.fill t) ↔
      CtxRep h ctx ∧ h.slot (hole ctx) = t.root ∧ Rep h ctx.top t ∧
        (ctx.fill t).toList.Nodup := by
  have hfill := rep_fill_iff (h := h) ctx t
  constructor
  · rintro ⟨hroot, hrep, hnodup⟩
    obtain ⟨h1, h2, h3⟩ := hfill.mp ⟨hrep, hroot⟩
    exact ⟨h1, h2, h3, hnodup⟩
  · rintro ⟨h1, h2, h3, hnodup⟩
    obtain ⟨hrep, hroot⟩ := hfill.mpr ⟨h1, h2, h3⟩
    exact ⟨hroot, hrep, hnodup⟩

/-! ## Frame conditions -/

/-- Two heaps have the same record at `a`. -/
structure SameAt (h h' : RbHeap α) (a : α) : Prop where
  live : h'.live a = h.live a
  parent : h'.parent a = h.parent a
  color : h'.color a = h.color a
  slot : ∀ d, h'.slot (.child a d) = h.slot (.child a d)

/-- A subtree is represented by every heap that has the same records there. -/
theorem Rep.frame : ∀ {t : ColorTree α} {p : Option α},
    Rep h p t → (∀ a ∈ t.toList, SameAt h h' a) → Rep h' p t := by
  intro t
  induction t with
  | nil => intro p _ _; trivial
  | node c l a r ihl ihr =>
    rintro p ⟨hlive, hparent, hcolor, hleft, hright, hl, hr⟩ hsame
    have ha : SameAt h h' a := hsame a (by simp)
    refine ⟨ha.live ▸ hlive, ha.parent ▸ hparent, ha.color ▸ hcolor, ?_, ?_, ?_, ?_⟩
    · rw [ha.slot, hleft]
    · rw [ha.slot, hright]
    · exact ihl hl fun b hb => hsame b (by simp [hb])
    · exact ihr hr fun b hb => hsame b (by simp [hb])

/-- The root of a represented subtree is a live record. -/
theorem Rep.root_live (hrep : Rep h p t) (ha : t.root = some a) : h.live a = true := by
  obtain ⟨l, r, ht⟩ := exists_sideNode_of_root ha .left
  rw [ht] at hrep
  exact (rep_sideNode.mp hrep).1

/-- A subtree with a new parent: only the parent pointer of its root differs. -/
theorem Rep.reparent {q : Option α} (hrep : Rep h p t)
    (hsame : ∀ a ∈ t.toList, t.root ≠ some a → SameAt h h' a)
    (hroot : ∀ a, t.root = some a → h'.live a = h.live a ∧ h'.parent a = q ∧
      h'.color a = h.color a ∧ ∀ d, h'.slot (.child a d) = h.slot (.child a d))
    (hnodup : t.toList.Nodup) : Rep h' q t := by
  cases t with
  | nil => trivial
  | node c l a r =>
    obtain ⟨hlive, -, hcolor, hleft, hright, hl, hr⟩ := hrep
    obtain ⟨hlive', hparent', hcolor', hslot'⟩ := hroot a rfl
    simp only [toList_node, nodup_append, nodup_cons, mem_cons] at hnodup
    refine ⟨hlive'.trans hlive, hparent', hcolor'.trans hcolor, ?_, ?_, ?_, ?_⟩
    · rw [hslot', hleft]
    · rw [hslot', hright]
    · refine hl.frame fun b hb => hsame b (by simp [hb]) ?_
      simp only [root_node, ne_eq, some.injEq]
      rintro rfl
      exact hnodup.2.2 a hb a (Or.inl rfl) rfl
    · refine hr.frame fun b hb => hsame b (by simp [hb]) ?_
      simp only [root_node, ne_eq, some.injEq]
      rintro rfl
      exact hnodup.2.1.1 hb

/-- The labels of a context. -/
def ctxLabels (ctx : Ctx α) : List α := Ctx.before ctx ++ Ctx.after ctx

theorem mem_ctxLabels_cons :
    a ∈ ctxLabels (f :: ctx) ↔ a = f.label ∨ a ∈ f.sibling.toList ∨ a ∈ ctxLabels ctx := by
  cases hside : f.side <;>
    simp only [ctxLabels, before, Ctx.after, hside, mem_append, mem_cons] <;> tauto

theorem nodup_ctxLabels_cons (h : (ctxLabels (f :: ctx)).Nodup) :
    f.label ∉ f.sibling.toList ∧ f.label ∉ ctxLabels ctx ∧ (ctxLabels ctx).Nodup := by
  cases hside : f.side with
  | left =>
    simp only [ctxLabels, before, Ctx.after, hside, mem_append] at h ⊢
    grind
  | right =>
    simp only [ctxLabels, before, Ctx.after, hside] at h ⊢
    grind

/-- The whole tree has distinct addresses exactly when hole, context and their
combination do. -/
theorem nodup_fill_iff : (ctx.fill t).toList.Nodup ↔
      t.toList.Nodup ∧ (ctxLabels ctx).Nodup ∧ ∀ a ∈ t.toList, a ∉ ctxLabels ctx := by
  rw [toList_fill]
  simp only [ctxLabels]
  grind

/-- A label that is not in a tree, seen from one of its nodes. -/
theorem not_mem_fill_node {s : α} (hs : s ∉ (ctx.fill (.node c l a r)).toList) :
    s ≠ a ∧ s ∉ l.toList ∧ s ∉ r.toList ∧ s ∉ ctxLabels ctx := by
  simp only [mem_fill, toList_node, mem_append, mem_cons, ctxLabels] at hs ⊢
  tauto

/-- The record at `a` in two heaps, up to the link at `loc`. -/
structure SameUpTo (h h' : RbHeap α) (loc : Loc α) (a : α) : Prop where
  live : h'.live a = h.live a
  parent : h'.parent a = h.parent a
  color : h'.color a = h.color a
  slot : ∀ d, Loc.child a d ≠ loc → h'.slot (.child a d) = h.slot (.child a d)

/-- A context does not look at the link in its hole. -/
theorem CtxRep.frame : ∀ {ctx : Ctx α},
    CtxRep h ctx → (ctxLabels ctx).Nodup →
      (∀ a ∈ ctxLabels ctx, SameUpTo h h' (hole ctx) a) →
      (hole ctx ≠ .root → h'.slot .root = h.slot .root) → CtxRep h' ctx := by
  intro ctx
  induction ctx with
  | nil => intro _ _ _ _; trivial
  | cons f ctx ih =>
    rintro ⟨hlive, hparent, hcolor, hlink, hsib, hrep, hctx⟩ hnodup hsame hroot
    obtain ⟨hnsib, hnctx, hnodup'⟩ := nodup_ctxLabels_cons hnodup
    have hf : SameUpTo h h' (.child f.label f.side) f.label :=
      hsame f.label (mem_ctxLabels_cons.mpr (Or.inl rfl))
    have hother (a) (ha : a ∈ f.sibling.toList ∨ a ∈ ctxLabels ctx) : SameAt h h' a := by
      have hs := hsame a (mem_ctxLabels_cons.mpr (Or.inr ha))
      refine { hs with slot := fun d => hs.slot d ?_ }
      rintro ⟨⟩
      exact ha.elim hnsib hnctx
    refine ⟨hf.live.trans hlive, hf.parent.trans hparent, hf.color.trans hcolor, ?_, ?_, ?_, ?_⟩
    · -- the link to the top node of the context
      cases ctx with
      | nil => rw [hole_nil, hroot (by simp), ← hole_nil, hlink]
      | cons g ctx =>
        have hg := hother g.label (Or.inr (mem_ctxLabels_cons.mpr (Or.inl rfl)))
        rw [hole_cons, hg.slot, ← hole_cons g ctx, hlink]
    · rw [hf.slot _ (by simp), hsib]
    · exact hrep.frame fun b hb => hother b (Or.inl hb)
    · refine ih hctx hnodup' (fun a ha => ?_) (fun _ => hroot (by simp))
      have hs := hother a (Or.inr ha)
      exact { hs with slot := fun d _ => hs.slot d }

/-- What `replaceChild` reads of a context whose hole links to `old`. -/
theorem CtxRep.top_reads {old : α} (hctx : CtxRep h ctx) (hslot : h.slot (hole ctx) = some old)
    (hold : old ∉ ctxLabels ctx) (f) (hf : f ∈ ctx.head?) :
    f.label ∈ ctxLabels ctx ∧ h.live f.label = true ∧
      h.slot (.child f.label f.side) = some old ∧
      h.slot (.child f.label f.side.opp) ≠ some old := by
  cases ctx with
  | nil => simp at hf
  | cons g ctx =>
    obtain rfl : g = f := by simpa using hf
    obtain ⟨hlive, -, -, -, hsib, -, -⟩ := hctx
    refine ⟨mem_ctxLabels_cons.mpr (Or.inl rfl), hlive, hslot, fun heq => ?_⟩
    rw [hsib] at heq
    exact hold (mem_ctxLabels_cons.mpr (Or.inr (Or.inl (mem_toList_of_root heq))))

/-- A node outside a context does not hold the link in its hole. -/
theorem child_ne_hole (ha : a ∉ ctxLabels ctx) (e : Side) : Loc.child a e ≠ hole ctx := by
  intro heq
  cases ctx with
  | nil => simp at heq
  | cons f ctx =>
    simp only [hole_cons, Loc.child.injEq] at heq
    exact ha (mem_ctxLabels_cons.mpr (Or.inl heq.1))

theorem SameUpTo.sameAt (hs : SameUpTo h h' (hole ctx) a) (ha : a ∉ ctxLabels ctx) :
    SameAt h h' a :=
  { hs with slot := fun d => hs.slot d (child_ne_hole ha d) }

/-- The addresses around a rotation are distinct. -/
structure RotationDistinct (l m r : ColorTree α) (x y : α) : Prop where
  xy : x ≠ y
  xl : x ∉ l.toList
  xm : x ∉ m.toList
  xr : x ∉ r.toList
  yl : y ∉ l.toList
  ym : y ∉ m.toList
  yr : y ∉ r.toList
  lm : ∀ b ∈ l.toList, b ∉ m.toList
  rm : ∀ b ∈ r.toList, b ∉ m.toList
  m : m.toList.Nodup

theorem rotationDistinct {c1 c2 : Color} {m : ColorTree α} {x y : α}
    (h : (d.node c1 l x (d.node c2 m y r)).toList.Nodup) : RotationDistinct l m r x y := by
  cases d <;> simp only [Side.node, toList_node] at h <;> constructor <;> grind

/-! ## Moving the focus -/

section

/-- Focus on the subtree on side `d`. -/
theorem Represents.near (hrep : Represents h (ctx.fill (d.node c t a u))) :
    Represents h (fill (⟨d, c, a, u⟩ :: ctx) t) := hrep

/-- Focus on the subtree on the other side. -/
theorem Represents.far (hrep : Represents h (ctx.fill (d.node c t a u))) :
    Represents h (fill (⟨d.opp, c, a, t⟩ :: ctx) u) := by
  rw [fill_cons, Frame.plug, Side.opp_node]
  exact hrep

theorem Represents.of_near (hrep : Represents h (fill (⟨d, c, a, u⟩ :: ctx) t)) :
    Represents h (ctx.fill (d.node c t a u)) := hrep

theorem Represents.of_far (hrep : Represents h (fill (⟨d.opp, c, a, t⟩ :: ctx) u)) :
    Represents h (ctx.fill (d.node c t a u)) := by
  rw [fill_cons, Frame.plug, Side.opp_node] at hrep
  exact hrep

end

/-! ## Reading a node -/

section

section

variable (hrep : Represents h (ctx.fill (d.node c l a r)))
include hrep

theorem Represents.live : h.live a = true := (rep_sideNode.mp (represents_fill_iff.mp hrep).2.2.1).1

theorem Represents.rbParent : h.rbParent a = some (top ctx) := by
  have hnode := rep_sideNode.mp (represents_fill_iff.mp hrep).2.2.1
  simp [RbHeap.rbParent, hnode.1, hnode.2.1]

theorem Represents.rbColor : h.rbColor a = some c := by
  have hnode := rep_sideNode.mp (represents_fill_iff.mp hrep).2.2.1
  simp [RbHeap.rbColor, hnode.1, hnode.2.2.1]

theorem Represents.rbChild : h.rbChild a d = some l.root := by
  have hnode := rep_sideNode.mp (represents_fill_iff.mp hrep).2.2.1
  simp [RbHeap.rbChild, hnode.1, hnode.2.2.2.1]

theorem Represents.rbChild_opp : h.rbChild a d.opp = some r.root := by
  have hnode := rep_sideNode.mp (represents_fill_iff.mp hrep).2.2.1
  simp [RbHeap.rbChild, hnode.1, hnode.2.2.2.2.1]

end

/-- The colour test of the code, on the root of a subtree that may be empty. -/
theorem Represents.blackOrNull (hrep : Represents h (ctx.fill t)) :
    h.blackOrNull t.root = some (decide (t.color = .black)) := by
  cases t with
  | nil => rfl
  | node c l a r =>
    have hcolor := Represents.rbColor (d := .left) hrep
    rw [root_node, blackOrNull, hcolor]
    rfl

theorem Represents.black (hrep : Represents h (ctx.fill t)) (ht : t.color = .black) :
    h.blackOrNull t.root = some true := by
  rw [hrep.blackOrNull, ht]
  rfl

end

/-! ## Painting a node -/

variable [DecidableEq α]

theorem Represents.recolor (hrep : Represents h (ctx.fill (d.node c l a r))) (c' : Color) :
    ∃ h', h.rbSetColor a c' = some h' ∧ h'.live = h.live ∧
      Represents h' (ctx.fill (d.node c' l a r)) := by
  have hlive := hrep.live
  refine ⟨h.putColor a c', by simp [rbSetColor, hlive], rfl, ?_⟩
  obtain ⟨hctx, hslot, hnode, hnodup⟩ := represents_fill_iff.mp hrep
  have hlabels := nodup_fill_iff.mp hnodup
  obtain ⟨-, hp, -, hl, hr, hlrep, hrrep⟩ := rep_sideNode.mp hnode
  have hsame (b) (hb : b ≠ a) : SameAt h (h.putColor a c') b :=
    ⟨rfl, rfl, by simp [putColor, update_of_ne hb], fun _ => rfl⟩
  have hane : a ∉ l.toList ∧ a ∉ r.toList := by
    have hnd := hlabels.1
    cases d <;> simp only [Side.node, toList_node] at hnd <;> grind
  have hactx : a ∉ ctxLabels ctx := hlabels.2.2 a (by simp [mem_toList_sideNode])
  refine represents_fill_iff.mpr ⟨?_, by simpa [putColor] using hslot, ?_, ?_⟩
  · refine hctx.frame hlabels.2.1 (fun b hb => ?_) (fun _ => rfl)
    have hs := hsame b (fun heq => hactx (heq ▸ hb))
    exact { hs with slot := fun _ _ => rfl }
  · refine rep_sideNode.mpr ⟨hlive, hp, by simp [putColor], hl, hr, ?_, ?_⟩
    · exact hlrep.frame fun b hb => hsame b (fun heq => hane.1 (heq ▸ hb))
    · exact hrrep.frame fun b hb => hsame b (fun heq => hane.2 (heq ▸ hb))
  · rw [toList_fill_congr ctx (toList_sideNode_congr d rfl rfl)]
    exact hnodup

/-! ## Rotating at a node -/

/-- `replaceChild` on the link that a context has in its hole. -/
theorem replaceChild_hole {old : α} (d : Side) (new : Option α)
    (htop : ∀ f ∈ ctx.head?, h.live f.label = true ∧ h.slot (.child f.label f.side) = some old ∧
      h.slot (.child f.label f.side.opp) ≠ some old) :
    h.replaceChild d (top ctx) old new = some (h.putSlot (hole ctx) new) := by
  cases ctx with
  | nil => rfl
  | cons f ctx =>
    obtain ⟨hlive, hold, hother⟩ := htop f rfl
    rcases Side.eq_or_eq_opp d f.side with hd | hd
    · simp [replaceChild, RbHeap.rbChild, rbSetChild, hlive, ← hd, hold]
    · have hd' : d = f.side.opp := by rw [hd, Side.opp_opp]
      simp [replaceChild, RbHeap.rbChild, rbSetChild, hlive, hd', hother]

/-- The heap after `if (n) rb_set_parent(n, p)`. -/
def putParentIf (h : RbHeap α) (n p : Option α) : RbHeap α :=
  match n with
  | none => h
  | some a => h.putParent a p

section

variable (h) (n p : Option α)

theorem putParentIf_live : (putParentIf h n p).live = h.live := by cases n <;> rfl

theorem putParentIf_color : (putParentIf h n p).color = h.color := by cases n <;> rfl

theorem putParentIf_slot : (putParentIf h n p).slot = h.slot := by cases n <;> rfl

theorem putParentIf_parent (a : α) :
    (putParentIf h n p).parent a = if n = some a then p else h.parent a := by
  cases n with
  | none => simp [putParentIf]
  | some b => simp [putParentIf, putParent, update_apply, eq_comm]

end

theorem setParentIf_eq {n : Option α} (p : Option α) (hlive : ∀ a, n = some a → h.live a = true) :
    h.setParentIf n p = some (putParentIf h n p) := by
  cases n with
  | none => rfl
  | some a => simp [setParentIf, rbSetParent, hlive a rfl, putParentIf]

/-- The heap after a rotation. -/
def rotated (h : RbHeap α) (ctx : Ctx α) (d : Side) (x y : α) (m : Option α) : RbHeap α :=
  ((((putParentIf (h.putSlot (.child x d.opp) m) m (some x)).putSlot (.child y d)
    (some x)).putParent y (Ctx.top ctx)).putSlot (hole ctx) (some y)).putParent x (some y)

section

variable (h ctx d) (x y : α) (m : Option α)

theorem rotated_parent (b : α) : (rotated h ctx d x y m).parent b =
      if b = x then some y else if b = y then top ctx else if m = some b then some x
      else h.parent b := by
  simp [rotated, putParent, putSlot, update_apply, putParentIf_parent]

theorem rotated_slot (loc : Loc α) : (rotated h ctx d x y m).slot loc =
      if loc = hole ctx then some y else if loc = .child y d then some x
      else if loc = .child x d.opp then m else h.slot loc := by
  simp [rotated, putParent, putSlot, update_apply, putParentIf_slot]

theorem rotated_color : (rotated h ctx d x y m).color = h.color := by
  simp [rotated, putParent, putSlot, putParentIf_color]

theorem rotated_live : (rotated h ctx d x y m).live = h.live := by
  simp [rotated, putParent, putSlot, putParentIf_live]

end

section

variable {c1 c2 : Color} {m : ColorTree α} {x y : α}

section

variable (hrep : Represents h (ctx.fill (d.node c1 l x (d.node c2 m y r))))
include hrep

/-- The code of a rotation computes `rotated`. -/
theorem Represents.rbRotate_eq : rbRotate h d x = some (rotated h ctx d x y m.root) := by
  obtain ⟨hctx, hslot, hx, hnodup⟩ := represents_fill_iff.mp hrep
  obtain ⟨hxlive, hxp, -, -, hxr, -, hy⟩ := rep_sideNode.mp hx
  obtain ⟨hylive, -, -, hym, -, hmrep, -⟩ := rep_sideNode.mp hy
  obtain ⟨-, -, hapart⟩ := nodup_fill_iff.mp hnodup
  simp only [mem_toList_sideNode] at hapart
  have hxctx : x ∉ ctxLabels ctx := hapart x (Or.inl rfl)
  have hyctx : y ∉ ctxLabels ctx := hapart y (Or.inr (Or.inr (Or.inl rfl)))
  have hmlive (a) (ha : m.root = some a) : h.live a = true := hmrep.root_live ha
  -- the link above `x` is read after the links of `x` and `y` were written
  have hread (g : RbHeap α) (hglive : g.live = h.live)
      (hgslot : ∀ b, b ≠ x → b ≠ y → ∀ e, g.slot (.child b e) = h.slot (.child b e)) :
      g.replaceChild d (top ctx) x (some y) = some (g.putSlot (hole ctx) (some y)) := by
    refine replaceChild_hole d (some y) fun f hf => ?_
    obtain ⟨hmem, hflive, hlink, hother⟩ := hctx.top_reads (by simpa using hslot) hxctx f hf
    have hfx : f.label ≠ x := fun heq => hxctx (heq ▸ hmem)
    have hfy : f.label ≠ y := fun heq => hyctx (heq ▸ hmem)
    exact ⟨by rw [hglive, hflive], by rw [hgslot _ hfx hfy, hlink],
      by rw [hgslot _ hfx hfy]; exact hother⟩
  have hinner : (h.putSlot (.child x d.opp) m.root).setParentIf m.root (some x) =
      some (putParentIf (h.putSlot (.child x d.opp) m.root) m.root (some x)) :=
    setParentIf_eq (some x) hmlive
  simp only [rbRotate, RbHeap.rbChild, RbHeap.rbParent, hxlive, hylive, hxp, hxr, hym,
    rbSetChild, rbSetParent, if_true, root_sideNode, bind_eq_bind, bind_some,
    hinner, putParentIf_live]
  rw [if_pos (by simpa [putSlot] using hylive)]
  simp only [bind_some]
  rw [if_pos (by simpa [putSlot, putParentIf_live] using hylive)]
  simp only [bind_some]
  rw [hread _ (by simp [putSlot, putParent, putParentIf_live]) ?_]
  · simp only [bind_some]
    rw [if_pos (by simpa [putSlot, putParent, putParentIf_live] using hxlive)]
    rfl
  · intro b hbx hby e
    simp [putSlot, putParent, putParentIf_slot, hbx, hby]

/-- `rotated` holds the rotated tree. -/
theorem Represents.represents_rotated :
    Represents (rotated h ctx d x y m.root) (ctx.fill (d.node c2 (d.node c1 l x m) y r)) := by
  obtain ⟨hctx, hslot, hx, hnodup⟩ := represents_fill_iff.mp hrep
  obtain ⟨hxlive, hxp, hxc, hxl, hxr, hlrep, hy⟩ := rep_sideNode.mp hx
  obtain ⟨hylive, hyp, hyc, hym, hyr, hmrep, hrrep⟩ := rep_sideNode.mp hy
  obtain ⟨hnd, hctxnd, hapart⟩ := nodup_fill_iff.mp hnodup
  have hdist := rotationDistinct hnd
  simp only [mem_toList_sideNode] at hapart
  have hxctx : x ∉ ctxLabels ctx := hapart x (Or.inl rfl)
  have hyctx : y ∉ ctxLabels ctx := hapart y (Or.inr (Or.inr (Or.inl rfl)))
  have hmne (a) (ha : a ∉ m.toList) : m.root ≠ some a := fun hroot => ha (mem_toList_of_root hroot)
  have hsame (b) (hbx : b ≠ x) (hby : b ≠ y) (hbm : m.root ≠ some b) :
      SameUpTo h (rotated h ctx d x y m.root) (hole ctx) b := by
    refine ⟨by rw [rotated_live], ?_, by rw [rotated_color], fun e he => ?_⟩
    · simp [rotated_parent, hbx, hby, hbm]
    · simp [rotated_slot, he, hbx, hby]
  refine represents_fill_iff.mpr ⟨?_, ?_, ?_, ?_⟩
  · refine hctx.frame hctxnd (fun b hb => hsame b ?_ ?_ ?_) (fun hne => ?_)
    · rintro rfl; exact hxctx hb
    · rintro rfl; exact hyctx hb
    · exact hmne b fun hm => hapart b (by tauto) hb
    · simp [rotated_slot, Ne.symm hne]
  · simp [rotated_slot]
  · have hxy := hdist.xy
    refine rep_sideNode.mpr ⟨?_, ?_, ?_, ?_, ?_, rep_sideNode.mpr ⟨?_, ?_, ?_, ?_, ?_, ?_, ?_⟩, ?_⟩
    · rw [rotated_live, hylive]
    · simp [rotated_parent, hxy.symm]
    · rw [rotated_color, hyc]
    · simp [rotated_slot, child_ne_hole hyctx]
    · simp [rotated_slot, child_ne_hole hyctx, hxy.symm, hyr]
    · rw [rotated_live, hxlive]
    · simp [rotated_parent]
    · rw [rotated_color, hxc]
    · simp [rotated_slot, child_ne_hole hxctx, hxy, hxl]
    · simp [rotated_slot, child_ne_hole hxctx]
    · refine hlrep.frame fun b hb => (hsame b ?_ ?_ (hmne b (hdist.lm b hb))).sameAt
        (hapart b (by tauto))
      · rintro rfl; exact hdist.xl hb
      · rintro rfl; exact hdist.yl hb
    · refine hmrep.reparent (fun b hb hroot => (hsame b ?_ ?_ hroot).sameAt (hapart b (by tauto)))
        (fun b hroot => ?_) hdist.m
      · rintro rfl; exact hdist.xm hb
      · rintro rfl; exact hdist.ym hb
      · have hb := mem_toList_of_root hroot
        have hbx : b ≠ x := by rintro rfl; exact hdist.xm hb
        have hby : b ≠ y := by rintro rfl; exact hdist.ym hb
        refine ⟨by rw [rotated_live], ?_, by rw [rotated_color], fun e => ?_⟩
        · simp [rotated_parent, hbx, hby, hroot]
        · simp [rotated_slot, child_ne_hole (hapart b (by tauto)), hbx, hby]
    · refine hrrep.frame fun b hb => (hsame b ?_ ?_ (hmne b (hdist.rm b hb))).sameAt
        (hapart b (by tauto))
      · rintro rfl; exact hdist.xr hb
      · rintro rfl; exact hdist.yr hb
  · rw [← toList_fill_congr ctx (toList_rotate d c1 c2 c2 c1 l m r x y)]
    exact hnodup

/-- A rotation at any node of the tree. -/
theorem Represents.rotate : ∃ h', rbRotate h d x = some h' ∧ h'.live = h.live ∧
      Represents h' (ctx.fill (d.node c2 (d.node c1 l x m) y r)) :=
  ⟨_, hrep.rbRotate_eq, rotated_live .., hrep.represents_rotated⟩

end

end

/-! ## Hanging in a new leaf -/

/-- The heap after `rb_link_node` at the hole of a context. -/
def linked (h : RbHeap α) (ctx : Ctx α) (a : α) : RbHeap α :=
  ((((h.putParent a (Ctx.top ctx)).putColor a .red).putSlot (.child a .left) none).putSlot
    (.child a .right) none).putSlot (hole ctx) (some a)

/-- `rb_link_node` into an empty place. -/
theorem Represents.link (hrep : Represents h (ctx.fill .nil)) (ha : h.live a = true)
    (hnew : a ∉ (ctx.fill .nil).toList) :
    ∃ h', rbLinkNode h a (top ctx) (hole ctx) = some h' ∧ h'.live = h.live ∧
      Represents h' (ctx.fill (.node .red .nil a .nil)) := by
  obtain ⟨hctx, -, -, hnodup⟩ := represents_fill_iff.mp hrep
  obtain ⟨-, hctxnd, -⟩ := nodup_fill_iff.mp hnodup
  have hactx : a ∉ ctxLabels ctx := by
    intro hmem
    refine hnew (mem_fill.mpr ?_)
    simpa [ctxLabels] using hmem
  refine ⟨linked h ctx a, ?_, rfl, represents_fill_iff.mpr ⟨?_, ?_, ?_, ?_⟩⟩
  · cases ctx with
    | nil => simp [rbLinkNode, rbSetParent, rbSetColor, rbSetChild, ha, linked, putParent,
        putColor, putSlot]
    | cons f ctx =>
      simp [rbLinkNode, rbSetParent, rbSetColor, rbSetChild, ha, linked, putParent,
        putColor, putSlot, hctx.1]
  · refine hctx.frame hctxnd (fun b hb => ?_) (fun hne => ?_)
    · have hba : b ≠ a := fun heq => hactx (heq ▸ hb)
      refine ⟨rfl, ?_, ?_, fun e he => ?_⟩
      · simp [linked, putParent, putColor, putSlot, hba]
      · simp [linked, putParent, putColor, putSlot, hba]
      · simp [linked, putParent, putColor, putSlot, hba, he]
    · simp [linked, putParent, putColor, putSlot, Ne.symm hne]
  · simp [linked, putSlot]
  · have hleft := child_ne_hole hactx .left
    have hright := child_ne_hole hactx .right
    refine ⟨ha, ?_, ?_, ?_, ?_, trivial, trivial⟩
    · simp [linked, putParent, putColor, putSlot]
    · simp [linked, putColor, putSlot]
    · simp [linked, putSlot, hleft]
    · simp [linked, putSlot, hright]
  · refine nodup_fill_iff.mpr ⟨by simp, hctxnd, ?_⟩
    simpa using hactx

/-! ## Taking out a node with one child -/

/-- The heap after the node in the hole was replaced by its only child. -/
def unlinked (h : RbHeap α) (ctx : Ctx α) (child : Option α) : RbHeap α :=
  (putParentIf h child (Ctx.top ctx)).putSlot (hole ctx) child

section

variable (hrep : Represents h (ctx.fill (d.node c t a .nil)))
include hrep

/-- A heap whose hole links to a subtree, after the node above the subtree was
taken out. -/
theorem Represents.represents_unlinked : Represents (unlinked h ctx t.root) (ctx.fill t) := by
  obtain ⟨hctx, hslot, hnode, hnodup⟩ := represents_fill_iff.mp hrep
  obtain ⟨-, -, -, -, -, htrep, -⟩ := rep_sideNode.mp hnode
  obtain ⟨hnd, hctxnd, hapart⟩ := nodup_fill_iff.mp hnodup
  simp only [mem_toList_sideNode] at hapart
  have htnd : t.toList.Nodup := by cases d <;> simp [nodup_append] at hnd <;> tauto
  have hsame (b) (hb : t.root ≠ some b) : SameUpTo h (unlinked h ctx t.root) (hole ctx) b := by
    refine ⟨by simp [unlinked, putSlot, putParentIf_live], ?_,
      by simp [unlinked, putSlot, putParentIf_color], fun e he => ?_⟩
    · simp [unlinked, putSlot, putParentIf_parent, hb]
    · simp [unlinked, putSlot, putParentIf_slot, he]
  refine represents_fill_iff.mpr ⟨?_, by simp [unlinked, putSlot], ?_, ?_⟩
  · refine hctx.frame hctxnd (fun b hb => hsame b fun heq => ?_) (fun hne => ?_)
    · exact hapart b (by have := mem_toList_of_root heq; tauto) hb
    · simp [unlinked, putSlot, putParentIf_slot, Ne.symm hne]
  · refine htrep.reparent (fun b hb hroot => (hsame b hroot).sameAt (hapart b (by tauto)))
      (fun b hroot => ?_) htnd
    have hbctx := hapart b (by have := mem_toList_of_root hroot; tauto)
    refine ⟨by simp [unlinked, putSlot, putParentIf_live], ?_,
      by simp [unlinked, putSlot, putParentIf_color], fun e => ?_⟩
    · simp [unlinked, putSlot, putParentIf_parent, hroot]
    · simp [unlinked, putSlot, putParentIf_slot, child_ne_hole hbctx]
  · exact nodup_fill_iff.mpr ⟨htnd, hctxnd, fun b hb => hapart b (by tauto)⟩

/-- Unlinking a node with at most one child `t`: `t` gets a new parent, and the
link above the node changes. -/
theorem Represents.unlink : ∃ h1, h.setParentIf t.root (top ctx) = some h1 ∧ h1.live = h.live ∧
      h1.replaceChild .left (top ctx) a t.root = some (h1.putSlot (hole ctx) t.root) ∧
      Represents (h1.putSlot (hole ctx) t.root) (ctx.fill t) := by
  obtain ⟨hctx, hslot, hnode, hnodup⟩ := represents_fill_iff.mp hrep
  obtain ⟨-, -, -, -, -, htrep, -⟩ := rep_sideNode.mp hnode
  obtain ⟨-, -, hapart⟩ := nodup_fill_iff.mp hnodup
  have hactx : a ∉ ctxLabels ctx := hapart a (by simp [mem_toList_sideNode])
  refine ⟨_, setParentIf_eq _ fun b hb => htrep.root_live hb, putParentIf_live .., ?_,
    hrep.represents_unlinked⟩
  refine replaceChild_hole .left t.root fun f hf => ?_
  obtain ⟨-, hflive, hlink, hother⟩ := hctx.top_reads (by simpa using hslot) hactx f hf
  exact ⟨by rw [putParentIf_live, hflive], by rw [putParentIf_slot, hlink],
    by rw [putParentIf_slot]; exact hother⟩

end

/-! ## Putting a node in the place of another -/

/-- The heap after `takePlace`: `s` has the parent, colour and children of the node
in the hole, and they point to `s`. -/
def replaced (h : RbHeap α) (ctx : Ctx α) (c : Color) (s : α) (l r : Option α) : RbHeap α :=
  putParentIf (putParentIf (((((h.putParent s (Ctx.top ctx)).putColor s c).putSlot
    (.child s .right) r).putSlot (.child s .left) l).putSlot (hole ctx) (some s)) l (some s))
    r (some s)

section

variable {old s : α}

section

variable (h ctx c) (s : α) (l r : Option α)

theorem replaced_live : (replaced h ctx c s l r).live = h.live := by
  simp [replaced, putParentIf_live, putSlot, putColor, putParent]

theorem replaced_color (b : α) :
    (replaced h ctx c s l r).color b = if b = s then c else h.color b := by
  simp [replaced, putParentIf_color, putSlot, putColor, putParent, update_apply]

theorem replaced_parent (b : α) : (replaced h ctx c s l r).parent b =
      if r = some b then some s else if l = some b then some s
      else if b = s then top ctx else h.parent b := by
  simp [replaced, putParentIf_parent, putSlot, putColor, putParent, update_apply]

theorem replaced_slot (loc : Loc α) : (replaced h ctx c s l r).slot loc =
      if loc = hole ctx then some s else if loc = .child s .left then l
      else if loc = .child s .right then r else h.slot loc := by
  simp [replaced, putParentIf_slot, putSlot, putColor, putParent, update_apply]

end

section

variable (hrep : Represents h (ctx.fill (.node c l old r))) (hs : h.live s = true)
  (hnew : s ∉ (ctx.fill (.node c l old r)).toList)
include hrep hs hnew

/-- The code of `takePlace` computes `replaced`. -/
theorem Represents.takePlace_eq (hl : l ≠ .nil) :
    takePlace h old s = some (replaced h ctx c s l.root r.root) := by
  obtain ⟨hctx, hslot, hnode, hnodup⟩ := represents_fill_iff.mp hrep
  obtain ⟨hlive, hparent, hcolor, hleft, hright, hlrep, hrrep⟩ := hnode
  obtain ⟨-, -, hapart⟩ := nodup_fill_iff.mp hnodup
  have hold : old ∉ ctxLabels ctx := hapart old (by simp)
  obtain ⟨hsold, hsl, hsr, hsctx⟩ := not_mem_fill_node hnew
  have hos : old ≠ s := Ne.symm hsold
  have hreplace (g : RbHeap α) (hglive : g.live = h.live)
      (hgslot : ∀ b, b ≠ s → ∀ e, g.slot (.child b e) = h.slot (.child b e)) :
      g.replaceChild .left (top ctx) old (some s) = some (g.putSlot (hole ctx) (some s)) := by
    refine replaceChild_hole .left (some s) fun f hf => ?_
    obtain ⟨hmem, hflive, hlink, hother⟩ := hctx.top_reads (by simpa using hslot) hold f hf
    have hfs : f.label ≠ s := fun heq => hsctx (heq ▸ hmem)
    exact ⟨by rw [hglive, hflive], by rw [hgslot _ hfs, hlink], by rw [hgslot _ hfs]; exact hother⟩
  obtain ⟨x, hx⟩ : ∃ x, l.root = some x := by
    cases l with
    | nil => exact absurd rfl hl
    | node c' l' x r' => exact ⟨x, rfl⟩
  have hxlive : h.live x = true := hlrep.root_live hx
  have hleftHole := child_ne_hole hold .left
  have hrightHole := child_ne_hole hold .right
  simp only [Rbtree.takePlace, RbHeap.rbParent, RbHeap.rbColor, RbHeap.rbChild, rbSetParent,
    rbSetColor, rbSetChild, hlive, hs, if_true, bind_eq_bind, bind_some, putParent,
    putColor, putSlot, hparent, hcolor, hleft, hright, update_apply, Loc.child.injEq, hos,
    false_and, if_false]
  rw [hreplace _ (by rfl) (fun b hb e => by simp [hb])]
  simp only [bind_some, putSlot, update_apply, hlive, if_true, hleftHole, if_false,
    Loc.child.injEq, hos, false_and, hleft, hx, hxlive, hrightHole, hright]
  exact setParentIf_eq (some s) fun a ha => hrrep.root_live ha

theorem Represents.represents_replaced :
    Represents (replaced h ctx c s l.root r.root) (ctx.fill (.node c l s r)) := by
  obtain ⟨hctx, hslot, hnode, hnodup⟩ := represents_fill_iff.mp hrep
  obtain ⟨hlive, hparent, hcolor, hleft, hright, hlrep, hrrep⟩ := hnode
  obtain ⟨hnd, hctxnd, hapart⟩ := nodup_fill_iff.mp hnodup
  obtain ⟨hsold, hsl, hsr, hsctx⟩ := not_mem_fill_node hnew
  simp only [toList_node, mem_append, mem_cons] at hapart
  simp only [toList_node, nodup_append, nodup_cons, mem_cons] at hnd
  obtain ⟨hlnd, ⟨-, hrnd⟩, hlr⟩ := hnd
  have hsame (b) (hbs : b ≠ s) (hbl : l.root ≠ some b) (hbr : r.root ≠ some b) :
      SameUpTo h (replaced h ctx c s l.root r.root) (hole ctx) b := by
    refine ⟨by rw [replaced_live], ?_, by simp [replaced_color, hbs], fun e he => ?_⟩
    · simp [replaced_parent, hbs, hbl, hbr]
    · simp [replaced_slot, he, hbs]
  -- a subtree of `old` becomes a subtree of `s`
  have hsub (t : ColorTree α) (htrep : Rep h (some old) t) (htnd : t.toList.Nodup)
      (hst : s ∉ t.toList) (htctx : ∀ b ∈ t.toList, b ∉ ctxLabels ctx)
      (htroot : ∀ b ∈ t.toList, t.root = some b ↔ l.root = some b ∨ r.root = some b) :
      Rep (replaced h ctx c s l.root r.root) (some s) t := by
    refine htrep.reparent (fun b hb hroot => ?_) (fun b hroot => ?_) htnd
    · have hnot := not_or.mp (mt (htroot b hb).mpr hroot)
      exact (hsame b (fun heq => hst (heq ▸ hb)) hnot.1 hnot.2).sameAt (htctx b hb)
    · have hb := mem_toList_of_root hroot
      have hbs : b ≠ s := fun heq => hst (heq ▸ hb)
      refine ⟨by rw [replaced_live], ?_, by simp [replaced_color, hbs], fun e => ?_⟩
      · rw [replaced_parent]
        rcases (htroot b hb).mp hroot with hbl | hbr
        · simp [hbl]
        · simp [hbr]
      · simp [replaced_slot, child_ne_hole (htctx b hb), hbs]
  refine represents_fill_iff.mpr ⟨?_, by simp [replaced_slot], ⟨?_, ?_, ?_, ?_, ?_, ?_, ?_⟩, ?_⟩
  · refine hctx.frame hctxnd (fun b hb => hsame b ?_ ?_ ?_) (fun hne => ?_)
    · rintro rfl; exact hsctx hb
    · exact fun heq => hapart b (Or.inl (mem_toList_of_root heq)) hb
    · exact fun heq => hapart b (Or.inr (Or.inr (mem_toList_of_root heq))) hb
    · simp [replaced_slot, Ne.symm hne]
  · rw [replaced_live, hs]
  · have hsl' : l.root ≠ some s := fun heq => hsl (mem_toList_of_root heq)
    have hsr' : r.root ≠ some s := fun heq => hsr (mem_toList_of_root heq)
    simp [replaced_parent, hsl', hsr']
  · simp [replaced_color]
  · simp [replaced_slot, child_ne_hole hsctx]
  · simp [replaced_slot, child_ne_hole hsctx]
  · refine hsub l hlrep hlnd hsl (fun b hb => hapart b (Or.inl hb)) fun b hb => ?_
    have hbr : r.root ≠ some b := fun heq => hlr b hb b (Or.inr (mem_toList_of_root heq)) rfl
    simp [hbr]
  · refine hsub r hrrep hrnd hsr (fun b hb => hapart b (Or.inr (Or.inr hb))) fun b hb => ?_
    have hbl : l.root ≠ some b := fun heq => hlr b (mem_toList_of_root heq) b (Or.inr hb) rfl
    simp [hbl]
  · refine nodup_fill_iff.mpr ⟨?_, hctxnd, ?_⟩
    · simp only [toList_node, nodup_append, nodup_cons, mem_cons]
      refine ⟨hlnd, ⟨hsr, hrnd⟩, ?_⟩
      rintro b hb x (rfl | hx)
      · rintro rfl
        exact hsl hb
      · exact hlr b hb x (Or.inr hx)
    · simp only [toList_node, mem_append, mem_cons]
      rintro b (hb | rfl | hb)
      · exact hapart b (Or.inl hb)
      · exact hsctx
      · exact hapart b (Or.inr (Or.inr hb))

/-- A fresh node takes the place of a node with a left child. -/
theorem Represents.takePlace (hl : l ≠ .nil) :
    ∃ h', takePlace h old s = some h' ∧ h'.live = h.live ∧
      Represents h' (ctx.fill (.node c l s r)) :=
  ⟨_, hrep.takePlace_eq hs hnew hl, replaced_live .., hrep.represents_replaced hs hnew⟩

end

end

end LinuxKernel.Lib.Rbtree
