/-
  Walking a red-black tree, and the tree as a list.

  Source: lib/rbtree.c, `rb_first`, `rb_last`, `rb_next`, `rb_prev`,
  `rb_replace_node`.

  A user of the tree sees a list of nodes in order.  `RbList h l` says that the heap
  holds a red-black tree with that list, and the lemmas below say what each function
  does to the list.
-/
import LinuxKernel.Lib.RbtreeErase

namespace LinuxKernel.Lib.Rbtree

open Foundation Foundation.ColorTree RbHeap Function List Ctx

variable {α : Type}

/-! ## The functions -/

section

variable [DecidableEq α]

/-- `while (n->rb_left) n = n->rb_left`, and its mirror image. -/
def RbHeap.walkDown (h : RbHeap α) (d : Side) (node : α) : Option α := do
  match (← h.rbChild node d) with
  | none => some node
  | some child => h |>.walkDown d child
partial_fixpoint

/-- `rb_first` at `Side.left` and `rb_last` at `Side.right`. -/
def rbEnd (h : RbHeap α) (d : Side) : Option (Option α) :=
  match h.slot .root with
  | none => some none
  | some n => (walkDown h d n).map some

/-- `rb_first` -/
def rbFirst (h : RbHeap α) : Option (Option α) := rbEnd h .left

/-- `rb_last` -/
def rbLast (h : RbHeap α) : Option (Option α) := rbEnd h .right

/-- `while ((parent = rb_parent(node)) && node == parent->rb_right) node = parent`, and its
mirror image. -/
def RbHeap.walkUp (h : RbHeap α) (d : Side) (node : α) : Option (Option α) := do
  match (← h.rbParent node) with
  | none => some none
  | some parent =>
    if (← h.rbChild parent d) = some node then h |>.walkUp d parent
    else some (some parent)
partial_fixpoint

/-- `rb_next` at `Side.right` and `rb_prev` at `Side.left`. -/
def rbNeighbour (h : RbHeap α) (d : Side) (node : α) : Option (Option α) := do
  if (← h.rbParent node) = some node then some none
  else
    match (← h.rbChild node d) with
    | some child => (walkDown h d.opp child).map some
    | none => walkUp h d node

/-- `rb_next` -/
def rbNext (h : RbHeap α) (node : α) : Option (Option α) := rbNeighbour h .right node

/-- `rb_prev` -/
def rbPrev (h : RbHeap α) (node : α) : Option (Option α) := rbNeighbour h .left node

/-- `rb_replace_node` -/
def rbReplaceNode (h : RbHeap α) (victim new : α) : Option (RbHeap α) := do
  let parent ← h.rbParent victim
  let h ← h.replaceChild .left parent victim (some new)
  let h ← h.setParentIf (← h.rbChild victim .left) (some new)
  let h ← h.setParentIf (← h.rbChild victim .right) (some new)
  -- `*new = *victim`
  let h ← h.rbSetParent new (← h.rbParent victim)
  let h ← h.rbSetColor new (← h.rbColor victim)
  let h ← h.rbSetChild new .right (← h.rbChild victim .right)
  h.rbSetChild new .left (← h.rbChild victim .left)

end

/-! ## Walking -/

variable {c : Color}

section

/-- The first or the last element. -/
def endOf (d : Side) (l : List α) : Option α :=
  match d with
  | .left => l.head?
  | .right => l.getLast?

/-- What is on one side of the hole. -/
def beside (d : Side) (ctx : Ctx α) : List α :=
  match d with
  | .left => Ctx.before ctx
  | .right => Ctx.after ctx

theorem endOf_node (d : Side) (c : Color) (t u : ColorTree α) (a : α) :
    endOf d (d.node c t a u).toList = some ((endOf d t.toList).getD a) := by
  cases d with
  | left => cases ht : t.toList <;> simp [endOf, ht]
  | right =>
    simp only [endOf, Side.node, toList_node, getLast?_append, getLast?_cons]
    simp

theorem endOf_beside (d : Side) (f : Frame α) (ctx : Ctx α) : endOf d.opp (beside d (f :: ctx)) =
      if f.side = d then endOf d.opp (beside d ctx) else some f.label := by
  cases d <;> cases hside : f.side <;> simp [endOf, beside, before, Ctx.after, hside]

variable [DecidableEq α] {h : RbHeap α} {ctx : Ctx α}

omit [DecidableEq α] in
theorem walkDown_spec (d : Side) (t : ColorTree α) {ctx : Ctx α} {x : α}
    (hrep : Represents h (ctx.fill t)) (hx : t.root = some x) :
    walkDown h d x = endOf d t.toList := by
  induction t generalizing ctx x with
  | nil => simp at hx
  | node c l y r ihl ihr =>
    obtain rfl : y = x := by simpa using hx
    -- the subtree on side `d`, and the other one
    obtain ⟨t, u, hnode, ih⟩ : ∃ t u, ColorTree.node c l y r = d.node c t y u ∧
        ∀ {ctx : Ctx α} {x : α}, Represents h (ctx.fill t) → t.root = some x →
          walkDown h d x = endOf d t.toList := by
      cases d with
      | left => exact ⟨l, r, rfl, fun hrep hx => ihl hrep hx⟩
      | right => exact ⟨r, l, rfl, fun hrep hx => ihr hrep hx⟩
    rw [hnode] at hrep ⊢
    have hchild := hrep.rbChild
    rw [walkDown, endOf_node]
    cases ht : t.root with
    | none =>
      obtain rfl := root_eq_none_iff.mp ht
      cases d <;> simp [hchild, endOf]
    | some z =>
      have hdown := ih hrep.near ht
      have hsome : ∃ e, endOf d t.toList = some e := by
        obtain ⟨l', r', htree⟩ := exists_sideNode_of_root ht d
        rw [htree, endOf_node]
        exact ⟨_, rfl⟩
      obtain ⟨e, he⟩ := hsome
      simp [hchild, ht, hdown, he]

theorem walkUp_spec (d : Side) (ctx : Ctx α) {t : ColorTree α} {x : α}
    (hrep : Represents h (ctx.fill t)) (hx : t.root = some x) :
    walkUp h d x = some (endOf d.opp (beside d ctx)) := by
  induction ctx generalizing t x with
  | nil =>
    obtain ⟨l, r, ht⟩ := exists_sideNode_of_root hx .left
    rw [ht] at hrep
    rw [walkUp]
    cases d <;> simp [hrep.rbParent, endOf, beside, before, Ctx.after]
  | cons f ctx ih =>
    obtain ⟨l, r, ht⟩ := exists_sideNode_of_root hx .left
    have hparent : h.rbParent x = some (some f.label) := by
      rw [ht] at hrep
      exact hrep.rbParent
    have hup : Represents h (fill ctx (f.side.node f.color t f.label f.sibling)) := hrep
    rw [walkUp, endOf_beside]
    simp only [hparent, Option.bind_eq_bind]
    by_cases hside : f.side = d
    · subst hside
      simp only [hup.rbChild, hx, Option.bind_some]
      exact ih hup (root_sideNode ..)
    -- the other child is not `x`
    have hopp : d = f.side.opp := by
      rcases Side.eq_or_eq_opp f.side d with heq | heq
      · exact absurd heq.symm hside
      · exact heq
    have hne : f.sibling.root ≠ some x := by
      intro heq
      obtain ⟨-, -, hapart⟩ := nodup_fill_iff.mp hrep.nodup
      refine hapart x (mem_toList_of_root hx) ?_
      exact mem_ctxLabels_cons.mpr (.inr (.inl (mem_toList_of_root heq)))
    simp [hopp, hup.rbChild_opp, hne]

omit [DecidableEq α] in
theorem rbEnd_spec (d : Side) {t : ColorTree α} (hrep : Represents h t) :
    rbEnd h d = some (endOf d t.toList) := by
  unfold rbEnd
  rw [hrep.root]
  cases ht : t.root with
  | none =>
    obtain rfl := root_eq_none_iff.mp ht
    cases d <;> rfl
  | some x =>
    have hdown := walkDown_spec d t (show Represents h (fill [] t) from hrep) ht
    obtain ⟨l, r, htree⟩ := exists_sideNode_of_root ht d
    rw [htree, endOf_node] at hdown ⊢
    simp [hdown]

/-- The neighbour of a node: in its subtree on that side, or beside the hole. -/
theorem rbNeighbour_spec {d : Side} {t u : ColorTree α} {a : α}
    (hrep : Represents h (ctx.fill (d.node c t a u))) :
    rbNeighbour h d a = some (match endOf d.opp t.toList with
      | some b => some b
      | none => endOf d.opp (beside d ctx)) := by
  have hself : top ctx ≠ some a := by
    intro heq
    obtain ⟨-, -, hapart⟩ := nodup_fill_iff.mp hrep.nodup
    refine hapart a (by simp [mem_toList_sideNode]) ?_
    cases ctx with
    | nil => simp at heq
    | cons f ctx =>
      refine mem_ctxLabels_cons.mpr (.inl ?_)
      simpa using heq.symm
  unfold rbNeighbour
  simp only [hrep.rbParent, hrep.rbChild, Option.bind_eq_bind, Option.bind_some, if_neg hself]
  cases ht : t.root with
  | none =>
    obtain rfl := root_eq_none_iff.mp ht
    have hend : endOf d.opp (ColorTree.nil : ColorTree α).toList = none := by cases d <;> rfl
    rw [hend]
    exact walkUp_spec d ctx hrep (root_sideNode ..)
  | some z =>
    have hdown := walkDown_spec d.opp t hrep.near ht
    obtain ⟨l, r, htree⟩ := exists_sideNode_of_root ht d.opp
    rw [htree, endOf_node] at hdown ⊢
    simp [hdown]

/-! ## Replacing a node -/

/-- The code of `rb_replace_node` computes `replaced`. -/
theorem Represents.rbReplaceNode_eq {l r : ColorTree α} {old s : α}
    (hrep : Represents h (ctx.fill (.node c l old r))) (hs : h.live s = true)
    (hnew : s ∉ (ctx.fill (.node c l old r)).toList) :
    rbReplaceNode h old s = some (replaced h ctx c s l.root r.root) := by
  obtain ⟨hctx, hslot, hnode, hnodup⟩ := represents_fill_iff.mp hrep
  obtain ⟨hlive, hparent, hcolor, hleft, hright, hlrep, hrrep⟩ := hnode
  obtain ⟨hnd, -, hapart⟩ := nodup_fill_iff.mp hnodup
  have hold : old ∉ ctxLabels ctx := hapart old (by simp)
  obtain ⟨hsold, hsl, hsr, hsctx⟩ := not_mem_fill_node hnew
  have hleftHole := child_ne_hole hold .left
  have hrightHole := child_ne_hole hold .right
  have hsleft := child_ne_hole hsctx .left
  have hsright := child_ne_hole hsctx .right
  have hreplace : h.replaceChild .left (top ctx) old (some s) =
      some (h.putSlot (hole ctx) (some s)) := by
    refine replaceChild_hole .left (some s) fun f hf => ?_
    obtain ⟨-, hflive, hlink, hother⟩ := hctx.top_reads (by simpa using hslot) hold f hf
    exact ⟨hflive, hlink, hother⟩
  -- the children are not `old` or `s`
  have hchild : ∀ t : ColorTree α, t = l ∨ t = r → t.root ≠ some old ∧ t.root ≠ some s := by
    simp only [toList_node, nodup_append, nodup_cons, mem_cons] at hnd
    rintro t (rfl | rfl)
    · exact ⟨fun heq => hnd.2.2 old (mem_toList_of_root heq) old (.inl rfl) rfl,
        fun heq => hsl (mem_toList_of_root heq)⟩
    · exact ⟨fun heq => hnd.2.1.1 (mem_toList_of_root heq), fun heq => hsr (mem_toList_of_root heq)⟩
  have hl := hchild l (.inl rfl)
  have hr := hchild r (.inr rfl)
  have hset : ∀ (g : RbHeap α) (t : ColorTree α), g.live = h.live → Rep h (some old) t →
      g.setParentIf t.root (some s) = some (putParentIf g t.root (some s)) :=
    fun g t hg ht => setParentIf_eq (some s) fun a ha => by rw [hg]; exact ht.root_live ha
  have hsetl := fun g hg => hset g l hg hlrep
  have hsetr := fun g hg => hset g r hg hrrep
  simp only [rbReplaceNode, RbHeap.rbParent, RbHeap.rbColor, RbHeap.rbChild, rbSetParent,
    rbSetColor, rbSetChild, hlive, if_true, Option.bind_eq_bind, Option.bind_some, hparent, hreplace]
  simp only [putSlot, hlive, if_true, update_of_ne hleftHole, hleft, Option.bind_some, hsetl,
    putParentIf_live, putParentIf_slot, update_of_ne hrightHole, hright, hsetr,
    putParentIf_parent, if_neg hr.1, if_neg hl.1, hs, hparent, putParentIf_color, hcolor, putParent,
    putColor]
  rw [update_of_ne (by simp), update_of_ne hleftHole, hleft]
  -- the same writes in another order
  rw [Option.some.injEq]
  ext1
  · rw [replaced_live]
  · funext b
    dsimp only
    rw [replaced_parent, update_apply, putParentIf_parent, putParentIf_parent]
    by_cases hb : b = s
    · subst hb
      simp [hl.2, hr.2]
    · simp [hb]
  · funext b
    dsimp only
    rw [replaced_color, update_apply]
  · funext loc
    rw [replaced_slot]
    simp only [update_apply]
    by_cases hloc : loc = hole ctx
    · subst hloc
      simp [Ne.symm hsleft, Ne.symm hsright]
    · simp [hloc]

end

/-! ## The tree as a list -/

section

variable {h h' : RbHeap α} {l p r : List α} {a : α}

/-- The heap holds a red-black tree with these nodes, in order. -/
def RbList (h : RbHeap α) (l : List α) : Prop :=
  ∃ t, Represents h t ∧ t.RedBlack ∧ t.toList = l

theorem RbList.nodup (hl : RbList h l) : l.Nodup := by
  obtain ⟨t, hrep, -, rfl⟩ := hl
  exact hrep.nodup

/-- The records determine the tree. -/
theorem Rep.unique {t t' : ColorTree α} {p q : Option α} (hrep : Rep h p t) (hrep' : Rep h q t')
    (hroot : t.root = t'.root) : t = t' := by
  induction t generalizing t' p q with
  | nil => exact (root_eq_none_iff.mp hroot.symm).symm
  | node c l a r ihl ihr =>
    cases t' with
    | nil => simp at hroot
    | node c' l' a' r' =>
      obtain rfl : a = a' := by simpa using hroot
      obtain ⟨-, -, hc, hleft, hright, hl, hr⟩ := hrep
      obtain ⟨-, -, hc', hleft', hright', hl', hr'⟩ := hrep'
      rw [← hc, ← hc', ihl hl hl' (hleft.symm.trans hleft'), ihr hr hr' (hright.symm.trans hright')]

theorem RbList.unique (hl : RbList h l) {l' : List α} (hl' : RbList h l') : l' = l := by
  obtain ⟨t, hrep, -, rfl⟩ := hl
  obtain ⟨t', hrep', -, rfl⟩ := hl'
  rw [Rep.unique hrep'.rep hrep.rep (hrep'.root.symm.trans hrep.root)]

/-- A node of the list, at the hole of a context. -/
theorem RbList.focus (hl : RbList h (p ++ a :: r)) : ∃ (ctx : Ctx α) (c : Color) (t u : ColorTree α),
    Represents h (ctx.fill (.node c t a u)) ∧ (ctx.fill (.node c t a u)).RedBlack ∧
      p = before ctx ++ t.toList ∧ r = u.toList ++ Ctx.after ctx := by
  obtain ⟨tree, hrep, hrb, hlist⟩ := hl
  obtain ⟨ctx, c, t, u, rfl⟩ := exists_fill_of_mem (a := a) (by rw [hlist]; simp)
  refine ⟨ctx, c, t, u, hrep, hrb, ?_⟩
  have hnodup := hrep.nodup
  rw [toList_fill] at hlist hnodup
  have heq : (before ctx ++ t.toList) ++ a :: (u.toList ++ Ctx.after ctx) = p ++ a :: r := by
    rw [← hlist]
    simp
  rw [hlist, ← heq] at hnodup
  have hparts := nodup_append.mp hnodup
  have hnot : a ∉ before ctx ++ t.toList := fun hin => hparts.2.2 a hin a mem_cons_self rfl
  have hinj := (append_cons_inj_of_notMem hnot (nodup_cons.mp hparts.2.1).1).mp heq
  exact ⟨hinj.1.symm, hinj.2.2.symm⟩

/-- Only the records of the nodes and the root matter. -/
theorem RbList.frame (hl : RbList h l) (hsame : ∀ a ∈ l, SameAt h h' a)
    (hroot : h'.slot .root = h.slot .root) : RbList h' l := by
  obtain ⟨t, hrep, hrb, rfl⟩ := hl
  exact ⟨t, ⟨hroot.trans hrep.root, hrep.rep.frame hsame, hrep.nodup⟩, hrb, rfl⟩

theorem RbList.live (hl : RbList h l) (ha : a ∈ l) : h.live a = true := by
  obtain ⟨p, r, rfl⟩ := append_of_mem ha
  obtain ⟨ctx, c, t, u, hrep, -⟩ := hl.focus
  exact Represents.live (d := .left) hrep

variable [DecidableEq α] {new : α}

omit [DecidableEq α] in
theorem RbList.last (hl : RbList h l) : rbLast h = some l.getLast? := by
  obtain ⟨t, hrep, -, rfl⟩ := hl
  exact rbEnd_spec .right hrep

section

variable (hl : RbList h (p ++ a :: r))
include hl

theorem RbList.next : rbNext h a = some r.head? := by
  obtain ⟨ctx, c, t, u, hrep, -, -, rfl⟩ := hl.focus
  have hspec := rbNeighbour_spec (d := .right) (u := t) hrep
  rw [rbNext, hspec]
  cases u.toList <;> simp [endOf, beside]

theorem RbList.prev : rbPrev h a = some p.getLast? := by
  obtain ⟨ctx, c, t, u, hrep, -, rfl, -⟩ := hl.focus
  have hspec := rbNeighbour_spec (d := .left) (u := u) hrep
  rw [rbPrev, hspec]
  cases h : t.toList.getLast? <;> simp [endOf, beside, h]

theorem RbList.erase : ∃ h', rbErase h a = some h' ∧ h'.live = h.live ∧ RbList h' (p ++ r) := by
  obtain ⟨ctx, c, t, u, hrep, hrb, rfl, rfl⟩ := hl.focus
  obtain ⟨h', t', hrun, hlive, hrep', hrb', hlist⟩ := rbErase_spec hrep hrb
  exact ⟨h', hrun, hlive, t', hrep', hrb', by rw [hlist]; simp⟩

end

/-- A new node in an empty place. -/
theorem RbList.insert (ctx : Ctx α) (hrep : Represents h (ctx.fill .nil))
    (hrb : (ctx.fill .nil).RedBlack) (hlive : h.live new = true)
    (hnew : new ∉ before ctx ++ Ctx.after ctx) :
    ∃ h1 h', rbLinkNode h new (top ctx) (hole ctx) = some h1 ∧ rbInsertColor h1 new = some h' ∧
      h'.live = h.live ∧ RbList h' (before ctx ++ new :: Ctx.after ctx) := by
  obtain ⟨h1, h', t, hlink, hrun, hlive', hrep', hrb', hlist⟩ :=
    rbInsertColor_spec hrep hrb hlive (by simpa [toList_fill] using hnew)
  exact ⟨h1, h', hlink, hrun, hlive', t, hrep', hrb', hlist⟩

/-- The first node of an empty tree. -/
theorem RbList.insert_root (hl : RbList h []) (hlive : h.live new = true) :
    ∃ h1 h', rbLinkNode h new none .root = some h1 ∧ rbInsertColor h1 new = some h' ∧
      h'.live = h.live ∧ RbList h' [new] := by
  obtain ⟨t, hrep, hrb, hlist⟩ := hl
  cases t with
  | nil => exact RbList.insert [] hrep hrb hlive (by simp [before, Ctx.after])
  | node c t a u => simp at hlist

/-- The last node has no right child, and a new node there becomes the last one. -/
theorem RbList.insert_last (hl : RbList h (p ++ [a])) (hlive : h.live new = true)
    (hnew : new ∉ p ++ [a]) : ∃ h1 h', rbLinkNode h new (some a) (.child a .right) = some h1 ∧
      rbInsertColor h1 new = some h' ∧ h'.live = h.live ∧ RbList h' (p ++ [a, new]) := by
  obtain ⟨ctx, c, t, u, hrep, hrb, rfl, hr⟩ := hl.focus
  obtain ⟨hu, hafter⟩ := append_eq_nil_iff.mp hr.symm
  obtain rfl : u = .nil := by
    cases u with
    | nil => rfl
    | node => simp at hu
  have hplace : before (⟨.right, c, a, t⟩ :: ctx) = before ctx ++ t.toList ++ [a] ∧
      Ctx.after (⟨.right, c, a, t⟩ :: ctx) = [] := by
    simp [before, Ctx.after, hafter]
  obtain ⟨h1, h', hlink, hrun, hlive', hlist⟩ :=
    RbList.insert (⟨.right, c, a, t⟩ :: ctx) hrep hrb hlive
      (by rw [hplace.1, hplace.2]; simpa using hnew)
  rw [hplace.1, hplace.2] at hlist
  exact ⟨h1, h', hlink, hrun, hlive', by simpa using hlist⟩

omit [DecidableEq α] in
/-- Which trees are red-black does not depend on a label. -/
theorem redBlack_relabel {ctx : Ctx α} {t u : ColorTree α} {b : α}
    (hrb : (ctx.fill (.node c t a u)).RedBlack) : (ctx.fill (.node c t b u)).RedBlack := by
  obtain ⟨n, hbal, hacc⟩ := (redBlack_fill_iff _ _).mp hrb
  refine (redBlack_fill_iff _ _).mpr ⟨n, ?_, hacc⟩
  cases hbal with
  | red hl hr bl br => exact .red hl hr bl br
  | black bl br => exact .black bl br

theorem RbList.replace (hl : RbList h (p ++ a :: r)) (hlive : h.live new = true)
    (hnew : new ∉ p ++ a :: r) :
    ∃ h', rbReplaceNode h a new = some h' ∧ h'.live = h.live ∧ RbList h' (p ++ new :: r) := by
  obtain ⟨ctx, c, t, u, hrep, hrb, rfl, rfl⟩ := hl.focus
  have hout : new ∉ (ctx.fill (.node c t a u)).toList := by
    rw [toList_fill]
    simpa using hnew
  refine ⟨_, hrep.rbReplaceNode_eq hlive hout, replaced_live .., _,
    hrep.represents_replaced hlive hout, redBlack_relabel hrb, ?_⟩
  rw [toList_fill]
  simp

end

end LinuxKernel.Lib.Rbtree
