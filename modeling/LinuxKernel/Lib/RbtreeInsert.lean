/-
  Rb_insert_color keeps a red-black tree.

  Source: lib/rbtree.c, `rb_insert_color`.

  The loop invariant: the current node is red, its subtree is balanced, and the
  context around it would accept a black tree of the same black height.  So the
  only thing that can be wrong is a red parent.  Each turn of the loop either
  ends with the tree repaired, or shortens the context by two frames.
-/
import LinuxKernel.Lib.RbtreeHeap

namespace LinuxKernel.Lib.Rbtree

open Foundation Foundation.ColorTree RbHeap Ctx

variable {α : Type} {t u : ColorTree α} {c : Color} {h : RbHeap α} {ctx : Ctx α} {d : Side} {x : α}

/-- In a tree, the child of the top frame of a context on the wrong side is not
the node in the hole. -/
theorem sibling_root_ne {a : α} (hnodup : (ctx.fill (d.node c t a u)).toList.Nodup)
    (hx : t.root = some x) : u.root ≠ some x := by
  intro hu
  have hnd := (nodup_fill_iff.mp hnodup).1
  have hxt := mem_toList_of_root hx
  have hxu := mem_toList_of_root hu
  cases d <;> simp only [Side.node, toList_node] at hnd <;> grind

/-- The side test of the code: which child of `a` is the root of `t`. -/
theorem side_test {a : α} (hrep : Represents h (ctx.fill (d.node c t a u))) (hx : t.root = some x)
    (e : Side) : ∃ n, h.rbChild a e = some n ∧ (n = some x ↔ e = d) := by
  rcases Side.eq_or_eq_opp d e with rfl | rfl
  · exact ⟨t.root, hrep.rbChild, by simp [hx]⟩
  · exact ⟨u.root, hrep.rbChild_opp, by simp [sibling_root_ne hrep.nodup hx]⟩

/-! ## One turn of the loop

The tree around the current node `x`, seen from its grandparent `g` on whose side
`d` the parent `f` hangs, is `d.node .black F g U` where `F` is the red parent with
the subtree `X` of `x` on one side and `S` on the other. -/

section

variable [DecidableEq α] {f g : α} {X S U : ColorTree α}

/-- Red uncle: recolouring moves the violation to the grandparent. -/
theorem insertColorBody_redUncle {e : Side}
    (hrep : Represents h (ctx.fill (d.node .black (e.node .red X f S) g U))) (hU : U.color = .red) :
    ∃ h', insertColorBody h d x f g = some (h', g) ∧ h'.live = h.live ∧
      Represents h' (ctx.fill (d.node .red (e.node .black X f S) g U.blacken)) := by
  obtain ⟨u, hu⟩ : ∃ u, U.root = some u := by
    cases U with
    | nil => simp at hU
    | node c l u r => exact ⟨u, rfl⟩
  obtain ⟨l, r, hUeq⟩ := exists_sideNode_of_root hu .left
  have huncle := hrep.rbChild_opp
  have htest : h.blackOrNull U.root = some false := by
    rw [hrep.far.blackOrNull, hU]
    rfl
  rw [hu] at huncle htest
  rw [hUeq] at hrep
  obtain ⟨h1, hset1, hlive1, hrep1⟩ := hrep.far.recolor .black
  obtain ⟨h2, hset2, hlive2, hrep2⟩ := hrep1.of_far.near.recolor .black
  obtain ⟨h3, hset3, hlive3, hrep3⟩ := hrep2.of_near.recolor .red
  refine ⟨h3, ?_, by rw [hlive3, hlive2, hlive1], ?_⟩
  · simp [insertColorBody, huncle, htest, RbHeap.setColorIf, hset1, hset2, hset3]
  · rw [hUeq]
    exact hrep3

/-- Black uncle, `x` on the outer side of its parent: one rotation repairs the
tree. -/
theorem insertColorBody_outer
    (hrep : Represents h (ctx.fill (d.node .black (d.node .red X f S) g U))) (hX : X.root = some x)
    (hU : U.color = .black) : ∃ h', insertColorBody h d x f g = some (h', x) ∧ h'.live = h.live ∧
      Represents h' (ctx.fill (d.opp.node .black (d.opp.node .red U g S) f X)) := by
  have huncle := hrep.rbChild_opp
  have htest := hrep.far.black hU
  have hinner : h.rbChild f d.opp = some S.root := hrep.near.rbChild_opp
  have hne : S.root ≠ some x := sibling_root_ne hrep.near.nodup hX
  obtain ⟨h1, hset1, hlive1, hrep1⟩ := hrep.near.recolor .black
  obtain ⟨h2, hset2, hlive2, hrep2⟩ := hrep1.of_near.recolor .red
  rw [← Side.opp_node d .black, ← Side.opp_node d .red] at hrep2
  obtain ⟨h3, hrot, hlive3, hrep3⟩ := hrep2.rotate
  refine ⟨h3, ?_, by rw [hlive3, hlive2, hlive1], hrep3⟩
  simp [insertColorBody, huncle, htest, hinner, hne, hset1, hset2, hrot]

/-- Black uncle, `x` on the inner side of its parent: two rotations repair the
tree. -/
theorem insertColorBody_inner {X1 X2 : ColorTree α}
    (hrep : Represents h (ctx.fill (d.node .black (d.node .red S f (d.node .red X1 x X2)) g U)))
    (hU : U.color = .black) : ∃ h', insertColorBody h d x f g = some (h', f) ∧ h'.live = h.live ∧
      Represents h'
        (ctx.fill (d.opp.node .black (d.opp.node .red U g X2) x (d.node .red S f X1))) := by
  have huncle := hrep.rbChild_opp
  have htest := hrep.far.black hU
  have hinner := hrep.near.rbChild_opp
  obtain ⟨h1, hrot1, hlive1, hrep1⟩ := hrep.near.rotate
  obtain ⟨h2, hset2, hlive2, hrep2⟩ := hrep1.recolor .black
  obtain ⟨h3, hset3, hlive3, hrep3⟩ := hrep2.of_near.recolor .red
  rw [← Side.opp_node d .black, ← Side.opp_node d .red _ g] at hrep3
  obtain ⟨h4, hrot4, hlive4, hrep4⟩ := hrep3.rotate
  refine ⟨h4, ?_, by rw [hlive4, hlive3, hlive2, hlive1], hrep4⟩
  simp [insertColorBody, huncle, htest, hinner, hrot1, hset2, hset3, hrot4]

end

/-! ## The loop -/

section

variable [DecidableEq α]

/-- The loop ends at a node without parent. -/
theorem insertColorLoop_of_root (hp : h.rbParent x = some none) : insertColorLoop h x = some h := by
  rw [insertColorLoop]
  simp [hp]

/-- The loop ends below a black parent. -/
theorem insertColorLoop_of_black {f : α} (hp : h.rbParent x = some (some f))
    (hc : h.rbColor f = some .black) : insertColorLoop h x = some h := by
  rw [insertColorLoop]
  simp [hp, hc]

/-- Below a red parent the loop runs its body on the parent's side. -/
theorem insertColorLoop_of_red {f g : α} (hp : h.rbParent x = some (some f))
    (hrep : Represents h (ctx.fill (d.node c t g u))) (ht : t.root = some f)
    (hpg : h.rbParent f = some (some g)) (hc : h.rbColor f = some .red) : insertColorLoop h x =
      (insertColorBody h d x f g).bind fun s => insertColorLoop s.1 s.2 := by
  obtain ⟨n, hn, hside⟩ := side_test hrep ht .left
  have hd : (if n = some f then Side.left else Side.right) = d := by cases d <;> simp_all
  rw [insertColorLoop]
  simp [hp, hpg, hc, hn, hd]

/-- After a rotation the loop finds the new subtree root black. -/
theorem insertColorLoop_done {e : Side} {A X : ColorTree α} {a : α}
    (hrep : Represents h (ctx.fill (e.node .black A a X))) (hX : X.root = some x) :
    insertColorLoop h x = some h := by
  obtain ⟨l, r, hXeq⟩ := exists_sideNode_of_root hX .left
  have hcolor := hrep.rbColor
  rw [hXeq] at hrep
  exact insertColorLoop_of_black hrep.far.rbParent hcolor

/-- The loop of `rb_insert_color` terminates, touches only nodes of the tree, and
leaves a tree that is red-black once its root is black. -/
theorem insertColorLoop_spec : ∀ (k : Nat) {h : RbHeap α} {ctx : Ctx α} {X : ColorTree α} {x : α}
    {n : Nat}, ctx.length ≤ k → Represents h (ctx.fill X) → X.root = some x →
    X.color = .red → X.Balanced n → Ctx.Accepts ctx .black n →
    ∃ h' t, insertColorLoop h x = some h' ∧ h'.live = h.live ∧ Represents h' t ∧
      t ≠ .nil ∧ t.blacken.RedBlack ∧ t.toList = (ctx.fill X).toList := by
  intro k
  induction k using Nat.strongRecOn with
  | ind k ih =>
    intro h ctx X x n hlen hrep hX hred hbal hacc
    obtain ⟨X1, X2, hXeq⟩ := exists_sideNode_of_root hX .left
    have hne : X ≠ .nil := by rw [hXeq]; simp
    have hp : h.rbParent x = some (top ctx) := by
      rw [hXeq] at hrep
      exact hrep.rbParent
    cases ctx with
    | nil =>
      refine ⟨h, X, insertColorLoop_of_root hp, rfl, hrep, hne, ?_, rfl⟩
      exact ⟨by simp, n + 1, hbal.blacken_of_red hred⟩
    | cons F ctx =>
      obtain ⟨e, c, f, S⟩ := F
      cases c with
      | black =>
        have hc : h.rbColor f = some .black := hrep.of_near.rbColor
        obtain ⟨hSbal, haccF⟩ := accepts_cons_black.mp hacc
        refine ⟨h, _, insertColorLoop_of_black hp hc, rfl, hrep, fill_ne_nil _ hne, ?_, rfl⟩
        show (fill ctx (e.node .black X f S)).blacken.RedBlack
        exact redBlack_blacken_fill (color_sideNode _ _ _ _ _)
          (balanced_black_iff.mpr ⟨hbal, hSbal⟩) haccF
      | red =>
        obtain ⟨-, hS, hSbal, haccF⟩ := accepts_cons_red.mp hacc
        cases ctx with
        | nil => simp [Ctx.Accepts] at haccF
        | cons G ctx =>
          obtain ⟨d, c, g, U⟩ := G
          cases c with
          | red => simp [accepts_cons_red] at haccF
          | black =>
            obtain ⟨hUbal, haccG⟩ := accepts_cons_black.mp haccF
            have hrepF := hrep.of_near
            have hrepG := hrepF.of_near
            have hloop := insertColorLoop_of_red hp hrepG (root_sideNode _ _ _ _ _)
              hrepF.rbParent hrepF.rbColor
            cases hU : U.color with
            | red =>
              -- recolour and go on at the grandparent
              obtain ⟨h1, hbody, hlive1, hrep1⟩ := insertColorBody_redUncle hrepG hU
              obtain ⟨h', t, hrun, hlive', hrep', hne', hrb, hlist⟩ :=
                ih ctx.length (by simp at hlen; omega) (Nat.le_refl _) hrep1
                  (root_sideNode _ _ _ _ _) (color_sideNode _ _ _ _ _)
                  (balanced_red_iff.mpr ⟨by simp, by simp,
                    balanced_black_iff.mpr ⟨hbal, hSbal⟩, hUbal.blacken_of_red hU⟩) haccG
              refine ⟨h', t, ?_, hlive'.trans hlive1, hrep', hne', hrb, ?_⟩
              · rw [hloop, hbody]
                exact hrun
              · rw [hlist]
                refine toList_fill_congr ctx (toList_sideNode_congr d ?_ (toList_blacken U))
                exact toList_sideNode_congr e rfl rfl
            | black =>
              rcases Side.eq_or_eq_opp d e with rfl | rfl
              · obtain ⟨h1, hbody, hlive1, hrep1⟩ := insertColorBody_outer hrepG hX hU
                refine ⟨h1, _, ?_, hlive1, hrep1, fill_ne_nil _ ?_, ?_, ?_⟩
                · rw [hloop, hbody]
                  exact insertColorLoop_done hrep1 hX
                · cases e <;> simp
                · refine redBlack_blacken_fill (by simp) (balanced_black_iff.mpr ⟨?_, hbal⟩) haccG
                  exact balanced_red_iff.mpr ⟨hU, hS, hUbal, hSbal⟩
                · refine toList_fill_congr ctx ?_
                  cases e <;> simp [Frame.plug]
              · obtain ⟨X1, X2, hXeq⟩ := exists_sideNode_of_root hX d
                rw [hred] at hXeq
                subst hXeq
                obtain ⟨hX1, hX2, hX1bal, hX2bal⟩ := balanced_red_iff.mp hbal
                rw [Side.opp_node] at hrepG
                obtain ⟨h1, hbody, hlive1, hrep1⟩ := insertColorBody_inner hrepG hU
                refine ⟨h1, _, ?_, hlive1, hrep1, fill_ne_nil _ ?_, ?_, ?_⟩
                · rw [hloop, hbody]
                  exact insertColorLoop_done hrep1 (root_sideNode _ _ _ _ _)
                · cases d <;> simp
                · refine redBlack_blacken_fill (by simp) (balanced_black_iff.mpr ⟨?_, ?_⟩) haccG
                  · exact balanced_red_iff.mpr ⟨hU, hX2, hUbal, hX2bal⟩
                  · exact balanced_red_iff.mpr ⟨hS, hX1, hSbal, hX1bal⟩
                · refine toList_fill_congr ctx ?_
                  cases d <;> simp [Frame.plug]

/-! ## The contract of insertion -/

/-- Linking a red node into an empty place of a red-black tree and running
`rb_insert_color` gives a red-black tree with the node added at that place. -/
theorem rbInsertColor_spec {a : α} (hrep : Represents h (ctx.fill .nil))
    (hrb : (ctx.fill .nil).RedBlack) (hlive : h.live a = true) (hnew : a ∉ (ctx.fill .nil).toList) :
    ∃ h1 h' t, rbLinkNode h a (top ctx) (hole ctx) = some h1 ∧
      rbInsertColor h1 a = some h' ∧ h'.live = h.live ∧ Represents h' t ∧ t.RedBlack ∧
      t.toList = before ctx ++ a :: after ctx := by
  obtain ⟨h1, hlink, hlive1, hrep1⟩ := hrep.link hlive hnew
  obtain ⟨n, hnil, hacc⟩ := (redBlack_fill_iff ctx .nil).mp hrb
  obtain rfl := balanced_nil_iff.mp hnil
  obtain ⟨h2, t, hloop, hlive2, hrep2, hne, hblack, hlist⟩ :=
    insertColorLoop_spec ctx.length (Nat.le_refl _) hrep1 rfl rfl (.red rfl rfl .nil .nil) hacc
  -- the last statement of the function paints the root
  obtain ⟨b, hb⟩ : ∃ b, t.root = some b := by
    cases t with
    | nil => exact absurd rfl hne
    | node c l b r => exact ⟨b, rfl⟩
  obtain ⟨l, r, ht⟩ := exists_sideNode_of_root hb .left
  have hroot := hrep2.root
  rw [ht] at hrep2 hblack hlist
  have hfocus : Represents h2 (fill [] (Side.left.node t.color l b r)) := hrep2
  obtain ⟨h3, hset, hlive3, hrep3⟩ := hfocus.recolor .black
  refine ⟨h1, h3, _, hlink, ?_, by rw [hlive3, hlive2, hlive1], hrep3, hblack, ?_⟩
  · simp [rbInsertColor, hloop, hroot, hb, hset]
  · have heq := hlist
    rw [toList_fill] at heq
    simpa using heq

end

end LinuxKernel.Lib.Rbtree
