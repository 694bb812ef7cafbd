/-
  Rb_erase keeps a red-black tree.

  Source: lib/rbtree.c, `__rb_erase_color` and `rb_erase`.

  Taking out a black node leaves a subtree that is one black node short.  The
  loop invariant (`Short`): the context around the current subtree accepts a black
  tree of height `n + 1`, and the subtree itself has that height once its root is
  painted black, or it is black of height `n`.  In the first case the loop ends
  and paints; in the second it rotates, which ends it as well, or recolours the
  sibling, which moves the shortage one level up.
-/
import LinuxKernel.Lib.RbtreeInsert

namespace LinuxKernel.Lib.Rbtree

open Foundation Foundation.ColorTree RbHeap List Ctx

variable {α : Type} {t : ColorTree α} {n : Nat} {a : α} {ctx : Ctx α} {c : Color} {d : Side}
  {h : RbHeap α} {T : ColorTree α} {p : α}

/-! ## Where the current node is -/

theorem exists_root_of_ne_nil (h : t ≠ .nil) : ∃ a, t.root = some a := by
  cases t with
  | nil => exact absurd rfl h
  | node c l a r => exact ⟨a, rfl⟩

/-- Two children of one node have different roots unless both are empty. -/
theorem sibling_root_ne_root {t u : ColorTree α} (hnodup : (ctx.fill (d.node c t a u)).toList.Nodup)
    (hu : u ≠ .nil) : u.root ≠ t.root := by
  cases ht : t.root with
  | none =>
    obtain ⟨b, hb⟩ := exists_root_of_ne_nil hu
    simp [hb]
  | some x => exact sibling_root_ne hnodup ht

/-- The root of a tree is a label of every nonempty context in it. -/
theorem root_fill_cons (ctx : Ctx α) (f : Frame α) (t : ColorTree α) :
    ∃ a ∈ ctxLabels (f :: ctx), (fill (f :: ctx) t).root = some a := by
  induction ctx generalizing f t with
  | nil => exact ⟨f.label, mem_ctxLabels_cons.mpr (Or.inl rfl), root_sideNode _ _ _ _ _⟩
  | cons g ctx ih =>
    obtain ⟨a, ha, hroot⟩ := ih g (f.plug t)
    exact ⟨a, mem_ctxLabels_cons.mpr (Or.inr (Or.inr ha)), hroot⟩

/-- Below a nonempty context the current node is not the root. -/
theorem root_ne_root_fill {f : Frame α} (hnodup : (fill (f :: ctx) t).toList.Nodup) :
    t.root ≠ (fill (f :: ctx) t).root := by
  intro heq
  obtain ⟨a, ha, hroot⟩ := root_fill_cons ctx f t
  rw [hroot] at heq
  exact (nodup_fill_iff.mp hnodup).2.2 a (mem_toList_of_root heq) ha

/-! ## One turn of the loop

The current subtree is `T`, on side `d` of its parent `p`. -/

section

variable [DecidableEq α] {o : α} {A B : ColorTree α}

/-- A black sibling is taken as it is. -/
theorem eraseColorSibling_black
    (hrep : Represents h (ctx.fill (d.node c T p (d.node .black A o B)))) :
    eraseColorSibling h d p = some (h, o) := by
  have hother := hrep.rbChild_opp
  have hcolor := hrep.far.rbColor
  simp [eraseColorSibling, hother, hcolor]

/-- A red sibling `s` is rotated above `p`; the new sibling is its near child. -/
theorem eraseColorSibling_red {s : α}
    (hrep : Represents h (ctx.fill (d.node c T p (d.node .red A s B)))) (hA : A.root = some o) :
    ∃ h', eraseColorSibling h d p = some (h', o) ∧ h'.live = h.live ∧
      Represents h' (fill (⟨d, .black, s, B⟩ :: ctx) (d.node .red T p A)) := by
  have hother := hrep.rbChild_opp
  have hcolor := hrep.far.rbColor
  obtain ⟨h1, hset1, hlive1, hrep1⟩ := hrep.far.recolor .black
  obtain ⟨h2, hset2, hlive2, hrep2⟩ := hrep1.of_far.recolor .red
  obtain ⟨h3, hrot, hlive3, hrep3⟩ := hrep2.rotate
  have hnew := hrep3.near.rbChild_opp
  rw [hA] at hnew
  refine ⟨h3, ?_, by rw [hlive3, hlive2, hlive1], hrep3⟩
  simp [eraseColorSibling, hother, hcolor, hset1, hset2, hrot, hnew]

/-- The last rotation gives the side of `T` one more black node and keeps the
colour at the top. -/
theorem eraseColorRotate_spec {c2 : Color}
    (hrep : Represents h (ctx.fill (d.node c T p (d.node c2 A o B)))) (hB : B.color = .red) :
    ∃ h', eraseColorRotate h d p o = some h' ∧ h'.live = h.live ∧
      Represents h' (ctx.fill (d.node c (d.node .black T p A) o B.blacken)) := by
  obtain ⟨b, hb⟩ : ∃ b, B.root = some b := exists_root_of_ne_nil (by rintro rfl; simp at hB)
  obtain ⟨l, r, hBeq⟩ := exists_sideNode_of_root hb .left
  have hcolor := hrep.rbColor
  obtain ⟨h1, hset1, hlive1, hrep1⟩ := hrep.far.recolor c
  obtain ⟨h2, hset2, hlive2, hrep2⟩ := hrep1.of_far.recolor .black
  have hfar := hrep2.far.rbChild_opp
  rw [hb] at hfar
  rw [hBeq] at hrep2
  obtain ⟨h3, hset3, hlive3, hrep3⟩ := hrep2.far.far.recolor .black
  obtain ⟨h4, hrot, hlive4, hrep4⟩ := hrep3.of_far.of_far.rotate
  refine ⟨h4, ?_, by rw [hlive4, hlive3, hlive2, hlive1], ?_⟩
  · simp [eraseColorRotate, hcolor, hset1, hset2, hfar, RbHeap.setColorIf, hset3, hrot]
  · rw [hBeq]
    exact hrep4

section

variable (hrep : Represents h (ctx.fill (d.node c T p (d.node .black A o B))))
include hrep

/-- Black sibling without red children: it turns red, and the loop goes on at the
parent. -/
theorem eraseColorBlack_recolor (hA : A.color = .black) (hB : B.color = .black) :
    ∃ h', eraseColorBlack h d p o = some (h', .again p (top ctx)) ∧ h'.live = h.live ∧
      Represents h' (ctx.fill (d.node c T p (d.node .red A o B))) := by
  have hnear := hrep.far.rbChild
  have hfar := hrep.far.rbChild_opp
  have hnearBlack := hrep.far.near.black hA
  have hfarBlack := hrep.far.far.black hB
  obtain ⟨h1, hset1, hlive1, hrep1⟩ := hrep.far.recolor .red
  have hup := hrep1.of_far.rbParent
  refine ⟨h1, ?_, hlive1, hrep1.of_far⟩
  simp [eraseColorBlack, hnear, hfar, hnearBlack, hfarBlack, hset1, hup]

/-- Black sibling with a red far child: one rotation. -/
theorem eraseColorBlack_far (hB : B.color = .red) :
    ∃ h', eraseColorBlack h d p o = some (h', .done (h'.slot .root)) ∧ h'.live = h.live ∧
      Represents h' (ctx.fill (d.node c (d.node .black T p A) o B.blacken)) := by
  have hnear := hrep.far.rbChild
  have hfar := hrep.far.rbChild_opp
  have hnearColor := hrep.far.near.blackOrNull
  have hfarRed : h.blackOrNull B.root = some false := by
    rw [hrep.far.far.blackOrNull, hB]
    rfl
  obtain ⟨h', hrot, hlive', hrep'⟩ := eraseColorRotate_spec hrep hB
  refine ⟨h', ?_, hlive', hrep'⟩
  simp [eraseColorBlack, hnear, hfar, hnearColor, hfarRed, hrot]

end

/-- Black sibling with a red near child `a` only: `a` is rotated into the place of
the sibling, and the last rotation follows. -/
theorem eraseColorBlack_near {A1 A2 : ColorTree α}
    (hrep : Represents h (ctx.fill (d.node c T p (d.node .black (d.node .red A1 a A2) o B))))
    (hB : B.color = .black) :
    ∃ h', eraseColorBlack h d p o = some (h', .done (h'.slot .root)) ∧ h'.live = h.live ∧
      Represents h'
        (ctx.fill (d.node c (d.node .black T p A1) a (d.node .black A2 o B))) := by
  have hnear := hrep.far.rbChild
  have hfar := hrep.far.rbChild_opp
  have hnearRed : h.blackOrNull (some a) = some false := by
    have hcolor := hrep.far.near.blackOrNull
    simpa using hcolor
  have hfarBlack := hrep.far.far.black hB
  obtain ⟨h1, hset1, hlive1, hrep1⟩ := hrep.far.near.recolor .black
  obtain ⟨h2, hset2, hlive2, hrep2⟩ := hrep1.of_near.recolor .red
  rw [← Side.opp_node d .red, ← Side.opp_node d .black] at hrep2
  obtain ⟨h3, hrot, hlive3, hrep3⟩ := hrep2.rotate
  rw [Side.opp_node, Side.opp_node] at hrep3
  have hother := hrep3.of_far.rbChild_opp
  obtain ⟨h4, hlast, hlive4, hrep4⟩ := eraseColorRotate_spec hrep3.of_far (color_sideNode _ _ _ _ _)
  refine ⟨h4, ?_, by rw [hlive4, hlive3, hlive2, hlive1], ?_⟩
  · simp [eraseColorBlack, hnear, hfar, hnearRed, hfarBlack, RbHeap.setColorIf, hset1, hset2, hrot,
      hother, hlast]
  · rw [blacken_sideNode] at hrep4
    exact hrep4

/-- Black sibling with a red child: the subtree at the parent is repaired and
keeps its colour. -/
theorem eraseColorBlack_rotate (hrep : Represents h (ctx.fill (d.node c T p (d.node .black A o B))))
    (hT : T.Balanced n) (hA : A.Balanced n) (hB : B.Balanced n)
    (hred : A.color = .red ∨ B.color = .red) :
    ∃ h' L R q, eraseColorBlack h d p o = some (h', .done (h'.slot .root)) ∧ h'.live = h.live ∧
      Represents h' (ctx.fill (d.node c L q R)) ∧ L.color = .black ∧ R.color = .black ∧
      L.Balanced (n + 1) ∧ R.Balanced (n + 1) ∧
      (d.node c L q R).toList = (d.node c T p (d.node .black A o B)).toList := by
  cases hBc : B.color with
  | red =>
    obtain ⟨h', hrun, hlive', hrep'⟩ := eraseColorBlack_far hrep hBc
    refine ⟨h', _, _, o, hrun, hlive', hrep', by simp, by simp,
      balanced_black_iff.mpr ⟨hT, hA⟩, hB.blacken_of_red hBc, ?_⟩
    cases d <;> simp
  | black =>
    have hAc : A.color = .red := by
      rcases hred with hAc | hBc'
      · exact hAc
      · rw [hBc] at hBc'
        cases hBc'
    obtain ⟨a, ha⟩ : ∃ a, A.root = some a := exists_root_of_ne_nil (by rintro rfl; simp at hAc)
    obtain ⟨A1, A2, hAeq⟩ := exists_sideNode_of_root ha d
    rw [hAc] at hAeq
    subst hAeq
    obtain ⟨-, -, hA1, hA2⟩ := balanced_red_iff.mp hA
    obtain ⟨h', hrun, hlive', hrep'⟩ := eraseColorBlack_near hrep hBc
    refine ⟨h', _, _, a, hrun, hlive', hrep', by simp, by simp,
      balanced_black_iff.mpr ⟨hT, hA1⟩, balanced_black_iff.mpr ⟨hA2, hB⟩, ?_⟩
    cases d <;> simp

end

/-! ## The loop -/

/-- The heap operation `run` ends in a red-black tree with the labels `l`. -/
def Repairs (h : RbHeap α) (run : Option (RbHeap α)) (l : List α) : Prop :=
  ∃ h' t, run = some h' ∧ h'.live = h.live ∧ Represents h' t ∧ t.RedBlack ∧ t.toList = l

/-- A repair that begins with a step to `g`. -/
theorem Repairs.of_step {g : RbHeap α} {run run' : Option (RbHeap α)} {l l' : List α}
    (hg : Repairs g run l) (hlive : g.live = h.live) (hrun : run' = run) (hl : l = l') :
    Repairs h run' l' := by
  obtain ⟨h', t, hrest, hlive', hrep, hrb, hlist⟩ := hg
  exact ⟨h', t, hrun.trans hrest, hlive'.trans hlive, hrep, hrb, hlist.trans hl⟩

/-- The subtree is one black node short of `n + 1`, at its root at most. -/
def Short (t : ColorTree α) (n : Nat) : Prop :=
  (t.color = .red ∧ t.blacken.Balanced (n + 1)) ∨ (t.color = .black ∧ t.Balanced n)

section

variable [DecidableEq α]

/-- What `__rb_erase_color` does after one turn of its loop. -/
def eraseColorNext (s : RbHeap α × EraseNext α) : Option (RbHeap α) :=
  match s.2 with
  | .again x parent => rbEraseColor s.1 (some x) parent
  | .done x => s.1.setColorIf x .black

/-- Painting the root of a subtree black. -/
theorem Represents.setColorIf_black (hrep : Represents h (ctx.fill t)) :
    ∃ h', h.setColorIf t.root .black = some h' ∧ h'.live = h.live ∧
      Represents h' (ctx.fill t.blacken) := by
  cases t with
  | nil => exact ⟨h, rfl, rfl, hrep⟩
  | node c l a r => exact Represents.recolor (d := .left) hrep .black

/-- Painting the root of a red-black tree changes nothing. -/
theorem Represents.repairs_root (hrep : Represents h t) (hrb : t.RedBlack) :
    Repairs h (h.setColorIf (h.slot .root) .black) t.toList := by
  have hfocus : Represents h (fill [] t) := hrep
  obtain ⟨h', hset, hlive', hrep'⟩ := hfocus.setColorIf_black
  rw [blacken_of_black hrb.1] at hrep'
  rw [hrep.root]
  exact ⟨h', t, hset, hlive', hrep', hrb, rfl⟩

/-- The loop ends at a red node and at the root; painting the node repairs the
tree. -/
theorem rbEraseColor_exit (parent : Option α)
    (hrep : Represents h (ctx.fill t)) (hexit : t.color = .red ∨ ctx = [])
    (hbal : t.blacken.Balanced n) (hacc : Ctx.Accepts ctx .black n) :
    Repairs h (rbEraseColor h t.root parent) (ctx.fill t).toList := by
  obtain ⟨h', hset, hlive', hrep'⟩ := hrep.setColorIf_black
  refine ⟨h', _, ?_, hlive', hrep', ?_, toList_fill_congr ctx (toList_blacken t)⟩
  · have hloop : eraseColorLoop h t.root parent = some (h, t.root) := by
      rw [eraseColorLoop, hrep.blackOrNull]
      rcases hexit with hred | rfl
      · simp [hred]
      · have hroot := hrep.root
        simp [hroot]
    simp [rbEraseColor, hloop, hset]
  · exact (redBlack_fill_iff ctx _).mpr ⟨n, hbal, by rw [color_blacken]; exact hacc⟩

/-- At a black node below `p` the loop runs its body on the node's side. -/
theorem rbEraseColor_step {S : ColorTree α} (hrep : Represents h (ctx.fill (d.node c T p S)))
    (hT : T.color = .black) (hS : S ≠ .nil) :
    rbEraseColor h T.root (some p) = (eraseColorBody h d p).bind eraseColorNext := by
  have hblack := hrep.near.black hT
  have hne : T.root ≠ h.slot .root := by
    rw [hrep.near.root]
    exact root_ne_root_fill hrep.near.nodup
  have hsib := sibling_root_ne_root hrep.nodup hS
  obtain ⟨m, hm, hd⟩ : ∃ m, h.rbChild p .left = some m ∧
      (if m = T.root then Side.left else Side.right) = d := by
    cases d with
    | left => exact ⟨T.root, hrep.rbChild, by simp⟩
    | right => exact ⟨S.root, hrep.rbChild_opp, by simp [hsib]⟩
  rw [rbEraseColor, eraseColorLoop]
  simp only [hblack, Option.bind_eq_bind, Option.bind_some, ne_eq, hne, hm, hd]
  cases hbody : eraseColorBody h d p with
  | none => rfl
  | some s =>
    obtain ⟨h', next⟩ := s
    cases next <;> rfl

/-- One turn with a black sibling, for a parent of colour `c`: the loop ends
with the tree repaired, or it goes on at the parent. -/
theorem eraseColorBlack_turn {o : α} {A B : ColorTree α} {n m : Nat}
    (hrep : Represents h (ctx.fill (d.node c T p (d.node .black A o B)))) (hT : T.Balanced n)
    (hA : A.Balanced n) (hB : B.Balanced n)
    (hm : ∀ (L R : ColorTree α) (q : α), L.color = .black → R.color = .black →
      L.Balanced (n + 1) → R.Balanced (n + 1) → (d.node c L q R).Balanced m)
    (hacc : Ctx.Accepts ctx c m)
    (hup : ∀ h', h'.live = h.live → Represents h' (ctx.fill (d.node c T p (d.node .red A o B))) →
      A.color = .black → B.color = .black →
      Repairs h' (rbEraseColor h' (some p) (top ctx)) (ctx.fill (d.node c T p
      (d.node .red A o B))).toList) :
    Repairs h ((eraseColorBlack h d p o).bind eraseColorNext)
      (ctx.fill (d.node c T p (d.node .black A o B))).toList := by
  by_cases hblack : A.color = .black ∧ B.color = .black
  · obtain ⟨h1, hrun, hlive1, hrep1⟩ := eraseColorBlack_recolor hrep hblack.1 hblack.2
    refine (hup h1 hlive1 hrep1 hblack.1 hblack.2).of_step hlive1 (by rw [hrun]; rfl) ?_
    exact toList_fill_congr ctx (toList_sideNode_congr d rfl (toList_sideNode_congr d rfl rfl))
  have hred : A.color = .red ∨ B.color = .red := by
    cases hAc : A.color <;> cases hBc : B.color <;> simp_all
  obtain ⟨h1, L, R, q, hrun, hlive1, hrep1, hL, hR, hLb, hRb, hlist1⟩ :=
    eraseColorBlack_rotate hrep hT hA hB hred
  have hrb : (ctx.fill (d.node c L q R)).RedBlack := (redBlack_fill_iff ctx _).mpr
      ⟨m, hm L R q hL hR hLb hRb, by rw [color_sideNode]; exact hacc⟩
  refine (hrep1.repairs_root hrb).of_step hlive1 (by rw [hrun]; rfl) ?_
  exact toList_fill_congr ctx hlist1

/-- One turn with a black sibling below a red parent repairs the tree: if the loop
goes on, it ends at the parent, which is red. -/
theorem eraseColorBlack_turn_red {S : ColorTree α} {o : α}
    (hrep : Represents h (ctx.fill (d.node .red T p S))) (hT : T.Balanced n) (ho : S.root = some o)
    (hSc : S.color = .black) (hS : S.Balanced (n + 1)) (hacc : Ctx.Accepts ctx .red (n + 1)) :
    Repairs h ((eraseColorBlack h d p o).bind eraseColorNext)
      (ctx.fill (d.node .red T p S)).toList := by
  obtain ⟨A, B, hSeq⟩ := exists_sideNode_of_root ho d
  rw [hSc] at hSeq
  subst hSeq
  obtain ⟨hA, hB⟩ := balanced_black_iff.mp hS
  refine eraseColorBlack_turn hrep hT hA hB
    (fun L R q hL hR hLb hRb => balanced_red_iff.mpr ⟨hL, hR, hLb, hRb⟩) hacc ?_
  intro h' hlive' hrep' hAc hBc
  have hbal : (d.node .red T p (d.node .red A o B)).blacken.Balanced (n + 1) := by
    rw [blacken_sideNode]
    exact balanced_black_iff.mpr ⟨hT, balanced_red_iff.mpr ⟨hAc, hBc, hA, hB⟩⟩
  have hexit := rbEraseColor_exit (top ctx) hrep' (Or.inl (color_sideNode _ _ _ _ _))
    hbal hacc.black
  rwa [root_sideNode] at hexit

/-- `__rb_erase_color` repairs a tree with a short subtree. -/
theorem rbEraseColor_spec : ∀ (ctx : Ctx α) {h : RbHeap α} {T : ColorTree α} {n : Nat},
    Represents h (ctx.fill T) → Short T n → Ctx.Accepts ctx .black (n + 1) →
    Repairs h (rbEraseColor h T.root (top ctx)) (ctx.fill T).toList := by
  intro ctx
  induction ctx with
  | nil =>
    intro h T n hrep hshort hacc
    rcases hshort with ⟨-, hbal⟩ | ⟨hblack, hbal⟩
    · exact rbEraseColor_exit _ hrep (Or.inr rfl) hbal hacc
    · exact rbEraseColor_exit _ hrep (Or.inr rfl) (by rwa [blacken_of_black hblack]) rfl
  | cons f ctx ih =>
    intro h T n hrep hshort hacc
    rcases hshort with ⟨hred, hbal⟩ | ⟨hblack, hbal⟩
    · exact rbEraseColor_exit _ hrep (Or.inl hred) hbal hacc
    obtain ⟨d, c, p, S⟩ := f
    have hSbal : S.Balanced (n + 1) := hacc.1
    have hS : S ≠ .nil := hSbal.ne_nil
    obtain ⟨o, ho⟩ := exists_root_of_ne_nil hS
    obtain ⟨A, B, hSeq⟩ := exists_sideNode_of_root ho d
    rw [top_cons, rbEraseColor_step hrep.of_near hblack hS, eraseColorBody]
    cases c with
    | red =>
      obtain ⟨-, hSc, -, haccUp⟩ := accepts_cons_red.mp hacc
      have hsib : eraseColorSibling h d p = some (h, o) := by
        rw [hSeq, hSc] at hrep
        exact eraseColorSibling_black hrep.of_near
      rw [hsib]
      exact eraseColorBlack_turn_red hrep.of_near hbal ho hSc hSbal haccUp
    | black =>
      obtain ⟨-, haccUp⟩ := accepts_cons_black.mp hacc
      cases hSc : S.color with
      | black =>
        rw [hSc] at hSeq
        subst hSeq
        obtain ⟨hA, hB⟩ := balanced_black_iff.mp hSbal
        rw [eraseColorSibling_black hrep.of_near]
        refine eraseColorBlack_turn hrep.of_near hbal hA hB
          (fun L R q _ _ hLb hRb => balanced_black_iff.mpr ⟨hLb, hRb⟩) haccUp ?_
        -- the parent is black as well: the shortage moves up
        intro h' hlive' hrep' hAc hBc
        have hshort : Short (d.node .black T p (d.node .red A o B)) (n + 1) :=
          Or.inr ⟨color_sideNode _ _ _ _ _,
            balanced_black_iff.mpr ⟨hbal, balanced_red_iff.mpr ⟨hAc, hBc, hA, hB⟩⟩⟩
        have hrest := ih hrep' hshort haccUp
        rwa [root_sideNode] at hrest
      | red =>
        rw [hSc] at hSeq
        subst hSeq
        obtain ⟨hAc, hBc, hA, hB⟩ := balanced_red_iff.mp hSbal
        obtain ⟨a, ha⟩ := exists_root_of_ne_nil hA.ne_nil
        obtain ⟨h1, hsib, hlive1, hrep1⟩ := eraseColorSibling_red hrep.of_near ha
        rw [hsib]
        refine (eraseColorBlack_turn_red hrep1 hbal ha hAc hA
          (accepts_cons_black.mpr ⟨hB, haccUp⟩)).of_step hlive1 rfl ?_
        exact toList_fill_congr ctx (toList_rotate d .black .red .black .red T A B p o).symm

/-- The end of `rb_erase`: a node of colour `c` with the only child `T` was taken
out of a red-black tree; a black one leaves a shortage. -/
theorem eraseColorIf_spec {s : α} (hrep : Represents h (ctx.fill T))
    (hbal : (d.node c T s .nil).Balanced n) (hacc : Ctx.Accepts ctx c n) :
    Repairs h (if c = .black then rbEraseColor h T.root (top ctx) else some h)
      (ctx.fill T).toList := by
  cases c with
  | red =>
    obtain ⟨hT, -, hTbal, -⟩ := balanced_red_iff.mp hbal
    refine ⟨h, ctx.fill T, rfl, rfl, hrep, ?_, rfl⟩
    exact (redBlack_fill_iff ctx T).mpr ⟨n, hTbal, by rw [hT]; exact hacc.black⟩
  | black =>
    obtain ⟨m, rfl, hTbal, -⟩ := hbal.exists_of_black
    refine rbEraseColor_spec ctx hrep ?_ hacc
    cases hT : T.color with
    | red => exact Or.inl ⟨hT, hTbal.blacken_of_red hT⟩
    | black => exact Or.inr ⟨hT, hTbal⟩

end

/-! ## The successor -/

section

/-- Going left from the root of a subtree ends at its first node. -/
theorem leftmost_spec [DecidableEq α] (R : ColorTree α) {x : α} (hrep : Represents h (ctx.fill R))
    (hx : R.root = some x) :
    ∃ (spine : Ctx α) (cs : Color) (s : α) (C : ColorTree α), leftmost h x = some s ∧
      R = spine.fill (.node cs .nil s C) ∧ ∀ f ∈ spine, f.side = .left := by
  induction R generalizing ctx x with
  | nil => simp at hx
  | node c l y r ihl _ =>
    obtain rfl : y = x := by simpa using hx
    have hfocus : Represents h (ctx.fill (Side.left.node c l y r)) := hrep
    have hleft := hfocus.rbChild
    cases hl : l.root with
    | none =>
      obtain rfl := root_eq_none_iff.mp hl
      refine ⟨[], c, y, r, ?_, rfl, by simp⟩
      rw [leftmost]
      simp [hleft]
    | some z =>
      obtain ⟨spine, cs, s, C, hrun, hleq, hsides⟩ := ihl hfocus.near hl
      refine ⟨spine ++ [⟨.left, c, y, r⟩], cs, s, C, ?_, ?_, ?_⟩
      · rw [leftmost]
        simp [hleft, hl, hrun]
      · rw [fill_append, ← hleq]
        rfl
      · intro f hf
        rcases mem_append.mp hf with hf | hf
        · exact hsides f hf
        · rw [mem_singleton.mp hf]

/-- Nothing comes before the hole of a path to the left. -/
theorem before_of_left {spine : Ctx α} (hsides : ∀ f ∈ spine, f.side = .left) :
    before spine = [] := by
  induction spine with
  | nil => rfl
  | cons f spine ih =>
    simp only [before, hsides f (by simp)]
    exact ih fun g hg => hsides g (by simp [hg])

/-- Which trees a context accepts does not depend on its labels. -/
theorem accepts_relabel (spine : Ctx α) {c' : Color} {a b : α} {u : ColorTree α}
    (h : Ctx.Accepts (spine ++ ⟨d, c, a, u⟩ :: ctx) c' n) :
    Ctx.Accepts (spine ++ ⟨d, c, b, u⟩ :: ctx) c' n := by
  induction spine generalizing ctx d c c' a b u n with
  | nil => exact h
  | cons f spine ih =>
    obtain ⟨e, cf, x, v⟩ := f
    cases cf with
    | red => exact ⟨h.1, h.2.1, h.2.2.1, ih h.2.2.2⟩
    | black => exact ⟨h.1, ih h.2⟩

variable [DecidableEq α] {L R : ColorTree α} {old x : α}

/-- The successor `s` of a node with two children leaves its place to its right
child `C` and takes the place of that node. -/
theorem eraseSuccessor_spec (hrep : Represents h (ctx.fill (.node c L old R)))
    (hL : L ≠ .nil) (hR : R.root = some x) :
    ∃ h' spine cs s C p, R = fill spine (.node cs .nil s C) ∧ before spine = [] ∧
      eraseSuccessor h old x = some (h', C.root, p, cs) ∧ h'.live = h.live ∧
      top (spine ++ ⟨.right, c, s, L⟩ :: ctx) = some p ∧
      Represents h' (fill (spine ++ ⟨.right, c, s, L⟩ :: ctx) C) := by
  have hrepR : Represents h (fill (⟨.right, c, old, L⟩ :: ctx) R) :=
    Represents.far (d := .left) hrep
  obtain ⟨spine, cs, s, C, hrun, hReq, hsides⟩ := leftmost_spec R hrepR hR
  have hrepS : Represents h
      (fill (spine ++ ⟨.right, c, old, L⟩ :: ctx) (Side.right.node cs C s .nil)) := by
    rw [fill_append, Side.node_right, ← hReq]
    exact hrepR
  have hchild := hrepS.rbChild
  have hparent := hrepS.rbParent
  have hcolor := hrepS.rbColor
  obtain ⟨hnodupS, -, hapart⟩ := nodup_fill_iff.mp hrepS.nodup
  have hsctx := hapart s (by simp)
  have hsC : s ∉ C.toList := by
    simp only [Side.node_right, toList_node, toList_nil, nil_append, nodup_cons] at hnodupS
    exact hnodupS.1
  have hsnew : s ∉ (fill (spine ++ ⟨.right, c, old, L⟩ :: ctx) C).toList := by
    simp only [ctxLabels, mem_append] at hsctx
    rw [mem_fill]
    tauto
  -- first `s` is unlinked, then it takes the place of `old`
  obtain ⟨h1, hset, hlive1, -, hrep1⟩ := hrepS.unlink
  have hslive : h1.live s = true := by rw [hlive1]; exact hrepS.live
  have holdlive : h1.live old = true := by
    rw [hlive1]
    exact Represents.live (d := .left) hrep
  rw [fill_append] at hrep1 hsnew
  obtain ⟨h', htake, hlive', hrep'⟩ := Represents.takePlace hrep1 hslive hsnew hL
  cases spine with
  | nil =>
    refine ⟨h', [], cs, s, C, s, hReq, rfl, ?_, hlive'.trans hlive1, rfl, hrep'⟩
    simp only [nil_append, top_cons, hole_cons] at hparent hset htake
    simp [eraseSuccessor, hrun, hchild, hparent, hcolor, hset, rbSetChild, holdlive, htake]
  | cons f spine =>
    have hfR : f.label ∈ R.toList := by
      rw [hReq, fill_cons, mem_fill]
      simp [Frame.plug, mem_toList_sideNode]
    have hfold : f.label ≠ old := by
      intro heq
      refine (nodup_fill_iff.mp hrepR.nodup).2.2 f.label hfR ?_
      exact mem_ctxLabels_cons.mpr (Or.inl heq)
    have hflive : h1.live f.label = true := by
      rw [hlive1]
      exact (represents_fill_iff.mp hrepS).1.1
    have hfside := hsides f (by simp)
    refine ⟨h', f :: spine, cs, s, C, f.label, hReq, before_of_left hsides, ?_,
      hlive'.trans hlive1, rfl, ?_⟩
    · simp only [cons_append, top_cons, hole_cons, hfside] at hparent hset htake
      simp [eraseSuccessor, hrun, hchild, hparent, hcolor, hset, rbSetChild, hflive, hfold, htake]
    · rw [fill_append]
      exact hrep'

end

/-! ## The contract of removal -/

section

variable [DecidableEq α]

/-- Removing a node with at most one child. -/
theorem eraseOneChild_spec (hrep : Represents h (ctx.fill (d.node c t a .nil)))
    (hrb : (ctx.fill (d.node c t a .nil)).RedBlack) :
    Repairs h (eraseOneChild h a t.root) (ctx.fill t).toList := by
  obtain ⟨n, hbal, hacc⟩ := (redBlack_fill_iff ctx _).mp hrb
  rw [color_sideNode] at hacc
  obtain ⟨h1, hset, hlive1, hlink, hrep1⟩ := hrep.unlink
  refine (eraseColorIf_spec hrep1 hbal hacc).of_step hlive1 ?_ rfl
  simp only [eraseOneChild, hrep.rbParent, hrep.rbColor, hset, hlink, Option.bind_eq_bind,
    Option.bind_some]

/-- Removing any node of a red-black tree gives a red-black tree with the other
nodes in the same order. -/
theorem rbErase_spec {l r : ColorTree α}
    (hrep : Represents h (ctx.fill (.node c l a r))) (hrb : (ctx.fill (.node c l a r)).RedBlack) :
    Repairs h (rbErase h a) (before ctx ++ (l.toList ++ r.toList) ++ after ctx) := by
  have hleft : h.rbChild a .left = some l.root := Represents.rbChild hrep
  have hright : h.rbChild a .right = some r.root := Represents.rbChild_opp (d := .left) hrep
  cases hl : l.root with
  | none =>
    obtain rfl := root_eq_none_iff.mp hl
    have hone := eraseOneChild_spec (d := .right) hrep hrb
    rw [toList_fill] at hone
    simpa [rbErase, hleft, hright] using hone
  | some y =>
    cases hr : r.root with
    | none =>
      obtain rfl := root_eq_none_iff.mp hr
      have hone := eraseOneChild_spec (d := .left) hrep hrb
      rw [toList_fill] at hone
      simpa [rbErase, hleft, hright, hl] using hone
    | some x =>
      have hlne : l ≠ .nil := by rintro rfl; simp at hl
      obtain ⟨h1, spine, cs, s, C, p, hReq, hbefore, hrun, hlive1, htop, hrep1⟩ :=
        eraseSuccessor_spec hrep hlne hr
      have hrbS : (fill (spine ++ ⟨.right, c, a, l⟩ :: ctx)
          (Side.right.node cs C s .nil)).RedBlack := by
        rw [fill_append, Side.node_right, ← hReq]
        exact hrb
      obtain ⟨n, hbal, hacc⟩ := (redBlack_fill_iff _ _).mp hrbS
      refine (eraseColorIf_spec hrep1 hbal (accepts_relabel spine hacc)).of_step hlive1 ?_ ?_
      · rw [htop]
        simp only [rbErase, hleft, hright, hl, hr, hrun, Option.bind_eq_bind, Option.bind_some]
      · -- the successor comes first in the right subtree
        rw [fill_append, fill_cons, toList_fill, hReq]
        simp [Frame.plug, toList_fill spine, hbefore]

end

/-! ## The contract of the tree -/

/-- For every red-black tree in memory: linking a red node into any empty place and
running `rb_insert_color` inserts it there, and `rb_erase` removes any of its
nodes.  Both calls return, that is, their loops end and they dereference existing
nodes only, and the result is a red-black tree again. -/
theorem rbtree_maintained [DecidableEq α] {h : RbHeap α} {t : ColorTree α}
    (hrep : Represents h t) (hrb : t.RedBlack) :
    (∀ (ctx : Ctx α) (a : α), t = ctx.fill .nil → h.live a = true → a ∉ t.toList →
      ∃ h₁ h' t', rbLinkNode h a (Ctx.top ctx) (hole ctx) = some h₁ ∧
        rbInsertColor h₁ a = some h' ∧ h'.live = h.live ∧ Represents h' t' ∧ t'.RedBlack ∧
        t.toList = Ctx.before ctx ++ Ctx.after ctx ∧
        t'.toList = Ctx.before ctx ++ a :: Ctx.after ctx) ∧
    (∀ a ∈ t.toList, ∃ h' t', rbErase h a = some h' ∧ h'.live = h.live ∧ Represents h' t' ∧
      t'.RedBlack ∧ t'.toList = t.toList.erase a) := by
  constructor
  · rintro ctx a rfl hlive hnew
    obtain ⟨h₁, h', t', hlink, hrun, hlive', hrep', hrb', hlist⟩ :=
      rbInsertColor_spec hrep hrb hlive hnew
    refine ⟨h₁, h', t', hlink, hrun, hlive', hrep', hrb', ?_, hlist⟩
    simp [toList_fill]
  · intro a ha
    obtain ⟨ctx, c, l, r, rfl⟩ := exists_fill_of_mem ha
    obtain ⟨h', t', hrun, hlive', hrep', hrb', hlist⟩ := rbErase_spec hrep hrb
    refine ⟨h', t', hrun, hlive', hrep', hrb', ?_⟩
    have hbefore : a ∉ before ctx ++ l.toList := by
      have hnodup := hrep.nodup
      rw [toList_fill] at hnodup
      simp only [toList_node] at hnodup ⊢
      grind
    have hsplit : (fill ctx (.node c l a r)).toList =
        (before ctx ++ l.toList) ++ a :: (r.toList ++ after ctx) := by
      simp [toList_fill]
    rw [hlist, hsplit, erase_append_right _ hbefore]
    simp

/-- A tree of three nodes, with node `3` outside it. -/
def threeNodes : RbHeap Nat where
  live a := decide (a < 4)
  parent a := if a = 0 ∨ a = 2 then some 1 else none
  color a := if a = 1 then .black else .red
  slot
    | .root => some 1
    | .child 1 .left => some 0
    | .child 1 .right => some 2
    | _ => none

/-- In a tree of three nodes a fourth is inserted at the end, and the root is
erased. -/
theorem rbtree_maintained_threeNodes :
    (∃ h₁ h' t', rbLinkNode threeNodes 3 (some 2) (.child 2 .right) = some h₁ ∧
      rbInsertColor h₁ 3 = some h' ∧ Represents h' t' ∧ t'.RedBlack ∧ t'.toList = [0, 1, 2, 3]) ∧
    ∃ h' t', rbErase threeNodes 1 = some h' ∧ Represents h' t' ∧ t'.RedBlack ∧
      t'.toList = [0, 2] := by
  let t : ColorTree Nat := .node .black (.node .red .nil 0 .nil) 1 (.node .red .nil 2 .nil)
  have hrep : Represents threeNodes t := by
    refine ⟨rfl, ?_, by decide⟩
    simp [t, Rep, threeNodes]
  have hrb : t.RedBlack := ⟨rfl, 1, .black (.red rfl rfl .nil .nil) (.red rfl rfl .nil .nil)⟩
  obtain ⟨hins, hdel⟩ := rbtree_maintained hrep hrb
  obtain ⟨h₁, h', t', hlink, hrun, -, hrep', hrb', -, hlist⟩ :=
    hins [⟨.right, .red, 2, .nil⟩, ⟨.right, .black, 1, .node .red .nil 0 .nil⟩] 3 rfl
      (by decide) (by decide)
  obtain ⟨g, u, hrun2, -, hrep2, hrb2, hlist2⟩ := hdel 1 (by decide)
  exact ⟨⟨h₁, h', t', hlink, hrun, hrep', hrb', hlist⟩, g, u, hrun2, hrep2, hrb2, hlist2⟩

end LinuxKernel.Lib.Rbtree
