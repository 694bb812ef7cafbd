/-
  Binary trees with coloured nodes, their contexts,
  and the red-black balance condition.

  A pointer structure is related to a `ColorTree` whose node labels are the
  addresses of the records.  A `Frame` is one step of a path: the side that was
  taken, the node left behind and the subtree not entered.  A `Ctx` is a path
  with the deepest frame first, so that

      fill (f :: ctx) t = fill ctx (f.plug t)

  holds by definition and refocusing needs no lemma.

  Everything that has a mirror image is stated once, over `Side`.
-/
import Mathlib

namespace LinuxKernel.Foundation

/-! ## Trees and sides -/

/-- Node colours. -/
inductive Color where
  | red
  | black
  deriving DecidableEq, Repr, Inhabited

/-- A binary tree with coloured, labelled inner nodes. -/
inductive ColorTree (α : Type) where
  | nil
  | node (c : Color) (l : ColorTree α) (a : α) (r : ColorTree α)
  deriving DecidableEq, Repr

/-- The two sides of a node. -/
inductive Side where
  | left
  | right
  deriving DecidableEq, Repr

/-- The other side. -/
def Side.opp : Side → Side
  | .left => .right
  | .right => .left

@[simp] theorem Side.opp_left : Side.left.opp = .right := rfl
@[simp] theorem Side.opp_right : Side.right.opp = .left := rfl
@[simp] theorem Side.opp_opp (d : Side) : d.opp.opp = d := by cases d <;> rfl
@[simp] theorem Side.opp_ne (d : Side) : d.opp ≠ d := by cases d <;> simp
@[simp] theorem Side.ne_opp (d : Side) : d ≠ d.opp := by cases d <;> simp

theorem Side.eq_or_eq_opp (d e : Side) : e = d ∨ e = d.opp := by cases d <;> cases e <;> simp

variable {α : Type} {t : ColorTree α} {n : Nat} {a : α} {d : Side} {c : Color} {u : ColorTree α}

/-- The node whose subtree on side `d` is `t` and whose other subtree is `u`. -/
def Side.node (d : Side) (c : Color) (t : ColorTree α) (a : α) (u : ColorTree α) :
    ColorTree α :=
  match d with
  | .left => .node c t a u
  | .right => .node c u a t

section

variable (c : Color) (t : ColorTree α) (a : α) (u : ColorTree α)

@[simp] theorem Side.node_left : Side.left.node c t a u = .node c t a u := rfl
@[simp] theorem Side.node_right : Side.right.node c t a u = .node c u a t := rfl

end

theorem Side.opp_node (d : Side) (c : Color) (t : ColorTree α) (a : α) (u : ColorTree α) :
    d.opp.node c t a u = d.node c u a t := by
  cases d <;> rfl

namespace ColorTree

/-- The label of the root. -/
def root : ColorTree α → Option α
  | nil => none
  | node _ _ a _ => some a

/-- The colour of the root; an empty tree counts as black. -/
def color : ColorTree α → Color
  | nil => .black
  | node c _ _ _ => c

/-- The in-order sequence of labels. -/
def toList : ColorTree α → List α
  | nil => []
  | node _ l a r => l.toList ++ a :: r.toList

/-- Paint the root black. -/
def blacken : ColorTree α → ColorTree α
  | nil => nil
  | node _ l a r => node .black l a r

@[simp] theorem root_nil : (nil : ColorTree α).root = none := rfl
@[simp] theorem root_node (c : Color) (l r : ColorTree α) (a : α) :
    (node c l a r).root = some a := rfl
@[simp] theorem color_nil : (nil : ColorTree α).color = .black := rfl
@[simp] theorem color_node (c : Color) (l r : ColorTree α) (a : α) : (node c l a r).color = c := rfl
@[simp] theorem toList_nil : (nil : ColorTree α).toList = [] := rfl
@[simp] theorem toList_node (c : Color) (l r : ColorTree α) (a : α) :
    (node c l a r).toList = l.toList ++ a :: r.toList := rfl

section

variable (d : Side) (c : Color) (t u : ColorTree α) (a : α)

@[simp] theorem root_sideNode : (d.node c t a u).root = some a := by cases d <;> rfl

@[simp] theorem color_sideNode : (d.node c t a u).color = c := by cases d <;> rfl

@[simp] theorem blacken_sideNode :
    (d.node c t a u).blacken = d.node .black t a u := by cases d <;> rfl

end

@[simp] theorem toList_blacken (t : ColorTree α) : t.blacken.toList = t.toList := by cases t <;> rfl

@[simp] theorem color_blacken (t : ColorTree α) : t.blacken.color = .black := by cases t <;> rfl

theorem blacken_of_black (h : t.color = .black) : t.blacken = t := by
  cases t with
  | nil => rfl
  | node c l a r =>
    obtain rfl : c = .black := h
    rfl

theorem root_eq_none_iff : t.root = none ↔ t = nil := by cases t <;> simp

/-- A root label comes from a node, seen from either side. -/
theorem exists_sideNode_of_root (h : t.root = some a) (d : Side) :
    ∃ l r, t = d.node t.color l a r := by
  cases t with
  | nil => simp at h
  | node c l b r =>
    obtain rfl : b = a := by simpa using h
    cases d with
    | left => exact ⟨l, r, rfl⟩
    | right => exact ⟨r, l, rfl⟩

theorem mem_toList_sideNode {t : ColorTree α} {a b : α} :
    b ∈ (d.node c t a u).toList ↔ b = a ∨ b ∈ t.toList ∨ b ∈ u.toList := by
  cases d <;> simp only [Side.node, toList, List.mem_append, List.mem_cons] <;> tauto

theorem mem_toList_of_root (h : t.root = some a) : a ∈ t.toList := by
  cases t with
  | nil => simp at h
  | node c l b r => simp at h; simp [h]

/-- A rotation does not change the order of the labels. -/
theorem toList_rotate (d : Side) (c1 c2 c3 c4 : Color) (l m r : ColorTree α) (x y : α) :
    (d.node c1 l x (d.node c2 m y r)).toList = (d.node c3 (d.node c4 l x m) y r).toList := by
  cases d <;> simp

theorem toList_sideNode_congr (d : Side) {c c' : Color} {t t' u' : ColorTree α}
    (ht : t.toList = t'.toList) (hu : u.toList = u'.toList) :
    (d.node c t a u).toList = (d.node c' t' a u').toList := by
  cases d <;> simp [ht, hu]

end ColorTree

/-! ## Contexts -/

/-- One step of a path from the root: side taken, node passed, subtree not
entered. -/
structure Frame (α : Type) where
  side : Side
  color : Color
  label : α
  sibling : ColorTree α

/-- Put a subtree back under the node of the frame. -/
def Frame.plug (f : Frame α) (t : ColorTree α) : ColorTree α :=
  f.side.node f.color t f.label f.sibling

/-- A path, deepest frame first. -/
abbrev Ctx (α : Type) := List (Frame α)

namespace Ctx

/-- The whole tree around a subtree. -/
def fill : Ctx α → ColorTree α → ColorTree α
  | [], t => t
  | f :: ctx, t => fill ctx (f.plug t)

/-- The label of the node above the hole. -/
def top : Ctx α → Option α
  | [] => none
  | f :: _ => some f.label

/-- Labels in front of the hole, in order. -/
def before : Ctx α → List α
  | [] => []
  | f :: ctx =>
    match f.side with
    | .left => before ctx
    | .right => before ctx ++ (f.sibling.toList ++ [f.label])

/-- Labels behind the hole, in order. -/
def after : Ctx α → List α
  | [] => []
  | f :: ctx =>
    match f.side with
    | .left => f.label :: f.sibling.toList ++ after ctx
    | .right => after ctx

@[simp] theorem fill_nil (t : ColorTree α) : fill [] t = t := rfl
@[simp] theorem fill_cons (f : Frame α) (ctx : Ctx α) (t : ColorTree α) :
    fill (f :: ctx) t = fill ctx (f.plug t) := rfl
@[simp] theorem top_nil : top ([] : Ctx α) = none := rfl
@[simp] theorem top_cons (f : Frame α) (ctx : Ctx α) : top (f :: ctx) = some f.label := rfl

theorem fill_append (ctx1 ctx2 : Ctx α) (t : ColorTree α) :
    fill (ctx1 ++ ctx2) t = fill ctx2 (fill ctx1 t) := by
  induction ctx1 generalizing ctx2 t with
  | nil => rfl
  | cons f ctx1 ih => exact ih ctx2 (f.plug t)

theorem fill_ne_nil (ctx : Ctx α) {t : ColorTree α} (ht : t ≠ .nil) : fill ctx t ≠ .nil := by
  induction ctx generalizing t with
  | nil => exact ht
  | cons f ctx ih =>
    refine ih ?_
    cases hside : f.side <;> simp [Frame.plug, hside]

/-- The in-order sequence splits at the hole. -/
theorem toList_fill (ctx : Ctx α) (t : ColorTree α) :
    (fill ctx t).toList = before ctx ++ t.toList ++ after ctx := by
  induction ctx generalizing t with
  | nil => simp [before, after]
  | cons f ctx ih =>
    rw [fill_cons, ih]
    cases hside : f.side <;> simp [Frame.plug, before, after, hside]

theorem toList_fill_congr (ctx : Ctx α) {t : ColorTree α} (h : t.toList = u.toList) :
    (fill ctx t).toList = (fill ctx u).toList := by
  rw [toList_fill, toList_fill, h]

theorem mem_fill {ctx : Ctx α} :
    a ∈ (fill ctx t).toList ↔ a ∈ before ctx ∨ a ∈ t.toList ∨ a ∈ after ctx := by
  simp [toList_fill]

/-- Every label of a tree sits at the hole of some context. -/
theorem exists_fill_of_mem (h : a ∈ t.toList) :
    ∃ (ctx : Ctx α) (c : Color) (l r : ColorTree α), t = ctx.fill (.node c l a r) := by
  induction t with
  | nil => simp at h
  | node c l b r ihl ihr =>
    rcases List.mem_append.mp h with hl | hr
    · obtain ⟨ctx, c', l', r', rfl⟩ := ihl hl
      exact ⟨ctx ++ [⟨.left, c, b, r⟩], c', l', r', by rw [fill_append]; rfl⟩
    rcases List.mem_cons.mp hr with rfl | hr
    · exact ⟨[], c, l, r, rfl⟩
    · obtain ⟨ctx, c', l', r', rfl⟩ := ihr hr
      exact ⟨ctx ++ [⟨.right, c, b, l⟩], c', l', r', by rw [fill_append]; rfl⟩

end Ctx

/-! ## Red-black balance -/

namespace ColorTree

/-- `t.Balanced n`: no red node of `t` has a red child, and every path from the
root of `t` to an empty subtree meets exactly `n` black nodes. -/
inductive Balanced : ColorTree α → Nat → Prop
  | nil : Balanced nil 0
  | red {l r : ColorTree α} {a : α} {n : Nat} (hl : l.color = .black) (hr : r.color = .black) :
      Balanced l n → Balanced r n → Balanced (node .red l a r) n
  | black {l r : ColorTree α} {a : α} {n : Nat} :
      Balanced l n → Balanced r n → Balanced (node .black l a r) (n + 1)

/-- A red-black tree: black root, no red node with a red child, equal black
height on all paths. -/
def RedBlack (t : ColorTree α) : Prop := t.color = .black ∧ ∃ n, t.Balanced n

theorem balanced_nil_iff : (nil : ColorTree α).Balanced n ↔ n = 0 := by
  constructor
  · intro h; cases h; rfl
  · rintro rfl; exact .nil

variable {l r : ColorTree α}

theorem balanced_red_iff : (d.node .red l a r).Balanced n ↔
      l.color = .black ∧ r.color = .black ∧ l.Balanced n ∧ r.Balanced n := by
  constructor
  · intro h
    cases d <;> cases h with
    | red hl hr bl br => simp_all
  · rintro ⟨hl, hr, bl, br⟩
    cases d
    · exact .red hl hr bl br
    · exact .red hr hl br bl

theorem balanced_black_iff :
    (d.node .black l a r).Balanced (n + 1) ↔ l.Balanced n ∧ r.Balanced n := by
  constructor
  · intro h
    cases d <;> cases h with
    | black bl br => simp_all
  · rintro ⟨bl, br⟩
    cases d
    · exact .black bl br
    · exact .black br bl

/-- A black node has positive black height. -/
theorem Balanced.exists_of_black (h : (d.node .black l a r).Balanced n) :
    ∃ m, n = m + 1 ∧ l.Balanced m ∧ r.Balanced m := by
  cases n with
  | zero => cases d <;> cases h
  | succ m => exact ⟨m, rfl, balanced_black_iff.mp h⟩

/-- Positive black height means that there is a node. -/
theorem Balanced.ne_nil (h : t.Balanced (n + 1)) : t ≠ ColorTree.nil := by
  rintro rfl
  cases h

theorem Balanced.blacken_of_red (h : t.Balanced n)
    (hred : t.color = .red) : t.blacken.Balanced (n + 1) := by
  cases h with
  | nil => simp at hred
  | red _ _ hl hr => exact .black hl hr
  | black _ _ => simp at hred

end ColorTree

namespace Ctx

/-- `accepts ctx c n`: filling `ctx` with a balanced tree of root colour `c` and
black height `n` gives a red-black tree. -/
def Accepts : Ctx α → Color → Nat → Prop
  | [], c, _ => c = .black
  | f :: ctx, c, n =>
    f.sibling.Balanced n ∧
      match f.color with
      | .red => c = .black ∧ f.sibling.color = .black ∧ Accepts ctx .red n
      | .black => Accepts ctx .black (n + 1)

theorem accepts_cons_red {ctx : Ctx α} : Accepts (⟨d, .red, a, u⟩ :: ctx) c n ↔
      c = .black ∧ u.color = .black ∧ u.Balanced n ∧ Accepts ctx .red n := by
  simp only [Accepts]
  tauto

theorem accepts_cons_black {ctx : Ctx α} :
    Accepts (⟨d, .black, a, u⟩ :: ctx) c n ↔ u.Balanced n ∧ Accepts ctx .black (n + 1) := by
  simp [Accepts]

theorem Accepts.black {ctx : Ctx α} (h : Accepts ctx c n) : Accepts ctx .black n := by
  cases ctx with
  | nil => rfl
  | cons f ctx =>
    obtain ⟨d, c', a, u⟩ := f
    cases c' with
    | red =>
      rw [accepts_cons_red] at h ⊢
      exact ⟨rfl, h.2⟩
    | black => exact h

/-- Balance of a filled context is balance of the filling, in a context that
accepts it. -/
theorem redBlack_fill_iff (ctx : Ctx α) (t : ColorTree α) :
    (fill ctx t).RedBlack ↔ ∃ n, t.Balanced n ∧ Accepts ctx t.color n := by
  induction ctx generalizing t with
  | nil =>
    simp only [ColorTree.RedBlack]
    tauto
  | cons f ctx ih =>
    obtain ⟨d, c, a, u⟩ := f
    rw [fill_cons, ih]
    simp only [Frame.plug, ColorTree.color_sideNode]
    cases c with
    | red =>
      simp only [accepts_cons_red, ColorTree.balanced_red_iff]
      tauto
    | black =>
      constructor
      · rintro ⟨n, hb, hacc⟩
        obtain ⟨m, rfl, hl, hr⟩ := hb.exists_of_black
        exact ⟨m, hl, hr, hacc⟩
      · rintro ⟨m, hl, hr, hacc⟩
        exact ⟨m + 1, ColorTree.balanced_black_iff.mpr ⟨hl, hr⟩, hacc⟩

/-- A black balanced tree in a context that accepts it; painting the root black
again changes nothing. -/
theorem redBlack_blacken_fill {ctx : Ctx α} (hcolor : t.color = .black) (hbal : t.Balanced n)
    (hacc : Accepts ctx .black n) : (fill ctx t).blacken.RedBlack := by
  have hrb : (fill ctx t).RedBlack :=
    (redBlack_fill_iff ctx t).mpr ⟨n, hbal, by rw [hcolor]; exact hacc⟩
  rw [ColorTree.blacken_of_black hrb.1]
  exact hrb

end Ctx

end LinuxKernel.Foundation
