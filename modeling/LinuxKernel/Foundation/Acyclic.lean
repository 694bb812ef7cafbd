/-
  A graph that gets one edge more.

  A graph that every walk leaves after finitely many edges has no cycle.  It stays so
  with a new edge, unless the edge's end reaches its start.
-/
import Mathlib

namespace LinuxKernel.Foundation

open Relation

variable {α : Type} {r s : α → α → Prop} {a b x : α}

/-- Every walk along `r` ends. -/
def WalksEnd (r : α → α → Prop) : Prop := WellFounded (flip r)

section

variable (h : WalksEnd r)
include h

theorem WalksEnd.mono (hsub : ∀ x y, s x y → r x y) : WalksEnd s :=
  Subrelation.wf (fun {y x} => hsub x y) h

theorem WalksEnd.acyclic : ¬ TransGen r x x := by
  intro hx
  induction x using h.induction with
  | _ x ih =>
    obtain ⟨y, hxy, hyx⟩ := TransGen.head'_iff.mp hx
    exact ih y hxy (TransGen.tail' hyx hxy)

section

variable (hsub : ∀ x y, s x y → r x y ∨ x = a ∧ y = b)
include hsub

/-- What does not reach the start of the new edge does not see it. -/
theorem WalksEnd.acc_of_not_reaches (hx : ¬ ReflTransGen r x a) : Acc (flip s) x := by
  induction x using h.induction with
  | _ x ih =>
    refine ⟨x, fun y hy => ?_⟩
    rcases hsub x y hy with hr | ⟨rfl, -⟩
    · exact ih y hr fun hya => hx (.head hr hya)
    · exact absurd .refl hx

theorem WalksEnd.insert (hba : ¬ ReflTransGen r b a) : WalksEnd s := by
  refine ⟨fun x => ?_⟩
  induction x using h.induction with
  | _ x ih =>
    refine ⟨x, fun y hy => ?_⟩
    rcases hsub x y hy with hr | ⟨-, rfl⟩
    · exact ih y hr
    · exact h.acc_of_not_reaches hsub hba

end

end

end LinuxKernel.Foundation
