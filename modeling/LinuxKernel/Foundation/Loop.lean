/-
  Loops that need not terminate.

  `loop body` runs the body until it returns; a round either returns a result or goes
  on with another state, and may fail.  Rounds are taken one at a time in proofs
  (`loop_next`, `loop_done`), and a fixed number of them by evaluation
  (`loop_of_rounds`).
-/
import Mathlib

/-- What a round of a loop gave, and the rounds after it. -/
def Option.goOn {σ ρ : Type} (out : Option (ρ ⊕ σ)) (body : σ → Option (ρ ⊕ σ)) : Option ρ :=
  match out with
  | none => none
  | some (.inl r) => some r
  | some (.inr y) => body y |>.goOn body
partial_fixpoint

namespace LinuxKernel.Foundation

section

variable {σ ρ : Type} {body : σ → Option (ρ ⊕ σ)} {post : ρ → Prop} {x : σ} {r : ρ}

/-- `for (;;)` with the given body. -/
def loop (body : σ → Option (ρ ⊕ σ)) (x : σ) : Option ρ := (body x).goOn body

theorem loop_done (h : body x = some (.inl r)) : loop body x = some r := by
  rw [loop, h, Option.goOn]

theorem loop_next {x y : σ} (h : body x = some (.inr y)) : loop body x = loop body y := by
  rw [loop, h, Option.goOn, loop]

/-- At most `n` rounds. -/
def rounds (body : σ → Option (ρ ⊕ σ)) : Nat → σ → Option ρ
  | 0, _ => none
  | n + 1, x =>
    match body x with
    | none => none
    | some (.inl r) => some r
    | some (.inr y) => rounds body n y

theorem loop_of_rounds (n : Nat) (h : rounds body n x = some r) : loop body x = some r := by
  induction n generalizing x r with
  | zero => cases h
  | succ n ih =>
    unfold rounds at h
    cases hb : body x with
    | none => rw [hb] at h; cases h
    | some out =>
      rw [hb] at h
      cases out with
      | inl r' =>
        obtain rfl : r' = r := by simpa using h
        exact loop_done hb
      | inr y =>
        rw [loop_next hb]
        exact ih h

/-- A loop whose rounds keep an invariant and make a measure smaller returns within that
many rounds, with a result for which the last round is responsible. -/
theorem rounds_of_measure {inv : σ → Prop} {measure : σ → Nat}
    (hround : ∀ x, inv x → (∃ r, body x = some (.inl r) ∧ post r) ∨
      ∃ y, body x = some (.inr y) ∧ inv y ∧ measure y < measure x) (n : Nat) (x : σ) (hx : inv x)
    (hlt : measure x < n) : ∃ r, rounds body n x = some r ∧ post r := by
  induction n generalizing x with
  | zero => omega
  | succ n ih =>
    rcases hround x hx with ⟨r, hr, hpost⟩ | ⟨y, hy, hinv, hless⟩
    · exact ⟨r, by rw [rounds, hr], hpost⟩
    · obtain ⟨r, hr, hpost⟩ := ih y hinv (by omega)
      exact ⟨r, by rw [rounds, hy]; exact hr, hpost⟩

theorem loop_of_measure (inv : σ → Prop) (measure : σ → Nat)
    (hround : ∀ x, inv x → (∃ r, body x = some (.inl r) ∧ post r) ∨ ∃ y, body x = some (.inr y) ∧
      inv y ∧ measure y < measure x)
    (hx : inv x) : ∃ r, loop body x = some r ∧ post r := by
  obtain ⟨r, hr, hpost⟩ := rounds_of_measure hround (measure x + 1) x hx (Nat.lt_succ_self _)
  exact ⟨r, loop_of_rounds _ hr, hpost⟩

/-- What the rounds keep holds of the result, if there is one. -/
theorem loop_partial (inv : σ → Prop) (hdone : ∀ x r, inv x → body x = some (.inl r) → post r)
    (hnext : ∀ x y, inv x → body x = some (.inr y) → inv y) (hx : inv x)
    (h : loop body x = some r) : post r := by
  refine Option.goOn.partial_correctness body
    (fun out r => ∀ x, inv x → body x = out → post r) ?_ _ r h x hx rfl
  intro self ih out r hr x hx hbody
  split at hr
  · cases hr
  · cases hr
    exact hdone x r hx hbody
  · exact ih _ r hr _ (hnext x _ hx hbody) rfl

/-- Two loops in step: what the first returns, the second returns. -/
theorem loop_sim {τ : Type} {body' : τ → Option (ρ ⊕ τ)} (R : σ → τ → Prop)
    (hdone : ∀ x y r, R x y → body x = some (.inl r) → body' y = some (.inl r))
    (hnext : ∀ x y x', R x y → body x = some (.inr x') → ∃ y', body' y = some (.inr y') ∧ R x' y')
    {y : τ} (hR : R x y) (h : loop body x = some r) : loop body' y = some r := by
  refine Option.goOn.partial_correctness body
    (fun out r => ∀ x y, R x y → body x = out → loop body' y = some r) ?_ _ r h x y hR rfl
  intro self ih out r hr x y hR hbody
  split at hr
  · cases hr
  · cases hr
    exact loop_done (hdone x y r hR hbody)
  · obtain ⟨y', hy, hR'⟩ := hnext x y _ hR hbody
    rw [loop_next hy]
    exact ih _ r hr _ y' hR' rfl

/-- The states at the beginning of a round. -/
inductive Reaches (body : σ → Option (ρ ⊕ σ)) : σ → σ → Prop
  | refl (x : σ) : Reaches body x x
  | next {x y z : σ} : Reaches body x y → body y = some (.inr z) → Reaches body x z

/-- What the rounds keep holds at the beginning of every round. -/
theorem Reaches.invariant {inv : σ → Prop} {x y : σ} (h : Reaches body x y) (hx : inv x)
    (hround : ∀ {y z}, inv y → body y = some (.inr z) → inv z) : inv y := by
  induction h with
  | refl => exact hx
  | next _ hbody ih => exact hround ih hbody

end

/-! ## Counting down -/

section

variable {σ : Type} (body : Nat → σ → σ)

/-- A loop whose variable goes from `n - 1` down to zero. -/
def downFrom : Nat → σ → σ
  | 0, s => s
  | n + 1, s => downFrom n (body n s)

theorem downFrom_zero (s : σ) : downFrom body 0 s = s := rfl

theorem downFrom_succ (n : Nat) (s : σ) : downFrom body (n + 1) s = downFrom body n (body n s) := rfl

end

end LinuxKernel.Foundation
