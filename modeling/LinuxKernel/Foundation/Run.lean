/-
  Labelled transition systems, runs and run invariants.

  Every subsystem of the development that is "for any sequence of calls" or "for
  any interleaving" is presented as one partial step function

      step : σ → ι → Option (σ × List ε)

  `σ` is the state, `ι` the call (who calls what), `ε` an observable event.  A
  call that is not enabled has no step.  `Run step s evs t` collects the events
  of finitely many consecutive calls.  The two rules below are the only
  inductions over runs in the development: what one step preserves, a run
  preserves.
-/
import Mathlib

namespace LinuxKernel.Foundation

section

variable {σ ι ε : Type} {step : σ → ι → Option (σ × List ε)} {allowed : σ → ι → Prop} {evs : List ε}
  {motive : List ε → σ → Prop}

/-- `Run step s evs t`: some finite sequence of enabled calls leads from `s` to
`t` and emits exactly the events `evs`, in order. -/
inductive Run (step : σ → ι → Option (σ × List ε)) : σ → List ε → σ → Prop
  | refl (s : σ) : Run step s [] s
  | tail {s t u : σ} {evs new : List ε} (call : ι) :
      Run step s evs t → step t call = some (u, new) → Run step s (evs ++ new) u

/-- A step that is taken alone is a run. -/
theorem Run.single {s t : σ} (call : ι) (h : step s call = some (t, evs)) : Run step s evs t := by
  have hrun := Run.tail call (.refl s) h
  simpa using hrun

/-- Runs compose, and so do their events. -/
theorem Run.trans {s t u : σ} {evs1 evs2 : List ε}
    (h1 : Run step s evs1 t) (h2 : Run step t evs2 u) : Run step s (evs1 ++ evs2) u := by
  induction h2 with
  | refl => simpa using h1
  | tail call _ hstep ih =>
    rw [← List.append_assoc]
    exact .tail call ih hstep

/-- Execute a list of calls. -/
def runCalls (step : σ → ι → Option (σ × List ε)) : σ → List ι → Option (σ × List ε)
  | s, [] => some (s, [])
  | s, call :: calls => do
      let (t, evs) ← step s call
      let (u, rest) ← runCalls step t calls
      some (u, evs ++ rest)

/-- What is executed is a run. -/
theorem Run.of_calls (calls : List ι) {s t : σ}
    (h : runCalls step s calls = some (t, evs)) : Run step s evs t := by
  induction calls generalizing s t evs with
  | nil =>
    obtain ⟨rfl, rfl⟩ := h
    exact .refl s
  | cons call calls ih =>
    simp only [runCalls, Option.bind_eq_bind, Option.bind_eq_some_iff, Prod.exists] at h
    obtain ⟨u, new, hstep, v, rest, hrest, heq⟩ := h
    obtain ⟨rfl, rfl⟩ := heq
    exact (Run.single call hstep).trans (ih hrest)

/-- A relation between the events emitted so far and the state reached holds
after every run, when it holds of the empty run and every step extends it. -/
@[elab_as_elim]
theorem Run.invariant {s : σ} (init : motive [] s)
    (preserve : ∀ {t u : σ} {evs new : List ε} (call : ι), motive evs t →
      step t call = some (u, new) → motive (evs ++ new) u)
    {t : σ} (h : Run step s evs t) : motive evs t := by
  induction h with
  | refl => exact init
  | tail call _ hstep ih => exact preserve call ih hstep

/-- `RunWith allowed step s evs t`: a run in which every call is made in a state
that allows it.  The callers' obligations are kept apart from what the code does. -/
inductive RunWith (allowed : σ → ι → Prop) (step : σ → ι → Option (σ × List ε)) :
    σ → List ε → σ → Prop
  | refl (s : σ) : RunWith allowed step s [] s
  | tail {s t u : σ} {evs new : List ε} (call : ι) :
      RunWith allowed step s evs t → allowed t call → step t call = some (u, new) →
      RunWith allowed step s (evs ++ new) u

/-- What an allowed step preserves, a run of allowed steps preserves. -/
@[elab_as_elim]
theorem RunWith.invariant {s : σ} (init : motive [] s)
    (preserve : ∀ {t u : σ} {evs new : List ε} (call : ι), motive evs t → allowed t call →
      step t call = some (u, new) → motive (evs ++ new) u)
    {t : σ} (h : RunWith allowed step s evs t) : motive evs t := by
  induction h with
  | refl => exact init
  | tail call _ hallowed hstep ih => exact preserve call ih hallowed hstep

/-- Where every allowed step is known to be enabled and to keep an invariant of the state. -/
@[elab_as_elim]
theorem RunWith.invariant_of_step {P : σ → Prop} {s t : σ} (h : RunWith allowed step s evs t)
    (init : P s) (preserve : ∀ {t : σ} (call : ι), P t → allowed t call →
      ∃ out, step t call = some out ∧ P out.1) : P t := by
  induction h with
  | refl => exact init
  | tail call _ hallowed hstep ih =>
    obtain ⟨out, heq, hout⟩ := preserve call ih hallowed
    cases hstep.symm.trans heq
    exact hout

/-- Execute a list of calls, each of which passes a check. -/
def runCallsWith (check : σ → ι → Bool) (step : σ → ι → Option (σ × List ε)) :
    σ → List ι → Option (σ × List ε)
  | s, [] => some (s, [])
  | s, call :: calls =>
    if check s call then do
      let (t, evs) ← step s call
      let (u, rest) ← runCallsWith check step t calls
      some (u, evs ++ rest)
    else none

theorem RunWith.trans {s t u : σ} {evs1 evs2 : List ε} (h1 : RunWith allowed step s evs1 t)
    (h2 : RunWith allowed step t evs2 u) : RunWith allowed step s (evs1 ++ evs2) u := by
  induction h2 with
  | refl => simpa using h1
  | tail call _ hallowed hstep ih =>
    rw [← List.append_assoc]
    exact .tail call ih hallowed hstep

/-- What is executed with a check is a run of the calls that the check allows. -/
theorem RunWith.of_calls {check : σ → ι → Bool}
    (hcheck : ∀ s call, check s call = true → allowed s call) (calls : List ι) {s t : σ}
    (h : runCallsWith check step s calls = some (t, evs)) : RunWith allowed step s evs t := by
  induction calls generalizing s t evs with
  | nil =>
    obtain ⟨rfl, rfl⟩ := h
    exact .refl s
  | cons call calls ih =>
    rw [runCallsWith] at h
    split at h
    · rename_i hpass
      simp only [Option.bind_eq_bind, Option.bind_eq_some_iff, Prod.exists] at h
      obtain ⟨u, new, hstep, v, rest, hrest, heq⟩ := h
      obtain ⟨rfl, rfl⟩ := heq
      have hfirst := RunWith.tail call (.refl s) (hcheck s call hpass) hstep
      exact hfirst.trans (ih hrest)
    · cases h

end

end LinuxKernel.Foundation
