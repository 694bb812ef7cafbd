/-
  Families of disjoint queues.

  A set of intrusive lists: every element carries one pair of links, so it is on
  at most one of the lists, once.  `Separate` states that for a family of lists
  indexed by the list heads.  An element is added at the tail of a list, unlinked
  without naming its list, and all elements of a list are moved at once.
-/
import Mathlib

namespace LinuxKernel.Foundation

open Function

variable {ι α : Type} {q : ι → List α}

/-- No element is on two lists of the family, or twice on one. -/
structure Separate (q : ι → List α) : Prop where
  nodup : ∀ i, (q i).Nodup
  unique : ∀ {i j a}, a ∈ q i → a ∈ q j → i = j

section

variable [DecidableEq α]

/-- Unlink an element from whatever list it is on. -/
def Queues.unlink (q : ι → List α) (a : α) : ι → List α := fun i => (q i).erase a

theorem Queues.mem_unlink (h : Separate q) {j : ι} {a b : α} :
    b ∈ Queues.unlink q a j ↔ b ≠ a ∧ b ∈ q j := (h.nodup j).mem_erase_iff

theorem Separate.unlink (h : Separate q) (a : α) : Separate (Queues.unlink q a) :=
  ⟨fun j => (h.nodup j).erase a, fun hj hk =>
    h.unique ((Queues.mem_unlink h).mp hj).2 ((Queues.mem_unlink h).mp hk).2⟩

end

section

variable [DecidableEq ι] {i j : ι} {a b : α}

/-- Add an element at the tail of a list. -/
def Queues.addTail (q : ι → List α) (i : ι) (a : α) : ι → List α :=
  update q i (q i ++ [a])

/-- Make a list empty. -/
def Queues.clear (q : ι → List α) (i : ι) : ι → List α := update q i []

theorem Queues.mem_addTail : b ∈ Queues.addTail q i a j ↔ b ∈ q j ∨ (j = i ∧ b = a) := by
  by_cases h : j = i
  · subst h
    simp [Queues.addTail]
  · simp [Queues.addTail, h]

theorem Queues.mem_clear : a ∈ Queues.clear q i j ↔ a ∈ q j ∧ j ≠ i := by
  by_cases h : j = i <;> simp [Queues.clear, h]

theorem Separate.addTail (h : Separate q) (hnew : ∀ j, a ∉ q j) (i : ι) :
    Separate (Queues.addTail q i a) := by
  constructor
  · intro j
    by_cases hj : j = i
    · subst hj
      simp only [Queues.addTail, update_self, List.nodup_append]
      refine ⟨h.nodup j, by simp, ?_⟩
      rintro b hb c hc rfl
      exact hnew j (List.mem_singleton.mp hc ▸ hb)
    · simpa [Queues.addTail, hj] using h.nodup j
  · intro j k b hj hk
    rw [Queues.mem_addTail] at hj hk
    rcases hj with hj | ⟨rfl, rfl⟩
    · rcases hk with hk | ⟨rfl, rfl⟩
      · exact h.unique hj hk
      · exact absurd hj (hnew j)
    · rcases hk with hk | ⟨rfl, -⟩
      · exact absurd hk (hnew k)
      · rfl

theorem Separate.clear (h : Separate q) (i : ι) : Separate (Queues.clear q i) := by
  constructor
  · intro j
    by_cases hj : j = i
    · simp [Queues.clear, hj]
    · simpa [Queues.clear, hj] using h.nodup j
  · intro j k b hj hk
    exact h.unique (Queues.mem_clear.mp hj).1 (Queues.mem_clear.mp hk).1

end

end LinuxKernel.Foundation
