/-
  Listing a set of numbers piece by piece.

  A scan that walks through a range of numbers lists those of a set `P` in ascending
  order; scans of adjacent ranges are put together by appending the lists.
-/
import Mathlib

namespace LinuxKernel.Foundation

/-- `l` lists the elements of `P` in `[lo, hi)` in ascending order. -/
structure Listing (P : Nat → Prop) (lo hi : Nat) (l : List Nat) : Prop where
  sorted : l.Pairwise (· < ·)
  mem_iff : ∀ i, i ∈ l ↔ lo ≤ i ∧ i < hi ∧ P i

namespace Listing

variable {P : Nat → Prop} {lo mid hi : Nat} {l l' : List Nat}

theorem nil (hnone : ∀ i, lo ≤ i → i < hi → ¬ P i) : Listing P lo hi [] := by
  refine ⟨List.Pairwise.nil, fun i => ⟨fun h => absurd h List.not_mem_nil, ?_⟩⟩
  rintro ⟨hlo, hhi, hi⟩
  exact absurd hi (hnone i hlo hhi)

theorem single (h : P lo) : Listing P lo (lo + 1) [lo] := by
  refine ⟨List.pairwise_singleton _ _, fun i => ?_⟩
  rw [List.mem_singleton]
  constructor
  · rintro rfl
    exact ⟨Nat.le_refl _, Nat.lt_succ_self _, h⟩
  · omega

theorem append (h : Listing P lo mid l) (h' : Listing P mid hi l') (hlo : lo ≤ mid)
    (hhi : mid ≤ hi) : Listing P lo hi (l ++ l') := by
  refine ⟨List.pairwise_append.mpr ⟨h.sorted, h'.sorted, ?_⟩, fun i => ?_⟩
  · intro i hi j hj
    have hlt := ((h.mem_iff i).mp hi).2.1
    have hge := ((h'.mem_iff j).mp hj).1
    omega
  · rw [List.mem_append, h.mem_iff, h'.mem_iff]
    constructor
    · rintro (⟨h1, h2, h3⟩ | ⟨h1, h2, h3⟩)
      · exact ⟨h1, by omega, h3⟩
      · exact ⟨by omega, h2, h3⟩
    · rintro ⟨h1, h2, h3⟩
      by_cases hi : i < mid
      · exact .inl ⟨h1, hi, h3⟩
      · exact .inr ⟨by omega, h2, h3⟩

/-- Nothing comes before the rest. -/
theorem skip (hnone : ∀ i, lo ≤ i → i < mid → ¬ P i) (h : Listing P mid hi l) (hlo : lo ≤ mid)
    (hhi : mid ≤ hi) : Listing P lo hi l :=
  (Listing.nil hnone).append h hlo hhi

/-- Every set has its list. -/
theorem exists_listing (P : Nat → Prop) (lo hi : Nat) : ∃ l, Listing P lo hi l := by
  by_cases hle : lo ≤ hi
  · induction hi, hle using Nat.le_induction with
    | base => exact ⟨[], nil fun i h1 h2 => by omega⟩
    | succ hi hle ih =>
      obtain ⟨l, hl⟩ := ih
      by_cases hP : P hi
      · exact ⟨l ++ [hi], hl.append (single hP) hle (Nat.le_succ hi)⟩
      · refine ⟨l ++ [], hl.append (nil fun i h1 h2 => ?_) hle (Nat.le_succ hi)⟩
        obtain rfl : i = hi := by omega
        exact hP
  · exact ⟨[], nil fun i h1 h2 => by omega⟩

end Listing

end LinuxKernel.Foundation
