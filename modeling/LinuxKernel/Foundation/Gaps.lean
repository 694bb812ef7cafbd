/-
  The gaps between disjoint intervals, and the first that has room.

  Intervals are half-open.  `gaps top l g` are the gaps that the intervals `l` leave in
  `[g, top)`.  An aligned place for `n` numbers exists if and only if some gap has room,
  and the least such place is in the first of these gaps (`isLeast_of_find_room`).
-/
import Mathlib

namespace LinuxKernel.Foundation

open List

variable {l : List (Nat × Nat)} {g : Nat}

/-- The gaps, from `g` on. -/
def gaps (top : Nat) : List (Nat × Nat) → Nat → List (Nat × Nat)
  | [], g => [(g, top)]
  | (lo, hi) :: l, g => (g, lo) :: gaps top l hi

/-- The intervals are in order, not empty, and inside `[g, top)`. -/
def InOrder (top : Nat) : List (Nat × Nat) → Nat → Prop
  | [], g => g ≤ top
  | (lo, hi) :: l, g => g ≤ lo ∧ lo < hi ∧ InOrder top l hi

section

variable {top n s : Nat}

theorem InOrder.le_top (h : InOrder top l g) : g ≤ top := by
  induction l generalizing g with
  | nil => exact h
  | cons i l ih =>
    obtain ⟨h1, h2, h3⟩ := h
    have := ih h3
    omega

/-- The intervals come after `g`. -/
theorem InOrder.le_of_mem : ∀ {l : List (Nat × Nat)} {g : Nat}, InOrder top l g →
    ∀ i ∈ l, g ≤ i.1 ∧ i.1 < i.2 ∧ i.2 ≤ top := by
  intro l
  induction l with
  | nil => intro g _ i hi; cases hi
  | cons j l ih =>
    rintro g ⟨h1, h2, h3⟩ i hi
    rcases mem_cons.mp hi with rfl | hi
    · exact ⟨h1, h2, h3.le_top⟩
    · have := ih h3 i hi
      omega

theorem gap_le : ∀ {l : List (Nat × Nat)} {g : Nat}, InOrder top l g →
    ∀ x ∈ gaps top l g, g ≤ x.1 ∧ x.1 ≤ x.2 ∧ x.2 ≤ top := by
  intro l
  induction l with
  | nil =>
    intro g h x hx
    rw [mem_singleton.mp hx]
    exact ⟨Nat.le_refl _, h, Nat.le_refl _⟩
  | cons i l ih =>
    rintro g ⟨h1, h2, h3⟩ x hx
    rcases mem_cons.mp hx with rfl | hx
    · have := h3.le_top
      exact ⟨Nat.le_refl _, h1, by show i.1 ≤ top; omega⟩
    · have := ih h3 x hx
      omega

theorem gaps_sorted (h : InOrder top l g) : (gaps top l g).Pairwise fun x y => x.2 < y.1 := by
  induction l generalizing g with
  | nil => exact pairwise_singleton ..
  | cons i l ih =>
    obtain ⟨_, h2, h3⟩ := h
    refine pairwise_cons.mpr ⟨fun y hy => ?_, ih h3⟩
    have := (gap_le h3 y hy).1
    omega

/-- A gap starts at `g` or behind an interval. -/
theorem gap_starts (top : Nat) (l : List (Nat × Nat)) (g : Nat) :
    (gaps top l g).map Prod.fst = g :: l.map Prod.snd := by
  induction l generalizing g with
  | nil => rfl
  | cons i l ih => rw [gaps, map_cons, ih, map_cons]

/-- What meets no interval is in a gap. -/
theorem in_gap_iff (h : InOrder top l g) : ((g ≤ s ∧ s + n ≤ top ∧ ∀ i ∈ l, s + n ≤ i.1 ∨ i.2 ≤ s) ↔
      ∃ x ∈ gaps top l g, x.1 ≤ s ∧ s + n ≤ x.2) := by
  induction l generalizing g with
  | nil =>
    constructor
    · rintro ⟨h1, h2, -⟩
      exact ⟨_, mem_singleton.mpr rfl, h1, h2⟩
    · rintro ⟨x, hx, h1, h2⟩
      rw [mem_singleton.mp hx] at h1 h2
      exact ⟨h1, h2, by simp⟩
  | cons i l ih =>
    obtain ⟨h1, h2, h3⟩ := h
    have htop := h3.le_top
    constructor
    · rintro ⟨hg, hs, hl⟩
      rcases hl i (mem_cons_self ..) with hbefore | hafter
      · exact ⟨(g, i.1), mem_cons_self .., hg, hbefore⟩
      · obtain ⟨x, hx, hin⟩ := (ih h3).mp ⟨hafter, hs, fun j hj => hl j (mem_cons_of_mem _ hj)⟩
        exact ⟨x, mem_cons_of_mem _ hx, hin⟩
    · rintro ⟨x, hx, hle, hlt⟩
      rcases mem_cons.mp hx with rfl | hx
      · refine ⟨hle, by omega, forall_mem_cons.mpr ⟨.inl hlt, fun j hj => ?_⟩⟩
        have := h3.le_of_mem j hj
        exact .inl (by omega)
      · obtain ⟨h4, h5, h6⟩ := (ih h3).mpr ⟨x, hx, hle, hlt⟩
        exact ⟨by omega, h5, forall_mem_cons.mpr ⟨.inr h4, h6⟩⟩

end

/-! ## Aligned places -/

/-- The least multiple of `a` from `x` on. -/
def alignUp (a x : Nat) : Nat := (x + (a - 1)) / a * a

section

variable {a : Nat}

theorem dvd_alignUp (a x : Nat) : a ∣ alignUp a x := Nat.dvd_mul_left ..

theorem alignUp_le_iff (ha : 0 < a) {x s : Nat} (hs : a ∣ s) : alignUp a x ≤ s ↔ x ≤ s := by
  obtain ⟨k, rfl⟩ := hs
  unfold alignUp
  rw [Nat.mul_comm a k, Nat.mul_le_mul_right_iff ha, Nat.div_le_iff_le_mul_add_pred ha,
    Nat.mul_comm a k]
  omega

theorem le_alignUp (ha : 0 < a) (x : Nat) : x ≤ alignUp a x :=
  (alignUp_le_iff ha (dvd_alignUp a x)).mp (Nat.le_refl _)

theorem alignUp_mono {x y : Nat} (h : x ≤ y) : alignUp a x ≤ alignUp a y :=
  Nat.mul_le_mul_right a (Nat.div_le_div_right (by omega))

end

/-- The aligned place of a gap above `lo`, with room for `n` numbers below `hi`. -/
def room (a lo hi n : Nat) (x : Nat × Nat) : Bool :=
  decide (alignUp a (max x.1 lo) + n ≤ min x.2 hi)

/-- An aligned place for `n` numbers in `[lo, hi)` and in a gap of the intervals. -/
def Suits (top : Nat) (l : List (Nat × Nat)) (g a lo hi n s : Nat) : Prop :=
  a ∣ s ∧ lo ≤ s ∧ s + n ≤ hi ∧ g ≤ s ∧ s + n ≤ top ∧ ∀ i ∈ l, s + n ≤ i.1 ∨ i.2 ≤ s

section

variable {top a lo hi n s : Nat} {x : Nat × Nat}

theorem suits_iff (ha : 0 < a) (hl : InOrder top l g) : Suits top l g a lo hi n s ↔
      ∃ x ∈ gaps top l g, a ∣ s ∧ alignUp a (max x.1 lo) ≤ s ∧ s + n ≤ min x.2 hi := by
  constructor
  · rintro ⟨hs, hlo, hhi, hfree⟩
    obtain ⟨x, hx, hle, hlt⟩ := (in_gap_iff hl).mp hfree
    exact ⟨x, hx, hs, (alignUp_le_iff ha hs).mpr (by omega), by omega⟩
  · rintro ⟨x, hx, hs, hle, hlt⟩
    have := (alignUp_le_iff ha hs).mp hle
    exact ⟨hs, by omega, by omega, (in_gap_iff hl).mpr ⟨x, hx, by omega, by omega⟩⟩

theorem room_iff :
    room a lo hi n x = true ↔ alignUp a (max x.1 lo) + n ≤ min x.2 hi := decide_eq_true_iff

theorem suits_of_room (ha : 0 < a) (hl : InOrder top l g) (hx : x ∈ gaps top l g)
    (hroom : room a lo hi n x = true) : Suits top l g a lo hi n (alignUp a (max x.1 lo)) :=
  (suits_iff ha hl).mpr ⟨x, hx, dvd_alignUp a _, Nat.le_refl _, room_iff.mp hroom⟩

theorem Suits.mono {n' : Nat} (hle : n' ≤ n) (h : Suits top l g a lo hi n s) :
    Suits top l g a lo hi n' s := by
  obtain ⟨h1, h2, h3, h4, h5, h6⟩ := h
  refine ⟨h1, h2, by omega, h4, by omega, fun i hi => ?_⟩
  have := h6 i hi
  omega

/-- Without room there is no place. -/
theorem not_suits_of_find_none (ha : 0 < a) (hl : InOrder top l g)
    (h : (gaps top l g).find? (room a lo hi n) = none) : ¬ Suits top l g a lo hi n s := by
  intro hs
  obtain ⟨x, hx, -, hle, hlt⟩ := (suits_iff ha hl).mp hs
  have hno := find?_eq_none.mp h x hx
  rw [room_iff] at hno
  omega

/-- The first gap with room has the least place. -/
theorem isLeast_of_find_room (ha : 0 < a) (hl : InOrder top l g)
    (h : (gaps top l g).find? (room a lo hi n) = some x) :
    IsLeast {s | Suits top l g a lo hi n s} (alignUp a (max x.1 lo)) := by
  refine ⟨suits_of_room ha hl (mem_of_find?_eq_some h) (find?_some h), ?_⟩
  intro s hs
  obtain ⟨y, hy, hdvd, hle, hlt⟩ := (suits_iff ha hl).mp hs
  obtain ⟨-, before, after, heq, hbefore⟩ := find?_eq_some_iff_append.mp h
  have hsorted := gaps_sorted hl
  rw [heq] at hy hsorted
  rcases mem_append.mp hy with hy | hy
  · -- a gap before it has no room
    have hno := hbefore y hy
    simp only [Bool.not_eq_true', room, decide_eq_false_iff_not] at hno
    omega
  · rcases mem_cons.mp hy with rfl | hy
    · exact hle
    · have := (pairwise_cons.mp (pairwise_append.mp hsorted).2.1).1 y hy
      have hx := gap_le hl x (mem_of_find?_eq_some h)
      have hmono : alignUp a (max x.1 lo) ≤ alignUp a (max y.1 lo) := alignUp_mono (by omega)
      omega

end

end LinuxKernel.Foundation
