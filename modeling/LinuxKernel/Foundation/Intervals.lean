/-
  Lists of intervals in order.

  A list of records, each with a half-open interval `[start, stop)` of integers.
  `Ordered` says that the intervals are not empty and follow one another inside
  `[lo, hi)`, with gaps; `Tiles` says the same without gaps.  A list in order whose
  lengths add up to the whole has no gaps.
-/
import Mathlib

namespace LinuxKernel.Foundation

variable {lo : Int}

section

variable {α : Type} {start stop : α → Int} {lo' hi hi' : Int} {a : α} {l l' : List α}

/-- The intervals follow one another inside `[lo, hi)`. -/
def Ordered (start stop : α → Int) : Int → Int → List α → Prop
  | lo, hi, [] => lo ≤ hi
  | lo, hi, a :: l => lo ≤ start a ∧ start a < stop a ∧ Ordered start stop (stop a) hi l

/-- The intervals cover `[lo, hi)`, one after the other. -/
def Tiles (start stop : α → Int) : Int → Int → List α → Prop
  | lo, hi, [] => lo = hi
  | lo, hi, a :: l => start a = lo ∧ start a < stop a ∧ Tiles start stop (stop a) hi l

/-- Where the intervals end that start at `lo`. -/
def stopOf (stop : α → Int) : Int → List α → Int
  | lo, [] => lo
  | _, a :: l => stopOf stop (stop a) l

/-- The sum of the lengths. -/
def total (start stop : α → Int) (l : List α) : Int := (l.map fun a => stop a - start a).sum

@[simp] theorem total_nil : total start stop [] = 0 := rfl

@[simp] theorem total_cons : total start stop (a :: l) = stop a - start a + total start stop l := by
  simp [total]

theorem total_append : total start stop (l ++ l') = total start stop l + total start stop l' := by
  simp [total]

theorem stopOf_eq_getLast (l : List α) (lo : Int) :
    stopOf stop lo l = (l.getLast?.map stop).getD lo := by
  induction l generalizing lo with
  | nil => rfl
  | cons a l ih =>
    rw [stopOf, ih]
    cases l with
    | nil => rfl
    | cons b l => rw [List.getLast?_cons_cons]; rfl

theorem Ordered.le {l : List α} (h : Ordered start stop lo hi l) : lo ≤ hi := by
  induction l generalizing lo with
  | nil => exact h
  | cons a l ih =>
    obtain ⟨h1, h2, h3⟩ := h
    have := ih h3
    omega

theorem ordered_append (l l' : List α) (lo : Int) : Ordered start stop lo hi (l ++ l') ↔
      Ordered start stop lo (stopOf stop lo l) l ∧ Ordered start stop (stopOf stop lo l) hi l' := by
  induction l generalizing l' lo with
  | nil => simp [Ordered, stopOf]
  | cons a l ih => simp [Ordered, stopOf, ih, and_assoc]

theorem Ordered.mono_left (h : Ordered start stop lo hi l) (hlo : lo' ≤ lo) :
    Ordered start stop lo' hi l := by
  cases l with
  | nil => exact Int.le_trans hlo h
  | cons a l => exact ⟨Int.le_trans hlo h.1, h.2⟩

theorem Ordered.mono_right (hhi : hi ≤ hi') : ∀ {l : List α} {lo : Int},
    Ordered start stop lo hi l → Ordered start stop lo hi' l := by
  intro l
  induction l with
  | nil => intro lo h; exact Int.le_trans h hhi
  | cons a l ih => intro lo h; exact ⟨h.1, h.2.1, ih h.2.2⟩

theorem Ordered.bounds : ∀ {l : List α} {lo : Int}, Ordered start stop lo hi l →
    ∀ a ∈ l, lo ≤ start a ∧ start a < stop a ∧ stop a ≤ hi := by
  intro l
  induction l with
  | nil => intro lo _ a ha; simp at ha
  | cons b l ih =>
    rintro lo ⟨h1, h2, h3⟩ a ha
    rcases List.mem_cons.mp ha with rfl | ha
    · exact ⟨h1, h2, h3.le⟩
    · obtain ⟨h4, h5⟩ := ih h3 a ha
      exact ⟨by omega, h5⟩

section

variable {l : List α} (h : Ordered start stop lo hi l)
include h

theorem Ordered.pairwise : l.Pairwise fun a b => stop a ≤ start b := by
  induction l generalizing lo with
  | nil => exact List.Pairwise.nil
  | cons a l ih =>
    obtain ⟨-, -, h3⟩ := h
    exact List.Pairwise.cons (fun b hb => (h3.bounds b hb).1) (ih h3)

/-- Intervals in order do not overlap, so their lengths fit in. -/
theorem Ordered.total_le : total start stop l ≤ hi - lo := by
  induction l generalizing lo with
  | nil =>
    have hle : lo ≤ hi := h
    simp
    omega
  | cons a l ih =>
    obtain ⟨h1, h2, h3⟩ := h
    have := ih h3
    rw [total_cons]
    omega

/-- Without a gap when they fill everything. -/
theorem Ordered.tiles (htotal : total start stop l = hi - lo) : Tiles start stop lo hi l := by
  induction l generalizing lo with
  | nil =>
    rw [total_nil] at htotal
    show lo = hi
    omega
  | cons a l ih =>
    obtain ⟨h1, h2, h3⟩ := h
    rw [total_cons] at htotal
    have := h3.total_le
    exact ⟨by omega, h2, ih h3 (by omega)⟩

end

theorem Tiles.ordered {l : List α} (h : Tiles start stop lo hi l) : Ordered start stop lo hi l := by
  induction l generalizing lo with
  | nil => exact Int.le_of_eq h
  | cons a l ih => obtain ⟨h1, h2, h3⟩ := h; exact ⟨Int.le_of_eq h1.symm, h2, ih h3⟩

theorem Tiles.stopOf_eq {l : List α} (h : Tiles start stop lo hi l) : hi = stopOf stop lo l := by
  induction l generalizing lo with
  | nil => exact Eq.symm h
  | cons a l ih => obtain ⟨-, -, h3⟩ := h; exact ih h3

theorem tiles_append {l l' : List α} : Tiles start stop lo hi (l ++ l') ↔
      ∃ mid, Tiles start stop lo mid l ∧ Tiles start stop mid hi l' := by
  induction l generalizing l' lo with
  | nil => simp [Tiles]
  | cons a l ih =>
    simp only [List.cons_append, Tiles, ih]
    constructor
    · rintro ⟨h1, h2, mid, h3, h4⟩
      exact ⟨mid, ⟨h1, h2, h3⟩, h4⟩
    · rintro ⟨mid, ⟨h1, h2, h3⟩, h4⟩
      exact ⟨h1, h2, mid, h3, h4⟩

/-- Every position is in one of the intervals. -/
theorem Tiles.exists_mem {l : List α} (h : Tiles start stop lo hi l) {i : Int} (hlo : lo ≤ i)
    (hhi : i < hi) : ∃ a ∈ l, start a ≤ i ∧ i < stop a := by
  induction l generalizing lo i with
  | nil =>
    have heq : lo = hi := h
    omega
  | cons a l ih =>
    obtain ⟨h1, h2, h3⟩ := h
    by_cases hi' : i < stop a
    · exact ⟨a, List.mem_cons_self, by omega, hi'⟩
    · obtain ⟨b, hb, hin⟩ := ih h3 (by omega) hhi
      exact ⟨b, List.mem_cons_of_mem a hb, hin⟩

end

end LinuxKernel.Foundation
