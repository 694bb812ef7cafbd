/-
  Occurrences of a pattern in a text, and its borders.

  A search from left to right remembers the longest prefix of the pattern that ends the
  text read so far (`Longest`).  What is shorter ends that prefix as well, so the borders
  of the prefixes of the pattern are all that is needed to go on.
-/
import Mathlib

namespace LinuxKernel.Foundation

open List

variable {α : Type} {pattern text : List α} {c : α} {o p q r : Nat}

/-! ## Occurrences -/

section

/-- The pattern stands in the text, from position `p` on. -/
def OccursAt (pattern text : List α) (p : Nat) : Prop := pattern <+: text.drop p

/-- The first occurrence from position `o` on. -/
structure FirstFrom (pattern text : List α) (o p : Nat) : Prop where
  le : o ≤ p
  occurs : OccursAt pattern text p
  first : ∀ p', o ≤ p' → p' < p → ¬ OccursAt pattern text p'

theorem OccursAt.le_length (h : OccursAt pattern text p) (hne : pattern ≠ []) :
    p + pattern.length ≤ text.length := by
  have hlen := h.length_le
  have hpos := length_pos_iff.mpr hne
  rw [length_drop] at hlen
  omega

/-- An occurrence that is over after `n` elements. -/
theorem suffix_take_iff {n : Nat} (hn : n ≤ (text.drop o).length) :
    pattern <:+ (text.drop o).take n ↔
      ∃ p, o ≤ p ∧ p + pattern.length = o + n ∧ OccursAt pattern text p := by
  constructor
  · rintro ⟨before, hbefore⟩
    have hlen := congrArg length hbefore
    rw [length_append, length_take] at hlen
    refine ⟨o + before.length, Nat.le_add_right _ _, by omega, ?_⟩
    refine ⟨(text.drop o).drop n, ?_⟩
    rw [← drop_drop]
    have hsplit : text.drop o = before ++ pattern ++ (text.drop o).drop n := by
      rw [hbefore, take_append_drop]
    conv_rhs => rw [hsplit, append_assoc, drop_left]
  · rintro ⟨p, hop, hlen, after, hafter⟩
    obtain ⟨k, rfl⟩ : ∃ k, p = o + k := ⟨p - o, by omega⟩
    rw [← drop_drop] at hafter
    refine ⟨(text.drop o).take k, ?_⟩
    have hsplit : text.drop o = (text.drop o).take k ++ (pattern ++ after) := by
      rw [hafter, take_append_drop]
    have hk : ((text.drop o).take k).length = k := by
      rw [length_take]
      omega
    conv_rhs => rw [hsplit, ← append_assoc]
    rw [take_left']
    rw [length_append]
    omega

end

/-! ## Prefixes that end a text -/

section

/-- The first `q` elements of the pattern are the last of the text. -/
def Ends (pattern text : List α) (q : Nat) : Prop :=
  q ≤ pattern.length ∧ pattern.take q <:+ text

theorem ends_zero (pattern text : List α) : Ends pattern text 0 :=
  ⟨Nat.zero_le _, by rw [take_zero]; exact nil_suffix⟩

theorem ends_self (hq : q ≤ pattern.length) : Ends pattern (pattern.take q) q :=
  ⟨hq, suffix_rfl⟩

theorem Ends.le_length (h : Ends pattern text q) : q ≤ text.length := by
  have hlen := h.2.length_le
  rwa [length_take, Nat.min_eq_left h.1] at hlen

theorem ends_length : Ends pattern text pattern.length ↔ pattern <:+ text := by
  unfold Ends
  rw [take_length]
  exact ⟨fun h => h.2, fun h => ⟨Nat.le_refl _, h⟩⟩

theorem Ends.trans (h : Ends pattern text q) (hr : Ends pattern (pattern.take q) r) :
    Ends pattern text r := ⟨hr.1, hr.2.trans h.2⟩

/-- What is shorter ends the longer prefix too. -/
theorem Ends.of_le (h : Ends pattern text q) (hr : Ends pattern text r) (hle : r ≤ q) :
    Ends pattern (pattern.take q) r := by
  refine ⟨hr.1, suffix_of_suffix_length_le hr.2 h.2 ?_⟩
  rw [length_take, length_take, Nat.min_eq_left hr.1, Nat.min_eq_left h.1]
  exact hle

theorem ends_snoc : Ends pattern (text ++ [c]) (r + 1) ↔
    pattern[r]? = some c ∧ Ends pattern text r := by
  constructor
  · rintro ⟨hr, before, hbefore⟩
    have hget : pattern.take (r + 1) = pattern.take r ++ [pattern[r]] :=
      take_succ_eq_append_getElem hr
    rw [hget, ← append_assoc] at hbefore
    obtain ⟨hinit, hlast⟩ := append_inj' hbefore rfl
    refine ⟨?_, Nat.le_of_lt hr, before, hinit⟩
    rw [getElem?_eq_getElem hr]
    exact congrArg some (cons.inj hlast).1
  · rintro ⟨hget, hr, before, hbefore⟩
    obtain ⟨hlt, rfl⟩ := List.getElem?_eq_some_iff.mp hget
    refine ⟨hlt, before, ?_⟩
    rw [take_succ_eq_append_getElem hlt, ← append_assoc, hbefore]

/-- The proper borders of a prefix are the prefixes that end its tail. -/
theorem ends_tail (hq : q ≤ pattern.length) (hpos : 0 < q) :
    Ends pattern (pattern.take q).tail r ↔ Ends pattern (pattern.take q) r ∧ r < q := by
  have hlen : (pattern.take q).length = q := by rw [length_take, Nat.min_eq_left hq]
  constructor
  · intro h
    have hle := h.le_length
    rw [length_tail] at hle
    exact ⟨⟨h.1, h.2.trans (tail_suffix _)⟩, by omega⟩
  · rintro ⟨h, hlt⟩
    refine ⟨h.1, suffix_of_suffix_length_le h.2 (tail_suffix _) ?_⟩
    rw [length_take, length_tail]
    omega

/-- The longest prefix of the pattern that ends the text. -/
structure Longest (pattern text : List α) (q : Nat) : Prop where
  ends : Ends pattern text q
  greatest : ∀ r, Ends pattern text r → r ≤ q

theorem longest_nil (pattern : List α) : Longest pattern [] 0 :=
  ⟨ends_zero _ _, fun _ hr => hr.le_length⟩

/-- Reading one more element: `q'` is the longest of the borders that goes on with it, or
nothing if there is none. -/
theorem Longest.snoc {q' : Nat} (h : Longest pattern text q) (hq' : Ends pattern (pattern.take q) q')
    (hgreatest : ∀ r, Ends pattern (pattern.take q) r → pattern[r]? = some c → r ≤ q')
    (hgoes : pattern[q']? = some c) : Longest pattern (text ++ [c]) (q' + 1) := by
  refine ⟨ends_snoc.mpr ⟨hgoes, h.ends.trans hq'⟩, fun r hr => ?_⟩
  cases r with
  | zero => omega
  | succ r =>
    obtain ⟨hget, hends⟩ := ends_snoc.mp hr
    have hle := hgreatest r (h.ends.of_le hends (h.greatest r hends)) hget
    omega

theorem Longest.snoc_zero (h : Longest pattern text q)
    (hnone : ∀ r, Ends pattern (pattern.take q) r → pattern[r]? ≠ some c) :
    Longest pattern (text ++ [c]) 0 := by
  refine ⟨ends_zero _ _, fun r hr => ?_⟩
  cases r with
  | zero => omega
  | succ r =>
    obtain ⟨hget, hends⟩ := ends_snoc.mp hr
    exact absurd hget (hnone r (h.ends.of_le hends (h.greatest r hends)))

end

end LinuxKernel.Foundation
