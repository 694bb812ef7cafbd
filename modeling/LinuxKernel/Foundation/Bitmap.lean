/-
  Bitmaps, searches in them and runs of clear bits.

  Bit `i` of a bitmap is its value at `i`.  The two searches give the first bit of the
  wanted value in a range, or the end of the range (`findNext_spec`); a run of bits is
  written one bit at a time, and the result is known bit by bit (`fill_apply`).
-/
import Mathlib

namespace LinuxKernel.Foundation

/-- A bitmap. -/
abbrev Bits := Nat → Bool

section

/-- The first of the `n` bits from `i` on that has the value, or the index after them. -/
def nextFrom (bits : Bits) (value : Bool) : (n i : Nat) → Nat
  | 0, i => i
  | n + 1, i => if bits i = value then i else nextFrom bits value n (i + 1)

/-- The first bit of the value in `[offset, size)`, or `size`. -/
def findNext (bits : Bits) (value : Bool) (size offset : Nat) : Nat :=
  if size ≤ offset then size else nextFrom bits value (size - offset) offset

/-- `p` is where a search in `[offset, size)` ends. -/
structure Found (bits : Bits) (value : Bool) (size offset p : Nat) : Prop where
  lower : offset ≤ p
  upper : p ≤ size
  before : ∀ i, offset ≤ i → i < p → bits i ≠ value
  here : p < size → bits p = value

variable (bits : Bits) (value : Bool)

theorem nextFrom_found (n i : Nat) : Found bits value (i + n) i (nextFrom bits value n i) := by
  induction n generalizing i with
  | zero =>
    exact ⟨le_rfl, le_rfl, fun j hj hlt => absurd hlt (Nat.not_lt.mpr hj),
      fun hlt => absurd hlt (lt_irrefl i)⟩
  | succ n ih =>
    rw [nextFrom]
    split
    · rename_i hbit
      exact ⟨le_rfl, Nat.le_add_right _ _, fun j hj hlt => absurd hlt (Nat.not_lt.mpr hj),
        fun _ => hbit⟩
    rename_i hbit
    obtain ⟨hlower, hupper, hbefore, hhere⟩ := ih (i + 1)
    refine ⟨by omega, by omega, ?_, fun hlt => hhere (by omega)⟩
    intro j hj hlt
    rcases Nat.eq_or_lt_of_le hj with rfl | hj
    · exact hbit
    · exact hbefore j hj hlt

theorem findNext_spec {size offset : Nat} (h : offset ≤ size) :
    Found bits value size offset (findNext bits value size offset) := by
  unfold findNext
  split
  · obtain rfl : size = offset := by omega
    exact ⟨le_rfl, le_rfl, fun j hj hlt => absurd hlt (Nat.not_lt.mpr hj),
      fun hlt => absurd hlt (lt_irrefl size)⟩
  · have hfound := nextFrom_found bits value (size - offset) offset
    rwa [Nat.add_sub_cancel' h] at hfound

end

/-! ## Runs of bits -/

variable {i : Nat}

section

/-- The `n` bits from `start` on are clear. -/
def Clear (bits : Bits) (start n : Nat) : Prop := ∀ i, start ≤ i → i < start + n → bits i = false

/-- Write `n` bits from `start` on, one after the other. -/
def fill (value : Bool) : (n start : Nat) → Bits → Bits
  | 0, _, bits => bits
  | n + 1, start, bits => fill value n (start + 1) (Function.update bits start value)

variable {bits : Bits} {value : Bool} {start n : Nat}

theorem fill_apply (value : Bool) (n start : Nat) (bits : Bits) (i : Nat) :
    fill value n start bits i = if start ≤ i ∧ i < start + n then value else bits i := by
  induction n generalizing start bits i with
  | zero => rw [fill, if_neg (by omega)]
  | succ n ih =>
    rw [fill, ih, Function.update_apply]
    by_cases hi : i = start
    · rw [if_neg (by omega), if_pos hi, if_pos (by omega)]
    · rw [if_neg hi]
      exact if_congr (by omega) rfl rfl

theorem fill_inside (hlo : start ≤ i) (hhi : i < start + n) :
    fill value n start bits i = value := by
  rw [fill_apply, if_pos ⟨hlo, hhi⟩]

theorem fill_outside (h : i < start ∨ start + n ≤ i) : fill value n start bits i = bits i := by
  rw [fill_apply, if_neg (by omega)]

/-- Clearing what was set in a clear run gives the bitmap back. -/
theorem Clear.fill_fill (h : Clear bits start n) : fill false n start (fill true n start bits) = bits := by
  funext i
  rw [fill_apply]
  split
  · rename_i hi
    exact (h i hi.1 hi.2).symm
  · exact fill_outside (by omega)

/-- A set bit ends a run. -/
theorem Clear.not_of_set (hset : bits i = true) (hlo : start ≤ i) (hhi : i < start + n) :
    ¬ Clear bits start n := by
  intro hclear
  rw [hclear i hlo hhi] at hset
  cases hset

theorem Clear.mono (h : Clear bits start n) {start' n' : Nat} (hlo : start ≤ start')
    (hhi : start' + n' ≤ start + n) : Clear bits start' n' :=
  fun i hi hlt => h i (by omega) (by omega)

end

/-! ## Bitmaps in words -/

section

variable {w : Nat}

/-- The bits of an array of words. -/
def bitsOf (words : Nat → BitVec w) : Bits := fun i => (words (i / w)).getLsbD (i % w)

theorem bitsOf_word (words : Nat → BitVec w) (j : Nat) (hi : i < w) :
    bitsOf words (j * w + i) = (words j).getLsbD i := by
  unfold bitsOf
  rw [Nat.mul_comm, Nat.mul_add_div (Nat.zero_lt_of_lt hi), Nat.div_eq_of_lt hi, Nat.mul_add_mod,
    Nat.mod_eq_of_lt hi, Nat.add_zero]

/-- Words are known by their bits. -/
theorem bitsOf_injective {words words' : Nat → BitVec w} (h : bitsOf words = bitsOf words') :
    words = words' := by
  funext j
  refine BitVec.eq_of_getLsbD_eq fun i hi => ?_
  rw [← bitsOf_word words j hi, ← bitsOf_word words' j hi, h]

theorem one_shiftLeft (hw : 0 < w) (m : Nat) : 1#w <<< m = BitVec.ofNat w (2 ^ m) := by
  apply BitVec.eq_of_toNat_eq
  rw [BitVec.toNat_shiftLeft, BitVec.toNat_ofNat, BitVec.toNat_ofNat,
    Nat.one_mod_two_pow_eq_one.mpr hw, Nat.one_shiftLeft]

/-- The mask of the low `n` bits. -/
theorem getLsbD_lowMask {n : Nat} (hn : 0 < n) (hfits : n < w) (i : Nat) :
    ((1#w <<< n) - 1#w).getLsbD i = decide (i < n) := by
  rw [one_shiftLeft (by omega), BitVec.ofNat_sub_ofNat_of_le _ _ (Nat.one_lt_two_pow (by omega))
    (Nat.two_pow_pos _), BitVec.getLsbD_ofNat, Nat.testBit_two_pow_sub_one, Bool.eq_iff_iff]
  simp only [Bool.and_eq_true, decide_eq_true_eq]
  omega

end

end LinuxKernel.Foundation
