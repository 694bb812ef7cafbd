/-
  Clearing and shifting a bitmap.

  Source: include/linux/bitmap.h (`bitmap_zero`), lib/bitmap.c (`__bitmap_shift_left`,
  `__bitmap_shift_right`).

  A bitmap is an array of longs of `w` bits.  A shift may be done in place: it goes from the
  top word down, or from the bottom word up, so that a word is read before it is written;
  that is `shiftFromOf_apply` and `shiftUp_apply`.
-/
import LinuxKernel.Foundation.Bitmap
import LinuxKernel.Foundation.CInt
import LinuxKernel.Foundation.Loop

namespace LinuxKernel.Lib.BitmapShift

open Foundation Function

/-! ## The code -/

section

variable {w : Nat}

/-- `BITS_TO_LONGS`, in `int`s -/
def bitsToLongs (w : Nat) (bits : Int) : Int := (toInt (bits + w - 1)).tdiv w

/-- A `memset` to zero of so many words -/
def memsetWords (n : Nat) (dst : Nat → BitVec w) : Nat → BitVec w :=
  fun j => if j < n then 0#w else dst j

/-- `bitmap_zero`; the length is an `int` before it is a `size_t` -/
def bitmapZero (dst : Nat → BitVec w) (nbits : Int) : Nat → BitVec w :=
  if nbits ≤ w then memsetWords 1 dst
  else
    let len := toInt (bitsToLongs w nbits * (w / 8 : Nat))
    memsetWords ((len % 2 ^ w).toNat / (w / 8)) dst

/-- What word `k` of `src` comes to -/
def shiftWord (lim : Int) (left off rem : Nat) (src : Nat → BitVec w) (k : Nat) : BitVec w :=
  let lower := if rem ≠ 0 ∧ k > 0 then src (k - 1) else 0#w
  let upper := src k
  let upper := if left ≠ 0 ∧ (k : Int) = lim - 1 then upper &&& ((1#w <<< left) - 1#w) else upper
  let word := (lower >>> (w - rem)) ||| (upper <<< rem)
  if left ≠ 0 ∧ ((k + off : Nat) : Int) = lim - 1 then word &&& ((1#w <<< left) - 1#w) else word

/-- The loop of `__bitmap_shift_left`, whose source is its destination -/
def shiftFrom (lim : Int) (left off rem : Nat) : Nat → (Nat → BitVec w) → Nat → BitVec w :=
  downFrom fun k dst => update dst (k + off) (shiftWord lim left off rem dst k)

/-- The same loop; the source is an array of its own, if there is one -/
def shiftFromOf (src : Option (Nat → BitVec w)) (lim : Int) (left off rem : Nat) :
    Nat → (Nat → BitVec w) → Nat → BitVec w :=
  downFrom fun k dst => update dst (k + off) (shiftWord lim left off rem (src.getD dst) k)

/-- `__bitmap_shift_left`, in place -/
def bitmapShiftLeft (dst : Nat → BitVec w) (shift bits : Nat) : Nat → BitVec w :=
  let lim := bitsToLongs w bits
  let left := bits % w
  let off := shift / w
  let rem := shift % w
  let dst := shiftFrom lim left off rem (lim - off).toNat dst
  if off ≠ 0 then memsetWords off dst else dst

/-- `__bitmap_shift_left` -/
def bitmapShiftLeftOf (src : Option (Nat → BitVec w)) (dst : Nat → BitVec w) (shift bits : Nat) :
    Nat → BitVec w :=
  let lim := bitsToLongs w bits
  let left := bits % w
  let off := shift / w
  let rem := shift % w
  let dst := shiftFromOf src lim left off rem (lim - off).toNat dst
  if off ≠ 0 then memsetWords off dst else dst

/-- The mask on the last word -/
def cutLast (lim : Int) (left k : Nat) (word : BitVec 32) : BitVec 32 :=
  if left ≠ 0 ∧ (k : Int) = lim - 1 then word &&& ((1#32 <<< left) - 1#32) else word

/-- Word `k` of the result of `__bitmap_shift_right` -/
def shiftRightWord (lim : Int) (left off rem : Nat) (src : Nat → BitVec 32) (k : Nat) : BitVec 32 :=
  let upper :=
    if rem = 0 ∨ ((off + k + 1 : Nat) : Int) ≥ lim then 0#32
    else cutLast lim left (off + k + 1) (src (off + k + 1))
  let lower := cutLast lim left (off + k) (src (off + k))
  cutLast lim left k (upper <<< (32 - rem) ||| lower >>> rem)

/-- The loop of `__bitmap_shift_right`, after so many rounds -/
def shiftUp (src : Option (Nat → BitVec 32)) (lim : Int) (left off rem : Nat)
    (dst : Nat → BitVec 32) : Nat → Nat → BitVec 32
  | 0 => dst
  | k + 1 =>
    let dst := shiftUp src lim left off rem dst k
    update dst k (shiftRightWord lim left off rem (src.getD dst) k)

/-- `__bitmap_shift_right` -/
def bitmapShiftRight (src : Option (Nat → BitVec 32)) (dst : Nat → BitVec 32) (shift bits : Nat) :
    Nat → BitVec 32 :=
  let lim := bitsToLongs 32 bits
  let left := bits % 32
  let off := shift / 32
  let rem := shift % 32
  let dst := shiftUp src lim left off rem dst (lim - off).toNat
  -- the `memset` begins at `&dst[lim - off]`
  if off ≠ 0 then fun j => if lim - off ≤ j ∧ j < lim then 0#32 else dst j else dst

end

/-! ## The words -/

section

variable {w : Nat} {lim : Int} {left off rem bits : Nat} {src : Option (Nat → BitVec w)}

theorem bitsToLongs_eq (hbits : 0 < bits) (hint : bits + w ≤ 2 ^ 31) :
    bitsToLongs w bits = ((bits + w - 1) / w : Nat) := by
  unfold bitsToLongs
  rw [toInt_of_bounds (by omega) (by omega), show (bits : Int) + w - 1 = (bits + w - 1 : Nat) by omega]
  exact Int.ofNat_tdiv _ _

/-- The words of so many bits, and what is in the last of them. -/
theorem words_bits (hw : 0 < w) (hbits : 0 < bits) : (bits + w - 1) / w = (bits - 1) / w + 1 := by
  rw [show bits + w - 1 = bits - 1 + w by omega, Nat.add_div_right _ hw]

/-- A word only depends on itself and the word below. -/
theorem shiftWord_congr {src src' : Nat → BitVec w} {k : Nat} (h : ∀ j ≤ k, src j = src' j) :
    shiftWord lim left off rem src k = shiftWord lim left off rem src' k := by
  unfold shiftWord
  rw [h k le_rfl, h (k - 1) (Nat.sub_le _ _)]

/-- Each word comes from the words as they were before the loop. -/
theorem shiftFromOf_apply (n : Nat) (dst : Nat → BitVec w) (j : Nat) :
    shiftFromOf src lim left off rem n dst j = if off ≤ j ∧ j < n + off then
      shiftWord lim left off rem (src.getD dst) (j - off) else dst j := by
  induction n generalizing dst j with
  | zero => rw [shiftFromOf, downFrom_zero, if_neg (by omega)]
  | succ k ih =>
    rw [shiftFromOf, downFrom_succ]
    refine (ih _ j).trans ?_
    rw [update_apply]
    rcases Nat.lt_trichotomy j (k + off) with hlt | rfl | hgt
    · rw [if_neg (show j ≠ k + off by omega)]
      by_cases hoff : off ≤ j
      · rw [if_pos ⟨hoff, hlt⟩, if_pos ⟨hoff, by omega⟩]
        refine shiftWord_congr fun i hi => ?_
        cases src with
        | none => exact update_of_ne (by omega) _ _
        | some src => rfl
      · rw [if_neg fun h => hoff h.1, if_neg fun h => hoff h.1]
    · rw [if_neg (by omega), if_pos rfl, if_pos (by omega), Nat.add_sub_cancel]
    · rw [if_neg (by omega), if_neg (by omega), if_neg (by omega)]

/-- The mask of the last word leaves the bits below it. -/
theorem getLsbD_masked {c : Prop} [Decidable c] {b : Nat} (hleft : left < w)
    (hb : left ≠ 0 → c → b < left) (word : BitVec w) :
    (if left ≠ 0 ∧ c then word &&& ((1#w <<< left) - 1#w) else word).getLsbD b =
      word.getLsbD b := by
  split
  · rename_i h
    rw [BitVec.getLsbD_and, getLsbD_lowMask (by omega) hleft, decide_eq_true (hb h.1 h.2),
      Bool.and_true]
  · rfl

/-- The bits of a word that is not cut off below them. -/
theorem getLsbD_shiftWord {src : Nat → BitVec w} {k b : Nat} (hb : b < w) (hrem : rem < w)
    (hleft : left < w) (hk : ((k + off : Nat) : Int) ≤ lim - 1)
    (hlast : left ≠ 0 → ((k + off : Nat) : Int) = lim - 1 → b < left) :
    (shiftWord lim left off rem src k).getLsbD b =
      if b < rem then decide (0 < k) && (src (k - 1)).getLsbD (b + w - rem)
      else (src k).getLsbD (b - rem) := by
  have hupper (hne : left ≠ 0) (hk' : (k : Int) = lim - 1) : b - rem < left := by
    have := hlast hne (by omega)
    omega
  unfold shiftWord
  rw [getLsbD_masked hleft hlast, BitVec.getLsbD_or, BitVec.getLsbD_ushiftRight,
    BitVec.getLsbD_shiftLeft, getLsbD_masked hleft hupper, decide_eq_true hb, Bool.true_and]
  by_cases hlow : b < rem
  · rw [if_pos hlow, decide_eq_true hlow, Bool.not_true, Bool.false_and, Bool.or_false,
      show w - rem + b = b + w - rem by omega]
    by_cases hpos : 0 < k
    · rw [if_pos ⟨by omega, hpos⟩, decide_eq_true hpos, Bool.true_and]
    · rw [if_neg fun h => hpos h.2, decide_eq_false hpos, Bool.false_and, BitVec.getLsbD_zero]
  · have hlower : (if rem ≠ 0 ∧ k > 0 then src (k - 1) else 0#w).getLsbD (w - rem + b) = false :=
      BitVec.getLsbD_of_ge _ _ (by omega)
    rw [if_neg hlow, hlower, decide_eq_false hlow, Bool.not_false, Bool.true_and, Bool.false_or]

end

/-! ## The bits -/

section

variable {w bits : Nat} {i : Nat} (src : Option (Nat → BitVec w)) (dst : Nat → BitVec w)

/-- The words below the offset are cleared, and the others come from those below them. -/
theorem bitmapShiftLeftOf_apply (shift bits j : Nat) (hj : (j : Int) < bitsToLongs w bits) :
    bitmapShiftLeftOf src dst shift bits j = if j < shift / w then 0#w
      else shiftWord (bitsToLongs w bits) (bits % w) (shift / w) (shift % w) (src.getD dst)
        (j - shift / w) := by
  simp only [bitmapShiftLeftOf, memsetWords, ite_apply, shiftFromOf_apply]
  split_ifs <;> first | rfl | omega

/-- A bit of the bitmap is not above those that are left of the last word. -/
theorem mod_lt_of_last (hw : 0 < w) (hi : i < bits) (hleft : bits % w ≠ 0)
    (hlast : i / w = (bits - 1) / w) : i % w < bits % w := by
  have hdiv : (bits - 1) / w = bits / w := by
    have hsum := Nat.div_add_mod bits w
    have hlt := Nat.mod_lt bits hw
    rw [show bits - 1 = bits % w - 1 + w * (bits / w) by omega, Nat.add_mul_div_left _ _ hw,
      Nat.div_eq_of_lt (by omega), Nat.zero_add]
  have hi' := Nat.div_add_mod i w
  have hbits := Nat.div_add_mod bits w
  rw [hlast, hdiv] at hi'
  omega

/-- The shift moves the bits, and zeros come in below them. -/
theorem bitsOf_bitmapShiftLeftOf (hw : 0 < w) (hint : bits + w ≤ 2 ^ 31) (shift : Nat)
    (hi : i < bits) : bitsOf (bitmapShiftLeftOf src dst shift bits) i =
      (decide (shift ≤ i) && bitsOf (src.getD dst) (i - shift)) := by
  have hlim := bitsToLongs_eq (by omega) hint
  rw [words_bits hw (by omega)] at hlim
  have hdiv : i / w ≤ (bits - 1) / w := Nat.div_le_div_right (by omega)
  have hlast := mod_lt_of_last hw hi
  have hbit := Nat.mod_lt i hw
  have hrem := Nat.mod_lt shift hw
  have hleft := Nat.mod_lt bits hw
  have happly := bitmapShiftLeftOf_apply src dst shift bits (i / w)
    (by rw [hlim]; exact_mod_cast Nat.lt_succ_of_le hdiv)
  have hi' := Nat.div_add_mod i w
  have hshift := Nat.div_add_mod shift w
  show (bitmapShiftLeftOf src dst shift bits (i / w)).getLsbD (i % w) = _
  rw [happly]
  generalize src.getD dst = src at *
  generalize i / w = j at *
  generalize i % w = b at *
  generalize shift / w = off at *
  generalize shift % w = rem at *
  subst hi' hshift
  rcases Nat.lt_or_ge j off with hoff | hoff
  · -- the whole word comes from below the bitmap
    have hlt : w * (j + 1) ≤ w * off := Nat.mul_le_mul_left w hoff
    rw [Nat.mul_succ] at hlt
    rw [if_pos hoff, decide_eq_false (by omega), Bool.false_and, BitVec.getLsbD_zero]
  obtain ⟨k, rfl⟩ := Nat.exists_eq_add_of_le' hoff
  rw [if_neg (Nat.not_lt.mpr hoff), Nat.add_sub_cancel, getLsbD_shiftWord hbit hrem hleft
    (by omega) (fun hne heq => hlast hne (by omega)), Nat.mul_add]
  split
  · rcases Nat.eq_zero_or_pos k with rfl | hpos
    · rw [decide_eq_false (lt_irrefl 0), decide_eq_false (by omega), Bool.false_and, Bool.false_and]
    · obtain ⟨k, rfl⟩ : ∃ k', k = k' + 1 := ⟨k - 1, by omega⟩
      rw [Nat.mul_succ, decide_eq_true hpos, decide_eq_true (by omega), Bool.true_and, Bool.true_and,
        show w * k + w + w * off + b - (w * off + rem) = k * w + (b + w - rem) by
          rw [Nat.mul_comm k]; omega, bitsOf_word src k (by omega), Nat.add_sub_cancel]
  · rw [decide_eq_true (by omega), Bool.true_and,
      show w * k + w * off + b - (w * off + rem) = k * w + (b - rem) by
        rw [Nat.mul_comm k]; omega, bitsOf_word src k (by omega)]

theorem bitsOf_bitmapShiftLeft (hw : 0 < w) (hint : bits + w ≤ 2 ^ 31) (shift : Nat)
    (hi : i < bits) : bitsOf (bitmapShiftLeft dst shift bits) i =
      (decide (shift ≤ i) && bitsOf dst (i - shift)) :=
  bitsOf_bitmapShiftLeftOf none dst hw hint shift hi

theorem bitsOf_memsetWords {n : Nat} (hi : i / w < n) :
    bitsOf (memsetWords n dst) i = false := by
  unfold bitsOf memsetWords
  rw [if_pos hi, BitVec.getLsbD_zero]

/-- Clearing a bitmap clears its bits. -/
theorem bitsOf_bitmapZero (hw : 32 ≤ w) (hint : bits + w ≤ 2 ^ 31) (hi : i < bits) :
    bitsOf (bitmapZero dst bits) i = false := by
  unfold bitmapZero
  split
  · refine bitsOf_memsetWords dst ?_
    rw [Nat.div_eq_of_lt (by omega)]
    exact Nat.zero_lt_one
  have hlim := bitsToLongs_eq (by omega) hint
  rw [words_bits (by omega) (by omega)] at hlim
  have hlen : ((bits - 1) / w + 1) * (w / 8) ≤ bits - 1 + w := by
    calc ((bits - 1) / w + 1) * (w / 8)
        ≤ ((bits - 1) / w + 1) * w := Nat.mul_le_mul_left _ (Nat.div_le_self _ _)
      _ = (bits - 1) / w * w + w := Nat.succ_mul _ _
      _ ≤ bits - 1 + w := Nat.add_le_add_right (Nat.div_mul_le_self _ _) _
  have hpow : 2 ^ 32 ≤ 2 ^ w := Nat.pow_le_pow_right (by decide) hw
  have hcast : (2 : Int) ^ w = ((2 ^ w : Nat) : Int) := (Int.natCast_pow 2 w).symm
  refine bitsOf_memsetWords dst ?_
  rw [hlim, ← Int.natCast_mul, toInt_natCast (by omega), hcast, ← Int.natCast_emod,
    Int.toNat_natCast, Nat.mod_eq_of_lt (by omega), Nat.mul_div_cancel _ (by omega)]
  exact Nat.lt_succ_of_le (Nat.div_le_div_right (by omega))

end

/-! ## Shifting to the right -/

section

variable {lim : Int} {left off rem bits i k : Nat} (src : Option (Nat → BitVec 32))
  (dst : Nat → BitVec 32)

/-- A word only depends on itself and the words above. -/
theorem shiftRightWord_congr {src src' : Nat → BitVec 32} (h : ∀ j ≥ k, src j = src' j) :
    shiftRightWord lim left off rem src k = shiftRightWord lim left off rem src' k := by
  unfold shiftRightWord
  rw [h (off + k) (by omega), h (off + k + 1) (by omega)]

theorem shiftUp_apply (n j : Nat) : shiftUp src lim left off rem dst n j =
    if j < n then shiftRightWord lim left off rem (src.getD dst) j else dst j := by
  induction n generalizing j with
  | zero => rw [if_neg (by omega)]; rfl
  | succ k ih =>
    rw [shiftUp, update_apply]
    rcases Nat.lt_trichotomy j k with hlt | rfl | hgt
    · rw [if_neg (by omega), ih, if_pos hlt, if_pos (by omega)]
    · rw [if_pos rfl, if_pos (by omega)]
      refine shiftRightWord_congr fun i hi => ?_
      cases src with
      | none => exact (ih i).trans (if_neg (by omega))
      | some src => rfl
    · rw [if_neg (by omega), ih, if_neg (by omega), if_neg (by omega)]

/-- The bits of a word, without those after the last. -/
theorem getLsbD_cutLast (hi : i / 32 * 32 < bits) (word : BitVec 32) :
    (cutLast ((bits + 31) / 32 : Nat) (bits % 32) (i / 32) word).getLsbD (i % 32) =
      (decide (i < bits) && word.getLsbD (i % 32)) := by
  unfold cutLast
  split
  · rw [BitVec.getLsbD_and, getLsbD_lowMask (by omega) (by omega), Bool.and_comm]
    exact congrArg (· && _) (decide_eq_decide.mpr (by omega))
  · rw [decide_eq_true (by omega), Bool.true_and]

/-- The shift moves the bits, and zeros come in above them. -/
theorem bitsOf_bitmapShiftRight (hint : bits + 32 ≤ 2 ^ 31) (shift : Nat) (hi : i < bits) :
    bitsOf (bitmapShiftRight src dst shift bits) i =
      (decide (i + shift < bits) && bitsOf (src.getD dst) (i + shift)) := by
  have hlim := bitsToLongs_eq (by omega) hint
  have hword : bitmapShiftRight src dst shift bits (i / 32) =
      if shift / 32 + i / 32 < (bits + 31) / 32 then shiftRightWord ((bits + 31) / 32 : Nat)
        (bits % 32) (shift / 32) (shift % 32) (src.getD dst) (i / 32) else 0#32 := by
    simp only [bitmapShiftRight, hlim, ite_apply, shiftUp_apply]
    split_ifs <;> first | rfl | omega
  unfold bitsOf
  rw [hword]
  generalize src.getD dst = src
  split
  · rw [shiftRightWord, getLsbD_cutLast (by omega), decide_eq_true hi, Bool.true_and,
      BitVec.getLsbD_or, BitVec.getLsbD_shiftLeft, BitVec.getLsbD_ushiftRight]
    by_cases hlow : shift % 32 + i % 32 < 32
    · rw [decide_eq_true (show i % 32 < 32 - shift % 32 by omega), Bool.not_true, Bool.and_false,
        Bool.false_and, Bool.false_or, show shift / 32 + i / 32 = (i + shift) / 32 by omega,
        show shift % 32 + i % 32 = (i + shift) % 32 by omega, getLsbD_cutLast (by omega)]
    · rw [BitVec.getLsbD_of_ge _ _ (Nat.not_lt.mp hlow), Bool.or_false, decide_eq_true (by omega),
        decide_eq_false (show ¬ i % 32 < 32 - shift % 32 by omega), Bool.not_false, Bool.true_and,
        Bool.true_and, show shift / 32 + i / 32 + 1 = (i + shift) / 32 by omega,
        show i % 32 - (32 - shift % 32) = (i + shift) % 32 by omega]
      split
      · rw [BitVec.getLsbD_zero, decide_eq_false (by omega), Bool.false_and]
      · exact getLsbD_cutLast (by omega) _
  · rw [BitVec.getLsbD_zero, decide_eq_false (by omega), Bool.false_and]

end

/-! ## The numbers -/

section

variable {bits : Nat}

/-- The number that the first bits are. -/
def number (bits : Nat) (words : Nat → BitVec 32) : Nat :=
  Nat.ofBits fun i : Fin bits => bitsOf words i

theorem testBit_number (words : Nat → BitVec 32) (i : Nat) :
    (number bits words).testBit i = (decide (i < bits) && bitsOf words i) := by
  by_cases hi : i < bits
  · rw [number, Nat.testBit_ofBits_lt _ _ hi, decide_eq_true hi, Bool.true_and]
  · rw [number, Nat.testBit_ofBits_ge _ _ (by omega), decide_eq_false hi, Bool.false_and]

end

end LinuxKernel.Lib.BitmapShift
