/-
  The 32-bit `int` and the loops that count one down.

  `int`s are integers in range, and arithmetic wraps (`toInt`).  The three loop forms that
  compare a variable and decrement it are known by the number of their rounds and the value
  that they leave.
-/
import Mathlib

namespace LinuxKernel.Foundation

/-- The `int` that an integer becomes. -/
def toInt (x : Int) : Int := x.bmod (2 ^ 32)

theorem toInt_of_bounds {x : Int} (hlo : -2 ^ 31 ≤ x) (hhi : x < 2 ^ 31) : toInt x = x :=
  Int.bmod_eq_of_le (by omega) (by omega)

theorem toInt_natCast {n : Nat} (h : n < 2 ^ 31) : toInt n = n :=
  toInt_of_bounds (by omega) (by omega)

/-- `while (x-- > 0)`: the rounds, and `x` afterwards. -/
def postDec (x : Int) : Nat × Int := if x > 0 then (x.toNat, -1) else (0, toInt (x - 1))

/-- `while (--x > 0)` -/
def preDec (x : Int) : Nat × Int :=
  let y := toInt (x - 1)
  if y > 0 then (y.toNat, 0) else (0, y)

/-- `while (len < x--)` -/
def fieldDec (len x : Int) : Nat × Int :=
  if len < x then ((x - len).toNat, len - 1) else (0, toInt (x - 1))

theorem postDec_fst (x : Int) : (postDec x).1 = x.toNat := by
  unfold postDec
  split
  · rfl
  · omega

/-- What is left is negative. -/
theorem postDec_snd {x : Int} (hlo : -2 ^ 31 < x) (hhi : x < 2 ^ 31) :
    (postDec x).2 < 0 ∧ min x 0 - 1 ≤ (postDec x).2 := by
  unfold postDec
  split
  · omega
  · rw [toInt_of_bounds (by omega) (by omega)]
    omega

end LinuxKernel.Foundation
