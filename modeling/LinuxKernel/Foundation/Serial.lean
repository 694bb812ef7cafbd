/-
  32-bit serial numbers.

  A counter that only grows is kept modulo 2^32, and two of its values are compared by
  the sign of their difference.  `near ref x` is the position that the word `x` stands
  for when the counter is around `ref`.  Positions less than 2^31 apart are compared
  correctly.
-/
import Mathlib

namespace LinuxKernel.Foundation.Serial

/-- The first number comes before the second. -/
def before (x y : BitVec 32) : Bool := decide ((x - y).toInt < 0)

/-- The position next to `ref` that the word stands for. -/
def near (ref : Int) (x : BitVec 32) : Int := ref + (x - BitVec.ofInt 32 ref).toInt

/-- The word of a position. -/
def word (p : Int) : BitVec 32 := BitVec.ofInt 32 p

variable {p q ref : Int}

theorem toInt_word_sub (p q : Int) : (word p - word q).toInt = (p - q).bmod (2 ^ 32) := by
  rw [word, word, BitVec.toInt_sub]
  simp

theorem before_word (h : -2 ^ 31 ≤ p - q) (h' : p - q < 2 ^ 31) :
    before (word p) (word q) = decide (p < q) := by
  rw [before, toInt_word_sub, Int.bmod_eq_of_le (by omega) (by omega)]
  exact decide_eq_decide.mpr (by omega)

theorem word_inj (h : p - q < 2 ^ 32) (h' : q - p < 2 ^ 32) : word p = word q ↔ p = q := by
  refine ⟨fun heq => ?_, fun heq => by rw [heq]⟩
  have hsub := toInt_word_sub p q
  rw [heq] at hsub
  have hdvd : (2 ^ 32 : Int) ∣ p - q := by exact Int.dvd_of_bmod_eq_zero (by simpa using hsub.symm)
  omega

theorem near_range (ref : Int) (x : BitVec 32) :
    ref - 2 ^ 31 ≤ near ref x ∧ near ref x < ref + 2 ^ 31 := by
  have h1 := (x - BitVec.ofInt 32 ref).le_toInt
  have h2 := (x - BitVec.ofInt 32 ref).toInt_lt
  unfold near
  omega

@[simp] theorem word_near (ref : Int) (x : BitVec 32) : word (near ref x) = x := by
  rw [word, near, BitVec.ofInt_add, BitVec.ofInt_toInt, BitVec.add_comm, BitVec.sub_add_cancel]

theorem near_word (h : -2 ^ 31 ≤ p - ref) (h' : p - ref < 2 ^ 31) : near ref (word p) = p := by
  have hsub := toInt_word_sub p ref
  rw [Int.bmod_eq_of_le (by omega) (by omega)] at hsub
  change ref + (word p - word ref).toInt = p
  omega

end LinuxKernel.Foundation.Serial
