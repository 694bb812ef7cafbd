/-
  Aligned blocks of 2^k consecutive numbers, buddies,
  and tilings of a range by such blocks.

  A block of order `k` starts at a multiple of `2^k`.  Its buddy differs from it
  in bit `k` of the start; the two together are the parent block of order `k+1`.
  A tiling covers every number of a range by exactly one block.  Merging a block
  with its buddy, and splitting a block in halves, keep a tiling.
-/
import Mathlib

namespace LinuxKernel.Foundation

/-! ## Bit arithmetic -/

theorem two_pow_mul_xor (k m : Nat) : (2 ^ k * m) ^^^ 2 ^ k = 2 ^ k * (m ^^^ 1) := by
  calc (2 ^ k * m) ^^^ 2 ^ k = (m <<< k) ^^^ (1 <<< k) := by
        rw [Nat.shiftLeft_eq, Nat.one_shiftLeft, Nat.mul_comm]
    _ = (m ^^^ 1) <<< k := Nat.shiftLeft_xor_distrib.symm
    _ = 2 ^ k * (m ^^^ 1) := by rw [Nat.shiftLeft_eq, Nat.mul_comm]

theorem two_pow_mul_ldiff (k m : Nat) : Nat.ldiff (2 ^ k * m) (2 ^ k) = 2 ^ k * (2 * (m / 2)) := by
  apply Nat.eq_of_testBit_eq
  intro i
  rw [← Nat.mul_assoc, ← Nat.pow_succ, Nat.testBit_ldiff, Nat.testBit_two_pow_mul,
    Nat.testBit_two_pow_mul, Nat.testBit_div_two]
  rcases Nat.lt_trichotomy i k with hlt | heq | hgt
  · simp [Nat.not_le.mpr hlt, Nat.not_le.mpr (Nat.lt_succ_of_lt hlt)]
  · simp [heq]
  · have hi : i - (k + 1) + 1 = i - k := by omega
    simp [hi, Nat.le_of_lt hgt, Nat.succ_le_of_lt hgt, Nat.ne_of_lt hgt]

variable {k n : Nat}

/-- Changing bit `k` and cutting off the bits from `n > k` on commute. -/
theorem mod_two_pow_xor (h : k < n) (x : Nat) : (x % 2 ^ n) ^^^ 2 ^ k = (x ^^^ 2 ^ k) % 2 ^ n := by
  rw [Nat.xor_mod_two_pow, Nat.mod_eq_of_lt (Nat.pow_lt_pow_right (by decide) h)]

theorem mod_two_pow_ldiff (k n x : Nat) :
    Nat.ldiff (x % 2 ^ n) (2 ^ k) = Nat.ldiff x (2 ^ k) % 2 ^ n := by
  apply Nat.eq_of_testBit_eq
  simp [Bool.and_assoc]

theorem xor_two_pow_div (h : k < n) (x : Nat) : (x ^^^ 2 ^ k) / 2 ^ n = x / 2 ^ n := by
  apply Nat.eq_of_testBit_eq
  intro i
  have hne : k ≠ i + n := by omega
  simp [Nat.testBit_div_two_pow, hne]

theorem ldiff_two_pow_div (h : k < n) (x : Nat) : Nat.ldiff x (2 ^ k) / 2 ^ n = x / 2 ^ n := by
  apply Nat.eq_of_testBit_eq
  intro i
  have hne : k ≠ i + n := by omega
  simp [Nat.testBit_div_two_pow, hne]

/-- A change below bit `n` can be carried out on the residue modulo `2^n`. -/
theorem add_residue_sub {x y n : Nat} (h : y / 2 ^ n = x / 2 ^ n) :
    x + y % 2 ^ n - x % 2 ^ n = y := by
  have hx := Nat.div_add_mod x (2 ^ n)
  have hy := Nat.div_add_mod y (2 ^ n)
  rw [h] at hy
  omega

/-! ## Blocks -/

/-- `2^order` consecutive numbers from `start` on. -/
structure Block where
  start : Nat
  order : Nat
  deriving DecidableEq, Repr

variable {b : Block}

namespace Block

/-- The first number behind the block. -/
def stop (b : Block) : Nat := b.start + 2 ^ b.order

/-- The number `x` lies in the block. -/
def Has (b : Block) (x : Nat) : Prop := b.start ≤ x ∧ x < b.stop

instance (b : Block) (x : Nat) : Decidable (b.Has x) :=
  inferInstanceAs (Decidable (_ ∧ _))

/-- The block starts at a multiple of its size. -/
def Aligned (b : Block) : Prop := 2 ^ b.order ∣ b.start

/-- The block that differs in bit `order` of the start. -/
def buddy (b : Block) : Block := ⟨b.start ^^^ 2 ^ b.order, b.order⟩

/-- The block of the next order around `b`. -/
def parent (b : Block) : Block := ⟨Nat.ldiff b.start (2 ^ b.order), b.order + 1⟩

@[simp] theorem order_buddy (b : Block) : b.buddy.order = b.order := rfl
@[simp] theorem order_parent (b : Block) : b.parent.order = b.order + 1 := rfl

theorem start_lt_stop (b : Block) : b.start < b.stop := Nat.lt_add_of_pos_right (Nat.two_pow_pos _)

theorem has_start (b : Block) : b.Has b.start := ⟨Nat.le_refl _, b.start_lt_stop⟩

/-- A block is the lower or the upper half of its parent, and its buddy is the
other half. -/
theorem Aligned.buddy_cases (hb : b.Aligned) :
    (b.parent.start = b.start ∧ b.buddy.start = b.start + 2 ^ b.order) ∨
      (b.parent.start = b.buddy.start ∧ b.start = b.buddy.start + 2 ^ b.order) := by
  obtain ⟨start, k⟩ := b
  obtain ⟨m, rfl⟩ : ∃ m, start = 2 ^ k * m := hb
  simp only [parent, buddy, two_pow_mul_ldiff, two_pow_mul_xor]
  rcases Nat.even_or_odd m with heven | hodd
  · left
    rw [Nat.xor_one_of_even heven, Nat.two_mul_div_two_of_even heven]
    exact ⟨rfl, Nat.mul_succ _ _⟩
  right
  have hpos : 0 < m := Nat.pos_of_ne_zero (by rintro rfl; simp at hodd)
  have hhalf : 2 * (m / 2) = m - 1 := Nat.two_mul_odd_div_two (Nat.odd_iff.mp hodd)
  rw [Nat.xor_one_of_odd hodd, hhalf]
  refine ⟨rfl, ?_⟩
  rw [← Nat.mul_succ, Nat.succ_eq_add_one, Nat.sub_add_cancel hpos]

theorem Aligned.parent (hb : b.Aligned) : b.parent.Aligned := by
  obtain ⟨start, k⟩ := b
  obtain ⟨m, rfl⟩ : ∃ m, start = 2 ^ k * m := hb
  refine ⟨m / 2, ?_⟩
  simp [Block.parent, two_pow_mul_ldiff, Nat.pow_succ, Nat.mul_assoc]

@[simp] theorem buddy_buddy (b : Block) : b.buddy.buddy = b := by simp [Block.buddy]

theorem buddy_ne (b : Block) : b.buddy ≠ b := by
  intro heq
  have hstart : b.start ^^^ 2 ^ b.order = b.start := congrArg Block.start heq
  have hbit := congrArg (fun x => x.testBit b.order) hstart
  simp at hbit

/-- The buddy of the upper half of a block is the lower half. -/
theorem buddy_upper {x k : Nat} (h : 2 ^ (k + 1) ∣ x) :
    (⟨x + 2 ^ k, k⟩ : Block).buddy = ⟨x, k⟩ := by
  obtain ⟨q, rfl⟩ := h
  have hstart : 2 ^ (k + 1) * q + 2 ^ k = 2 ^ k * (2 * q + 1) := by
    rw [Nat.pow_succ, Nat.mul_add, Nat.mul_one, Nat.mul_assoc]
  have hodd : Odd (2 * q + 1) := ⟨q, rfl⟩
  simp only [buddy]
  rw [hstart, two_pow_mul_xor, Nat.xor_one_of_odd hodd, Nat.add_sub_cancel, Nat.pow_succ,
    Nat.mul_assoc]

/-- The parent consists of the block and its buddy. -/
theorem Aligned.has_parent (hb : b.Aligned) (x : Nat) :
    b.parent.Has x ↔ b.Has x ∨ b.buddy.Has x := by
  have hcases := hb.buddy_cases
  simp only [Has, stop, order_parent, order_buddy]
  omega

/-- In a range whose ends are multiples of a power of two, the parent of a
smaller block stays inside. -/
theorem Aligned.parent_within (hb : b.Aligned) {lo hi n : Nat} (hlo : 2 ^ n ∣ lo)
    (hhi : 2 ^ n ∣ hi) (hn : b.order < n) (hwithin : lo ≤ b.start ∧ b.stop ≤ hi) :
    lo ≤ b.parent.start ∧ b.parent.stop ≤ hi := by
  have hdvd : 2 ^ (b.order + 1) ∣ 2 ^ n := Nat.pow_dvd_pow 2 hn
  obtain ⟨p, hp⟩ : ∃ p, b.parent.start = 2 ^ (b.order + 1) * p := hb.parent
  obtain ⟨q, hq⟩ := Nat.dvd_trans hdvd hlo
  obtain ⟨r, hr⟩ := Nat.dvd_trans hdvd hhi
  have hcases := hb.buddy_cases
  have hsize : 2 ^ (b.order + 1) = 2 ^ b.order * 2 := Nat.pow_succ ..
  have hpos : 0 < 2 ^ b.order := Nat.two_pow_pos _
  simp only [stop, order_parent] at hwithin ⊢
  generalize 2 ^ (b.order + 1) = s at *
  -- all four ends are multiples of the size of the parent
  have hle : q ≤ p := by
    by_contra hlt
    have : s * (p + 1) ≤ s * q := Nat.mul_le_mul_left s (by omega)
    rw [Nat.mul_succ] at this
    omega
  have hge : p + 1 ≤ r := by
    by_contra hlt
    have : s * r ≤ s * p := Nat.mul_le_mul_left s (by omega)
    omega
  have hle' : s * q ≤ s * p := Nat.mul_le_mul_left s hle
  have hge' : s * (p + 1) ≤ s * r := Nat.mul_le_mul_left s hge
  rw [Nat.mul_succ] at hge'
  omega

end Block

/-! ## Tilings -/

/-- Every number of the range lies in exactly one block of `T`, and the blocks are
aligned and inside the range. -/
structure Tiling (lo hi : Nat) (T : Set Block) : Prop where
  aligned : ∀ b ∈ T, b.Aligned
  within : ∀ b ∈ T, lo ≤ b.start ∧ b.stop ≤ hi
  unique : ∀ x, lo ≤ x → x < hi → ∃! b, b ∈ T ∧ b.Has x

namespace Tiling

variable {lo hi : Nat} {T : Set Block}

section

variable (h : Tiling lo hi T)
include h

/-- Blocks that share a number are equal. -/
theorem eq_of_has {b c : Block} (hb : b ∈ T) (hc : c ∈ T) {x : Nat}
    (hbx : b.Has x) (hcx : c.Has x) : b = c := by
  have hrange := h.within b hb
  have hx : lo ≤ x ∧ x < hi := ⟨Nat.le_trans hrange.1 hbx.1, Nat.lt_of_lt_of_le hbx.2 hrange.2⟩
  exact (h.unique x hx.1 hx.2).unique ⟨hb, hbx⟩ ⟨hc, hcx⟩

/-- Replacing some blocks of a tiling by others that cover the same numbers, each
once. -/
theorem exchange {P Q : Set Block} (hP : P ⊆ T)
    (haligned : ∀ b ∈ Q, b.Aligned) (hcover : ∀ x, (∃ b ∈ P, b.Has x) ↔ ∃ b ∈ Q, b.Has x)
    (honce : ∀ b ∈ Q, ∀ c ∈ Q, ∀ x, b.Has x → c.Has x → b = c) :
    Tiling lo hi {b | (b ∈ T ∧ b ∉ P) ∨ b ∈ Q} := by
  refine ⟨?_, ?_, ?_⟩
  · rintro b (⟨hb, -⟩ | hb)
    · exact h.aligned b hb
    · exact haligned b hb
  · rintro b (⟨hb, -⟩ | hb)
    · exact h.within b hb
    · -- the first and the last number of a new block lie in old blocks
      obtain ⟨c, hc, hcs⟩ := (hcover b.start).mpr ⟨b, hb, b.has_start⟩
      have hlast : b.Has (b.stop - 1) := by
        have hlt := b.start_lt_stop
        simp only [Block.Has]
        omega
      obtain ⟨d, hd, hds⟩ := (hcover (b.stop - 1)).mpr ⟨b, hb, hlast⟩
      have hcr := h.within c (hP hc)
      have hdr := h.within d (hP hd)
      simp only [Block.Has] at hcs hds
      omega
  · intro x hlo hhi
    obtain ⟨b, ⟨hb, hbx⟩, huniq⟩ := h.unique x hlo hhi
    by_cases hbP : b ∈ P
    · obtain ⟨c, hc, hcx⟩ := (hcover x).mp ⟨b, hbP, hbx⟩
      refine ⟨c, ⟨Or.inr hc, hcx⟩, ?_⟩
      rintro d ⟨⟨hd, hdP⟩ | hd, hdx⟩
      · exact absurd (huniq d ⟨hd, hdx⟩ ▸ hbP) hdP
      · exact honce d hd c hc x hdx hcx
    · refine ⟨b, ⟨Or.inl ⟨hb, hbP⟩, hbx⟩, ?_⟩
      rintro d ⟨⟨hd, -⟩ | hd, hdx⟩
      · exact huniq d ⟨hd, hdx⟩
      · obtain ⟨c, hc, hcx⟩ := (hcover x).mpr ⟨d, hd, hdx⟩
        exact absurd (huniq c ⟨hP hc, hcx⟩ ▸ hc) hbP

/-- A block and its buddy become their parent. -/
theorem merge (hb : b ∈ T) (hbuddy : b.buddy ∈ T) :
    Tiling lo hi {c | (c ∈ T ∧ c ≠ b ∧ c ≠ b.buddy) ∨ c = b.parent} := by
  have haligned := h.aligned b hb
  have hnew := h.exchange (P := {b, b.buddy}) (Q := {b.parent})
    (by rintro c (rfl | rfl) <;> assumption)
    (by rintro c rfl; exact haligned.parent)
    (fun x => by simp [haligned.has_parent])
    (by rintro c rfl d rfl x - -; rfl)
  simpa using hnew

/-- A block of order `k + 1` becomes its two halves. -/
theorem split {x k : Nat} (hb : ⟨x, k + 1⟩ ∈ T) :
    Tiling lo hi {c | (c ∈ T ∧ c ≠ ⟨x, k + 1⟩) ∨ c = ⟨x, k⟩ ∨ c = ⟨x + 2 ^ k, k⟩} := by
  have haligned : 2 ^ (k + 1) ∣ x := h.aligned _ hb
  have hlow : 2 ^ k ∣ x := Nat.dvd_trans (Nat.pow_dvd_pow 2 (Nat.le_succ k)) haligned
  have hnew := h.exchange (P := {⟨x, k + 1⟩}) (Q := {⟨x, k⟩, ⟨x + 2 ^ k, k⟩})
    (by rintro c rfl; exact hb)
    (by
      rintro c (rfl | rfl)
      · exact hlow
      · exact Nat.dvd_add hlow (Nat.dvd_refl _))
    (fun y => by
      simp only [Set.mem_singleton_iff, Set.mem_insert_iff, exists_eq_left, exists_eq_or_imp,
        Block.Has, Block.stop]
      omega)
    (by
      rintro c (rfl | rfl) d (rfl | rfl) y hc hd
      · rfl
      · simp only [Block.Has, Block.stop] at hc hd
        omega
      · simp only [Block.Has, Block.stop] at hc hd
        omega
      · rfl)
  simpa using hnew

end

end Tiling

end LinuxKernel.Foundation
