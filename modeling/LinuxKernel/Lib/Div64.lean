/-
  Division of a 64-bit number by a 32-bit one.

  Source: lib/div64.c (`__div64_32`).

  The divisor is doubled until it is at least the remainder, or its top bit is set, and
  subtracted on the way back.  All arithmetic is that of the machine words.
-/
import LinuxKernel.Foundation.Loop

namespace LinuxKernel.Lib.Div64

open Foundation BitVec

/-! ## The code -/

section

/-- The variables of the loops -/
structure State where
  rem : BitVec 64
  res : BitVec 64
  b : BitVec 64
  d : BitVec 64

/-- Reduce the thing a bit first: `res` and `rem` -/
def reduce (n : BitVec 64) (base : BitVec 32) : BitVec 64 × BitVec 64 :=
  let high := (n >>> 32).setWidth 32
  if high ≥ base then
    let high := high / base
    (high.setWidth 64 <<< 32, n - (high * base).setWidth 64 <<< 32)
  else (0, n)

/-- A round of `while ((int64_t)b > 0 && b < rem)` -/
def doubleRound (s : State) : Option (State ⊕ State) :=
  some (if s.b.toInt > 0 ∧ s.b < s.rem then .inr { s with b := s.b + s.b, d := s.d + s.d }
    else .inl s)

def subtract (s : State) : State :=
  if s.rem ≥ s.b then { s with rem := s.rem - s.b, res := s.res + s.d } else s

/-- A round of `do … while (d)` -/
def subtractRound (s : State) : Option (State ⊕ State) :=
  let s := subtract s
  let s := { s with b := s.b >>> 1, d := s.d >>> 1 }
  some (if s.d = 0 then .inl s else .inr s)

/-- `__div64_32`: what it stores, and what it returns -/
def div64_32 (n : BitVec 64) (base : BitVec 32) : Option (BitVec 64 × BitVec 32) := do
  let (res, rem) := reduce n base
  let s ← loop doubleRound ⟨rem, res, base.setWidth 64, 1⟩
  let s ← loop subtractRound s
  return (s.res, s.rem.setWidth 32)

end

/-! ## The loops -/

section

variable {base : BitVec 32} {n b d : BitVec 64} {s : State} {k : Nat}

/-- The divisor and one, doubled as often. -/
structure Scaled (base : BitVec 32) (b d : BitVec 64) (k : Nat) : Prop where
  divisor : b.toNat = base.toNat * 2 ^ k
  one : d.toNat = 2 ^ k

theorem Scaled.double (h : Scaled base b d k) (hbase : 0 < base.toNat) (hsmall : b.toNat < 2 ^ 63) :
    Scaled base (b + b) (d + d) (k + 1) := by
  obtain ⟨hb, hd⟩ := h
  have hle : d.toNat ≤ b.toNat := by
    rw [hb, hd]
    exact Nat.le_mul_of_pos_left _ hbase
  constructor
  · rw [toNat_add, Nat.mod_eq_of_lt (by omega), hb, Nat.pow_succ, ← Nat.mul_assoc, Nat.mul_two]
  · rw [toNat_add, Nat.mod_eq_of_lt (by omega), hd, Nat.pow_succ, Nat.mul_two]

theorem Scaled.half (h : Scaled base b d (k + 1)) : Scaled base (b >>> 1) (d >>> 1) k := by
  constructor
  · rw [toNat_ushiftRight, h.divisor, Nat.shiftRight_eq_div_pow, Nat.pow_succ 2 k, ← Nat.mul_assoc,
      Nat.mul_div_cancel _ (by decide)]
  · rw [toNat_ushiftRight, h.one, Nat.shiftRight_eq_div_pow, Nat.pow_succ 2 k,
      Nat.mul_div_cancel _ (by decide)]

/-- What was subtracted is accounted for. -/
def Split (n : BitVec 64) (base : BitVec 32) (s : State) : Prop :=
  s.res.toNat * base.toNat + s.rem.toNat = n.toNat

/-- What holds before a round of the second loop. -/
structure Ready (n : BitVec 64) (base : BitVec 32) (s : State) (k : Nat) : Prop where
  scaled : Scaled base s.b s.d k
  split : Split n base s
  bound : s.rem.toNat < 2 * s.b.toNat

/-- The doubling ends, and does not leave the word. -/
theorem double_spec (hbase : 0 < base.toNat) (hscaled : Scaled base s.b s.d k)
    (hsplit : Split n base s) :
    ∃ s', loop doubleRound s = some s' ∧ ∃ k', Ready n base s' k' := by
  refine loop_of_measure (fun s => (∃ k, Scaled base s.b s.d k) ∧ Split n base s)
    (fun s => s.rem.toNat - s.b.toNat) ?_ ⟨⟨k, hscaled⟩, hsplit⟩
  rintro s ⟨⟨k, h⟩, hsplit⟩
  have hpos : 0 < s.b.toNat := by
    rw [h.divisor]
    exact Nat.mul_pos hbase (Nat.two_pow_pos k)
  have hrem := s.rem.isLt
  have hsign : s.b.toInt > 0 ↔ s.b.toNat < 2 ^ 63 := by
    rw [toInt_eq_toNat_cond]
    split <;> omega
  simp only [doubleRound, hsign, lt_def]
  split
  · rename_i hround
    refine .inr ⟨_, rfl, ⟨⟨k + 1, h.double hbase hround.1⟩, hsplit⟩, ?_⟩
    simp only [toNat_add, Nat.mod_eq_of_lt (show s.b.toNat + s.b.toNat < 2 ^ 64 by omega)]
    omega
  · exact .inl ⟨_, rfl, k, h, hsplit, by omega⟩

theorem Ready.subtract (hbase : 0 < base.toNat) (h : Ready n base s k) :
    Split n base (subtract s) ∧ (subtract s).rem.toNat < s.b.toNat ∧ (subtract s).b = s.b ∧
      (subtract s).d = s.d := by
  obtain ⟨⟨hb, hd⟩, hsplit, hbound⟩ := h
  have hn := n.isLt
  unfold Split at *
  unfold Div64.subtract
  split
  · rename_i hge
    have hle : s.b.toNat ≤ s.rem.toNat := hge
    have hmul : (s.res.toNat + s.d.toNat) * base.toNat = s.res.toNat * base.toNat + s.b.toNat := by
      rw [Nat.add_mul, hb, hd, Nat.mul_comm base.toNat]
    have hres := Nat.le_mul_of_pos_right (s.res.toNat + s.d.toNat) hbase
    refine ⟨?_, ?_, rfl, rfl⟩
    · simp only [toNat_sub_of_le hge, toNat_add]
      rw [Nat.mod_eq_of_lt (by omega), hmul]
      omega
    · rw [toNat_sub_of_le hge]
      omega
  · rename_i hlt
    exact ⟨hsplit, Nat.not_le.mp hlt, rfl, rfl⟩

theorem subtract_spec (hbase : 0 < base.toNat) (h : Ready n base s k) : ∃ s',
    loop subtractRound s = some s' ∧ s'.rem.toNat < base.toNat ∧ Split n base s' := by
  induction k generalizing s with
  | zero =>
    obtain ⟨hsplit, hlt, hb, hd⟩ := h.subtract hbase
    have hdone : s.d >>> 1 = 0 := by
      apply eq_of_toNat_eq
      rw [toNat_ushiftRight, h.scaled.one]
      rfl
    refine ⟨{ Div64.subtract s with b := s.b >>> 1, d := s.d >>> 1 }, loop_done ?_, ?_, hsplit⟩
    · simp only [subtractRound, hb, hd, if_pos hdone]
    · rwa [h.scaled.divisor, Nat.pow_zero, Nat.mul_one] at hlt
  | succ k ih =>
    obtain ⟨hsplit, hlt, hb, hd⟩ := h.subtract hbase
    have hhalf := h.scaled.half
    have hmore : s.d >>> 1 ≠ 0 := by
      intro hzero
      have hone := hhalf.one
      rw [hzero] at hone
      exact Nat.ne_of_lt (Nat.two_pow_pos k) hone
    have hbound : (Div64.subtract s).rem.toNat < 2 * (s.b >>> 1).toNat := by
      rw [hhalf.divisor]
      rw [h.scaled.divisor, Nat.pow_succ, ← Nat.mul_assoc] at hlt
      omega
    obtain ⟨s', hloop, hs'⟩ := @ih { Div64.subtract s with b := s.b >>> 1, d := s.d >>> 1 }
      ⟨hhalf, hsplit, hbound⟩
    refine ⟨s', (loop_next ?_).trans hloop, hs'⟩
    simp only [subtractRound, hb, hd, if_neg hmore]

/-- The reduction of the high word takes a multiple of the divisor away. -/
theorem reduce_spec (n : BitVec 64) (base : BitVec 32) :
    (reduce n base).1.toNat * base.toNat + (reduce n base).2.toNat = n.toNat := by
  have hhigh : ((n >>> 32).setWidth 32).toNat = n.toNat / 2 ^ 32 := by
    rw [toNat_setWidth, toNat_ushiftRight, Nat.shiftRight_eq_div_pow,
      Nat.mod_eq_of_lt (by have := n.isLt; omega)]
  simp only [reduce]
  generalize (n >>> 32).setWidth 32 = high at *
  have hle := Nat.div_mul_le_self high.toNat base.toNat
  have hdiv := Nat.div_le_self high.toNat base.toNat
  have hlt := high.isLt
  split
  · have hres : ((high / base).setWidth 64 <<< 32).toNat = high.toNat / base.toNat * 2 ^ 32 := by
      rw [toNat_shiftLeft, toNat_setWidth_of_le (by decide), toNat_udiv, Nat.shiftLeft_eq,
        Nat.mod_eq_of_lt (by omega)]
    have hsub : ((high / base * base).setWidth 64 <<< 32).toNat =
        high.toNat / base.toNat * base.toNat * 2 ^ 32 := by
      rw [toNat_shiftLeft, toNat_setWidth_of_le (by decide), toNat_mul, toNat_udiv,
        Nat.mod_eq_of_lt (by omega), Nat.shiftLeft_eq, Nat.mod_eq_of_lt (by omega)]
    rw [toNat_sub_of_le (by rw [le_def]; omega), hres, hsub, Nat.mul_right_comm]
    omega
  · simp

/-- The number is divided, with the remainder. -/
theorem div64_32_divides (n : BitVec 64) {base : BitVec 32} (hbase : base ≠ 0) : ∃ res rem,
    div64_32 n base = some (res, rem) ∧ res.toNat = n.toNat / base.toNat ∧
      rem.toNat = n.toNat % base.toNat := by
  have hpos : 0 < base.toNat := Nat.pos_of_ne_zero fun hzero => hbase (eq_of_toNat_eq hzero)
  have hstart : Scaled base (base.setWidth 64) 1 0 :=
    ⟨by rw [toNat_setWidth_of_le (by decide), Nat.pow_zero, Nat.mul_one], rfl⟩
  obtain ⟨s, hdouble, k, hready⟩ := double_spec hpos (s := ⟨_, _, base.setWidth 64, 1⟩)
    hstart (reduce_spec n base)
  obtain ⟨s', hsubtract, hlt, hsplit⟩ := subtract_spec hpos hready
  obtain ⟨hres, hrem⟩ := (Nat.div_mod_unique hpos).mpr
    ⟨show s'.rem.toNat + base.toNat * s'.res.toNat = n.toNat by
      rw [← hsplit, Nat.mul_comm, Nat.add_comm], hlt⟩
  have hword := base.isLt
  refine ⟨s'.res, s'.rem.setWidth 32, ?_, hres.symm, ?_⟩
  · simp only [div64_32, hdouble, hsubtract, Option.bind_eq_bind, Option.bind_some, Option.pure_def]
  · rw [toNat_setWidth, Nat.mod_eq_of_lt (by omega), hrem]

/-- The divisor is doubled until its top bit is set, below the remainder. -/
theorem div64_32_divides_top : ∃ res rem, div64_32 (-1) 0x80000001 = some (res, rem) ∧
    res.toNat = 0x1fffffffc ∧ rem.toNat = 3 :=
  div64_32_divides (-1) (by decide)

end

end LinuxKernel.Lib.Div64
