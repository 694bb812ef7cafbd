/-
  Boyer-Moore search in a text that comes in blocks.

  Source: lib/ts_bm.c.

  The tables, the pattern and a block of the text are lists, and what would be read
  outside of them is `none`.  `shift` is an `int`, kept as the 32-bit word that the
  arithmetic with unsigned operands leaves; the other `int`s are small and are integers.
-/
import LinuxKernel.Lib.TsKmp

namespace LinuxKernel.Lib.TsBm

open Foundation List Option
open Lib.TsKmp (uintMax)

/-! ## The code -/

section

def asize : Nat := 256

structure Bm where
  pattern : List UInt8
  badShift : List Nat
  goodShift : List Nat

/-- `pattern[x]` for an `int` index -/
def byteAt (pattern : List UInt8) (x : Int) : Option UInt8 :=
  if x < 0 then none else pattern[x.toNat]?

/-- The loop of `subpattern`.  `g` is at least one when it starts. -/
def subpatternFrom (pattern : List UInt8) (i j : Int) : (g : Nat) → (x y : Int) → Option Bool
  | 0, _, _ => none
  | g + 1, x, y =>
    match byteAt pattern x, byteAt pattern y with
    | some a, some b =>
      if a ≠ b then some false
      else if y - 1 < 0 then some true
      else if g = 0 then
        match byteAt pattern (i - 1), byteAt pattern (j - 1) with
        | some a, some b => some (a != b)
        | _, _ => none
      else subpatternFrom pattern i j g (x - 1) (y - 1)
    | _, _ => none

/-- `subpattern` -/
def subpattern (pattern : List UInt8) (i j : Int) (g : Nat) : Option Bool :=
  subpatternFrom pattern i j g (i + g - 1) (j + g - 1)

/-- The second loop over `bad_shift`, with `left` rounds to go. -/
def badShiftFrom (pattern : List UInt8) : (left i : Nat) → (badShift : List Nat) → Option (List Nat)
  | 0, _, badShift => some badShift
  | left + 1, i, badShift =>
    match pattern[i]? with
    | none => none
    | some c =>
      badShiftFrom pattern left (i + 1) (badShift.set c.toNat (pattern.length - 1 - i))

/-- The inner loop over `j`: the value for `good_shift[g]`, if one is found. -/
def goodShiftAt (pattern : List UInt8) (i : Int) (g : Nat) :
    (left : Nat) → (j : Int) → Option (Option Nat)
  | 0, _ => some none
  | left + 1, j =>
    match subpattern pattern i j g with
    | none => none
    | some true => some (some ((pattern.length : Int) - j - g).toNat)
    | some false => goodShiftAt pattern i g left (j - 1)

/-- The outer loop over `i` and `g`; `i` is the number of rounds to go. -/
def goodShiftFrom (pattern : List UInt8) :
    (i g : Nat) → (goodShift : List Nat) → Option (List Nat)
  | 0, _, goodShift => some goodShift
  | i + 1, g, goodShift =>
    -- `j` runs from `i - 1` down to `1 - g`
    match goodShiftAt pattern (i + 1 : Nat) g (i + g) i with
    | none => none
    | some none => goodShiftFrom pattern i (g + 1) goodShift
    | some (some shift) => goodShiftFrom pattern i (g + 1) (goodShift.set g shift)

/-- `bm_init` with `compute_prefix_tbl`, when there is memory -/
def bmInit (pattern : List UInt8) : Option Bm :=
  let patlen := pattern.length
  match badShiftFrom pattern (patlen - 1) 0 (List.replicate asize patlen) with
  | none => none
  | some badShift =>
    match goodShiftFrom pattern (patlen - 1) 1 (1 :: List.replicate (patlen - 1) patlen) with
    | none => none
    | some goodShift => some ⟨pattern, badShift, goodShift⟩

/-- The value of an `int` with the given bits. -/
def toInt (x : Nat) : Int := if x < 2 ^ 31 then x else x - 2 ^ 32

/-- `max_t(int, x, y)` -/
def maxInt (x y : Nat) : Nat := if toInt x > toInt y then x else y

/-- The comparison of the pattern with the text that ends at `shift`: the number of bytes
that agree, if not all do. -/
def compareFrom (bm : Bm) (text : List UInt8) (shift : Nat) :
    (left i : Nat) → Option (Option Nat)
  | 0, _ => some none
  | left + 1, i =>
    match text[(shift + (2 ^ 32 - i)) % 2 ^ 32]?, bm.pattern[bm.pattern.length - 1 - i]? with
    | some a, some b => if a ≠ b then some (some i) else compareFrom bm text shift left (i + 1)
    | _, _ => none

/-- Where to go on, when `i` bytes agree. -/
def nextShift (bm : Bm) (text : List UInt8) (shift i : Nat) : Option Nat :=
  match text[(shift + (2 ^ 32 - i)) % 2 ^ 32]? with
  | none => none
  | some c =>
    match bm.badShift[c.toNat]?, bm.goodShift[i]? with
    | some bs, some gs =>
      some (maxInt ((shift + (2 ^ 32 - i) + bs) % 2 ^ 32) ((shift + gs) % 2 ^ 32))
    | _, _ => none

/-- The `while` loop of `bm_find`: the position found, or `shift` at the end of the block -/
def scanBlock (bm : Bm) (consumed : Nat) (text : List UInt8) : Nat → Option (Nat ⊕ Nat) :=
  loop fun shift =>
    if shift < text.length then
      match compareFrom bm text shift bm.pattern.length 0 with
      | none => none
      | some none =>
        some (.inl (.inl ((consumed + (shift + (2 ^ 32 - (bm.pattern.length - 1)))) % 2 ^ 32)))
      | some (some i) => (nextShift bm text shift i).map .inr
    else some (.inl (.inr shift))

/-- `bm_find` -/
def bmFind (bm : Bm) (getNextBlock : Nat → List UInt8) (offset : Nat) : Option Nat :=
  loop (fun (consumed, shift) =>
    let text := getNextBlock consumed
    if text.length = 0 then some (.inl uintMax)
    else
      match scanBlock bm consumed text shift with
      | none => none
      | some (.inl found) => some (.inl found)
      | some (.inr shift) => some (.inr ((consumed + text.length) % 2 ^ 32, shift)))
    (offset, bm.pattern.length)

end

/-! ## The tables -/

section

variable {pattern text : List UInt8} {d g k : Nat}

theorem byteAt_nat (pattern : List UInt8) (n : Nat) : byteAt pattern n = pattern[n]? := by
  unfold byteAt
  rw [if_neg (by omega), Int.toNat_natCast]

/-- Shifting the pattern by `d` keeps it in step with a text whose last `g` bytes agree
with it, and that differs before them. -/
def Compatible (pattern : List UInt8) (d g : Nat) : Prop :=
  (∀ k < g, d + k < pattern.length →
    pattern[pattern.length - 1 - k]? = pattern[pattern.length - 1 - k - d]?) ∧
  (g + d < pattern.length →
    pattern[pattern.length - 1 - g]? ≠ pattern[pattern.length - 1 - g - d]?)

section

variable (hd : d < pattern.length) (hg : g < pattern.length)
include hd hg

theorem subpatternFrom_spec (left k : Nat)
    (hk : k + left = g) (h : 0 < left) (hkd : k + d < pattern.length)
    (hsame : ∀ k' < k, pattern[pattern.length - 1 - k']? = pattern[pattern.length - 1 - k' - d]?) :
    ∃ b, subpatternFrom pattern (pattern.length - g : Nat) ((pattern.length - g : Nat) - d) left
        (pattern.length - 1 - k : Nat) (pattern.length - 1 - k - d : Nat) = some b ∧
      (b = true ↔ Compatible pattern d g) := by
  induction left generalizing k with
  | zero => omega
  | succ left ih =>
    obtain ⟨a, ha⟩ : ∃ a, pattern[pattern.length - 1 - k]? = some a :=
      ⟨_, getElem?_eq_getElem (by omega)⟩
    obtain ⟨b, hb⟩ : ∃ b, pattern[pattern.length - 1 - k - d]? = some b :=
      ⟨_, getElem?_eq_getElem (by omega)⟩
    rw [subpatternFrom, byteAt_nat, byteAt_nat, ha, hb]
    dsimp only
    by_cases hab : a = b
    · rw [if_neg (not_not.mpr hab)]
      have hsame' (k') (hk' : k' < k + 1) :
          pattern[pattern.length - 1 - k']? = pattern[pattern.length - 1 - k' - d]? := by
        by_cases heq : k' = k
        · rw [heq, ha, hb, hab]
        · exact hsame k' (by omega)
      split
      · -- the shifted pattern begins here
        refine ⟨true, rfl, fun _ => ⟨fun k' hk' hdk => hsame' k' (by omega), fun h => ?_⟩, fun _ => rfl⟩
        omega
      split
      · obtain ⟨a', ha'⟩ : ∃ a', pattern[pattern.length - 1 - g]? = some a' :=
          ⟨_, getElem?_eq_getElem (by omega)⟩
        obtain ⟨b', hb'⟩ : ∃ b', pattern[pattern.length - 1 - g - d]? = some b' :=
          ⟨_, getElem?_eq_getElem (by omega)⟩
        rw [show ((pattern.length - g : Nat) : Int) - 1 = (pattern.length - 1 - g : Nat) by omega,
          show ((pattern.length - g : Nat) : Int) - d - 1 = (pattern.length - 1 - g - d : Nat) by
            omega, byteAt_nat, byteAt_nat, ha', hb']
        refine ⟨_, rfl, ?_⟩
        rw [bne_iff_ne]
        refine ⟨fun hne => ⟨fun k' hk' _ => hsame' k' (by omega), fun _ => ?_⟩, fun h heq => ?_⟩
        · rw [ha', hb']
          exact fun h => hne (some.inj h)
        · exact h.2 (by omega) (by rw [ha', hb', heq])
      · rw [show ((pattern.length - 1 - k : Nat) : Int) - 1 = (pattern.length - 1 -
        (k + 1) : Nat) by
            omega,
          show ((pattern.length - 1 - k - d : Nat) : Int) - 1 =
            (pattern.length - 1 - (k + 1) - d : Nat) by omega]
        exact ih (k + 1) (by omega) (by omega) (by omega) hsame'
    · rw [if_pos hab]
      refine ⟨false, rfl, (fun h => by cases h), fun h => absurd (h.1 k (by omega) (by omega)) ?_⟩
      rw [ha, hb]
      exact fun h => hab (some.inj h)

theorem subpattern_spec (hpos : 0 < g) :
    ∃ b, subpattern pattern (pattern.length - g : Nat) ((pattern.length - g : Nat) - d) g = some b ∧
      (b = true ↔ Compatible pattern d g) := by
  have hspec := subpatternFrom_spec hd hg g 0 (by omega) hpos (by omega) (fun _ h => by omega)
  unfold subpattern
  rw [show ((pattern.length - g : Nat) : Int) + g - 1 = (pattern.length - 1 - 0 : Nat) by omega,
    show ((pattern.length - g : Nat) : Int) - d + g - 1 = (pattern.length - 1 - 0 - d : Nat) by omega]
  exact hspec

end

/-- The entries of `good_shift` do not skip a compatible shift. -/
def GoodEntry (pattern : List UInt8) (g shift : Nat) : Prop :=
  1 ≤ shift ∧ shift ≤ pattern.length ∧ ∀ d, 1 ≤ d → d < shift → ¬ Compatible pattern d g

theorem goodShiftAt_spec (hg : g < pattern.length) (hpos : 0 < g) :
    ∀ (left d : Nat), d + left = pattern.length → 1 ≤ d →
      (∀ d', 1 ≤ d' → d' < d → ¬ Compatible pattern d' g) →
      ∃ out, goodShiftAt pattern (pattern.length - g : Nat) g left
          ((pattern.length - g : Nat) - d) = some out ∧
        GoodEntry pattern g (out.getD pattern.length) := by
  intro left
  induction left with
  | zero =>
    intro d hd hone hnone
    exact ⟨none, rfl, by simp only [getD_none]; omega, Nat.le_refl _,
      fun d' h h' => hnone d' h (by simp at h'; omega)⟩
  | succ left ih =>
    intro d hd hone hnone
    obtain ⟨b, hb, hiff⟩ := subpattern_spec (d := d) (by omega) hg hpos
    rw [goodShiftAt, hb]
    cases b with
    | true =>
      refine ⟨_, rfl, ?_⟩
      rw [getD_some, show ((pattern.length : Int) - ((pattern.length - g : Nat) - d) - g).toNat = d
        by omega]
      exact ⟨hone, by omega, hnone⟩
    | false =>
      rw [show ((pattern.length - g : Nat) : Int) - d - 1 = (pattern.length - g : Nat) - (d + 1 : Nat) by
        omega]
      refine ih (d + 1) (by omega) (by omega) fun d' h h' hcompat => ?_
      by_cases heq : d' = d
      · subst heq
        exact absurd (hiff.mpr hcompat) (by simp)
      · exact hnone d' h (by omega) hcompat

/-- The first `n` entries of `good_shift` are right, and the others are what they were set to. -/
structure GoodUpTo (pattern : List UInt8) (goodShift : List Nat) (n : Nat) : Prop where
  length : goodShift.length = pattern.length
  entries : ∀ g < n, ∃ shift, goodShift[g]? = some shift ∧ GoodEntry pattern g shift
  rest : ∀ g, n ≤ g → g < pattern.length → goodShift[g]? = some pattern.length

theorem GoodUpTo.step {goodShift : List Nat} {shift : Nat} (h : GoodUpTo pattern goodShift g)
    (hg : g < pattern.length) (hshift : GoodEntry pattern g shift) :
    GoodUpTo pattern (goodShift.set g shift) (g + 1) := by
  have hother : ∀ {g'}, g' ≠ g → (goodShift.set g shift)[g']? = goodShift[g']? := fun hne =>
    getElem?_set_ne (Ne.symm hne)
  refine ⟨by rw [length_set, h.length], fun g' hg' => ?_, fun g' hle hlt => ?_⟩
  · by_cases heq : g' = g
    · subst heq
      exact ⟨shift, getElem?_set_self (by rw [h.length]; exact hg), hshift⟩
    · rw [hother heq]
      exact h.entries g' (by omega)
  · rw [hother (by omega)]
    exact h.rest g' (by omega) hlt

theorem goodShiftFrom_spec (i g : Nat) (goodShift : List Nat) (hg : i + g = pattern.length)
    (hpos : 0 < g) (h : GoodUpTo pattern goodShift g) :
    ∃ goodShift', goodShiftFrom pattern i g goodShift = some goodShift' ∧
      GoodUpTo pattern goodShift' pattern.length := by
  induction i generalizing g goodShift with
  | zero =>
    rw [Nat.zero_add] at hg
    exact ⟨goodShift, rfl, hg ▸ h⟩
  | succ i ih =>
    have hlt : g < pattern.length := by omega
    obtain ⟨out, hout, hentry⟩ := goodShiftAt_spec hlt hpos (i + g) 1 (by omega) (Nat.le_refl _)
      (fun d h h' => by omega)
    rw [show ((pattern.length - g : Nat) : Int) - (1 : Nat) = (i : Int) by omega,
      show pattern.length - g = i + 1 by omega] at hout
    rw [goodShiftFrom, hout]
    cases out with
    | none =>
      -- the entry stays what it was set to
      have hset : goodShift.set g pattern.length = goodShift := by
        refine ext_getElem? fun k => ?_
        by_cases hk : k = g
        · subst hk
          rw [getElem?_set_self (by rw [h.length]; exact hlt), h.rest k (Nat.le_refl _) hlt]
        · rw [getElem?_set_ne (Ne.symm hk)]
      have hstep := h.step hlt hentry
      rw [getD_none, hset] at hstep
      exact ih (g + 1) goodShift (by omega) (by omega) hstep
    | some shift => exact ih (g + 1) _ (by omega) (by omega) (h.step hlt hentry)

/-- `bad_shift` does not skip an occurrence of the byte among the first `n` of the pattern. -/
structure BadUpTo (pattern : List UInt8) (badShift : List Nat) (n : Nat) : Prop where
  length : badShift.length = asize
  entries : ∀ c : UInt8, ∃ shift, badShift[c.toNat]? = some shift ∧ shift ≤ pattern.length ∧
    ∀ k < n, pattern[k]? = some c → shift ≤ pattern.length - 1 - k

theorem badShiftFrom_spec (left i : Nat) (badShift : List Nat) (hi : i + left = pattern.length - 1)
    (h : BadUpTo pattern badShift i) :
    ∃ badShift', badShiftFrom pattern left i badShift = some badShift' ∧
      BadUpTo pattern badShift' (pattern.length - 1) := by
  induction left generalizing i badShift with
  | zero => exact ⟨badShift, rfl, hi ▸ h⟩
  | succ left ih =>
    have hlt : i < pattern.length := by omega
    rw [badShiftFrom, getElem?_eq_getElem hlt]
    refine ih (i + 1) _ (by omega) ⟨by rw [length_set, h.length], fun c => ?_⟩
    by_cases hc : c = pattern[i]
    · subst hc
      have hsize : pattern[i].toNat < badShift.length := by
        rw [h.length]
        exact pattern[i].toNat_lt
      exact ⟨_, getElem?_set_self hsize, by omega, fun k hk _ => by omega⟩
    · obtain ⟨shift, hshift, hle, hall⟩ := h.entries c
      have hne : pattern[i].toNat ≠ c.toNat := fun heq => hc (UInt8.toNat_inj.mp heq).symm
      refine ⟨shift, by rw [getElem?_set_ne hne, hshift], hle, fun k hk hget => ?_⟩
      refine hall k ?_ hget
      have hki : k ≠ i := by
        rintro rfl
        rw [getElem?_eq_getElem hlt] at hget
        exact hc (some.inj hget).symm
      omega

/-- What `bm_init` sets up. -/
structure Tables (pattern : List UInt8) (bm : Bm) : Prop where
  pattern_eq : bm.pattern = pattern
  bad : BadUpTo pattern bm.badShift (pattern.length - 1)
  good : GoodUpTo pattern bm.goodShift pattern.length

theorem bmInit_spec (hne : pattern ≠ []) : ∃ bm, bmInit pattern = some bm ∧ Tables pattern bm := by
  have hpos := length_pos_iff.mpr hne
  have hbadZero : BadUpTo pattern (replicate asize pattern.length) 0 := by
    refine ⟨length_replicate, fun c => ⟨pattern.length, ?_, Nat.le_refl _, fun k hk => by omega⟩⟩
    rw [getElem?_replicate]
    exact if_pos c.toNat_lt
  obtain ⟨badShift, hbad, hbadSpec⟩ := badShiftFrom_spec (pattern.length - 1) 0 _ (by omega) hbadZero
  have hgoodOne : GoodUpTo pattern (1 :: replicate (pattern.length - 1) pattern.length) 1 := by
    refine ⟨by rw [length_cons, length_replicate]; omega, fun g hg => ?_, fun g hle hlt => ?_⟩
    · obtain rfl : g = 0 := by omega
      exact ⟨1, rfl, Nat.le_refl _, hpos, fun d h h' => by omega⟩
    · obtain ⟨g, rfl⟩ : ∃ n, g = n + 1 := ⟨g - 1, by omega⟩
      rw [getElem?_cons_succ, getElem?_replicate, if_pos (by omega)]
  obtain ⟨goodShift, hgood, hgoodSpec⟩ := goodShiftFrom_spec (pattern.length - 1) 1 _ (by omega)
    (by omega) hgoodOne
  refine ⟨⟨pattern, badShift, goodShift⟩, ?_, rfl, hbadSpec, hgoodSpec⟩
  unfold bmInit
  dsimp only
  rw [hbad]
  rw [hgood]

end

/-! ## The search -/

section

variable {pattern text : List UInt8} {bm : Bm} {shift i : Nat}

/-- An occurrence whose last byte is at `e`. -/
def EndsAt (pattern text : List UInt8) (e : Nat) : Prop :=
  ∀ k < pattern.length, text[e - k]? = pattern[pattern.length - 1 - k]?

theorem endsAt_iff {p : Nat} :
    EndsAt pattern text (p + pattern.length - 1) ↔ OccursAt pattern text p := by
  unfold OccursAt
  rw [prefix_iff_getElem?]
  constructor
  · intro h k hk
    have hget := h (pattern.length - 1 - k) (by omega)
    rw [show p + pattern.length - 1 - (pattern.length - 1 - k) = p + k by omega,
      show pattern.length - 1 - (pattern.length - 1 - k) = k by omega] at hget
    rw [getElem?_drop, hget, getElem?_eq_getElem hk]
  · intro h k hk
    have hget := h (pattern.length - 1 - k) (by omega)
    rw [getElem?_drop] at hget
    rw [show p + pattern.length - 1 - k = p + (pattern.length - 1 - k) by omega, hget,
      getElem?_eq_getElem (by omega)]

/-- `i` bytes of the pattern agree with the text that ends at `shift`, and the next does not. -/
structure Differs (pattern text : List UInt8) (shift i : Nat) : Prop where
  lt : i < pattern.length
  same : ∀ k < i, text[shift - k]? = pattern[pattern.length - 1 - k]?
  differs : text[shift - i]? ≠ pattern[pattern.length - 1 - i]?

theorem compareFrom_spec (hbm : bm.pattern = pattern) (hlow : pattern.length ≤ shift)
    (hhigh : shift < text.length) (hsmall : text.length ≤ 2 ^ 31) (left i : Nat)
    (hi : i + left = pattern.length)
    (hsame : ∀ k < i, text[shift - k]? = pattern[pattern.length - 1 - k]?) :
    (compareFrom bm text shift left i = some none ∧ EndsAt pattern text shift) ∨
      ∃ i', compareFrom bm text shift left i = some (some i') ∧ Differs pattern text shift i' := by
  induction left generalizing i with
  | zero => refine .inl ⟨rfl, fun k hk => hsame k (by omega)⟩
  | succ left ih =>
    have hindex : (shift + (2 ^ 32 - i)) % 2 ^ 32 = shift - i := by omega
    obtain ⟨a, ha⟩ : ∃ a, text[shift - i]? = some a := ⟨_, getElem?_eq_getElem (by omega)⟩
    obtain ⟨b, hb⟩ : ∃ b, pattern[pattern.length - 1 - i]? = some b :=
      ⟨_, getElem?_eq_getElem (by omega)⟩
    rw [compareFrom, hindex, hbm, ha, hb]
    dsimp only
    by_cases hab : a = b
    · rw [if_neg (not_not.mpr hab)]
      refine ih (i + 1) (by omega) fun k hk => ?_
      by_cases hki : k = i
      · rw [hki, ha, hb, hab]
      · exact hsame k (by omega)
    · rw [if_pos hab]
      refine .inr ⟨i, rfl, by omega, hsame, ?_⟩
      rw [ha, hb]
      exact fun h => hab (some.inj h)

/-- A shift that would bring the pattern over an occurrence is compatible. -/
theorem Differs.compatible {d : Nat} (h : Differs pattern text shift i) (hlow : pattern.length ≤ shift)
    (hends : EndsAt pattern text (shift + d)) : Compatible pattern d i := by
  refine ⟨fun k hk hdk => ?_, fun hdi heq => ?_⟩
  · rw [← h.same k hk, show pattern.length - 1 - k - d = pattern.length - 1 - (d + k) by omega,
      ← hends (d + k) hdk]
    congr 1
    omega
  · refine h.differs ?_
    rw [heq, show pattern.length - 1 - i - d = pattern.length - 1 - (d + i) by omega,
      ← hends (d + i) (by omega)]
    congr 1
    omega

theorem maxInt_eq {x y : Nat} (hx : x < 2 ^ 31) (hy : y < 2 ^ 31) : maxInt x y = max x y := by
  unfold maxInt toInt
  rw [if_pos hx, if_pos hy]
  split <;> omega

/-- The next place to look at skips no occurrence. -/
theorem nextShift_spec (htables : Tables pattern bm) (h : Differs pattern text shift i)
    (hlow : pattern.length ≤ shift) (hhigh : shift < text.length)
    (hsmall : text.length + pattern.length ≤ 2 ^ 31) :
    ∃ shift', nextShift bm text shift i = some shift' ∧ shift < shift' ∧
      shift' ≤ shift + pattern.length ∧ ∀ e, shift ≤ e → e < shift' → ¬ EndsAt pattern text e := by
  have hlt := h.lt
  have hindex : (shift + (2 ^ 32 - i)) % 2 ^ 32 = shift - i := by omega
  obtain ⟨c, hc⟩ : ∃ c, text[shift - i]? = some c := ⟨_, getElem?_eq_getElem (by omega)⟩
  obtain ⟨bs, hbs, hbsle, hbad⟩ := htables.bad.entries c
  obtain ⟨gs, hgs, hone, hgsle, hgood⟩ := htables.good.entries i hlt
  unfold nextShift
  rw [hindex, hc]
  dsimp only
  rw [hbs, hgs]
  dsimp only
  rw [maxInt_eq (by omega) (by omega)]
  refine ⟨_, rfl, by omega, by omega, fun e hle hless hends => ?_⟩
  obtain ⟨d, rfl⟩ : ∃ d, e = shift + d := ⟨e - shift, by omega⟩
  by_cases hd : d = 0
  · subst hd
    exact h.differs (hends i hlt)
  by_cases hgs' : d < gs
  · exact hgood d (by omega) hgs' (h.compatible hlow hends)
  -- the byte that differs would stand in the pattern, to the right of where the table looks
  have hget := hends (d + i) (by omega)
  rw [show shift + d - (d + i) = shift - i by omega, hc] at hget
  have := hbad _ (by omega) hget.symm
  omega

/-- What the loop returns for a block: no occurrence but one at the very beginning of the
block is missed. -/
theorem scanBlock_spec (hne : pattern ≠ []) (htables : Tables pattern bm)
    (hsmall : text.length + pattern.length ≤ 2 ^ 31) :
    ∃ out, scanBlock bm 0 text pattern.length = some out ∧
      ((∃ p, out = .inl p ∧ FirstFrom pattern text 1 p) ∨
        (∃ shift, out = .inr shift) ∧ ∀ p, 1 ≤ p → ¬ OccursAt pattern text p) := by
  have hpos := length_pos_iff.mpr hne
  -- no occurrence ends before `shift`, but for the one at the beginning
  refine loop_of_measure (fun shift => pattern.length ≤ shift ∧
      ∀ e, pattern.length ≤ e → e < shift → ¬ EndsAt pattern text e)
    (fun shift => text.length - shift) ?_ ⟨Nat.le_refl _, fun e h h' => by omega⟩
  rintro shift ⟨hlow, hnone⟩
  by_cases hhigh : shift < text.length
  · rw [if_pos hhigh, htables.pattern_eq]
    rcases compareFrom_spec htables.pattern_eq hlow hhigh (by omega) pattern.length 0 (by omega)
      (fun k hk => by omega) with ⟨heq, hends⟩ | ⟨i, heq, hdiffers⟩
    · rw [heq]
      have hp : shift = (shift + 1 - pattern.length) + pattern.length - 1 := by omega
      rw [hp] at hends
      refine .inl ⟨_, rfl, .inl ⟨shift + 1 - pattern.length, ?_, by omega, endsAt_iff.mp hends,
        fun p' h1 hlt hoccurs => ?_⟩⟩
      · congr 1
        omega
      · exact hnone (p' + pattern.length - 1) (by omega) (by omega) (endsAt_iff.mpr hoccurs)
    · obtain ⟨shift', hnext, hmore, hle, hskip⟩ := nextShift_spec htables hdiffers hlow hhigh hsmall
      rw [heq]
      dsimp only
      rw [hnext]
      refine .inr ⟨shift', rfl, ⟨by omega, fun e h h' => ?_⟩, by omega⟩
      by_cases hes : e < shift
      · exact hnone e h hes
      · exact hskip e (by omega) h'
  · rw [if_neg hhigh]
    refine .inl ⟨_, rfl, .inr ⟨⟨shift, rfl⟩, fun p h1 hoccurs => ?_⟩⟩
    have hle := hoccurs.le_length hne
    exact hnone (p + pattern.length - 1) (by omega) (by omega) (endsAt_iff.mpr hoccurs)

/-- `get_linear_data` -/
def getLinearData (data : List UInt8) (consumed : Nat) : List UInt8 := data.drop consumed

theorem bmFind_spec (hne : pattern ≠ []) (htables : Tables pattern bm)
    (hsmall : text.length + pattern.length ≤ 2 ^ 31) :
    ∃ ret, bmFind bm (getLinearData text) 0 = some ret ∧
      (FirstFrom pattern text 1 ret ∨ ret = uintMax ∧ ∀ p, 1 ≤ p → ¬ OccursAt pattern text p) := by
  unfold bmFind
  rw [htables.pattern_eq]
  -- there are two rounds at most: the block, and the end of the text
  refine loop_of_measure (fun x => x = (0, pattern.length) ∨
      x.1 = text.length ∧ ∀ p, 1 ≤ p → ¬ OccursAt pattern text p)
    (fun x => text.length - x.1) ?_ (.inl rfl)
  rintro ⟨consumed, shift⟩ (heq | ⟨hend, hnone⟩)
  · obtain ⟨rfl, rfl⟩ := Prod.mk.inj heq
    dsimp only [getLinearData]
    rw [drop_zero]
    by_cases hempty : text.length = 0
    · rw [if_pos hempty]
      refine .inl ⟨_, rfl, .inr ⟨rfl, fun p _ hoccurs => ?_⟩⟩
      have := hoccurs.le_length hne
      omega
    rw [if_neg hempty]
    obtain ⟨out, hout, hcases⟩ := scanBlock_spec hne htables hsmall
    rw [hout]
    rcases hcases with ⟨p, rfl, hp⟩ | ⟨⟨shift, rfl⟩, hnone⟩
    · exact .inl ⟨p, rfl, .inl hp⟩
    · refine .inr ⟨_, rfl, .inr ⟨?_, hnone⟩, ?_⟩
      · omega
      · omega
  · subst hend
    dsimp only [getLinearData]
    rw [drop_length]
    exact .inl ⟨_, rfl, .inr ⟨rfl, hnone⟩⟩

/-- The result is the first occurrence, or `UINT_MAX` if there is none. -/
def FoundExactly (pattern text : List UInt8) (ret : Nat) : Prop :=
  FirstFrom pattern text 0 ret ∨ ret = uintMax ∧ ∀ p, ¬ OccursAt pattern text p

theorem foundExactly_iff {ret : Nat}
    (hret : FirstFrom pattern text 1 ret ∨ ret = uintMax ∧ ∀ p, 1 ≤ p → ¬ OccursAt pattern text p) :
    FoundExactly pattern text ret ↔ ¬ pattern <+: text := by
  have hzero : OccursAt pattern text 0 ↔ pattern <+: text := by
    unfold OccursAt
    rw [drop_zero]
  constructor
  · intro hfound hprefix
    have hoccurs := hzero.mpr hprefix
    -- the first occurrence is at 0, and that is not returned
    rcases hfound with hfirst | ⟨-, hnone⟩
    · have hret0 : ret = 0 := by
        by_contra h
        exact hfirst.first 0 (Nat.zero_le _) (by omega) hoccurs
      rcases hret with h1 | ⟨h1, -⟩
      · have := h1.le
        omega
      · unfold uintMax at h1
        omega
    · exact hnone 0 hoccurs
  · intro hprefix
    rw [← hzero] at hprefix
    rcases hret with h1 | ⟨rfl, hnone⟩
    · refine .inl ⟨Nat.zero_le _, h1.occurs, fun p' _ hlt hoccurs => ?_⟩
      by_cases hp' : p' = 0
      · exact hprefix (hp' ▸ hoccurs)
      · exact h1.first p' (by omega) hlt hoccurs
    · refine .inr ⟨rfl, fun p hoccurs => ?_⟩
      by_cases hp : p = 0
      · exact hprefix (hp ▸ hoccurs)
      · exact hnone p (by omega) hoccurs

/-- In a text of one block the search returns, and it is exact unless the text begins with
the pattern; it agrees with `kmp_find` in the same cases. -/
theorem bm_find_exact_iff (hne : pattern ≠ []) (hsmall : text.length + pattern.length ≤ 2 ^ 31) :
    ∃ bm ret kmp out, bmInit pattern = some bm ∧ bmFind bm (getLinearData text) 0 = some ret ∧
      TsKmp.kmpInit pattern = some kmp ∧ TsKmp.kmpFind kmp (getLinearData text) 0 = some out ∧
      (FoundExactly pattern text ret ↔ ¬ pattern <+: text) ∧ (ret = out.1 ↔ ¬ pattern <+: text) := by
  obtain ⟨bm, hinit, htables⟩ := bmInit_spec hne
  obtain ⟨ret, hfind, hret⟩ := bmFind_spec hne htables hsmall
  obtain ⟨kmp, hkinit, hkmp, htable⟩ := TsKmp.kmpInit_spec hne
  have hdelivers : TsKmp.Delivers text (getLinearData text) := by
    refine fun consumed => ⟨prefix_rfl, fun hlt hnil => ?_⟩
    have hl := congrArg length hnil
    rw [getLinearData, length_drop, length_nil] at hl
    omega
  have hlen : text.length < uintMax := by
    unfold uintMax
    omega
  obtain ⟨out, hkfind, hfound⟩ := TsKmp.kmpFind_spec hne hkmp htable hdelivers hlen 0
  have hiff := foundExactly_iff hret
  refine ⟨bm, ret, kmp, out, hinit, hfind, hkinit, hkfind, hiff, ?_⟩
  rw [← hiff]
  have hk : FoundExactly pattern text out.1 := by
    rcases hfound with ⟨p, hfirst, rfl⟩ | ⟨hnone, rfl⟩
    · exact .inl hfirst
    · exact .inr ⟨rfl, fun p => hnone p (Nat.zero_le _)⟩
  constructor
  · rintro rfl
    exact hk
  · -- there is only one exact result
    intro h
    rcases h with hr | ⟨hr, hnoner⟩
    · rcases hk with hk | ⟨-, hnonek⟩
      · by_contra hne'
        rcases Nat.lt_or_gt_of_ne hne' with hlt | hlt
        · exact hk.first ret (Nat.zero_le _) hlt hr.occurs
        · exact hr.first out.1 (Nat.zero_le _) hlt hk.occurs
      · exact absurd hr.occurs (hnonek ret)
    · rcases hk with hk | ⟨hk, -⟩
      · exact absurd hk.occurs (hnoner out.1)
      · rw [hr, hk]

/-- "b" is found in "ab". -/
theorem bm_find_exact_iff_b :
    ∃ bm ret kmp out, bmInit [98] = some bm ∧ bmFind bm (getLinearData [97, 98]) 0 = some ret ∧
      TsKmp.kmpInit [98] = some kmp ∧ TsKmp.kmpFind kmp (getLinearData [97, 98]) 0 = some out ∧
      (FoundExactly [98] [97, 98] ret ↔ ¬ [98] <+: ([97, 98] : List UInt8)) ∧
      (ret = out.1 ↔ ¬ [98] <+: ([97, 98] : List UInt8)) :=
  bm_find_exact_iff (by decide) (by decide)

/-- "a" is not found in "a": the first comparison is at `shift` 1, behind the text. -/
theorem bm_find_misses_first : ∃ bm, bmInit [97] = some bm ∧
    bmFind bm (getLinearData [97]) 0 = some uintMax ∧ OccursAt [97] ([97] : List UInt8) 0 ∧
    ¬ FoundExactly [97] [97] uintMax := by
  have hne : ([97] : List UInt8) ≠ [] := by decide
  have hzero : OccursAt [97] ([97] : List UInt8) 0 := by
    unfold OccursAt
    decide
  have hlater (p) (hp : 1 ≤ p) : ¬ OccursAt [97] ([97] : List UInt8) p := by
    intro hoccurs
    have hle := hoccurs.le_length hne
    omega
  obtain ⟨bm, hinit, htables⟩ := bmInit_spec hne
  obtain ⟨ret, hfind, hret⟩ := @bmFind_spec [97] [97] bm hne htables (by decide)
  have hmax : ret = uintMax := by
    rcases hret with hfirst | ⟨hmax, -⟩
    · exact absurd hfirst.occurs (hlater ret hfirst.le)
    · exact hmax
  refine ⟨bm, hinit, by rw [hfind, hmax], hzero, ?_⟩
  rintro (hfirst | ⟨-, hnone⟩)
  · exact hlater uintMax (by decide) hfirst.occurs
  · exact hnone 0 hzero

end

end LinuxKernel.Lib.TsBm
