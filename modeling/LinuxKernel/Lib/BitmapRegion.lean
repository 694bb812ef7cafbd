/-
  Aligned regions of a bitmap.

  Source: lib/bitmap.c (`__reg_op`, `bitmap_find_free_region`, `bitmap_release_region`).

  A bitmap is an array of longs of `w` bits, `w` a power of two.  An `int` that would
  overflow is `none`.
-/
import LinuxKernel.Foundation.Bitmap
import LinuxKernel.Foundation.Loop

namespace LinuxKernel.Lib.BitmapRegion

open Foundation

variable {pos : Nat}

/-! ## The code -/

section

variable {w : Nat}

inductive RegOp where
  | isfree
  | alloc
  | release

/-- `BITS_TO_LONGS` -/
def bitsToLongs (w bits : Nat) : Nat := (bits + w - 1) / w

/-- `mask` -/
def regMask (w nbitsinlong offset : Nat) : BitVec w :=
  let mask := 1#w <<< (nbitsinlong - 1)
  (mask + (mask - 1#w)) <<< offset

/-- The loop of `REG_OP_ISFREE` -/
def regIsFree (bitmap : Nat → BitVec w) (mask : BitVec w) : (n index : Nat) → Bool
  | 0, _ => true
  | n + 1, index => if bitmap index &&& mask ≠ 0#w then false else regIsFree bitmap mask n (index + 1)

/-- The loops of the other two operations, which change one word after the other -/
def regUpdate (f : BitVec w → BitVec w) : (n index : Nat) → (Nat → BitVec w) → Nat → BitVec w
  | 0, _, bitmap => bitmap
  | n + 1, index, bitmap =>
    regUpdate f n (index + 1) (Function.update bitmap index (f (bitmap index)))

/-- `__reg_op` -/
def regOp (bitmap : Nat → BitVec w) (pos order : Nat) (op : RegOp) : Bool × (Nat → BitVec w) :=
  let nbitsReg := 2 ^ order
  let index := pos / w
  let offset := pos - index * w
  let nlongsReg := bitsToLongs w nbitsReg
  let nbitsinlong := min nbitsReg w
  let mask := regMask w nbitsinlong offset
  match op with
  | .isfree => (regIsFree bitmap mask nlongsReg index, bitmap)
  | .alloc => (false, regUpdate (· ||| mask) nlongsReg index bitmap)
  | .release => (false, regUpdate (· &&& ~~~mask) nlongsReg index bitmap)

/-- The loop of `bitmap_find_free_region` -/
def findPos (bitmap : Nat → BitVec w) (bits order : Nat) : Option Nat :=
  loop (fun pos =>
    if pos < bits then
      if (regOp bitmap pos order .isfree).1 then some (.inl pos)
      else if pos + 2 ^ order < 2 ^ 31 then some (.inr (pos + 2 ^ order))
      else none
    else some (.inl pos)) 0

def enomem : Int := 12

/-- `bitmap_find_free_region` -/
def bitmapFindFreeRegion (bitmap : Nat → BitVec w) (bits order : Nat) :
    Option (Int × (Nat → BitVec w)) :=
  match findPos bitmap bits order with
  | none => none
  | some pos =>
    if pos = bits then some (-enomem, bitmap)
    else some (pos, (regOp bitmap pos order .alloc).2)

/-- `bitmap_release_region` -/
def bitmapReleaseRegion (bitmap : Nat → BitVec w) (pos order : Nat) : Nat → BitVec w :=
  (regOp bitmap pos order .release).2

end

/-! ## The mask and the words of a region -/

section

variable {w : Nat}

/-- The mask has `n` bits from `offset` on. -/
theorem getLsbD_regMask {n offset : Nat} (hn : 0 < n) (hfits : offset + n ≤ w) (i : Nat) :
    (regMask w n offset).getLsbD i = decide (offset ≤ i ∧ i < offset + n) := by
  have hpow : 2 ^ (n - 1) + (2 ^ (n - 1) - 1) = 2 ^ n - 1 := by
    obtain ⟨m, rfl⟩ : ∃ m, n = m + 1 := ⟨n - 1, by omega⟩
    rw [Nat.add_sub_cancel, Nat.pow_succ]
    omega
  have hones : (1#w <<< (n - 1)) + ((1#w <<< (n - 1)) - 1#w) = BitVec.ofNat w (2 ^ n - 1) := by
    rw [one_shiftLeft (by omega), BitVec.ofNat_sub_ofNat_of_le _ _ (Nat.one_lt_two_pow (by omega))
      (Nat.two_pow_pos _), ← BitVec.ofNat_add, hpow]
  show (((1#w <<< (n - 1)) + ((1#w <<< (n - 1)) - 1#w)) <<< offset).getLsbD i = _
  rw [hones, BitVec.getLsbD_shiftLeft, BitVec.getLsbD_ofNat, Nat.testBit_two_pow_sub_one,
    Bool.eq_iff_iff]
  simp only [Bool.and_eq_true, decide_eq_true_eq, Bool.not_eq_true', decide_eq_false_iff_not]
  omega

theorem regUpdate_apply (f : BitVec w → BitVec w) : ∀ (n index : Nat) (bitmap : Nat → BitVec w)
    (j : Nat), regUpdate f n index bitmap j =
      if index ≤ j ∧ j < index + n then f (bitmap j) else bitmap j := by
  intro n
  induction n with
  | zero =>
    intro index bitmap j
    rw [regUpdate, if_neg (by omega)]
  | succ n ih =>
    intro index bitmap j
    rw [regUpdate, ih, Function.update_apply]
    by_cases hj : j = index
    · subst hj
      rw [if_neg (by omega), if_pos rfl, if_pos (by omega)]
    · rw [if_neg hj]
      exact if_congr (by omega) rfl rfl

theorem regIsFree_iff (bitmap : Nat → BitVec w) (mask : BitVec w) (n index : Nat) :
    regIsFree bitmap mask n index = true ↔
      ∀ j, index ≤ j → j < index + n → bitmap j &&& mask = 0#w := by
  induction n generalizing index with
  | zero => exact iff_of_true rfl fun j hj hlt => absurd hlt (Nat.not_lt.mpr hj)
  | succ n ih =>
    rw [regIsFree]
    split
    · rename_i hne
      refine iff_of_false Bool.false_ne_true fun hall => hne (hall index le_rfl (by omega))
    rename_i heq
    rw [not_not] at heq
    rw [ih]
    constructor
    · intro hall j hj hlt
      rcases Nat.eq_or_lt_of_le hj with rfl | hj
      · exact heq
      · exact hall j hj (by omega)
    · intro hall j hj hlt
      exact hall j (by omega) (by omega)

/-- A region lies in one word, or fills its words. -/
theorem region_words {k order : Nat} (hw : w = 2 ^ k) (hdvd : 2 ^ order ∣ pos) :
    0 < w ∧ 0 < min (2 ^ order) w ∧ pos - pos / w * w + min (2 ^ order) w ≤ w ∧
    ∀ j, (pos / w ≤ j / w ∧ j / w < pos / w + bitsToLongs w (2 ^ order) ∧
        pos - pos / w * w ≤ j % w ∧ j % w < pos - pos / w * w + min (2 ^ order) w) ↔
      pos ≤ j ∧ j < pos + 2 ^ order := by
  have hpos : 0 < w := by
    rw [hw]
    exact Nat.two_pow_pos k
  refine ⟨hpos, lt_min (Nat.two_pow_pos order) hpos, ?_⟩
  have hsplit := Nat.div_add_mod' pos w
  have hoff : pos - pos / w * w = pos % w := by omega
  rw [hoff]
  rcases Nat.le_total order k with hle | hle
  · have hdvdw : 2 ^ order ∣ w := by
      rw [hw]
      exact Nat.pow_dvd_pow 2 hle
    have hsmall := Nat.le_of_dvd hpos hdvdw
    have hone : bitsToLongs w (2 ^ order) = 1 := by
      unfold bitsToLongs
      rw [Nat.div_eq_of_lt_le] <;> omega
    have hroom : pos % w + 2 ^ order ≤ w := by
      have hmod := Nat.mod_lt pos hpos
      have hgap : 2 ^ order ∣ w - pos % w := Nat.dvd_sub hdvdw ((Nat.dvd_mod_iff hdvdw).mpr hdvd)
      have hgap' := Nat.le_of_dvd (by omega) hgap
      omega
    rw [Nat.min_eq_left hsmall]
    refine ⟨hroom, fun j => ?_⟩
    have hj := Nat.div_add_mod' j w
    constructor
    · rintro ⟨h1, h2, h3, h4⟩
      have heq : j / w = pos / w := by omega
      rw [heq] at hj
      omega
    · rintro ⟨h1, h2⟩
      have heq : j / w = pos / w := by
        rw [Nat.div_eq_iff hpos]
        omega
      rw [heq] at hj ⊢
      omega
  · have hdvdw : w ∣ 2 ^ order := by
      rw [hw]
      exact Nat.pow_dvd_pow 2 hle
    obtain ⟨q, hq⟩ := hdvdw
    obtain ⟨p, hp⟩ := Nat.dvd_trans ⟨q, hq⟩ hdvd
    have hzero : pos % w = 0 := by rw [hp, Nat.mul_mod_right]
    have hlongs : bitsToLongs w (2 ^ order) = q := by
      unfold bitsToLongs
      rw [hq, Nat.add_sub_assoc hpos, Nat.mul_add_div hpos, Nat.div_eq_of_lt (by omega), Nat.add_zero]
    have hindex : pos / w = p := by rw [hp, Nat.mul_div_cancel_left p hpos]
    have hwide : w ≤ 2 ^ order := by
      rw [hw]
      exact Nat.pow_le_pow_right (by decide) hle
    rw [hlongs, hindex]
    refine ⟨by omega, fun j => ?_⟩
    have hjmod := Nat.mod_lt j hpos
    rw [Nat.le_div_iff_mul_le hpos, Nat.div_lt_iff_lt_mul hpos, Nat.add_mul, Nat.mul_comm p w,
      Nat.mul_comm q w]
    omega

end

/-! ## The operations on a region -/

section

variable {w k order : Nat} {bitmap : Nat → BitVec w}

theorem and_eq_zero_iff (x mask : BitVec w) :
    x &&& mask = 0#w ↔ ∀ i < w, mask.getLsbD i = true → x.getLsbD i = false := by
  constructor
  · intro heq i _ hmask
    have hbit : (x &&& mask).getLsbD i = false := by rw [heq, BitVec.getLsbD_zero]
    rw [BitVec.getLsbD_and, hmask, Bool.and_true] at hbit
    exact hbit
  · intro hall
    refine BitVec.eq_of_getLsbD_eq fun i hi => ?_
    rw [BitVec.getLsbD_and, BitVec.getLsbD_zero]
    cases hmask : mask.getLsbD i with
    | false => exact Bool.and_false _
    | true => rw [hall i hi hmask, Bool.false_and]

section

variable (hw : w = 2 ^ k) (hdvd : 2 ^ order ∣ pos)
include hw hdvd

/-- `REG_OP_ISFREE` looks at the bits of the region. -/
theorem regOp_isfree_iff :
    (regOp bitmap pos order .isfree).1 = true ↔ Clear (bitsOf bitmap) pos (2 ^ order) := by
  obtain ⟨hpos, hmin, hfits, hregion⟩ := region_words hw hdvd
  unfold regOp
  rw [regIsFree_iff]
  constructor
  · intro hall i hlo hhi
    obtain ⟨h1, h2, h3⟩ := (hregion i).mpr ⟨hlo, hhi⟩
    have hword := (and_eq_zero_iff _ _).mp (hall (i / w) h1 h2) (i % w) (Nat.mod_lt i hpos)
    exact hword (by rw [getLsbD_regMask hmin hfits, decide_eq_true h3])
  · intro hclear j h1 h2
    rw [and_eq_zero_iff]
    intro i hi hmask
    rw [getLsbD_regMask hmin hfits, decide_eq_true_iff] at hmask
    have hdiv : (j * w + i) / w = j := by
      rw [Nat.mul_comm, Nat.mul_add_div hpos, Nat.div_eq_of_lt hi, Nat.add_zero]
    have hmod : (j * w + i) % w = i := by rw [Nat.mul_comm, Nat.mul_add_mod, Nat.mod_eq_of_lt hi]
    have hin := (hregion (j * w + i)).mp (by rw [hdiv, hmod]; exact ⟨h1, h2, hmask⟩)
    rw [← bitsOf_word bitmap j hi]
    exact hclear _ hin.1 hin.2

/-- An operation that writes the masked bits of every word writes the region. -/
theorem bitsOf_regUpdate {f : BitVec w → BitVec w} {value : Bool}
    (hf : ∀ x i, i < w →
      (f x).getLsbD i = if (regMask w (min (2 ^ order) w)
      (pos - pos / w * w)).getLsbD i = true then value else x.getLsbD i)
    (i : Nat) : bitsOf (regUpdate f (bitsToLongs w (2 ^ order)) (pos / w) bitmap) i =
      if pos ≤ i ∧ i < pos + 2 ^ order then value else bitsOf bitmap i := by
  obtain ⟨hpos, hmin, hfits, hregion⟩ := region_words hw hdvd
  unfold bitsOf
  rw [regUpdate_apply, ← if_congr (hregion i) rfl rfl]
  by_cases hword : pos / w ≤ i / w ∧ i / w < pos / w + bitsToLongs w (2 ^ order)
  · rw [if_pos hword, hf _ _ (Nat.mod_lt i hpos), getLsbD_regMask hmin hfits]
    refine if_congr ?_ rfl rfl
    rw [decide_eq_true_iff]
    exact ⟨fun h => ⟨hword.1, hword.2, h⟩, fun h => h.2.2⟩
  · rw [if_neg hword, if_neg fun h => hword ⟨h.1, h.2.1⟩]

theorem bitsOf_alloc (i : Nat) : bitsOf (regOp bitmap pos order .alloc).2 i =
      if pos ≤ i ∧ i < pos + 2 ^ order then true else bitsOf bitmap i := by
  refine bitsOf_regUpdate hw hdvd (fun x i hi => ?_) i
  rw [BitVec.getLsbD_or]
  cases (regMask w (min (2 ^ order) w) (pos - pos / w * w)).getLsbD i <;> simp

theorem bitsOf_release (i : Nat) : bitsOf (bitmapReleaseRegion bitmap pos order) i =
      if pos ≤ i ∧ i < pos + 2 ^ order then false else bitsOf bitmap i := by
  refine bitsOf_regUpdate hw hdvd (fun x i hi => ?_) i
  rw [BitVec.getLsbD_and, BitVec.getLsbD_not, decide_eq_true hi]
  cases (regMask w (min (2 ^ order) w) (pos - pos / w * w)).getLsbD i <;> simp

/-- To release a region that was free gives the bitmap back. -/
theorem release_alloc (hclear : Clear (bitsOf bitmap) pos (2 ^ order)) :
    bitmapReleaseRegion (regOp bitmap pos order .alloc).2 pos order = bitmap := by
  apply bitsOf_injective
  funext i
  rw [bitsOf_release hw hdvd, bitsOf_alloc hw hdvd]
  split
  · rename_i hi
    exact (hclear i hi.1 hi.2).symm
  · rfl

end

end

/-! ## The search -/

section

variable {w k bits order : Nat} {bitmap : Nat → BitVec w}

/-- An aligned region of clear bits below `bits`. -/
structure FreeRegion (bitmap : Nat → BitVec w) (bits order pos : Nat) : Prop where
  aligned : 2 ^ order ∣ pos
  inside : pos + 2 ^ order ≤ bits
  clear : Clear (bitsOf bitmap) pos (2 ^ order)

/-- What is asked of `bitmap_find_free_region` and `bitmap_release_region`.  That no bit
from `bits` on is read is said by the other bitmaps with the same bits below. -/
def FindsRegion (bitmap : Nat → BitVec w) (bits order : Nat) : Prop :=
  ∃ ret bitmap', bitmapFindFreeRegion bitmap bits order = some (ret, bitmap') ∧
    ((∃ pos : Nat, ret = pos ∧ FreeRegion bitmap bits order pos ∧
        (∀ p < pos, ¬ FreeRegion bitmap bits order p) ∧
        (∀ i, bitsOf bitmap' i = if pos ≤ i ∧ i < pos + 2 ^ order then true else bitsOf bitmap i) ∧
        bitmapReleaseRegion bitmap' pos order = bitmap) ∨
      (ret = -enomem ∧ bitmap' = bitmap ∧ ∀ p, ¬ FreeRegion bitmap bits order p)) ∧
    (∀ i, bits ≤ i → bitsOf bitmap' i = bitsOf bitmap i) ∧
    ∀ other : Nat → BitVec w, (∀ i < bits, bitsOf other i = bitsOf bitmap i) →
      (bitmapFindFreeRegion other bits order).map Prod.fst = some ret

/-- Aligned positions are a region apart. -/
theorem add_le_of_dvd {a b d : Nat} (ha : d ∣ a) (hb : d ∣ b) (h : a < b) : a + d ≤ b := by
  have hle := Nat.le_of_dvd (by omega) (Nat.dvd_sub hb ha)
  omega

/-- Where the search ends: at the first free region, or at the end. -/
def Ends (bitmap : Nat → BitVec w) (bits order pos : Nat) : Prop :=
  (∀ p < pos, ¬ FreeRegion bitmap bits order p) ∧
    (FreeRegion bitmap bits order pos ∨ pos = bits)

theorem findPos_spec (bitmap : Nat → BitVec w) (hw : w = 2 ^ k) (hint : bits < 2 ^ 31)
    (hcond : 2 ^ order ∣ bits ∨ ∃ p, FreeRegion bitmap bits order p) :
    ∃ pos, findPos bitmap bits order = some pos ∧ Ends bitmap bits order pos := by
  refine loop_of_measure
    (fun pos => 2 ^ order ∣ pos ∧ pos ≤ bits ∧ ∀ p < pos, ¬ FreeRegion bitmap bits order p)
    (fun pos => bits - pos) ?_ ⟨Nat.dvd_zero _, Nat.zero_le _, fun p hp => absurd hp (Nat.not_lt_zero p)⟩
  rintro pos ⟨hdvd, hle, hnone⟩
  by_cases hlt : pos < bits
  case neg =>
    obtain rfl : pos = bits := by omega
    exact .inl ⟨pos, by rw [if_neg hlt], hnone, .inr rfl⟩
  -- either way the next region ends in the bitmap
  have hroom : pos + 2 ^ order ≤ bits := by
    rcases hcond with hall | ⟨p, hp⟩
    · exact add_le_of_dvd hdvd hall hlt
    · have hge : pos ≤ p := Nat.le_of_not_lt fun hless => hnone p hless hp
      have hin := hp.inside
      omega
  rw [if_pos hlt]
  by_cases hfree : (regOp bitmap pos order .isfree).1 = true
  · exact .inl ⟨pos, by rw [if_pos hfree], hnone, .inl ⟨hdvd, hroom, (regOp_isfree_iff hw hdvd).mp hfree⟩⟩
  refine .inr ⟨pos + 2 ^ order, by rw [if_neg hfree, if_pos (by omega)],
    ⟨Nat.dvd_add hdvd (Nat.dvd_refl _), hroom, ?_⟩, by omega⟩
  intro p hp hregion
  rcases Nat.lt_trichotomy p pos with hless | rfl | hmore
  · exact hnone p hless hregion
  · exact hfree ((regOp_isfree_iff hw hdvd).mpr hregion.clear)
  · have hnext := add_le_of_dvd hdvd hregion.aligned hmore
    omega

/-- The search ends at an aligned position. -/
theorem dvd_of_findPos (h : findPos bitmap bits order = some pos) : 2 ^ order ∣ pos := by
  refine loop_partial (fun pos => 2 ^ order ∣ pos) ?_ ?_ (Nat.dvd_zero _) h
  · intro x r hx hbody
    split at hbody
    · split at hbody
      · cases hbody
        exact hx
      · split at hbody <;> cases hbody
    · cases hbody
      exact hx
  · intro x y hx hbody
    split at hbody
    · split at hbody
      · cases hbody
      · split at hbody
        · cases hbody
          exact Nat.dvd_add hx (Nat.dvd_refl _)
        · cases hbody
    · cases hbody

section

variable (h : Ends bitmap bits order pos)
include h

theorem Ends.le : pos ≤ bits := by
  rcases h.2 with hregion | rfl
  · exact Nat.le_of_add_right_le hregion.inside
  · exact le_rfl

theorem Ends.not_lt {pos' : Nat} (h' : Ends bitmap bits order pos') : ¬ pos < pos' := by
  intro hlt
  have hle := h'.le
  rcases h.2 with hregion | rfl
  · exact h'.1 pos hlt hregion
  · omega

/-- There is one place where the search can end. -/
theorem Ends.unique {pos' : Nat} (h' : Ends bitmap bits order pos') : pos = pos' :=
  Nat.le_antisymm (Nat.le_of_not_lt (h'.not_lt h)) (Nat.le_of_not_lt (h.not_lt h'))

end

/-- Free regions are known by the bits below `bits`. -/
theorem FreeRegion.congr {other : Nat → BitVec w}
    (hsame : ∀ i < bits, bitsOf other i = bitsOf bitmap i)
    (h : FreeRegion bitmap bits order pos) : FreeRegion other bits order pos := by
  refine ⟨h.aligned, h.inside, fun i hlo hhi => ?_⟩
  have hin := h.inside
  rw [hsame i (by omega)]
  exact h.clear i hlo hhi

theorem findPos_congr (other : Nat → BitVec w) (hw : w = 2 ^ k) (hint : bits < 2 ^ 31)
    (hsame : ∀ i < bits, bitsOf other i = bitsOf bitmap i)
    (hcond : 2 ^ order ∣ bits ∨ ∃ p, FreeRegion bitmap bits order p)
    (hends : Ends bitmap bits order pos) : findPos other bits order = some pos := by
  have hback (i) (hi : i < bits) : bitsOf bitmap i = bitsOf other i := (hsame i hi).symm
  obtain ⟨pos', hfind, hends'⟩ := findPos_spec other hw hint
    (hcond.imp_right fun ⟨p, hp⟩ => ⟨p, hp.congr hsame⟩)
  have hends2 : Ends bitmap bits order pos' :=
    ⟨fun p hp hregion => hends'.1 p hp (hregion.congr hsame),
      hends'.2.imp_left fun hregion => hregion.congr hback⟩
  rw [hfind, hends2.unique hends]

/-- The search is right if and only if regions fill the bitmap or there is a free one. -/
theorem bitmap_find_free_region_iff (hw : w = 2 ^ k) (hint : bits < 2 ^ 31) :
    FindsRegion bitmap bits order ↔ 2 ^ order ∣ bits ∨ ∃ p, FreeRegion bitmap bits order p := by
  constructor
  · rintro ⟨ret, bitmap', hfind, hret, -⟩
    rcases hret with ⟨pos, -, hregion, -⟩ | ⟨hnomem, -, -⟩
    · exact .inr ⟨pos, hregion⟩
    left
    unfold bitmapFindFreeRegion at hfind
    cases hpos : findPos bitmap bits order with
    | none =>
      rw [hpos] at hfind
      cases hfind
    | some pos =>
      rw [hpos] at hfind
      dsimp only at hfind
      split at hfind
      · rename_i hend
        rw [← hend]
        exact dvd_of_findPos hpos
      · -- a position is not an error
        obtain ⟨hret, -⟩ := Prod.mk.inj (Option.some.inj hfind)
        unfold enomem at hnomem
        omega
  · intro hcond
    obtain ⟨pos, hfind, hends⟩ := findPos_spec bitmap hw hint hcond
    have hcongr := fun other hsame => findPos_congr other hw hint hsame hcond hends
    unfold FindsRegion bitmapFindFreeRegion
    rw [hfind]
    dsimp only
    by_cases hend : pos = bits
    · have hnone (p) : ¬ FreeRegion bitmap bits order p := by
        intro hp
        have hin := hp.inside
        have hreg := Nat.two_pow_pos order
        exact hends.1 p (by omega) hp
      refine ⟨-enomem, bitmap, by rw [if_pos hend], .inr ⟨rfl, rfl, hnone⟩, fun i _ => rfl, ?_⟩
      intro other hsame
      rw [hcongr other hsame]
      dsimp only
      rw [if_pos hend]
      rfl
    · have hregion : FreeRegion bitmap bits order pos := hends.2.resolve_right hend
      refine ⟨pos, _, by rw [if_neg hend], .inl ⟨pos, rfl, hregion, hends.1,
        bitsOf_alloc hw hregion.aligned, release_alloc hw hregion.aligned hregion.clear⟩, ?_, ?_⟩
      · intro i hi
        have hin := hregion.inside
        rw [bitsOf_alloc hw hregion.aligned, if_neg (by omega)]
      · intro other hsame
        rw [hcongr other hsame]
        dsimp only
        rw [if_neg hend]
        rfl

/-- A bitmap of 32-bit longs whose first word is given. -/
def oneWord (x : BitVec 32) : Nat → BitVec 32 := fun j => if j = 0 then x else 0#32

/-- A pair out of three bits. -/
theorem bitmap_find_free_region_iff_pair : FindsRegion (oneWord 0#32) 3 1 :=
  (bitmap_find_free_region_iff (k := 5) rfl (by decide)).mpr
    (.inr ⟨0, by decide, by decide, fun i _ hi => by
      have hcases : i = 0 ∨ i = 1 := by omega
      rcases hcases with rfl | rfl <;> rfl⟩)

/-- Of three bits the first two are set: the search returns the third with the bit after
the bitmap, and sets both. -/
theorem bitmap_find_free_region_strays : ¬ FindsRegion (oneWord 3#32) 3 1 ∧
    (bitmapFindFreeRegion (oneWord 3#32) 3 1).map (fun r => (r.1, bitsOf r.2 3)) = some (2, true) := by
  have hfind : findPos (oneWord 3#32) 3 1 = some 2 := loop_of_rounds 2 rfl
  have hresult : (bitmapFindFreeRegion (oneWord 3#32) 3 1).map (fun r => (r.1, bitsOf r.2 3)) =
      some (2, true) := by
    unfold bitmapFindFreeRegion
    rw [hfind]
    rfl
  refine ⟨?_, hresult⟩
  rintro ⟨ret, bitmap', hret, -, hbeyond, -⟩
  rw [hret] at hresult
  obtain ⟨-, hset⟩ := Prod.mk.inj (Option.some.inj hresult)
  rw [hbeyond 3 le_rfl] at hset
  cases hset

end

end LinuxKernel.Lib.BitmapRegion
