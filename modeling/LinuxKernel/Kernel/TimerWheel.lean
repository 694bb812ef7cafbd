/-
  Where a timer is on the wheel, in terms of the round it
  is due in.

  Rounds are numbered without wraparound.  A timer due in round `d` is on the wheel
  at time `n` in one of two ways: on `tv1`, with fewer than `TVR_SIZE` rounds to
  go, in the slot of its low bits; or on an upper vector, in the slot of the bits
  at that vector's shift, where the rounded down time `d / 2^shift * 2^shift` is
  not before `n`.  That time is when the code cascades this slot.

  `Fits c level n d` is this condition, with the upper bound sharpened for the
  vectors below `level`: their slot for round `n` has been cascaded already.
-/
import LinuxKernel.Kernel.Timer

namespace LinuxKernel.Kernel.Timer

open Foundation Function Config Queues

/-! ## Arithmetic -/

/-- The bits of a 32-bit value below bit 32 are those of the unbounded value. -/
theorem mod_div_mod {x s : Nat} (h : s + k ≤ 32) :
    x % 2 ^ 32 / 2 ^ s % 2 ^ k = x / 2 ^ s % 2 ^ k := by
  have hsplit : 2 ^ 32 = 2 ^ s * 2 ^ (32 - s) := by
    rw [← Nat.pow_add]
    congr 1
    omega
  rw [hsplit, Nat.mod_mul_right_div_self, Nat.mod_mod_of_dvd]
  exact Nat.pow_dvd_pow 2 (by omega)

theorem mod_mod_pow {x : Nat} (h : k ≤ 32) : x % 2 ^ 32 % 2 ^ k = x % 2 ^ k :=
  Nat.mod_mod_of_dvd _ (Nat.pow_dvd_pow 2 h)

/-- The distance that the code computes. -/
theorem distance_eq (h : now ≤ due) (h' : due < now + 2 ^ 31) :
    (due % 2 ^ 32 + 2 ^ 32 - now % 2 ^ 32) % 2 ^ 32 = due - now := by
  omega

/-- The round in which a timer is due that is armed for `expires` before round
`now`: a time that is already past counts as now. -/
def dueRound (now expires : Nat) : Nat :=
  let d := (expires + 2 ^ 32 - now % 2 ^ 32) % 2 ^ 32
  if d < 2 ^ 31 then now + d else now

theorem dueRound_range (now expires : Nat) :
    now ≤ dueRound now expires ∧ dueRound now expires < now + 2 ^ 31 := by
  unfold dueRound
  simp only
  split <;> omega

/-- The later of two times, in the sense of `time_after_eq`. -/
def laterOf (a b : Nat) : Nat := if timeAfterEq a b then a else b

/-- The round in which the timer is due is that of the later of `expires` and the
current time. -/
theorem dueRound_mod (h : expires < 2 ^ 32) :
    dueRound now expires % 2 ^ 32 = laterOf expires (now % 2 ^ 32) := by
  unfold dueRound laterOf timeAfterEq
  simp only [decide_eq_true_eq]
  split
  · omega
  · rfl

/-! ## Slots -/

/-- A timer due in round `due` belongs at `head` when the next round is `now` and
the vectors below `level` are done with their cascading for it. -/
def Fits (c : Config) (level now due : Nat) : Head → Prop
  | .tv1 i => due < now + 2 ^ c.tvrBits ∧ i = due % 2 ^ c.tvrBits
  | .tvn k i => k < 4 ∧ (now < due / 2 ^ c.shift k * 2 ^ c.shift k ∨
      (level ≤ k ∧ now = due / 2 ^ c.shift k * 2 ^ c.shift k)) ∧
      i = due / 2 ^ c.shift k % 2 ^ c.tvnBits
  | .work => False

theorem shift_add_le (c : Config) (h : k < 4) : c.shift k + c.tvnBits ≤ 32 := by
  have hbits := c.long_bits
  have hmul : (k + 1) * c.tvnBits ≤ 4 * c.tvnBits := Nat.mul_le_mul_right _ h
  rw [Nat.succ_mul] at hmul
  simp only [shift]
  omega

theorem shift_succ (c : Config) (k : Nat) : c.shift (k + 1) = c.shift k + c.tvnBits := by
  simp [shift, Nat.succ_mul, Nat.add_assoc]

/-- Rounding down loses less than one unit. -/
theorem lt_roundDown {s : Nat} (h : 2 ^ s ≤ due - now) : now < due / 2 ^ s * 2 ^ s := by
  have hdiv := Nat.div_add_mod due (2 ^ s)
  rw [Nat.mul_comm] at hdiv
  omega

variable {c : Config} {head : Head} {now due level expires k : Nat}

/-- An upper vector gets a timer whose distance is at least the vector's unit. -/
theorem fits_tvn (hk : k < 4) (hdist : 2 ^ c.shift k ≤ due - now) :
    Fits c 4 now due (.tvn k (due % 2 ^ 32 / 2 ^ c.shift k % 2 ^ c.tvnBits)) := by
  refine ⟨hk, Or.inl (lt_roundDown hdist), ?_⟩
  exact mod_div_mod (shift_add_le c hk)

/-- `internal_add_timer` puts a timer where it belongs. -/
theorem chooseVec_fits (c : Config) (h : now ≤ due) (h' : due < now + 2 ^ 31) :
    Fits c 4 now due (chooseVec c (due % 2 ^ 32) (now % 2 ^ 32)) := by
  have hbits := c.int_bits
  have hshift : c.shift 0 = c.tvrBits := by simp [shift]
  unfold chooseVec
  simp only [distance_eq h h']
  split
  · exact ⟨by omega, mod_mod_pow (by omega)⟩
  split
  · exact fits_tvn (by decide) (by rw [hshift]; omega)
  split
  · exact fits_tvn (by decide) (by omega)
  split
  · exact fits_tvn (by decide) (by omega)
  · rw [if_neg (by omega)]
    exact fits_tvn (by decide) (by omega)

/-- A timer whose time is past is put where round `now` finds it. -/
theorem chooseVec_past (c : Config) (h : 2 ^ 31 ≤ (expires + 2 ^ 32 - now % 2 ^ 32) % 2 ^ 32) :
    chooseVec c expires (now % 2 ^ 32) = .tv1 (now % 2 ^ c.tvrBits) := by
  have hbits := c.int_bits
  have hsmall (s) (hs : s ≤ 30) : ¬ (expires + 2 ^ 32 - now % 2 ^ 32) % 2 ^ 32 < 2 ^ s := by
    have hpow : 2 ^ s ≤ 2 ^ 30 := Nat.pow_le_pow_right (by decide) hs
    omega
  have hshift (k) (hk : k ≤ 3) : c.shift k ≤ 30 := by
    have hmul : k * c.tvnBits ≤ 3 * c.tvnBits := Nat.mul_le_mul_right _ hk
    simp only [shift]
    omega
  unfold chooseVec
  rw [if_neg (hsmall _ (by omega)), if_neg (hsmall _ (hshift 1 (by decide))),
    if_neg (hsmall _ (hshift 2 (by decide))), if_neg (hsmall _ (hshift 3 (by decide))), if_pos h,
    mod_mod_pow (by omega)]

/-- A newly armed timer is where it belongs; on an upper vector its `expires` is
the round it is due in. -/
theorem chooseVec_arm (c : Config) (now : Nat) (hexp : expires < 2 ^ 32) :
    Fits c 4 now (dueRound now expires) (chooseVec c expires (now % 2 ^ 32)) ∧
      ∀ k i, chooseVec c expires (now % 2 ^ 32) = .tvn k i →
        expires = dueRound now expires % 2 ^ 32 := by
  by_cases hpast : 2 ^ 31 ≤ (expires + 2 ^ 32 - now % 2 ^ 32) % 2 ^ 32
  · have hdue : dueRound now expires = now := by
      unfold dueRound
      rw [if_neg (by omega)]
    rw [chooseVec_past c hpast, hdue]
    refine ⟨⟨?_, rfl⟩, fun k i h => by simp at h⟩
    have hpos := Nat.two_pow_pos c.tvrBits
    omega
  · have hdue : dueRound now expires = now + (expires + 2 ^ 32 - now % 2 ^ 32) % 2 ^ 32 := by
      unfold dueRound
      rw [if_pos (by omega)]
    have hmod : expires = dueRound now expires % 2 ^ 32 := by omega
    refine ⟨?_, fun _ _ _ => hmod⟩
    have hfits := chooseVec_fits c (dueRound_range now expires).1 (dueRound_range now expires).2
    rwa [← hmod] at hfits

/-- Only for a slot that starts now does the level matter. -/
theorem Fits.of_level {level' : Nat} (h : Fits c level now due head)
    (hlevel : ∀ k, head = .tvn k (due / 2 ^ c.shift k % 2 ^ c.tvnBits) → level ≤ k →
      now = due / 2 ^ c.shift k * 2 ^ c.shift k → level' ≤ k) : Fits c level' now due head := by
  cases head with
  | tv1 i => exact h
  | work => exact h
  | tvn k i =>
    obtain ⟨hk, hstart, rfl⟩ := h
    exact ⟨hk, hstart.imp_right fun hs => ⟨hlevel k rfl hs.1 hs.2, hs.2⟩, rfl⟩

/-- Within one round a slot that is not cascaded any more may be sharpened. -/
theorem Fits.strict (h : Fits c level now due head) (hnow : now % 2 ^ c.shift level ≠ 0) :
    Fits c 4 now due head := by
  refine h.of_level fun k _ hlevel heq => absurd ?_ hnow
  have hdvd : 2 ^ c.shift level ∣ 2 ^ c.shift k := by
    refine Nat.pow_dvd_pow 2 ?_
    simp only [shift]
    have := Nat.mul_le_mul_right c.tvnBits hlevel
    omega
  rw [heq]
  exact Nat.mod_eq_zero_of_dvd (Nat.dvd_trans hdvd (Nat.dvd_mul_left _ _))

/-- A slot of the vector `level` other than the one cascaded in round `now`. -/
theorem Fits.next_level (h : Fits c level now due head)
    (hhead : head ≠ .tvn level (now / 2 ^ c.shift level % 2 ^ c.tvnBits)) :
    Fits c (level + 1) now due head := by
  refine h.of_level fun k hk hlevel heq => Nat.lt_of_le_of_ne hlevel ?_
  rintro rfl
  apply hhead
  rw [hk]
  conv_rhs => rw [heq]
  rw [Nat.mul_div_cancel _ (Nat.two_pow_pos _)]

theorem Fits.mono {level' : Nat} (h : Fits c level' now due head) (hle : level ≤ level') :
    Fits c level now due head := h.of_level fun _ _ hlevel _ => Nat.le_trans hle hlevel

/-- After the cascading, every timer is in place for the next round. -/
theorem Fits.next_round (h : Fits c 4 now due head) : Fits c 0 (now + 1) due head := by
  cases head with
  | tv1 i =>
    obtain ⟨hlt, hi⟩ := h
    exact ⟨by omega, hi⟩
  | work => exact h
  | tvn k i =>
    obtain ⟨hk, hstart, hi⟩ := h
    refine ⟨hk, ?_, hi⟩
    rcases hstart with hlt | ⟨hlevel, -⟩
    · rcases Nat.lt_or_eq_of_le (Nat.succ_le_of_lt hlt) with hlt' | heq
      · exact Or.inl hlt'
      · exact Or.inr ⟨Nat.zero_le _, heq⟩
    · omega

/-- On `tv1` the slot of round `now` holds exactly the timers due now. -/
theorem Fits.due_of_slot (h : Fits c level now due (.tv1 (now % 2 ^ c.tvrBits))) (hle : now ≤ due) :
    due = now := by
  obtain ⟨hlt, hmod⟩ := h
  have h1 := Nat.div_add_mod now (2 ^ c.tvrBits)
  have h2 := Nat.div_add_mod due (2 ^ c.tvrBits)
  have hq : due / 2 ^ c.tvrBits = now / 2 ^ c.tvrBits := by
    have hle' := Nat.div_le_div_right (c := 2 ^ c.tvrBits) hle
    have hlt' : due / 2 ^ c.tvrBits < now / 2 ^ c.tvrBits + 1 := by
      by_contra hge
      have := Nat.mul_le_mul_left (2 ^ c.tvrBits) (Nat.not_lt.mp hge)
      rw [Nat.mul_succ] at this
      omega
    omega
  rw [hq] at h2
  omega

/-- On an upper vector a timer is not due now, once the cascading is done. -/
theorem Fits.now_lt_of_tvn {i : Nat} (h : Fits c 4 now due (.tvn k i)) : now < due := by
  obtain ⟨hk, hstart, -⟩ := h
  have hle := Nat.div_mul_le_self due (2 ^ c.shift k)
  rcases hstart with hlt | ⟨hlevel, -⟩ <;> omega

/-! ## Cascading -/

section

variable {τ : Type} {due : τ → Nat} {b : Base τ}

/-- The timers of the base are where they belong: `due t` is the round in which `t`
is due, `now` the next round, `level` how far the cascading for it has come. -/
structure Placed (c : Config) (level now : Nat) (due : τ → Nat) (b : Base τ) : Prop where
  jiffies : b.timerJiffies = now % 2 ^ 32
  separate : Separate b.vec
  pending : ∀ t, b.pending t = true ↔ ∃ head, t ∈ b.vec head
  fits : ∀ head t, t ∈ b.vec head → head ≠ .work → Fits c level now (due t) head
  range : ∀ head t, t ∈ b.vec head → head ≠ .work → now ≤ due t ∧ due t < now + 2 ^ 31
  expires : ∀ k i t, t ∈ b.vec (.tvn k i) → b.expires t = due t % 2 ^ 32

/-- What the cascading leaves alone. -/
structure Cascaded (b b' : Base τ) : Prop where
  jiffies : b'.timerJiffies = b.timerJiffies
  work : ∀ t, t ∈ b'.vec .work ↔ t ∈ b.vec .work
  pending : ∀ t, b'.pending t = b.pending t

theorem Cascaded.trans {b b' b'' : Base τ} (h : Cascaded b b') (h' : Cascaded b' b'') :
    Cascaded b b'' :=
  ⟨h'.jiffies.trans h.jiffies, fun t => (h'.work t).trans (h.work t),
    fun t => (h'.pending t).trans (h.pending t)⟩

theorem Placed.index_eq (h : Placed c level now due b) (hk : k < 4) :
    index c b k = now / 2 ^ c.shift k % 2 ^ c.tvnBits := by
  rw [index, h.jiffies, mod_div_mod (shift_add_le c hk)]

theorem Placed.strict (h : Placed c level now due b) (hnow : now % 2 ^ c.shift level ≠ 0) :
    Placed c 4 now due b :=
  { h with fits := fun head t ht hwork => (h.fits head t ht hwork).strict hnow }

variable [DecidableEq τ]

/-- Adding timers one after the other: each gets to the vector chosen for it. -/
theorem foldl_internalAddTimer (c : Config) (rest : List τ) {b : Base τ} (hsep : Separate b.vec)
    (hnodup : rest.Nodup) (hnew : ∀ t ∈ rest, ∀ head, t ∉ b.vec head) :
    Separate (rest.foldl (internalAddTimer c) b).vec ∧
      (rest.foldl (internalAddTimer c) b).timerJiffies = b.timerJiffies ∧
      (rest.foldl (internalAddTimer c) b).expires = b.expires ∧
      (∀ t, (rest.foldl (internalAddTimer c) b).pending t = true ↔ b.pending t = true ∨ t ∈ rest) ∧
      ∀ head t, t ∈ (rest.foldl (internalAddTimer c) b).vec head ↔
        t ∈ b.vec head ∨ (t ∈ rest ∧ head = chooseVec c (b.expires t) b.timerJiffies) := by
  induction rest generalizing b with
  | nil => exact ⟨hsep, rfl, rfl, by simp, by simp⟩
  | cons u rest ih =>
    obtain ⟨hu, hnodup'⟩ := List.nodup_cons.mp hnodup
    have hsep' : Separate (internalAddTimer c b u).vec := hsep.addTail (hnew u (by simp)) _
    have hnew' (t) (ht : t ∈ rest) (head) : t ∉ (internalAddTimer c b u).vec head := by
      intro hmem
      rcases mem_addTail.mp hmem with hmem | ⟨-, rfl⟩
      · exact hnew t (by simp [ht]) head hmem
      · exact hu ht
    obtain ⟨h1, h2, h3, h4, h5⟩ := ih hsep' hnodup' hnew'
    refine ⟨h1, h2, h3, fun t => ?_, fun head t => ?_⟩
    · rw [List.foldl_cons, h4]
      by_cases htu : t = u <;> simp [internalAddTimer, htu]
    · rw [List.foldl_cons, h5, List.mem_cons]
      have hadd : t ∈ (internalAddTimer c b u).vec head ↔
          t ∈ b.vec head ∨ (head = chooseVec c (b.expires u) b.timerJiffies ∧ t = u) :=
        mem_addTail
      rw [hadd]
      constructor
      · rintro ((h | ⟨rfl, rfl⟩) | ⟨h, rfl⟩)
        · exact Or.inl h
        · exact Or.inr ⟨Or.inl rfl, rfl⟩
        · exact Or.inr ⟨Or.inr h, rfl⟩
      · rintro (h | ⟨rfl | h, rfl⟩)
        · exact Or.inl (Or.inl h)
        · exact Or.inl (Or.inr ⟨rfl, rfl⟩)
        · exact Or.inr ⟨h, rfl⟩

/-- Cascading a slot: a timer is where it was, or it was in the slot and is now where it
is added again. -/
theorem Placed.cascade_vec (h : Placed c level now due b) (k i : Nat) :
    Separate (cascade c b k i).vec ∧ (cascade c b k i).timerJiffies = b.timerJiffies ∧
      (cascade c b k i).expires = b.expires ∧
      (∀ t, (cascade c b k i).pending t = true ↔ b.pending t = true ∨ t ∈ b.vec (.tvn k i)) ∧
      ∀ head t, t ∈ (cascade c b k i).vec head ↔ (t ∈ b.vec head ∧ head ≠ .tvn k i) ∨
        (t ∈ b.vec (.tvn k i) ∧ head = chooseVec c (b.expires t) b.timerJiffies) := by
  -- the list head that is emptied, and the state in which its timers are added again
  have hclear : Separate (clear b.vec (.tvn k i)) := h.separate.clear _
  have hnew (t) (ht : t ∈ b.vec (.tvn k i)) (head) : t ∉ clear b.vec (.tvn k i) head := by
    intro hmem
    obtain ⟨hmem, hne⟩ := mem_clear.mp hmem
    exact hne (h.separate.unique hmem ht)
  obtain ⟨hsep, hjiffies, hexp, hpend, hmem⟩ := foldl_internalAddTimer c (b.vec (.tvn k i))
      (b := { b with vec := clear b.vec (.tvn k i) }) hclear (h.separate.nodup _) hnew
  refine ⟨hsep, hjiffies, hexp, hpend, fun head t => ?_⟩
  rw [← mem_clear]
  exact hmem head t

/-- Cascading the slot of one vector. -/
theorem Placed.cascade (h : Placed c level now due b) (hlevel : level < 4) :
    Placed c (level + 1) now due (cascade c b level (index c b level)) ∧
      Cascaded b (cascade c b level (index c b level)) := by
  have hindex := h.index_eq hlevel
  generalize index c b level = i at hindex
  obtain ⟨hsep, hjiffies, hexp, hpend', hcases⟩ := h.cascade_vec level i
  have hmoved (t) (ht : t ∈ b.vec (.tvn level i)) :
      Fits c 4 now (due t) (chooseVec c (b.expires t) b.timerJiffies) := by
    obtain ⟨hle, hlt⟩ := h.range _ t ht (by simp)
    rw [h.expires level i t ht, h.jiffies]
    exact chooseVec_fits c hle hlt
  have hsame (t) : (∃ head, t ∈ (Timer.cascade c b level i).vec head) ↔ ∃ head, t ∈ b.vec head := by
    constructor
    · rintro ⟨head, ht⟩
      rcases (hcases head t).mp ht with ⟨ht, -⟩ | ⟨ht, -⟩ <;> exact ⟨_, ht⟩
    · rintro ⟨head, ht⟩
      by_cases hhead : head = .tvn level i
      · exact ⟨_, (hcases _ t).mpr (Or.inr ⟨hhead ▸ ht, rfl⟩)⟩
      · exact ⟨_, (hcases _ t).mpr (Or.inl ⟨ht, hhead⟩)⟩
  refine ⟨⟨hjiffies.trans h.jiffies, hsep, ?_, ?_, ?_, ?_⟩, hjiffies, ?_, ?_⟩
  · intro t
    rw [hpend', hsame, h.pending]
    constructor
    · rintro (ht | ht)
      · exact ht
      · exact ⟨_, ht⟩
    · exact Or.inl
  · intro head t ht hwork
    rcases (hcases head t).mp ht with ⟨hold, hne⟩ | ⟨hold, rfl⟩
    · exact (h.fits head t hold hwork).next_level (hindex ▸ hne)
    · exact (hmoved t hold).mono hlevel
  · intro head t ht hwork
    rcases (hcases head t).mp ht with ⟨ht, -⟩ | ⟨ht, -⟩
    · exact h.range head t ht hwork
    · exact h.range _ t ht (by simp)
  · intro k j t ht
    rw [hexp]
    rcases (hcases _ t).mp ht with ⟨ht, -⟩ | ⟨ht, -⟩
    · exact h.expires k j t ht
    · exact h.expires level i t ht
  · intro t
    rw [hcases]
    constructor
    · rintro (⟨ht, -⟩ | ⟨ht, hwork⟩)
      · exact ht
      · have hfits := hmoved t ht
        rw [← hwork] at hfits
        exact absurd hfits id
    · exact fun ht => Or.inl ⟨ht, by simp⟩
  · intro t
    rw [Bool.eq_iff_iff, hpend']
    constructor
    · rintro (ht | ht)
      · exact ht
      · exact (h.pending t).mpr ⟨_, ht⟩
    · exact Or.inl

/-- The whole chain of cascades. -/
theorem Placed.cascadeFrom (left level : Nat) {b : Base τ} (hlevel : left + level = 4)
    (h : Placed c level now due b) (hnow : now % 2 ^ c.shift level = 0) :
    Placed c 4 now due (cascadeFrom c left level b) ∧ Cascaded b (cascadeFrom c left level b) := by
  induction left generalizing level b with
  | zero =>
    obtain rfl : level = 4 := by omega
    exact ⟨h, rfl, fun _ => Iff.rfl, fun _ => rfl⟩
  | succ left ih =>
    obtain ⟨hplaced, hsame⟩ := h.cascade (by omega)
    have hindex := h.index_eq (k := level) (by omega)
    have hsplit : now % 2 ^ c.shift (level + 1) =
        now % 2 ^ c.shift level + 2 ^ c.shift level * index c b level := by
      rw [shift_succ, Nat.pow_add, Nat.mod_mul, hindex]
    rw [hnow, Nat.zero_add] at hsplit
    by_cases hzero : index c b level = 0
    · have hnext : now % 2 ^ c.shift (level + 1) = 0 := by rw [hsplit, hzero, Nat.mul_zero]
      obtain ⟨hplaced', hsame'⟩ := ih (level + 1) (by omega) hplaced hnext
      have hrun : Timer.cascadeFrom c (left + 1) level b =
          Timer.cascadeFrom c left (level + 1) (Timer.cascade c b level (index c b level)) := by
        simp [Timer.cascadeFrom, hzero]
      rw [hrun]
      exact ⟨hplaced', hsame.trans hsame'⟩
    · have hnext : now % 2 ^ c.shift (level + 1) ≠ 0 := by
        rw [hsplit]
        exact Nat.mul_ne_zero (Nat.pos_iff_ne_zero.mp (Nat.two_pow_pos _)) hzero
      have hrun : Timer.cascadeFrom c (left + 1) level b =
          Timer.cascade c b level (index c b level) := by
        simp [Timer.cascadeFrom, hzero]
      rw [hrun]
      exact ⟨hplaced.strict hnext, hsame⟩

/-- One round: the timers due now are on the work list, all others are in place
for the next round. -/
theorem Placed.startRound (h : Placed c 0 now due b) (hwork : b.vec .work = []) :
    Placed c 0 (now + 1) due (startRound c b) ∧
      (∀ t ∈ (startRound c b).vec .work, due t = now) ∧
      ∀ t, (startRound c b).pending t = b.pending t := by
  have hbits := c.int_bits
  have hi : b.timerJiffies % 2 ^ c.tvrBits = now % 2 ^ c.tvrBits := by
    rw [h.jiffies, mod_mod_pow (by omega)]
  have hshift : c.shift 0 = c.tvrBits := by simp [shift]
  -- the state after the cascading
  obtain ⟨b1, hb1, hplaced, hsame⟩ : ∃ b1, b1 =
      (if b.timerJiffies % 2 ^ c.tvrBits = 0 then Timer.cascadeFrom c 4 0 b else b) ∧
      Placed c 4 now due b1 ∧ Cascaded b b1 := by
    refine ⟨_, rfl, ?_⟩
    split
    · rename_i hzero
      exact h.cascadeFrom 4 0 rfl (by rw [hshift, ← hi, hzero])
    · rename_i hzero
      exact ⟨h.strict (by rw [hshift, ← hi]; exact hzero), rfl, fun _ => Iff.rfl, fun _ => rfl⟩
  have hstart : Timer.startRound c b = { b1 with
        timerJiffies := (b1.timerJiffies + 1) % 2 ^ 32
        vec := update (clear b1.vec (.tv1 (now % 2 ^ c.tvrBits))) .work
          (b1.vec (.tv1 (now % 2 ^ c.tvrBits))) } := by
    simp [Timer.startRound, hi, hb1]
  have hnowork (t) : t ∉ b1.vec .work := by
    intro ht
    have hmem := (hsame.work t).mp ht
    rw [hwork] at hmem
    exact absurd hmem List.not_mem_nil
  have hmem (head t) : t ∈ (Timer.startRound c b).vec head ↔
        (head = .work ∧ t ∈ b1.vec (.tv1 (now % 2 ^ c.tvrBits))) ∨
          (head ≠ .work ∧ head ≠ .tv1 (now % 2 ^ c.tvrBits) ∧ t ∈ b1.vec head) := by
    rw [hstart]
    by_cases hhead : head = .work
    · simp [hhead]
    · simp only [update_of_ne hhead, mem_clear]
      tauto
  refine ⟨⟨?_, ⟨?_, ?_⟩, ?_, ?_, ?_, ?_⟩, ?_, ?_⟩
  · rw [hstart]
    simp only [hplaced.jiffies]
    omega
  · intro head
    rw [hstart]
    by_cases hhead : head = .work
    · simp only [hhead]
      exact hplaced.separate.nodup _
    · simp only [update_of_ne hhead]
      exact (hplaced.separate.clear _).nodup head
  · intro head head' t ht ht'
    rcases (hmem head t).mp ht with ⟨rfl, hold⟩ | ⟨-, hne, hold⟩ <;>
      rcases (hmem head' t).mp ht' with ⟨rfl, hold'⟩ | ⟨-, hne', hold'⟩
    · rfl
    · exact absurd (hplaced.separate.unique hold' hold) hne'
    · exact absurd (hplaced.separate.unique hold hold') hne
    · exact hplaced.separate.unique hold hold'
  · intro t
    have hpend : (Timer.startRound c b).pending t = b1.pending t := by rw [hstart]
    rw [hpend, hplaced.pending]
    constructor
    · rintro ⟨head, ht⟩
      have hhead : head ≠ .work := fun heq => hnowork t (heq ▸ ht)
      by_cases hslot : head = .tv1 (now % 2 ^ c.tvrBits)
      · exact ⟨.work, (hmem _ t).mpr (Or.inl ⟨rfl, hslot ▸ ht⟩)⟩
      · exact ⟨head, (hmem _ t).mpr (Or.inr ⟨hhead, hslot, ht⟩)⟩
    · rintro ⟨head, ht⟩
      rcases (hmem head t).mp ht with ⟨-, hold⟩ | ⟨-, -, hold⟩ <;> exact ⟨_, hold⟩
  · intro head t ht hhead
    rcases (hmem head t).mp ht with ⟨heq, -⟩ | ⟨-, -, hold⟩
    · exact absurd heq hhead
    · exact (hplaced.fits head t hold hhead).next_round
  · intro head t ht hhead
    rcases (hmem head t).mp ht with ⟨heq, -⟩ | ⟨-, hslot, hold⟩
    · exact absurd heq hhead
    have hfits := hplaced.fits head t hold hhead
    have hrange := hplaced.range head t hold hhead
    have hne : due t ≠ now := by
      intro hdue
      cases head with
      | tv1 j => exact hslot (by rw [hfits.2, hdue])
      | tvn k j =>
        have hlt := hfits.now_lt_of_tvn
        omega
      | work => exact hhead rfl
    omega
  · intro k j t ht
    have hexp : (Timer.startRound c b).expires = b1.expires := by rw [hstart]
    rw [hexp]
    rcases (hmem _ t).mp ht with ⟨heq, -⟩ | ⟨-, -, hold⟩
    · simp at heq
    · exact hplaced.expires k j t hold
  · intro t ht
    rcases (hmem _ t).mp ht with ⟨-, hold⟩ | ⟨hne, -⟩
    · exact (hplaced.fits _ t hold (by simp)).due_of_slot (hplaced.range _ t hold (by simp)).1
    · exact absurd rfl hne
  · intro t
    rw [hstart]
    exact hsame.pending t

end

end LinuxKernel.Kernel.Timer
