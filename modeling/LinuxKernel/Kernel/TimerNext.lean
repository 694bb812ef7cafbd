/-
  When the wheel has to run next.

  Source: kernel/timer.c, `__next_timer_interrupt`; include/linux/timer.h,
  `NEXT_TIMER_MAX_DELTA`; include/linux/jiffies.h, `time_before`.

  The function looks at the slots of `tv1` from `timer_jiffies` on, and then at the
  slots of the upper vectors from their next cascade on, until it has seen a timer
  that nothing further up can precede.  The time that it has found is kept as an
  integer here (`expires` is that integer modulo 2^32): a timer that was armed for
  the past has an `expires` before `timer_jiffies`.
-/
import LinuxKernel.Foundation.RingBuffer
import LinuxKernel.Kernel.TimerRun

namespace LinuxKernel.Kernel.Timer

open Config Foundation Function List

variable {τ : Type} {due : τ → Nat} {b : Base τ} {t : τ} {c : Config}
  {k timerJiffies e now : Nat} {evs : List (Event τ)}

/-! ## The model -/

section

variable (c : Config)

/-- `time_before(a, b)` -/
def timeBefore (a b : Nat) : Bool := !timeAfterEq a b

/-- `NEXT_TIMER_MAX_DELTA` -/
def nextTimerMaxDelta : Nat := 2 ^ 30 - 1

/-- `if (index) timer_jiffies += SIZE - index; timer_jiffies >>= BITS;` where `index` is
`timer_jiffies & MASK`. -/
def nextCascade (bits timerJiffies : Nat) : Nat :=
  let index := timerJiffies % 2 ^ bits
  let timerJiffies :=
    if index ≠ 0 then (timerJiffies + (2 ^ bits - index)) % 2 ^ 32 else timerJiffies
  timerJiffies / 2 ^ bits

/-- The loop over `tv1`, with `rest` slots from `slot` on: the first timer that is not
deferrable, and its slot. -/
def scanTv1 (b : Base τ) (deferrable : τ → Bool) : Nat → Nat → Option (τ × Nat)
  | 0, _ => none
  | rest + 1, slot =>
    match (b.vec (.tv1 slot)).find? fun nte => !deferrable nte with
    | some nte => some (nte, slot)
    | none => scanTv1 b deferrable rest ((slot + 1) % 2 ^ c.tvrBits)

/-- `list_for_each_entry(nte, varp->vec + slot, entry)`: `found` and `expires`. -/
def lookAt (b : Base τ) (l : List τ) (found : Bool) (expires : Nat) : Bool × Nat :=
  l.foldl (fun x nte => (true, if timeBefore (b.expires nte) x.2 then b.expires nte else x.2))
    (found, expires)

/-- The loop over an upper vector, with `rest` slots from `slot` on: `.inl` for
`return expires`, `.inr` when the next vector is to be looked at. -/
def scanTvn (b : Base τ) (level index : Nat) : Nat → Nat → Bool → Nat → Nat ⊕ Bool × Nat
  | 0, _, found, expires => .inr (found, expires)
  | rest + 1, slot, found, expires =>
    let (found, expires) := lookAt b (b.vec (.tvn level slot)) found expires
    if found then
      if index = 0 ∨ slot < index then .inr (found, expires) else .inl expires
    else scanTvn b level index rest ((slot + 1) % 2 ^ c.tvnBits) found expires

/-- `for (array = 0; array < 4; array++)` from `level` on, with `left` vectors to go. -/
def scanArrays (b : Base τ) : Nat → Nat → Nat → Bool → Nat → Nat
  | 0, _, _, _, expires => expires
  | left + 1, level, timerJiffies, found, expires =>
    let index := timerJiffies % 2 ^ c.tvnBits
    match scanTvn c b level index (2 ^ c.tvnBits) index found expires with
    | .inl expires => expires
    | .inr (found, expires) =>
      scanArrays b left (level + 1) (nextCascade c.tvnBits timerJiffies) found expires

/-- `__next_timer_interrupt` -/
def nextTimerInterrupt (deferrable : τ → Bool) (b : Base τ) : Nat :=
  let expires := (b.timerJiffies + nextTimerMaxDelta) % 2 ^ 32
  let index := b.timerJiffies % 2 ^ c.tvrBits
  let cascade := nextCascade c.tvrBits b.timerJiffies
  match scanTv1 c b deferrable (2 ^ c.tvrBits) index with
  | none => scanArrays c b 4 0 cascade false expires
  | some (nte, slot) =>
    if index = 0 ∨ slot < index then scanArrays c b 4 0 cascade true (b.expires nte)
    else b.expires nte

end

/-! ## Timers that are armed neither for the distant past nor beyond the wheel -/

section

/-- Seen from `timer_jiffies`, the time is at most 2^30 jiffies past, and within what
`tv5` covers. -/
def InReach (c : Config) (timerJiffies expires : Nat) : Prop :=
  let d := (expires + 2 ^ 32 - timerJiffies) % 2 ^ 32
  (d < 2 ^ 31 → d < 2 ^ c.shift 4) ∧ (2 ^ 31 ≤ d → 2 ^ 32 - d ≤ 2 ^ 30)

instance (c : Config) (timerJiffies expires : Nat) : Decidable (InReach c timerJiffies expires) :=
  inferInstanceAs (Decidable (_ ∧ _))

/-- What such armings leave on the wheel: the timers of a vector are within what the
vector covers, and `expires` is the due round, or up to 2^30 before it if the timer is
due now. -/
structure Reached (c : Config) (now : Nat) (due : τ → Nat) (b : Base τ) : Prop where
  near : ∀ k i t, t ∈ b.vec (.tvn k i) → due t < now + 2 ^ c.shift (k + 1)
  expires : ∀ head t, t ∈ b.vec head → head ≠ .work → b.expires t = due t % 2 ^ 32 ∨
    due t = now ∧ ∃ x : Nat, x ≤ 2 ^ 30 ∧ (b.expires t : Int) = ((now : Int) - x) % 2 ^ 32

/-- `internal_add_timer` chooses a vector that covers the time. -/
theorem chooseVec_near {i : Nat} {d : Nat} (hle : now ≤ d) (hlt : d < now + 2 ^ 31)
    (hcover : d < now + 2 ^ c.shift 4) (hvec : chooseVec c (d % 2 ^ 32) (now % 2 ^ 32) = .tvn k i) :
    d < now + 2 ^ c.shift (k + 1) := by
  unfold chooseVec at hvec
  simp only [distance_eq hle hlt] at hvec
  split_ifs at hvec <;> cases hvec <;> simp only [Nat.zero_add, Nat.reduceAdd] <;> omega

theorem shift_mono {m : Nat} (h : k ≤ m) : c.shift k ≤ c.shift m := by
  have hmul := Nat.mul_le_mul_right c.tvnBits h
  unfold shift
  omega

/-- Fewer timers, with the same rounds. -/
theorem Reached.sub {due' : τ → Nat} {b' : Base τ} (hr : Reached c now due b)
    (hexp : b'.expires = b.expires)
    (hsub : ∀ head t, t ∈ b'.vec head → t ∈ b.vec head ∧ due' t = due t) :
    Reached c now due' b' where
  near k i t ht := by
    obtain ⟨ht, hdue⟩ := hsub _ t ht
    rw [hdue]
    exact hr.near k i t ht
  expires head t ht hwork := by
    obtain ⟨ht, hdue⟩ := hsub _ t ht
    rw [hdue, hexp]
    exact hr.expires head t ht hwork

variable [DecidableEq τ]

/-- Where the timers are after `__mod_timer`. -/
theorem Placed.mem_modTimerLocked (hp : Placed c 0 now due b) (t : τ) (expires : Nat) (head : Head)
    (u : τ) : u ∈ (Timer.modTimerLocked c b t expires).1.vec head ↔
      (u ≠ t ∧ u ∈ b.vec head) ∨ (u = t ∧ head = chooseVec c expires b.timerJiffies) := by
  cases hpend : b.pending t with
  | true =>
    have hmem : u ∈ (Timer.modTimerLocked c b t expires).1.vec head ↔
        u ∈ Queues.addTail (Queues.unlink b.vec t) (chooseVec c expires b.timerJiffies) t head := by
      simp [Timer.modTimerLocked, hpend, internalAddTimer, detachTimer]
    rw [hmem, Queues.mem_addTail, Queues.mem_unlink hp.separate, and_comm (a := head = _)]
  | false =>
    have hmem : u ∈ (Timer.modTimerLocked c b t expires).1.vec head ↔
        u ∈ Queues.addTail b.vec (chooseVec c expires b.timerJiffies) t head := by
      simp [Timer.modTimerLocked, hpend, internalAddTimer]
    have hnew : u ∈ b.vec head → u ≠ t := by
      rintro hu rfl
      have := (hp.pending u).mpr ⟨head, hu⟩
      rw [hpend] at this
      cases this
    rw [hmem, Queues.mem_addTail, and_comm]
    exact or_congr_left ⟨fun hu => ⟨hnew hu, hu⟩, fun hu => hu.2⟩

theorem modTimerLocked_expires (c : Config) (b : Base τ) (t : τ) (expires : Nat) :
    (Timer.modTimerLocked c b t expires).1.expires = update b.expires t expires := by
  unfold Timer.modTimerLocked internalAddTimer
  cases b.pending t <;> rfl

/-- Arming a timer for a time in reach. -/
theorem Reached.arm (hr : Reached c now due b) (hp : Placed c 0 now due b) {expires : Nat}
    (hexp : expires < 2 ^ 32) (hreach : InReach c b.timerJiffies expires) :
    Reached c now (update due t (dueRound now expires))
      (Timer.modTimerLocked c b t expires).1 := by
  obtain ⟨hcover, hpast⟩ := hreach
  rw [hp.jiffies] at hcover hpast
  have hrange := dueRound_range now expires
  constructor
  · intro k i u hu
    rcases (hp.mem_modTimerLocked t expires _ u).mp hu with ⟨hut, hu⟩ | ⟨rfl, hhead⟩
    · rw [update_of_ne hut]
      exact hr.near k i u hu
    rw [hp.jiffies] at hhead
    have hround := (chooseVec_arm c now hexp).2 k i hhead.symm
    rw [update_self]
    rw [hround] at hhead
    refine chooseVec_near hrange.1 hrange.2 ?_ hhead.symm
    unfold dueRound
    dsimp only
    split <;> omega
  · intro head u hu hwork
    rw [modTimerLocked_expires]
    rcases (hp.mem_modTimerLocked t expires _ u).mp hu with ⟨hut, hu⟩ | ⟨rfl, -⟩
    · rw [update_of_ne hut, update_of_ne hut]
      exact hr.expires head u hu hwork
    rw [update_self, update_self]
    unfold dueRound
    dsimp only
    split
    · omega
    · refine .inr ⟨rfl, _, hpast (by omega), ?_⟩
      omega

/-- Cascading a slot. -/
theorem Reached.cascade {level : Nat} (hr : Reached c now due b) (hp : Placed c level now due b)
    (hlevel : level < 4) (i : Nat) : Reached c now due (Timer.cascade c b level i) := by
  obtain ⟨-, -, hexp, -, hmem⟩ := hp.cascade_vec level i
  constructor
  · intro k j t ht
    rcases (hmem _ t).mp ht with ⟨ht, -⟩ | ⟨ht, hhead⟩
    · exact hr.near k j t ht
    obtain ⟨hle, hlt⟩ := hp.range _ t ht (by simp)
    have hnear := hr.near level i t ht
    have hpow : 2 ^ c.shift (level + 1) ≤ 2 ^ c.shift 4 :=
      Nat.pow_le_pow_right (by decide) (shift_mono (by omega))
    rw [hp.expires level i t ht, hp.jiffies] at hhead
    exact chooseVec_near hle hlt (by omega) hhead.symm
  · intro head t ht hwork
    rw [hexp]
    rcases (hmem _ t).mp ht with ⟨ht, -⟩ | ⟨ht, -⟩
    · exact hr.expires head t ht hwork
    · exact .inl (hp.expires level i t ht)

theorem Reached.cascadeFrom (left level : Nat) (hlevel : left + level = 4)
    (hp : Placed c level now due b) (hr : Reached c now due b) :
    Reached c now due (Timer.cascadeFrom c left level b) := by
  induction left generalizing level b with
  | zero => exact hr
  | succ left ih =>
    have hr' := hr.cascade hp (by omega) (index c b level)
    simp only [Timer.cascadeFrom]
    split
    · exact ih (level + 1) (by omega) (hp.cascade (by omega)).1 hr'
    · exact hr'

/-- One round: the timers that were due in it are on the work list now. -/
theorem Reached.startRound (hr : Reached c now due b) (hp : Placed c 0 now due b)
    (hwork : b.vec .work = []) : Reached c (now + 1) due (Timer.startRound c b) := by
  have hrange := (hp.startRound hwork).1.range
  -- the wheel after the cascading
  obtain ⟨b1, hb1, hr1⟩ : ∃ b1, b1 = (if b.timerJiffies % 2 ^ c.tvrBits = 0 then
      Timer.cascadeFrom c 4 0 b else b) ∧ Reached c now due b1 := by
    refine ⟨_, rfl, ?_⟩
    split
    · exact hr.cascadeFrom 4 0 rfl hp
    · exact hr
  have hsub (head t) (ht : t ∈ (Timer.startRound c b).vec head) (hhead : head ≠ .work) :
      t ∈ b1.vec head := by
    simp only [Timer.startRound, ← hb1, update_of_ne hhead] at ht
    exact (Queues.mem_clear.mp ht).1
  have hexp : (Timer.startRound c b).expires = b1.expires := by simp [Timer.startRound, ← hb1]
  constructor
  · intro k i t ht
    have := hr1.near k i t (hsub _ t ht (by simp))
    omega
  · intro head t ht hhead
    rw [hexp]
    rcases hr1.expires head t (hsub _ t ht hhead) hhead with h | ⟨hnow, -⟩
    · exact .inl h
    · have := hrange head t ht hhead
      omega

/-- The calls that arm a timer arm it for a time in reach. -/
def ArmsInReach (c : Config) (s : System τ) (call : Call τ) : Prop :=
  ∀ expires, call.armsFor = some expires → InReach c s.base.timerJiffies expires

theorem run_reached {s s' : System τ} (hinit : Initial s)
    (hrun : RunWith (ArmsInReach c) (step c) s evs s') :
    Inv c evs s' ∧ Reached c s'.round (dueOf evs) s'.base := by
  refine hrun.invariant ⟨hinit.inv, ?_⟩ ?_
  · have hnone (head t) : t ∉ s.base.vec head := by
      intro ht
      rw [hinit.vec head] at ht
      exact not_mem_nil ht
    exact ⟨fun k i t ht => absurd ht (hnone _ t), fun head t ht _ => absurd ht (hnone _ t)⟩
  · rintro s s' evs new call ⟨h, hr⟩ hcall hstep
    refine ⟨step_inv call h hstep, ?_⟩
    have hgone {ev : Event τ} {t : τ} (hev : ∀ u d, ev.update u d = if t = u then none else d) :
        Reached c s.round (dueOf (evs ++ [ev])) (detachTimer s.base t) := by
      refine hr.sub rfl fun head u hu => ?_
      obtain ⟨hut, hu⟩ := (Queues.mem_unlink h.placed.separate).mp hu
      refine ⟨hu, ?_⟩
      rw [dueOf, dueIn_snoc, hev, if_neg (Ne.symm hut), dueOf]
    cases step_effect call hstep with
    | none _ hbase hround _ =>
      rw [append_nil, hbase, hround]
      exact hr
    | arm t expires hcall' hexp =>
      rw [dueOf_arm]
      exact hr.arm h.placed hexp (hcall expires hcall')
    | del t => exact hgone fun _ _ => rfl
    | begin hphase =>
      have hdue : dueOf (evs ++ [.begin s.round]) = dueOf evs := by
        funext t
        rw [dueOf, dueIn_snoc]
        rfl
      rw [hdue]
      exact hr.startRound h.placed (h.phase (.inr hphase))
    | exec t ht => exact hgone fun _ _ => rfl

end

/-! ## The next cascades -/

section

variable {q : Nat} {a m : Nat}

/-- The first slot of the vector `k` that is cascaded from round `now` on, counted
without wraparound. -/
def bucket (c : Config) (now : Nat) : Nat → Nat
  | 0 => (now + 2 ^ c.tvrBits - 1) / 2 ^ c.tvrBits
  | k + 1 => (bucket c now k + 2 ^ c.tvnBits - 1) / 2 ^ c.tvnBits

theorem ceilDiv_le_iff (hm : 0 < m) : (a + m - 1) / m ≤ q ↔ a ≤ q * m := by
  rw [Nat.div_le_iff_le_mul_add_pred hm, Nat.mul_comm]
  omega

theorem ceilDiv_mul_of_ne (hm : 0 < m) (hne : a % m ≠ 0) :
    (a + m - 1) / m * m = a + (m - a % m) := by
  have hlt := Nat.mod_lt a hm
  have hsplit := Nat.div_add_mod a m
  rw [Nat.mul_comm] at hsplit
  have hsum : a + m - 1 = (a % m - 1) + (a / m + 1) * m := by
    rw [Nat.succ_mul]
    omega
  rw [hsum, Nat.add_mul_div_right _ _ hm, Nat.div_eq_of_lt (by omega), Nat.zero_add]
  omega

theorem ceilDiv_mul_of_zero (hm : 0 < m) (hzero : a % m = 0) : (a + m - 1) / m * m = a := by
  have hsplit := Nat.div_add_mod a m
  rw [Nat.mul_comm] at hsplit
  have hsum : a + m - 1 = (m - 1) + a / m * m := by omega
  rw [hsum, Nat.add_mul_div_right _ _ hm, Nat.div_eq_of_lt (by omega), Nat.zero_add]
  omega

theorem bucket_le_iff (k : Nat) {q : Nat} : bucket c now k ≤ q ↔ now ≤ q * 2 ^ c.shift k := by
  induction k generalizing q with
  | zero =>
    rw [bucket, ceilDiv_le_iff (Nat.two_pow_pos _), shift, Nat.zero_mul, Nat.add_zero]
  | succ k ih =>
    rw [bucket, ceilDiv_le_iff (Nat.two_pow_pos _), ih, shift_succ, Nat.pow_add, Nat.mul_assoc,
      Nat.mul_comm (2 ^ c.tvnBits)]

theorem now_le_bucket (k : Nat) : now ≤ bucket c now k * 2 ^ c.shift k :=
  (bucket_le_iff k).mp (Nat.le_refl _)

/-- The next slot of a vector is the first one that begins with the next slot of the
vector below, or later. -/
theorem bucket_succ_le (k : Nat) : bucket c now k ≤ bucket c now (k + 1) * 2 ^ c.tvnBits :=
  (ceilDiv_le_iff (Nat.two_pow_pos _)).mp (Nat.le_refl _)

/-- The distance to the next slot of the next vector. -/
theorem bucket_succ_eq (k : Nat) (hne : bucket c now k % 2 ^ c.tvnBits ≠ 0) :
    bucket c now (k + 1) * 2 ^ c.tvnBits =
      bucket c now k + (2 ^ c.tvnBits - bucket c now k % 2 ^ c.tvnBits) :=
  ceilDiv_mul_of_ne (Nat.two_pow_pos _) hne

theorem bucket_succ_of_zero (k : Nat) (hzero : bucket c now k % 2 ^ c.tvnBits = 0) :
    bucket c now (k + 1) * 2 ^ c.tvnBits = bucket c now k :=
  ceilDiv_mul_of_zero (Nat.two_pow_pos _) hzero

/-- Where slots of neighbouring vectors begin. -/
theorem slot_succ (q k : Nat) : q * 2 ^ c.shift (k + 1) = q * 2 ^ c.tvnBits * 2 ^ c.shift k := by
  rw [shift_succ, Nat.pow_add, Nat.mul_assoc, Nat.mul_comm (2 ^ c.tvnBits)]

/-- `timer_jiffies` has the low bits of the next slot. -/
theorem nextCascade_mod {bits w : Nat} (hw : bits + w ≤ 32)
    (h : timerJiffies % 2 ^ (bits + w) = q % 2 ^ (bits + w)) :
    nextCascade bits timerJiffies % 2 ^ w = (q + 2 ^ bits - 1) / 2 ^ bits % 2 ^ w := by
  have hpos := Nat.two_pow_pos bits
  have hindex : timerJiffies % 2 ^ bits = q % 2 ^ bits := by
    have hdvd : 2 ^ bits ∣ 2 ^ (bits + w) := Nat.pow_dvd_pow 2 (Nat.le_add_right _ _)
    rw [← Nat.mod_mod_of_dvd timerJiffies hdvd, h, Nat.mod_mod_of_dvd q hdvd]
  -- the quotients agree when the dividends do modulo 2 ^ (bits + w)
  have hquot (x y) (hxy : x % 2 ^ (bits + w) = y % 2 ^ (bits + w)) :
      x / 2 ^ bits % 2 ^ w = y / 2 ^ bits % 2 ^ w := by
    rw [Nat.pow_add] at hxy
    rw [← Nat.mod_mul_right_div_self, hxy, Nat.mod_mul_right_div_self]
  unfold nextCascade
  dsimp only
  rw [hindex]
  by_cases hzero : q % 2 ^ bits = 0
  · rw [if_neg (fun hne => hne hzero)]
    have hceil := ceilDiv_mul_of_zero hpos hzero
    have hdiv : (q + 2 ^ bits - 1) / 2 ^ bits = q / 2 ^ bits :=
      (Nat.div_eq_of_eq_mul_left hpos hceil.symm).symm
    rw [hdiv]
    exact hquot _ _ h
  · rw [if_pos hzero]
    have hceil := ceilDiv_mul_of_ne hpos hzero
    have hdiv : (q + 2 ^ bits - 1) / 2 ^ bits = (q + (2 ^ bits - q % 2 ^ bits)) / 2 ^ bits :=
      (Nat.div_eq_of_eq_mul_left hpos hceil.symm).symm
    rw [hdiv]
    refine hquot _ _ ?_
    rw [Nat.mod_mod_of_dvd _ (Nat.pow_dvd_pow 2 hw), Nat.add_mod, h, ← Nat.add_mod]

end

/-! ## Times as integers -/

variable {E : Int}

section

/-- Times that are less than 2^31 apart are compared correctly. -/
theorem timeBefore_iff {a x : Nat} (ha : a = x % 2 ^ 32) (he : (e : Int) = E % 2 ^ 32)
    (hlt : (x : Int) < E + 2 ^ 31) (hgt : E < x + 2 ^ 31) :
    timeBefore a e = true ↔ (x : Int) < E := by
  unfold timeBefore timeAfterEq
  simp only [Bool.not_eq_true', decide_eq_false_iff_not]
  omega

/-- Looking at timers that are on the wheel: the smallest time is kept. -/
theorem lookAt_spec {lo : Int} : ∀ (l : List τ) (found : Bool) (e : Nat) (E : Int),
    (∀ t ∈ l, b.expires t = due t % 2 ^ 32 ∧ lo ≤ due t ∧ (due t : Int) < lo + 2 ^ 31) →
    lo ≤ E → E < lo + 2 ^ 31 → (e : Int) = E % 2 ^ 32 →
    ∃ (e' : Nat) (E' : Int), lookAt b l found e = (found || !l.isEmpty, e') ∧
      (e' : Int) = E' % 2 ^ 32 ∧ E' ≤ E ∧ (∀ t ∈ l, E' ≤ due t) ∧
      (E' = E ∨ ∃ t ∈ l, E' = due t) := by
  intro l
  induction l with
  | nil =>
    intro found e E _ _ _ he
    exact ⟨e, E, by simp [lookAt], he, Int.le_refl _, by simp, .inl rfl⟩
  | cons u l ih =>
    intro found e E hl hlo hhi he
    obtain ⟨⟨hexp, hu1, hu2⟩, hl'⟩ := forall_mem_cons.mp hl
    have hbefore := timeBefore_iff hexp he (by omega) (by omega)
    -- the earlier of the two times goes on
    obtain ⟨e1, E1, hstep, he1, hle1, hleu, hcase⟩ : ∃ (e1 : Nat) (E1 : Int),
        lookAt b (u :: l) found e = lookAt b l true e1 ∧ (e1 : Int) = E1 % 2 ^ 32 ∧ E1 ≤ E ∧
        E1 ≤ due u ∧ (E1 = E ∨ E1 = due u) := by
      by_cases hlt : (due u : Int) < E
      · exact ⟨b.expires u, due u, by simp [lookAt, hbefore.mpr hlt], by omega, by omega, by omega,
          .inr rfl⟩
      · have hnot := Bool.eq_false_iff.mpr fun h => hlt (hbefore.mp h)
        exact ⟨e, E, by simp [lookAt, hnot], he, by omega, by omega, .inl rfl⟩
    obtain ⟨e', E', heq, he', hle, hall, hone⟩ := ih true e1 E1 hl' (by omega) (by omega) he1
    refine ⟨e', E', by rw [hstep, heq]; simp, he', by omega, ?_, ?_⟩
    · exact forall_mem_cons.mpr ⟨by omega, hall⟩
    · rcases hone with rfl | ⟨t, ht, h⟩
      · exact hcase.imp_right fun h => ⟨u, mem_cons_self, h⟩
      · exact .inr ⟨t, mem_cons_of_mem u ht, h⟩

end

/-! ## Vector by vector -/

section

variable {deferrable : τ → Bool}

theorem eq_of_mod_eq {x y a m : Nat} (hx : a ≤ x) (hx' : x < a + m) (hy : a ≤ y) (hy' : y < a + m)
    (h : x % m = y % m) : x = y := by
  rcases Nat.lt_trichotomy x y with hlt | rfl | hlt
  · exact absurd h.symm (cell_ne hlt (by omega))
  · rfl
  · exact absurd h (cell_ne hlt (by omega))

/-- Going round has not passed zero. -/
theorem mod_add_lt {q j m : Nat} (hj : j < m) (h : q % m ≤ (q + j) % m) : q % m + j < m := by
  have hlt := Nat.mod_lt q (show 0 < m by omega)
  rw [cell_eq (by omega) hj] at h
  split at h <;> omega

/-- Where a timer of an upper vector is, from the vector's next slot on. -/
theorem tvn_block (hp : Placed c 0 now due b) (hr : Reached c now due b) {i : Nat}
    (ht : t ∈ b.vec (.tvn k i)) : k < 4 ∧ i = due t / 2 ^ c.shift k % 2 ^ c.tvnBits ∧
      bucket c now k ≤ due t / 2 ^ c.shift k ∧
      due t / 2 ^ c.shift k < bucket c now k + 2 ^ c.tvnBits := by
  obtain ⟨hk, hstart, hi⟩ := hp.fits _ t ht (by simp)
  refine ⟨hk, hi, (bucket_le_iff k).mpr ?_, ?_⟩
  · omega
  · have hnear := hr.near k i t ht
    have hnow : now ≤ bucket c now k * 2 ^ c.shift k := now_le_bucket k
    refine (Nat.div_lt_iff_lt_mul (Nat.two_pow_pos _)).mpr ?_
    rw [shift_succ, Nat.pow_add, Nat.mul_comm (2 ^ c.shift k)] at hnear
    rw [Nat.add_mul]
    omega

/-- The timers that count in `tv1` and in the vectors below `k`. -/
def Looked (deferrable : τ → Bool) (b : Base τ) (k : Nat) (t : τ) : Prop :=
  (∃ i, t ∈ b.vec (.tv1 i) ∧ deferrable t = false) ∨ ∃ m i, m < k ∧ t ∈ b.vec (.tvn m i)

/-- What is known before the vector `k` is looked at. -/
structure Sought (c : Config) (now : Nat) (due : τ → Nat) (b : Base τ) (deferrable : τ → Bool)
    (k : Nat) (found : Bool) (e : Nat) (E : Int) : Prop where
  expires : (e : Int) = E % 2 ^ 32
  low : (now : Int) - 2 ^ 30 ≤ E
  high : E < now + 2 ^ 30
  seen : ∀ t, Looked deferrable b k t → E ≤ due t
  /-- only the next slot of the vector may hold something earlier -/
  cut : found = true → E ≤ ((bucket c now k + 1) * 2 ^ c.shift k : Nat)
  /-- a time that is past has been found in the slot that is cascaded now -/
  fresh : now ≤ E ∨ (found = true ∧ now = bucket c now k * 2 ^ c.shift k)

/-- What the function may return. -/
structure Answer (now : Nat) (due : τ → Nat) (b : Base τ) (deferrable : τ → Bool)
    (e : Nat) (E : Int) : Prop where
  expires : (e : Int) = E % 2 ^ 32
  low : (now : Int) - 2 ^ 30 ≤ E
  seen : ∀ t, Looked deferrable b 4 t → E ≤ due t

/-- The timers of the vectors from `k` on come after the next slot of the vector `k`. -/
theorem due_above (hp : Placed c 0 now due b) (hr : Reached c now due b) {m i : Nat} (hk : k ≤ m)
    (ht : t ∈ b.vec (.tvn m i)) : bucket c now k * 2 ^ c.shift k ≤ due t := by
  have hmono : ∀ n, bucket c now k * 2 ^ c.shift k ≤
      bucket c now (k + n) * 2 ^ c.shift (k + n) := by
    intro n
    induction n with
    | zero => exact Nat.le_refl _
    | succ n ih =>
      refine Nat.le_trans ih ?_
      rw [← Nat.add_assoc, slot_succ]
      exact Nat.mul_le_mul_right _ (bucket_succ_le _)
  obtain ⟨n, rfl⟩ : ∃ n, m = k + n := ⟨m - k, by omega⟩
  have hblock := (tvn_block hp hr ht).2.2.1
  have hle := Nat.mul_le_mul_right (2 ^ c.shift (k + n)) hblock
  have hdiv := Nat.div_mul_le_self (due t) (2 ^ c.shift (k + n))
  have := hmono n
  omega

theorem Looked.succ (h : Looked deferrable b (k + 1) t) :
    Looked deferrable b k t ∨ ∃ i, t ∈ b.vec (.tvn k i) := by
  rcases h with h | ⟨m, i, hm, ht⟩
  · exact .inl (.inl h)
  · rcases Nat.eq_or_lt_of_le (Nat.le_of_lt_succ hm) with rfl | hlt
    · exact .inr ⟨i, ht⟩
    · exact .inl (.inr ⟨m, i, hlt, ht⟩)

section

variable (hp : Placed c 0 now due b) (hr : Reached c now due b) {found : Bool}
include hp hr

section

variable {j : Nat} (hk : k < 4) (hfound : found = true → j = 0)
  (hs : Sought c now due b deferrable k found e E)
  (hempty : ∀ i t, t ∈ b.vec (.tvn k i) → bucket c now k + j ≤ due t / 2 ^ c.shift k)
include hk hfound hs hempty

/-- One slot of an upper vector: what has been found after it.  `j` slots of the vector
have been passed, and were empty. -/
theorem lookAt_slot {i : Nat} (hi : i = (bucket c now k + j) % 2 ^ c.tvnBits)
    (hj : j < 2 ^ c.tvnBits) :
    ∃ e' E', lookAt b (b.vec (.tvn k i)) found e =
        (found || !(b.vec (.tvn k i)).isEmpty, e') ∧
      (e' : Int) = E' % 2 ^ 32 ∧ (now : Int) - 2 ^ 30 ≤ E' ∧ E' < now + 2 ^ 30 ∧
      (now ≤ E' ∨ E' < now ∧ found = true ∧ now = bucket c now k * 2 ^ c.shift k) ∧
      (∀ t, Looked deferrable b k t → E' ≤ due t) ∧
      ((found || !(b.vec (.tvn k i)).isEmpty) = true →
        E' ≤ ((bucket c now k + j + 1) * 2 ^ c.shift k : Nat) ∧
        ∀ i t, t ∈ b.vec (.tvn k i) → E' ≤ due t) := by
  -- the timers of the slot belong to one block
  have hblock (t) (ht : t ∈ b.vec (.tvn k i)) :
      due t / 2 ^ c.shift k = bucket c now k + j := by
    obtain ⟨-, hi', hlo, hhi⟩ := tvn_block hp hr ht
    exact eq_of_mod_eq hlo hhi (by omega) (by omega) (hi'.symm.trans hi)
  have hbounds (t) (ht : t ∈ b.vec (.tvn k i)) :
      (bucket c now k + j) * 2 ^ c.shift k ≤ due t ∧
        due t < (bucket c now k + j + 1) * 2 ^ c.shift k := by
    have hdiv := Nat.div_mul_le_self (due t) (2 ^ c.shift k)
    have hlt := Nat.lt_mul_div_succ (due t) (Nat.two_pow_pos (c.shift k))
    rw [Nat.mul_comm] at hlt
    rw [hblock t ht] at hdiv hlt
    exact ⟨hdiv, hlt⟩
  obtain ⟨lo, hloE, hhiE, hl⟩ : ∃ lo : Int, lo ≤ E ∧ E < lo + 2 ^ 31 ∧ ∀ t ∈ b.vec (.tvn k i),
        b.expires t = due t % 2 ^ 32 ∧ lo ≤ due t ∧ (due t : Int) < lo + 2 ^ 31 := by
    have hlow := hs.low
    have hhigh := hs.high
    by_cases hfresh : (now : Int) ≤ E
    · refine ⟨now, hfresh, by omega, fun t ht => ⟨hp.expires _ _ t ht, ?_⟩⟩
      have hrange := hp.range _ t ht (by simp)
      omega
    -- a timer that is past has been found, and the slot begins now
    obtain ⟨hf, hnow⟩ := hs.fresh.resolve_left hfresh
    obtain rfl := hfound hf
    refine ⟨now - 2 ^ 30, hlow, by omega, fun t ht => ⟨hp.expires _ _ t ht, ?_⟩⟩
    have hrange := hp.range _ t ht (by simp)
    have hlt := (hbounds t ht).2
    have hpow : 2 ^ c.shift k ≤ 2 ^ 30 := by
      refine Nat.pow_le_pow_right (by decide) ?_
      have hbits := c.int_bits
      have hmono := shift_mono (c := c) (show k ≤ 3 by omega)
      simp only [shift] at hmono ⊢
      omega
    rw [Nat.succ_mul] at hlt
    omega
  obtain ⟨e', E', heq, he', hle, hall, hone⟩ := lookAt_spec _ found e E hl hloE hhiE hs.expires
  have hlow' : (now : Int) ≤ E' ∨ E' = E := by
    rcases hone with h | ⟨t, ht, h⟩
    · exact .inr h
    · have hrange := hp.range _ t ht (by simp)
      omega
  have hlow := hs.low
  have hhigh := hs.high
  refine ⟨e', E', heq, he', by omega, by omega, ?_, fun t ht => ?_, fun hany => ?_⟩
  · by_cases hfresh : (now : Int) ≤ E'
    · exact .inl hfresh
    · obtain rfl := hlow'.resolve_left hfresh
      exact .inr ⟨by omega, hs.fresh.resolve_left hfresh⟩
  · have := hs.seen t ht
    omega
  · have hcut : E' ≤ ((bucket c now k + j + 1) * 2 ^ c.shift k : Nat) := by
      rcases Bool.or_eq_true_iff.mp hany with hf | hne
      · have hcut := hs.cut hf
        rw [hfound hf, Nat.add_zero]
        omega
      · obtain ⟨t, ht⟩ := exists_mem_of_ne_nil _ (by simpa using hne)
        have h1 := hall t ht
        have h2 := (hbounds t ht).2
        omega
    refine ⟨hcut, fun i' t ht => ?_⟩
    rcases Nat.eq_or_lt_of_le (hempty i' t ht) with hblk | hblk
    · rw [(tvn_block hp hr ht).2.1, ← hblk, ← hi] at ht
      exact hall t ht
    have hmul := Nat.mul_le_mul_right (2 ^ c.shift k) (Nat.succ_le_of_lt hblk)
    have hdiv := Nat.div_mul_le_self (due t) (2 ^ c.shift k)
    have hcast : ((bucket c now k + j + 1) * 2 ^ c.shift k : Nat) ≤ due t :=
      Nat.le_trans hmul hdiv
    omega

/-- The loop over an upper vector: `j` slots have been passed, and were empty. -/
theorem scanTvn_spec (rest : Nat) (hj : j + rest = 2 ^ c.tvnBits) :
    (∃ e' E', scanTvn c b k (bucket c now k % 2 ^ c.tvnBits) rest
        ((bucket c now k + j) % 2 ^ c.tvnBits) found e = .inl e' ∧
      Answer now due b deferrable e' E') ∨
      ∃ found' e' E', scanTvn c b k (bucket c now k % 2 ^ c.tvnBits) rest
        ((bucket c now k + j) % 2 ^ c.tvnBits) found e = .inr (found', e') ∧
      Sought c now due b deferrable (k + 1) found' e' E' := by
  induction rest generalizing j found e E with
  | zero =>
    have hpos := Nat.two_pow_pos c.tvnBits
    obtain rfl : found = false := by
      cases found with
      | true =>
        have := hfound rfl
        omega
      | false => rfl
    refine .inr ⟨false, e, E, rfl, hs.expires, hs.low, hs.high, fun t ht => ?_, by simp, ?_⟩
    · rcases ht.succ with ht | ⟨i, ht⟩
      · exact hs.seen t ht
      · have h1 := hempty i t ht
        have h2 := (tvn_block hp hr ht).2.2.2
        omega
    · exact .inl (hs.fresh.resolve_right (by simp))
  | succ rest ih =>
    obtain ⟨e', E', hlook, he', hlow, hhigh, hfresh, hseen, hany⟩ :=
      lookAt_slot hp hr hk hfound hs hempty rfl (by omega)
    simp only [scanTvn, hlook]
    cases hf : (found || !(b.vec (.tvn k ((bucket c now k + j) % 2 ^ c.tvnBits))).isEmpty) with
    | true =>
      obtain ⟨hcut, hlevel⟩ := hany hf
      have hseen' (t) (ht : Looked deferrable b (k + 1) t) : E' ≤ due t := by
        rcases ht.succ with ht | ⟨i, ht⟩
        · exact hseen t ht
        · exact hlevel i t ht
      by_cases hcascade : bucket c now k % 2 ^ c.tvnBits = 0 ∨
          (bucket c now k + j) % 2 ^ c.tvnBits < bucket c now k % 2 ^ c.tvnBits
      · -- the next vector is cascaded in between
        rw [if_pos hcascade]
        refine .inr ⟨true, e', E', rfl, he', hlow, hhigh, hseen', fun _ => ?_, ?_⟩
        · have hnext : bucket c now k ≤ bucket c now (k + 1) * 2 ^ c.tvnBits := bucket_succ_le k
          have hblocks : bucket c now k + j + 1 ≤ (bucket c now (k + 1) + 1) * 2 ^ c.tvnBits := by
            rw [Nat.succ_mul]
            omega
          have hle := Nat.mul_le_mul_right (2 ^ c.shift k) hblocks
          rw [slot_succ]
          omega
        · rcases hfresh with hfresh | ⟨-, hfd, hnow⟩
          · exact .inl hfresh
          · obtain rfl := hfound hfd
            have hzero : bucket c now k % 2 ^ c.tvnBits = 0 := by
              rw [Nat.add_zero] at hcascade
              omega
            refine .inr ⟨rfl, ?_⟩
            rw [slot_succ, bucket_succ_of_zero k hzero]
            exact hnow
      · rw [if_neg hcascade]
        refine .inl ⟨e', E', rfl, he', hlow, fun t ht => ?_⟩
        rcases ht with ht | ⟨m, i, hm, ht⟩
        · exact hseen' t (.inl ht)
        by_cases hmk : m < k + 1
        · exact hseen' t (.inr ⟨m, i, hmk, ht⟩)
        -- what is further up is cascaded after the slot
        have habove := due_above hp hr (k := k + 1) (by omega) ht
        have hblocks : bucket c now k + j + 1 ≤ bucket c now (k + 1) * 2 ^ c.tvnBits := by
          rw [bucket_succ_eq k (by omega)]
          have hroom := mod_add_lt (show j < 2 ^ c.tvnBits by omega)
            (Nat.le_of_not_lt fun h => hcascade (.inr h))
          omega
        have hle := Nat.mul_le_mul_right (2 ^ c.shift k) hblocks
        rw [slot_succ] at habove
        omega
    | false =>
      obtain ⟨rfl, hnil⟩ : found = false ∧
          b.vec (.tvn k ((bucket c now k + j) % 2 ^ c.tvnBits)) = [] := by
        simpa using hf
      rw [Nat.mod_add_mod]
      refine ih (by simp) ⟨he', hlow, hhigh, hseen, by simp, ?_⟩ ?_ (j := j + 1) (by omega)
      · exact hfresh.imp_right fun h => h.2
      · intro i t ht
        have hle := hempty i t ht
        have hne : bucket c now k + j ≠ due t / 2 ^ c.shift k := by
          intro hblk
          rw [(tvn_block hp hr ht).2.1, ← hblk, hnil] at ht
          exact not_mem_nil ht
        omega

end

/-- The loop over the upper vectors.  Of `timer_jiffies` only the bits that the remaining
vectors use are still right. -/
theorem scanArrays_spec (left level : Nat) (hlevel : left + level = 4)
    (hjiffies : timerJiffies % 2 ^ (32 - c.shift level) = bucket c now level % 2 ^
      (32 - c.shift level))
    (hs : Sought c now due b deferrable level found e E) :
    ∃ E', Answer now due b deferrable (scanArrays c b left level timerJiffies found e) E' := by
  induction left generalizing level timerJiffies found e E with
  | zero =>
    obtain rfl : level = 4 := by omega
    exact ⟨E, hs.expires, hs.low, hs.seen⟩
  | succ left ih =>
    have hbits := shift_add_le c (show level < 4 by omega)
    have hindex : timerJiffies % 2 ^ c.tvnBits = bucket c now level % 2 ^ c.tvnBits := by
      have hdvd : 2 ^ c.tvnBits ∣ 2 ^ (32 - c.shift level) := Nat.pow_dvd_pow 2 (by omega)
      rw [← Nat.mod_mod_of_dvd timerJiffies hdvd, hjiffies, Nat.mod_mod_of_dvd _ hdvd]
    have hscan := scanTvn_spec hp hr (show level < 4 by omega) (fun _ => rfl) hs
      (fun i t ht => (tvn_block hp hr ht).2.2.1) (2 ^ c.tvnBits) (Nat.zero_add _)
    rw [Nat.add_zero] at hscan
    simp only [scanArrays, hindex]
    rcases hscan with ⟨e', E', heq, hans⟩ | ⟨found', e', E', heq, hs'⟩
    · rw [heq]
      exact ⟨E', hans⟩
    rw [heq]
    have hwidth : 32 - c.shift level = c.tvnBits + (32 - c.shift (level + 1)) := by
      rw [shift_succ]
      omega
    rw [hwidth] at hjiffies
    exact ih (level + 1) (by omega) (nextCascade_mod (by omega) hjiffies) hs'

end

/-- The loop over `tv1`: the first timer that counts, `j` rounds from now. -/
theorem scanTv1_spec (hp : Placed c 0 now due b) (deferrable : τ → Bool) (rest j : Nat)
    (hj : j + rest = 2 ^ c.tvrBits)
    (hempty : ∀ i t, t ∈ b.vec (.tv1 i) → deferrable t = false → now + j ≤ due t) :
    (scanTv1 c b deferrable rest ((now + j) % 2 ^ c.tvrBits) = none ∧
      ∀ i t, t ∈ b.vec (.tv1 i) → deferrable t = true) ∨
      ∃ t n, scanTv1 c b deferrable rest ((now + j) % 2 ^ c.tvrBits) =
        some (t, (now + n) % 2 ^ c.tvrBits) ∧
      n < 2 ^ c.tvrBits ∧ t ∈ b.vec (.tv1 ((now + n) % 2 ^ c.tvrBits)) ∧ due t = now + n ∧
      ∀ i u, u ∈ b.vec (.tv1 i) → deferrable u = false → now + n ≤ due u := by
  induction rest generalizing j with
  | zero =>
    refine .inl ⟨rfl, fun i t ht => ?_⟩
    cases hdef : deferrable t with
    | true => rfl
    | false =>
      have h1 := hempty i t ht hdef
      have h2 := (hp.fits _ t ht (by simp)).1
      omega
  | succ rest ih =>
    cases hfind : (b.vec (.tv1 ((now + j) % 2 ^ c.tvrBits))).find? fun nte => !deferrable nte with
    | some t =>
      have ht := mem_of_find?_eq_some hfind
      obtain ⟨hlt, hslot⟩ := hp.fits _ t ht (by simp)
      have hrange := hp.range _ t ht (by simp)
      refine .inr ⟨t, j, by simp only [scanTv1, hfind], by omega, ht, ?_, hempty⟩
      exact eq_of_mod_eq hrange.1 hlt (by omega) (by omega) hslot.symm
    | none =>
      have hnone := find?_eq_none.mp hfind
      have hstep : scanTv1 c b deferrable (rest + 1) ((now + j) % 2 ^ c.tvrBits) =
          scanTv1 c b deferrable rest ((now + (j + 1)) % 2 ^ c.tvrBits) := by
        simp [scanTv1, hfind, Nat.add_assoc]
      rw [hstep]
      refine ih (j + 1) (by omega) fun i t ht hdef => ?_
      have hle := hempty i t ht hdef
      have hne : due t ≠ now + j := by
        intro hdue
        rw [(hp.fits _ t ht (by simp)).2, hdue] at ht
        exact hnone t ht (by simp [hdef])
      omega

/-- The time that `tv1` gives for a timer. -/
theorem Reached.time (hr : Reached c now due b) {head : Head} (ht : t ∈ b.vec head)
    (hwork : head ≠ .work) : ∃ E : Int, (b.expires t : Int) = E % 2 ^ 32 ∧ E ≤ due t ∧
      (E = due t ∨ due t = now ∧ (now : Int) - 2 ^ 30 ≤ E) := by
  rcases hr.expires head t ht hwork with hexp | ⟨hnow, x, hx, hexp⟩
  · exact ⟨due t, by omega, Int.le_refl _, .inl rfl⟩
  · exact ⟨now - x, hexp, by omega, .inr ⟨hnow, by omega⟩⟩

theorem nextTimerInterrupt_spec (hp : Placed c 0 now due b) (hr : Reached c now due b)
    (deferrable : τ → Bool) :
    ∃ E, Answer now due b deferrable (nextTimerInterrupt c deferrable b) E := by
  have hbits := c.int_bits
  have hpow : 2 ^ c.tvrBits ≤ 2 ^ 30 := Nat.pow_le_pow_right (by decide) (by omega)
  have hindex : b.timerJiffies % 2 ^ c.tvrBits = now % 2 ^ c.tvrBits := by
    rw [hp.jiffies, Nat.mod_mod_of_dvd _ (Nat.pow_dvd_pow 2 (by omega))]
  have hshift : c.shift 0 = c.tvrBits := by simp [shift]
  have hcascade : nextCascade c.tvrBits b.timerJiffies % 2 ^ (32 - c.shift 0) =
      bucket c now 0 % 2 ^ (32 - c.shift 0) := by
    rw [hshift]
    refine nextCascade_mod (by omega) ?_
    rw [Nat.add_sub_cancel' (by omega), hp.jiffies, Nat.mod_mod]
  unfold nextTimerInterrupt
  simp only [hindex]
  have hscan := scanTv1_spec hp deferrable (2 ^ c.tvrBits) 0 (Nat.zero_add _)
    fun i t ht _ => (hp.range _ t ht (by simp)).1
  rw [Nat.add_zero] at hscan
  rcases hscan with ⟨heq, hnone⟩ | ⟨t, n, heq, hn, ht, hdue, hfirst⟩
  · rw [heq]
    refine scanArrays_spec hp hr 4 0 rfl hcascade
      (E := (now + nextTimerMaxDelta : Nat)) ⟨?_, ?_, ?_, ?_, by simp, .inl ?_⟩
    · rw [hp.jiffies]
      omega
    · omega
    · simp only [nextTimerMaxDelta]
      omega
    · intro t ht
      rcases ht with ⟨i, ht, hdef⟩ | ⟨m, i, hm, -⟩
      · rw [hnone i t ht] at hdef
        cases hdef
      · omega
    · omega
  · rw [heq]
    dsimp only
    obtain ⟨E, hexp, hle, htime⟩ := hr.time ht (by simp)
    have hseen (i u) (hu : u ∈ b.vec (.tv1 i)) (hdef : deferrable u = false) : E ≤ due u := by
      have := hfirst i u hu hdef
      omega
    have hbucket : now ≤ bucket c now 0 * 2 ^ c.tvrBits := hshift ▸ now_le_bucket 0
    split
    · rename_i hnext
      refine scanArrays_spec hp hr 4 0 rfl hcascade ⟨hexp, by omega, by omega, ?_, fun _ => ?_, ?_⟩
      · intro u hu
        rcases hu with ⟨i, hu, hdef⟩ | ⟨m, i, hm, -⟩
        · exact hseen i u hu hdef
        · omega
      · rw [hshift, Nat.succ_mul]
        omega
      · by_cases hfresh : (now : Int) ≤ E
        · exact .inl hfresh
        · obtain rfl : n = 0 := by omega
          refine .inr ⟨rfl, ?_⟩
          rw [Nat.add_zero] at hnext
          rw [hshift]
          exact (ceilDiv_mul_of_zero (Nat.two_pow_pos _) (by omega)).symm
    · rename_i hnext
      refine ⟨E, hexp, by omega, fun u hu => ?_⟩
      rcases hu with ⟨i, hu, hdef⟩ | ⟨m, i, -, hu⟩
      · exact hseen i u hu hdef
      have habove := due_above hp hr (Nat.zero_le m) hu
      have hroom := mod_add_lt hn (Nat.le_of_not_lt fun h => hnext (.inr h))
      have hceil : bucket c now 0 * 2 ^ c.tvrBits = now + (2 ^ c.tvrBits - now % 2 ^ c.tvrBits) :=
        ceilDiv_mul_of_ne (Nat.two_pow_pos _) (fun h => hnext (.inl h))
      rw [hshift] at habove
      omega

end

/-! ## No timer is overslept -/

section

variable [DecidableEq τ]

/-- An armed timer whose round is not more than 2^31 ahead of `timer_jiffies` is on the
wheel: those on the work list are due in the round before. -/
theorem Inv.onWheel {s : System τ} (h : Inv c evs s) {d : Nat} (hdue : dueIn t evs = some d)
    (hdist : (d % 2 ^ 32 + 2 ^ 32 - s.base.timerJiffies) % 2 ^ 32 < 2 ^ 31) :
    ∃ head, t ∈ s.base.vec head ∧ head ≠ .work := by
  have hpend : s.base.pending t = true := (h.armed t).mpr (by rw [hdue]; rfl)
  obtain ⟨head, ht⟩ := (h.placed.pending t).mp hpend
  refine ⟨head, ht, ?_⟩
  rintro rfl
  have hwork := h.work t ht
  rw [dueOf, hdue, Option.getD_some] at hwork
  rw [h.placed.jiffies] at hdist
  omega

/-- In every run that arms its timers for times in reach: what `__next_timer_interrupt`
returns is not after the round of any armed timer that is not deferrable and at most
`NEXT_TIMER_MAX_DELTA` away. -/
theorem next_timer_not_late {s s' : System τ} {evs : List (Event τ)} (hinit : Initial s)
    (hrun : RunWith (ArmsInReach c) (step c) s evs s') (deferrable : τ → Bool) (t : τ) (d : Nat)
    (hdue : dueIn t evs = some d) (hdef : deferrable t = false)
    (hdist : (d % 2 ^ 32 + 2 ^ 32 - s'.base.timerJiffies) % 2 ^ 32 ≤ nextTimerMaxDelta) :
    timeAfterEq (d % 2 ^ 32) (nextTimerInterrupt c deferrable s'.base) = true := by
  obtain ⟨h, hr⟩ := run_reached hinit hrun
  simp only [nextTimerMaxDelta] at hdist
  obtain ⟨head, ht, hwork⟩ := h.onWheel hdue (by omega)
  have hd : dueOf evs t = d := by rw [dueOf, hdue, Option.getD_some]
  have hrange := h.placed.range head t ht hwork
  obtain ⟨E, hexp, hlow, hseen⟩ := nextTimerInterrupt_spec h.placed hr deferrable
  have hle : E ≤ dueOf evs t := by
    refine hseen t ?_
    cases head with
    | tv1 i => exact .inl ⟨i, ht, hdef⟩
    | tvn k i => exact .inr ⟨k, i, (h.placed.fits _ t ht hwork).1, ht⟩
    | work => exact absurd rfl hwork
  rw [h.placed.jiffies] at hdist
  simp only [timeAfterEq, decide_eq_true_eq]
  omega

/-- A timer in `tv2` and one in `tv3`. -/
theorem next_timer_not_late_atBoot :
    ∃ s', RunWith (ArmsInReach (Config.ofBaseSmall false)) (step (Config.ofBaseSmall false)) atBoot
        [.arm 1 0 70000, .arm 2 0 300] s' ∧
      timeAfterEq 300 (nextTimerInterrupt (Config.ofBaseSmall false) (fun _ => false) s'.base) =
        true := by
  have hreach : ∀ {s : System Nat} {t expires : Nat},
      InReach (ofBaseSmall false) s.base.timerJiffies expires →
      ArmsInReach (ofBaseSmall false) s (Call.modTimer t expires) := by
    rintro s t expires h _ ⟨⟩
    exact h
  have hrun : RunWith (ArmsInReach (ofBaseSmall false)) (step (ofBaseSmall false))
      atBoot ([.arm 1 0 70000] ++ [.arm 2 0 300]) _ :=
    .tail (Call.modTimer 2 300)
      (.tail (Call.modTimer 1 70000) (.refl _) (hreach (by decide)) rfl) (hreach (by decide)) rfl
  exact ⟨_, hrun, next_timer_not_late atBoot_initial hrun (fun _ => false) 2 300 rfl rfl (by decide)⟩

/-- With CONFIG_BASE_SMALL `tv5` covers 2^22 jiffies: a timer for 17 * 2^18 is in the slot
of `tv5` that is cascaded at 2^18.  The function finds it first, and does not look at the
slot with the timer for 5 * 2^18. -/
theorem next_timer_late_baseSmall :
    ∃ s', Run (step (Config.ofBaseSmall true)) atBoot
        [.arm 1 0 (17 * 2 ^ 18), .arm 2 0 (5 * 2 ^ 18)] s' ∧
      dueIn 2 [.arm 1 0 (17 * 2 ^ 18), .arm 2 0 (5 * 2 ^ 18)] = some (5 * 2 ^ 18) ∧
      (5 * 2 ^ 18 + 2 ^ 32 - s'.base.timerJiffies) % 2 ^ 32 ≤ nextTimerMaxDelta ∧
      timeAfterEq (5 * 2 ^ 18)
        (nextTimerInterrupt (Config.ofBaseSmall true) (fun _ => false) s'.base) = false := by
  have hrun : Run (step (ofBaseSmall true)) atBoot
      [.arm 1 0 (17 * 2 ^ 18), .arm 2 0 (5 * 2 ^ 18)] _ :=
    .of_calls [.modTimer 1 (17 * 2 ^ 18), .modTimer 2 (5 * 2 ^ 18)] rfl
  exact ⟨_, hrun, by decide, by decide, by decide +kernel⟩

end

end LinuxKernel.Kernel.Timer
