/-
  The firing law of the timer wheel, over whole runs.

  The events of a run say for every timer whether it is armed and for which round
  (`dueIn`).  The invariant ties that to the base: exactly the armed timers are
  linked, each where it belongs, and a timer on the work list is due in the round
  under way.  So a handler is called in the round its timer is due in, and when
  that round is over no timer due in it is left.
-/
import LinuxKernel.Kernel.TimerWheel

namespace LinuxKernel.Kernel.Timer

open Event Foundation Function List Config

variable {τ : Type}

/-! ## What the events say -/

section

variable [DecidableEq τ]

/-- The effect of an event on the round in which `t` is due, if it is armed. -/
def Event.update (t : τ) (due : Option Nat) : Event τ → Option Nat
  | .arm u round expires => if u = t then some (dueRound round expires) else due
  | .del u => if u = t then none else due
  | .begin _ => due
  | .exec u _ => if u = t then none else due

/-- The round in which `t` is due after the events, if it is armed then. -/
def dueIn (t : τ) (evs : List (Event τ)) : Option Nat :=
  evs.foldl (fun due ev => ev.update t due) none

theorem dueIn_snoc (t : τ) (evs : List (Event τ)) (ev : Event τ) :
    dueIn t (evs ++ [ev]) = ev.update t (dueIn t evs) := by
  simp [dueIn]

/-- Every call of a handler is of an armed timer, in the round it is due in. -/
def Timely (evs : List (Event τ)) : Prop :=
  ∀ pre t n post, evs = pre ++ .exec t n :: post → dueIn t pre = some n

theorem Timely.nil : Timely ([] : List (Event τ)) := by
  intro pre t n post h
  simp at h

theorem Timely.snoc {evs : List (Event τ)} (h : Timely evs) {ev : Event τ}
    (hev : ∀ t n, ev = .exec t n → dueIn t evs = some n) : Timely (evs ++ [ev]) := by
  intro pre t n post heq
  rcases eq_nil_or_concat post with rfl | ⟨post, last, rfl⟩
  · obtain ⟨rfl, hlast⟩ := append_inj' heq rfl
    exact hev t n (by simpa using hlast)
  · have heq' : evs ++ [ev] = (pre ++ .exec t n :: post) ++ [last] := by simpa using heq
    obtain ⟨rfl, -⟩ := append_inj' heq' rfl
    exact h pre t n post rfl

end

/-! ## Arming and detaching -/

variable {expires : Nat}

section

variable {c : Config} {now : Nat} {due : τ → Nat} {b : Base τ}

/-- The due rounds matter only for linked timers. -/
theorem Placed.congr {due' : τ → Nat} (h : Placed c 0 now due b)
    (hdue : ∀ head t, t ∈ b.vec head → due' t = due t) : Placed c 0 now due' b :=
  { h with
    fits := fun head t ht hwork => by rw [hdue head t ht]; exact h.fits head t ht hwork
    range := fun head t ht hwork => by rw [hdue head t ht]; exact h.range head t ht hwork
    expires := fun k i t ht => by rw [hdue _ t ht]; exact h.expires k i t ht }

variable [DecidableEq τ]

section

variable (h : Placed c 0 now due b)
include h

/-- A detached timer is on no list; the others stay where they are. -/
theorem Placed.detach (t : τ) :
    Placed c 0 now due (detachTimer b t) ∧ ∀ head, t ∉ (detachTimer b t).vec head := by
  have hmem : ∀ head u, u ∈ (detachTimer b t).vec head ↔ u ≠ t ∧ u ∈ b.vec head :=
    fun head u => Queues.mem_unlink h.separate
  refine ⟨⟨h.jiffies, h.separate.unlink t, ?_, ?_, ?_, ?_⟩, ?_⟩
  · intro u
    simp only [hmem]
    by_cases hut : u = t
    · simp [detachTimer, hut]
    · simp only [detachTimer, ne_eq, hut, not_false_eq_true, true_and, update_of_ne]
      exact h.pending u
  · exact fun head u hu hwork => h.fits head u ((hmem head u).mp hu).2 hwork
  · exact fun head u hu hwork => h.range head u ((hmem head u).mp hu).2 hwork
  · exact fun k i u hu => h.expires k i u ((hmem _ u).mp hu).2
  · exact fun head ht => ((hmem head t).mp ht).1 rfl

/-- A timer that is on no list is linked where it belongs. -/
theorem Placed.add {t : τ} (hnew : ∀ head, t ∉ b.vec head) (hexp : expires < 2 ^ 32) :
    Placed c 0 now (update due t (dueRound now expires))
        (internalAddTimer c { b with expires := update b.expires t expires } t) ∧
      ∀ u, u ∈ (internalAddTimer c { b with expires := update b.expires t expires } t).vec
        .work ↔ u ∈ b.vec .work := by
  obtain ⟨hfits, hround⟩ := chooseVec_arm c now hexp
  have hrange := dueRound_range now expires
  have hhead : chooseVec c expires b.timerJiffies = chooseVec c expires (now % 2 ^ 32) := by
    rw [h.jiffies]
  have hnowork : chooseVec c expires (now % 2 ^ 32) ≠ .work := by
    intro heq
    rw [heq] at hfits
    exact hfits
  have hmem : ∀ head u,
      u ∈ (internalAddTimer c { b with expires := update b.expires t expires } t).vec head ↔
        u ∈ b.vec head ∨ (head = chooseVec c expires (now % 2 ^ 32) ∧ u = t) := by
    intro head u
    rw [← hhead]
    simp only [internalAddTimer, update_self]
    exact Queues.mem_addTail
  have hne (head u) (hu : u ∈ b.vec head) : u ≠ t := fun heq => hnew head (heq ▸ hu)
  refine ⟨⟨h.jiffies, h.separate.addTail hnew _, ?_, ?_, ?_, ?_⟩, ?_⟩
  · intro u
    simp only [hmem]
    by_cases hut : u = t
    · simp [internalAddTimer, hut]
    · simp only [internalAddTimer, hut, and_false, or_false, ne_eq, not_false_eq_true, update_of_ne]
      exact h.pending u
  · intro head u hu hwork
    rcases (hmem head u).mp hu with hold | ⟨rfl, rfl⟩
    · rw [update_of_ne (hne head u hold)]
      exact h.fits head u hold hwork
    · rw [update_self]
      exact hfits.mono (Nat.zero_le _)
  · intro head u hu hwork
    rcases (hmem head u).mp hu with hold | ⟨-, rfl⟩
    · rw [update_of_ne (hne head u hold)]
      exact h.range head u hold hwork
    · rw [update_self]
      exact hrange
  · intro k i u hu
    rcases (hmem _ u).mp hu with hold | ⟨heq, rfl⟩
    · simp only [internalAddTimer, update_of_ne (hne _ u hold)]
      exact h.expires k i u hold
    · simp only [internalAddTimer, update_self]
      exact hround k i heq.symm
  · intro u
    rw [hmem]
    constructor
    · rintro (hu | ⟨heq, -⟩)
      · exact hu
      · exact absurd heq.symm hnowork
    · exact Or.inl

/-- `__mod_timer`, from any state of the timer. -/
theorem Placed.modTimerLocked (t : τ) (hexp : expires < 2 ^ 32) :
    Placed c 0 now (update due t (dueRound now expires))
        (modTimerLocked c b t expires).1 ∧
      ∀ u, u ∈ (modTimerLocked c b t expires).1.vec .work → u ≠ t ∧ u ∈ b.vec .work := by
  cases hpend : b.pending t with
  | true =>
    obtain ⟨hdet, hnew⟩ := h.detach t
    obtain ⟨hplaced, hwork⟩ := hdet.add hnew hexp
    simp only [Timer.modTimerLocked, hpend]
    exact ⟨hplaced, fun u hu => (Queues.mem_unlink h.separate).mp ((hwork u).mp hu)⟩
  | false =>
    have hnew (head) : t ∉ b.vec head := by
      intro ht
      have := (h.pending t).mpr ⟨head, ht⟩
      rw [hpend] at this
      exact Bool.false_ne_true this
    obtain ⟨hplaced, hwork⟩ := h.add hnew hexp
    simp only [Timer.modTimerLocked, hpend]
    exact ⟨hplaced, fun u hu => ⟨fun heq => hnew .work (heq ▸ (hwork u).mp hu), (hwork u).mp hu⟩⟩

end

theorem modTimerLocked_pending (c : Config) (b : Base τ) (t u : τ) (expires : Nat) :
    (modTimerLocked c b t expires).1.pending u = true ↔ u = t ∨ b.pending u = true := by
  by_cases hut : u = t
  · simp [Timer.modTimerLocked, internalAddTimer, hut]
  · cases hpend : b.pending t <;>
      simp [Timer.modTimerLocked, internalAddTimer, detachTimer, hpend, hut]

end

/-! ## The invariant -/

section

variable [DecidableEq τ] {c : Config} {s : System τ}

/-- The due round of a timer after the events; 0 for a timer that is not armed. -/
def dueOf (evs : List (Event τ)) (t : τ) : Nat := (dueIn t evs).getD 0

structure Inv (c : Config) (evs : List (Event τ)) (s : System τ) : Prop where
  placed : Placed c 0 s.round (dueOf evs) s.base
  armed : ∀ t, s.base.pending t = true ↔ (dueIn t evs).isSome = true
  work : ∀ t ∈ s.base.vec .work, dueOf evs t + 1 = s.round
  phase : s.phase = .idle ∨ s.phase = .outer → s.base.vec .work = []
  timely : Timely evs
  bounded : ∀ t round expires, .arm t round expires ∈ evs → expires < 2 ^ 32

theorem Initial.inv (h : Initial s) : Inv c [] s := by
  have hnone (head t) : t ∉ s.base.vec head := by
    intro ht
    rw [h.vec head] at ht
    exact not_mem_nil ht
  refine ⟨⟨h.round, ⟨fun head => by simp [h.vec], fun ht _ => absurd ht (hnone _ _)⟩, ?_, ?_, ?_,
    ?_⟩, ?_, ?_, fun _ => h.vec _, .nil, by simp⟩
  · intro t
    rw [h.pending]
    exact ⟨fun hfalse => absurd hfalse Bool.false_ne_true, fun ⟨head, ht⟩ => absurd ht (hnone _ _)⟩
  · exact fun head t ht _ => absurd ht (hnone _ _)
  · exact fun head t ht _ => absurd ht (hnone _ _)
  · exact fun k i t ht => absurd ht (hnone _ _)
  · intro t
    rw [h.pending]
    simp [dueIn]
  · exact fun t ht => absurd ht (hnone _ _)

/-- A step that leaves the base alone. -/
theorem Inv.of_base {evs : List (Event τ)} {s s' : System τ} (h : Inv c evs s)
    (hbase : s'.base = s.base) (hround : s'.round = s.round)
    (hphase : s'.phase = .idle ∨ s'.phase = .outer → s.base.vec .work = []) : Inv c evs s' := by
  refine ⟨?_, ?_, ?_, ?_, h.timely, h.bounded⟩
  · rw [hbase, hround]
    exact h.placed
  · rw [hbase]
    exact h.armed
  · rw [hbase, hround]
    exact h.work
  · rw [hbase]
    exact hphase

theorem dueOf_arm (evs : List (Event τ)) (t : τ) (round expires : Nat) :
    dueOf (evs ++ [.arm t round expires]) =
      update (dueOf evs) t (dueRound round expires) := by
  funext u
  rw [dueOf, dueIn_snoc]
  by_cases hut : u = t
  · rw [hut, Event.update, if_pos rfl, Option.getD_some, update_self]
  · rw [Event.update, if_neg (Ne.symm hut), update_of_ne hut, dueOf]

theorem Inv.arm {evs : List (Event τ)} (h : Inv c evs s) (t : τ) (hexp : expires < 2 ^ 32) :
    Inv c (evs ++ [.arm t s.round expires])
      { s with base := (modTimerLocked c s.base t expires).1 } := by
  obtain ⟨hplaced, hwork⟩ := h.placed.modTimerLocked t hexp
  have hdue := dueOf_arm evs t s.round expires
  refine ⟨?_, ?_, ?_, ?_, h.timely.snoc (by simp), ?_⟩
  · rw [hdue]
    exact hplaced
  · intro u
    rw [modTimerLocked_pending, dueIn_snoc, h.armed]
    by_cases hut : u = t
    · simp [Event.update, hut]
    · simp [Event.update, hut, Ne.symm hut]
  · intro u hu
    obtain ⟨hne, hold⟩ := hwork u hu
    rw [hdue, update_of_ne hne]
    exact h.work u hold
  · intro hphase
    have hempty := h.phase hphase
    refine eq_nil_iff_forall_not_mem.mpr fun u hu => ?_
    have hold := (hwork u hu).2
    rw [hempty] at hold
    exact not_mem_nil hold
  · intro u round e hmem
    rcases mem_append.mp hmem with hold | hnew
    · exact h.bounded u round e hold
    · obtain ⟨-, -, rfl⟩ : u = t ∧ round = s.round ∧ e = expires := by simpa using hnew
      exact hexp

/-- Detaching a timer, with an event that says so. -/
theorem Inv.detach {evs : List (Event τ)} (h : Inv c evs s) {t : τ}
    {ev : Event τ} (hev : ∀ u d, ev.update u d = if t = u then none else d)
    (hnew : ∀ u round expires, .arm u round expires ≠ ev)
    (hexec : ∀ u n, ev = .exec u n → dueIn u evs = some n) (phase : Phase τ)
    (hphase : phase = .idle ∨ phase = .outer → s.base.vec .work = []) :
    Inv c (evs ++ [ev]) { s with base := detachTimer s.base t, phase := phase } := by
  obtain ⟨hplaced, hout⟩ := h.placed.detach t
  have hmem : ∀ head u, u ∈ (detachTimer s.base t).vec head ↔ u ≠ t ∧ u ∈ s.base.vec head :=
    fun head u => Queues.mem_unlink h.placed.separate
  have hdue (u) (hut : u ≠ t) : dueOf (evs ++ [ev]) u = dueOf evs u := by
    rw [dueOf, dueIn_snoc, hev, if_neg (Ne.symm hut), dueOf]
  refine ⟨?_, ?_, ?_, ?_, h.timely.snoc hexec, ?_⟩
  · exact hplaced.congr fun head u hu => hdue u ((hmem head u).mp hu).1
  · intro u
    rw [dueIn_snoc, hev]
    by_cases hut : u = t
    · simp [detachTimer, hut]
    · simp only [detachTimer, update_of_ne hut, if_neg (Ne.symm hut)]
      exact h.armed u
  · intro u hu
    obtain ⟨hne, hold⟩ := (hmem _ u).mp hu
    rw [hdue u hne]
    exact h.work u hold
  · intro hp
    refine eq_nil_iff_forall_not_mem.mpr fun u hu => ?_
    have hold := ((hmem _ u).mp hu).2
    rw [hphase hp] at hold
    exact not_mem_nil hold
  · intro u round expires hmem'
    rcases mem_append.mp hmem' with hold | hlast
    · exact h.bounded u round expires hold
    · exact absurd (mem_singleton.mp hlast) (hnew u round expires)

/-- Beginning a round. -/
theorem Inv.begin {evs : List (Event τ)} (h : Inv c evs s) (hphase : s.phase = .outer) :
    Inv c (evs ++ [.begin s.round])
      { s with base := startRound c s.base, phase := .inner, round := s.round + 1 } := by
  obtain ⟨hplaced, hwork, hpend⟩ := h.placed.startRound (h.phase (Or.inr hphase))
  have hsame (t) : dueIn t (evs ++ [.begin s.round]) = dueIn t evs := by
    rw [dueIn_snoc]
    rfl
  have hdue : dueOf (evs ++ [.begin s.round]) = dueOf evs := by
    funext t
    rw [dueOf, hsame, dueOf]
  refine ⟨?_, ?_, ?_, by simp, h.timely.snoc (by simp), ?_⟩
  · rw [hdue]
    exact hplaced
  · intro t
    rw [hsame]
    exact (Bool.eq_iff_iff.mp (hpend t)).trans (h.armed t)
  · intro t ht
    rw [hdue, hwork t ht]
  · intro t round expires hmem
    rcases mem_append.mp hmem with hold | hlast
    · exact h.bounded t round expires hold
    · simp at hlast

/-- The time that a call arms its timer for. -/
def Call.armsFor : Call τ → Option Nat
  | .modTimerLocked _ expires => some expires
  | .addTimerOn _ expires => some expires
  | .modTimer _ expires => some expires
  | _ => none

/-- What one step can do. -/
inductive Effect (c : Config) (s : System τ) : Call τ → System τ → List (Event τ) → Prop
  /-- the base is left alone -/
  | none (call : Call τ) (s' : System τ) : s'.base = s.base → s'.round = s.round →
      (s'.phase = .idle ∨ s'.phase = .outer →
        s.base.vec .work = [] ∨ s.phase = .idle ∨ s.phase = .outer) → Effect c s call s' []
  | arm (call : Call τ) (t : τ) (expires : Nat) : call.armsFor = some expires → expires < 2 ^ 32 →
      Effect c s call { s with base := (modTimerLocked c s.base t expires).1 }
        [.arm t s.round expires]
  | del (call : Call τ) (t : τ) :
      Effect c s call { s with base := detachTimer s.base t } [.del t]
  | begin (call : Call τ) : s.phase = .outer →
      Effect c s call { s with base := startRound c s.base, phase := .inner, round := s.round + 1 }
        [.begin s.round]
  | exec (call : Call τ) (t : τ) : t ∈ s.base.vec .work →
      Effect c s call { s with base := detachTimer s.base t, phase := .handler t }
        [.exec t (s.round - 1)]

theorem step_effect {new : List (Event τ)} {s s' : System τ} (call : Call τ)
    (hstep : step c s call = some (s', new)) : Effect c s call s' new := by
  cases call with
  | tick n =>
    cases hstep
    exact .none _ _ rfl rfl .inr
  | initTimer t =>
    simp only [step] at hstep
    split at hstep
    · cases hstep
    · cases hstep
      exact .none _ _ rfl rfl .inr
  | modTimerLocked t expires =>
    simp only [step] at hstep
    split at hstep
    · rename_i hcond
      cases hstep
      exact .arm _ t expires rfl hcond.2.2
    · cases hstep
  | addTimerOn t expires =>
    simp only [step] at hstep
    split at hstep
    · rename_i hcond
      cases hpend : s.base.pending t with
      | true => simp [Timer.addTimerOn, hpend] at hstep
      | false =>
        -- the timer is not linked, so this is what `__mod_timer` does
        have hsame : Timer.addTimerOn c s.base t expires =
            some (Timer.modTimerLocked c s.base t expires).1 := by
          simp [Timer.addTimerOn, Timer.modTimerLocked, hpend]
        rw [hsame] at hstep
        cases hstep
        exact .arm _ t expires rfl hcond.2.2
    · cases hstep
  | modTimer t expires =>
    simp only [step] at hstep
    split at hstep
    · rename_i hcond
      split at hstep
      · cases hstep
        exact .none _ _ rfl rfl .inr
      · cases hstep
        exact .arm _ t expires rfl hcond.2.2
    · cases hstep
  | delTimer t =>
    simp only [step, Timer.delTimer] at hstep
    split at hstep
    · cases hpend : s.base.pending t with
      | true =>
        simp only [hpend] at hstep
        cases hstep
        exact .del _ t
      | false =>
        simp only [hpend] at hstep
        cases hstep
        exact .none _ _ rfl rfl .inr
    · cases hstep
  | runTimers =>
    simp only [step] at hstep
    split at hstep
    · rename_i hphase
      cases hstep
      exact .none _ _ rfl rfl fun _ => .inr (.inl hphase)
    · cases hstep
  | outerLoop =>
    simp only [step] at hstep
    split at hstep
    · rename_i hphase
      split at hstep
      · cases hstep
        exact .begin _ hphase
      · cases hstep
        exact .none _ _ rfl rfl fun _ => .inr (.inr hphase)
    · cases hstep
  | innerLoop =>
    simp only [step] at hstep
    split at hstep
    · rename_i hphase hempty
      cases hstep
      exact .none _ _ rfl rfl fun _ => .inl hempty
    · rename_i t rest hphase hwork
      cases hstep
      exact .exec _ t (by simp [hwork])
    · cases hstep
  | handlerReturns =>
    simp only [step] at hstep
    split at hstep
    · cases hstep
      exact .none _ _ rfl rfl (by simp)
    · cases hstep

/-- Every step keeps the invariant. -/
theorem step_inv {evs new : List (Event τ)} {s s' : System τ} (call : Call τ) (h : Inv c evs s)
    (hstep : step c s call = some (s', new)) : Inv c (evs ++ new) s' := by
  cases step_effect call hstep with
  | none _ hbase hround hphase =>
    rw [append_nil]
    exact h.of_base hbase hround fun hp => (hphase hp).elim id h.phase
  | arm t expires _ hexp => exact h.arm t hexp
  | del t => exact h.detach (fun _ _ => rfl) (by simp) (by simp) s.phase h.phase
  | begin hphase => exact h.begin hphase
  | exec t ht =>
    refine h.detach (fun _ _ => rfl) (by simp) ?_ (.handler t) (by simp)
    -- a timer on the work list is due in the round under way
    intro u n hev
    obtain ⟨rfl, rfl⟩ := exec.inj hev
    have hsome := (h.armed t).mp ((h.placed.pending t).mpr ⟨_, ht⟩)
    obtain ⟨d, hd⟩ := Option.isSome_iff_exists.mp hsome
    have hdue := h.work t ht
    rw [dueOf, hd, Option.getD_some] at hdue
    rw [hd, ← hdue, Nat.add_sub_cancel]

theorem run_inv {s s' : System τ} {evs : List (Event τ)} (hinit : Initial s)
    (hrun : Run (step c) s evs s') : Inv c evs s' :=
  hrun.invariant hinit.inv fun call h hstep =>
    step_inv call h hstep

/-- The round is over: a later one has begun, or the inner loop has ended. -/
def System.RoundOver (s : System τ) (n : Nat) : Prop :=
  n + 1 < s.round ∨ (n + 1 = s.round ∧ (s.phase = .idle ∨ s.phase = .outer))

/-- When a round is over, no timer due in it is left. -/
theorem Inv.not_due {evs : List (Event τ)} (h : Inv c evs s) {t : τ} {n : Nat}
    (hover : s.RoundOver n) : dueIn t evs ≠ some n := by
  intro hdue
  have hpend : s.base.pending t = true := (h.armed t).mpr (by simp [hdue])
  obtain ⟨head, ht⟩ := (h.placed.pending t).mp hpend
  have hof : dueOf evs t = n := by rw [dueOf, hdue, Option.getD_some]
  by_cases hwork : head = .work
  · subst hwork
    have hround := h.work t ht
    rcases hover with hlt | ⟨-, hphase⟩
    · omega
    · rw [h.phase hphase] at ht
      exact not_mem_nil ht
  · have hrange := h.placed.range head t ht hwork
    rcases hover with hlt | ⟨heq, -⟩ <;> omega

end

/-! ## The firing law -/

section

variable [DecidableEq τ] {pre : List (Event τ)}

/-- The event is a call of the handler of `t`. -/
def Event.isExec (t : τ) : Event τ → Bool
  | .exec u _ => decide (u = t)
  | _ => false

/-- The event deletes `t` or arms it anew. -/
def Event.removes (t : τ) : Event τ → Bool
  | .arm u _ _ => decide (u = t)
  | .del u => decide (u = t)
  | _ => false

/-- All other events leave the timer alone. -/
theorem update_eq_self {t : τ} {ev : Event τ} (hrem : ev.removes t = false)
    (hexec : ev.isExec t = false) (due : Option Nat) : ev.update t due = due := by
  cases ev with
  | arm | del => exact if_neg (of_decide_eq_false hrem)
  | begin round => rfl
  | exec u n => exact if_neg (of_decide_eq_false hexec)

/-- Without deletion or arming, a timer that is not armed is not called. -/
theorem no_exec_of_not_armed {t : τ} (post : List (Event τ)) (htimely : Timely (pre ++ post))
    (hnone : dueIn t pre = none) (hkeep : ∀ ev ∈ post, ev.removes t = false) :
    post.filter (·.isExec t) = [] ∧ dueIn t (pre ++ post) = none := by
  induction post generalizing pre with
  | nil => simpa using hnone
  | cons ev post ih =>
    have hassoc : pre ++ ev :: post = (pre ++ [ev]) ++ post := by simp
    have hexec : ev.isExec t = false := by
      cases ev with
      | exec u n =>
        simp only [isExec, decide_eq_false_iff_not]
        rintro rfl
        have hsome := htimely pre u n post rfl
        rw [hnone] at hsome
        cases hsome
      | _ => rfl
    have hstill : dueIn t (pre ++ [ev]) = none := by
      rw [dueIn_snoc, hnone]
      exact update_eq_self (hkeep ev (by simp)) hexec none
    rw [hassoc] at htimely ⊢
    obtain ⟨hfilter, hend⟩ := ih htimely hstill fun e he => hkeep e (by simp [he])
    exact ⟨by rw [filter_cons, hexec]; exact hfilter, hend⟩

/-- Without deletion or arming, an armed timer is called at most once, in its round;
if it is not called, it is still armed. -/
theorem exec_of_armed {t : τ} {n : Nat} (post : List (Event τ)) (htimely : Timely (pre ++ post))
    (hsome : dueIn t pre = some n) (hkeep : ∀ ev ∈ post, ev.removes t = false) :
    (post.filter (·.isExec t) = [] ∧ dueIn t (pre ++ post) = some n) ∨
      post.filter (·.isExec t) = [.exec t n] := by
  induction post generalizing pre with
  | nil => left; simpa using hsome
  | cons ev post ih =>
    have hassoc : pre ++ ev :: post = (pre ++ [ev]) ++ post := by simp
    have hkeep' (e) (he : e ∈ post) : e.removes t = false := hkeep e (by simp [he])
    by_cases hexec : ev.isExec t = true
    · -- this is the call; afterwards the timer is not armed
      obtain ⟨m, rfl⟩ : ∃ m, ev = .exec t m := by
        cases ev with
        | exec u m =>
          simp only [isExec, decide_eq_true_eq] at hexec
          exact ⟨m, by rw [hexec]⟩
        | _ => simp [isExec] at hexec
      have hm := htimely pre t m post rfl
      rw [hsome, Option.some.injEq] at hm
      subst hm
      right
      rw [hassoc] at htimely
      have hnone : dueIn t (pre ++ [.exec t n]) = none := by
        rw [dueIn_snoc]
        simp [Event.update]
      obtain ⟨hfilter, -⟩ := no_exec_of_not_armed post htimely hnone hkeep'
      rw [filter_cons, hexec, if_pos rfl, hfilter]
    · have hexec' : ev.isExec t = false := by simpa using hexec
      have hstill : dueIn t (pre ++ [ev]) = some n := by
        rw [dueIn_snoc, hsome]
        exact update_eq_self (hkeep ev (by simp)) hexec' _
      rw [hassoc] at htimely ⊢
      have hrest := ih htimely hstill hkeep'
      rw [filter_cons, hexec']
      exact hrest

/-- The firing law.  Take any run, and in it an arming of `t` for `expires` before
round `round`, when `timer_jiffies` is `round % 2^32`.  As long as `t` is neither
deleted nor armed again, its handler is called at most once, and only in the round
whose `timer_jiffies`, before it is counted up, is the later of `expires` and the
`timer_jiffies` of the arming; when that round is over, the handler has been called
exactly once. -/
theorem timer_fires_once {c : Config} {s s' : System τ} {pre post : List (Event τ)} {t : τ}
    {round expires : Nat} (hinit : Initial s)
    (hrun : Run (step c) s (pre ++ .arm t round expires :: post) s')
    (hkeep : ∀ ev ∈ post, ev.removes t = false) :
    s'.base.timerJiffies = s'.round % 2 ^ 32 ∧
    dueRound round expires % 2 ^ 32 = laterOf expires (round % 2 ^ 32) ∧
    (post.filter (·.isExec t) = [] ∨
      post.filter (·.isExec t) = [.exec t (dueRound round expires)]) ∧
    (s'.RoundOver (dueRound round expires) →
      post.filter (·.isExec t) = [.exec t (dueRound round expires)]) := by
  have h := run_inv hinit hrun
  have hassoc : pre ++ .arm t round expires :: post =
      (pre ++ [.arm t round expires]) ++ post := by simp
  have harmed : dueIn t (pre ++ [.arm t round expires]) = some (dueRound round expires) := by
    rw [dueIn_snoc, Event.update, if_pos rfl]
  have htimely := h.timely
  rw [hassoc] at htimely
  have hlife := exec_of_armed post htimely harmed hkeep
  have hexp : expires < 2 ^ 32 := h.bounded t round expires (by simp)
  refine ⟨h.placed.jiffies, dueRound_mod hexp, ?_, ?_⟩
  · rcases hlife with ⟨hnone, -⟩ | honce
    · exact Or.inl hnone
    · exact Or.inr honce
  · intro hover
    rcases hlife with ⟨-, hstill⟩ | honce
    · rw [← hassoc] at hstill
      exact absurd hstill (h.not_due hover)
    · exact honce

end

/-! ## Two runs -/

/-- A fresh base at time 0. -/
def atBoot : System Nat where
  base := ⟨0, fun _ => [], fun _ => 0, fun _ => false⟩
  jiffies := 0
  phase := .idle
  initialised := fun _ => true
  round := 0

theorem atBoot_initial : Initial atBoot := ⟨fun _ => rfl, fun _ => rfl, rfl, rfl⟩

/-- A timer for time 0 is called in round 0. -/
theorem timer_fires_once_at_zero :
    ∃ s', Run (step (Config.ofBaseSmall false)) atBoot [.arm 1 0 0, .begin 0, .exec 1 0] s' ∧
      s'.RoundOver 0 ∧
      [Event.begin 0, .exec 1 0].filter (·.isExec 1) = [.exec 1 (dueRound 0 0)] := by
  have hrun : Run (step (ofBaseSmall false)) atBoot ([] ++ .arm 1 0 0 :: [.begin 0, .exec 1 0]) _ :=
    .of_calls [.modTimer 1 0, .runTimers, .outerLoop, .innerLoop, .handlerReturns, .innerLoop] rfl
  refine ⟨_, hrun, Or.inr ⟨rfl, Or.inr rfl⟩, ?_⟩
  exact (timer_fires_once atBoot_initial hrun (by decide)).2.2.2 (Or.inr ⟨rfl, Or.inr rfl⟩)

/-- Two timers for time 0, and the handler of the first deletes the second: the
second one is due in round 0, is neither deleted nor armed again before that round
begins, and is not called although the round is over. -/
theorem timer_deleted_in_its_round :
    ∃ mid post s', Run (step (Config.ofBaseSmall false)) atBoot
        ([.arm 1 0 0] ++ .arm 2 0 0 :: (mid ++ .begin 0 :: post)) s' ∧
      (∀ ev ∈ mid, ev.removes 2 = false) ∧ dueRound 0 0 = 0 ∧ s'.RoundOver 0 ∧
      (mid ++ .begin 0 :: post).filter (·.isExec 2) = [] := by
  have hrun : Run (step (ofBaseSmall false)) atBoot
      ([.arm 1 0 0] ++ .arm 2 0 0 :: ([] ++ .begin 0 :: [.exec 1 0, .del 2])) _ :=
    .of_calls [.modTimer 1 0, .modTimer 2 0, .runTimers, .outerLoop, .innerLoop, .delTimer 2,
      .handlerReturns, .innerLoop] rfl
  exact ⟨[], _, _, hrun, by simp, by decide, Or.inr ⟨rfl, Or.inr rfl⟩, by decide⟩

end LinuxKernel.Kernel.Timer
