/-
  Counting semaphores.

  Source: arch/arm/kernel/semaphore.c, include/asm-arm/semaphore.h, include/asm-arm/locks.h,
  `__wake_up_common` of kernel/sched.c.

  A step of a task is one access to what tasks share: the count, the queue, or all that
  `semaphore_lock` protects.
-/
import LinuxKernel.Foundation.Run

namespace LinuxKernel.Kernel.Semaphore

open Foundation Function List

variable {T : Type}

inductive Down where
  | down
  | downInterruptible
  | downTrylock
  deriving DecidableEq

/-- Of a task on the queue: about to take the lock, in `schedule`, or behind the loop -/
inductive Stage where
  | loop (first : Bool)
  | waiting
  | leaving

inductive Place where
  | out
  | failed (how : Down)
  | queued (stage : Stage) (intr : Bool)
  /-- about to call `wake_up` -/
  | waking

/-- `asleep` unless `state` is `TASK_RUNNING` -/
structure Task where
  place : Place
  asleep : Bool

structure State (T : Type) where
  count : Int
  sleepers : Nat
  wait : List T
  task : T → Task

section

variable [DecidableEq T]

def State.move (s : State T) (t : T) (place : Place) (asleep : Bool) : State T :=
  { s with task := update s.task t ⟨place, asleep⟩ }

inductive Event where
  | acquired
  | refused (ret : Int)
  | up
  deriving DecidableEq

def semaInit (val : Nat) : State T := ⟨val, 0, [], fun _ => ⟨.out, false⟩⟩

/-- `wake_up`: the first of the queue that is asleep -/
def wakeUp (s : State T) : State T :=
  match s.wait.find? fun t => (s.task t).asleep with
  | none => s
  | some t => s.move t (s.task t).place false

/-- `__down_op` and `__down_op_ret` -/
def downOp (s : State T) (t : T) (how : Down) : State T × List Event :=
  let s := { s with count := s.count - 1 }
  if s.count < 0 then (s.move t (.failed how) false, []) else (s, [.acquired])

/-- A round of the loop of `__down` and `__down_interruptible` -/
def downRound (s : State T) (t : T) (intr first pending : Bool) : State T × List Event :=
  let goTo count sleepers stage :=
    ({ s with count, sleepers } : State T).move t (.queued stage intr) (s.task t).asleep
  let sleepers := s.sleepers + first.toNat
  let count := s.count + (sleepers - 1)
  if intr && pending then (goTo (s.count + sleepers) 0 .leaving, [.refused (-4)])
  else if count < 0 then (goTo count 1 .waiting, [])
  else (goTo count 0 .leaving, [.acquired])

/-- `__down_trylock` -/
def downTrylock (s : State T) (t : T) : State T :=
  let s := ({ s with count := s.count + (s.sleepers + 1), sleepers := 0 }).move t .out false
  if s.count < 0 then s else wakeUp s

inductive Act where
  | call (how : Down)
  | up
  | goOn (signalPending : Bool)
  /-- a signal, or `TASK_RUNNING` at the end of `__down_interruptible` -/
  | signal

def step (s : State T) : T × Act → Option (State T × List Event)
  | (t, act) =>
    match act, (s.task t).place with
    | .call how, .out => some (downOp s t how)
    | .up, .out =>
      let s := { s with count := s.count + 1 }
      some (if s.count ≤ 0 then s.move t .waking false else s, [.up])
    | .goOn _, .failed .downTrylock => some (downTrylock s t, [.refused 1])
    | .goOn _, .failed how =>
      some (({ s with wait := s.wait ++ [t] }).move t
        (.queued (.loop true) (how = Down.downInterruptible)) true, [])
    | .goOn pending, .queued (.loop first) intr => some (downRound s t intr first pending)
    | .goOn _, .queued .waiting intr =>
      if (s.task t).asleep then none else some (s.move t (.queued (.loop false) intr) true, [])
    | .goOn _, .queued .leaving _ =>
      some (({ s with wait := s.wait.filter (· ≠ t) }).move t .waking false, [])
    | .goOn _, .waking => some (wakeUp (s.move t .out false), [])
    | .signal, .queued stage true => some (s.move t (.queued stage true) false, [])
    | _, _ => none

end

/-! ## Permits -/

/-- What the task has taken off the count and `sleepers` does not tell. -/
@[grind] def Place.pending : Place → Nat
  | .failed _ => 1
  | .queued (.loop first) _ => first.toNat
  | _ => 0

@[grind] def Place.onQueue : Place → Bool
  | .queued .. => true
  | _ => false

/-- The task does nothing by itself. -/
@[grind] def Task.idle (k : Task) : Bool :=
  match k.place with
  | .out => true
  | .queued .waiting _ => k.asleep
  | _ => false

def gain (evs : List Event) : Int := evs.count .up - evs.count .acquired

section

variable [Fintype T] {s s' : State T} {permits permits' count : Int} {t : T} {p : Place}
  {a : Bool} {sleepers : Nat}

def pendings (task : T → Task) : Nat := ∑ t, (task t).place.pending

structure Balanced (permits : Int) (s : State T) : Prop where
  balance : s.count + s.sleepers + pendings s.task = permits
  nonneg : 0 ≤ permits
  queue : ∀ t, t ∈ s.wait ↔ (s.task t).place.onQueue

/-- When nobody does anything, nobody waits or there is no permit. -/
structure Inv (permits : Int) (s : State T) : Prop extends Balanced permits s where
  quiet : (∀ t, (s.task t).idle) →
    (∀ t, (s.task t).place = .out) ∨ permits = 0 ∧ s.sleepers = 1

theorem pendings_idle (hidle : ∀ t, (s.task t).idle) : pendings s.task = 0 := by
  refine Finset.sum_eq_zero fun t _ => ?_
  grind

/-- While the count is not negative nobody waits for it. -/
theorem Inv.recount (h : Inv permits s) (d : Int) (hold : 0 ≤ s.count) (hnew : 0 ≤ s.count + d) :
    Inv (permits + d) { s with count := s.count + d } := by
  have hbalance := h.balance
  refine ⟨⟨?_, by omega, h.queue⟩, fun hidle => ?_⟩
  · simp only
    omega
  · have hnone := pendings_idle hidle
    exact (h.quiet hidle).imp_right fun _ => by omega

theorem Balanced.short (h : Balanced permits s) (hneg : s.count < 0) (hsleepers : s.sleepers ≤ 1) :
    Inv permits s := by
  refine ⟨h, fun hidle => .inr ?_⟩
  have hbalance := h.balance
  have hnonneg := h.nonneg
  rw [pendings_idle hidle] at hbalance
  omega

variable [DecidableEq T]

theorem pendings_update (task : T → Task) :
    pendings (update task t ⟨p, a⟩) + (task t).place.pending = pendings task + p.pending := by
  have hupdate : (fun x => (update task t ⟨p, a⟩ x).place.pending) =
      update (fun x => (task x).place.pending) t p.pending :=
    comp_update (Place.pending ∘ Task.place) ..
  rw [pendings, hupdate, Finset.sum_update_of_mem (Finset.mem_univ t), pendings,
    ← Finset.add_sum_erase _ _ (Finset.mem_univ t), Finset.sdiff_singleton_eq_erase]
  omega

/-- What a step of `t` has to show. -/
theorem Balanced.move {wait : List T} (h : Balanced permits s)
    (hmove : count + sleepers + p.pending + permits =
      s.count + s.sleepers + (s.task t).place.pending + permits' ∧ (0 ≤ permits' ∨ 0 ≤ count) ∧
      ∀ x, x ∈ wait ↔ if x = t then p.onQueue else x ∈ s.wait) :
    Balanced permits' (({ s with count, sleepers, wait } : State T).move t p a) := by
  have hupdate := pendings_update s.task (t := t) (p := p) (a := a)
  have hbalance := h.balance
  refine ⟨?_, by omega, fun x => (hmove.2.2 x).trans ?_⟩
  · simp only [State.move]
    omega
  · by_cases hx : x = t <;> simp [State.move, hx, h.queue]

theorem Balanced.busy (h : Balanced permits (s.move t p a)) (hbusy : Task.idle ⟨p, a⟩ = false) :
    Inv permits (s.move t p a) :=
  ⟨h, fun hidle => by simpa [State.move, hbusy] using hidle t⟩

theorem Balanced.wakeUp (h : Balanced permits s) : Inv permits (wakeUp s) := by
  unfold Semaphore.wakeUp
  split
  case h_1 hnone =>
    -- a waiting task is on the queue, and nobody there is asleep
    refine ⟨h, fun hidle => .inl fun t => ?_⟩
    have hqueue := h.queue t
    grind
  case h_2 t hfind =>
    have hqueue := h.queue t
    exact Balanced.busy (h.move ⟨rfl, .inl h.nonneg, by grind⟩) (by grind)

theorem step_inv {call : T × Act} {evs : List Event} (h : Inv permits s)
    (hstep : step s call = some (s', evs)) : Inv (permits + gain evs) s' := by
  have hnonneg := h.nonneg
  generalize hgain : permits + gain evs = permits'
  obtain ⟨t, act⟩ := call
  have hqueue := h.queue t
  simp only [step, downOp, downRound, downTrylock] at hstep
  split at hstep <;> (try split_ifs at hstep) <;> cases hstep <;>
    simp [gain] at hgain <;> subst hgain
  all_goals try exact Balanced.busy (h.move (by grind)) (by grind)
  -- left are the cases in which the task stops
  · exact h.recount (-1) (by omega) (by omega)
  · exact h.recount 1 (by omega) (by omega)
  · exact Balanced.short (h.move (by grind)) ‹_› zero_le_one
  · exact Balanced.wakeUp (h.move (by grind))
  · exact Balanced.short (h.move (by grind)) ‹_› le_rfl
  · exact Balanced.wakeUp (h.move (by grind))

end

end LinuxKernel.Kernel.Semaphore
