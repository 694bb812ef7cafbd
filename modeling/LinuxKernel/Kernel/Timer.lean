/-
  The timer wheel of one CPU.

  Source: kernel/timer.c, `internal_add_timer`, `init_timer`, `detach_timer`,
  `__mod_timer`, `add_timer_on`, `mod_timer`, `del_timer`, `cascade`,
  `__run_timers`.

  One `tvec_base_t` on a 32-bit machine; `unsigned long` values are numbers below
  2^32.  `base->lock` serialises everything except the handlers, so one step is
  one critical section: a call of the interface, one round of the cascade code,
  or the detaching of one timer.  Between the detaching of a timer and the return
  of its handler the lock is free, and any calls may come in, from the handler
  itself or from elsewhere.  `jiffies` may advance at any point.

  With a single base the switch between bases, `running_timer` and the check
  against `timer->base` have no effect and are left out, as are the statistics
  fields.  A timer has a function, so `BUG_ON(!timer->function)` does not fire.
-/
import LinuxKernel.Foundation.Queues
import LinuxKernel.Foundation.Run

namespace LinuxKernel.Kernel.Timer

open Foundation Function

/-! ## Data -/

/-- `TVR_BITS` and `TVN_BITS`.  The sizes of the first four vectors fit an `int`,
and the bits of all five an `unsigned long`. -/
structure Config where
  tvrBits : Nat
  tvnBits : Nat
  int_bits : tvrBits + 3 * tvnBits ≤ 30
  long_bits : tvrBits + 4 * tvnBits ≤ 32

/-- The values for CONFIG_BASE_SMALL set and not set. -/
def Config.ofBaseSmall : Bool → Config
  | true => ⟨6, 4, by decide, by decide⟩
  | false => ⟨8, 6, by decide, by decide⟩

/-- `TVR_BITS + level * TVN_BITS`. -/
def Config.shift (c : Config) (level : Nat) : Nat := c.tvrBits + level * c.tvnBits

/-- The list heads of the base: `tv1`, the vectors `tv2` to `tv5` as levels 0 to 3,
and the work list of `__run_timers`. -/
inductive Head where
  | tv1 (i : Nat)
  | tvn (level i : Nat)
  | work
  deriving DecidableEq, Repr

/-- The base with the fields of the timers that belong to it. -/
structure Base (τ : Type) where
  timerJiffies : Nat
  vec : Head → List τ
  /-- `timer->expires` -/
  expires : τ → Nat
  /-- `timer->entry.next != NULL` -/
  pending : τ → Bool

variable {τ : Type} [DecidableEq τ]

/-! ## The wheel -/

/-- The vector that `internal_add_timer` chooses.  The test for a distance above
0xffffffff concerns 64-bit machines only. -/
def chooseVec (c : Config) (expires timerJiffies : Nat) : Head :=
  let idx := (expires + 2 ^ 32 - timerJiffies) % 2 ^ 32
  if idx < 2 ^ c.tvrBits then .tv1 (expires % 2 ^ c.tvrBits)
  else if idx < 2 ^ c.shift 1 then .tvn 0 (expires / 2 ^ c.shift 0 % 2 ^ c.tvnBits)
  else if idx < 2 ^ c.shift 2 then .tvn 1 (expires / 2 ^ c.shift 1 % 2 ^ c.tvnBits)
  else if idx < 2 ^ c.shift 3 then .tvn 2 (expires / 2 ^ c.shift 2 % 2 ^ c.tvnBits)
  else if 2 ^ 31 ≤ idx then .tv1 (timerJiffies % 2 ^ c.tvrBits)
  else .tvn 3 (expires / 2 ^ c.shift 3 % 2 ^ c.tvnBits)

/-- `internal_add_timer`. -/
def internalAddTimer (c : Config) (b : Base τ) (timer : τ) : Base τ :=
  { b with
    vec := Queues.addTail b.vec (chooseVec c (b.expires timer) b.timerJiffies) timer
    pending := update b.pending timer true }

/-- `detach_timer(timer, 1)`. -/
def detachTimer (b : Base τ) (timer : τ) : Base τ :=
  { b with
    vec := Queues.unlink b.vec timer
    pending := update b.pending timer false }

/-- `__mod_timer`.  A pending timer is unlinked and linked again at once, so
clearing its link in between is not seen. -/
def modTimerLocked (c : Config) (b : Base τ) (timer : τ) (expires : Nat) : Base τ × Bool :=
  let ret := b.pending timer
  let b := if ret then detachTimer b timer else b
  (internalAddTimer c { b with expires := update b.expires timer expires } timer, ret)

/-- `timer->expires = expires; add_timer_on(timer, cpu)`, with its `BUG_ON`. -/
def addTimerOn (c : Config) (b : Base τ) (timer : τ) (expires : Nat) : Option (Base τ) :=
  if b.pending timer then none
  else some (internalAddTimer c { b with expires := update b.expires timer expires } timer)

/-- `del_timer`. -/
def delTimer (b : Base τ) (timer : τ) : Base τ × Bool :=
  if b.pending timer then (detachTimer b timer, true) else (b, false)

/-- `cascade(base, tv, index)`. -/
def cascade (c : Config) (b : Base τ) (level index : Nat) : Base τ :=
  let tvList := b.vec (.tvn level index)
  tvList.foldl (internalAddTimer c) { b with vec := Queues.clear b.vec (.tvn level index) }

/-- `INDEX(N)`. -/
def index (c : Config) (b : Base τ) (level : Nat) : Nat :=
  b.timerJiffies / 2 ^ c.shift level % 2 ^ c.tvnBits

/-- The chain `!cascade(tv2, INDEX(0)) && !cascade(tv3, INDEX(1)) && ...` from
`level` on, with `left` more vectors to go. -/
def cascadeFrom (c : Config) : (left level : Nat) → Base τ → Base τ
  | 0, _, b => b
  | left + 1, level, b =>
    let i := index c b level
    let b := cascade c b level i
    if i = 0 then cascadeFrom c left (level + 1) b else b

/-- One round of the outer loop of `__run_timers`, up to the inner loop. -/
def startRound (c : Config) (b : Base τ) : Base τ :=
  let i := b.timerJiffies % 2 ^ c.tvrBits
  let b := if i = 0 then cascadeFrom c 4 0 b else b
  let b := { b with timerJiffies := (b.timerJiffies + 1) % 2 ^ 32 }
  { b with vec := update (Queues.clear b.vec (.tv1 i)) .work (b.vec (.tv1 i)) }

/-- `time_after_eq(a, b)`. -/
def timeAfterEq (a b : Nat) : Bool := decide ((a + 2 ^ 32 - b) % 2 ^ 32 < 2 ^ 31)

/-! ## The system -/

/-- Where `__run_timers` is. -/
inductive Phase (τ : Type) where
  /-- not running; the lock is free -/
  | idle
  /-- at the head of the outer loop -/
  | outer
  /-- at the head of the inner loop -/
  | inner
  /-- a handler is running; the lock is free -/
  | handler (timer : τ)
  deriving DecidableEq, Repr

/-- The base, the clock, the point `__run_timers` is at, and which timers went
through `init_timer`.  `round` is `timer_jiffies` without the wraparound: it
numbers the rounds of the outer loop. -/
structure System (τ : Type) where
  base : Base τ
  jiffies : Nat
  phase : Phase τ
  initialised : τ → Bool
  round : Nat

/-- What is observed. -/
inductive Event (τ : Type) where
  /-- the timer is linked for `expires`, before round `round` -/
  | arm (timer : τ) (round expires : Nat)
  /-- a pending timer is deleted -/
  | del (timer : τ)
  /-- the outer loop begins round `round` -/
  | begin (round : Nat)
  /-- the handler of the timer is called in round `round` -/
  | exec (timer : τ) (round : Nat)
  deriving DecidableEq, Repr

/-- What can happen next. -/
inductive Call (τ : Type) where
  | tick (n : Nat)
  | initTimer (timer : τ)
  | modTimerLocked (timer : τ) (expires : Nat)
  | addTimerOn (timer : τ) (expires : Nat)
  | modTimer (timer : τ) (expires : Nat)
  | delTimer (timer : τ)
  | runTimers
  | outerLoop
  | innerLoop
  | handlerReturns
  deriving DecidableEq, Repr

/-- The lock is free. -/
def Phase.unlocked : Phase τ → Bool
  | .idle => true
  | .handler _ => true
  | _ => false

/-- One step.  The calls of the interface need the lock; they are made for timers
that went through `init_timer`, with an `unsigned long` for the time.
`init_timer` itself is for timers that are not in use. -/
def step (c : Config) (s : System τ) : Call τ → Option (System τ × List (Event τ))
  | .tick n => some ({ s with jiffies := (s.jiffies + n) % 2 ^ 32 }, [])
  | .initTimer timer =>
    if s.base.pending timer then none
    else some ({ s with initialised := update s.initialised timer true }, [])
  | .modTimerLocked timer expires =>
    if s.phase.unlocked ∧ s.initialised timer ∧ expires < 2 ^ 32 then
      let (b, _) := Timer.modTimerLocked c s.base timer expires
      some ({ s with base := b }, [.arm timer s.round expires])
    else none
  | .addTimerOn timer expires =>
    if s.phase.unlocked ∧ s.initialised timer ∧ expires < 2 ^ 32 then do
      let b ← Timer.addTimerOn c s.base timer expires
      some ({ s with base := b }, [.arm timer s.round expires])
    else none
  | .modTimer timer expires =>
    if s.phase.unlocked ∧ s.initialised timer ∧ expires < 2 ^ 32 then
      if s.base.expires timer = expires ∧ s.base.pending timer then some (s, [])
      else
        let (b, _) := Timer.modTimerLocked c s.base timer expires
        some ({ s with base := b }, [.arm timer s.round expires])
    else none
  | .delTimer timer =>
    if s.phase.unlocked ∧ s.initialised timer then
      let (b, ret) := Timer.delTimer s.base timer
      some ({ s with base := b }, if ret then [.del timer] else [])
    else none
  | .runTimers =>
    match s.phase with
    | .idle => some ({ s with phase := .outer }, [])
    | _ => none
  | .outerLoop =>
    match s.phase with
    | .outer =>
      if timeAfterEq s.jiffies s.base.timerJiffies then
        some ({ s with base := startRound c s.base, phase := .inner, round := s.round + 1 },
          [.begin s.round])
      else some ({ s with phase := .idle }, [])
    | _ => none
  | .innerLoop =>
    match s.phase, s.base.vec .work with
    | .inner, [] => some ({ s with phase := .outer }, [])
    | .inner, timer :: _ =>
      -- `round` has been counted up already
      some ({ s with base := detachTimer s.base timer, phase := .handler timer },
        [.exec timer (s.round - 1)])
    | _, _ => none
  | .handlerReturns =>
    match s.phase with
    | .handler _ => some ({ s with phase := .inner }, [])
    | _ => none

/-- After `init_timers_cpu`: empty lists, no timer in use. -/
structure Initial (s : System τ) : Prop where
  vec : ∀ head, s.base.vec head = []
  pending : ∀ timer, s.base.pending timer = false
  phase : s.phase = .idle
  round : s.base.timerJiffies = s.round % 2 ^ 32

end LinuxKernel.Kernel.Timer
