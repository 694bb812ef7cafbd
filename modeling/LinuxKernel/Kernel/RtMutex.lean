/-
  Blocking mutexes with priority inheritance.

  Source: kernel/rtmutex.c, `rt_mutex_getprio` to `rt_mutex_slowunlock`;
  kernel/rtmutex_common.h; kernel/sched.c, `rt_mutex_setprio`, `__setscheduler`;
  without CONFIG_DEBUG_RT_MUTEXES.

  A task waits for one lock at a time, with the `rt_mutex_waiter` on its stack: a waiter
  is named by its task.  The operations run one at a time, so the locks of the code
  itself, reference counts and the fast paths are left out; so is the "has waiters" bit
  of `owner`, which only keeps the fast paths off.  A `plist` is the list of its nodes in
  order.  What would follow a null pointer, or a `BUG_ON`, is `none`.
-/
import LinuxKernel.Foundation.PrioQueues
import LinuxKernel.Foundation.Run

namespace LinuxKernel.Kernel.RtMutex

open Foundation Function

/-- The arguments of an `rt_mutex_slowlock` that has not returned. -/
structure Attempt (ℓ : Type) where
  lock : ℓ
  interruptible : Bool
  detectDeadlock : Bool
  deriving DecidableEq, Repr

/-- Tasks and locks.  `waiter->task` is set exactly while `pi_blocked_on` is. -/
structure State (τ ℓ : Type) where
  normalPrio : τ → Int
  prio : τ → Int
  /-- `task->pi_waiters` -/
  piWaiters : τ → List τ
  /-- `task->pi_blocked_on->lock` -/
  piBlockedOn : τ → Option ℓ
  /-- `waiter->list_entry.prio` -/
  listPrio : τ → Int
  /-- `waiter->pi_list_entry.prio` -/
  piListPrio : τ → Int
  /-- `rt_mutex_owner(lock)` -/
  owner : ℓ → Option τ
  /-- `rt_mutex_owner_pending(lock)` -/
  pending : ℓ → Bool
  waitList : ℓ → List τ
  /-- where the task is in `rt_mutex_slowlock`, at the head of the loop -/
  slowlock : τ → Option (Attempt ℓ)

/-- What `rt_mutex_slowlock` returns. -/
inductive Ret where
  | success
  | edeadlk
  | eintr
  | etimedout
  deriving DecidableEq, Repr

/-- What ends a wait that is interruptible. -/
inductive Interrupt where
  | signal
  | timeout
  deriving DecidableEq, Repr

def Interrupt.ret : Interrupt → Ret
  | .signal => .eintr
  | .timeout => .etimedout

section

variable {τ ℓ : Type} [DecidableEq τ] [DecidableEq ℓ]

/-! ## Lists and priorities -/

/-- `rt_mutex_top_waiter`, with its `BUG_ON` -/
def rtMutexTopWaiter (s : State τ ℓ) (lock : ℓ) : Option τ :=
  (s.waitList lock).head?.filter fun w => s.piBlockedOn w = some lock

/-- `rt_mutex_getprio` -/
def rtMutexGetprio (s : State τ ℓ) (task : τ) : Int :=
  match (s.piWaiters task).head? with
  | none => s.normalPrio task
  | some w => min (s.piListPrio w) (s.normalPrio task)

/-- `__rt_mutex_adjust_prio` -/
def adjustPrio (s : State τ ℓ) (task : τ) : State τ ℓ :=
  { s with prio := update s.prio task (rtMutexGetprio s task) }

/-- `plist_add(&waiter->list_entry, &lock->wait_list)` -/
def waitAdd (s : State τ ℓ) (lock : ℓ) (waiter : τ) : State τ ℓ :=
  { s with waitList :=
      update s.waitList lock (enqueue s.listPrio waiter (s.waitList lock)) }

/-- `plist_del(&waiter->list_entry, &lock->wait_list)` -/
def waitDel (s : State τ ℓ) (waiter : τ) : State τ ℓ :=
  { s with waitList := Queues.unlink s.waitList waiter }

/-- `plist_add(&waiter->pi_list_entry, &task->pi_waiters)` -/
def piAdd (s : State τ ℓ) (task waiter : τ) : State τ ℓ :=
  { s with piWaiters :=
      update s.piWaiters task (enqueue s.piListPrio waiter (s.piWaiters task)) }

/-- `plist_del(&waiter->pi_list_entry, &task->pi_waiters)` -/
def piDel (s : State τ ℓ) (waiter : τ) : State τ ℓ :=
  { s with piWaiters := Queues.unlink s.piWaiters waiter }

/-- `waiter->pi_list_entry.prio = waiter->list_entry.prio` -/
def copyPrio (s : State τ ℓ) (waiter : τ) : State τ ℓ :=
  { s with piListPrio := update s.piListPrio waiter (s.listPrio waiter) }

/-- "Requeue the waiter" -/
def requeue (s : State τ ℓ) (lock : ℓ) (task : τ) : State τ ℓ :=
  waitAdd { waitDel s task with listPrio := update s.listPrio task (s.prio task) } lock task

/-! ## The chain -/

/-- The first top waiter of a lock gives way to another on the list of the owner. -/
def replaceTop (s : State τ ℓ) (owner old new : τ) : State τ ℓ :=
  adjustPrio (piAdd (copyPrio (piDel s old) new) owner new) owner

/-- `rt_mutex_adjust_prio_chain`, from `again` on, with `left` rounds before the maximum
depth is reached; the second component says that it returns -EDEADLK. -/
def rtMutexAdjustPrioChain (deadlockDetect : Bool) (origLock : Option ℓ) (origWaiter : Option τ)
    (topTask : τ) : Nat → τ → Option τ → State τ ℓ → Option (State τ ℓ × Bool)
  | 0, _, _, s => some (s, deadlockDetect)
  | left + 1, task, topWaiter, s =>
    match s.piBlockedOn task with
    | none => some (s, false)
    | some lock =>
      if origWaiter.any fun w => (s.piBlockedOn w).isNone then some (s, false)
      else if topWaiter.any fun w => (s.piWaiters task).head? ≠ some w then some (s, false)
      else if !deadlockDetect ∧ s.listPrio task = s.prio task then some (s, false)
      else if origLock = some lock ∨ s.owner lock = some topTask then some (s, deadlockDetect)
      else
        let s' := requeue s lock task
        match rtMutexTopWaiter s lock, s'.owner lock, rtMutexTopWaiter s' lock with
        | some old, some owner, some top =>
          if task = top then
            -- boost the owner
            rtMutexAdjustPrioChain deadlockDetect origLock origWaiter topTask left owner
              (some top) (replaceTop s' owner old top)
          else if old = task then
            -- deboost the owner
            rtMutexAdjustPrioChain deadlockDetect origLock origWaiter topTask left owner
              (some top) (replaceTop s' owner task top)
          else if deadlockDetect then
            rtMutexAdjustPrioChain deadlockDetect origLock origWaiter topTask left owner
              (some top) s'
          else some (s', false)
        | _, _, _ => none

/-! ## Taking a lock -/

/-- `try_to_steal_lock`, for a lock with the owner `pendowner` -/
def tryToStealLock (s : State τ ℓ) (current : τ) (lock : ℓ) (pendowner : τ) :
    Option (State τ ℓ × Bool) :=
  if !s.pending lock then some (s, false)
  else if pendowner = current then some (s, true)
  else if s.prio current ≥ s.prio pendowner then some (s, false)
  else if (s.waitList lock).isEmpty then some (s, true)
  else
    match rtMutexTopWaiter s lock with
    | none => none
    | some next =>
      let s := adjustPrio (piDel s next) pendowner
      if next ≠ current then some (adjustPrio (piAdd s current next) current, true)
      else some (s, true)

/-- `rt_mutex_set_owner` -/
def rtMutexSetOwner (s : State τ ℓ) (lock : ℓ) (owner : Option τ) (pending : Bool) : State τ ℓ :=
  { s with
    owner := update s.owner lock owner
    pending := update s.pending lock pending }

/-- `try_to_take_rt_mutex` -/
def tryToTakeRtMutex (s : State τ ℓ) (current : τ) (lock : ℓ) : Option (State τ ℓ × Bool) :=
  match s.owner lock with
  | none => some (rtMutexSetOwner s lock (some current) false, true)
  | some pendowner =>
    match tryToStealLock s current lock pendowner with
    | none => none
    | some (s, false) => some (s, false)
    | some (s, true) => some (rtMutexSetOwner s lock (some current) false, true)

/-! ## Waiting -/

/-- What `task_blocks_on_rt_mutex` does first: the waiter is on the list of the lock. -/
def enqueueWaiter (s : State τ ℓ) (current : τ) (lock : ℓ) : State τ ℓ :=
  let s := adjustPrio s current
  let s := { s with
    listPrio := update s.listPrio current (s.prio current)
    piListPrio := update s.piListPrio current (s.prio current) }
  { waitAdd s lock current with piBlockedOn := update s.piBlockedOn current (some lock) }

/-- `task_blocks_on_rt_mutex` -/
def taskBlocksOnRtMutex (maxLockDepth : Nat) (s : State τ ℓ) (current : τ) (lock : ℓ)
    (detectDeadlock : Bool) : Option (State τ ℓ × Bool) :=
  let old := if (s.waitList lock).isEmpty then some current else rtMutexTopWaiter s lock
  let s := enqueueWaiter s current lock
  match s.owner lock, old, rtMutexTopWaiter s lock with
  | some owner, some old, some top =>
    if current = top then
      let s := adjustPrio (piAdd (piDel s old) owner current) owner
      if (s.piBlockedOn owner).isSome then
        rtMutexAdjustPrioChain detectDeadlock (some lock) (some current) current maxLockDepth owner
          (some current) s
      else some (s, false)
    else if detectDeadlock then
      rtMutexAdjustPrioChain detectDeadlock (some lock) (some current) current maxLockDepth owner
        (some current) s
    else some (s, false)
  | _, _, _ => none

/-- The next top waiter, if there is one, goes on the list of the owner. -/
def addTop (s : State τ ℓ) (lock : ℓ) (owner : τ) : Option (State τ ℓ) :=
  if (s.waitList lock).isEmpty then some s
  else (rtMutexTopWaiter s lock).map fun next => piAdd s owner next

/-- `wakeup_next_waiter` -/
def wakeupNextWaiter (s : State τ ℓ) (lock : ℓ) : Option (State τ ℓ) :=
  match rtMutexTopWaiter s lock with
  | none => none
  | some waiter =>
    let s := rtMutexSetOwner (piDel (waitDel s waiter) waiter) lock (some waiter) true
    addTop { s with piBlockedOn := update s.piBlockedOn waiter none } lock waiter

/-- `remove_waiter` -/
def removeWaiter (maxLockDepth : Nat) (s : State τ ℓ) (current : τ) (lock : ℓ) :
    Option (State τ ℓ) :=
  match rtMutexTopWaiter s lock with
  | none => none
  | some top =>
    let s := waitDel s current
    let s := { s with piBlockedOn := update s.piBlockedOn current none }
    if top = current ∧ s.owner lock ≠ some current then
      match s.owner lock with
      | none => none
      | some owner =>
        match addTop (piDel s current) lock owner with
        | none => none
        | some s =>
          let s := adjustPrio s owner
          if (s.piBlockedOn owner).isSome then
            (rtMutexAdjustPrioChain false (some lock) none current maxLockDepth owner none
              s).map Prod.fst
          else some s
    else some s

/-- `rt_mutex_adjust_pi` -/
def rtMutexAdjustPi (maxLockDepth : Nat) (s : State τ ℓ) (task : τ) : Option (State τ ℓ) :=
  if (s.piBlockedOn task).isNone ∨ s.listPrio task = s.prio task then some s
  else (rtMutexAdjustPrioChain false none none task maxLockDepth task none s).map Prod.fst

/-! ## The interface -/

/-- `rt_mutex_slowlock`, after the loop -/
def slowlockDone (maxLockDepth : Nat) (s : State τ ℓ) (current : τ) (lock : ℓ) (ret : Ret) :
    Option (State τ ℓ) :=
  let removed :=
    if (s.piBlockedOn current).isSome then removeWaiter maxLockDepth s current lock else some s
  removed.map fun s =>
    let s := if ret = .success then s else adjustPrio s current
    { s with slowlock := update s.slowlock current none }

/-- One round of the loop of `rt_mutex_slowlock`; `interrupted` says whether a signal is
pending or the timer has run out.  `none` as result means that the task is asleep. -/
def slowlockRound (maxLockDepth : Nat) (s : State τ ℓ) (current : τ) (attempt : Attempt ℓ)
    (interrupted : Option Interrupt) : Option (State τ ℓ × Option Ret) :=
  let lock := attempt.lock
  let leave (s : State τ ℓ) (ret : Ret) : Option (State τ ℓ × Option Ret) :=
    (slowlockDone maxLockDepth s current lock ret).map fun s => (s, some ret)
  match tryToTakeRtMutex s current lock with
  | none => none
  | some (s, true) => leave s .success
  | some (s, false) =>
    match interrupted.filter fun _ => attempt.interruptible with
    | some interrupt => leave s interrupt.ret
    | none =>
      if (s.piBlockedOn current).isSome then some (s, none)
      else
        match taskBlocksOnRtMutex maxLockDepth s current lock attempt.detectDeadlock with
        | none => none
        | some (s, deadlock) =>
          if (s.piBlockedOn current).isNone then some (s, none)
          else if deadlock then leave s .edeadlk
          else some (s, none)

/-- `rt_mutex_slowlock`, up to where it returns or sleeps -/
def rtMutexSlowlock (maxLockDepth : Nat) (s : State τ ℓ) (current : τ) (attempt : Attempt ℓ)
    (interrupted : Option Interrupt) : Option (State τ ℓ × Option Ret) :=
  match tryToTakeRtMutex s current attempt.lock with
  | none => none
  | some (s, true) => some (s, some .success)
  | some (s, false) =>
    slowlockRound maxLockDepth
      { s with slowlock := update s.slowlock current (some attempt) } current attempt
      interrupted

/-- `rt_mutex_slowtrylock` -/
def rtMutexSlowtrylock (s : State τ ℓ) (current : τ) (lock : ℓ) : Option (State τ ℓ × Bool) :=
  if s.owner lock = some current then some (s, false) else tryToTakeRtMutex s current lock

/-- `rt_mutex_slowunlock` -/
def rtMutexSlowunlock (s : State τ ℓ) (current : τ) (lock : ℓ) : Option (State τ ℓ) :=
  if (s.waitList lock).isEmpty then some (rtMutexSetOwner s lock none false)
  else (wakeupNextWaiter s lock).map fun s => adjustPrio s current

/-- A change of the priority as `__setscheduler` makes it, and `rt_mutex_adjust_pi`. -/
def setscheduler (maxLockDepth : Nat) (s : State τ ℓ) (task : τ) (normalPrio : Int) :
    Option (State τ ℓ) :=
  let s := { s with normalPrio := update s.normalPrio task normalPrio }
  rtMutexAdjustPi maxLockDepth (adjustPrio s task) task

/-! ## Runs -/

inductive Call (τ ℓ : Type) where
  | lock (task : τ) (attempt : Attempt ℓ) (interrupted : Option Interrupt)
  /-- the task runs again, whatever woke it -/
  | wake (task : τ) (interrupted : Option Interrupt)
  | trylock (task : τ) (lock : ℓ)
  | unlock (task : τ) (lock : ℓ)
  | setscheduler (task : τ) (normalPrio : Int)

/-- An attempt to lock has returned. -/
structure Event (τ ℓ : Type) where
  task : τ
  lock : ℓ
  ret : Ret

def Event.ofRet (task : τ) (lock : ℓ) : Option Ret → List (Event τ ℓ)
  | none => []
  | some ret => [⟨task, lock, ret⟩]

def step (maxLockDepth : Nat) (s : State τ ℓ) : Call τ ℓ → Option (State τ ℓ × List (Event τ ℓ))
  | .lock task attempt interrupted => do
      let (s, ret) ← rtMutexSlowlock maxLockDepth s task attempt interrupted
      some (s, Event.ofRet task attempt.lock ret)
  | .wake task interrupted => do
      let attempt ← s.slowlock task
      let (s, ret) ← slowlockRound maxLockDepth s task attempt interrupted
      some (s, Event.ofRet task attempt.lock ret)
  | .trylock task lock => do
      let (s, taken) ← rtMutexSlowtrylock s task lock
      some (s, if taken then [⟨task, lock, .success⟩] else [])
  | .unlock task lock => do
      let s ← rtMutexSlowunlock s task lock
      some (s, [])
  | .setscheduler task normalPrio => do
      let s ← setscheduler maxLockDepth s task normalPrio
      some (s, [])

end

end LinuxKernel.Kernel.RtMutex
