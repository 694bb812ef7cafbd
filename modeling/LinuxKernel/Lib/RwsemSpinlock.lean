/-
  The generic read/write semaphore.

  Source: lib/rwsem-spinlock.c and include/linux/rwsem-spinlock.h.

  Each function holds `wait_lock` for its whole effect on the semaphore, so it is
  one atomic step here.  The sleeping loop of a queued task reads only its own
  `waiter.task`, which the waker clears inside its critical section; a queued
  task therefore makes no call until it has been granted, and that is the guard
  of `State.step`.

  The wait list is the FIFO list of waiters.  `activity` is an `__s32`; it counts
  tasks, whose number the pid space bounds far below `2 ^ 31`, so it is an `Int`
  here.

  Granting is modelled with the mode the code hands out, not with the mode the
  waiter asked for: `__rwsem_wake_one_writer` sets `activity` to -1 for whatever
  waiter stands at the head.  That the two modes agree is a theorem.
-/
import LinuxKernel.Foundation.Run

namespace LinuxKernel.Lib.RwsemSpinlock

open Foundation List

/-! ## The semaphore -/

/-- `RWSEM_WAITING_FOR_READ` and `RWSEM_WAITING_FOR_WRITE`. -/
inductive WaitFlags where
  | waitingForRead
  | waitingForWrite
  deriving DecidableEq, Repr

/-- `struct rwsem_waiter`. -/
structure RwsemWaiter (Task : Type) where
  task : Task
  flags : WaitFlags
  deriving DecidableEq, Repr

/-- `struct rw_semaphore`. -/
structure RwSemaphore (Task : Type) where
  activity : Int
  waitList : List (RwsemWaiter Task)
  deriving DecidableEq, Repr

/-- A lock handed to a waiter, with the mode it was handed in. -/
structure Grant (Task : Type) where
  waiter : RwsemWaiter Task
  mode : WaitFlags
  deriving DecidableEq, Repr

variable {Task : Type} {w : RwsemWaiter Task}

/-- `__init_rwsem`. -/
def initRwsem : RwSemaphore Task := { activity := 0, waitList := [] }

/-- The `dont_wake_writers` loop of `__rwsem_do_wake`: take readers off the front
of the queue until it is empty or a writer heads it. -/
def wakeReaders : List (RwsemWaiter Task) → List (RwsemWaiter Task) × List (RwsemWaiter Task)
  | [] => ([], [])
  | waiter :: rest =>
    match waiter.flags with
    | .waitingForRead => (waiter :: (wakeReaders rest).1, (wakeReaders rest).2)
    | .waitingForWrite => ([], waiter :: rest)

/-- `__rwsem_do_wake`.  On an empty list the code would read the list head as a
waiter; that is the undefined case. -/
def rwsemDoWake (sem : RwSemaphore Task) (wakewrite : Bool) :
    Option (RwSemaphore Task × List (Grant Task)) :=
  match sem.waitList with
  | [] => none
  | waiter :: rest =>
    match waiter.flags, wakewrite with
    | .waitingForWrite, false => some (sem, [])
    | .waitingForWrite, true =>
      some ({ activity := -1, waitList := rest }, [⟨waiter, .waitingForWrite⟩])
    | .waitingForRead, _ =>
      let woken := (wakeReaders (waiter :: rest)).1
      some ({ activity := sem.activity + woken.length,
              waitList := (wakeReaders (waiter :: rest)).2 },
        woken.map fun w => ⟨w, .waitingForRead⟩)

/-- `__rwsem_wake_one_writer`: the head of the queue is taken to be a writer. -/
def rwsemWakeOneWriter (sem : RwSemaphore Task) :
    Option (RwSemaphore Task × List (Grant Task)) :=
  match sem.waitList with
  | [] => none
  | waiter :: rest =>
    some ({ activity := -1, waitList := rest }, [⟨waiter, .waitingForWrite⟩])

/-- `__down_read_trylock`; the Boolean is the return value. -/
def downReadTrylock (sem : RwSemaphore Task) : RwSemaphore Task × Bool :=
  if 0 ≤ sem.activity ∧ sem.waitList = [] then
    ({ sem with activity := sem.activity + 1 }, true)
  else (sem, false)

/-- `__down_read`; the Boolean says that the lock was granted at once. -/
def downRead (sem : RwSemaphore Task) (tsk : Task) : RwSemaphore Task × Bool :=
  if 0 ≤ sem.activity ∧ sem.waitList = [] then
    ({ sem with activity := sem.activity + 1 }, true)
  else ({ sem with waitList := sem.waitList ++ [⟨tsk, .waitingForRead⟩] }, false)

/-- `__down_write_trylock`; the Boolean is the return value. -/
def downWriteTrylock (sem : RwSemaphore Task) : RwSemaphore Task × Bool :=
  if sem.activity = 0 ∧ sem.waitList = [] then ({ sem with activity := -1 }, true)
  else (sem, false)

/-- `__down_write_nested`, and with it `__down_write`. -/
def downWriteNested (sem : RwSemaphore Task) (tsk : Task) : RwSemaphore Task × Bool :=
  if sem.activity = 0 ∧ sem.waitList = [] then ({ sem with activity := -1 }, true)
  else ({ sem with waitList := sem.waitList ++ [⟨tsk, .waitingForWrite⟩] }, false)

/-- `__up_read`. -/
def upRead (sem : RwSemaphore Task) : Option (RwSemaphore Task × List (Grant Task)) :=
  let sem := { sem with activity := sem.activity - 1 }
  if sem.activity = 0 ∧ sem.waitList ≠ [] then rwsemWakeOneWriter sem else some (sem, [])

/-- `__up_write`. -/
def upWrite (sem : RwSemaphore Task) : Option (RwSemaphore Task × List (Grant Task)) :=
  let sem := { sem with activity := 0 }
  if sem.waitList ≠ [] then rwsemDoWake sem true else some (sem, [])

/-- `__downgrade_write`. -/
def downgradeWrite (sem : RwSemaphore Task) :
    Option (RwSemaphore Task × List (Grant Task)) :=
  let sem := { sem with activity := 1 }
  if sem.waitList ≠ [] then rwsemDoWake sem false else some (sem, [])

/-! ## Tasks sharing the semaphore -/

/-- A call and the task that makes it. -/
inductive Call (Task : Type) where
  | downRead (tsk : Task)
  | downReadTrylock (tsk : Task)
  | downWrite (tsk : Task)
  | downWriteTrylock (tsk : Task)
  | upRead (tsk : Task)
  | upWrite (tsk : Task)
  | downgradeWrite (tsk : Task)
  deriving DecidableEq, Repr

/-- The calling task. -/
def Call.caller : Call Task → Task
  | .downRead tsk | .downReadTrylock tsk | .downWrite tsk | .downWriteTrylock tsk
  | .upRead tsk | .upWrite tsk | .downgradeWrite tsk => tsk

/-- What one critical section makes visible. -/
inductive Event (Task : Type) where
  /-- the caller got the lock without sleeping -/
  | acquired (tsk : Task) (mode : WaitFlags)
  /-- a trylock found contention -/
  | contended (tsk : Task)
  /-- the caller was queued -/
  | queued (waiter : RwsemWaiter Task)
  /-- a queued waiter was handed the lock -/
  | granted (grant : Grant Task)
  /-- the caller gave the lock back -/
  | released (tsk : Task) (mode : WaitFlags)
  /-- the writer became a reader -/
  | downgraded (tsk : Task)
  deriving DecidableEq, Repr

/-- The semaphore with the locks currently handed out.  A task may hold several
read locks, so the holders are lists. -/
structure State (Task : Type) where
  sem : RwSemaphore Task
  readers : List Task
  writers : List Task
  deriving DecidableEq, Repr

/-- Nobody holds the lock and nobody waits. -/
def State.init : State Task := { sem := initRwsem, readers := [], writers := [] }

/-- The tasks that were handed the lock in the given mode. -/
def grantees (mode : WaitFlags) (grants : List (Grant Task)) : List Task :=
  (grants.filter fun g => g.mode = mode).map fun g => g.waiter.task

/-- Hand the granted locks to their waiters. -/
def State.handOut (s : State Task) (sem : RwSemaphore Task)
    (grants : List (Grant Task)) : State Task :=
  { sem
    readers := s.readers ++ grantees .waitingForRead grants
    writers := s.writers ++ grantees .waitingForWrite grants }

/-- A task that is asleep in the wait list makes no call. -/
def State.asleep (s : State Task) (tsk : Task) : Prop :=
  ∃ w ∈ s.sem.waitList, w.task = tsk

instance [DecidableEq Task] (s : State Task) (tsk : Task) : Decidable (s.asleep tsk) :=
  inferInstanceAs (Decidable (∃ w ∈ s.sem.waitList, w.task = tsk))

/-- The effect of a call by a task that is not asleep.  `up` and `downgrade` are
enabled only for a holder. -/
def State.run [DecidableEq Task] (s : State Task) :
    Call Task → Option (State Task × List (Event Task))
  | .downRead tsk =>
    match downRead s.sem tsk with
    | (sem, true) =>
      some ({ s with sem, readers := tsk :: s.readers }, [.acquired tsk .waitingForRead])
    | (sem, false) => some ({ s with sem }, [.queued ⟨tsk, .waitingForRead⟩])
  | .downReadTrylock tsk =>
    match downReadTrylock s.sem with
    | (sem, true) =>
      some ({ s with sem, readers := tsk :: s.readers }, [.acquired tsk .waitingForRead])
    | (sem, false) => some ({ s with sem }, [.contended tsk])
  | .downWrite tsk =>
    match downWriteNested s.sem tsk with
    | (sem, true) =>
      some ({ s with sem, writers := tsk :: s.writers }, [.acquired tsk .waitingForWrite])
    | (sem, false) => some ({ s with sem }, [.queued ⟨tsk, .waitingForWrite⟩])
  | .downWriteTrylock tsk =>
    match downWriteTrylock s.sem with
    | (sem, true) =>
      some ({ s with sem, writers := tsk :: s.writers }, [.acquired tsk .waitingForWrite])
    | (sem, false) => some ({ s with sem }, [.contended tsk])
  | .upRead tsk =>
    if tsk ∈ s.readers then
      (upRead s.sem).map fun (sem, grants) =>
        (State.handOut { s with readers := s.readers.erase tsk } sem grants,
          .released tsk .waitingForRead :: grants.map .granted)
    else none
  | .upWrite tsk =>
    if tsk ∈ s.writers then
      (upWrite s.sem).map fun (sem, grants) =>
        (State.handOut { s with writers := s.writers.erase tsk } sem grants,
          .released tsk .waitingForWrite :: grants.map .granted)
    else none
  | .downgradeWrite tsk =>
    if tsk ∈ s.writers then
      (downgradeWrite s.sem).map fun (sem, grants) =>
        (State.handOut { s with readers := tsk :: s.readers, writers := s.writers.erase tsk }
            sem grants,
          .downgraded tsk :: grants.map .granted)
    else none

/-- One critical section of one task. -/
def State.step [DecidableEq Task] (s : State Task) (call : Call Task) :
    Option (State Task × List (Event Task)) :=
  if s.asleep call.caller then none else s.run call

/-! ## What the wakers do -/

/-- A non-empty queue is headed by a writer. -/
def WriterHeads (waitList : List (RwsemWaiter Task)) : Prop :=
  ∀ w ∈ waitList.head?, w.flags = .waitingForWrite

theorem writerHeads_nil : WriterHeads ([] : List (RwsemWaiter Task)) := by simp [WriterHeads]

theorem WriterHeads.append {waitList : List (RwsemWaiter Task)} (h : WriterHeads waitList)
    (hne : waitList ≠ []) (more : List (RwsemWaiter Task)) : WriterHeads (waitList ++ more) := by
  cases waitList with
  | nil => exact absurd rfl hne
  | cons w rest => simpa [WriterHeads] using h

theorem WriterHeads.of_cons {rest : List (RwsemWaiter Task)} (h : WriterHeads (w :: rest)) :
    w.flags = .waitingForWrite := by
  simpa [WriterHeads] using h

/-- The reader loop splits the queue: readers in front, a writer heading the rest. -/
theorem wakeReaders_spec (waitList : List (RwsemWaiter Task)) :
    (wakeReaders waitList).1 ++ (wakeReaders waitList).2 = waitList ∧
      (∀ w ∈ (wakeReaders waitList).1, w.flags = .waitingForRead) ∧
      WriterHeads (wakeReaders waitList).2 := by
  induction waitList with
  | nil => simp [wakeReaders, writerHeads_nil]
  | cons w rest ih =>
    cases hf : w.flags with
    | waitingForRead =>
      obtain ⟨happend, hreaders, hhead⟩ := ih
      simp only [wakeReaders, hf]
      exact ⟨by simpa using happend, forall_mem_cons.mpr ⟨hf, hreaders⟩, hhead⟩
    | waitingForWrite => simp [wakeReaders, hf, WriterHeads]

/-- Read grants go to readers only. -/
theorem grantees_read (woken : List (RwsemWaiter Task)) :
    grantees .waitingForRead (woken.map fun w => ⟨w, .waitingForRead⟩) =
        woken.map RwsemWaiter.task ∧
      grantees .waitingForWrite (woken.map fun w => ⟨w, .waitingForRead⟩) = [] := by
  induction woken with
  | nil => simp [grantees]
  | cons w rest ih => simpa [grantees] using ih

/-- What every waker guarantees of the semaphore it returns: the granted waiters
come off the front of the queue in order, each in the mode it asked for. -/
structure Wakes (sem sem' : RwSemaphore Task) (grants : List (Grant Task)) : Prop where
  fifo : grants.map Grant.waiter ++ sem'.waitList = sem.waitList
  mode : ∀ g ∈ grants, g.mode = g.waiter.flags

theorem wakes_none (sem : RwSemaphore Task) (activity : Int) :
    Wakes sem { sem with activity } [] := ⟨by simp, by simp⟩

/-- `__rwsem_do_wake` on a non-empty queue: it grants one writer, or it grants
every reader in front and a writer heads what is left. -/
theorem rwsemDoWake_spec (sem : RwSemaphore Task) (wakewrite : Bool) (hne : sem.waitList ≠ []) :
    ∃ sem' grants, rwsemDoWake sem wakewrite = some (sem', grants) ∧ Wakes sem sem' grants ∧
      ((wakewrite = true ∧ sem'.activity = -1 ∧
          ∃ w, grants = [⟨w, .waitingForWrite⟩]) ∨
        (∃ woken : List (RwsemWaiter Task), grants = woken.map (fun w => ⟨w, .waitingForRead⟩) ∧
          sem'.activity = sem.activity + woken.length ∧ WriterHeads sem'.waitList ∧
          (wakewrite = true → woken ≠ []))) := by
  cases hlist : sem.waitList with
  | nil => exact absurd hlist hne
  | cons waiter rest =>
    cases hf : waiter.flags with
    | waitingForWrite =>
      cases wakewrite with
      | false =>
        refine ⟨sem, [], by simp [rwsemDoWake, hlist, hf], ⟨by simp, by simp⟩, Or.inr ⟨[], ?_⟩⟩
        simp [hlist, WriterHeads, hf]
      | true =>
        refine ⟨{ activity := -1, waitList := rest }, [⟨waiter, .waitingForWrite⟩],
          by simp [rwsemDoWake, hlist, hf], ⟨by simp [hlist], by simp [hf]⟩,
          Or.inl ⟨rfl, rfl, waiter, rfl⟩⟩
    | waitingForRead =>
      obtain ⟨happend, hreaders, hhead⟩ := wakeReaders_spec (waiter :: rest)
      refine ⟨_, _, by simp only [rwsemDoWake, hlist, hf]; rfl, ⟨?_, ?_⟩,
        Or.inr ⟨_, rfl, rfl, hhead, ?_⟩⟩
      · simpa [hlist, Function.comp_def] using happend
      · exact forall_mem_map.mpr fun w hw => (hreaders w hw).symm
      · simp [wakeReaders, hf]

/-- `__rwsem_wake_one_writer` is sound when a writer heads the queue. -/
theorem rwsemWakeOneWriter_spec (sem : RwSemaphore Task) (hne : sem.waitList ≠ [])
    (hhead : WriterHeads sem.waitList) :
    ∃ sem' w, rwsemWakeOneWriter sem = some (sem', [⟨w, .waitingForWrite⟩]) ∧
      Wakes sem sem' [⟨w, .waitingForWrite⟩] ∧ sem'.activity = -1 := by
  cases hlist : sem.waitList with
  | nil => exact absurd hlist hne
  | cons waiter rest =>
    rw [hlist] at hhead
    refine ⟨{ activity := -1, waitList := rest }, waiter, by simp [rwsemWakeOneWriter, hlist],
      ⟨by simp [hlist], ?_⟩, rfl⟩
    simpa using hhead.of_cons.symm

/-! ## The invariant -/

/-- The lock word agrees with the locks handed out.  Either one writer holds the
lock alone, or only readers do; a shared lock has a queue only behind a writer,
and a free lock has none. -/
inductive Consistent (s : State Task) : Prop where
  | exclusive (tsk : Task) (activity : s.sem.activity = -1) (writers : s.writers = [tsk])
      (readers : s.readers = [])
  | shared (activity : s.sem.activity = s.readers.length) (writers : s.writers = [])
      (free : s.readers = [] → s.sem.waitList = []) (head : WriterHeads s.sem.waitList)

/-- The waiters queued along a run, in order. -/
def queuedWaiters (evs : List (Event Task)) : List (RwsemWaiter Task) :=
  evs.filterMap fun
    | .queued w => some w
    | _ => none

/-- The locks handed to queued waiters along a run, in order. -/
def grantsOf (evs : List (Event Task)) : List (Grant Task) :=
  evs.filterMap fun
    | .granted g => some g
    | _ => none

@[simp] theorem queuedWaiters_append (evs new : List (Event Task)) :
    queuedWaiters (evs ++ new) = queuedWaiters evs ++ queuedWaiters new := by
  simp [queuedWaiters]

@[simp] theorem grantsOf_append (evs new : List (Event Task)) :
    grantsOf (evs ++ new) = grantsOf evs ++ grantsOf new := by
  simp [grantsOf]

@[simp] theorem grantsOf_granted (grants : List (Grant Task)) :
    grantsOf (grants.map Event.granted) = grants := by
  induction grants with
  | nil => rfl
  | cons g rest ih => simp [grantsOf]

@[simp] theorem queuedWaiters_granted (grants : List (Grant Task)) :
    queuedWaiters (grants.map Event.granted) = [] := by
  induction grants with
  | nil => rfl
  | cons g rest ih => simp [queuedWaiters]

/-- What one call does to a consistent state: it stays consistent, and the queue
moves only by grants at its front and arrivals at its back. -/
structure Advances (s : State Task) (new : List (Event Task)) (t : State Task) : Prop where
  consistent : Consistent t
  fifo : (grantsOf new).map Grant.waiter ++ t.sem.waitList = s.sem.waitList ++ queuedWaiters new
  mode : ∀ g ∈ grantsOf new, g.mode = g.waiter.flags

section

variable {s t : State Task} {tsk : Task} {new : List (Event Task)}

section

variable (hc : Consistent s)
include hc

/-- Who holds the write lock holds the lock alone. -/
theorem Consistent.alone (hmem : tsk ∈ s.writers) : s.writers = [tsk] ∧ s.readers = [] := by
  cases hc with
  | shared _ hw => simp [hw] at hmem
  | exclusive tsk' _ hw hr =>
    obtain rfl : tsk = tsk' := by simpa [hw] using hmem
    exact ⟨hw, hr⟩

/-- A refused trylock changes nothing. -/
theorem advances_contended : Advances s [.contended tsk] s :=
  ⟨hc, by simp [grantsOf, queuedWaiters], by simp [grantsOf]⟩

/-- A read lock taken at once: no writer holds the lock and nobody waits. -/
theorem advances_readAcquired (hfree : 0 ≤ s.sem.activity ∧ s.sem.waitList = []) :
    Advances s [.acquired tsk .waitingForRead]
      { s with sem := { s.sem with activity := s.sem.activity + 1 }
               readers := tsk :: s.readers } := by
  refine ⟨?_, by simp [grantsOf, queuedWaiters], by simp [grantsOf]⟩
  cases hc with
  | exclusive _ hact => omega
  | shared hact hw _ _ =>
    exact .shared (by simp [hact]) hw (by simp) (by simp [hfree.2, writerHeads_nil])

/-- A write lock taken at once: nobody holds the lock and nobody waits. -/
theorem advances_writeAcquired (hfree : s.sem.activity = 0 ∧ s.sem.waitList = []) :
    Advances s [.acquired tsk .waitingForWrite]
      { s with sem := { s.sem with activity := -1 }, writers := tsk :: s.writers } := by
  refine ⟨?_, by simp [grantsOf, queuedWaiters], by simp [grantsOf]⟩
  cases hc with
  | exclusive _ hact => omega
  | shared hact hw _ _ =>
    have hreaders : s.readers = [] := length_eq_zero_iff.mp (by omega)
    exact .exclusive tsk rfl (by simp [hw]) hreaders

/-- A waiter joins the queue of a lock that could not be given to it. -/
theorem advances_queued
    (hbusy : s.sem.activity = -1 ∨ s.sem.waitList ≠ [] ∨ (0 < s.sem.activity ∧
      w.flags = .waitingForWrite)) :
    Advances s [.queued w]
      { s with sem := { s.sem with waitList := s.sem.waitList ++ [w] } } := by
  refine ⟨?_, by simp [grantsOf, queuedWaiters], by simp [grantsOf]⟩
  cases hc with
  | exclusive tsk hact hw hr => exact .exclusive tsk hact hw hr
  | shared hact hw hfree hhead =>
    by_cases hne : s.sem.waitList = []
    · -- only a writer that meets readers starts a queue
      have hwrite : 0 < s.sem.activity ∧ w.flags = .waitingForWrite := by
        rcases hbusy with h | h | h
        · omega
        · exact absurd hne h
        · exact h
      refine .shared hact hw (fun hnil => ?_) (by simp [hne, WriterHeads, hwrite.2])
      have hpos := hwrite.1
      rw [hact, hnil] at hpos
      simp at hpos
    · exact .shared hact hw (fun hnil => absurd (hfree hnil) hne) (hhead.append hne [w])

end

section

variable {ev : Event Task} (hg : grantsOf [ev] = []) (hq : queuedWaiters [ev] = [])
include hg hq

/-- The locks a waker hands out reach a consistent state, whatever the caller
announces first. -/
theorem advances_handOut {sem : RwSemaphore Task} {grants : List (Grant Task)}
    (hwake : Wakes s.sem sem grants) (hc : Consistent t) (hsem : t.sem = sem) :
    Advances s (ev :: grants.map .granted) t := by
  have hevs : ev :: grants.map Event.granted = [ev] ++ grants.map Event.granted := rfl
  refine ⟨hc, ?_, ?_⟩
  · rw [hevs, grantsOf_append, queuedWaiters_append, hg, hq, hsem]
    simpa using hwake.fifo
  · rw [hevs, grantsOf_append, hg]
    simpa using hwake.mode

/-- The only writer has left `u`, which wakes the queue: also writers, if it is free. -/
theorem advances_writerLeaves {u : State Task} {wakewrite : Bool}
    (hlist : u.sem.waitList = s.sem.waitList) (hw : u.writers = [])
    (hact : u.sem.activity = u.readers.length) (hfree : wakewrite = true ↔ u.readers = [])
    (h : ((if u.sem.waitList ≠ [] then rwsemDoWake u.sem wakewrite else some (u.sem, [])).map
      fun (sem, grants) => (u.handOut sem grants, ev :: grants.map .granted)) = some (t, new)) :
    Advances s new t := by
  by_cases hne : u.sem.waitList ≠ []
  · obtain ⟨sem', grants, hwake, hwakes, hcase⟩ := rwsemDoWake_spec u.sem wakewrite hne
    simp only [if_pos hne, hwake] at h
    cases h
    refine advances_handOut hg hq ⟨hwakes.fifo.trans hlist, hwakes.mode⟩ ?_ rfl
    rcases hcase with ⟨hwrite, hact', w, rfl⟩ | ⟨woken, rfl, hact', hhead, hwoken⟩
    · exact .exclusive w.task hact' (by simp [State.handOut, grantees, hw])
        (by simp [State.handOut, grantees, hfree.mp hwrite])
    refine .shared ?_ (by simp [State.handOut, grantees_read, hw]) (fun hnil => ?_) hhead
    · simp [State.handOut, grantees_read, hact', hact]
    · have hnone : u.readers = [] ∧ woken = [] := by
        simpa [State.handOut, grantees_read] using hnil
      exact absurd hnone.2 (hwoken (hfree.mpr hnone.1))
  · have hempty : u.sem.waitList = [] := not_not.mp hne
    simp only [if_neg hne] at h
    cases h
    refine advances_handOut hg hq ⟨hlist, by simp⟩ ?_ rfl
    exact .shared (by simp [State.handOut, grantees, hact])
      (by simp [State.handOut, grantees, hw]) (fun _ => hempty)
      (by simp [State.handOut, hempty, writerHeads_nil])

end

variable [DecidableEq Task]

section

variable (hc : Consistent s)
include hc

theorem advances_upRead (h : s.run (.upRead tsk) = some (t, new)) : Advances s new t := by
  by_cases hmem : tsk ∈ s.readers
  · cases hc with
    | exclusive _ _ _ hr => simp [hr] at hmem
    | shared hact hw hfree hhead =>
      have hlen := length_erase_of_mem hmem
      have hpos := length_pos_of_mem hmem
      by_cases hlast : s.sem.activity - 1 = 0 ∧ s.sem.waitList ≠ []
      · -- the last reader leaves a queue behind: a writer heads it
        obtain ⟨sem', w, hwake, hwakes, hact'⟩ :=
          rwsemWakeOneWriter_spec { s.sem with activity := s.sem.activity - 1 } hlast.2 hhead
        simp only [State.run, if_pos hmem, upRead, if_pos hlast, hwake] at h
        cases h
        have hnone : s.readers.erase tsk = [] := length_eq_zero_iff.mp (by omega)
        refine advances_handOut rfl rfl ⟨hwakes.fifo, hwakes.mode⟩ ?_ rfl
        exact .exclusive w.task hact' (by simp [State.handOut, grantees, hw])
          (by simp [State.handOut, grantees, hnone])
      · simp only [State.run, if_pos hmem, upRead, if_neg hlast] at h
        cases h
        refine advances_handOut rfl rfl (wakes_none _ _) ?_ rfl
        refine .shared ?_ (by simp [State.handOut, grantees, hw]) ?_ hhead
        · simp only [State.handOut, grantees, filter_nil, map_nil, append_nil]
          omega
        · intro hnil
          have : (s.readers.erase tsk).length = 0 := by simpa [State.handOut, grantees] using hnil
          by_contra hne
          exact hlast ⟨by omega, hne⟩
  · simp [State.run, hmem] at h

theorem advances_upWrite (h : s.run (.upWrite tsk) = some (t, new)) : Advances s new t := by
  by_cases hmem : tsk ∈ s.writers
  · obtain ⟨hw, hr⟩ := hc.alone hmem
    rw [State.run, if_pos hmem] at h
    exact advances_writerLeaves (u := ⟨{ s.sem with activity := 0 }, s.readers, s.writers.erase tsk⟩)
      rfl rfl rfl (by simp [hw]) (by simp [hr]) (by simp [hr]) h
  · simp [State.run, hmem] at h

theorem advances_downgradeWrite
    (h : s.run (.downgradeWrite tsk) = some (t, new)) : Advances s new t := by
  by_cases hmem : tsk ∈ s.writers
  · obtain ⟨hw, hr⟩ := hc.alone hmem
    rw [State.run, if_pos hmem] at h
    exact advances_writerLeaves
      (u := ⟨{ s.sem with activity := 1 }, tsk :: s.readers, s.writers.erase tsk⟩)
      rfl rfl rfl (by simp [hw]) (by simp [hr]) (by simp) h
  · simp [State.run, hmem] at h

/-- Every call of every task advances a consistent state. -/
theorem advances_step {call : Call Task} (h : s.step call = some (t, new)) : Advances s new t := by
  unfold State.step at h
  split at h
  · simp at h
  cases call with
  | downRead tsk =>
    simp only [State.run, downRead] at h
    split_ifs at h with hfree <;> cases h
    · exact advances_readAcquired hc hfree
    · refine advances_queued hc ?_
      cases hc with
      | exclusive _ hact => exact Or.inl hact
      | shared hact => exact Or.inr (Or.inl fun hnil => hfree ⟨by omega, hnil⟩)
  | downReadTrylock tsk =>
    simp only [State.run, downReadTrylock] at h
    split_ifs at h with hfree <;> cases h
    · exact advances_readAcquired hc hfree
    · exact advances_contended hc
  | downWrite tsk =>
    simp only [State.run, downWriteNested] at h
    split_ifs at h with hfree <;> cases h
    · exact advances_writeAcquired hc hfree
    · refine advances_queued hc ?_
      cases hc with
      | exclusive _ hact => exact Or.inl hact
      | shared hact =>
        by_cases hempty : s.sem.waitList = []
        · have : s.sem.activity ≠ 0 := fun h0 => hfree ⟨h0, hempty⟩
          exact Or.inr (Or.inr ⟨by omega, rfl⟩)
        · exact Or.inr (Or.inl hempty)
  | downWriteTrylock tsk =>
    simp only [State.run, downWriteTrylock] at h
    split_ifs at h with hfree <;> cases h
    · exact advances_writeAcquired hc hfree
    · exact advances_contended hc
  | upRead tsk => exact advances_upRead hc h
  | upWrite tsk => exact advances_upWrite hc h
  | downgradeWrite tsk => exact advances_downgradeWrite hc h

end

/-! ## Runs -/

/-- The state reached by a run is consistent, and the queue is what is left of
the arrivals once the grants are taken off their front. -/
theorem run_consistent {evs : List (Event Task)} (h : Run State.step State.init evs s) :
    Consistent s ∧ (grantsOf evs).map Grant.waiter ++ s.sem.waitList = queuedWaiters evs ∧
      ∀ g ∈ grantsOf evs, g.mode = g.waiter.flags := by
  refine h.invariant ?_ ?_
  · refine ⟨.shared rfl rfl (fun _ => rfl) writerHeads_nil, rfl, ?_⟩
    simp [grantsOf]
  · rintro t u evs new call ⟨hc, hfifo, hmode⟩ hstep
    have hadv := advances_step hc hstep
    refine ⟨hadv.consistent, ?_, ?_⟩
    · rw [grantsOf_append, queuedWaiters_append, map_append, append_assoc, hadv.fifo,
        ← append_assoc, hfifo]
    · rw [grantsOf_append]
      exact forall_mem_append.mpr ⟨hmode, hadv.mode⟩

/-- The undefined case of the wakers is never met: a holder that is not asleep can
always release or downgrade what it holds. -/
theorem step_defined_of_holder (hrunning : ¬ s.asleep tsk) :
    (tsk ∈ s.readers → (s.step (.upRead tsk)).isSome) ∧
      (tsk ∈ s.writers → (s.step (.upWrite tsk)).isSome ∧
        (s.step (.downgradeWrite tsk)).isSome) := by
  have hwaker (sem : RwSemaphore Task) (wakewrite : Bool) (hne : sem.waitList ≠ []) :
      (rwsemDoWake sem wakewrite).isSome := by
    obtain ⟨_, _, hwake, -⟩ := rwsemDoWake_spec sem wakewrite hne
    simp [hwake]
  have hone (sem : RwSemaphore Task) (hne : sem.waitList ≠ []) :
      (rwsemWakeOneWriter sem).isSome := by
    cases hlist : sem.waitList with
    | nil => exact absurd hlist hne
    | cons w rest => simp [rwsemWakeOneWriter, hlist]
  refine ⟨fun hmem => ?_, fun hmem => ⟨?_, ?_⟩⟩
  all_goals
    simp only [State.step, Call.caller, if_neg hrunning, State.run, if_pos hmem, Option.isSome_map]
  · dsimp only [upRead]
    split
    · rename_i hlast
      exact hone _ hlast.2
    · rfl
  · dsimp only [upWrite]
    split
    · exact hwaker _ _ ‹_›
    · rfl
  · dsimp only [downgradeWrite]
    split
    · exact hwaker _ _ ‹_›
    · rfl

/-- The contract of the generic semaphore, over every interleaving of the seven
operations.  The last two parts say that a grant is never made in another mode
than the one asked for, and that the grants made so far, followed by the waiters
still queued, are exactly the arrivals in their order: no waiter is granted
twice or overtaken. -/
theorem rwsem_run_contract {evs : List (Event Task)}
    (h : Run State.step State.init evs s) :
    (∀ tsk ∈ s.writers, s.writers = [tsk] ∧ s.readers = []) ∧
      ((s.sem.activity = -1 ∧ s.writers.length = 1) ∨
        (s.sem.activity = s.readers.length ∧ s.writers = [])) ∧
      (s.sem.activity = 0 → s.sem.waitList = []) ∧
      (0 < s.sem.activity → WriterHeads s.sem.waitList) ∧
      (∀ g ∈ grantsOf evs, g.mode = g.waiter.flags) ∧
      (grantsOf evs).map Grant.waiter ++ s.sem.waitList = queuedWaiters evs := by
  obtain ⟨hc, hfifo, hmode⟩ := run_consistent h
  refine ⟨fun _ => hc.alone, ?_⟩
  cases hc with
  | exclusive tsk hact hw hr =>
    refine ⟨Or.inl ⟨hact, by simp [hw]⟩, ?_, ?_, hmode, hfifo⟩
    · intro h0; omega
    · intro hpos; omega
  | shared hact hw hfree hhead =>
    refine ⟨Or.inr ⟨hact, hw⟩, ?_, fun _ => hhead, hmode, hfifo⟩
    intro h0
    exact hfree (length_eq_zero_iff.mp (by omega))

end

/-- A writer holds the lock while a reader and a writer queue behind it; its
release hands the lock to the reader. -/
theorem rwsem_run_contract_handover :
    ∃ (evs : List (Event Nat)) (s : State Nat), Run State.step State.init evs s ∧
      grantsOf evs = [⟨⟨1, .waitingForRead⟩, .waitingForRead⟩] ∧
      s.sem = { activity := 1, waitList := [⟨2, .waitingForWrite⟩] } ∧
      (0 < s.sem.activity → WriterHeads s.sem.waitList) := by
  have h : Run State.step State.init _ _ :=
    .tail (.upWrite 0) (.tail (.downWrite 2) (.tail (.downRead 1)
      (.single (.downWrite 0) rfl) rfl) rfl) rfl
  exact ⟨_, _, h, rfl, rfl, (rwsem_run_contract h).2.2.2.1⟩

end LinuxKernel.Lib.RwsemSpinlock
