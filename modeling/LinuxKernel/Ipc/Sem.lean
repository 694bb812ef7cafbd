/-
  System V semaphores.

  Source: ipc/sem.c, `try_atomic_semop`, `update_queue`, `find_undo`, `sys_semtimedop`,
  `semctl_main` (SETVAL, SETALL), `copy_semundo`, `exit_sem`.

  One array, seen by any number of tasks.  The pending queue is the list of its
  entries.  An undo list has at most one undo structure for the array, so `undo` is a
  partial map from undo lists to `semadj`.  What runs with the array locked is one
  step; a task keeps what it knows between two of them in `Task`.  The counters that
  nothing here reads (`sempid`, `sem_otime`, `sem_ctime`) are left out.
-/
import LinuxKernel.Foundation.Loop
import LinuxKernel.Foundation.Run

namespace LinuxKernel.Ipc.Sem

open Foundation Function

def SEMVMX : Int := 32767

def SEMAEM : Int := SEMVMX

/-- `struct sembuf` -/
structure Sembuf where
  semNum : Nat
  semOp : Int16
  /-- IPC_NOWAIT -/
  nowait : Bool
  /-- SEM_UNDO -/
  undo : Bool

/-- What `try_atomic_semop` and the system calls return; `block` is the positive value. -/
inductive Result where
  | done
  | block
  | EAGAIN
  | ERANGE
  | EINTR
  | EINVAL
  | E2BIG
  | ENOMEM
  | EFBIG
  | EACCES
  deriving DecidableEq, Repr

/-- `struct sem_array`, with the undo structures on it. -/
structure SemArray (L : Type) where
  nsems : Nat
  semval : Nat → Int
  undo : L → Option (Nat → Int16)

/-- `struct sem_queue` -/
structure SemQueue (T L : Type) where
  sleeper : T
  sops : List Sembuf
  undo : Option L
  alter : Bool

/-- Where a task is in `sys_semtimedop`. -/
inductive Task (L : Type) where
  /-- not in the call -/
  | running
  /-- behind `find_undo`, before `sem_lock` -/
  | found (sops : List Sembuf) (un : Option L)
  /-- in `schedule`, `queue.status` is -EINTR -/
  | asleep
  /-- `queue.status` has been set -/
  | woken (status : Result)

structure State (T L : Type) where
  array : SemArray L
  pending : List (SemQueue T L)
  task : T → Task L
  /-- the tasks that exist -/
  tasks : List T
  undoList : T → Option L
  refcnt : L → Nat

section

variable {T L : Type} [DecidableEq T] [DecidableEq L]

/-- The loop at `undo:`, over the operations done so far, the last one first. -/
def undoSemvals (semval : Nat → Int) : List Sembuf → Nat → Int
  | [] => semval
  | sop :: ops =>
    undoSemvals (update semval sop.semNum (semval sop.semNum - sop.semOp.toInt)) ops

/-- The loop behind the last operation, over all of them, the last one first. -/
def commitSemadj (semadj : Nat → Int16) : List Sembuf → Nat → Int16
  | [] => semadj
  | sop :: ops =>
    commitSemadj
      (if sop.undo then update semadj sop.semNum (semadj sop.semNum - sop.semOp) else semadj)
      ops

def commitUndo (array : SemArray L) (un : Option L) (ops : List Sembuf) : SemArray L :=
  match un with
  | none => array
  | some l =>
    { array with
      undo := update array.undo l ((array.undo l).map fun semadj => commitSemadj semadj ops) }

def wouldBlock (sop : Sembuf) : Result := if sop.nowait then .EAGAIN else .block

/-- `try_atomic_semop` from one operation on, with those done before it.  `none` is an
access to an undo structure that is not there. -/
def tryFrom (array : SemArray L) (un : Option L) (ops : List Sembuf) :
    List Sembuf → Option (SemArray L × Result)
  | [] => some (commitUndo array un ops, .done)
  | sop :: sops =>
    let result := array.semval sop.semNum
    let undone := { array with semval := undoSemvals array.semval ops }
    if sop.semOp = 0 ∧ result ≠ 0 then some (undone, wouldBlock sop)
    else
      let result := result + sop.semOp.toInt
      let next := { array with semval := update array.semval sop.semNum result }
      if result < 0 then some (undone, wouldBlock sop)
      else if result > SEMVMX then some (undone, .ERANGE)
      else if sop.undo then
        match un.bind array.undo with
        | none => none
        | some semadj =>
          let undo := (semadj sop.semNum).toInt - sop.semOp.toInt
          if undo < -SEMAEM - 1 ∨ undo > SEMAEM then some (undone, .ERANGE)
          else tryFrom next un (sop :: ops) sops
      else tryFrom next un (sop :: ops) sops

/-- `try_atomic_semop` -/
def tryAtomicSemop (array : SemArray L) (sops : List Sembuf) (un : Option L) :
    Option (SemArray L × Result) :=
  tryFrom array un [] sops

/-- `update_queue` at `q`, the first entry of `rest`: the queue is `passed ++ rest`. -/
structure Update (T L : Type) where
  s : State T L
  passed : List (SemQueue T L)
  rest : List (SemQueue T L)

def updateRound (u : Update T L) : Option (State T L ⊕ Update T L) :=
  match u.rest with
  | [] => some (.inl u.s)
  | q :: rest =>
    match tryAtomicSemop u.s.array q.sops q.undo with
    | none => none
    | some (array, error) =>
      if error ≠ .block then
        let s := { u.s with
          array := array
          pending := u.passed ++ rest
          task := update u.s.task q.sleeper (.woken error) }
        if q.alter then some (.inr ⟨s, [], u.passed ++ rest⟩)
        else some (.inr ⟨s, u.passed, rest⟩)
      else some (.inr ⟨{ u.s with array := array }, u.passed ++ [q], rest⟩)

/-- `update_queue` -/
def updateQueue (s : State T L) : Option (State T L) :=
  loop updateRound ⟨s, [], s.pending⟩

/-! ## The system calls -/

def undos (sops : List Sembuf) : Bool := sops.any fun sop => sop.undo

def alters (sops : List Sembuf) : Bool := sops.any fun sop => decide (sop.semOp ≠ 0)

def maxNum (sops : List Sembuf) : Nat :=
  sops.foldl (fun max sop => if sop.semNum ≥ max then sop.semNum else max) 0

/-- `get_undo_list`; `newList` is what `kzalloc` returns. -/
def getUndoList (s : State T L) (t : T) (newList : Option L) : Option (State T L × L) :=
  match s.undoList t with
  | some l => some (s, l)
  | none =>
    match newList with
    | none => none
    | some l =>
      some ({ s with
        undoList := update s.undoList t (some l)
        refcnt := update s.refcnt l 1 }, l)

/-- `find_undo` for the array; `newUndo` says whether `kzalloc` has memory. -/
def findUndo (s : State T L) (t : T) (newList : Option L) (newUndo : Bool) :
    State T L × Option L :=
  match getUndoList s t newList with
  | none => (s, none)
  | some (s, l) =>
    match s.array.undo l with
    | some _ => (s, some l)
    | none =>
      if newUndo then
        ({ s with array := { s.array with
            undo := update s.array.undo l (some fun _ => 0) } }, some l)
      else (s, none)

def setTask (s : State T L) (t : T) (task : Task L) : State T L :=
  { s with task := update s.task t task }

/-- The calls that return. -/
inductive Event (T : Type) where
  | returned (t : T) (result : Result)
  deriving DecidableEq

/-- `sys_semtimedop` up to `find_undo`. -/
def enter (s : State T L) (t : T) (sops : List Sembuf) (semopm : Nat) (newList : Option L)
    (newUndo : Bool) : State T L × List (Event T) :=
  if sops.length < 1 then (s, [.returned t .EINVAL])
  else if sops.length > semopm then (s, [.returned t .E2BIG])
  else if undos sops then
    match findUndo s t newList newUndo with
    | (s, none) => (s, [.returned t .ENOMEM])
    | (s, some un) => (setTask s t (.found sops (some un)), [])
  else (setTask s t (.found sops none), [])

/-- `sys_semtimedop` from `sem_lock` to `sem_unlock`; `denied` is the answer of `ipcperms`
and `security_sem_semop`. -/
def attempt (s : State T L) (t : T) (sops : List Sembuf) (un : Option L) (denied : Bool) :
    Option (State T L × List (Event T)) :=
  let back := setTask s t .running
  if maxNum sops ≥ s.array.nsems then some (back, [.returned t .EFBIG])
  else if denied then some (back, [.returned t .EACCES])
  else
    match tryAtomicSemop s.array sops un with
    | none => none
    | some (array, error) =>
      let s := { s with array := array }
      if error ≠ .block then
        let s := setTask s t .running
        if alters sops ∧ error = .done then
          match updateQueue s with
          | none => none
          | some s => some (s, [.returned t error])
        else some (s, [.returned t error])
      else
        let q : SemQueue T L := ⟨t, sops, un, alters sops⟩
        -- `append_to_queue`, `prepend_to_queue`
        let pending := if q.alter then s.pending ++ [q] else q :: s.pending
        some (setTask { s with pending := pending } t .asleep, [])

/-- `sys_semtimedop` behind `schedule`, when `queue.status` is still -EINTR. -/
def interrupted (s : State T L) (t : T) (timeout : Bool) : State T L × List (Event T) :=
  (setTask { s with pending := s.pending.filter fun q => q.sleeper ≠ t } t .running,
    [.returned t (if timeout then .EAGAIN else .EINTR)])

/-- `semctl_main`, SETVAL -/
def setval (s : State T L) (semnum : Nat) (val : Int) : Option (State T L) :=
  if semnum ≥ s.array.nsems then some s
  else if val > SEMVMX ∨ val < 0 then some s
  else
    updateQueue { s with array := { s.array with
      undo := fun l => (s.array.undo l).map fun semadj => update semadj semnum 0
      semval := update s.array.semval semnum val } }

/-- `semctl_main`, SETALL -/
def setall (s : State T L) (semIo : Nat → UInt16) : Option (State T L) :=
  if (List.range s.array.nsems).any fun i => decide (((semIo i).toNat : Int) > SEMVMX) then some s
  else
    updateQueue { s with array := { s.array with
      semval := fun i => if i < s.array.nsems then ((semIo i).toNat : Int) else s.array.semval i
      undo := fun l => (s.array.undo l).map fun semadj i =>
        if i < s.array.nsems then 0 else semadj i } }

/-- `copy_semundo`; `share` is CLONE_SYSVSEM. -/
def copySemundo (s : State T L) (t child : T) (share : Bool) (newList : Option L) : State T L :=
  if share then
    match getUndoList s t newList with
    | none => s
    | some (s, l) =>
      { s with
        tasks := child :: s.tasks
        task := update s.task child .running
        undoList := update s.undoList child (some l)
        refcnt := update s.refcnt l (s.refcnt l + 1) }
  else
    { s with
      tasks := child :: s.tasks
      task := update s.task child .running
      undoList := update s.undoList child none }

/-- The adjustment of one semaphore in `exit_sem`. -/
def adjust (semval : Int) (semadj : Int16) : Int :=
  if semadj ≠ 0 then
    let semval := semval + semadj.toInt
    let semval := if semval < 0 then 0 else semval
    if semval > SEMVMX then SEMVMX else semval
  else semval

/-- `exit_sem` -/
def exitSem (s : State T L) (t : T) : Option (State T L) :=
  let gone := { s with
    tasks := s.tasks.erase t
    undoList := update s.undoList t none }
  match s.undoList t with
  | none => some gone
  | some l =>
    let gone := { gone with refcnt := update s.refcnt l (s.refcnt l - 1) }
    if s.refcnt l - 1 ≠ 0 then some gone
    else
      match s.array.undo l with
      | none => some gone
      | some semadj =>
        updateQueue { gone with array := { s.array with
          undo := update s.array.undo l none
          semval := fun i =>
            if i < s.array.nsems then adjust (s.array.semval i) (semadj i) else s.array.semval i } }

inductive Call (T L : Type) where
  | enter (t : T) (sops : List Sembuf) (semopm : Nat) (newList : Option L) (newUndo : Bool)
  | attempt (t : T) (denied : Bool)
  /-- a timeout or a signal -/
  | interrupted (t : T) (timeout : Bool)
  /-- a sleeper that has been woken gets to run -/
  | resume (t : T)
  | setval (semnum : Nat) (val : Int)
  | setall (semIo : Nat → UInt16)
  | copySemundo (t child : T) (share : Bool) (newList : Option L)
  | exitSem (t : T)

/-- A call is made by a task that exists and is not inside another one. -/
def step (s : State T L) : Call T L → Option (State T L × List (Event T))
  | .enter t sops semopm newList newUndo =>
    match decide (t ∈ s.tasks), s.task t with
    | true, .running => some (enter s t sops semopm newList newUndo)
    | _, _ => none
  | .attempt t denied =>
    match s.task t with
    | .found sops un => attempt s t sops un denied
    | _ => none
  | .interrupted t timeout =>
    match s.task t with
    | .asleep => some (interrupted s t timeout)
    | _ => none
  | .resume t =>
    match s.task t with
    | .woken status => some (setTask s t .running, [.returned t status])
    | _ => none
  | .setval semnum val => (setval s semnum val).map fun s => (s, [])
  | .setall semIo => (setall s semIo).map fun s => (s, [])
  | .copySemundo t child share newList =>
    match decide (t ∈ s.tasks ∧ child ∉ s.tasks), s.task t with
    | true, .running => some (copySemundo s t child share newList, [])
    | _, _ => none
  | .exitSem t =>
    match decide (t ∈ s.tasks), s.task t with
    | true, .running => (exitSem s t).map fun s => (s, [])
    | _, _ => none

/-- An array that has just been made. -/
def newary (nsems : Nat) (tasks : List T) : State T L where
  array := ⟨nsems, fun _ => 0, fun _ => none⟩
  pending := []
  task := fun _ => .running
  tasks := tasks
  undoList := fun _ => none
  refcnt := fun _ => 0

end

end LinuxKernel.Ipc.Sem
