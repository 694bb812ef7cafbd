/-
  POSIX byte-range locks.

  Source: fs/locks.c, `locks_overlap`, `locks_conflict`, `posix_locks_conflict`,
  `locks_insert_lock`, `locks_delete_lock`, `__posix_lock_file`.

  The locks are records in memory; `flock` is the part of `i_flock` that holds POSIX
  locks, as the list of their addresses.  `loff_t` is a 63-bit number here, and no
  sum below leaves its range.  Two locks have the same owner when `fl_owner` is the
  same.  What is not in the list is left out: waiters, their wake-up, the callbacks
  of file systems and lock managers.  Whether `posix_locks_deadlock` finds a cycle is
  part of `Env`, as is the memory that `locks_alloc_lock` returns.
-/
import LinuxKernel.Foundation.Run

namespace LinuxKernel.Fs.Locks

open Foundation Function

def OFFSET_MAX : Int := 2 ^ 63 - 1

/-- `fl_type` -/
inductive LockType where
  | RDLCK
  | WRLCK
  | UNLCK
  deriving DecidableEq, Repr

/-- `struct file_lock` -/
structure FileLock (ω : Type) where
  owner : ω
  type : LockType
  start : Int
  stop : Int

/-- `fl_flags` of a request -/
structure Flags where
  /-- FL_ACCESS: not trying to lock, just looking -/
  access : Bool
  /-- FL_SLEEP: a blocking lock -/
  sleep : Bool
  /-- FL_EXISTS: when unlocking, test for existence -/
  exist : Bool

structure Env (α : Type) where
  newFl : Option α
  newFl2 : Option α
  deadlock : Bool

inductive Result where
  | ok
  | EAGAIN
  | EDEADLK
  | ENOLCK
  | ENOENT
  deriving DecidableEq, Repr

structure State (α ω : Type) where
  lock : α → FileLock ω
  flock : List α

section

variable {α ω : Type} [DecidableEq α] [DecidableEq ω]

/-- `locks_overlap` -/
def locksOverlap (fl1 fl2 : FileLock ω) : Bool :=
  decide (fl1.stop ≥ fl2.start) && decide (fl2.stop ≥ fl1.start)

/-- `posix_same_owner` -/
def posixSameOwner (fl1 fl2 : FileLock ω) : Bool := decide (fl1.owner = fl2.owner)

/-- `locks_conflict` -/
def locksConflict (caller sys : FileLock ω) : Bool :=
  if sys.type = .WRLCK then true
  else if caller.type = .WRLCK then true
  else false

/-- `posix_locks_conflict` -/
def posixLocksConflict (caller sys : FileLock ω) : Bool :=
  if posixSameOwner caller sys then false
  else if locksOverlap caller sys then locksConflict caller sys
  else false

/-- The variables of `__posix_lock_file` after its main loop: `pre` are the locks before
`*before`, `rest` those from there on. -/
structure Scan (α ω : Type) where
  lock : α → FileLock ω
  pre : List α
  rest : List α
  request : α
  added : Bool
  left : Option α
  right : Option α

/-- Make one lock yielding from the lower start address of both locks to the higher end
address. -/
def mergeLocks (lock : α → FileLock ω) (request fl : α) : α → FileLock ω :=
  let lock :=
    if (lock fl).start > (lock request).start then
      update lock fl { lock fl with start := (lock request).start }
    else update lock request { lock request with start := (lock fl).start }
  if (lock fl).stop < (lock request).stop then
    update lock fl { lock fl with stop := (lock request).stop }
  else update lock request { lock request with stop := (lock fl).stop }

/-- Replace the old lock with the new one. -/
def replaceLock (lock : α → FileLock ω) (request fl : α) : α → FileLock ω :=
  update lock fl
    { lock fl with
      start := (lock request).start, stop := (lock request).stop, type := (lock request).type }

/-- Process locks with this owner. -/
def scan (lock : α → FileLock ω) (pre : List α) (request : α) (added : Bool) (left : Option α) :
    List α → Scan α ω
  | [] => ⟨lock, pre, [], request, added, left, none⟩
  | fl :: rest =>
    if posixSameOwner (lock request) (lock fl) then
      if (lock request).type = (lock fl).type then
        if (lock fl).stop < (lock request).start - 1 then
          scan lock (pre ++ [fl]) request added left rest
        else if (lock fl).start - 1 > (lock request).stop then
          ⟨lock, pre, fl :: rest, request, added, left, none⟩
        else if added then
          -- `locks_delete_lock(before)`
          scan (mergeLocks lock request fl) pre request added left rest
        else scan (mergeLocks lock request fl) (pre ++ [fl]) fl true left rest
      else if (lock fl).stop < (lock request).start then
        scan lock (pre ++ [fl]) request added left rest
      else if (lock fl).start > (lock request).stop then
        ⟨lock, pre, fl :: rest, request, added, left, none⟩
      else
        let added := if (lock request).type = .UNLCK then true else added
        let left := if (lock fl).start < (lock request).start then some fl else left
        if (lock fl).stop > (lock request).stop then
          ⟨lock, pre, fl :: rest, request, added, left, some fl⟩
        else if (lock fl).start ≥ (lock request).start then
          if added then scan lock pre request added left rest
          else scan (replaceLock lock request fl) (pre ++ [fl]) fl true left rest
        else scan lock (pre ++ [fl]) request added left rest
    else ⟨lock, pre, fl :: rest, request, added, left, none⟩

/-- What is done to `right` and `left` at the end. -/
def trimNeighbours (sc : Scan α ω) (newFl2 : Option α) : State α ω :=
  match sc.right, newFl2 with
  | some right, some new =>
    if sc.left = some right then
      -- the new lock breaks the old one in two pieces
      let lock := update sc.lock new (sc.lock right)
      let lock := update lock right
        { lock right with start := (lock sc.request).stop + 1 }
      let lock := update lock new { lock new with stop := (lock sc.request).start - 1 }
      ⟨lock, sc.pre ++ new :: sc.rest⟩
    else trimBoth right
  | some right, none => trimBoth right
  | none, _ => ⟨trimLeft sc.lock, sc.pre ++ sc.rest⟩
where
  trimLeft (lock : α → FileLock ω) : α → FileLock ω :=
    match sc.left with
    | some left => update lock left { lock left with stop := (lock sc.request).start - 1 }
    | none => lock
  trimBoth (right : α) : State α ω :=
    let lock := update sc.lock right
      { sc.lock right with start := (sc.lock sc.request).stop + 1 }
    ⟨trimLeft lock, sc.pre ++ sc.rest⟩

/-- `__posix_lock_file` behind the main loop. -/
def finish (sc : Scan α ω) (flags : Flags) (newFl newFl2 : Option α) : State α ω × Result :=
  if sc.right.isSome ∧ sc.left = sc.right ∧ newFl2 = none then (⟨sc.lock, sc.pre ++ sc.rest⟩, .ENOLCK)
  else if sc.added then (trimNeighbours sc newFl2, .ok)
  else if (sc.lock sc.request).type = .UNLCK then
    (⟨sc.lock, sc.pre ++ sc.rest⟩, if flags.exist then .ENOENT else .ok)
  else
    match newFl with
    | none => (⟨sc.lock, sc.pre ++ sc.rest⟩, .ENOLCK)
    | some new =>
      let lock := update sc.lock new (sc.lock sc.request)
      (trimNeighbours { sc with lock := lock, rest := new :: sc.rest } newFl2, .ok)

/-- `__posix_lock_file` -/
def posixLockFile (s : State α ω) (request : α) (flags : Flags) (env : Env α) :
    State α ω × Result :=
  let r := s.lock request
  let needed := !flags.access &&
    (decide (r.type ≠ .UNLCK) || decide (r.start ≠ 0) || decide (r.stop ≠ OFFSET_MAX))
  let newFl := if needed then env.newFl else none
  let newFl2 := if needed then env.newFl2 else none
  if r.type ≠ .UNLCK ∧ s.flock.any (fun fl => posixLocksConflict r (s.lock fl)) then
    if flags.sleep then (s, if env.deadlock then .EDEADLK else .EAGAIN)
    else (s, .EAGAIN)
  else if flags.access then (s, .ok)
  else
    -- first skip locks owned by other processes
    let others := s.flock.takeWhile fun fl => !posixSameOwner r (s.lock fl)
    let mine := s.flock.dropWhile fun fl => !posixSameOwner r (s.lock fl)
    finish (scan s.lock others request false none mine) flags newFl newFl2

/-- A request: the caller fills in the structure at `request`. -/
structure Call (α ω : Type) where
  request : α
  fl : FileLock ω
  flags : Flags
  env : Env α

/-- The calls that have returned. -/
structure Event (ω : Type) where
  fl : FileLock ω
  flags : Flags
  result : Result

def step (s : State α ω) (call : Call α ω) : Option (State α ω × List (Event ω)) :=
  let s := { s with lock := update s.lock call.request call.fl }
  let (s, result) := posixLockFile s call.request call.flags call.env
  some (s, [⟨call.fl, call.flags, result⟩])

/-- The type of the lock that an owner holds on a byte. -/
def held (s : State α ω) (owner : ω) (byte : Int) : Option LockType :=
  (s.flock.find? fun fl => decide ((s.lock fl).owner = owner) &&
    (decide ((s.lock fl).start ≤ byte) && decide (byte ≤ (s.lock fl).stop))).map
      fun fl => (s.lock fl).type

end

end LinuxKernel.Fs.Locks
