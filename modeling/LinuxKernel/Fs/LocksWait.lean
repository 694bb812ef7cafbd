/-
  Requests that wait for a lock.

  Source: fs/locks.c, `locks_insert_block`, `locks_delete_block`, `locks_wake_up_blocks`,
  `locks_delete_lock`, `posix_locks_deadlock`, `__posix_lock_file`, `flock_locks_conflict`,
  `flock_lock_file`.

  The locks of all inodes, POSIX and FLOCK.  `blocked` is `blocked_list`, each waiter
  with its `fl_next`, the lock on whose `fl_block` it is; `waiting` are the waiters on
  FLOCK locks, which are on no such list.  What runs under the big kernel lock is one
  step.  `flock_lock_file` may give it up in `cond_resched`, so its two halves are steps
  of their own.
-/
import LinuxKernel.Fs.Locks
import LinuxKernel.Foundation.Loop

namespace LinuxKernel.Fs.Locks

open Foundation Function List Function

/-! ## The code -/

/-- `fl_type` of a FLOCK lock: with LOCK_MAND it says how the file is shared. -/
inductive FlockType where
  | lock (type : LockType)
  | mand (mode : Nat)
  deriving DecidableEq, Repr

/-- `struct file_lock` of a FLOCK lock -/
structure FlockLock (φ : Type) where
  file : φ
  type : FlockType

structure Posix (ι α ω : Type) where
  lock : α → FileLock ω
  /-- the POSIX locks in `i_flock` -/
  flock : ι → List α
  blocked : List (α × α)

structure Flock (ι α φ : Type) where
  lock : α → FlockLock φ
  /-- the FLOCK locks in `i_flock` -/
  flock : ι → List α
  waiting : List (α × α)

section

variable {ι α ω φ : Type} [DecidableEq ι] [DecidableEq α] [DecidableEq ω] [DecidableEq φ]

/-- The locks whose waiters the main loop of `__posix_lock_file` wakes: those that it
deletes, and one that it replaces. -/
def scanWakes (lock : α → FileLock ω) (request : α) (added : Bool) : List α → List α
  | [] => []
  | fl :: rest =>
    if posixSameOwner (lock request) (lock fl) then
      if (lock request).type = (lock fl).type then
        if (lock fl).stop < (lock request).start - 1 then scanWakes lock request added rest
        else if (lock fl).start - 1 > (lock request).stop then []
        else if added then fl :: scanWakes (mergeLocks lock request fl) request added rest
        else scanWakes (mergeLocks lock request fl) fl true rest
      else if (lock fl).stop < (lock request).start then scanWakes lock request added rest
      else if (lock fl).start > (lock request).stop then []
      else
        let added := if (lock request).type = .UNLCK then true else added
        if (lock fl).stop > (lock request).stop then []
        else if (lock fl).start ≥ (lock request).start then
          if added then fl :: scanWakes lock request added rest
          else fl :: scanWakes (replaceLock lock request fl) fl true rest
        else scanWakes lock request added rest
    else []

/-- The locks whose waiters `__posix_lock_file` wakes when nothing conflicts; at its end
those are `right` and `left`. -/
def posixWakes (s : State α ω) (request : α) (flags : Flags) (env : Env α) : List α :=
  if flags.access then []
  else
    let r := s.lock request
    let others := s.flock.takeWhile fun fl => !posixSameOwner r (s.lock fl)
    let mine := s.flock.dropWhile fun fl => !posixSameOwner r (s.lock fl)
    let sc := scan s.lock others request false none mine
    scanWakes s.lock request false mine ++
      if (posixLockFile s request flags env).2 = .ok then sc.right.toList ++ sc.left.toList else []

/-- One time through `posix_locks_deadlock` from `next_task`. -/
def deadlockRound (lock : α → FileLock ω) (blocked : List (α × α)) (caller : ω) (block : α) :
    Bool ⊕ α :=
  if caller = (lock block).owner then .inl true
  else
    match blocked.find? fun w => decide ((lock w.1).owner = (lock block).owner) with
    | some w => .inr w.2
    | none => .inl false

/-- `posix_locks_deadlock`; `none` if it does not return. -/
def posixLocksDeadlock (lock : α → FileLock ω) (blocked : List (α × α)) (caller : ω) (block : α) :
    Option Bool :=
  loop (fun block => some (deadlockRound lock blocked caller block)) block

/-- The first lock that conflicts with a request. -/
def firstConflict (s : Posix ι α ω) (i : ι) (fl : FileLock ω) : Option α :=
  if fl.type = .UNLCK then none else (s.flock i).find? fun a => posixLocksConflict fl (s.lock a)

/-- `__posix_lock_file` on inode `i`, for the record at `request`. -/
def posixRequest (s : Posix ι α ω) (i : ι) (request : α) (flags : Flags) (env : Env α) :
    Option (Posix ι α ω × Result) :=
  match firstConflict s i (s.lock request) with
  | some fl =>
    if flags.sleep then
      (posixLocksDeadlock s.lock s.blocked (s.lock request).owner fl).map fun deadlock =>
        if deadlock then (s, .EDEADLK) else ({ s with blocked := (request, fl) :: s.blocked }, .EAGAIN)
    else some (s, .EAGAIN)
  | none =>
    let out := posixLockFile ⟨s.lock, s.flock i⟩ request flags env
    let wakes := posixWakes ⟨s.lock, s.flock i⟩ request flags env
    some (⟨out.1.lock, update s.flock i out.1.flock,
      s.blocked.filter fun w => decide (w.2 ∉ wakes)⟩, out.2)

inductive PosixCall (ι α ω : Type) where
  | request (i : ι) (request : α) (fl : FileLock ω) (flags : Flags) (env : Env α)
  /-- `locks_delete_block` -/
  | cancel (waiter : α)

/-- The caller fills in the structure at `request`. -/
def Posix.fill (s : Posix ι α ω) (request : α) (fl : FileLock ω) : Posix ι α ω :=
  { s with lock := update s.lock request fl }

def posixStep (s : Posix ι α ω) : PosixCall ι α ω → Option (Posix ι α ω × List Result)
  | .request i request fl flags env =>
    (posixRequest (s.fill request fl) i request flags env).map fun out => (out.1, [out.2])
  | .cancel waiter => some ({ s with blocked := s.blocked.filter fun w => decide (w.1 ≠ waiter) }, [])

/-- `flock_locks_conflict` -/
def flockLocksConflict (caller sys : FlockLock φ) : Bool :=
  if caller.file = sys.file then false
  else
    match caller.type, sys.type with
    | .lock t, .lock t' => decide (t' = .WRLCK) || decide (t = .WRLCK)
    | _, _ => false

inductive FlockCall (ι α φ : Type) where
  /-- `flock_lock_file` up to `cond_resched` -/
  | remove (i : ι) (fl : FlockLock φ)
  /-- `flock_lock_file` from `find_conflict` on; `locks_alloc_lock` has returned `new` -/
  | find (i : ι) (request : α) (fl : FlockLock φ) (flags : Flags) (new : α)
  | cancel (waiter : α)

def flockStep (s : Flock ι α φ) : FlockCall ι α φ → Flock ι α φ
  | .remove i fl =>
    match (s.flock i).find? fun a => decide ((s.lock a).file = fl.file) with
    | none => s
    | some old =>
      if fl.type = (s.lock old).type then s
      else ⟨s.lock, update s.flock i ((s.flock i).erase old),
        s.waiting.filter fun w => decide (w.2 ≠ old)⟩
  | .find i request fl flags new =>
    let lock := update s.lock request fl
    match (s.flock i).find? fun a => flockLocksConflict fl (lock a) with
    | some a =>
      if flags.sleep then ⟨lock, s.flock, (request, a) :: s.waiting⟩ else ⟨lock, s.flock, s.waiting⟩
    | none =>
      if flags.access then ⟨lock, s.flock, s.waiting⟩
      else ⟨update lock new fl, update s.flock i (s.flock i ++ [new]), s.waiting⟩
  | .cancel waiter => { s with waiting := s.waiting.filter fun w => decide (w.1 ≠ waiter) }

/-- A step of the whole system. -/
def waitStep (s : Posix ι α ω × Flock ι α φ) :
    PosixCall ι α ω ⊕ FlockCall ι α φ → Option ((Posix ι α ω × Flock ι α φ) × List Result)
  | .inl call => (posixStep s.1 call).map fun out => ((out.1, s.2), out.2)
  | .inr call => some ((s.1, flockStep s.2 call), [])

end

/-! ## What a request does to the locks with waiters -/

section

variable {α ω : Type} {lock lock1 lock2 : α → FileLock ω} {a fl request : α}
  {pre rest wakes : List α} {left : Option α} {out : Scan α ω}

/-- The lock still has its owner and type, and covers what it covered. -/
structure Kept (lock lock' : α → FileLock ω) (a : α) : Prop where
  owner : (lock' a).owner = (lock a).owner
  type : (lock' a).type = (lock a).type
  start : (lock' a).start ≤ (lock a).start
  stop : (lock a).stop ≤ (lock' a).stop

theorem Kept.of_eq (h : lock1 a = lock a) : Kept lock lock1 a := by constructor <;> simp [h]

theorem Kept.trans (h1 : Kept lock lock1 a) (h2 : Kept lock1 lock2 a) : Kept lock lock2 a :=
  ⟨h2.owner.trans h1.owner, h2.type.trans h1.type, Int.le_trans h2.start h1.start,
    Int.le_trans h1.stop h2.stop⟩

/-- What the main loop does: a lock is among those whose waiters it wakes, or is kept. -/
structure Scanned (lock : α → FileLock ω) (pre l : List α) (request : α) (left : Option α)
    (wakes : List α) (out : Scan α ω) : Prop where
  kept : ∀ a ∈ pre ++ l, a ∈ wakes ∨ a ∈ out.pre ++ out.rest ∧ Kept lock out.lock a
  frame : ∀ a ∉ l, a ≠ request → out.lock a = lock a
  mem : ∀ a ∈ out.pre ++ out.rest, a ∈ pre ++ l
  sides : ∀ a, out.left = some a ∨ out.right = some a → left = some a ∨ a ∈ l

/-- One round more in front. -/
theorem Scanned.next {pre1 wakes1 : List α} {request1 : α} {left1 : Option α}
    (h : Scanned lock1 pre1 rest request1 left1 wakes1 out)
    (hlock : ∀ a, a ≠ fl ∨ fl ∉ wakes → Kept lock lock1 a)
    (hframe : ∀ a, a ≠ fl → a ≠ request → lock1 a = lock a)
    (hpre : pre1 = pre ++ [fl] ∨ pre1 = pre ∧ fl ∈ wakes) (hwakes : ∀ a ∈ wakes1, a ∈ wakes)
    (hreq : request1 = request ∨ request1 = fl)
    (hleft : ∀ a, left1 = some a → left = some a ∨ a = fl) :
    Scanned lock pre (fl :: rest) request left wakes out := by
  refine ⟨fun a ha => ?_, fun a ha hne => ?_, fun a ha => ?_, fun a ha => ?_⟩
  · by_cases hw : a ∈ wakes
    · exact .inl hw
    have hin : a ∈ pre1 ++ rest := by grind
    rcases h.kept a hin with hw' | ⟨hmem, hk⟩
    · exact .inl (hwakes a hw')
    · exact .inr ⟨hmem, (hlock a (by grind)).trans hk⟩
  · rw [h.frame a (by grind) (by grind), hframe a (by grind) hne]
  · have := h.mem a ha
    grind
  · have := h.sides a ha
    grind

/-- The loop ends here. -/
theorem Scanned.here (lock : α → FileLock ω) (pre l : List α) (request : α) (added : Bool)
    {left left' right : Option α} (wakes : List α)
    (h : ∀ a, left' = some a ∨ right = some a → left = some a ∨ a ∈ l) :
    Scanned lock pre l request left wakes ⟨lock, pre, l, request, added, left', right⟩ :=
  ⟨fun _ ha => .inr ⟨ha, .of_eq rfl⟩, fun _ _ _ => rfl, fun _ ha => ha, h⟩

variable [DecidableEq α]

theorem mergeLocks_kept (lock : α → FileLock ω) (request fl a : α) :
    Kept lock (mergeLocks lock request fl) a ∧
      (a ≠ fl → a ≠ request → mergeLocks lock request fl a = lock a) := by
  unfold mergeLocks
  constructor
  · constructor <;> grind
  · grind

variable [DecidableEq ω]

theorem scan_scanned {l : List α} {lock : α → FileLock ω} {pre : List α} {request : α}
    {added : Bool} {left : Option α} :
    Scanned lock pre l request left (scanWakes lock request added l)
      (scan lock pre request added left l) := by
  induction l generalizing lock pre request added left with
  | nil => exact .here lock pre [] request added [] (by simp)
  | cons fl rest ih =>
    -- the round leaves the records as they are, or makes them cover more
    have hsame : ∀ {wakes : List α} (a : α), a ≠ fl ∨ fl ∉ wakes → Kept lock lock a :=
      fun _ _ => .of_eq rfl
    have hmerge : ∀ {wakes : List α} (a : α), a ≠ fl ∨ fl ∉ wakes →
        Kept lock (mergeLocks lock request fl) a := fun a _ => (mergeLocks_kept lock request fl a).1
    have hmerge' := fun a => (mergeLocks_kept lock request fl a).2
    rw [scan, scanWakes]
    dsimp only
    have hleft : ∀ a, (if (lock fl).start < (lock request).start then some fl else left) = some a →
        left = some a ∨ a = fl := by grind
    generalize (if (lock fl).start < (lock request).start then some fl else left) = left' at hleft ⊢
    generalize (if (lock request).type = .UNLCK then true else added) = added'
    split_ifs
    · exact ih.next hsame (by simp) (by simp) (by simp) (by simp) (by simp +contextual)
    · exact .here lock pre _ request added _ (by simp +contextual)
    · exact ih.next hmerge hmerge' (by simp) (by simp +contextual) (by simp) (by simp +contextual)
    · exact ih.next hmerge hmerge' (by simp) (by simp) (by simp) (by simp +contextual)
    · exact ih.next hsame (by simp) (by simp) (by simp) (by simp) (by simp +contextual)
    · exact .here lock pre _ request added _ (by simp +contextual)
    · exact .here lock pre _ request added' _ (by grind)
    · exact ih.next hsame (by simp) (by simp) (by simp +contextual) (by simp) hleft
    · refine ih.next (fun a ha => .of_eq ?_) ?_ (by simp) (by simp +contextual) (by simp) hleft
      · unfold replaceLock
        grind
      · unfold replaceLock
        grind
    · exact ih.next hsame (by simp) (by simp) (by simp) (by simp) hleft
    · exact .here lock pre _ request added _ (by simp +contextual)

omit [DecidableEq ω] in
/-- Only `right` and `left` are shrunk, and no lock is taken out any more. -/
theorem trimNeighbours_effect (sc : Scan α ω) {newFl2 : Option α} (hnew : newFl2 ≠ some a) :
    (a ∈ sc.right.toList ++ sc.left.toList ∨ (trimNeighbours sc newFl2).lock a = sc.lock a) ∧
      (a ∈ (trimNeighbours sc newFl2).flock ↔ a ∈ sc.pre ++ sc.rest) := by
  have hnew' (new) (h : newFl2 = some new) : a ≠ new := fun ha => hnew (by rw [h, ha])
  refine ⟨or_iff_not_imp_left.mpr fun h => ?_, ?_⟩
  · simp only [mem_append, Option.mem_toList, not_or] at h
    have hright : ∀ right, sc.right = some right → a ≠ right := fun _ hr ha => h.1 (by rw [hr, ha])
    have hleft : ∀ left, sc.left = some left → a ≠ left := fun _ hl ha => h.2 (by rw [hl, ha])
    have htrim (lock) : trimNeighbours.trimLeft sc lock a = lock a := by
      unfold trimNeighbours.trimLeft
      cases hl : sc.left with
      | none => rfl
      | some left => exact update_of_ne (hleft left hl) _ _
    have hboth (right) (hr : sc.right = some right) :
        (trimNeighbours.trimBoth sc right).lock a = sc.lock a :=
      (htrim _).trans (update_of_ne (hright right hr) _ _)
    unfold trimNeighbours
    split
    · rename_i right new hr
      split_ifs
      · dsimp only
        rw [update_of_ne (hnew' new rfl), update_of_ne (hright right hr),
          update_of_ne (hnew' new rfl)]
      · exact hboth right hr
    · exact hboth _ ‹_›
    · exact htrim _
  · unfold trimNeighbours trimNeighbours.trimBoth
    grind

omit [DecidableEq ω] in
theorem finish_effect (sc : Scan α ω) (flags : Flags) {newFl newFl2 : Option α}
    (hnew : newFl ≠ some a) (hnew2 : newFl2 ≠ some a) :
    ((finish sc flags newFl newFl2).2 = .ok ∧ a ∈ sc.right.toList ++ sc.left.toList ∨
        (finish sc flags newFl newFl2).1.lock a = sc.lock a) ∧
      (a ∈ (finish sc flags newFl newFl2).1.flock ↔ a ∈ sc.pre ++ sc.rest) := by
  unfold finish
  split_ifs
  · simp
  · simpa using trimNeighbours_effect sc hnew2
  · simp
  · simp
  · cases newFl with
    | none => simp
    | some new =>
      have hne : a ≠ new := fun h => hnew (by rw [h])
      have htrim := trimNeighbours_effect
        { sc with lock := update sc.lock new (sc.lock sc.request), rest := new :: sc.rest } hnew2
      simpa [hne] using htrim

/-- Of a lock in the list the waiters are woken, or it is kept; other records that the
call was not given stay as they are. -/
theorem posixLockFile_effect (s : State α ω) (flags : Flags) (env : Env α)
    (ha : a ∉ request :: (env.newFl.toList ++ env.newFl2.toList)) :
    (a ∈ s.flock → a ∈ posixWakes s request flags env ∨
      a ∈ (posixLockFile s request flags env).1.flock ∧
        Kept s.lock (posixLockFile s request flags env).1.lock a) ∧
    (a ∉ s.flock → (posixLockFile s request flags env).1.lock a = s.lock a ∧
      a ∉ (posixLockFile s request flags env).1.flock) := by
  simp only [mem_cons, mem_append, Option.mem_toList, not_or] at ha
  obtain ⟨hreq, hnew, hnew2⟩ := ha
  by_cases hout : (posixLockFile s request flags env).1 = s
  · rw [hout]
    exact ⟨fun h => .inr ⟨h, .of_eq rfl⟩, fun h => ⟨rfl, h⟩⟩
  have hconf : ¬ ((s.lock request).type ≠ .UNLCK ∧
      s.flock.any fun fl => posixLocksConflict (s.lock request) (s.lock fl)) := by
    refine fun hconf => hout ?_
    unfold posixLockFile
    rw [if_pos hconf]
    split_ifs <;> rfl
  have haccess : ¬ flags.access := by
    refine fun haccess => hout ?_
    unfold posixLockFile
    rw [if_neg hconf, if_pos haccess]
  unfold posixWakes
  rw [if_neg haccess]
  unfold posixLockFile
  dsimp only
  rw [if_neg hconf, if_neg haccess]
  set others := s.flock.takeWhile fun fl => !posixSameOwner (s.lock request) (s.lock fl)
  set mine := s.flock.dropWhile fun fl => !posixSameOwner (s.lock request) (s.lock fl)
  have hsplit : others ++ mine = s.flock := takeWhile_append_dropWhile
  have hscan : Scanned s.lock others mine request none (scanWakes s.lock request false mine)
    (scan s.lock others request false none mine) := scan_scanned
  set sc := scan s.lock others request false none mine
  generalize (!flags.access && (decide ((s.lock request).type ≠ .UNLCK) ||
    decide ((s.lock request).start ≠ 0) || decide ((s.lock request).stop ≠ OFFSET_MAX))) = needed
  obtain ⟨hlock, hmem⟩ := finish_effect sc flags
    (show (if needed then env.newFl else none) ≠ some a by split_ifs <;> simp [hnew])
    (show (if needed then env.newFl2 else none) ≠ some a by split_ifs <;> simp [hnew2])
  rw [hmem, ← hsplit]
  refine ⟨fun ha => ?_, fun ha => ⟨?_, fun h => ha (hscan.mem a h)⟩⟩
  · rcases hscan.kept a ha with hw | ⟨hin, hk⟩
    · exact .inl (mem_append_left _ hw)
    · rcases hlock with ⟨hok, hside⟩ | heq
      · exact .inl (mem_append_right _ (by rw [if_pos hok]; exact hside))
      · exact .inr ⟨hin, hk.trans (.of_eq heq)⟩
  · rcases hlock with ⟨-, hside⟩ | heq
    · have := hscan.sides a (by grind)
      grind
    · rw [heq, hscan.frame a (by grind) hreq]

end

/-! ## Waiters conflict with the lock they wait for -/

section

variable {ι α ω φ : Type} {s t u : Posix ι α ω} {evs : List Result} {call : PosixCall ι α ω}
  {w : α × α} {a request : α} {flags : Flags} {env : Env α} {i : ι} {result : Result}

/-- No lock and no waiter is at this address. -/
def Unused (flock : ι → List α) (waiters : List (α × α)) (a : α) : Prop :=
  (∀ i, a ∉ flock i) ∧ ∀ w ∈ waiters, w.1 ≠ a

/-- The records that the caller brings along or that are allocated. -/
def PosixCall.addresses : PosixCall ι α ω → List α
  | .request _ request _ _ env => request :: (env.newFl.toList ++ env.newFl2.toList)
  | .cancel _ => []

/-- They are not in use. -/
def PosixCall.Fresh (s : Posix ι α ω) (call : PosixCall ι α ω) : Prop :=
  ∀ a ∈ call.addresses, Unused s.flock s.blocked a

/-- A waiter before and after a step: its lock is kept, and still in a list. -/
structure Stays (s t : Posix ι α ω) (w : α × α) : Prop where
  mem : w ∈ s.blocked
  waiter : t.lock w.1 = s.lock w.1
  kept : Kept s.lock t.lock w.2
  listed : ∃ i, w.2 ∈ t.flock i
  out : ∀ i, w.1 ∉ t.flock i

theorem Stays.trans (h1 : Stays s t w) (h2 : Stays t u w) : Stays s u w :=
  ⟨h1.mem, h2.waiter.trans h1.waiter, h1.kept.trans h2.kept, h2.listed, h2.out⟩

variable [DecidableEq ω]

/-- A lock that is kept blocks what it blocked. -/
theorem Kept.conflict {lock lock' : α → FileLock ω} {fl : FileLock ω} (h : Kept lock lock' a)
    (hc : posixLocksConflict fl (lock a) = true) : posixLocksConflict fl (lock' a) = true := by
  have := h.start
  have := h.stop
  simp only [posixLocksConflict, posixSameOwner, locksOverlap, locksConflict, h.owner, h.type] at hc ⊢
  grind

/-- Every waiter conflicts with its lock, which is in a list; it is in none itself. -/
def PosixWaits (s : Posix ι α ω) : Prop :=
  ∀ w ∈ s.blocked, posixLocksConflict (s.lock w.1) (s.lock w.2) = true ∧
    (∃ i, w.2 ∈ s.flock i) ∧ ∀ i, w.1 ∉ s.flock i

theorem PosixWaits.stays (h : PosixWaits s) (hw : w ∈ s.blocked) : Stays s s w :=
  ⟨hw, rfl, .of_eq rfl, (h w hw).2.1, (h w hw).2.2⟩

theorem PosixWaits.of_stays (h : PosixWaits s) (hst : ∀ w ∈ t.blocked, Stays s t w) :
    PosixWaits t := by
  intro w hw
  have hs := hst w hw
  exact ⟨by rw [hs.waiter]; exact hs.kept.conflict (h w hs.mem).1, hs.listed, hs.out⟩

theorem PosixWaits.ne (h : PosixWaits s) (hw : w ∈ s.blocked) (ha : Unused s.flock s.blocked a) :
    w.1 ≠ a ∧ w.2 ≠ a := by
  obtain ⟨-, ⟨i, hi⟩, -⟩ := h w hw
  exact ⟨ha.2 w hw, fun he => ha.1 i (he ▸ hi)⟩

variable [DecidableEq α]

theorem PosixWaits.fill (h : PosixWaits s) (ha : Unused s.flock s.blocked request) (fl : FileLock ω)
    (hw : w ∈ s.blocked) : Stays s (s.fill request fl) w :=
  have hne := h.ne hw ha
  ⟨hw, update_of_ne hne.1 _ _, .of_eq (update_of_ne hne.2 _ _), (h w hw).2.1, (h w hw).2.2⟩

variable [DecidableEq ι]

section

variable (h : PosixWaits s)
  (hfresh : ∀ a ∈ request :: (env.newFl.toList ++ env.newFl2.toList), Unused s.flock s.blocked a)
include h hfresh

/-- The locks are changed and waiters are woken: the others stay. -/
theorem posixLockFile_stays
    (hw : w ∈ s.blocked) (hwake : w.2 ∉ posixWakes ⟨s.lock, s.flock i⟩ request flags env)
    (hlock : t.lock = (posixLockFile ⟨s.lock, s.flock i⟩ request flags env).1.lock)
    (hflock : t.flock = update s.flock i
      (posixLockFile ⟨s.lock, s.flock i⟩ request flags env).1.flock) : Stays s t w := by
  obtain ⟨-, ⟨j, hj⟩, hout⟩ := h w hw
  -- neither the waiter nor its lock is one of the records given to the call
  obtain ⟨-, hwaiter⟩ := posixLockFile_effect ⟨s.lock, s.flock i⟩ flags env
    fun hin => (h.ne hw (hfresh _ hin)).1 rfl
  obtain ⟨hin, hother⟩ := posixLockFile_effect ⟨s.lock, s.flock i⟩ flags env
    fun hin => (h.ne hw (hfresh _ hin)).2 rfl
  obtain ⟨hwlock, hwout⟩ := hwaiter (hout i)
  refine ⟨hw, by rw [hlock]; exact hwlock, ?_, ?_, fun k => ?_⟩
  · rw [hlock]
    by_cases hmem : w.2 ∈ s.flock i
    · exact ((hin hmem).resolve_left hwake).2
    · exact .of_eq (hother hmem).1
  · rw [hflock]
    by_cases hmem : w.2 ∈ s.flock i
    · exact ⟨i, by simpa using ((hin hmem).resolve_left hwake).1⟩
    · have hne : j ≠ i := by rintro rfl; exact hmem hj
      exact ⟨j, by rwa [update_of_ne hne]⟩
  · rw [hflock]
    by_cases hk : k = i
    · simpa [hk] using hwout
    · rw [update_of_ne hk]
      exact hout k

/-- A request leaves the waiters that it does not wake, or is queued because no deadlock
was found. -/
theorem posixRequest_blocked (hout : posixRequest s i request flags env = some (t, result)) :
    (∀ w ∈ t.blocked, Stays s t w) ∨ ∃ b, firstConflict s i (s.lock request) = some b ∧
      posixLocksDeadlock s.lock s.blocked (s.lock request).owner b = some false ∧
      t = { s with blocked := (request, b) :: s.blocked } := by
  unfold posixRequest at hout
  cases hfirst : firstConflict s i (s.lock request) with
  | some b =>
    simp only [hfirst] at hout
    by_cases hsleep : flags.sleep
    · simp only [hsleep, if_true, Option.map_eq_some_iff] at hout
      obtain ⟨deadlock, hdead, hout⟩ := hout
      cases deadlock with
      | true => cases hout; exact .inl fun w hw => h.stays hw
      | false => cases hout; exact .inr ⟨b, rfl, hdead, rfl⟩
    · simp only [hsleep] at hout
      cases hout
      exact .inl fun w hw => h.stays hw
  | none =>
    simp only [hfirst] at hout
    cases hout
    refine .inl fun w hw => ?_
    simp only [mem_filter, decide_eq_true_eq] at hw
    exact posixLockFile_stays h hfresh hw.1 hw.2 rfl rfl

end

section

variable (h : PosixWaits s) (hfresh : call.Fresh s) (hstep : posixStep s call = some (t, evs))
include h hfresh hstep

/-- A step leaves the waiters that it does not wake, or queues a request for which no
deadlock was found. -/
theorem posixStep_blocked : (∀ w ∈ t.blocked, Stays s t w) ∨
      ∃ i request fl flags env b, call = .request i request fl flags env ∧
        firstConflict (s.fill request fl) i fl = some b ∧
        posixLocksDeadlock (s.fill request fl).lock s.blocked fl.owner b = some false ∧
        t = { s.fill request fl with blocked := (request, b) :: s.blocked } := by
  cases call with
  | request i request fl flags env =>
    simp only [posixStep, Option.map_eq_some_iff, Prod.exists] at hstep
    obtain ⟨u, result, hout, rfl, rfl⟩ := hstep
    have hfill : ∀ w ∈ (s.fill request fl).blocked, Stays s (s.fill request fl) w :=
      fun w hw => h.fill (hfresh request mem_cons_self) fl hw
    have hself : (s.fill request fl).lock request = fl := update_self ..
    rcases posixRequest_blocked (h.of_stays hfill) hfresh hout with hst | ⟨b, hb⟩
    · exact .inl fun w hw => (hfill w (hst w hw).mem).trans (hst w hw)
    · rw [hself] at hb
      exact .inr ⟨i, request, fl, flags, env, b, rfl, hb⟩
  | cancel waiter =>
    cases hstep
    refine .inl fun w hw => ?_
    have hs := h.stays (mem_of_mem_filter hw)
    exact { hs with }

theorem posixStep_waits : PosixWaits t := by
  rcases posixStep_blocked h hfresh hstep with hst | ⟨i, request, fl, flags, env, b, rfl, hb, -, rfl⟩
  · exact h.of_stays hst
  have hrequest := hfresh request mem_cons_self
  have hfind := (Option.ite_none_left_eq_some.mp hb).2
  intro w hw
  rcases mem_cons.mp hw with rfl | hw
  · refine ⟨?_, ⟨i, mem_of_find?_eq_some hfind⟩, hrequest.1⟩
    have hc := find?_some hfind
    simpa [Posix.fill] using hc
  · exact h.of_stays (fun w hw => h.fill hrequest fl hw) w hw

end

variable [DecidableEq φ] {r : Flock ι α φ}

def FlockCall.addresses : FlockCall ι α φ → List α
  | .find _ request _ _ new => [request, new]
  | _ => []

def FlockCall.Fresh (r : Flock ι α φ) (call : FlockCall ι α φ) : Prop :=
  ∀ a ∈ call.addresses, Unused r.flock r.waiting a

def FlockWaits (r : Flock ι α φ) : Prop :=
  ∀ w ∈ r.waiting, flockLocksConflict (r.lock w.1) (r.lock w.2) = true ∧
    (∃ i, w.2 ∈ r.flock i) ∧ ∀ i, w.1 ∉ r.flock i

omit [DecidableEq ι] in
theorem FlockWaits.fill (h : FlockWaits r) (ha : Unused r.flock r.waiting a) (fl : FlockLock φ) :
    FlockWaits { r with lock := update r.lock a fl } := by
  intro w hw
  obtain ⟨hc, ⟨i, hi⟩, hout⟩ := h w hw
  have hne : w.2 ≠ a := fun he => ha.1 i (he ▸ hi)
  refine ⟨?_, ⟨i, hi⟩, hout⟩
  simpa only [update_of_ne (ha.2 w hw), update_of_ne hne] using hc

omit [DecidableEq α] in
/-- The list of one inode changes, other than at the waiters and their locks. -/
theorem FlockWaits.relist (h : FlockWaits r) {l : List α} {waiting : List (α × α)}
    (hl : ∀ w ∈ waiting, w ∈ r.waiting ∧ (w.2 ∈ r.flock i → w.2 ∈ l) ∧ (w.1 ∈ l → w.1 ∈ r.flock i)) :
    FlockWaits ⟨r.lock, update r.flock i l, waiting⟩ := by
  intro w hw
  obtain ⟨hmem, hlock, hwaiter⟩ := hl w hw
  obtain ⟨hc, ⟨j, hj⟩, hout⟩ := h w hmem
  all_goals
    simp only [update_apply] at *
    grind

theorem flockStep_waits {call : FlockCall ι α φ} (h : FlockWaits r) (hfresh : call.Fresh r) :
    FlockWaits (flockStep r call) := by
  cases call with
  | cancel waiter => exact fun w hw => h w (mem_of_mem_filter hw)
  | remove i fl =>
    simp only [flockStep]
    split
    · exact h
    split_ifs
    · exact h
    refine h.relist fun w hw => ?_
    simp only [mem_filter, decide_eq_true_eq] at hw
    exact ⟨hw.1, (mem_erase_of_ne hw.2).mpr, mem_of_mem_erase⟩
  | find i request fl flags new =>
    have hrequest := hfresh request mem_cons_self
    have hnew := hfresh new (by simp [FlockCall.addresses])
    have hfill := h.fill hrequest fl
    simp only [flockStep]
    split
    · rename_i b hfind
      split_ifs
      · intro w hw
        rcases mem_cons.mp hw with rfl | hw
        · have hc := find?_some hfind
          exact ⟨by simpa using hc, ⟨i, mem_of_find?_eq_some hfind⟩, hrequest.1⟩
        · exact hfill w hw
      · exact hfill
    · split_ifs
      · exact hfill
      exact (hfill.fill hnew fl).relist fun w hw => ⟨hw, by simp +contextual, by simp [hnew.2 w hw]⟩

/-- The records given to a call are not in use. -/
def FreshCall (s : Posix ι α ω × Flock ι α φ) : PosixCall ι α ω ⊕ FlockCall ι α φ → Prop
  | .inl call => call.Fresh s.1
  | .inr call => call.Fresh s.2

/-- In every state, a request on the `fl_block` list of a lock conflicts with it, and the
lock is in the list of an inode. -/
theorem waiters_conflict {s t : Posix ι α ω × Flock ι α φ} (hposix : s.1.blocked = [])
    (hflock : s.2.waiting = []) (hrun : RunWith FreshCall waitStep s evs t) :
    (∀ w ∈ t.1.blocked, (∃ i, w.2 ∈ t.1.flock i) ∧
      (t.1.lock w.1).owner ≠ (t.1.lock w.2).owner ∧
      (t.1.lock w.1).start ≤ (t.1.lock w.2).stop ∧ (t.1.lock w.2).start ≤ (t.1.lock w.1).stop ∧
      ((t.1.lock w.1).type = .WRLCK ∨ (t.1.lock w.2).type = .WRLCK)) ∧
    ∀ w ∈ t.2.waiting, (∃ i, w.2 ∈ t.2.flock i) ∧
      (t.2.lock w.1).file ≠ (t.2.lock w.2).file ∧
      ((t.2.lock w.1).type = .lock .WRLCK ∨ (t.2.lock w.2).type = .lock .WRLCK) := by
  have hwaits : PosixWaits t.1 ∧ FlockWaits t.2 := by
    refine hrun.invariant
      ⟨fun w hw => by simp [hposix] at hw, fun w hw => by simp [hflock] at hw⟩ ?_
    intro t u evs new call ih hfresh hstep
    cases call with
    | inl call =>
      simp only [waitStep, Option.map_eq_some_iff, Prod.exists] at hstep
      obtain ⟨v, out, hout, rfl, rfl⟩ := hstep
      exact ⟨posixStep_waits ih.1 hfresh hout, ih.2⟩
    | inr call =>
      cases hstep
      exact ⟨ih.1, flockStep_waits ih.2 hfresh⟩
  refine ⟨fun w hw => ?_, fun w hw => ?_⟩
  · obtain ⟨hc, hlist, -⟩ := hwaits.1 w hw
    simp only [posixLocksConflict, posixSameOwner, locksOverlap, locksConflict] at hc
    grind
  · obtain ⟨hc, hlist, -⟩ := hwaits.2 w hw
    unfold flockLocksConflict at hc
    grind

/-- A shared request waits for an exclusive lock. -/
theorem waiters_conflict_one :
    ∃ t : Posix Nat Nat Nat × Flock Nat Nat Nat, t.2.waiting = [(1, 0)] ∧
      (t.2.lock 1).file ≠ (t.2.lock 0).file := by
  let s : Posix Nat Nat Nat × Flock Nat Nat Nat := (⟨fun _ => ⟨0, .WRLCK, 0, 9⟩, fun _ => [], []⟩,
    ⟨fun _ => ⟨0, .lock .WRLCK⟩, fun i => if i = 0 then [0] else [], []⟩)
  have hfresh : ∀ a, a ≠ 0 → Unused s.2.flock s.2.waiting a := by
    refine fun a ha => ⟨fun i => ?_, by simp [s]⟩
    by_cases hi : i = 0 <;> simp [s, ha]
  have hrun : RunWith FreshCall waitStep s _ _ :=
    .tail (.inr (.find 0 1 ⟨1, .lock .RDLCK⟩ ⟨false, true, false⟩ 2)) (.refl s)
      (fun a ha => hfresh a (by simp [FlockCall.addresses] at ha; omega)) rfl
  exact ⟨_, rfl, ((waiters_conflict rfl rfl hrun).2 (1, 0) mem_cons_self).2.1⟩

end

end LinuxKernel.Fs.Locks
