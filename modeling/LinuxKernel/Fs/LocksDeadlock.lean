/-
  Deadlock detection for POSIX locks.

  Source: fs/locks.c, `posix_locks_deadlock` and its caller `__posix_lock_file`.

  The walk goes from an owner to the first of its blocked requests, and on to the owner
  of the lock which that is queued on.  With one blocked request for an owner this is
  the only way in the wait-for graph.  With more it is not: queuing a request may then
  close a cycle that the walk does not see, and a later walk does not leave it.
-/
import LinuxKernel.Fs.LocksWait
import LinuxKernel.Foundation.Acyclic

namespace LinuxKernel.Fs.Locks

open Foundation Relation

section

variable {α ω : Type} {lock : α → FileLock ω} {blocked : List (α × α)}

/-- The wait-for graph: an edge from a blocked owner to the owner of the lock. -/
def WaitsFor (lock : α → FileLock ω) (blocked : List (α × α)) (o o' : ω) : Prop :=
  ∃ w ∈ blocked, (lock w.1).owner = o ∧ (lock w.2).owner = o'

/-- Each owner has at most one blocked request. -/
def OneBlocked (lock : α → FileLock ω) (blocked : List (α × α)) : Prop :=
  ∀ w ∈ blocked, ∀ w' ∈ blocked, (lock w.1).owner = (lock w'.1).owner → w = w'

variable [DecidableEq ω]

/-- The walk ends, and says whether the caller is reached. -/
theorem posixLocksDeadlock_spec (hwalk : WalksEnd (WaitsFor lock blocked))
    (hone : OneBlocked lock blocked) (caller : ω) (b : α) :
    ∃ found, posixLocksDeadlock lock blocked caller b = some found ∧
      (found = true ↔ ReflTransGen (WaitsFor lock blocked) (lock b).owner caller) := by
  -- along the walk, from the end backwards
  induction ho : (lock b).owner using hwalk.induction generalizing b with
  | _ o ih =>
    subst ho
    by_cases hcaller : caller = (lock b).owner
    · refine ⟨true, loop_done (by rw [deadlockRound, if_pos hcaller]), ?_⟩
      simp [hcaller, ReflTransGen.refl]
    cases hfind : blocked.find? fun w => decide ((lock w.1).owner = (lock b).owner) with
    | none =>
      refine ⟨false, loop_done (by rw [deadlockRound, if_neg hcaller, hfind]), ?_⟩
      simp only [Bool.false_eq_true, false_iff]
      intro hreach
      rcases hreach.cases_head with heq | ⟨o', ⟨w, hw, hwo, -⟩, -⟩
      · exact hcaller heq.symm
      · simpa [hwo] using List.find?_eq_none.mp hfind w hw
    | some w =>
      have hw := List.mem_of_find?_eq_some hfind
      have hwo : (lock w.1).owner = (lock b).owner := by simpa using List.find?_some hfind
      have hedge : WaitsFor lock blocked (lock b).owner (lock w.2).owner := ⟨w, hw, hwo, rfl⟩
      obtain ⟨found, hfound, hiff⟩ := ih _ hedge w.2 rfl
      refine ⟨found, ?_, hiff.trans ⟨fun hreach => .head hedge hreach, fun hreach => ?_⟩⟩
      · rw [posixLocksDeadlock, loop_next (by rw [deadlockRound, if_neg hcaller, hfind])]
        exact hfound
      · rcases hreach.cases_head with heq | ⟨o', ⟨w', hw', hwo', rfl⟩, hrest⟩
        · exact absurd heq.symm hcaller
        · rwa [hone w hw w' hw' (hwo.trans hwo'.symm)]

end

section

variable {ι α ω : Type} [DecidableEq ι] [DecidableEq α] [DecidableEq ω] {s t : Posix ι α ω}
  {evs : List Result} {call : PosixCall ι α ω} {request b : α} {fl : FileLock ω}

/-- The request, if it is queued, is the only one of its owner. -/
def OneEach (s : Posix ι α ω) (call : PosixCall ι α ω) : Prop :=
  call.Fresh s ∧ ∀ t evs, posixStep s call = some (t, evs) → OneBlocked t.lock t.blocked

/-- What holds in every state of such a run. -/
structure Detects (s : Posix ι α ω) : Prop where
  waits : PosixWaits s
  one : OneBlocked s.lock s.blocked
  walk : WalksEnd (WaitsFor s.lock s.blocked)

omit [DecidableEq ι] [DecidableEq α] [DecidableEq ω] in
theorem WaitsFor.of_stays (hst : ∀ w ∈ t.blocked, Stays s t w) (o o' : ω)
    (h : WaitsFor t.lock t.blocked o o') : WaitsFor s.lock s.blocked o o' := by
  obtain ⟨w, hw, ho, ho'⟩ := h
  have hs := hst w hw
  exact ⟨w, hs.mem, by rw [← hs.waiter]; exact ho, hs.kept.owner.symm.trans ho'⟩

omit [DecidableEq ι] in
theorem Detects.fill (h : Detects s) (hun : Unused s.flock s.blocked request) (fl : FileLock ω) :
    Detects (s.fill request fl) := by
  have hst : ∀ w ∈ (s.fill request fl).blocked, Stays s (s.fill request fl) w :=
    fun w hw => h.waits.fill hun fl hw
  refine ⟨h.waits.of_stays hst, fun w hw w' hw' he => h.one w hw w' hw' ?_,
    h.walk.mono (WaitsFor.of_stays hst)⟩
  rwa [(hst w hw).waiter, (hst w' hw').waiter] at he

omit [DecidableEq ι] [DecidableEq α] [DecidableEq ω] in
theorem waitsFor_cons (request b : α) (o o' : ω) (h : WaitsFor s.lock ((request, b) :: s.blocked) o o') :
    WaitsFor s.lock s.blocked o o' ∨ o = (s.lock request).owner ∧ o' = (s.lock b).owner := by
  obtain ⟨w, hw, rfl, rfl⟩ := h
  rcases List.mem_cons.mp hw with rfl | hw
  · exact .inr ⟨rfl, rfl⟩
  · exact .inl ⟨w, hw, rfl, rfl⟩

omit [DecidableEq ι] [DecidableEq α] in
/-- Queuing a request closes a cycle if its owner is reached. -/
theorem Detects.cycle_iff (h : Detects s) (request b : α) :
    (∃ o, TransGen (WaitsFor s.lock ((request, b) :: s.blocked)) o o) ↔
      ReflTransGen (WaitsFor s.lock s.blocked) (s.lock b).owner (s.lock request).owner := by
  constructor
  · rintro ⟨o, ho⟩
    by_contra hn
    exact (h.walk.insert (waitsFor_cons request b) hn).acyclic ho
  · intro hreach
    have hmono : ∀ o o', WaitsFor s.lock s.blocked o o' →
        WaitsFor s.lock ((request, b) :: s.blocked) o o' :=
      fun o o' ⟨w, hw, ho⟩ => ⟨w, List.mem_cons_of_mem _ hw, ho⟩
    have hback := ReflTransGen.mono hmono _ _ hreach
    exact ⟨_, TransGen.head' ⟨(request, b), List.mem_cons_self, rfl, rfl⟩ hback⟩

theorem Detects.step (h : Detects s) (hone : OneEach s call)
    (hstep : posixStep s call = some (t, evs)) : Detects t := by
  refine ⟨posixStep_waits h.waits hone.1 hstep, hone.2 t evs hstep, ?_⟩
  rcases posixStep_blocked h.waits hone.1 hstep with
    hst | ⟨i, request, fl, flags, env, b, rfl, -, hdead, rfl⟩
  · exact h.walk.mono (WaitsFor.of_stays hst)
  -- the walk has not found the caller, so the new edge closes no cycle
  have hfill := h.fill (hone.1 request List.mem_cons_self) fl
  have hself : ((s.fill request fl).lock request).owner = fl.owner := by simp [Posix.fill]
  obtain ⟨found, hfound, hiff⟩ := posixLocksDeadlock_spec hfill.walk hfill.one fl.owner b
  obtain rfl : false = found := Option.some.inj (hdead.symm.trans hfound)
  refine hfill.walk.insert (waitsFor_cons (s := s.fill request fl) request b) ?_
  rw [hself, ← hiff]
  exact Bool.false_ne_true

theorem detects_run (hinit : s.blocked = []) (hrun : RunWith OneEach posixStep s evs t) :
    Detects t := by
  have hinit : Detects s := by
    refine ⟨?_, ?_, ⟨fun o => ⟨o, ?_⟩⟩⟩
    · simp [PosixWaits, hinit]
    · simp [OneBlocked, hinit]
    · rintro o' ⟨w, hw, -⟩
      simp [hinit] at hw
  exact hrun.invariant hinit fun call h hone hstep => h.step hone hstep

theorem posixStep_queue {i : ι} {flags : Flags} {env : Env α} (hsleep : flags.sleep = true)
    (hfirst : firstConflict (s.fill request fl) i fl = some b)
    (hdead : posixLocksDeadlock (s.fill request fl).lock s.blocked fl.owner b = some false) :
    posixStep s (.request i request fl flags env) =
      some ({ s.fill request fl with blocked := (request, b) :: s.blocked }, [.EAGAIN]) := by
  have hself : (s.fill request fl).lock request = fl := Function.update_self ..
  have hdead' : posixLocksDeadlock (s.fill request fl).lock (s.fill request fl).blocked fl.owner b =
      some false := hdead
  simp only [posixStep, posixRequest, hself, hfirst, hsleep, hdead']
  rfl

/-- A request for one byte of the only file. -/
def byteRequest (owner : Nat) (byte : Int) (request : Nat) (new : Option Nat) :
    PosixCall (Fin 1) Nat Nat :=
  .request 0 request ⟨owner, .WRLCK, byte, byte⟩ ⟨false, true, false⟩ ⟨new, none, false⟩

def unlocked : Posix (Fin 1) Nat Nat := ⟨fun _ => ⟨0, .WRLCK, 0, 0⟩, fun _ => [], []⟩

/-- Owner 0 holds a byte. -/
def oneLock : Posix (Fin 1) Nat Nat := { unlocked with flock := fun _ => [0] }

omit [DecidableEq ι] in
/-- Where nothing conflicts, the result is not EDEADLK. -/
theorem posixLockFile_ne_deadlock {i : ι} (flags : Flags) (env : Env α)
    (h : firstConflict s i (s.lock request) = none) :
    (posixLockFile ⟨s.lock, s.flock i⟩ request flags env).2 ≠ .EDEADLK := by
  have hno : ¬ ((s.lock request).type ≠ .UNLCK ∧
      (s.flock i).any fun fl => posixLocksConflict (s.lock request) (s.lock fl)) := by
    unfold firstConflict at h
    grind
  unfold posixLockFile
  unfold finish
  grind

/-- With at most one blocked request for each owner, the wait-for graph has no cycle, and
a blocking request fails with EDEADLK if and only if it would close one. -/
theorem deadlock_exact (hinit : s.blocked = []) (hrun : RunWith OneEach posixStep s evs t) :
    (∀ o, ¬ TransGen (WaitsFor t.lock t.blocked) o o) ∧
    ∀ i request fl flags env, Unused t.flock t.blocked request → flags.sleep = true →
      ∃ u result, posixStep t (.request i request fl flags env) = some (u, [result]) ∧
        (result = .EDEADLK ↔ ∃ b, firstConflict (t.fill request fl) i fl = some b ∧
          ∃ o, TransGen (WaitsFor (t.fill request fl).lock ((request, b) :: t.blocked)) o o) := by
  have ht := detects_run hinit hrun
  refine ⟨fun o => ht.walk.acyclic, fun i request fl flags env hun hsleep => ?_⟩
  have hfill := ht.fill hun fl
  have hself : (t.fill request fl).lock request = fl := Function.update_self ..
  simp only [posixStep, posixRequest, hself, hsleep]
  cases hfirst : firstConflict (t.fill request fl) i fl with
  | none =>
    have hfirst' : firstConflict (t.fill request fl) i ((t.fill request fl).lock request) = none := by
      rw [hself]
      exact hfirst
    simpa using posixLockFile_ne_deadlock flags env hfirst'
  | some b =>
    have hcycle := hfill.cycle_iff request b
    obtain ⟨found, hfound, hiff⟩ := posixLocksDeadlock_spec hfill.walk hfill.one fl.owner b
    rw [hself, ← hiff] at hcycle
    simp only [Option.some.injEq, exists_eq_left', hfound]
    refine ⟨_, _, rfl, Iff.trans ?_ hcycle.symm⟩
    cases found <;> simp

/-- Owner 1 waits for owner 0. -/
theorem deadlock_exact_one :
    ¬ TransGen (WaitsFor (oneLock.fill 13 ⟨1, .WRLCK, 0, 0⟩).lock [(13, 0)]) 1 1 := by
  have hstep : posixStep oneLock (byteRequest 1 0 13 none) = some (_, _) :=
    posixStep_queue (b := 0) rfl (by decide) (loop_of_rounds 3 rfl)
  have hone : OneEach oneLock (byteRequest 1 0 13 none) := by
    refine ⟨by unfold PosixCall.Fresh Unused; decide, fun t evs h => ?_⟩
    obtain ⟨rfl, -⟩ := Prod.mk.inj (Option.some.inj (hstep.symm.trans h))
    simp [OneBlocked, oneLock, unlocked]
  exact (deadlock_exact rfl (.tail _ (.refl oneLock) hone hstep)).1 1

end

/-! ## Several blocked requests of one owner -/

/-- Two locks whose owners wait for each other hold the walk. -/
theorem posixLocksDeadlock_none {α ω : Type} [DecidableEq ω] {lock : α → FileLock ω}
    {blocked : List (α × α)} {caller : ω} {a b : α}
    (ha : deadlockRound lock blocked caller a = .inr b)
    (hb : deadlockRound lock blocked caller b = .inr a) :
    posixLocksDeadlock lock blocked caller a = none := by
  cases h : posixLocksDeadlock lock blocked caller a with
  | none => rfl
  | some found =>
    have hdone : ∀ x r, x = a ∨ x = b →
        some (deadlockRound lock blocked caller x) = some (.inl r) → False := by
      rintro x r (rfl | rfl) hx
      · simp [ha] at hx
      · simp [hb] at hx
    exfalso
    refine loop_partial (fun x => x = a ∨ x = b) hdone ?_ (.inl rfl) h
    rintro x y (rfl | rfl) hx
    · exact .inr (by simpa [ha] using hx.symm)
    · exact .inl (by simpa [hb] using hx.symm)

end LinuxKernel.Fs.Locks
