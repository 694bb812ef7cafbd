/-
  Priority inheritance over whole runs.

  Tasks lock and unlock mutexes, wait, are interrupted and get new priorities, one
  operation after the other.  `PiExact` is what priority inheritance is for: a task has
  the least of its own priority and those of the tasks that wait for it.  A task that locks
  a mutex that it owns leaves its waiter behind.
-/
import LinuxKernel.Kernel.RtMutexLeave

namespace LinuxKernel.Kernel.RtMutex

open Foundation Function Option

variable {τ ℓ : Type} {s s' : State τ ℓ} {t u o : τ} {l : ℓ} {maxLockDepth : Nat}
  {interrupted : Option Interrupt} {events : List (Event τ ℓ)} {s₀ : State τ ℓ} {call : Call τ ℓ}
  {ev : Event τ ℓ} {a : Attempt ℓ}

/-! ## Exact inheritance -/

section

/-- The priorities and lists are exact: a task has the waiters that are first for the
locks it owns, every waiter is queued with the priority of its task, and a priority is the
least of the task's own and those of all that are blocked on it, directly or not. -/
structure PiExact (s : State τ ℓ) : Prop where
  waitList : ∀ l u, u ∈ s.waitList l ↔ s.piBlockedOn u = some l
  sorted : ∀ l, (s.waitList l).Pairwise fun u v => s.listPrio u ≤ s.listPrio v
  piWaiters : ∀ t u, u ∈ s.piWaiters t ↔ ∃ l, s.owner l = some t ∧ (s.waitList l).head? = some u
  listPrio : ∀ l, ∀ u ∈ s.waitList l, s.listPrio u = s.prio u
  prio : ∀ t, IsLeast (insert (s.normalPrio t)
    (s.prio '' {u | Relation.TransGen (fun u t => above s u = some t) u t})) (s.prio t)

/-- A priority above that of a waiter is not inherited exactly. -/
theorem not_piExact_of_lt {s : State τ ℓ} (hu : above s u = some t) (hlt : s.prio u < s.prio t) :
    ¬ PiExact s := by
  intro h
  have hle := (h.prio t).2 (Set.mem_insert_of_mem _ ⟨u, .single hu, rfl⟩)
  omega

variable [DecidableEq τ]

theorem Exact.le_of_above (h : Exact s none) (hu : above s u = some t) : s.prio t ≤ s.prio u := by
  obtain ⟨l, hl, ho⟩ := bind_eq_some_iff.mp hu
  exact h.owner_le hl ho

theorem Exact.piExact (h : Exact s none) : PiExact s where
  waitList l u := h.linked.wait.mem u l
  sorted := h.linked.wait.sorted
  piWaiters t u := by
    rw [h.linked.pi.mem, piPlace_eq_some]
    constructor
    · rintro ⟨l, -, hhead, ho⟩
      exact ⟨l, ho, hhead⟩
    · rintro ⟨l, ho, hhead⟩
      exact ⟨l, h.linked.wait.place_of_head hhead, hhead, ho⟩
  listPrio l u hu := h.list u l ((h.linked.wait.mem u l).mp hu) (by simp)
  prio t := by
    constructor
    · -- the priority comes from the first waiter, or is the task's own
      rcases leastKey_eq s.piListPrio (s.normalPrio t) (s.piWaiters t) with heq | ⟨w, hw, heq⟩
      · rw [h.prio t, getprio_eq, heq]
        exact Set.mem_insert _ _
      obtain ⟨l, hl, hhead, ho⟩ := piPlace_eq_some.mp (h.linked.pi.place_of_head hw)
      refine Set.mem_insert_of_mem _ ⟨w, .single ?_, ?_⟩
      · rw [above, hl, bind_some, ho]
      · rw [h.prio t, getprio_eq, heq, h.linked.top l w hhead, h.list w l hl (by simp)]
    · rintro p (rfl | ⟨u, hu, rfl⟩)
      · rw [h.prio t, getprio_eq]
        exact leastKey_le_bound _ _ _
      · -- along the chain the priorities do not get greater
        induction hu with
        | single hu => exact h.le_of_above hu
        | tail _ hlast ih => exact Int.le_trans (h.le_of_above hlast) ih

end

/-! ## What a run may do -/

section

/-- The task may wait for the lock: that closes no cycle, and the chain it walks is
shorter than `max_lock_depth`. -/
def MayWait (maxLockDepth : Nat) (s : State τ ℓ) (t : τ) (l : ℓ) : Prop :=
  ∀ o, s.owner l = some o → o ≠ t → (∀ n, climb s n o ≠ some t) ∧ climb s maxLockDepth o = none

/-- What the callers promise. -/
def Allowed (maxLockDepth : Nat) (s : State τ ℓ) : Call τ ℓ → Prop
  | .lock t attempt _ =>
    s.slowlock t = none ∧ s.owner attempt.lock ≠ some t ∧ MayWait maxLockDepth s t attempt.lock
  | .wake t _ => ∃ attempt, s.slowlock t = some attempt ∧ MayWait maxLockDepth s t attempt.lock
  | .trylock t _ => s.slowlock t = none
  | .unlock t l => s.slowlock t = none ∧ s.owner l = some t
  | .setscheduler t _ => climb s maxLockDepth t = none

/-- The tasks up the chain that are blocked themselves have their priority not from their
top waiter alone. -/
def SteadyAbove (s : State τ ℓ) (t : τ) : Prop :=
  ∀ n u, climb s (n + 1) t = some u → (s.piBlockedOn u).isSome = true → Steady s u

/-- Where the code is exact.  When the top waiter leaves, the next one needs the right
key; when a waiter leaves or a priority is lowered, the tasks up the chain must be steady. -/
def Benign (s : State τ ℓ) : Call τ ℓ → Prop
  | .lock _ _ _ => True
  | .wake t interrupted => ∀ attempt, s.slowlock t = some attempt → attempt.interruptible = true →
      interrupted.isSome = true → (s.waitList attempt.lock).head? = some t →
      Fresh s attempt.lock ∧ ∀ o, s.owner attempt.lock = some o → SteadyAbove s o
  | .trylock _ _ => True
  | .unlock _ l => Fresh s l
  | .setscheduler t normalPrio => s.prio t < normalPrio → SteadyAbove s t

/-- Nothing is owned yet. -/
structure Initial (s : State τ ℓ) : Prop where
  prio : s.prio = s.normalPrio
  piWaiters : ∀ t, s.piWaiters t = []
  piBlockedOn : ∀ t, s.piBlockedOn t = none
  slowlock : ∀ t, s.slowlock t = none
  owner : ∀ l, s.owner l = none
  pending : ∀ l, s.pending l = false
  waitList : ∀ l, s.waitList l = []

end

/-! ## Steps -/

section

/-- Between the operations. -/
structure Consistent [DecidableEq τ] (s : State τ ℓ) : Prop where
  exact : Exact s none
  /-- a task that is still locking owns the lock at most as its pending owner -/
  asked : ∀ t a, s.slowlock t = some a → s.owner a.lock = some t → s.pending a.lock = true

variable [DecidableEq τ]

/-- A task enters `rt_mutex_slowlock` or returns from it. -/
theorem Exact.setSlowlock (h : Exact s none) (ht : s.piBlockedOn t = none)
    (hpend : ∀ l, s.pending l = true → s.owner l ≠ some t) (a : Option (Attempt ℓ)) :
    Exact { s with slowlock := update s.slowlock t a } none := by
  have hother : ∀ {u}, u ≠ t → update s.slowlock t a u = s.slowlock u := fun hu =>
    update_of_ne hu _ _
  refine ⟨⟨h.linked.wait, h.linked.pi, h.linked.top, h.linked.owned, fun u l hu => ?_,
    fun l hl => ?_, ends_of h.linked.ends fun _ => .inl rfl⟩, h.prio, h.list⟩
  · have hut : u ≠ t := ne_of_none hu ht
    dsimp only
    rw [hother hut]
    exact h.linked.waiting u l hu
  · obtain ⟨p, hp, hpb, hslow⟩ := h.linked.pending l hl
    have hpt : p ≠ t := by
      rintro rfl
      exact hpend l hl hp
    exact ⟨p, hp, hpb, by dsimp only; rw [hother hpt]; exact hslow⟩

/-- A task that is not locking waits for nothing and is the pending owner of nothing. -/
theorem Exact.outside (h : Exact s none) (ht : s.slowlock t = none) :
    s.piBlockedOn t = none ∧ ∀ l, s.pending l = true → s.owner l ≠ some t := by
  refine ⟨?_, fun l hl ho => ?_⟩
  · by_contra hne
    obtain ⟨l, hl⟩ := ne_none_iff_exists'.mp hne
    obtain ⟨a, ha, -⟩ := h.linked.waiting t l hl
    exact absurd (ht.symm.trans ha) (by simp)
  · obtain ⟨p, hp, -, a, ha, -⟩ := h.linked.pending l hl
    obtain rfl := some.inj (ho.symm.trans hp)
    exact absurd (ht.symm.trans ha) (by simp)

/-- A task that is locking waits for that lock only, and can be the pending owner of that
one only. -/
theorem Exact.inside (h : Exact s none) (ht : s.slowlock t = some a) :
    (∀ l, s.piBlockedOn t = some l → l = a.lock) ∧
      ∀ l, s.pending l = true → s.owner l = some t → l = a.lock := by
  refine ⟨fun l hl => ?_, fun l hl ho => ?_⟩
  · obtain ⟨b, hb, hbl⟩ := h.linked.waiting t l hl
    rw [← hbl, some.inj (hb.symm.trans ht)]
  · obtain ⟨p, hp, -, b, hb, hbl⟩ := h.linked.pending l hl
    obtain rfl := some.inj (ho.symm.trans hp)
    rw [← hbl, some.inj (hb.symm.trans ht)]

/-- After the task returned, with the locks as they were. -/
theorem Consistent.of_returned
    (hasked : ∀ u a, u ≠ t → s.slowlock u = some a → s.owner a.lock = some u →
      s.pending a.lock = true)
    (h' : Exact s' none) (howner : s'.owner = s.owner) (hpending : s'.pending = s.pending)
    (hslow : s'.slowlock = update s.slowlock t none) : Consistent s' := by
  refine ⟨h', fun u a hu ho => ?_⟩
  have hut : u ≠ t := by
    rintro rfl
    rw [hslow, update_self] at hu
    cases hu
  rw [hslow, update_of_ne hut] at hu
  rw [howner] at ho
  rw [hpending]
  exact hasked u a hut hu ho

variable [DecidableEq ℓ]

/-- Taking a lock does not concern the other tasks that are locking. -/
theorem Consistent.asked_of_taken (h : Consistent s) (htaken : Taken s s' t l) (hut : u ≠ t)
    (hu : s.slowlock u = some a) (ho : s'.owner a.lock = some u) : s'.pending a.lock = true := by
  have hne : a.lock ≠ l := by
    intro heq
    rw [heq, htaken.owner, update_self] at ho
    exact hut (some.inj ho).symm
  rw [htaken.owner, update_of_ne hne] at ho
  rw [htaken.pending, update_of_ne hne]
  exact h.asked u a hu ho

theorem Consistent.taken (h : Consistent s) (ht : s.slowlock t = none) (hexact : Exact s' none)
    (htaken : Taken s s' t l) : Consistent s' := by
  refine ⟨hexact, fun u b hu hub => ?_⟩
  rw [htaken.slowlock] at hu
  have hut : u ≠ t := ne_of_none hu ht
  exact h.asked_of_taken htaken hut hu hub

theorem slowlockDone_spec (maxLockDepth : Nat) (h : Exact s none)
    (hpend : ∀ l, s.pending l = true → s.owner l ≠ some t)
    (hremove : ∀ l', s.piBlockedOn t = some l' → l' = l ∧ ∃ o, s.owner l = some o ∧
      climb s maxLockDepth o = none ∧ ((s.waitList l).head? = some t → Fresh s l ∧ SteadyAbove s o))
    (ret : Ret) :
    ∃ s', slowlockDone maxLockDepth s t l ret = some s' ∧ Exact s' none ∧ s'.owner = s.owner ∧
      s'.pending = s.pending ∧ s'.slowlock = update s.slowlock t none := by
  -- the waiter is removed, if it is queued
  obtain ⟨s1, heq, hexact, hnone, howner, hpending, hslow⟩ : ∃ s1,
      (if (s.piBlockedOn t).isSome then removeWaiter maxLockDepth s t l else some s) = some s1 ∧
        Exact s1 none ∧ s1.piBlockedOn t = none ∧ s1.owner = s.owner ∧ s1.pending = s.pending ∧
        s1.slowlock = s.slowlock := by
    cases ht : s.piBlockedOn t with
    | none => exact ⟨s, rfl, h, ht, rfl, rfl, rfl⟩
    | some l' =>
      obtain ⟨rfl, o, ho, hdepth, hbenign⟩ := hremove l' ht
      obtain ⟨s2, s1, heq, hexact, hd, howner, hpending, hkept⟩ := removeWaiter_spec h ht ho hdepth
        (fun hhead => (hbenign hhead).1) (fun hhead => (hbenign hhead).2)
      exact ⟨s1, heq, hexact, by rw [hkept.piBlockedOn, hd.not_blocked],
        hkept.owner.trans howner, hkept.pending.trans hpending, hkept.slowlock.trans hd.slowlock⟩
  have hadjust : (if ret = .success then s1 else adjustPrio s1 t) = s1 := by
    split
    · rfl
    · exact hexact.adjust t
  unfold slowlockDone
  dsimp only
  rw [heq, map_some, hadjust]
  refine ⟨_, rfl, hexact.setSlowlock hnone ?_ none, howner, hpending, by rw [hslow]⟩
  rw [hpending, howner]
  exact hpend

section

variable (h : Consistent s)
include h

theorem slowlockRound_spec (ha : s.slowlock t = some a) (hmay : MayWait maxLockDepth s t a.lock)
    (hbenign : a.interruptible = true → interrupted.isSome = true →
      (s.waitList a.lock).head? = some t → Fresh s a.lock ∧ ∀ o, s.owner a.lock = some o →
      SteadyAbove s o) :
    ∃ s' ret, slowlockRound maxLockDepth s t a interrupted = some (s', ret) ∧ Consistent s' := by
  obtain ⟨hwaits, hpends⟩ := h.exact.inside ha
  unfold slowlockRound
  dsimp only
  rcases tryToTakeRtMutex_spec h.exact hwaits with ⟨heq, o, ho, hother⟩ | ⟨s1, heq, hexact, htaken, hfree⟩
  · rw [heq]
    have hot : o ≠ t := fun hoeq => by
      subst hoeq
      exact hother (h.asked o a ha ho) rfl
    obtain ⟨havoid, hdepth⟩ := hmay o ho hot
    cases hint : interrupted.filter fun _ => a.interruptible with
    | some interrupt =>
      dsimp only
      obtain ⟨rfl, hable⟩ := filter_eq_some_iff.mp hint
      have hpend (l) (hl : s.pending l = true) : s.owner l ≠ some t := by
        intro hol
        obtain rfl := hpends l hl hol
        exact hother hl (some.inj (ho.symm.trans hol))
      obtain ⟨s', heq', hexact', howner, hpending, hslow⟩ :=
        slowlockDone_spec maxLockDepth h.exact hpend (fun l' hl' => ⟨hwaits l' hl', o, ho, hdepth, fun hhead =>
          ⟨(hbenign hable rfl hhead).1, (hbenign hable rfl hhead).2 o ho⟩⟩) interrupt.ret
      rw [heq']
      exact ⟨s', _, rfl, .of_returned (fun u b _ => h.asked u b) hexact' howner hpending hslow⟩
    | none =>
      dsimp only
      split
      · exact ⟨s, none, rfl, h⟩
      rename_i hnot
      have hnone : s.piBlockedOn t = none := by
        cases hb : s.piBlockedOn t with
        | none => rfl
        | some l =>
          rw [hb] at hnot
          exact absurd rfl hnot
      obtain ⟨s1, s', heq', hexact', he, hkept⟩ := taskBlocksOnRtMutex_spec h.exact hnone ho havoid
        hdepth ⟨a, ha, rfl⟩ a.detectDeadlock
      have hblocked : s'.piBlockedOn t = some a.lock := by
        rw [hkept.piBlockedOn, he.piBlockedOn, update_self]
      rw [heq']
      simp only [hblocked, isNone_some]
      refine ⟨s', none, rfl, hexact', ?_⟩
      rw [hkept.slowlock, he.slowlock, hkept.owner, he.owner, hkept.pending, he.pending]
      exact h.asked
  · rw [heq]
    dsimp only
    have hpend (l) (hl : s1.pending l = true) : s1.owner l ≠ some t := by
      intro ho
      have hne : l ≠ a.lock := by
        rintro rfl
        rw [htaken.pending, update_self] at hl
        cases hl
      rw [htaken.pending, update_of_ne hne] at hl
      rw [htaken.owner, update_of_ne hne] at ho
      exact hne (hpends l hl ho)
    obtain ⟨s', heq', hexact', howner, hpending, hslow⟩ :=
      slowlockDone_spec maxLockDepth (l := a.lock) hexact hpend (fun l' hl' => by
        rw [htaken.piBlockedOn, hfree] at hl'
        cases hl') .success
    rw [heq']
    refine ⟨s', _, rfl, .of_returned (s := s1) (fun u b hut hu hub => ?_) hexact' howner hpending hslow⟩
    rw [htaken.slowlock] at hu
    exact h.asked_of_taken htaken hut hu hub

theorem rtMutexSlowlock_spec (ht : s.slowlock t = none) (hown : s.owner a.lock ≠ some t)
    (hmay : MayWait maxLockDepth s t a.lock) (interrupted : Option Interrupt) :
    ∃ s' ret, rtMutexSlowlock maxLockDepth s t a interrupted = some (s', ret) ∧ Consistent s' := by
  obtain ⟨hnone, hpend⟩ := h.exact.outside ht
  unfold rtMutexSlowlock
  rcases tryToTakeRtMutex_spec (l := a.lock) h.exact (fun l' hl' => by rw [hnone] at hl'; cases hl')
    with ⟨heq, -⟩ | ⟨s1, heq, hexact, htaken, -⟩
  · rw [heq]
    refine slowlockRound_spec ⟨h.exact.setSlowlock hnone hpend (some a), fun u b hu hub => ?_⟩
      (update_self _ _ _) ?_ fun _ _ hhead => ?_
    · by_cases hut : u = t
      · subst hut
        dsimp only at hu
        rw [update_self] at hu
        obtain rfl := some.inj hu
        exact absurd hub hown
      · exact h.asked u b ((update_of_ne hut _ _).symm.trans hu) hub
    · intro o ho hot
      obtain ⟨havoid, hdepth⟩ := hmay o ho hot
      have hclimb : ∀ n u, climb { s with slowlock := update s.slowlock t (some a) } n u =
          climb s n u := climb_congr fun _ => rfl
      exact ⟨fun n => by rw [hclimb]; exact havoid n, by rw [hclimb]; exact hdepth⟩
    · have hb : s.piBlockedOn t = some a.lock := h.exact.linked.wait.place_of_head hhead
      exact absurd (hnone.symm.trans hb) (by simp)
  · rw [heq]
    exact ⟨s1, _, rfl, h.taken ht hexact htaken⟩

theorem rtMutexSlowtrylock_spec (ht : s.slowlock t = none) (l : ℓ) :
    ∃ s' taken, rtMutexSlowtrylock s t l = some (s', taken) ∧ Consistent s' := by
  obtain ⟨hnone, -⟩ := h.exact.outside ht
  unfold rtMutexSlowtrylock
  split
  · exact ⟨s, false, rfl, h⟩
  rcases tryToTakeRtMutex_spec (l := l) h.exact (fun l' hl' => by rw [hnone] at hl'; cases hl')
    with ⟨heq, -⟩ | ⟨s1, heq, hexact, htaken, -⟩
  · exact ⟨s, false, heq, h⟩
  · exact ⟨s1, true, heq, h.taken ht hexact htaken⟩

/-- What one operation does. -/
theorem step_consistent (hallowed : Allowed maxLockDepth s call) (hbenign : Benign s call) :
    ∃ s' events, step maxLockDepth s call = some (s', events) ∧
      Consistent s' := by
  cases call with
  | lock t a interrupted =>
    obtain ⟨ht, hown, hmay⟩ := hallowed
    obtain ⟨s', ret, heq, h'⟩ := rtMutexSlowlock_spec h ht hown hmay interrupted
    exact ⟨s', Event.ofRet t a.lock ret, by simp only [step, heq, bind_eq_bind, bind_some], h'⟩
  | wake t interrupted =>
    obtain ⟨a, ha, hmay⟩ := hallowed
    obtain ⟨s', ret, heq, h'⟩ := slowlockRound_spec h ha hmay (hbenign a ha)
    exact ⟨s', Event.ofRet t a.lock ret, by simp only [step, ha, heq, bind_eq_bind, bind_some], h'⟩
  | trylock t l =>
    obtain ⟨s', taken, heq, h'⟩ := rtMutexSlowtrylock_spec h hallowed l
    exact ⟨s', if taken then [⟨t, l, .success⟩] else [],
      by simp only [step, heq, bind_eq_bind, bind_some], h'⟩
  | unlock t l =>
    obtain ⟨ht, ho⟩ := hallowed
    obtain ⟨s', heq, hexact, hslow, hothers, hself⟩ :=
      rtMutexSlowunlock_spec h.exact ho (h.exact.outside ht).1 hbenign
    refine ⟨s', [], by simp only [step, heq, bind_eq_bind, bind_some], hexact, fun u b hu hub => ?_⟩
    rw [hslow] at hu
    by_cases hl : b.lock = l
    · rw [hl] at hub ⊢
      rcases hself with hnone | hpending
      · rw [hnone] at hub
        cases hub
      · exact hpending
    · rw [(hothers b.lock hl).1] at hub
      rw [(hothers b.lock hl).2]
      exact h.asked u b hu hub
  | setscheduler t n =>
    obtain ⟨s', heq, hexact, -, howner, hpending, hslow⟩ :=
      setscheduler_spec h.exact hallowed hbenign
    refine ⟨s', [], by simp only [step, heq, bind_eq_bind, bind_some], hexact, ?_⟩
    rw [hslow, howner, hpending]
    exact h.asked

end

end

/-! ## Runs -/

section

variable [DecidableEq τ]

theorem Initial.consistent (h : Initial s) : Consistent s := by
  have hnone (u l) : s.piBlockedOn u ≠ some l := by
    intro hu
    rw [h.piBlockedOn] at hu
    cases hu
  have hplace (u) : piPlace s u = none := piPlace_of_not_blocked (h.piBlockedOn u)
  refine ⟨⟨⟨⟨?_, ?_, ?_⟩, ⟨?_, ?_, ?_⟩, ?_, ?_, ?_, ?_, ?_⟩, ?_, ?_⟩, ?_⟩
  · simp [h.waitList, h.piBlockedOn]
  · simp [h.waitList]
  · simp [h.waitList]
  · simp [h.piWaiters, hplace]
  · simp [h.piWaiters]
  · simp [h.piWaiters]
  · simp [h.waitList]
  · exact fun u l hu => absurd hu (hnone u l)
  · exact fun u l hu => absurd hu (hnone u l)
  · simp [h.pending]
  · exact fun u => ⟨1, climb_one (h.piBlockedOn u)⟩
  · simp [rtMutexGetprio, h.piWaiters, h.prio]
  · exact fun u l hu => absurd hu (hnone u l)
  · simp [h.slowlock]

variable [DecidableEq ℓ]

theorem run_consistent (h₀ : Initial s₀)
    (hrun : RunWith (fun s call => Allowed maxLockDepth s call ∧
      Benign s call) (step maxLockDepth) s₀ events s) :
    Consistent s := by
  refine hrun.invariant_of_step h₀.consistent fun call h hcall => ?_
  obtain ⟨s', events, heq, h'⟩ := step_consistent h hcall.1 hcall.2
  exact ⟨_, heq, h'⟩

/-- As long as no operation meets one of the two gaps in the code, every operation returns
and inheritance is exact. -/
theorem inheritance_exact_run {s₀ : State τ ℓ} {events : List (Event τ ℓ)} (h₀ : Initial s₀)
    (hrun : RunWith (fun s call => Allowed maxLockDepth s call ∧ Benign s call)
      (step maxLockDepth) s₀ events s) :
    PiExact s ∧ ∀ call, Allowed maxLockDepth s call → Benign s call →
      (step maxLockDepth s call).isSome = true := by
  have hconsistent := run_consistent h₀ hrun
  refine ⟨hconsistent.exact.piExact, fun call hallowed hbenign => ?_⟩
  obtain ⟨s', events, heq, -⟩ := step_consistent hconsistent hallowed hbenign
  rw [heq]
  rfl

/-! ## Some runs -/

/-- Four tasks and three locks, with nothing owned. -/
def idle (prios : Fin 4 → Int) : State (Fin 4) (Fin 3) where
  normalPrio := prios
  prio := prios
  piWaiters _ := []
  piBlockedOn _ := none
  listPrio _ := 0
  piListPrio _ := 0
  owner _ := none
  pending _ := false
  waitList _ := []
  slowlock _ := none

theorem idle_initial (prios : Fin 4 → Int) : Initial (idle prios) :=
  ⟨rfl, fun _ => rfl, fun _ => rfl, fun _ => rfl, fun _ => rfl, fun _ => rfl, fun _ => rfl⟩

/-- `MayWait` where a chain has at most four tasks. -/
def mayWaitCheck (s : State (Fin 4) (Fin 3)) (t : Fin 4) (l : Fin 3) : Bool :=
  (s.owner l).all fun o =>
    climb s 4 o = none && (List.range 4).all fun n => climb s n o ≠ some t

/-- The promises of the callers. -/
def allowedCheck (s : State (Fin 4) (Fin 3)) : Call (Fin 4) (Fin 3) → Bool
  | .lock t attempt _ => (s.slowlock t).isNone && s.owner attempt.lock ≠ some t &&
      mayWaitCheck s t attempt.lock
  | .wake t _ => (s.slowlock t).any fun attempt => mayWaitCheck s t attempt.lock
  | .trylock t _ => (s.slowlock t).isNone
  | .unlock t l => (s.slowlock t).isNone && s.owner l = some t
  | .setscheduler t _ => climb s 4 t = none

theorem mayWait_of_check {s : State (Fin 4) (Fin 3)} {t : Fin 4} {l : Fin 3}
    (h : mayWaitCheck s t l = true) : MayWait 1024 s t l := by
  intro o ho _
  simp only [mayWaitCheck, ho, all_some, Bool.and_eq_true, decide_eq_true_eq, List.all_eq_true,
    List.mem_range] at h
  exact ⟨climb_ne_of_lt h.1 h.2, climb_none_mono (by omega) h.1⟩

theorem allowed_of_check {s : State (Fin 4) (Fin 3)} {call : Call (Fin 4) (Fin 3)}
    (h : allowedCheck s call = true) : Allowed 1024 s call := by
  cases call with
  | lock t a _ =>
    simp only [allowedCheck, Bool.and_eq_true, isNone_iff_eq_none, decide_eq_true_eq] at h
    exact ⟨h.1.1, h.1.2, mayWait_of_check h.2⟩
  | wake t _ =>
    cases ha : s.slowlock t with
    | none =>
      simp only [allowedCheck, ha] at h
      cases h
    | some a =>
      simp only [allowedCheck, ha] at h
      exact ⟨a, ha, mayWait_of_check h⟩
  | trylock t l => exact isNone_iff_eq_none.mp h
  | unlock t l =>
    simp only [allowedCheck, Bool.and_eq_true, isNone_iff_eq_none, decide_eq_true_eq] at h
    exact h
  | setscheduler t _ => exact climb_none_mono (by omega) (of_decide_eq_true h)

/-- Task 1 waits for task 0, and task 2 for task 1. -/
theorem inheritance_exact_run_chain :
    ∃ s events, RunWith (fun s call => Allowed 1024 s call ∧ Benign s call) (step 1024)
        (idle ![30, 20, 10, 15]) events s ∧ PiExact s ∧ s.prio 0 = 10 := by
  have hcheck (s : State (Fin 4) (Fin 3)) (call : Call (Fin 4) (Fin 3))
      (h : (allowedCheck s call && call matches .lock _ _ _) = true) :
      Allowed 1024 s call ∧ Benign s call := by
    rw [Bool.and_eq_true] at h
    refine ⟨allowed_of_check h.1, ?_⟩
    cases call with
    | lock => trivial
    | _ => cases h.2
  obtain ⟨⟨s, events⟩, heq, hprio⟩ := map_eq_some_iff.mp (show (runCallsWith
    (fun s call => allowedCheck s call && call matches .lock _ _ _) (step 1024)
    (idle ![30, 20, 10, 15])
    [.lock 0 ⟨0, true, false⟩ none, .lock 1 ⟨1, true, false⟩ none, .lock 1 ⟨0, true, false⟩ none,
      .lock 2 ⟨1, true, false⟩ none]).map (fun r => r.1.prio 0) = some 10 by decide +kernel)
  have hrun := RunWith.of_calls hcheck _ heq
  exact ⟨s, events, hrun, (inheritance_exact_run (idle_initial _) hrun).1, hprio⟩

/-- Task 2 is second for lock 0 when it is boosted by task 3, so its entry for the list of
the owner keeps the priority 20; task 1 is interrupted, and the owner gets 20 and not 15.

Task 1 is blocked on lock 0 and has the waiters 2 and 3; when task 2 gets the priority 50,
the walk stops at task 1, whose first waiter is now task 3: it has the priority 20, but it
is queued with 10, and the owner of lock 0 keeps 10. -/
theorem inheritance_not_exact :
    (∃ s events, RunWith (Allowed 1024) (step 1024) (idle ![30, 10, 20, 15]) events s ∧
      s.piBlockedOn 2 = some 0 ∧ s.owner 0 = some 0 ∧ s.prio 2 = 15 ∧ s.prio 0 = 20 ∧
      ¬ PiExact s) ∧
    ∃ s events, RunWith (Allowed 1024) (step 1024) (idle ![30, 25, 10, 20]) events s ∧
      s.piBlockedOn 1 = some 0 ∧ s.prio 1 = 20 ∧ s.listPrio 1 = 10 ∧ ¬ PiExact s := by
  have hcheck (s : State (Fin 4) (Fin 3)) (call : Call (Fin 4) (Fin 3))
      (h : allowedCheck s call = true) : Allowed 1024 s call := allowed_of_check h
  constructor
  · obtain ⟨⟨s, events⟩, heq, hvalues⟩ := map_eq_some_iff.mp (show (runCallsWith
      allowedCheck (step 1024) (idle ![30, 10, 20, 15])
      [.lock 0 ⟨0, true, false⟩ none, .lock 2 ⟨1, true, false⟩ none, .lock 1 ⟨0, true, false⟩ none,
        .lock 2 ⟨0, true, false⟩ none, .lock 3 ⟨1, true, false⟩ none, .wake 1 (some .signal)]).map
      (fun r => (r.1.piBlockedOn 2, r.1.owner 0, r.1.prio 2, r.1.prio 0)) =
        some (some 0, some 0, 15, 20) by decide +kernel)
    simp only [Prod.mk.injEq] at hvalues
    obtain ⟨hblocked, howner, hprio, hprioOwner⟩ := hvalues
    refine ⟨s, events, RunWith.of_calls hcheck _ heq, hblocked, howner, hprio, hprioOwner, ?_⟩
    refine not_piExact_of_lt (u := 2) (t := 0) ?_ (by omega)
    rw [above, hblocked, bind_some, howner]
  · obtain ⟨⟨s, events⟩, heq, hvalues⟩ := map_eq_some_iff.mp (show (runCallsWith
      allowedCheck (step 1024) (idle ![30, 25, 10, 20])
      [.lock 0 ⟨0, true, false⟩ none, .lock 1 ⟨1, true, false⟩ none, .lock 1 ⟨2, true, false⟩ none,
        .lock 1 ⟨0, true, false⟩ none, .lock 2 ⟨1, true, false⟩ none, .lock 3 ⟨2, true, false⟩ none,
        .setscheduler 2 50]).map
      (fun r => (r.1.piBlockedOn 1, r.1.prio 1, r.1.listPrio 1)) = some (some 0, 20, 10) by
        decide +kernel)
    simp only [Prod.mk.injEq] at hvalues
    obtain ⟨hblocked, hprio, hlist⟩ := hvalues
    refine ⟨s, events, RunWith.of_calls hcheck _ heq, hblocked, hprio, hlist, fun h => ?_⟩
    have heq' := h.listPrio 0 1 ((h.waitList 0 1).mpr hblocked)
    omega

/-! ## Failed attempts -/

section

variable {ret : Ret}

theorem slowlockDone_slowlock (h : slowlockDone maxLockDepth s t l ret = some s') :
    s'.slowlock t = none := by
  obtain ⟨s1, -, rfl⟩ := map_eq_some_iff.mp h
  exact update_self ..

/-- The task is no longer in `rt_mutex_slowlock` when its loop has returned. -/
theorem slowlockRound_slowlock
    (h : slowlockRound maxLockDepth s t a interrupted = some (s', some ret)) :
    s'.slowlock t = none := by
  have hleave {s1 : State τ ℓ} {r : Ret}
      (h : (slowlockDone maxLockDepth s1 t a.lock r).map (fun s => (s, some r)) =
        some (s', some ret)) : s'.slowlock t = none := by
    obtain ⟨s2, hdone, heq⟩ := map_eq_some_iff.mp h
    obtain ⟨rfl, -⟩ := Prod.mk.inj heq
    exact slowlockDone_slowlock hdone
  unfold slowlockRound at h
  grind

theorem step_failed {new : List (Event τ ℓ)} (hstep : step maxLockDepth s call = some (s', new))
    (hev : ev ∈ new) (hfail : ev.ret ≠ .success) : s'.slowlock ev.task = none := by
  have hret {t : τ} {l : ℓ} {ret : Option Ret} (h : ev ∈ Event.ofRet t l ret) :
      ev.task = t ∧ ret = some ev.ret := by
    cases ret <;> simp_all [Event.ofRet]
  cases call with
  | lock t a interrupted =>
    obtain ⟨⟨s1, ret⟩, hlock, heq⟩ := bind_eq_some_iff.mp hstep
    obtain ⟨rfl, rfl⟩ := Prod.mk.inj (some.inj heq)
    obtain ⟨htask, rfl⟩ := hret hev
    unfold rtMutexSlowlock at hlock
    split at hlock
    · cases hlock
    · exact absurd (some.inj (Prod.mk.inj (some.inj hlock)).2).symm hfail
    · exact htask ▸ slowlockRound_slowlock hlock
  | wake t interrupted =>
    obtain ⟨a, -, hstep⟩ := bind_eq_some_iff.mp hstep
    obtain ⟨⟨s1, ret⟩, hround, heq⟩ := bind_eq_some_iff.mp hstep
    obtain ⟨rfl, rfl⟩ := Prod.mk.inj (some.inj heq)
    obtain ⟨htask, rfl⟩ := hret hev
    exact htask ▸ slowlockRound_slowlock hround
  | trylock | unlock | setscheduler =>
    -- no event, or a success
    obtain ⟨s1, -, heq⟩ := bind_eq_some_iff.mp hstep
    grind

end

end

end LinuxKernel.Kernel.RtMutex
