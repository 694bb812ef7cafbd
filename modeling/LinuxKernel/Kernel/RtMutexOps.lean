/-
  Taking a mutex, and waiting for one.
-/
import LinuxKernel.Kernel.RtMutexInv

namespace LinuxKernel.Kernel.RtMutex

open Foundation Function Option

variable {τ ℓ : Type} [DecidableEq τ] {s s' : State τ ℓ} {t u o : τ} {l : ℓ} {maxLockDepth : Nat}
  {off : Option τ}

/-! ## Ownership -/

section

omit [DecidableEq τ] in
theorem ends_of (hends : ∀ t, ∃ n, climb s n t = none)
    (h : ∀ t, above s' t = above s t ∨ ∀ o, above s' t = some o → ∃ n, climb s' n o = none)
    (t : τ) : ∃ n, climb s' n t = none := by
  obtain ⟨n, hn⟩ := hends t
  induction n generalizing t with
  | zero => cases hn
  | succ n ih =>
    have hnext : (∀ o, above s' t = some o → ∃ m, climb s' m o = none) := by
      rcases h t with heq | hend
      · intro o ho
        rw [heq] at ho
        simp only [climb, ho] at hn
        exact ih o hn
      · exact hend
    cases habove : above s' t with
    | none => exact ⟨1, by simp [climb, habove]⟩
    | some o =>
      obtain ⟨m, hm⟩ := hnext o habove
      exact ⟨m + 1, by simp only [climb, habove, bind_some, hm]⟩

/-- The locks that somebody waits for have the same owners. -/
theorem Exact.reown (h : Exact s none) {owner : ℓ → Option τ} {pending : ℓ → Bool}
    (hsame : ∀ t l, s.piBlockedOn t = some l → owner l = s.owner l)
    (hpend : ∀ l, pending l = true → s.pending l = true ∧ owner l = s.owner l) :
    Exact { s with owner := owner, pending := pending } none := by
  have hbind {α : Type} (u : τ) (f g : ℓ → Option α)
      (hfg : ∀ l, s.piBlockedOn u = some l → f l = g l) :
      (s.piBlockedOn u).bind f = (s.piBlockedOn u).bind g := by
    cases hu : s.piBlockedOn u with
    | none => rfl
    | some l => exact hfg l hu
  have hplace : piPlace { s with owner := owner, pending := pending } = piPlace s := by
    funext u
    refine hbind u _ _ fun l hl => ?_
    simp [hsame u l hl]
  refine ⟨⟨h.linked.wait, ?_, h.linked.top, ?_, h.linked.waiting, ?_, ?_⟩, h.prio, h.list⟩
  · rw [hplace]
    exact h.linked.pi
  · intro t l ht
    dsimp only at ht ⊢
    rw [hsame t l ht]
    exact h.linked.owned t l ht
  · intro l hl
    obtain ⟨hpl, hol⟩ := hpend l hl
    dsimp only
    rw [hol]
    exact h.linked.pending l hpl
  · exact ends_of h.linked.ends fun t => .inl (hbind t _ _ fun l hl => hsame t l hl)

variable [DecidableEq ℓ]

theorem Exact.setOwner (h : Exact s none) {owner : Option τ}
    (hsame : ∀ t, s.piBlockedOn t = some l → owner = s.owner l) :
    Exact (rtMutexSetOwner s l owner false) none := by
  refine h.reown (fun t l' ht => ?_) fun l' hl' => ?_
  · by_cases hl : l' = l
    · subst hl
      rw [update_self]
      exact hsame t ht
    · rw [update_of_ne hl]
  · have hl : l' ≠ l := by
      rintro rfl
      simp at hl'
    rw [update_of_ne hl] at hl' ⊢
    exact ⟨hl', rfl⟩

end

/-! ## Taking a lock -/

section

/-- The priorities are adjusted already. -/
theorem Exact.adjust (h : Exact s off) (t : τ) : adjustPrio s t = s := by
  unfold adjustPrio
  rw [← h.prio t, update_eq_self]

/-- A waiter leaves the list of the one task that has it. -/
theorem Linked.del_touched (h : Linked s) {w : τ} (hw : piPlace s w = some o) :
    Touched s (adjustPrio (piDel s w) o) o where
  others t ht := by
    refine ⟨rfl, List.erase_of_not_mem fun hmem => ht ?_, fun _ _ => rfl⟩
    exact some.inj (((h.pi.mem w t).mp hmem).symm.trans hw)
  prio := rfl

omit [DecidableEq τ] in
theorem climb_one (ht : s.piBlockedOn t = none) : climb s 1 t = none := by
  simp only [climb, above, ht, bind_none]

/-- Nobody who waits for a lock is ahead of its owner. -/
theorem Exact.owner_le (h : Exact s none) (ht : s.piBlockedOn t = some l)
    (ho : s.owner l = some o) : s.prio o ≤ s.prio t := by
  obtain ⟨top, htop⟩ := h.linked.wait.head_isSome ht
  have hblocked := h.linked.wait.place_of_head htop
  have hfirst := h.linked.wait.head_le htop ht
  have hleast := h.linked.pi.leastKey_le (s.normalPrio o)
    (piPlace_eq_some.mpr ⟨l, hblocked, htop, ho⟩)
  rw [← getprio_eq, ← h.prio, h.linked.top l top htop] at hleast
  rw [h.list t l ht (by simp)] at hfirst
  exact Int.le_trans hleast hfirst

variable [DecidableEq ℓ]

/-- The pending owner gives way: the top waiter is on the list of the new owner. -/
theorem Exact.steal {next : τ} (h : Exact s none) (ho : s.owner l = some o)
    (hob : s.piBlockedOn o = none) (hnext : (s.waitList l).head? = some next)
    (ht : s.piBlockedOn t = none) :
    Exact (rtMutexSetOwner (adjustPrio (piAdd (adjustPrio (piDel s next) o) t next) t) l (some t)
      false) none := by
  have hblocked := h.linked.wait.place_of_head hnext
  have hplaceNext : piPlace s next = some o := piPlace_eq_some.mpr ⟨l, hblocked, hnext, ho⟩
  have hdel := h.linked.del_touched hplaceNext
  have hadd : Touched (adjustPrio (piDel s next) o)
      (adjustPrio (piAdd (adjustPrio (piDel s next) o) t next) t) t :=
    ⟨fun u hu => ⟨rfl, update_of_ne hu _ _, fun _ _ => rfl⟩, rfl⟩
  generalize hs' : rtMutexSetOwner (adjustPrio (piAdd (adjustPrio (piDel s next) o) t next) t) l
    (some t) false = s'
  have howner (l') (hl : l' ≠ l) : s'.owner l' = s.owner l' := by
    subst hs'
    exact update_of_ne hl _ _
  have hownerSelf : s'.owner l = some t := by
    subst hs'
    exact update_self _ _ _
  have hblock : s'.piBlockedOn = s.piBlockedOn := by
    subst hs'
    rfl
  have hwaits : s'.waitList = s.waitList := by
    subst hs'
    rfl
  have hplace : piPlace s' = update (update (piPlace s) next none) next (some t) :=
    piPlace_replace howner (fun _ _ => by rw [hwaits])
      (fun u hu => some.inj (hu.symm.trans hnext)) (fun _ _ _ => by rw [hblock]) (.inl rfl)
      (by rw [hblock, hblocked]) (by rw [hwaits, hnext]) hownerSelf
  refine ⟨⟨?_, ?_, ?_, ?_, ?_, ?_, ?_⟩, ?_, ?_⟩
  · subst hs'
    exact h.linked.wait
  · rw [hplace]
    subst hs'
    exact (h.linked.pi.del next).add (update_self _ _ _) t
  · subst hs'
    exact h.linked.top
  · intro u l' hu
    by_cases hl : l' = l
    · exact ⟨t, by rw [hl, hownerSelf]⟩
    · rw [howner l' hl]
      rw [hblock] at hu
      exact h.linked.owned u l' hu
  · subst hs'
    exact h.linked.waiting
  · intro l' hl'
    have hl : l' ≠ l := by
      rintro rfl
      subst hs'
      simp [rtMutexSetOwner] at hl'
    rw [howner l' hl]
    subst hs'
    exact h.linked.pending l' ((update_of_ne hl _ _).symm.trans hl')
  · refine ends_of h.linked.ends fun u => ?_
    rw [above, above, hblock]
    cases hu : s.piBlockedOn u with
    | none => exact .inl rfl
    | some l' =>
      by_cases hl : l' = l
      · refine .inr fun o' ho' => ⟨1, climb_one ?_⟩
        rw [hl, bind_some, hownerSelf] at ho'
        rw [← some.inj ho', hblock, ht]
      · exact .inl (howner l' hl)
  · subst hs'
    exact hadd.prio_eq (hdel.prio_eq h.prio)
  · intro u l' hu _
    subst hs'
    have hut : u ≠ t := ne_of_none hu ht
    have huo : u ≠ o := ne_of_none hu hob
    exact (h.list u l' hu (by simp)).trans
      ((hdel.prio_of_ne huo).symm.trans (hadd.prio_of_ne hut).symm)

/-- What taking a lock changes of the locks. -/
structure Taken (s s' : State τ ℓ) (t : τ) (l : ℓ) : Prop where
  piBlockedOn : s'.piBlockedOn = s.piBlockedOn
  slowlock : s'.slowlock = s.slowlock
  owner : s'.owner = update s.owner l (some t)
  pending : s'.pending = update s.pending l false

theorem tryToTakeRtMutex_spec (h : Exact s none) (hlock : ∀ l', s.piBlockedOn t = some l' → l' = l) :
    (tryToTakeRtMutex s t l = some (s, false) ∧
      ∃ o, s.owner l = some o ∧ (s.pending l = true → o ≠ t)) ∨
    ∃ s', tryToTakeRtMutex s t l = some (s', true) ∧ Exact s' none ∧ Taken s s' t l ∧
      s.piBlockedOn t = none := by
  unfold tryToTakeRtMutex
  cases ho : s.owner l with
  | none =>
    have hnobody (u) : s.piBlockedOn u ≠ some l := by
      intro hu
      obtain ⟨o, ho'⟩ := h.linked.owned u l hu
      exact absurd (ho.symm.trans ho') (by simp)
    refine .inr ⟨_, rfl, h.setOwner fun u hu => absurd hu (hnobody u), ⟨rfl, rfl, rfl, rfl⟩, ?_⟩
    by_contra hne
    obtain ⟨l', hl'⟩ := ne_none_iff_exists'.mp hne
    exact hnobody t (by rw [hl', hlock l' hl'])
  | some o =>
    dsimp only
    unfold tryToStealLock
    by_cases hpend : s.pending l = true
    · obtain ⟨p, hp, hpb, -⟩ := h.linked.pending l hpend
      obtain rfl := some.inj (ho.symm.trans hp)
      rw [if_neg (by simp [hpend])]
      by_cases hself : o = t
      · subst hself
        rw [if_pos rfl]
        exact .inr ⟨_, rfl, h.setOwner fun _ _ => ho.symm, ⟨rfl, rfl, rfl, rfl⟩, hpb⟩
      rw [if_neg hself]
      by_cases hge : s.prio t ≥ s.prio o
      · rw [if_pos hge]
        exact .inl ⟨rfl, o, rfl, fun _ => hself⟩
      rw [if_neg hge]
      -- a task that waits for the lock is not ahead of the pending owner
      have ht : s.piBlockedOn t = none := by
        by_contra hne
        obtain ⟨l', hl'⟩ := ne_none_iff_exists'.mp hne
        exact hge (h.owner_le (by rw [hl', hlock l' hl']) ho)
      cases hhead : (s.waitList l).head? with
      | none =>
        have hempty := List.head?_eq_none_iff.mp hhead
        rw [if_pos (by rw [hempty]; rfl)]
        refine .inr ⟨_, rfl, h.setOwner fun u hu => ?_, ⟨rfl, rfl, rfl, rfl⟩, ht⟩
        have hmem := (h.linked.wait.mem u l).mpr hu
        rw [hempty] at hmem
        cases hmem
      | some next =>
        have hne : next ≠ t := ne_of_none (h.linked.wait.place_of_head hhead) ht
        rw [if_neg (ne_nil_of_head hhead), topWaiter_of_head h.linked.wait hhead]
        dsimp only
        rw [if_pos hne]
        exact .inr ⟨_, rfl, h.steal ho hpb hhead ht, ⟨rfl, rfl, rfl, rfl⟩, ht⟩
    · rw [if_pos (by simp [hpend])]
      exact .inl ⟨rfl, o, rfl, fun heq => absurd heq hpend⟩

end

/-! ## Waiting for a lock -/

section

omit [DecidableEq τ] in
/-- A change at a task that is not on the chain. -/
theorem climb_avoid (h : ∀ u, u ≠ t → above s' u = above s u) (n : Nat) (o : τ)
    (havoid : ∀ n, climb s n o ≠ some t) : climb s' n o = climb s n o := by
  induction n generalizing o with
  | zero => rfl
  | succ n ih =>
    have hot : o ≠ t := fun heq => havoid 0 (congrArg some heq)
    simp only [climb, h o hot]
    cases habove : above s o with
    | none => rfl
    | some o' =>
      refine ih o' fun n heq => havoid (n + 1) ?_
      simp only [climb, habove, bind_some, heq]

omit [DecidableEq τ] in
/-- The walk along the chain of the owner `o` does not come back to the lock, or to a task
that is not on the chain. -/
theorem clear_of_avoid (hends : ∃ n, climb s n o = none) (ho : s.owner l = some o)
    (havoid : ∀ n, climb s n o ≠ some t) (n : Nat) (u : τ) (l' : ℓ) (hu : climb s n o = some u)
    (hl' : s.piBlockedOn u = some l') : some l ≠ some l' ∧ s.owner l' ≠ some t := by
  have hnext : climb s (n + 1) o = s.owner l' := by
    rw [climb_add, hu]
    simp only [bind_some, climb, above, hl', bind_fun_some]
  refine ⟨fun heq => ?_, fun heq => ?_⟩
  · rw [← some.inj heq, ho] at hnext
    exact climb_ne_self hends n hnext
  · rw [heq] at hnext
    exact havoid (n + 1) hnext

/-- A walk that starts where nothing has changed. -/
theorem Exact.walk (h : Exact s none) (t : τ) (w : Option τ) : Walk s t w := by
  refine ⟨h.off _, fun _ l _ hl hne => ?_, .inl fun l hl => ?_⟩
  · exact absurd (h.list t l hl (by simp)).symm hne
  · exact Int.le_of_eq (h.list t l hl (by simp)).symm

variable [DecidableEq ℓ]

/-- The task is on the wait list, with its priority. -/
structure Enqueued (s s' : State τ ℓ) (t : τ) (l : ℓ) : Prop where
  listPrio : s'.listPrio = update s.listPrio t (s.prio t)
  waitList : s'.waitList = update s.waitList l (enqueue s'.listPrio t (s.waitList l))
  piBlockedOn : s'.piBlockedOn = update s.piBlockedOn t (some l)
  piListPrio : s'.piListPrio = update s.piListPrio t (s.prio t)
  normalPrio : s'.normalPrio = s.normalPrio
  owner : s'.owner = s.owner
  pending : s'.pending = s.pending
  slowlock : s'.slowlock = s.slowlock

theorem Exact.enqueueWaiter_enqueued (h : Exact s off) (t : τ) (l : ℓ) :
    Enqueued s (enqueueWaiter s t l) t l := by
  unfold enqueueWaiter
  rw [h.adjust t]
  exact ⟨rfl, rfl, rfl, rfl, rfl, rfl, rfl, rfl⟩

theorem Exact.enqueueWaiter_prio (h : Exact s off) (t : τ) (l : ℓ) :
    (enqueueWaiter s t l).prio = s.prio := by
  change (adjustPrio s t).prio = s.prio
  rw [h.adjust t]

namespace Enqueued

section

variable (he : Enqueued s s' t l)
include he

theorem blocked_of_ne (hu : u ≠ t) : s'.piBlockedOn u = s.piBlockedOn u := by
  rw [he.piBlockedOn, update_of_ne hu]

theorem above_of_ne (hu : u ≠ t) : above s' u = above s u := by
  rw [above, above, he.blocked_of_ne hu, he.owner]

theorem climb (havoid : ∀ n, climb s n o ≠ some t) (n : Nat) :
    RtMutex.climb s' n o = RtMutex.climb s n o :=
  climb_avoid (fun _ hu => he.above_of_ne hu) n o havoid

theorem wait (h : Linked s) (ht : s.piBlockedOn t = none) :
    Filed s'.listPrio s'.piBlockedOn s'.waitList := by
  rw [he.waitList, he.piBlockedOn, he.listPrio]
  exact (h.wait.rekey ht (s.prio t)).add ht l

theorem waitList_of_ne {l' : ℓ} (hl : l' ≠ l) : s'.waitList l' = s.waitList l' := by
  rw [he.waitList, update_of_ne hl]

/-- The top waiter is the task, or the one that it was. -/
theorem head : (s'.waitList l).head? = some t ∨
    ∃ top, (s.waitList l).head? = some top ∧ (s'.waitList l).head? = some top := by
  rw [he.waitList, update_self]
  rcases head?_enqueue s'.listPrio t (s.waitList l) with heq | ⟨b, hb, heq, -⟩
  · exact .inl heq
  · exact .inr ⟨b, hb, heq⟩

/-- The other top waiters keep their keys. -/
theorem top_of_ne (h : Linked s) (ht : s.piBlockedOn t = none) {l' : ℓ}
    (hu : (s.waitList l').head? = some u) : s'.piListPrio u = s'.listPrio u := by
  have hut : u ≠ t := ne_of_none (h.wait.place_of_head hu) ht
  rw [he.piListPrio, he.listPrio, update_of_ne hut, update_of_ne hut]
  exact h.top l' u hu

theorem linked (h : Linked s) (ht : s.piBlockedOn t = none) (ho : s.owner l = some o)
    (havoid : ∀ n, RtMutex.climb s n o ≠ some t) (hslow : ∃ a, s.slowlock t = some a ∧ a.lock = l)
    (hpi : Filed s'.piListPrio (piPlace s') s'.piWaiters) : Linked s' where
  wait := he.wait h ht
  pi := hpi
  top l' u hu := by
    by_cases hl : l' = l
    · subst hl
      rcases he.head with heq | ⟨top, htop, heq⟩
      · obtain rfl := some.inj (heq.symm.trans hu)
        rw [he.piListPrio, he.listPrio, update_self, update_self]
      · obtain rfl := some.inj (heq.symm.trans hu)
        exact he.top_of_ne h ht htop
    · rw [he.waitList_of_ne hl] at hu
      exact he.top_of_ne h ht hu
  owned u l' hu := by
    rw [he.owner]
    by_cases hut : u = t
    · rw [hut, he.piBlockedOn, update_self] at hu
      exact ⟨o, by rw [← some.inj hu, ho]⟩
    · rw [he.blocked_of_ne hut] at hu
      exact h.owned u l' hu
  waiting u l' hu := by
    rw [he.slowlock]
    by_cases hut : u = t
    · rw [hut, he.piBlockedOn, update_self] at hu
      rw [hut, ← some.inj hu]
      exact hslow
    · rw [he.blocked_of_ne hut] at hu
      exact h.waiting u l' hu
  pending l' hl' := by
    rw [he.pending] at hl'
    obtain ⟨p, hp, hpb, a, ha, hal⟩ := h.pending l' hl'
    -- the task waits for this lock, so it is no pending owner
    have hpt : p ≠ t := by
      rintro rfl
      obtain ⟨a', ha', hal'⟩ := hslow
      obtain rfl := some.inj (ha.symm.trans ha')
      rw [← hal, hal', ho] at hp
      exact havoid 0 hp
    refine ⟨p, by rw [he.owner, hp], by rw [he.blocked_of_ne hpt, hpb], a, ?_, hal⟩
    rw [he.slowlock, ha]
  ends := by
    refine ends_of h.ends fun u => ?_
    by_cases hut : u = t
    · refine .inr fun o' ho' => ?_
      rw [hut, above, he.piBlockedOn, update_self, bind_some, he.owner, ho] at ho'
      obtain ⟨n, hn⟩ := h.ends o
      exact ⟨n, by rw [← some.inj ho', he.climb havoid, hn]⟩
    · exact .inl (he.above_of_ne hut)

end

end Enqueued

section

variable (h : Exact s none) (ht : s.piBlockedOn t = none) (ho : s.owner l = some o)
  (havoid : ∀ n, climb s n o ≠ some t)
include h ht ho havoid

section

variable (hslow : ∃ a, s.slowlock t = some a ∧ a.lock = l)
include hslow

/-- The task is the top waiter: it takes the place of the one before it, if there was one. -/
theorem Exact.block_top {old : τ}
    (hold : old = t ∧ (s.waitList l).head? = none ∨ (s.waitList l).head? = some old)
    (htop : ((enqueueWaiter s t l).waitList l).head? = some t) :
    Walk (adjustPrio (piAdd (piDel (enqueueWaiter s t l) old) o t) o) o (some t) := by
  have he := h.enqueueWaiter_enqueued t l
  generalize hs' : adjustPrio (piAdd (piDel (enqueueWaiter s t l) old) o t) o = s'
  have he' : Enqueued s s' t l := by
    subst hs'
    exact { he with }
  have hot : o ≠ t := fun heq => havoid 0 (congrArg some heq)
  have htop' : (s'.waitList l).head? = some t := by
    subst hs'
    exact htop
  have hnone := piPlace_of_not_blocked ht
  have hrep : Replaced s s' o old t (s.prio t) := by
    refine ⟨he'.normalPrio, ?_, he'.piListPrio, ?_, ?_, ?_, .inr hnone⟩
    · subst hs'
      simp only [piAdd, piDel, he.piListPrio]
      rfl
    · subst hs'
      rw [← h.enqueueWaiter_prio t l]
      rfl
    · refine piPlace_replace (fun l' _ => by rw [he'.owner]) (fun l' hl => he'.waitList_of_ne hl) ?_
        (fun u hut _ => he'.blocked_of_ne hut) ?_ (by rw [he'.piBlockedOn, update_self])
        htop' (by rw [he'.owner, ho])
      · intro u hu
        rcases hold with ⟨-, hempty⟩ | hhead
        · exact absurd (hu.symm.trans hempty) (by simp)
        · exact some.inj (hu.symm.trans hhead)
      · rcases hold with ⟨heq, -⟩ | hhead
        · exact .inl heq
        · by_cases heq : old = t
          · exact .inl heq
          · refine .inr (piPlace_of_not_head (l := l) ?_ fun h' => heq ?_)
            · rw [he'.blocked_of_ne heq, h.linked.wait.place_of_head hhead]
            · exact some.inj (h'.symm.trans htop')
    · rcases hold with ⟨rfl, -⟩ | hhead
      · exact .inl hnone
      · exact .inr (piPlace_eq_some.mpr ⟨l, h.linked.wait.place_of_head hhead, hhead, ho⟩)
  have hkey : piPlace s old = none ∨ s.prio t ≤ s.piListPrio old := by
    rcases hold with ⟨rfl, -⟩ | hhead
    · exact .inl hnone
    have hblocked := h.linked.wait.place_of_head hhead
    have hne : old ≠ t := ne_of_none hblocked ht
    have hle := (he'.wait h.linked ht).head_le htop' (by rw [he'.blocked_of_ne hne, hblocked])
    rw [he'.listPrio, update_self, update_of_ne hne] at hle
    exact .inr (by rw [h.linked.top l old hhead]; exact hle)
  obtain ⟨hle, hfirst⟩ := hrep.boost h hkey
  have hlist (u l') (hut : u ≠ t) (hu : s'.piBlockedOn u = some l') : s'.listPrio u = s.prio u := by
    rw [he'.blocked_of_ne hut] at hu
    rw [he'.listPrio, update_of_ne hut]
    exact h.list u l' hu (by simp)
  refine ⟨⟨he'.linked h.linked ht ho havoid hslow (hrep.pi h.linked), hrep.prio_eq h, ?_⟩, ?_, ?_⟩
  · intro u l' hu huo
    have hne : u ≠ o := fun heq => huo (congrArg some heq.symm)
    rw [(hrep.touched h.linked).prio_of_ne hne]
    by_cases hut : u = t
    · rw [hut, he'.listPrio, update_self]
    · exact hlist u l' hut hu
  · intro top l' heq hl' hne
    rw [hlist o l' hot hl'] at hne
    rw [← some.inj heq]
    exact hfirst hne
  · refine .inl fun l' hl' => ?_
    rw [hlist o l' hot hl']
    exact hle

/-- The task is not the top waiter. -/
theorem Exact.block_behind {top : τ} (hold : (s.waitList l).head? = some top)
    (htop : ((enqueueWaiter s t l).waitList l).head? = some top) :
    Exact (enqueueWaiter s t l) none := by
  have he := h.enqueueWaiter_enqueued t l
  have hblocked := h.linked.wait.place_of_head hold
  have hne : top ≠ t := ne_of_none hblocked ht
  have hplace : piPlace (enqueueWaiter s t l) = piPlace s := by
    refine piPlace_same (fun u hut => he.blocked_of_ne hut) he.owner (fun l' => ?_) ?_
    · by_cases hl : l' = l
      · rw [hl, hold, htop]
      · rw [he.waitList_of_ne hl]
    · rw [piPlace_of_not_blocked ht]
      refine piPlace_of_not_head (by rw [he.piBlockedOn, update_self]) ?_
      rw [htop]
      exact fun heq => hne (some.inj heq)
  have hkeys (u o') (hu : u ∈ s.piWaiters o') :
      (enqueueWaiter s t l).piListPrio u = s.piListPrio u := by
    have hut : u ≠ t := ne_of_none ((h.linked.pi.mem u o').mp hu) (piPlace_of_not_blocked ht)
    rw [he.piListPrio, update_of_ne hut]
  refine ⟨he.linked h.linked ht ho havoid hslow ?_, fun u => ?_, fun u l' hu _ => ?_⟩
  · rw [hplace, he.piListPrio]
    exact h.linked.pi.rekey (piPlace_of_not_blocked ht) (s.prio t)
  · rw [h.enqueueWaiter_prio, h.prio u, rtMutexGetprio, rtMutexGetprio, he.normalPrio,
      show (enqueueWaiter s t l).piWaiters = s.piWaiters from rfl]
    cases hhead : (s.piWaiters u).head? with
    | none => rfl
    | some w =>
      dsimp only
      rw [hkeys w u (List.mem_of_mem_head? hhead)]
  · rw [h.enqueueWaiter_prio, he.listPrio]
    by_cases hut : u = t
    · rw [hut, update_self]
    · rw [he.blocked_of_ne hut] at hu
      rw [update_of_ne hut]
      exact h.list u l' hu (by simp)

end

theorem taskBlocksOnRtMutex_spec (hdepth : climb s maxLockDepth o = none)
    (hslow : ∃ a, s.slowlock t = some a ∧ a.lock = l) (detectDeadlock : Bool) :
    ∃ s1 s', taskBlocksOnRtMutex maxLockDepth s t l detectDeadlock = some (s', false) ∧
      Exact s' none ∧ Enqueued s s1 t l ∧ Kept s1 s' := by
  have he := h.enqueueWaiter_enqueued t l
  obtain ⟨old, holdEq, hold⟩ : ∃ old,
      (if (s.waitList l).isEmpty then some t else rtMutexTopWaiter s l) = some old ∧
        (old = t ∧ (s.waitList l).head? = none ∨ (s.waitList l).head? = some old) := by
    cases hhead : (s.waitList l).head? with
    | none => exact ⟨t, by rw [List.head?_eq_none_iff.mp hhead]; rfl, .inl ⟨rfl, rfl⟩⟩
    | some old =>
      refine ⟨old, ?_, .inr rfl⟩
      rw [if_neg (ne_nil_of_head hhead), topWaiter_of_head h.linked.wait hhead]
  have hwait := he.wait h.linked ht
  unfold taskBlocksOnRtMutex
  rw [holdEq]
  dsimp only
  rw [show (enqueueWaiter s t l).owner l = some o from ho]
  -- the walk along the chain of the owner, from either state
  have hchain (s2) (he2 : Enqueued s s2 t l) (hwalk : Walk s2 o (some t)) : ∃ s',
        rtMutexAdjustPrioChain detectDeadlock (some l) (some t) t maxLockDepth o (some t) s2 =
          some (s', false) ∧ Exact s' none ∧ Kept s2 s' := by
    refine chain_spec maxLockDepth o (some t) s2 hwalk (by rw [he2.climb havoid, hdepth])
      (fun u hu => ?_) (clear_of_avoid (hwalk.exact.linked.ends o) (by rw [he2.owner, ho])
        fun n => by rw [he2.climb havoid]; exact havoid n)
    rw [← some.inj hu, he2.piBlockedOn, update_self]
    rfl
  rcases he.head with htop | ⟨top, holdTop, htop⟩
  · rw [topWaiter_of_head hwait htop]
    dsimp only
    rw [if_pos rfl]
    have hwalk := h.block_top ht ho havoid hslow hold htop
    have he2 : Enqueued s (adjustPrio (piAdd (piDel (enqueueWaiter s t l) old) o t) o) t l :=
      { he with }
    split
    · obtain ⟨s', heq, hexact, hkept⟩ := hchain _ he2 hwalk
      exact ⟨_, s', heq, hexact, he2, hkept⟩
    rename_i hnot
    refine ⟨_, _, rfl, hwalk.exact.none_of fun l' hl' => ?_, he2, .refl _⟩
    rw [hl'] at hnot
    exact absurd rfl hnot
  · have hblocked := h.linked.wait.place_of_head holdTop
    have hne : t ≠ top := (ne_of_none hblocked ht).symm
    have hexact := h.block_behind ht ho havoid hslow holdTop htop
    rw [topWaiter_of_head hwait htop]
    dsimp only
    rw [if_neg hne]
    split
    · obtain ⟨s', heq, hexact', hkept⟩ := hchain _ he (hexact.walk o (some t))
      exact ⟨_, s', heq, hexact', he, hkept⟩
    · exact ⟨_, _, rfl, hexact, he, .refl _⟩

end

end

end LinuxKernel.Kernel.RtMutex
