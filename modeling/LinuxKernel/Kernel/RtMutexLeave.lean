/-
  Giving a mutex up, giving up waiting, and a new priority.

  `Fresh` and `Steady` say where the code needs something of the state: when a waiter
  moves up to the front of a wait list, and when a task further up a chain is deboosted.
-/
import LinuxKernel.Kernel.RtMutexOps

namespace LinuxKernel.Kernel.RtMutex

open Foundation Function Option Queues

variable {τ ℓ : Type} [DecidableEq τ] {s s' : State τ ℓ} {t u o : τ} {l : ℓ} {maxLockDepth : Nat}
  {next : Option τ} {l' : ℓ}

/-! ## Leaving a wait list -/

section

/-- The second waiter of the lock has the priority on both its list entries. -/
def Fresh (s : State τ ℓ) (l : ℓ) : Prop :=
  ∀ w next rest, s.waitList l = w :: next :: rest → s.piListPrio next = s.listPrio next

variable {w : τ}

/-- A waiter has left its wait list, interrupted or as the new owner. -/
structure Dequeued [DecidableEq ℓ] (s s' : State τ ℓ) (w : τ) (l : ℓ) : Prop where
  listPrio : s'.listPrio = s.listPrio
  piListPrio : s'.piListPrio = s.piListPrio
  normalPrio : s'.normalPrio = s.normalPrio
  slowlock : s'.slowlock = s.slowlock
  waitList : s'.waitList = Queues.unlink s.waitList w
  piBlockedOn : s'.piBlockedOn = update s.piBlockedOn w none
  owner : s'.owner = s.owner ∨ s'.owner = update s.owner l (some w)
  pending : ∀ l', s'.pending l' = true → s.pending l' = true ∧ s'.owner l' = s.owner l' ∨
    l' = l ∧ s'.owner l = some w

variable [DecidableEq ℓ]

namespace Dequeued

section

variable (hd : Dequeued s s' w l)
include hd

theorem blocked_of_ne (hu : u ≠ w) : s'.piBlockedOn u = s.piBlockedOn u := by
  rw [hd.piBlockedOn, update_of_ne hu]

theorem not_blocked : s'.piBlockedOn w = none := by rw [hd.piBlockedOn, update_self]

theorem blocked_of_some (hu : s'.piBlockedOn u = some l') : u ≠ w ∧ s.piBlockedOn u = some l' := by
  have hne : u ≠ w := ne_of_none hu hd.not_blocked
  exact ⟨hne, by rw [← hd.blocked_of_ne hne, hu]⟩

theorem owner_of_ne (hl : l' ≠ l) : s'.owner l' = s.owner l' := by
  rcases hd.owner with heq | heq
  · rw [heq]
  · rw [heq, update_of_ne hl]

theorem wait (h : Linked s) : Filed s'.listPrio s'.piBlockedOn s'.waitList := by
  rw [hd.listPrio, hd.piBlockedOn, hd.waitList]
  exact h.wait.del w

theorem waitList_of_ne (h : Linked s) (hw : s.piBlockedOn w = some l) (hl : l' ≠ l) :
    s'.waitList l' = s.waitList l' := by
  rw [hd.waitList]
  refine List.erase_of_not_mem fun hmem => hl ?_
  exact some.inj (((h.wait.mem w l').mp hmem).symm.trans hw)

/-- The waiter was in front of the others. -/
theorem waitList_cons (hw : (s.waitList l).head? = some w) : s.waitList l = w :: s'.waitList l := by
  cases hq : s.waitList l with
  | nil =>
    rw [hq] at hw
    cases hw
  | cons x rest =>
    rw [hq] at hw
    obtain rfl : x = w := some.inj hw
    rw [hd.waitList, unlink, hq, List.erase_cons_head]

theorem head_of_not_head (hw : (s.waitList l).head? ≠ some w) :
    (s'.waitList l).head? = (s.waitList l).head? := by
  rw [hd.waitList]
  exact head?_erase hw

theorem linked (h : Linked s) (hw : s.piBlockedOn w = some l)
    (hfresh : (s.waitList l).head? = some w → Fresh s l)
    (hpi : Filed s'.piListPrio (piPlace s') s'.piWaiters) : Linked s' where
  wait := hd.wait h
  pi := hpi
  top l' u hu := by
    rw [hd.piListPrio, hd.listPrio]
    by_cases hl : l' = l
    · subst hl
      by_cases hhead : (s.waitList l').head? = some w
      · cases hq : s'.waitList l' with
        | nil =>
          rw [hq] at hu
          cases hu
        | cons next rest =>
          rw [hq] at hu
          obtain rfl : next = u := some.inj hu
          exact hfresh hhead w next rest (by rw [hd.waitList_cons hhead, hq])
      · rw [hd.head_of_not_head hhead] at hu
        exact h.top l' u hu
    · rw [hd.waitList_of_ne h hw hl] at hu
      exact h.top l' u hu
  owned u l' hu := by
    obtain ⟨-, hu⟩ := hd.blocked_of_some hu
    rcases hd.owner with heq | heq
    · rw [heq]
      exact h.owned u l' hu
    rw [heq]
    by_cases hl : l' = l
    · exact ⟨w, by rw [hl, update_self]⟩
    · rw [update_of_ne hl]
      exact h.owned u l' hu
  waiting u l' hu := by
    rw [hd.slowlock]
    exact h.waiting u l' (hd.blocked_of_some hu).2
  pending l' hl' := by
    rcases hd.pending l' hl' with ⟨hpend, heq⟩ | ⟨rfl, heq⟩
    · obtain ⟨p, hp, hpb, hslow⟩ := h.pending l' hpend
      refine ⟨p, by rw [heq, hp], ?_, by rw [hd.slowlock]; exact hslow⟩
      by_cases hpw : p = w
      · rw [hpw, hd.not_blocked]
      · rw [hd.blocked_of_ne hpw, hpb]
    · exact ⟨w, heq, hd.not_blocked, by rw [hd.slowlock]; exact h.waiting w l' hw⟩
  ends := by
    refine ends_of h.ends fun u => ?_
    by_cases huw : u = w
    · refine .inr fun o ho => ?_
      rw [huw, above, hd.not_blocked] at ho
      cases ho
    rw [above, above, hd.blocked_of_ne huw]
    cases hu : s.piBlockedOn u with
    | none => exact .inl rfl
    | some l' =>
      rw [bind_some, bind_some]
      rcases hd.owner with heq | heq
      · exact .inl (by rw [heq])
      by_cases hl : l' = l
      · refine .inr fun o ho => ⟨1, climb_one ?_⟩
        rw [heq, hl, update_self] at ho
        rw [← some.inj ho, hd.not_blocked]
      · exact .inl (by rw [heq, update_of_ne hl])

end

end Dequeued

omit [DecidableEq ℓ] in
/-- The lists of the owners when the waiter `w` has left the front of a wait list, and
`next`, if there is one, goes on the list of `o`. -/
def movedUp (s : State τ ℓ) (w o : τ) : Option τ → τ → List τ
  | none => Queues.unlink s.piWaiters w
  | some next => update (Queues.unlink s.piWaiters w) o
      (enqueue s.piListPrio next (Queues.unlink s.piWaiters w o))

theorem addTop_spec {s0 : State τ ℓ} (hd : Dequeued s s0 w l) (h : Linked s)
    (hpi : s0.piWaiters = unlink s.piWaiters w) (o : τ) : ∃ s1, addTop s0 l o = some s1 ∧
      s1 = { s0 with piWaiters := movedUp s w o (s0.waitList l).head? } := by
  refine ⟨_, ?_, rfl⟩
  unfold addTop
  cases hhead : (s0.waitList l).head? with
  | none => rw [if_pos (by rw [List.head?_eq_none_iff.mp hhead]; rfl), movedUp, ← hpi]
  | some next =>
    rw [if_neg (ne_nil_of_head hhead),
      topWaiter_of_head (hd.wait h) hhead, map_some, piAdd, hpi, hd.piListPrio]
    rfl

namespace Dequeued

theorem pi (hd : Dequeued s s' w l) (h : Linked s) (hw : (s.waitList l).head? = some w)
    (ho : s'.owner l = some o) (hpi : s'.piWaiters = movedUp s w o (s'.waitList l).head?) :
    Filed s'.piListPrio (piPlace s') s'.piWaiters := by
  have hblocked := h.wait.place_of_head hw
  have holdTop (u) (hu : (s.waitList l).head? = some u) : u = w := some.inj (hu.symm.trans hw)
  rw [hpi, hd.piListPrio]
  cases hhead : (s'.waitList l).head? with
  | none =>
    rw [piPlace_remove (fun l' hl => hd.owner_of_ne hl)
      (fun l' hl => hd.waitList_of_ne h hblocked hl) holdTop (fun u hu => hd.blocked_of_ne hu)
      (piPlace_of_not_blocked hd.not_blocked) hhead]
    exact h.pi.del w
  | some next =>
    have hnext := (hd.wait h).place_of_head hhead
    obtain ⟨hne, hnextOld⟩ := hd.blocked_of_some hnext
    have hnone : update (piPlace s) w none next = none := by
      rw [update_of_ne hne]
      exact piPlace_of_not_head hnextOld fun heq => hne (holdTop next heq)
    rw [piPlace_replace (fun l' hl => hd.owner_of_ne hl)
      (fun l' hl => hd.waitList_of_ne h hblocked hl) holdTop (fun u _ hu => hd.blocked_of_ne hu)
      (.inr (piPlace_of_not_blocked hd.not_blocked)) hnext hhead ho]
    exact (h.pi.del w).add hnone o

end Dequeued

omit [DecidableEq ℓ] in
theorem Linked.movedUp_of_ne (h : Linked s) (hw : piPlace s w ≠ some t) (hto : t ≠ o) :
    movedUp s w o next t = s.piWaiters t := by
  have hsame : unlink s.piWaiters w t = s.piWaiters t :=
    List.erase_of_not_mem fun hmem => hw ((h.pi.mem w t).mp hmem)
  cases next with
  | none => exact hsame
  | some next => rw [movedUp, update_of_ne hto, hsame]

omit [DecidableEq ℓ] in
/-- The least key of the task that gets the next waiter. -/
theorem leastKey_movedUp (s : State τ ℓ) (w o : τ) (bound p : Int)
    (hp : p ≤ leastKey s.piListPrio bound (unlink s.piWaiters w o))
    (hnext : ∀ u, next = some u → p ≤ s.piListPrio u) :
    p ≤ leastKey s.piListPrio bound (movedUp s w o next o) := by
  cases next with
  | none => exact hp
  | some u =>
    have hu := hnext u rfl
    rw [movedUp, update_self, leastKey_enqueue]
    omega

/-- The next waiter does not come before the one that leaves. -/
theorem Dequeued.next_key (hd : Dequeued s s' w l) (h : Linked s)
    (hw : (s.waitList l).head? = some w) (hfresh : Fresh s l) {next : τ}
    (hnext : (s'.waitList l).head? = some next) : s.listPrio w ≤ s.piListPrio next := by
  have hcons := hd.waitList_cons hw
  cases hq : s'.waitList l with
  | nil =>
    rw [hq] at hnext
    cases hnext
  | cons x rest =>
    rw [hq] at hnext hcons
    obtain rfl : x = next := some.inj hnext
    rw [hfresh w x rest hcons]
    exact h.wait.head_le hw ((h.wait.mem x l).mp (by rw [hcons]; simp))

section

variable (h : Exact s none)
include h

/-- A waiter that is not the first leaves. -/
theorem Exact.leave_behind (ht : s.piBlockedOn t = some l)
    (hhead : (s.waitList l).head? ≠ some t) (hd : Dequeued s s' t l) (howner : s'.owner = s.owner)
    (hpi : s'.piWaiters = s.piWaiters) (hprio : s'.prio = s.prio) : Exact s' none := by
  have hplace : piPlace s' = piPlace s := by
    refine piPlace_same (fun u hu => hd.blocked_of_ne hu) howner (fun l' => ?_) ?_
    · by_cases hl : l' = l
      · rw [hl, hd.head_of_not_head hhead]
      · rw [hd.waitList_of_ne h.linked ht hl]
    · rw [piPlace_of_not_blocked hd.not_blocked, piPlace_of_not_head ht hhead]
  refine ⟨hd.linked h.linked ht (fun heq => absurd heq hhead) ?_, fun u => ?_, fun u l' hu _ => ?_⟩
  · rw [hplace, hd.piListPrio, hpi]
    exact h.linked.pi
  · rw [hprio, h.prio u, rtMutexGetprio, rtMutexGetprio, hpi, hd.piListPrio, hd.normalPrio]
  · rw [hd.listPrio, hprio]
    exact h.list u l' (hd.blocked_of_some hu).2 (by simp)

/-- The top waiter leaves, and its owner is deboosted. -/
theorem Exact.leave_top (hhead : (s.waitList l).head? = some t)
    (ho : s.owner l = some o) (hfresh : Fresh s l)
    (hsteady : ∀ n u, climb s (n + 1) o = some u → (s.piBlockedOn u).isSome = true → Steady s u)
    (hd : Dequeued s s' t l) (howner : s'.owner = s.owner)
    (hpi : s'.piWaiters = movedUp s t o (s'.waitList l).head?)
    (hprio : s'.prio = update s.prio o (rtMutexGetprio s' o))
    (hclimb : ∀ n, climb s' n o = climb s n o) : Walk s' o none := by
  have ht := h.linked.wait.place_of_head hhead
  have hplace : piPlace s t = some o := piPlace_eq_some.mpr ⟨l, ht, hhead, ho⟩
  have htouched : Touched s s' o := by
    refine ⟨fun u hu => ⟨by rw [hd.normalPrio], ?_, fun _ _ => by rw [hd.piListPrio]⟩, hprio⟩
    rw [hpi]
    refine h.linked.movedUp_of_ne ?_ hu
    rw [hplace]
    exact fun heq => hu (some.inj heq).symm
  have hlist (u l') (hu : s'.piBlockedOn u = some l') : s'.listPrio u = s.prio u := by
    rw [hd.listPrio]
    exact h.list u l' (hd.blocked_of_some hu).2 (by simp)
  -- the keys on the list of the owner have only become greater
  have hle : s.prio o ≤ s'.prio o := by
    rw [htouched.prio_eq h.prio o, getprio_eq, hpi, hd.piListPrio, hd.normalPrio, h.prio o]
    refine leastKey_movedUp s t o _ _ (h.linked.pi.leastKey_le_del _ t o) fun next hnext => ?_
    have hkey := hd.next_key h.linked hhead hfresh hnext
    rw [← h.linked.top l t hhead] at hkey
    exact Int.le_trans (h.linked.pi.leastKey_le _ hplace) hkey
  refine ⟨⟨hd.linked h.linked ht (fun _ => hfresh) (hd.pi h.linked hhead (by rw [howner, ho]) hpi),
    htouched.prio_eq h.prio, fun u l' hu huo => ?_⟩, fun _ _ heq => (by cases heq), .inr ⟨?_, ?_⟩⟩
  · rw [htouched.prio_of_ne fun heq => huo (congrArg some heq.symm)]
    exact hlist u l' hu
  · intro l' hl'
    rw [hlist o l' hl']
    exact hle
  · intro n u hu hblocked
    rw [hclimb] at hu
    have huo : u ≠ o := fun heq => climb_ne_self (h.linked.ends o) n (heq ▸ hu)
    obtain ⟨l', hl'⟩ := isSome_iff_exists.mp hblocked
    exact htouched.steady_of_ne huo (hsteady n u hu (by rw [(hd.blocked_of_some hl').2]; rfl))

theorem removeWaiter_spec (ht : s.piBlockedOn t = some l)
    (ho : s.owner l = some o) (hdepth : climb s maxLockDepth o = none)
    (hfresh : (s.waitList l).head? = some t → Fresh s l)
    (hsteady : (s.waitList l).head? = some t → ∀ n u, climb s (n + 1) o = some u →
      (s.piBlockedOn u).isSome = true → Steady s u) :
    ∃ s1 s', removeWaiter maxLockDepth s t l = some s' ∧ Exact s' none ∧ Dequeued s s1 t l ∧
      s1.owner = s.owner ∧ s1.pending = s.pending ∧ Kept s1 s' := by
  have hup (n) : climb s (n + 1) t = climb s n o := by simp [climb, above, ht, ho]
  have havoid (n) : climb s n o ≠ some t := by
    intro heq
    rw [← hup] at heq
    exact climb_ne_self (h.linked.ends t) n heq
  have hot : o ≠ t := fun heq => havoid 0 (congrArg some heq)
  obtain ⟨top, htop⟩ := h.linked.wait.head_isSome ht
  let s0 := { waitDel s t with piBlockedOn := update (waitDel s t).piBlockedOn t none }
  have hd0 : Dequeued s s0 t l :=
    ⟨rfl, rfl, rfl, rfl, rfl, rfl, .inl rfl, fun _ hl' => .inl ⟨hl', rfl⟩⟩
  unfold removeWaiter
  rw [topWaiter_of_head h.linked.wait htop]
  dsimp only
  rw [show (waitDel s t).owner l = some o from ho]
  by_cases heq : top = t
  · subst heq
    rw [if_pos ⟨rfl, fun heq => hot (some.inj heq)⟩]
    dsimp only
    obtain ⟨s1, hadd, hs1⟩ := addTop_spec
      (show Dequeued s (piDel s0 top) top l from { hd0 with }) h.linked rfl o
    rw [hadd]
    dsimp only
    generalize hs2 : adjustPrio s1 o = s2
    have hd2 : Dequeued s s2 top l := by
      subst hs2 hs1
      exact { hd0 with }
    have howner : s2.owner = s.owner := by
      subst hs2 hs1
      rfl
    have hclimb (n) : climb s2 n o = climb s n o :=
      climb_avoid (fun u hu => by rw [above, above, hd2.blocked_of_ne hu, howner]) n o havoid
    have hwalk : Walk s2 o none := by
      refine h.leave_top htop ho (hfresh htop) (hsteady htop) hd2 howner ?_ ?_ hclimb
      · subst hs2 hs1
        rfl
      · subst hs2 hs1
        rfl
    have hpending : s2.pending = s.pending := by
      subst hs2 hs1
      rfl
    split
    · have hchain : ∃ s', rtMutexAdjustPrioChain false (some l) none top maxLockDepth o none s2 =
          some (s', false) ∧ Exact s' none ∧ Kept s2 s' :=
        chain_spec maxLockDepth o none s2 hwalk (by rw [hclimb, hdepth]) (fun u hu => by cases hu)
          (clear_of_avoid (hwalk.exact.linked.ends o) (by rw [howner, ho]) fun n => by
            rw [hclimb]; exact havoid n)
      obtain ⟨s', heq, hexact, hkept⟩ := hchain
      exact ⟨s2, s', by rw [heq]; rfl, hexact, hd2, howner, hpending, hkept⟩
    · rename_i hnot
      refine ⟨s2, s2, rfl, hwalk.exact.none_of fun l' hl' => ?_, hd2, howner, hpending, .refl _⟩
      rw [hl'] at hnot
      exact absurd rfl hnot
  · rw [if_neg fun hboth => heq hboth.1]
    refine ⟨_, _, rfl, h.leave_behind ht ?_ hd0 rfl rfl rfl, hd0, rfl, rfl, .refl _⟩
    rw [htop]
    exact fun heq' => heq (some.inj heq')

/-- The top waiter is the pending owner, with the waiters behind it on its list. -/
theorem Exact.hand_over (hhead : (s.waitList l).head? = some w) (ho : s.owner l = some t)
    (ht : s.piBlockedOn t = none) (hfresh : Fresh s l) (hd : Dequeued s s' w l)
    (howner : s'.owner l = some w) (hpi : s'.piWaiters = movedUp s w w (s'.waitList l).head?)
    (hprio : s'.prio = update s.prio t (rtMutexGetprio s' t)) : Exact s' none := by
  have hw := h.linked.wait.place_of_head hhead
  have hplace : piPlace s w = some t := piPlace_eq_some.mpr ⟨l, hw, hhead, ho⟩
  have hother (u) (hu : u ≠ t) : s'.prio u = s.prio u := by rw [hprio, update_of_ne hu]
  refine ⟨hd.linked h.linked hw (fun _ => hfresh) (hd.pi h.linked hhead howner hpi),
    fun u => ?_, fun u l' hu _ => ?_⟩
  · by_cases hut : u = t
    · rw [hut, hprio, update_self]
    rw [hother u hut, h.prio u, getprio_eq, getprio_eq, hpi, hd.piListPrio, hd.normalPrio]
    have hne : piPlace s w ≠ some u := by
      rw [hplace]
      exact fun heq => hut (some.inj heq).symm
    by_cases huw : u = w
    · subst huw
      have hsame : unlink s.piWaiters u u = s.piWaiters u :=
        List.erase_of_not_mem fun hmem => hne ((h.linked.pi.mem u u).mp hmem)
      cases hnext : (s'.waitList l).head? with
      | none => rw [movedUp, hsame]
      | some next =>
        -- the next waiter does not come before the priority that the new owner has
        have hkey := hd.next_key h.linked hhead hfresh hnext
        rw [h.list u l hw (by simp), h.prio u, getprio_eq] at hkey
        rw [movedUp, update_self, hsame, leastKey_enqueue]
        omega
    · rw [h.linked.movedUp_of_ne hne huw]
  · have hu' := (hd.blocked_of_some hu).2
    have hut : u ≠ t := ne_of_none hu' ht
    rw [hother u hut, hd.listPrio]
    exact h.list u l' hu' (by simp)

theorem rtMutexSlowunlock_spec (ho : s.owner l = some t)
    (ht : s.piBlockedOn t = none) (hfresh : Fresh s l) :
    ∃ s', rtMutexSlowunlock s t l = some s' ∧ Exact s' none ∧ s'.slowlock = s.slowlock ∧
      (∀ l', l' ≠ l → s'.owner l' = s.owner l' ∧ s'.pending l' = s.pending l') ∧
      (s'.owner l = none ∨ s'.pending l = true) := by
  have hset : ∀ {α : Type} (f : ℓ → α) (a : α) (l' : ℓ), l' ≠ l → update f l a l' = f l' :=
    fun f a l' hl => update_of_ne hl a f
  unfold rtMutexSlowunlock
  cases hhead : (s.waitList l).head? with
  | none =>
    have hempty := List.head?_eq_none_iff.mp hhead
    rw [if_pos (by rw [hempty]; rfl)]
    refine ⟨_, rfl, h.setOwner fun u hu => ?_, rfl, fun l' hl => ⟨hset _ _ l' hl, hset _ _ l' hl⟩,
      .inl (update_self _ _ _)⟩
    have hmem := (h.linked.wait.mem u l).mpr hu
    rw [hempty] at hmem
    cases hmem
  | some w =>
    rw [if_neg (ne_nil_of_head hhead)]
    unfold wakeupNextWaiter
    rw [topWaiter_of_head h.linked.wait hhead]
    dsimp only
    generalize hs0 : ({ rtMutexSetOwner (piDel (waitDel s w) w) l (some w) true with
      piBlockedOn := _ } : State τ ℓ) = s0
    have hd0 : Dequeued s s0 w l := by
      subst hs0
      refine ⟨rfl, rfl, rfl, rfl, rfl, rfl, .inr rfl, fun l' hl' => ?_⟩
      by_cases hl : l' = l
      · exact .inr ⟨hl, update_self _ _ _⟩
      · exact .inl ⟨(hset _ _ l' hl).symm.trans hl', hset _ _ l' hl⟩
    obtain ⟨s1, hadd, hs1⟩ := addTop_spec hd0 h.linked (by subst hs0; rfl) w
    rw [hadd]
    subst hs1 hs0
    refine ⟨_, rfl, h.hand_over hhead ho ht hfresh { hd0 with } (update_self _ _ _) rfl rfl, rfl,
      fun l' hl => ?_, .inr (update_self _ _ _)⟩
    exact ⟨hset _ _ l' hl, hset _ _ l' hl⟩

end

end

/-! ## A new priority -/

section

variable [DecidableEq ℓ]

omit [DecidableEq ℓ] in
theorem setscheduler_touched (s : State τ ℓ) (t : τ) (n : Int) :
    Touched s (adjustPrio { s with normalPrio := update s.normalPrio t n } t) t :=
  ⟨fun _ hu => ⟨update_of_ne hu _ _, rfl, fun _ _ => rfl⟩, rfl⟩

theorem setscheduler_spec {n : Int} (h : Exact s none) (hdepth : climb s maxLockDepth t = none)
    (hsteady : s.prio t < n → ∀ m u, climb s (m + 1) t = some u →
      (s.piBlockedOn u).isSome = true → Steady s u) :
    ∃ s', setscheduler maxLockDepth s t n = some s' ∧ Exact s' none ∧
      s'.piBlockedOn = s.piBlockedOn ∧ s'.owner = s.owner ∧ s'.pending = s.pending ∧
      s'.slowlock = s.slowlock := by
  have htouched := setscheduler_touched s t n
  unfold setscheduler
  dsimp only
  generalize hs1 : adjustPrio { s with normalPrio := update s.normalPrio t n } t = s1
  rw [hs1] at htouched
  have hclimb : ∀ m u, climb s1 m u = climb s m u := by
    subst hs1
    exact climb_congr fun _ => rfl
  have hblock : s1.piBlockedOn = s.piBlockedOn := by
    subst hs1
    rfl
  have hown : s1.owner = s.owner := by
    subst hs1
    rfl
  have hrest : s1.pending = s.pending ∧ s1.slowlock = s.slowlock ∧ s1.listPrio = s.listPrio := by
    subst hs1
    exact ⟨rfl, rfl, rfl⟩
  have hle : s1.prio t ≤ n := by
    subst hs1
    simp only [adjustPrio, update_self, getprio_eq]
    exact leastKey_le_bound _ _ _
  have hexact : Exact s1 (some t) := by
    refine ⟨?_, htouched.prio_eq h.prio, fun u l' hu hut => ?_⟩
    · subst hs1
      exact ⟨h.linked.wait, h.linked.pi, h.linked.top, h.linked.owned, h.linked.waiting,
        h.linked.pending, fun u => by
          obtain ⟨m, hm⟩ := h.linked.ends u
          exact ⟨m, by rw [hclimb, hm]⟩⟩
    · rw [htouched.prio_of_ne fun heq => hut (congrArg some heq.symm), hrest.2.2]
      rw [hblock] at hu
      exact h.list u l' hu (by simp)
  unfold rtMutexAdjustPi
  split
  · rename_i hstop
    refine ⟨s1, rfl, hexact.none_of fun l' hl' => ?_, hblock, hown, hrest.1, hrest.2.1⟩
    rcases hstop with hnone | heq
    · rw [hl'] at hnone
      cases hnone
    · exact heq
  have hlist (l') (hl' : s1.piBlockedOn t = some l') : s1.listPrio t = s.prio t := by
    rw [hblock] at hl'
    rw [hrest.2.2]
    exact h.list t l' hl' (by simp)
  have hwalk : Walk s1 t none := by
    refine ⟨hexact, fun _ _ heq => (by cases heq), ?_⟩
    by_cases hdown : s1.prio t ≤ s.prio t
    · refine .inl fun l' hl' => ?_
      rw [hlist l' hl']
      exact hdown
    refine .inr ⟨fun l' hl' => ?_, fun m u hu hblocked => ?_⟩
    · rw [hlist l' hl']
      omega
    · rw [hclimb] at hu
      rw [hblock] at hblocked
      have hut : u ≠ t := fun heq => climb_ne_self (h.linked.ends t) m (heq ▸ hu)
      exact htouched.steady_of_ne hut (hsteady (by omega) m u hu hblocked)
  have hchain : ∃ s', rtMutexAdjustPrioChain false none none t maxLockDepth t none s1 =
      some (s', false) ∧ Exact s' none ∧ Kept s1 s' := by
    refine chain_spec maxLockDepth t none s1 hwalk (by rw [hclimb, hdepth])
      (fun u hu => by cases hu) fun m u l' hu hl' => ⟨by simp, fun heq => ?_⟩
    refine climb_ne_self (hexact.linked.ends t) m ?_
    rw [climb_add, hu]
    simp [climb, above, hl', heq]
  obtain ⟨s', heq, hexact', hkept⟩ := hchain
  exact ⟨s', by rw [heq]; rfl, hexact', hkept.piBlockedOn.trans hblock, hkept.owner.trans hown,
    hkept.pending.trans hrest.1, hkept.slowlock.trans hrest.2.1⟩

end

end LinuxKernel.Kernel.RtMutex
