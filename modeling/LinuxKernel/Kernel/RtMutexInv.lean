/-
  What the operations on mutexes keep up.

  The wait lists and the lists of the owners are queues sorted by their keys; the task's
  place on the list of an owner is given by the locks (`piPlace`).  While a chain is being
  walked, one task may be queued with another priority than it has.
-/
import LinuxKernel.Kernel.RtMutex

namespace LinuxKernel.Kernel.RtMutex

open Foundation Function Option

variable {τ ℓ : Type} {s s' : State τ ℓ} {t u : τ} {l : ℓ} {old owner : τ}

theorem ne_of_none {α β : Type} {f : α → Option β} {a b : α} {x : β} (ha : f a = some x)
    (hb : f b = none) : a ≠ b := by
  rintro rfl
  exact absurd (hb.symm.trans ha) (by simp)

theorem ne_nil_of_head {q : List τ} (h : q.head? = some t) : ¬ q.isEmpty = true := by
  cases q <;> simp_all

/-! ## Chains of waiting tasks -/

section

/-- The owner of the lock that the task waits for. -/
def above (s : State τ ℓ) (t : τ) : Option τ := (s.piBlockedOn t).bind s.owner

/-- The task `n` links up the chain. -/
def climb (s : State τ ℓ) : Nat → τ → Option τ
  | 0, t => some t
  | n + 1, t => (above s t).bind (climb s n)

theorem climb_add (m n : Nat) (t : τ) : climb s (m + n) t = (climb s m t).bind (climb s n) := by
  induction m generalizing n t with
  | zero => simp [climb]
  | succ m ih =>
    rw [Nat.succ_add]
    simp only [climb]
    cases above s t with
    | none => rfl
    | some t' => exact ih n t'

theorem climb_congr (h : ∀ t, above s' t = above s t) (n : Nat) (t : τ) :
    climb s' n t = climb s n t := by
  induction n generalizing t with
  | zero => rfl
  | succ n ih =>
    simp only [climb, h]
    cases above s t with
    | none => rfl
    | some t' => exact ih t'

theorem climb_none_mono {m n : Nat} (hmn : m ≤ n) (h : climb s m t = none) : climb s n t = none := by
  obtain ⟨k, rfl⟩ : ∃ k, n = m + k := ⟨n - m, by omega⟩
  rw [climb_add, h]
  rfl

/-- A chain that ends does not come back. -/
theorem climb_ne_self (hends : ∃ n, climb s n t = none) (n : Nat) : climb s (n + 1) t ≠ some t := by
  intro hcycle
  have hround : ∀ k, climb s (k * (n + 1)) t = some t := by
    intro k
    induction k with
    | zero => simp [climb]
    | succ k ih => rw [Nat.succ_mul, climb_add, ih, bind_some, hcycle]
  obtain ⟨m, hm⟩ := hends
  have hnone := climb_none_mono (Nat.le_mul_of_pos_right m (Nat.succ_pos n)) hm
  rw [hround m] at hnone
  cases hnone

/-- What can be said of the whole chain from what holds up to its end. -/
theorem climb_ne_of_lt {m : Nat} (hend : climb s m t = none) (h : ∀ n < m, climb s n t ≠ some u)
    (n : Nat) : climb s n t ≠ some u := by
  by_cases hn : n < m
  · exact h n hn
  · rw [climb_none_mono (by omega) hend]
    simp

end

/-! ## The invariant -/

section

variable [DecidableEq τ]

/-- The task that has the waiter on its list: the owner, if it is the top waiter. -/
def piPlace (s : State τ ℓ) (u : τ) : Option τ :=
  (s.piBlockedOn u).bind fun l => if (s.waitList l).head? = some u then s.owner l else none

/-- The lists and pointers agree. -/
structure Linked (s : State τ ℓ) : Prop where
  wait : Filed s.listPrio s.piBlockedOn s.waitList
  pi : Filed s.piListPrio (piPlace s) s.piWaiters
  top : ∀ l u, (s.waitList l).head? = some u → s.piListPrio u = s.listPrio u
  owned : ∀ t l, s.piBlockedOn t = some l → ∃ o, s.owner l = some o
  waiting : ∀ t l, s.piBlockedOn t = some l → ∃ a, s.slowlock t = some a ∧ a.lock = l
  pending : ∀ l, s.pending l = true → ∃ p, s.owner l = some p ∧ s.piBlockedOn p = none ∧
    ∃ a, s.slowlock p = some a ∧ a.lock = l
  ends : ∀ t, ∃ n, climb s n t = none

/-- The priorities are right, but for the place of one task on its wait list. -/
structure Exact (s : State τ ℓ) (off : Option τ) : Prop where
  linked : Linked s
  prio : ∀ t, s.prio t = rtMutexGetprio s t
  list : ∀ t l, s.piBlockedOn t = some l → off ≠ some t → s.listPrio t = s.prio t

theorem Exact.none_of (h : Exact s (some t))
    (ht : ∀ l, s.piBlockedOn t = some l → s.listPrio t = s.prio t) : Exact s none where
  linked := h.linked
  prio := h.prio
  list u l hu _ := by
    by_cases hut : u = t
    · subst hut
      exact ht l hu
    · exact h.list u l hu (fun heq => hut (some.inj heq).symm)

theorem Exact.off (h : Exact s none) (off : Option τ) : Exact s off where
  linked := h.linked
  prio := h.prio
  list u l hu _ := h.list u l hu (by simp)

omit [DecidableEq τ] in
theorem getprio_eq (s : State τ ℓ) (t : τ) :
    rtMutexGetprio s t = leastKey s.piListPrio (s.normalPrio t) (s.piWaiters t) := rfl

omit [DecidableEq τ] in
/-- The first of a wait list is the top waiter. -/
theorem topWaiter_of_head [DecidableEq ℓ] (h : Filed s.listPrio s.piBlockedOn s.waitList)
    (hhead : (s.waitList l).head? = some t) : rtMutexTopWaiter s l = some t := by
  unfold rtMutexTopWaiter
  rw [hhead, filter_some, if_pos (decide_eq_true (h.place_of_head hhead))]

theorem piPlace_eq_some : piPlace s u = some t ↔
    ∃ l, s.piBlockedOn u = some l ∧ (s.waitList l).head? = some u ∧ s.owner l = some t := by
  unfold piPlace
  cases s.piBlockedOn u with
  | none => simp
  | some l =>
    rw [bind_some]
    constructor
    · intro h
      split at h
      · rename_i hhead
        exact ⟨l, rfl, hhead, h⟩
      · cases h
    · rintro ⟨l', hl', hhead, ho⟩
      obtain rfl := some.inj hl'
      rw [if_pos hhead, ho]

/-- Nobody owns the lock it waits for. -/
theorem Linked.owner_ne (h : Linked s) (ht : s.piBlockedOn t = some l) : s.owner l ≠ some t := by
  intro ho
  refine climb_ne_self (h.ends t) 0 ?_
  simp [climb, above, ht, ho]

end

/-! ## One round of a chain -/

section

variable [DecidableEq τ]

/-- What the walk along a chain leaves alone. -/
structure Kept (s s' : State τ ℓ) : Prop where
  normalPrio : s'.normalPrio = s.normalPrio
  piBlockedOn : s'.piBlockedOn = s.piBlockedOn
  owner : s'.owner = s.owner
  pending : s'.pending = s.pending
  slowlock : s'.slowlock = s.slowlock

omit [DecidableEq τ] in
theorem Kept.climb (h : Kept s s') (n : Nat) (t : τ) : climb s' n t = RtMutex.climb s n t :=
  climb_congr (fun t => by rw [above, above, h.piBlockedOn, h.owner]) n t

/-- The priority of the task does not rest on its top waiter alone. -/
def Steady (s : State τ ℓ) (t : τ) : Prop :=
  ∀ x y rest, s.piWaiters t = x :: y :: rest → s.prio t = min (s.piListPrio y) (s.normalPrio t)

/-- Only the waiters of one task have changed, or its own priority. -/
structure Touched (s s' : State τ ℓ) (owner : τ) : Prop where
  others : ∀ t, t ≠ owner → s'.normalPrio t = s.normalPrio t ∧ s'.piWaiters t = s.piWaiters t ∧
    ∀ u ∈ s.piWaiters t, s'.piListPrio u = s.piListPrio u
  prio : s'.prio = update s.prio owner (rtMutexGetprio s' owner)

namespace Touched

section

variable (ht : Touched s s' owner)
include ht

theorem prio_of_ne (hne : t ≠ owner) : s'.prio t = s.prio t := by rw [ht.prio, update_of_ne hne]

theorem getprio_of_ne (hne : t ≠ owner) : rtMutexGetprio s' t = rtMutexGetprio s t := by
  obtain ⟨hnormal, hsame, hkeys⟩ := ht.others t hne
  rw [rtMutexGetprio, rtMutexGetprio, hsame, hnormal]
  cases hhead : (s.piWaiters t).head? with
  | none => rfl
  | some u =>
    dsimp only
    rw [hkeys u (List.mem_of_mem_head? hhead)]

theorem prio_eq (h : ∀ t, s.prio t = rtMutexGetprio s t) (t : τ) :
    s'.prio t = rtMutexGetprio s' t := by
  by_cases hne : t = owner
  · rw [hne, ht.prio, update_self]
  · rw [ht.prio_of_ne hne, ht.getprio_of_ne hne]
    exact h t

/-- A task that stays as it is stays steady. -/
theorem steady_of_ne (hne : t ≠ owner) (hst : Steady s t) : Steady s' t := by
  obtain ⟨hnormal, hsame, hkeys⟩ := ht.others t hne
  intro x y rest heq
  rw [hsame] at heq
  rw [ht.prio_of_ne hne, hst x y rest heq, hnormal, hkeys y (by rw [heq]; simp)]

end

end Touched

/-- A waiter takes the place of another on the list of the owner, with the key `p`. -/
structure Replaced (s s' : State τ ℓ) (owner old new : τ) (p : Int) : Prop where
  normalPrio : s'.normalPrio = s.normalPrio
  piWaiters : s'.piWaiters = Queues.replace s.piListPrio s.piWaiters owner old new p
  piListPrio : s'.piListPrio = update s.piListPrio new p
  prio : s'.prio = update s.prio owner (rtMutexGetprio s' owner)
  place : piPlace s' = update (update (piPlace s) old none) new (some owner)
  oldPlace : piPlace s old = none ∨ piPlace s old = some owner
  newPlace : new = old ∨ piPlace s new = none

namespace Replaced

variable {new : τ} {p : Int} {off : Option τ}

section

variable (hr : Replaced s s' owner old new p)
include hr

theorem pi (h : Linked s) : Filed s'.piListPrio (piPlace s') s'.piWaiters := by
  rw [hr.piListPrio, hr.place, hr.piWaiters]
  exact h.pi.replace hr.newPlace owner p

theorem touched (h : Linked s) : Touched s s' owner where
  others t ht := by
    have hsame : s'.piWaiters t = s.piWaiters t := by
      rw [hr.piWaiters]
      exact h.pi.replace_of_ne hr.oldPlace ht
    refine ⟨by rw [hr.normalPrio], hsame, fun u hu => ?_⟩
    have hne : u ≠ new := by
      rintro rfl
      rw [← hsame, (hr.pi h).mem, hr.place, update_self] at hu
      exact ht (some.inj hu).symm
    rw [hr.piListPrio, update_of_ne hne]
  prio := hr.prio

theorem prio_eq (h : Exact s off) (t : τ) :
    s'.prio t = rtMutexGetprio s' t := (hr.touched h.linked).prio_eq h.prio t

/-- The owner is boosted: its priority has changed only if the new waiter is its first. -/
theorem boost (h : Exact s off)
    (hp : piPlace s old = none ∨ p ≤ s.piListPrio old) : s'.prio owner ≤ s.prio owner ∧
      (s'.prio owner ≠ s.prio owner → (s'.piWaiters owner).head? = some new) := by
  have hold : piPlace s old = none ∨ piPlace s old = some owner ∧ p ≤ s.piListPrio old := by
    rcases hr.oldPlace with hnone | hsome
    · exact .inl hnone
    · refine .inr ⟨hsome, hp.resolve_left ?_⟩
      rw [hsome]
      simp
  have hboost := h.linked.pi.replace_boost (s.normalPrio owner) hr.newPlace hold
  rw [hr.prio_eq h, h.prio, getprio_eq, hr.piListPrio, hr.piWaiters, hr.normalPrio]
  exact hboost

/-- The owner is deboosted. -/
theorem deboost (h : Exact s off) (hold : piPlace s old = some owner) (hp : s.piListPrio old ≤ p) :
    s.prio owner ≤ s'.prio owner ∧ (Steady s owner → s'.prio owner ≠ s.prio owner →
      (s'.piWaiters owner).head? = some new) := by
  have hdeboost := h.linked.pi.replace_deboost (s.normalPrio owner) hr.newPlace hold hp
  have hsteady (hst : Steady s owner) (x y rest) (heq : s.piWaiters owner = x :: y :: rest) :
      leastKey s.piListPrio (s.normalPrio owner) (s.piWaiters owner) =
        min (s.piListPrio y) (s.normalPrio owner) := by
    rw [← getprio_eq, ← h.prio]
    exact hst x y rest heq
  rw [hr.prio_eq h, h.prio, getprio_eq, getprio_eq, hr.piListPrio, hr.piWaiters, hr.normalPrio]
  exact ⟨hdeboost.1, fun hst => hdeboost.2 (hsteady hst)⟩

end

end Replaced

section

variable (howner : ∀ l', l' ≠ l → s'.owner l' = s.owner l')
  (hothers : ∀ l', l' ≠ l → s'.waitList l' = s.waitList l')
  (holdTop : ∀ u, (s.waitList l).head? = some u → u = old)
include howner hothers holdTop

/-- When only one lock has another top waiter, or another owner, the others stay. -/
theorem piPlace_other (hblocked : s'.piBlockedOn u = s.piBlockedOn u) (huo : u ≠ old)
    (hu : (s'.waitList l).head? ≠ some u) : piPlace s' u = piPlace s u := by
  rw [piPlace, piPlace, hblocked]
  cases s.piBlockedOn u with
  | none => rfl
  | some l' =>
    rw [bind_some, bind_some]
    by_cases hl : l' = l
    · subst hl
      rw [if_neg hu, if_neg fun h => huo (holdTop u h)]
    · rw [hothers l' hl, howner l' hl]

theorem piPlace_replace {new : τ}
    (hblocked : ∀ u, u ≠ new → u ≠ old → s'.piBlockedOn u = s.piBlockedOn u)
    (hold : old = new ∨ piPlace s' old = none) (hnew : s'.piBlockedOn new = some l)
    (hnewTop : (s'.waitList l).head? = some new) (ho : s'.owner l = some owner) :
    piPlace s' = update (update (piPlace s) old none) new (some owner) := by
  refine eq_update_iff.mpr ⟨piPlace_eq_some.mpr ⟨l, hnew, hnewTop, ho⟩, fun u hun => ?_⟩
  by_cases huo : u = old
  · subst huo
    rw [update_self]
    exact hold.resolve_left hun
  rw [update_of_ne huo]
  exact piPlace_other howner hothers holdTop (hblocked u hun huo) huo
    fun h => hun (some.inj (h.symm.trans hnewTop))

/-- When only one lock has no top waiter any more. -/
theorem piPlace_remove (hblocked : ∀ u, u ≠ old → s'.piBlockedOn u = s.piBlockedOn u)
    (hold : piPlace s' old = none) (hnone : (s'.waitList l).head? = none) :
    piPlace s' = update (piPlace s) old none := by
  refine eq_update_iff.mpr ⟨hold, fun u huo => ?_⟩
  exact piPlace_other howner hothers holdTop (hblocked u huo) huo (by simp [hnone])

end

/-- When the locks have the top waiters that they had. -/
theorem piPlace_same (hblocked : ∀ u, u ≠ t → s'.piBlockedOn u = s.piBlockedOn u)
    (howner : s'.owner = s.owner) (hheads : ∀ l, (s'.waitList l).head? = (s.waitList l).head?)
    (ht : piPlace s' t = piPlace s t) : piPlace s' = piPlace s := by
  funext u
  by_cases hut : u = t
  · rw [hut, ht]
  · simp [piPlace, hblocked u hut, howner, hheads]

theorem piPlace_of_not_blocked (ht : s.piBlockedOn t = none) : piPlace s t = none := by
  rw [piPlace, ht, bind_none]

/-- A waiter that is not the first has no place on the list of an owner. -/
theorem piPlace_of_not_head (ht : s.piBlockedOn t = some l) (hne : (s.waitList l).head? ≠ some t) :
    piPlace s t = none := by
  rw [piPlace, ht, bind_some, if_neg hne]

variable [DecidableEq ℓ]

/-- The wait lists after a waiter was queued with the priority of its task. -/
theorem Linked.requeue_wait (h : Linked s) (ht : s.piBlockedOn t = some l) :
    Filed (requeue s l t).listPrio s.piBlockedOn (requeue s l t).waitList := by
  have hplace : update (update s.piBlockedOn t none) t (some l) = s.piBlockedOn := by
    rw [update_idem, ← ht, update_eq_self]
  have hfiled := ((h.wait.del t).rekey (update_self _ _ _) (s.prio t)).add (update_self _ _ _) l
  rw [hplace] at hfiled
  exact hfiled

theorem Linked.requeue_of_ne (h : Linked s) (ht : s.piBlockedOn t = some l) {l' : ℓ}
    (hl : l' ≠ l) : (requeue s l t).waitList l' = s.waitList l' := by
  have hother : (requeue s l t).waitList l' = (s.waitList l').erase t := by
    simp only [requeue, waitAdd, update_of_ne hl]
    rfl
  rw [hother]
  refine List.erase_of_not_mem fun hmem => hl ?_
  exact some.inj (((h.wait.mem t l').mp hmem).symm.trans ht)

theorem requeue_listPrio_of_ne (s : State τ ℓ) (l : ℓ) (hut : u ≠ t) :
    (requeue s l t).listPrio u = s.listPrio u := by
  simp [requeue, waitAdd, update_of_ne hut]

theorem requeue_listPrio_self (s : State τ ℓ) (l : ℓ) (t : τ) :
    (requeue s l t).listPrio t = s.prio t := by
  simp [requeue, waitAdd]

/-- The top waiter is another one only if the waiter was or is it. -/
theorem Linked.requeue_head (h : Linked s) (ht : s.piBlockedOn t = some l) :
    ∃ old top, (s.waitList l).head? = some old ∧ ((requeue s l t).waitList l).head? = some top ∧
      (t ≠ top → old ≠ t → top = old) := by
  obtain ⟨old, hold⟩ := h.wait.head_isSome ht
  obtain ⟨top, htop⟩ := (h.requeue_wait ht).head_isSome ht
  refine ⟨old, top, hold, htop, fun hnew hne => ?_⟩
  have hlist : (requeue s l t).waitList l =
      enqueue (requeue s l t).listPrio t ((s.waitList l).erase t) := by
    simp only [requeue, waitAdd, update_self]
    rfl
  have herase : ((s.waitList l).erase t).head? = some old := by
    rw [head?_erase (fun heq => hne (some.inj (hold.symm.trans heq))), hold]
  rw [hlist] at htop
  rcases head?_enqueue (requeue s l t).listPrio t ((s.waitList l).erase t) with
    heq | ⟨b, hb, heq, -⟩
  · exact absurd (some.inj (heq.symm.trans htop)) hnew
  · rw [herase] at hb
    exact (some.inj (heq.symm.trans htop)).symm.trans (some.inj hb).symm

/-- What a round does: `t` is queued with its priority, and its owner `o` has the top
waiter `top` on its list. -/
structure RoundDone (s s' : State τ ℓ) (t o top : τ) : Prop where
  exact : Exact s' (some o)
  kept : Kept s s'
  listPrio : s'.listPrio o = s.listPrio o
  boost : s.prio t ≤ s.listPrio t → s'.prio o ≤ s.prio o ∧
    (s'.prio o ≠ s.prio o → (s'.piWaiters o).head? = some top)
  deboost : s.listPrio t ≤ s.prio t → s.prio o ≤ s'.prio o ∧
    (Steady s o → s'.prio o ≠ s.prio o → (s'.piWaiters o).head? = some top)
  steady : ∀ u, u ≠ o → Steady s u → Steady s' u

theorem requeue_kept (s : State τ ℓ) (l : ℓ) (t : τ) : Kept s (requeue s l t) :=
  ⟨rfl, rfl, rfl, rfl, rfl⟩

omit [DecidableEq ℓ] in
theorem Linked.of_kept (h : Linked s) (hkept : Kept s s')
    (hwait : Filed s'.listPrio s'.piBlockedOn s'.waitList)
    (hpi : Filed s'.piListPrio (piPlace s') s'.piWaiters)
    (htop : ∀ l u, (s'.waitList l).head? = some u → s'.piListPrio u = s'.listPrio u) :
    Linked s' where
  wait := hwait
  pi := hpi
  top := htop
  owned t l ht := by
    rw [hkept.piBlockedOn] at ht
    rw [hkept.owner]
    exact h.owned t l ht
  waiting t l ht := by
    rw [hkept.piBlockedOn] at ht
    rw [hkept.slowlock]
    exact h.waiting t l ht
  pending l hl := by
    rw [hkept.pending] at hl
    rw [hkept.owner, hkept.piBlockedOn, hkept.slowlock]
    exact h.pending l hl
  ends t := by
    obtain ⟨n, hn⟩ := h.ends t
    exact ⟨n, by rw [hkept.climb, hn]⟩

/-- The keys of the top waiters before and after. -/
theorem requeue_keys {top : τ} (h : Linked s) (ht : s.piBlockedOn t = some l)
    (hold : (s.waitList l).head? = some old)
    (htop : ((requeue s l t).waitList l).head? = some top) :
    (s.prio t ≤ s.listPrio t → (requeue s l t).listPrio top ≤ s.piListPrio old) ∧
      (s.listPrio t ≤ s.prio t → s.piListPrio old ≤ (requeue s l t).listPrio top) := by
  have hwait := h.requeue_wait ht
  have h1 := hwait.head_le htop (h.wait.place_of_head hold)
  have h2 := h.wait.head_le hold (hwait.place_of_head htop)
  rw [h.top l old hold]
  have hcases (u) : (requeue s l t).listPrio u = s.listPrio u ∨
        u = t ∧ (requeue s l t).listPrio u = s.prio t := by
    by_cases hu : u = t
    · exact .inr ⟨hu, by rw [hu, requeue_listPrio_self]⟩
    · exact .inl (requeue_listPrio_of_ne s l hu)
  refine ⟨fun hle => Int.le_trans h1 ?_, fun hle => Int.le_trans h2 ?_⟩
  · rcases hcases old with heq | ⟨rfl, heq⟩
    · exact Int.le_of_eq heq
    · rw [heq]
      exact hle
  · rcases hcases top with heq | ⟨rfl, heq⟩
    · exact Int.le_of_eq heq.symm
    · rw [heq]
      exact hle

/-- The top waiters of the other locks are as before. -/
theorem Linked.requeue_top_of_ne (h : Linked s) (ht : s.piBlockedOn t = some l) {l' : ℓ}
    (hl : l' ≠ l) (hu : ((requeue s l t).waitList l').head? = some u) :
    s.piBlockedOn u ≠ some l ∧ s.piListPrio u = (requeue s l t).listPrio u := by
  rw [h.requeue_of_ne ht hl] at hu
  have hblocked : s.piBlockedOn u ≠ some l := by
    rw [h.wait.place_of_head hu]
    exact fun heq => hl (some.inj heq)
  have hut : u ≠ t := fun heq => hblocked (heq ▸ ht)
  exact ⟨hblocked, by rw [requeue_listPrio_of_ne s l hut, h.top l' u hu]⟩

section

variable {o : τ} (h : Exact s (some t)) (ht : s.piBlockedOn t = some l) (ho : s.owner l = some o)
  (hold : (s.waitList l).head? = some old)
include h ht ho hold

theorem round_replaced {top : τ}
    (htop : ((requeue s l t).waitList l).head? = some top) :
    RoundDone s (replaceTop (requeue s l t) o old top) t o top := by
  have hwait := h.linked.requeue_wait ht
  have hoblock := h.linked.wait.place_of_head hold
  have htblock := hwait.place_of_head htop
  have hot : t ≠ o := fun heq => h.linked.owner_ne ht (heq ▸ ho)
  have hplaceOld : piPlace s old = some o := piPlace_eq_some.mpr ⟨l, hoblock, hold, ho⟩
  have hkept : Kept s (replaceTop (requeue s l t) o old top) := ⟨rfl, rfl, rfl, rfl, rfl⟩
  have hrep : Replaced s (replaceTop (requeue s l t) o old top) o old top
      ((requeue s l t).listPrio top) := by
    refine ⟨rfl, rfl, rfl, rfl, ?_, .inr hplaceOld, ?_⟩
    · refine piPlace_replace (fun l' _ => congrFun hkept.owner l')
        (fun l' hl => h.linked.requeue_of_ne ht hl)
        (fun u hu => some.inj (hu.symm.trans hold)) (fun _ _ _ => rfl) ?_ htblock htop ho
      by_cases heq : old = top
      · exact .inl heq
      · exact .inr (piPlace_of_not_head hoblock fun h' => heq (some.inj (h'.symm.trans htop)))
    · by_cases heq : top = old
      · exact .inl heq
      · exact .inr (piPlace_of_not_head htblock fun h' => heq (some.inj (h'.symm.trans hold)))
  obtain ⟨hdown, hup⟩ := requeue_keys h.linked ht hold htop
  refine ⟨⟨h.linked.of_kept hkept hwait (hrep.pi h.linked) ?_, hrep.prio_eq h, ?_⟩, hkept,
    requeue_listPrio_of_ne s l hot.symm, fun hle => hrep.boost h (.inr (hdown hle)),
    fun hle => hrep.deboost h hplaceOld (hup hle), fun u hu => (hrep.touched h.linked).steady_of_ne hu⟩
  · intro l' u hu
    change update s.piListPrio top ((requeue s l t).listPrio top) u = (requeue s l t).listPrio u
    by_cases hl : l' = l
    · subst hl
      obtain rfl := some.inj (htop.symm.trans hu)
      rw [update_self]
    · obtain ⟨hblocked, hkey⟩ := h.linked.requeue_top_of_ne ht hl hu
      have hne : u ≠ top := fun heq => hblocked (heq ▸ htblock)
      rw [update_of_ne hne]
      exact hkey
  · intro u l' hu huo
    have hne : u ≠ o := fun heq => huo (congrArg some heq.symm)
    rw [(hrep.touched h.linked).prio_of_ne hne]
    change (requeue s l t).listPrio u = s.prio u
    by_cases hut : u = t
    · rw [hut, requeue_listPrio_self]
    · rw [requeue_listPrio_of_ne s l hut]
      exact h.list u l' hu fun heq => hut (some.inj heq).symm

theorem round_neutral
    (htop : ((requeue s l t).waitList l).head? = some old) (hne : old ≠ t) :
    RoundDone s (requeue s l t) t o old := by
  have hwait := h.linked.requeue_wait ht
  have hot : t ≠ o := fun heq => h.linked.owner_ne ht (heq ▸ ho)
  have hheads (l') : ((requeue s l t).waitList l').head? = (s.waitList l').head? := by
    by_cases hl : l' = l
    · rw [hl, htop, hold]
    · rw [h.linked.requeue_of_ne ht hl]
  have hplace : piPlace (requeue s l t) = piPlace s := by
    unfold piPlace
    simp only [hheads]
    rfl
  refine ⟨⟨h.linked.of_kept (requeue_kept s l t) hwait ?_ ?_, h.prio, ?_⟩, requeue_kept s l t,
    requeue_listPrio_of_ne s l hot.symm, fun _ => ⟨Int.le_refl _, fun hp => absurd rfl hp⟩,
    fun _ => ⟨Int.le_refl _, fun _ hp => absurd rfl hp⟩, fun u _ hst => hst⟩
  · rw [hplace]
    exact h.linked.pi
  · intro l' u hu
    by_cases hl : l' = l
    · subst hl
      obtain rfl := some.inj (htop.symm.trans hu)
      rw [requeue_listPrio_of_ne s l' hne]
      exact h.linked.top l' old hold
    · exact (h.linked.requeue_top_of_ne ht hl hu).2
  · intro u l' hu _
    by_cases hut : u = t
    · rw [hut, requeue_listPrio_self]
      rfl
    · rw [requeue_listPrio_of_ne s l hut]
      exact h.list u l' hu fun heq => hut (some.inj heq).symm

end

end

/-! ## The whole chain -/

section

variable [DecidableEq τ]

omit [DecidableEq τ] in
theorem Kept.refl (s : State τ ℓ) : Kept s s := ⟨rfl, rfl, rfl, rfl, rfl⟩

omit [DecidableEq τ] in
theorem Kept.trans {s'' : State τ ℓ} (h : Kept s s') (h' : Kept s' s'') : Kept s s'' :=
  ⟨h'.normalPrio.trans h.normalPrio, h'.piBlockedOn.trans h.piBlockedOn, h'.owner.trans h.owner,
    h'.pending.trans h.pending, h'.slowlock.trans h.slowlock⟩

/-- What holds when a round begins with `task` and the top waiter `w`, if there is one.
Boosting, a task whose priority has changed has it from `w`; deboosting, that needs the
tasks further up to be steady. -/
structure Walk (s : State τ ℓ) (task : τ) (w : Option τ) : Prop where
  exact : Exact s (some task)
  first : ∀ top l, w = some top → s.piBlockedOn task = some l → s.prio task ≠ s.listPrio task →
    (s.piWaiters task).head? = some top
  direction : (∀ l, s.piBlockedOn task = some l → s.prio task ≤ s.listPrio task) ∨
    (∀ l, s.piBlockedOn task = some l → s.listPrio task ≤ s.prio task) ∧
      ∀ n o, climb s (n + 1) task = some o → (s.piBlockedOn o).isSome = true → Steady s o

/-- One round leads to the next. -/
theorem Walk.next {o top : τ} {w : Option τ} (h : Walk s t w) (ht : s.piBlockedOn t = some l)
    (ho : s.owner l = some o) (hdone : RoundDone s s' t o top) : Walk s' o (some top) := by
  have hclimb (n) : climb s (n + 1) t = climb s n o := by simp [climb, above, ht, ho]
  have hot : o ≠ t := fun heq => h.exact.linked.owner_ne ht (heq ▸ ho)
  -- the owner was queued with the priority that it had
  have hlist (l') (hl' : s'.piBlockedOn o = some l') : s'.listPrio o = s.prio o := by
    rw [hdone.kept.piBlockedOn] at hl'
    rw [hdone.listPrio]
    exact h.exact.list o l' hl' fun heq => hot (some.inj heq).symm
  refine ⟨hdone.exact, fun top' l' htop hl' hne => ?_, ?_⟩
  · obtain rfl := some.inj htop
    rw [hlist l' hl'] at hne
    rcases h.direction with hle | ⟨hle, hsteady⟩
    · exact (hdone.boost (hle l ht)).2 hne
    have hblocked : (s.piBlockedOn o).isSome = true := by
      rw [← hdone.kept.piBlockedOn, hl']
      rfl
    exact (hdone.deboost (hle l ht)).2 (hsteady 0 o (hclimb 0) hblocked) hne
  · rcases h.direction with hle | ⟨hle, hsteady⟩
    · refine .inl fun l' hl' => ?_
      rw [hlist l' hl']
      exact (hdone.boost (hle l ht)).1
    · refine .inr ⟨fun l' hl' => ?_, fun n o' ho' hblocked => ?_⟩
      · rw [hlist l' hl']
        exact (hdone.deboost (hle l ht)).1
      · rw [hdone.kept.climb] at ho'
        rw [hdone.kept.piBlockedOn] at hblocked
        have hne : o' ≠ o := fun heq => climb_ne_self (h.exact.linked.ends o) n (heq ▸ ho')
        exact hdone.steady o' hne (hsteady (n + 1) o' (by rw [hclimb, ho']) hblocked)

variable [DecidableEq ℓ]

theorem chain_spec {deadlockDetect : Bool} {origLock : Option ℓ} {origWaiter : Option τ}
    {topTask : τ} (left : Nat) (task : τ) (w : Option τ) (s : State τ ℓ) (h : Walk s task w)
    (hend : climb s left task = none)
    (hwaiter : ∀ u, origWaiter = some u → (s.piBlockedOn u).isSome = true) (hclear : ∀ n u l, climb
      s n task = some u → s.piBlockedOn u = some l → origLock ≠ some l ∧ s.owner l ≠ some topTask) :
    ∃ s', rtMutexAdjustPrioChain deadlockDetect origLock origWaiter topTask left task w s =
        some (s', false) ∧ Exact s' none ∧ Kept s s' := by
  induction left generalizing task w s with
  | zero => cases hend
  | succ left ih =>
    cases hblocked : s.piBlockedOn task with
    | none =>
      refine ⟨s, by simp only [rtMutexAdjustPrioChain, hblocked],
        h.exact.none_of fun l hl => ?_, .refl s⟩
      rw [hblocked] at hl
      cases hl
    | some l =>
      have horig : (origWaiter.any fun u => (s.piBlockedOn u).isNone) = false := by
        cases origWaiter with
        | none => rfl
        | some u => simpa using hwaiter u rfl
      -- a stop is a place where nothing is left to do
      have hstop (heq : s.listPrio task = s.prio task) : Exact s none :=
        h.exact.none_of fun _ _ => heq
      obtain ⟨hlock, htop⟩ := hclear 0 task l rfl hblocked
      obtain ⟨o, ho⟩ := h.exact.linked.owned task l hblocked
      have hclimb (n) : climb s (n + 1) task = climb s n o := by simp [climb, above, hblocked, ho]
      simp only [rtMutexAdjustPrioChain, hblocked, horig, Bool.false_eq_true, if_false]
      split
      · rename_i hmiss
        refine ⟨s, rfl, hstop ?_, .refl s⟩
        by_contra hne
        cases w with
        | none => cases hmiss
        | some top =>
          have hhead := h.first top l rfl hblocked (Ne.symm hne)
          simp [hhead] at hmiss
      split
      · rename_i heq
        exact ⟨s, rfl, hstop heq.2, .refl s⟩
      rw [if_neg (by rintro (heq | heq); exacts [hlock heq, htop heq])]
      obtain ⟨old, top, hold, hnew, hsame⟩ := h.exact.linked.requeue_head hblocked
      have hwait := h.exact.linked.requeue_wait hblocked
      rw [topWaiter_of_head h.exact.linked.wait hold, topWaiter_of_head hwait hnew,
        show (requeue s l task).owner l = some o from ho]
      dsimp only
      -- the rest of the walk, from the state that the round leaves
      have hrest {s2 : State τ ℓ} (hdone : RoundDone s s2 task o top) : ∃ s',
            rtMutexAdjustPrioChain deadlockDetect origLock origWaiter topTask left o (some top) s2 =
              some (s', false) ∧ Exact s' none ∧ Kept s s' := by
        obtain ⟨s', heq, hexact, hkept⟩ := ih o (some top) s2 (h.next hblocked ho hdone)
          (by rw [hdone.kept.climb, ← hclimb, hend])
          (by rw [hdone.kept.piBlockedOn]; exact hwaiter)
          (fun n u l' hu hl' => by
            rw [hdone.kept.climb, ← hclimb] at hu
            rw [hdone.kept.piBlockedOn] at hl'
            rw [hdone.kept.owner]
            exact hclear (n + 1) u l' hu hl')
        exact ⟨s', heq, hexact, hdone.kept.trans hkept⟩
      have hreplaced := round_replaced h.exact hblocked ho hold hnew
      split
      · exact hrest hreplaced
      rename_i htn
      split
      · rename_i hot
        rw [hot] at hreplaced
        exact hrest hreplaced
      rename_i hne
      obtain rfl := hsame htn hne
      have hneutral := round_neutral h.exact hblocked ho hold hnew hne
      split
      · exact hrest hneutral
      refine ⟨_, rfl, hneutral.exact.none_of fun l' hl' => ?_, hneutral.kept⟩
      rw [hneutral.listPrio]
      have hot : o ≠ task := fun heq => h.exact.linked.owner_ne hblocked (heq ▸ ho)
      exact h.exact.list o l' hl' fun heq => hot (some.inj heq).symm

end

end LinuxKernel.Kernel.RtMutex
