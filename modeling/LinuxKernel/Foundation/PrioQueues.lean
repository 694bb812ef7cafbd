/-
  Families of queues that are sorted by a key.

  Every element is on at most one of the queues: `place` says on which.  A queue is
  sorted by the keys of its elements; an element is put behind those of the same key.
-/
import LinuxKernel.Foundation.Queues

namespace LinuxKernel.Foundation

open Function List Queues

variable {ι α : Type} {place : α → Option ι} {key : α → Int} {q : ι → List α} {l : List α} {i : ι}

/-- Put an element into a queue, behind those whose key is not greater. -/
def enqueue (key : α → Int) (a : α) (l : List α) : List α :=
  l.orderedInsert (fun x y => key x < key y) a

section

variable {a b : α}

theorem enqueue_perm (key : α → Int) (a : α) (l : List α) : (enqueue key a l).Perm (a :: l) :=
  perm_orderedInsert _ a l

theorem mem_enqueue : b ∈ enqueue key a l ↔ b = a ∨ b ∈ l := mem_orderedInsert _

theorem enqueue_sorted (h : l.Pairwise (fun x y => key x ≤ key y)) :
    (enqueue key a l).Pairwise (fun x y => key x ≤ key y) := by
  induction l with
  | nil => simp [enqueue]
  | cons b l ih =>
    have hb := (pairwise_cons.mp h).1
    unfold enqueue
    rw [orderedInsert_cons]
    split
    · rename_i hlt
      have hle := Int.le_of_lt hlt
      refine pairwise_cons.mpr ⟨forall_mem_cons.mpr ⟨hle, fun c hc => ?_⟩, h⟩
      exact Int.le_trans hle (hb c hc)
    · rename_i hge
      refine pairwise_cons.mpr ⟨fun c hc => ?_, ih (pairwise_cons.mp h).2⟩
      rcases mem_enqueue.mp hc with rfl | hc
      · exact Int.not_lt.mp hge
      · exact hb c hc

/-- The front of a queue after an element was put into it. -/
theorem head?_enqueue (key : α → Int) (a : α) (l : List α) : (enqueue key a l).head? = some a ∨
    ∃ b, l.head? = some b ∧ (enqueue key a l).head? = some b ∧ key b ≤ key a := by
  cases l with
  | nil => exact .inl rfl
  | cons b l =>
    unfold enqueue
    rw [orderedInsert_cons]
    split
    · exact .inl rfl
    · rename_i hge
      exact .inr ⟨b, rfl, rfl, Int.not_lt.mp hge⟩

theorem head?_erase [DecidableEq α] (h : l.head? ≠ some a) : (l.erase a).head? = l.head? := by
  cases l with
  | nil => rfl
  | cons b l =>
    have hne : b ≠ a := fun heq => h (by rw [heq]; rfl)
    rw [erase_cons_tail (by simpa using hne)]
    rfl

end

/-- The queues hold the elements in their places, sorted. -/
structure Filed (key : α → Int) (place : α → Option ι) (q : ι → List α) : Prop where
  mem : ∀ a i, a ∈ q i ↔ place a = some i
  nodup : ∀ i, (q i).Nodup
  sorted : ∀ i, (q i).Pairwise fun x y => key x ≤ key y

namespace Filed

variable {a b : α}

section

variable (h : Filed key place q)
include h

theorem separate : Separate q :=
  ⟨h.nodup, fun hi hj => Option.some.inj (((h.mem _ _).mp hi).symm.trans ((h.mem _ _).mp hj))⟩

theorem place_of_head (hhead : (q i).head? = some a) : place a = some i :=
  (h.mem a i).mp (mem_of_mem_head? hhead)

/-- The front of a queue has the least key. -/
theorem head_le (hhead : (q i).head? = some a) (hb : place b = some i) : key a ≤ key b := by
  have hmem := (h.mem b i).mpr hb
  have hsorted := h.sorted i
  cases hq : q i with
  | nil =>
    rw [hq] at hhead
    cases hhead
  | cons c l =>
    rw [hq] at hhead hmem hsorted
    obtain rfl : c = a := Option.some.inj hhead
    rcases mem_cons.mp hmem with rfl | hmem
    · exact Int.le_refl _
    · exact (pairwise_cons.mp hsorted).1 b hmem

theorem head_isSome (ha : place a = some i) : ∃ b, (q i).head? = some b := by
  have hmem := (h.mem a i).mpr ha
  cases hq : q i with
  | nil =>
    rw [hq] at hmem
    cases hmem
  | cons b l => exact ⟨b, rfl⟩

variable [DecidableEq α]

/-- Changing the key of an element that is on no queue. -/
theorem rekey (ha : place a = none) (p : Int) : Filed (update key a p) place q where
  mem := h.mem
  nodup := h.nodup
  sorted i := by
    refine (h.sorted i).imp_of_mem fun {x y} hx hy hle => ?_
    have hne : ∀ {z}, z ∈ q i → z ≠ a := by
      rintro z hz rfl
      rw [(h.mem z i).mp hz] at ha
      cases ha
    rwa [update_of_ne (hne hx), update_of_ne (hne hy)]

theorem del (a : α) : Filed key (update place a none) (unlink q a) where
  mem b i := by
    rw [mem_unlink h.separate, h.mem]
    by_cases hb : b = a
    · subst hb
      simp
    · rw [update_of_ne hb]
      exact ⟨fun hi => hi.2, fun hi => ⟨hb, hi⟩⟩
  nodup i := (h.nodup i).erase a
  sorted i := (h.sorted i).sublist erase_sublist

theorem add [DecidableEq ι] (ha : place a = none) (i : ι) : Filed key (update place a (some i))
      (update q i (enqueue key a (q i))) where
  mem b j := by
    by_cases hb : b = a
    · subst hb
      rw [update_self]
      by_cases hj : j = i
      · subst hj
        rw [update_self, mem_enqueue]
        simp
      · rw [update_of_ne hj, h.mem, ha]
        simp [Ne.symm hj]
    · rw [update_of_ne hb, ← h.mem]
      by_cases hj : j = i
      · subst hj
        rw [update_self, mem_enqueue]
        simp [hb]
      · rw [update_of_ne hj]
  nodup := by
    refine (forall_update_iff q fun _ l => l.Nodup).mpr ⟨?_, fun j _ => h.nodup j⟩
    refine (enqueue_perm key a (q i)).nodup_iff.mpr (nodup_cons.mpr ⟨fun hmem => ?_, h.nodup i⟩)
    rw [(h.mem a i).mp hmem] at ha
    cases ha
  sorted := (forall_update_iff q fun _ l => l.Pairwise fun x y => key x ≤ key y).mpr
    ⟨enqueue_sorted (h.sorted i), fun j _ => h.sorted j⟩

end

end Filed

/-! ## The least key -/

/-- The least of a number and the key at the front of a queue. -/
def leastKey (key : α → Int) (bound : Int) (l : List α) : Int :=
  match l.head? with
  | none => bound
  | some a => min (key a) bound

section

variable {a b : α} {bound : Int}

theorem leastKey_le_bound (key : α → Int) (bound : Int) (l : List α) : leastKey key bound l ≤ bound := by
  unfold leastKey
  split
  · exact Int.le_refl _
  · exact Int.min_le_right _ _

theorem leastKey_of_head (h : l.head? = some a) : leastKey key bound l = min (key a) bound := by
  unfold leastKey
  rw [h]

theorem leastKey_eq (key : α → Int) (bound : Int) (l : List α) : leastKey key bound l = bound ∨
    ∃ a, l.head? = some a ∧ leastKey key bound l = key a := by
  unfold leastKey
  split
  · exact .inl rfl
  rename_i a h
  rcases Int.le_total (key a) bound with hle | hle
  · exact .inr ⟨a, h, Int.min_eq_left hle⟩
  · exact .inl (Int.min_eq_right hle)

theorem Filed.leastKey_le (h : Filed key place q) (bound : Int) (ha : place a = some i) :
    leastKey key bound (q i) ≤ key a := by
  obtain ⟨b, hb⟩ := h.head_isSome ha
  have := h.head_le hb ha
  rw [leastKey_of_head hb]
  omega

theorem leastKey_enqueue (key : α → Int) (bound : Int) (a : α) (l : List α) :
    leastKey key bound (enqueue key a l) = min (key a) (leastKey key bound l) := by
  cases l with
  | nil => rfl
  | cons b l =>
    unfold enqueue
    rw [orderedInsert_cons]
    split
    · simp only [leastKey, head?_cons]
      omega
    · simp only [leastKey, head?_cons]
      omega

/-- Lower bounds of the keys are lower bounds of the least. -/
theorem Filed.le_leastKey (h : Filed key place q) {p : Int} (hbound : p ≤ bound)
    (hall : ∀ a, place a = some i → p ≤ key a) : p ≤ leastKey key bound (q i) := by
  rcases leastKey_eq key bound (q i) with heq | ⟨a, ha, heq⟩
  · omega
  · rw [heq]
    exact hall a (h.place_of_head ha)

theorem Filed.leastKey_le_del [DecidableEq α] (h : Filed key place q) (bound : Int) (a : α) (i : ι) :
    leastKey key bound (q i) ≤ leastKey key bound (unlink q a i) := by
  refine (h.del a).le_leastKey (leastKey_le_bound _ _ _) fun b hb => h.leastKey_le bound ?_
  by_cases hba : b = a
  · subst hba
    simp at hb
  · rwa [update_of_ne hba] at hb

end

/-! ## Replacing an element -/

section

variable [DecidableEq α] [DecidableEq ι] {old new : α} {bound p : Int}

/-- Unlink `old`, and put `new` on queue `i` with the key `p`. -/
def Queues.replace (key : α → Int) (q : ι → List α) (i : ι) (old new : α) (p : Int) : ι → List α :=
  Function.update (Queues.unlink q old) i
    (enqueue (Function.update key new p) new (Queues.unlink q old i))

omit [DecidableEq ι] in
/-- What is on the queue afterwards, apart from `new`, is what was there apart from `old`. -/
theorem place_replace_iff {a : α} (hnew : new = old ∨ place new = none) :
    (a ≠ new ∧ update (update place old none) new (some i) a = some i) ↔
      a ≠ old ∧ place a = some i := by
  constructor
  · rintro ⟨han, ha⟩
    rw [update_of_ne han] at ha
    have hao : a ≠ old := by
      rintro rfl
      simp at ha
    rw [update_of_ne hao] at ha
    exact ⟨hao, ha⟩
  · rintro ⟨hao, ha⟩
    have han : a ≠ new := by
      rintro rfl
      rcases hnew with heq | hnone
      · exact hao heq
      · rw [hnone] at ha
        cases ha
    exact ⟨han, by rw [update_of_ne han, update_of_ne hao, ha]⟩

section

variable (h : Filed key place q)
include h

theorem Filed.replace (hnew : new = old ∨ place new = none) (i : ι)
    (p : Int) : Filed (update key new p)
      (update (update place old none) new (some i))
      (Queues.replace key q i old new p) := by
  have hnone : update place old none new = none := by
    by_cases heq : new = old
    · subst heq
      simp
    · rw [update_of_ne heq]
      exact hnew.resolve_left heq
  exact ((h.del old).rekey hnone p).add hnone i

/-- The other queues stay as they are. -/
theorem Filed.replace_of_ne (hold : place old = none ∨ place old = some i)
    {j : ι} (hj : j ≠ i) : Queues.replace key q i old new p j = q j := by
  unfold Queues.replace
  rw [update_of_ne hj]
  refine erase_of_not_mem fun hmem => ?_
  have hplace := (h.mem old j).mp hmem
  rcases hold with hold | hold
  · rw [hold] at hplace
    cases hplace
  · exact hj (Option.some.inj (hplace.symm.trans hold))

/-- A smaller key: the least key can only have become that of the new element. -/
theorem Filed.replace_boost (bound : Int) (hnew : new = old ∨ place new = none)
    (hold : place old = none ∨ place old = some i ∧ p ≤ key old) :
    leastKey (update key new p) bound (Queues.replace key q i old new p i) ≤
        leastKey key bound (q i) ∧
      (leastKey (update key new p) bound (Queues.replace key q i old new p i) ≠
          leastKey key bound (q i) →
        (Queues.replace key q i old new p i).head? = some new) := by
  have h' := h.replace hnew i p
  have hself : update (update place old none) new (some i) new = some i := by simp
  have hnewle := h'.leastKey_le bound hself
  rw [update_self] at hnewle
  have hle : leastKey (update key new p) bound (Queues.replace key q i old new p i) ≤
      leastKey key bound (q i) := by
    refine h.le_leastKey (leastKey_le_bound _ _ _) fun a ha => ?_
    by_cases hao : a = old
    · subst hao
      rcases hold with hold | ⟨-, hold⟩
      · rw [hold] at ha
        cases ha
      · omega
    · obtain ⟨han, hplace⟩ := (place_replace_iff hnew).mpr ⟨hao, ha⟩
      have := h'.leastKey_le bound hplace
      rwa [update_of_ne han] at this
  refine ⟨hle, fun hne => ?_⟩
  obtain ⟨b, hb⟩ := h'.head_isSome hself
  rw [hb]
  refine congrArg some ?_
  by_contra hbn
  -- an element that was there before is in front: the least key is what it was
  have hplace := (place_replace_iff hnew).mp ⟨hbn, h'.place_of_head hb⟩
  have hb' := h.leastKey_le bound hplace.2
  have hbound := leastKey_le_bound key bound (q i)
  rw [leastKey_of_head hb, update_of_ne hbn] at hne hle
  omega

/-- A greater key: the least key does not get smaller, and it is unchanged if it does not
rest on the front of the queue alone. -/
theorem Filed.replace_deboost (bound : Int) (hnew : new = old ∨ place new = none)
    (hold : place old = some i) (hp : key old ≤ p) : leastKey key bound (q i) ≤
        leastKey (update key new p) bound (Queues.replace key q i old new p i) ∧
      ((∀ x y r, q i = x :: y :: r → leastKey key bound (q i) = min (key y) bound) →
        leastKey (update key new p) bound (Queues.replace key q i old new p i) ≠
          leastKey key bound (q i) →
        (Queues.replace key q i old new p i).head? = some new) := by
  have h' := h.replace hnew i p
  have hself : update (update place old none) new (some i) new = some i := by simp
  have hold' := h.leastKey_le bound hold
  have hbound := leastKey_le_bound key bound (q i)
  refine ⟨h'.le_leastKey hbound fun a ha => ?_, fun hsteady hne => ?_⟩
  · by_cases han : a = new
    · subst han
      rw [update_self]
      omega
    · rw [update_of_ne han]
      exact h.leastKey_le bound ((place_replace_iff hnew).mp ⟨han, ha⟩).2
  · obtain ⟨b, hb⟩ := h'.head_isSome hself
    rw [hb]
    refine congrArg some ?_
    by_contra hbn
    obtain ⟨hbo, hbi⟩ := (place_replace_iff hnew).mp ⟨hbn, h'.place_of_head hb⟩
    -- `b` is in front of what stays
    have hfirst (a) (ha : place a = some i) (hao : a ≠ old) : key b ≤ key a := by
      obtain ⟨han, hplace⟩ := (place_replace_iff hnew).mpr ⟨hao, ha⟩
      have hle := h'.head_le hb hplace
      rwa [update_of_ne hbn, update_of_ne han] at hle
    rw [leastKey_of_head hb, update_of_ne hbn] at hne
    have hble := h.leastKey_le bound hbi
    cases hq : q i with
    | nil =>
      have := (h.mem b i).mpr hbi
      rw [hq] at this
      cases this
    | cons x r =>
      have hx : (q i).head? = some x := by rw [hq]; rfl
      have hxi := h.place_of_head hx
      have hleast : leastKey key bound (q i) = min (key x) bound := leastKey_of_head hx
      by_cases hxo : x = old
      · cases r with
        | nil =>
          have := (h.mem b i).mpr hbi
          rw [hq, hxo] at this
          exact hbo (mem_singleton.mp this)
        | cons y r =>
          have hyi : place y = some i := (h.mem y i).mp (by rw [hq]; simp)
          have hyo : y ≠ old := by
            rintro rfl
            have hnodup := h.nodup i
            rw [hq, hxo] at hnodup
            exact (nodup_cons.mp hnodup).1 mem_cons_self
          have hy := hfirst y hyi hyo
          have hmin := hsteady x y r hq
          omega
      · have hxb := hfirst x hxi hxo
        omega

end

end

end LinuxKernel.Foundation
