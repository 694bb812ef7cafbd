/-
  The end of `__posix_lock_file`.

  Behind the main loop the new lock is inserted if no old one has become it, and the
  locks that reach into its range from the left and from the right are cut.  What
  comes out is a list in which the bytes of the request have the requested type and
  all others what they had.
-/
import LinuxKernel.Fs.LocksScan

namespace LinuxKernel.Fs.Locks

open Foundation Function List

section

variable {α ω : Type} {c : Ctx α ω} {sc : Scan α ω} {passed rest mid : List α}
  {added : Bool} {left : Option α} {s' : State α ω} {cur : FileLock ω} {f g : α → FileLock ω}

/-- The request is done: its bytes have the requested type, all others what they had. -/
structure Finished (c : Ctx α ω) (s' : State α ω) (mine' : List α) : Prop where
  flock : s'.flock = c.before ++ mine' ++ c.behind
  nodup : s'.flock.Nodup
  frame : ∀ a ∈ c.before ++ c.behind, s'.lock a = c.lock₀ a
  sep : Separated (mine'.map s'.lock)
  valid : ∀ a ∈ mine', Valid c.r.owner (s'.lock a)
  held : ∀ x ty, Held (mine'.map s'.lock) x ty ↔
    if c.r.start ≤ x ∧ x ≤ c.r.stop then ty = c.r.type ∧ c.r.type ≠ .UNLCK
    else Held (c.mine.map c.lock₀) x ty

/-- The list is as it was. -/
structure Unchanged (c : Ctx α ω) (s' : State α ω) : Prop where
  flock : s'.flock = c.before ++ c.mine ++ c.behind
  lock : ∀ a ∈ s'.flock, s'.lock a = c.lock₀ a

/-- From the current range of the request back to the request itself. -/
theorem held_request (hc : c.Ok) {vs : List (FileLock ω)} (hle : cur.start ≤ c.r.start)
    (hle' : c.r.stop ≤ cur.stop)
    (hgained : ∀ x, cur.start ≤ x → x ≤ cur.stop → ¬ (c.r.start ≤ x ∧ x ≤ c.r.stop) →
      Held (c.mine.map c.lock₀) x c.r.type)
    (hin : ∀ x ty, cur.start ≤ x → x ≤ cur.stop → (Held vs x ty ↔ ty = c.r.type ∧ c.r.type ≠ .UNLCK))
    (hout : ∀ x ty, ¬ (cur.start ≤ x ∧ x ≤ cur.stop) → (Held vs x ty ↔
      Held (c.mine.map c.lock₀) x ty))
    (x : Int) (ty : LockType) :
    Held vs x ty ↔ if c.r.start ≤ x ∧ x ≤ c.r.stop then ty = c.r.type ∧ c.r.type ≠ .UNLCK
      else Held (c.mine.map c.lock₀) x ty := by
  by_cases hreq : c.r.start ≤ x ∧ x ≤ c.r.stop
  · rw [if_pos hreq]
    exact hin x ty (by omega) (by omega)
  rw [if_neg hreq]
  by_cases hcur : cur.start ≤ x ∧ x ≤ cur.stop
  · -- gained bytes had the type of the request before
    have hold := hgained x hcur.1 hcur.2 hreq
    have hu : c.r.type ≠ .UNLCK := by
      refine hold.elim fun v hv _ _ hty => ?_
      obtain ⟨a, ha, rfl⟩ := mem_map.mp hv
      rw [← hty]
      exact (hc.valid a ha).type
    rw [hin x ty hcur.1 hcur.2]
    constructor
    · rintro ⟨rfl, -⟩
      exact hold
    · intro h
      exact ⟨hc.sep.held_unique h hold, hu⟩
  · exact hout x ty hcur

/-- The three parts of the new list: what ends in front of the request, the request,
and what starts behind it. -/
theorem finished_of_parts (hc : c.Ok) (hinv : ScanInv c sc.lock passed sc.request added left rest)
    (hcur : sc.lock sc.request = cur) {A B : List α}
    (hflock : s'.flock = c.before ++ (A ++ mid ++ B) ++ c.behind) (hnodup : s'.flock.Nodup)
    (hframe : ∀ a ∈ c.before ++ c.behind, s'.lock a = c.lock₀ a)
    (hmid : c.r.type = .UNLCK ∧ mid = [] ∨
      c.r.type ≠ .UNLCK ∧ ∃ m, mid = [m] ∧ s'.lock m = cur)
    (hsepA : Separated (A.map s'.lock)) (hsepB : Separated (B.map s'.lock))
    (hA : ∀ a ∈ A, Valid c.r.owner (s'.lock a) ∧ (s'.lock a).stop < cur.start ∧
      ((s'.lock a).type = c.r.type → (s'.lock a).stop + 1 < cur.start))
    (hB : ∀ a ∈ B, Valid c.r.owner (s'.lock a) ∧ cur.stop < (s'.lock a).start ∧
      ((s'.lock a).type = c.r.type → cur.stop + 1 < (s'.lock a).start))
    (hout : ∀ x ty, ¬ (cur.start ≤ x ∧ x ≤ cur.stop) →
      (Held (A.map s'.lock) x ty ∨ Held (B.map s'.lock) x ty ↔
        Held ((passed ++ rest).map c.lock₀) x ty)) : Finished c s' (A ++ mid ++ B) := by
  have hs1 : cur.start ≤ c.r.start := hcur ▸ hinv.start_le
  have hs2 : c.r.stop ≤ cur.stop := hcur ▸ hinv.le_stop
  have hle : cur.start ≤ cur.stop := by
    have := hc.le
    omega
  have hcurvalid (hu : c.r.type ≠ .UNLCK) : Valid c.r.owner cur :=
    ⟨hcur ▸ hinv.owner, by rw [← hcur, hinv.type]; exact hu, hcur ▸ hinv.start_nonneg, hle,
      hcur ▸ hinv.stop_le⟩
  have hnotA : ∀ x ty, cur.start ≤ x → ¬ Held (A.map s'.lock) x ty := fun _ _ hx =>
    not_held_of_gt fun a ha => Int.lt_of_lt_of_le (hA a ha).2.1 hx
  have hnotB : ∀ x ty, x ≤ cur.stop → ¬ Held (B.map s'.lock) x ty := fun _ _ hx =>
    not_held_of_lt fun a ha => Int.lt_of_le_of_lt hx (hB a ha).2.1
  have hmidheld (x ty) : Held (mid.map s'.lock) x ty ↔
        (cur.start ≤ x ∧ x ≤ cur.stop) ∧ ty = c.r.type ∧ c.r.type ≠ .UNLCK := by
    rcases hmid with ⟨hu, rfl⟩ | ⟨hu, m, rfl, hm⟩
    · simp [hu]
    rw [map_singleton, hm, held_cons, ← hcur, hinv.type]
    simp only [held_nil, or_false, and_assoc]
    constructor
    · rintro ⟨h1, h2, h3⟩
      exact ⟨h1, h2, h3.symm, hu⟩
    · rintro ⟨h1, h2, h3, -⟩
      exact ⟨h1, h2, h3.symm⟩
  refine ⟨hflock, hnodup, hframe, ?_, ?_, ?_⟩
  · rw [map_append, map_append, separated_append, separated_append]
    have hAB : ∀ v ∈ A.map s'.lock, ∀ w ∈ B.map s'.lock, Before v w := by
      refine forall_mem_map.mpr fun a ha => forall_mem_map.mpr fun b hb => ?_
      have h1 := (hA a ha).2.1
      have h2 := (hB b hb).2.1
      exact ⟨by omega, fun _ => by omega⟩
    rcases hmid with ⟨-, rfl⟩ | ⟨hu, m, rfl, hm⟩
    · simp only [map_nil, append_nil]
      exact ⟨⟨hsepA, List.Pairwise.nil, by simp⟩, hsepB, hAB⟩
    rw [map_singleton, hm]
    have hty : cur.type = c.r.type := hcur ▸ hinv.type
    refine ⟨⟨hsepA, pairwise_singleton _ _, ?_⟩, hsepB, ?_⟩
    · refine forall_mem_map.mpr fun a ha => forall_mem_singleton.mpr ?_
      obtain ⟨-, h1, h2⟩ := hA a ha
      exact ⟨h1, fun heq => h2 (heq.trans hty)⟩
    · refine forall_mem_append.mpr
        ⟨hAB, forall_mem_singleton.mpr (forall_mem_map.mpr fun b hb => ?_)⟩
      obtain ⟨-, h1, h2⟩ := hB b hb
      exact ⟨h1, fun heq => h2 (heq.symm.trans hty)⟩
  · intro a ha
    rw [mem_append, mem_append] at ha
    rcases ha with (ha | ha) | ha
    · exact (hA a ha).1
    · rcases hmid with ⟨-, rfl⟩ | ⟨hu, m, rfl, hm⟩
      · simp at ha
      · obtain rfl : a = m := by simpa using ha
        rw [hm]
        exact hcurvalid hu
    · exact (hB a ha).1
  · intro x ty
    refine held_request hc hs1 hs2 (hcur ▸ hinv.gained) ?_ ?_ x ty
    · intro x ty h1 h2
      rw [map_append, map_append, held_append, held_append, hmidheld]
      tauto
    · intro x ty hx
      rw [map_append, map_append, held_append, held_append, hmidheld,
        hinv.same x ty (hcur ▸ hx), ← hout x ty hx]
      tauto

/-! ## Cutting the neighbours -/

theorem Separated.map_of_le {l : List α} (hsep : Separated (l.map f))
    (hle : ∀ a ∈ l, (g a).type = (f a).type ∧ (g a).stop ≤ (f a).stop ∧ (f a).start ≤ (g a).start) :
    Separated (l.map g) := by
  induction l with
  | nil => exact List.Pairwise.nil
  | cons a l ih =>
    obtain ⟨hfirst, hrest⟩ := pairwise_cons.mp hsep
    refine pairwise_cons.mpr ⟨forall_mem_map.mpr fun b hb => ?_,
      ih hrest fun b hb => hle b (mem_cons_of_mem a hb)⟩
    obtain ⟨h1, h2⟩ := hfirst (f b) (mem_map_of_mem hb)
    obtain ⟨ta, sa, -⟩ := hle a mem_cons_self
    obtain ⟨tb, -, sb⟩ := hle b (mem_cons_of_mem a hb)
    refine ⟨by omega, fun heq => ?_⟩
    rw [ta, tb] at heq
    have := h2 heq
    omega

/-- Locks of which each is cut, or stays as it is. -/
theorem Separated.map_of_cut {l : List α} {P : α → Prop}
    {kept : Int → Prop} (hsep : Separated (l.map f))
    (h : ∀ a ∈ l, ((g a).type = (f a).type ∧ (g a).stop ≤ (f a).stop ∧ (f a).start ≤ (g a).start) ∧
      P a ∧ ∀ x, kept x →
        ((g a).start ≤ x ∧ x ≤ (g a).stop ↔ (f a).start ≤ x ∧ x ≤ (f a).stop)) :
    Separated (l.map g) ∧ (∀ a ∈ l, P a) ∧
    ∀ x ty, kept x → (Held (l.map g) x ty ↔ Held (l.map f) x ty) := by
  refine ⟨hsep.map_of_le fun a ha => (h a ha).1, fun a ha => (h a ha).2.1, fun x ty hx => ?_⟩
  rw [held_map, held_map]
  refine exists_congr fun a => and_congr_right fun ha => ?_
  rw [← and_assoc, ← and_assoc, (h a ha).2.2 x hx, (h a ha).1.1]

variable [DecidableEq α]

/-- A lock whose end or start is moved to the request. -/
def cutLock (cur : FileLock ω) (left right : Option α) (a : α) (v : FileLock ω) : FileLock ω :=
  { v with
    start := if right = some a then cur.stop + 1 else v.start
    stop := if left = some a then cur.start - 1 else v.stop }

theorem trimNeighbours_eq (sc : Scan α ω) (newFl2 : Option α) (hne : sc.right ≠ none → sc.left ≠ sc.right)
    (hright : sc.right ≠ some sc.request) :
    (trimNeighbours sc newFl2).flock = sc.pre ++ sc.rest ∧
    ∀ a, (trimNeighbours sc newFl2).lock a =
      cutLock (sc.lock sc.request) sc.left sc.right a (sc.lock a) := by
  have htrim : ∀ (lock : α → FileLock ω) (a : α), lock sc.request = sc.lock sc.request →
      trimNeighbours.trimLeft sc lock a =
        { lock a with stop := if sc.left = some a then (sc.lock sc.request).start - 1 else (lock a).stop } := by
    intro lock a hreq
    unfold trimNeighbours.trimLeft
    cases hl : sc.left with
    | none => simp
    | some l =>
      by_cases hal : l = a
      · subst hal
        simp [hreq]
      · simp only [Option.some.injEq, hal, if_false]
        rw [update_of_ne (Ne.symm hal)]
  cases hr : sc.right with
  | none =>
    unfold trimNeighbours
    rw [hr]
    simp only
    refine ⟨trivial, fun a => ?_⟩
    rw [htrim sc.lock a rfl]
    simp [cutLock]
  | some r =>
    have hrr : r ≠ sc.request := fun heq => hright (by rw [hr, heq])
    have hlr : sc.left ≠ some r := by
      have := hne (by rw [hr]; simp)
      rwa [hr] at this
    have hboth : trimNeighbours sc newFl2 = trimNeighbours.trimBoth sc r := by
      unfold trimNeighbours
      rw [hr]
      cases newFl2 with
      | none => rfl
      | some n =>
        simp only
        rw [if_neg hlr]
    rw [hboth]
    unfold trimNeighbours.trimBoth
    refine ⟨rfl, fun a => ?_⟩
    simp only
    rw [htrim _ a (update_of_ne hrr.symm ..)]
    by_cases har : r = a
    · subst har
      simp [cutLock]
    · rw [update_of_ne (Ne.symm har)]
      simp [cutLock, har]

/-- A lock that is both the left and the right one becomes two. -/
theorem trimNeighbours_split (sc : Scan α ω) {new right : α} (hright : sc.right = some right)
    (hleft : sc.left = some right) (hrreq : right ≠ sc.request) (hnewreq : new ≠ sc.request)
    (hrnew : right ≠ new) : (trimNeighbours sc (some new)).flock = sc.pre ++ new :: sc.rest ∧
    ∀ a, (trimNeighbours sc (some new)).lock a =
      if a = new then { sc.lock right with stop := (sc.lock sc.request).start - 1 }
      else if a = right then { sc.lock right with start := (sc.lock sc.request).stop + 1 }
      else sc.lock a := by
  unfold trimNeighbours
  simp only [hright, hleft, if_true]
  refine ⟨by simp, fun a => ?_⟩
  simp only [update_of_ne hrnew, update_of_ne hrnew.symm, update_of_ne hrreq.symm,
    update_of_ne hnewreq.symm]
  by_cases hn : a = new
  · subst hn
    simp
  rw [update_of_ne hn, if_neg hn]
  by_cases hr : a = right
  · subst hr
    simp
  · rw [update_of_ne hr, update_of_ne hn, if_neg hr]

section

variable (s' : State α ω) (hc : c.Ok) (hinv : ScanInv c sc.lock passed sc.request added left rest)
include hc hinv

/-- The locks in front of the request, the left one cut. -/
theorem passed_cut (hcur : sc.lock sc.request = cur) (hlock : ∀ a ∈ passed, s'.lock a =
      { c.lock₀ a with stop := if left = some a then cur.start - 1 else (c.lock₀ a).stop }) :
    Separated (passed.map s'.lock) ∧
    (∀ a ∈ passed, Valid c.r.owner (s'.lock a) ∧ (s'.lock a).stop < cur.start ∧
      ((s'.lock a).type = c.r.type → (s'.lock a).stop + 1 < cur.start)) ∧
    ∀ x ty, ¬ (cur.start ≤ x ∧ x ≤ cur.stop) →
      (Held (passed.map s'.lock) x ty ↔ Held (passed.map c.lock₀) x ty) := by
  have hleft : ∀ a, left = some a → (c.lock₀ a).type ≠ c.r.type ∧ (c.lock₀ a).start < cur.start ∧
      cur.start ≤ (c.lock₀ a).stop ∧ (c.lock₀ a).stop ≤ cur.stop :=
    fun a ha => hcur ▸ (hinv.left_mem a ha).2
  have hvalid (a) (ha : a ∈ passed) : Valid c.r.owner (c.lock₀ a) :=
    hc.valid a (hinv.mem_mine (.inl ha))
  have hsep : Separated (passed.map c.lock₀) := by
    have := hinv.separated hc
    rw [map_append, separated_append] at this
    exact this.1
  refine hsep.map_of_cut fun a ha => ?_
  have hv := hvalid a ha
  rw [hlock a ha]
  by_cases hl : left = some a
  · obtain ⟨h1, h2, h3, h4⟩ := hleft a hl
    have := hv.stop
    simp only [hl, if_true]
    exact ⟨⟨trivial, by omega, Int.le_refl _⟩, ⟨⟨hv.owner, hv.type, hv.start, by simp only; omega,
      by simp only; omega⟩, by omega, fun heq => absurd heq h1⟩, fun x hx => by omega⟩
  · simp only [hl, if_false]
    obtain ⟨h1, h2⟩ := hinv.below a ha hl
    rw [hcur] at h1 h2
    exact ⟨⟨trivial, Int.le_refl _, Int.le_refl _⟩, ⟨hv, h1, h2⟩, fun _ _ => trivial⟩

/-- The locks behind the request, the right one cut. -/
theorem rest_cut (hstop : Stopped c cur added left rest sc) (hlock : ∀ a ∈ rest, s'.lock a =
      { c.lock₀ a with start := if sc.right = some a then cur.stop + 1 else (c.lock₀ a).start }) :
    Separated (rest.map s'.lock) ∧
    (∀ a ∈ rest, Valid c.r.owner (s'.lock a) ∧ cur.stop < (s'.lock a).start ∧
      ((s'.lock a).type = c.r.type → cur.stop + 1 < (s'.lock a).start)) ∧
    ∀ x ty, cur.stop < x →
      (Held (rest.map s'.lock) x ty ↔ Held (rest.map c.lock₀) x ty) := by
  have hvalid (a) (ha : a ∈ rest) : Valid c.r.owner (c.lock₀ a) :=
    hc.valid a (hinv.mem_mine (.inr ha))
  have hsep : Separated (rest.map c.lock₀) := by
    have := hinv.separated hc
    rw [map_append, separated_append] at this
    exact this.2.1
  have hright (a) (_ : a ∈ rest) (hr : sc.right = some a) : (c.lock₀ a).type ≠ c.r.type ∧
        (c.lock₀ a).start ≤ cur.stop ∧ cur.stop < (c.lock₀ a).stop := by
    cases hstop with
    | behind hnone => rw [hnone] at hr; cases hr
    | right _ hfl _ _ h1 h2 h3 =>
      rw [hfl] at hr
      obtain rfl := Option.some.inj hr
      exact ⟨h1, h2, h3⟩
  have hother (a) (ha : a ∈ rest) (hr : sc.right ≠ some a) : cur.stop < (c.lock₀ a).start ∧
        ((c.lock₀ a).type = c.r.type → cur.stop + 1 < (c.lock₀ a).start) := by
    cases hstop with
    | behind _ _ _ hall => exact hall a ha
    | right hrest hfl _ _ h1 h2 h3 =>
      subst hrest
      rcases mem_cons.mp ha with rfl | ha
      · exact absurd hfl hr
      · have := (hinv.rest_behind hc a ha).1
        exact ⟨by omega, fun _ => by omega⟩
  refine hsep.map_of_cut fun a ha => ?_
  have hv := hvalid a ha
  rw [hlock a ha]
  by_cases hr : sc.right = some a
  · obtain ⟨h1, h2, h3⟩ := hright a ha hr
    have := hv.start
    simp only [hr, if_true]
    exact ⟨⟨trivial, Int.le_refl _, by omega⟩, ⟨⟨hv.owner, hv.type, by simp only; omega,
      by simp only; omega, hv.stop⟩, by omega, fun heq => absurd heq h1⟩, fun x hx => by omega⟩
  · simp only [hr, if_false]
    exact ⟨⟨trivial, Int.le_refl _, Int.le_refl _⟩, ⟨hv, hother a ha hr⟩, fun _ _ => trivial⟩

end

/-! ## Both ends of the request -/

/-- The variables once the request is in the list, at `mid`. -/
structure Inserted (c : Ctx α ω) (sc sc₁ : Scan α ω) (passed mid rest : List α) : Prop where
  request : sc₁.request = sc.request
  left : sc₁.left = sc.left
  right : sc₁.right = sc.right
  current : sc₁.lock sc₁.request = sc.lock sc.request
  frame : ∀ a, a ∈ c.before ∨ a ∈ c.behind ∨ a ∈ passed ∨ a ∈ rest → sc₁.lock a = c.lock₀ a
  mid_eq : c.r.type = .UNLCK ∧ mid = [] ∨
    c.r.type ≠ .UNLCK ∧ ∃ m, mid = [m] ∧ sc₁.lock m = sc.lock sc.request
  flock : sc₁.pre ++ sc₁.rest = c.before ++ (passed ++ mid ++ rest) ++ c.behind
  nodup : (c.before ++ (passed ++ mid ++ rest) ++ c.behind).Nodup

variable {sc₁ : Scan α ω}

omit [DecidableEq α] in
theorem mem_parts {a : α} {P M R : List α} {before behind : List α} :
    a ∈ before ++ (P ++ M ++ R) ++ behind ↔
      a ∈ before ∨ a ∈ P ∨ a ∈ M ∨ a ∈ R ∨ a ∈ behind := by
  simp only [mem_append, or_assoc]

omit [DecidableEq α] in
/-- In a list without repetition the parts have nothing in common. -/
theorem parts_apart {P M R before behind : List α}
    (hnodup : (before ++ (P ++ M ++ R) ++ behind).Nodup) {a : α} :
    (a ∈ P → ¬ (a ∈ M ∨ a ∈ R ∨ a ∈ before ∨ a ∈ behind)) ∧
    (a ∈ R → ¬ (a ∈ M ∨ a ∈ before ∨ a ∈ behind)) := by
  simp only [nodup_append, mem_append] at hnodup
  grind

omit [DecidableEq α] in
/-- The left and the right lock, where they are. -/
theorem ScanDone.left_cases (hd : ScanDone c sc passed rest added left) :
    (sc.left = left ∨ sc.left = sc.right) ∧ (∀ a, left = some a → a ∈ passed) ∧
    (∀ a, sc.right = some a → a ∈ rest) := by
  refine ⟨?_, fun a ha => (hd.inv.left_mem a ha).1, ?_⟩
  · cases hd.stopped with
    | behind _ hleft => exact .inl hleft
    | right hrest hright hleft =>
      rw [hleft, hright]
      split
      · exact .inr rfl
      · exact .inl rfl
  · intro a ha
    cases hd.stopped with
    | behind hright => rw [hright] at ha; cases ha
    | right hrest hright =>
      rw [hright] at ha
      obtain rfl := Option.some.inj ha
      rw [hrest]
      exact mem_cons_self

omit [DecidableEq α] in
/-- Unless a lock is broken in two, those to come start in the request or behind it. -/
theorem ScanDone.start_le_rest (hd : ScanDone c sc passed rest added left) (hc : c.Ok)
    (hne : sc.right ≠ none → sc.left ≠ sc.right) (a) (ha : a ∈ rest) :
    (sc.lock sc.request).start ≤ (c.lock₀ a).start := by
  have hs1 := hd.inv.start_le
  have hs2 := hd.inv.le_stop
  have hr := hc.le
  cases hd.stopped with
  | behind _ _ _ hall =>
    have := (hall a ha).1
    omega
  | @right fl _ hrest hfl hl _ _ _ h3 =>
    subst hrest
    have hfirst : ¬ (c.lock₀ fl).start < (sc.lock sc.request).start := by
      intro hlt
      rw [if_pos hlt] at hl
      exact hne (by rw [hfl]; simp) (by rw [hl, hfl])
    rcases mem_cons.mp ha with rfl | ha
    · omega
    · have := (hd.inv.rest_behind hc a ha).1
      omega

omit [DecidableEq α] in
/-- A lock that is both the left and the right one starts in front of the request and
ends behind it. -/
theorem ScanDone.broken (hd : ScanDone c sc passed rest added left) {right : α}
    (hright : sc.right = some right) (hleft : sc.left = some right) (hout : right ∉ passed) :
    ∃ rest', rest = right :: rest' ∧
      (c.lock₀ right).type ≠ c.r.type ∧ (c.lock₀ right).start < (sc.lock sc.request).start ∧
      (c.lock₀ right).start ≤ (sc.lock sc.request).stop ∧
      (sc.lock sc.request).stop < (c.lock₀ right).stop := by
  cases hd.stopped with
  | behind hnone => rw [hnone] at hright; cases hright
  | @right fl rest' hrest hfl hl _ h1 h2 h3 =>
    rw [hfl] at hright
    obtain rfl := Option.some.inj hright
    refine ⟨rest', hrest, h1, ?_, h2, h3⟩
    by_contra hge
    rw [if_neg hge, hleft] at hl
    exact hout (hd.left_cases.2.1 _ hl.symm)

section

variable (hc : c.Ok) (hd : ScanDone c sc passed rest added left)
  (hi : Inserted c sc sc₁ passed mid rest)
include hc hd hi

theorem trim_finished (newFl2 : Option α) (hne : sc.right ≠ none → sc.left ≠ sc.right) :
    Finished c (trimNeighbours sc₁ newFl2) (passed ++ mid ++ rest) := by
  obtain ⟨hleft, hleftmem, hrightmem⟩ := hd.left_cases
  have hleft' : sc.left = left := by
    rcases hleft with hleft | hleft
    · exact hleft
    by_cases hr : sc.right = none
    · cases hd.stopped with
      | behind _ hl => exact hl
      | right _ hfl => rw [hr] at hfl; cases hfl
    · exact absurd hleft (hne hr)
  have happ : ∀ {a}, _ := fun {a} => parts_apart hi.nodup (a := a)
  have hrightreq : sc₁.right ≠ some sc₁.request := by
    rw [hi.right, hi.request]
    intro heq
    exact hd.inv.request_ne hc (.inr (.inr (.inr (hrightmem _ heq)))) rfl
  obtain ⟨hflock, hlock⟩ := trimNeighbours_eq sc₁ newFl2 (by rw [hi.left, hi.right]; exact hne) hrightreq
  rw [hi.left, hi.right, hleft', hi.current] at hlock
  have hnotright : ∀ a, (a ∈ c.before ∨ a ∈ c.behind ∨ a ∈ passed ∨ a ∈ mid) → sc.right ≠ some a := by
    intro a ha heq
    have hmem := hrightmem a heq
    have := @happ a
    tauto
  have hnotleft (a) (ha : a ∈ c.before ∨ a ∈ c.behind ∨ a ∈ rest ∨ a ∈ mid) : left ≠ some a := by
    intro heq
    have hmem := hleftmem a heq
    have := @happ a
    tauto
  have hpassed := passed_cut (trimNeighbours sc₁ newFl2) hc hd.inv rfl (fun a ha => by
    rw [hlock a, hi.frame a (.inr (.inr (.inl ha)))]
    simp [cutLock, hnotright a (.inr (.inr (.inl ha)))])
  have hrest := rest_cut (trimNeighbours sc₁ newFl2) hc hd.inv hd.stopped (fun a ha => by
    rw [hlock a, hi.frame a (.inr (.inr (.inr ha)))]
    simp [cutLock, hnotleft a (.inr (.inr (.inl ha)))])
  refine finished_of_parts hc hd.inv rfl (by rw [hflock, hi.flock]) (by rw [hflock, hi.flock]; exact hi.nodup)
    ?_ ?_ hpassed.1 hrest.1 hpassed.2.1 hrest.2.1 ?_
  · intro a ha
    have ha' : a ∈ c.before ∨ a ∈ c.behind := mem_append.mp ha
    rw [hlock a, hi.frame a (ha'.imp_right .inl)]
    simp [cutLock, hnotright a (ha'.imp_right .inl), hnotleft a (ha'.imp_right .inl)]
  · rcases hi.mid_eq with hu | ⟨hu, m, rfl, hm⟩
    · exact .inl hu
    · refine .inr ⟨hu, m, rfl, ?_⟩
      rw [hlock m, hm]
      simp [cutLock, hnotright m (by simp), hnotleft m (by simp)]
  · intro x ty hx
    rw [hpassed.2.2 x ty hx, map_append, held_append]
    by_cases hlo : (sc.lock sc.request).stop < x
    · rw [hrest.2.2 x ty hlo]
    -- in front of the request nothing of the rest is left, and nothing was there
    have hbefore : x < (sc.lock sc.request).start := by omega
    have hnone : ¬ Held (rest.map (trimNeighbours sc₁ newFl2).lock) x ty :=
      not_held_of_lt fun a ha => Int.lt_of_le_of_lt (Int.not_lt.mp hlo) (hrest.2.1 a ha).2.1
    have hnone' : ¬ Held (rest.map c.lock₀) x ty :=
      not_held_of_lt fun a ha => Int.lt_of_lt_of_le hbefore (hd.start_le_rest hc hne a ha)
    simp [hnone, hnone']

/-- The new lock breaks an old one in two pieces. -/
theorem split_finished {new right : α} (hright : sc.right = some right)
    (hleft : sc.left = some right) (hpre : sc₁.pre = c.before ++ passed)
    (hnew : new ∉ c.before ++ (passed ++ mid ++ rest) ++ c.behind) (hnewreq : new ≠ sc₁.request) :
    Finished c (trimNeighbours sc₁ (some new)) (passed ++ [new] ++ mid ++ rest) := by
  have happ : ∀ {a}, _ := fun {a} => parts_apart hi.nodup (a := a)
  have hrmem := hd.left_cases.2.2 right hright
  have hrreq : right ≠ sc₁.request := by
    rw [hi.request]
    exact hd.inv.request_ne hc (.inr (.inr (.inr hrmem)))
  have hrnew : right ≠ new := by
    rintro rfl
    exact hnew (mem_parts.mpr (.inr (.inr (.inr (.inl hrmem)))))
  have hnomem : ∀ a, a ∈ c.before ∨ a ∈ passed ∨ a ∈ mid ∨ a ∈ rest ∨ a ∈ c.behind → a ≠ new := by
    rintro a ha rfl
    exact hnew (mem_parts.mpr ha)
  obtain ⟨hflock0, hlock⟩ := trimNeighbours_split sc₁ (hi.right.trans hright)
    (hi.left.trans hleft) hrreq hnewreq hrnew
  rw [hi.current, hi.frame right (.inr (.inr (.inr hrmem)))] at hlock
  have hrestEq : sc₁.rest = mid ++ rest ++ c.behind := by
    have := hi.flock
    rw [hpre, append_assoc] at this
    have hrhs : c.before ++ (passed ++ mid ++ rest) ++ c.behind =
        c.before ++ (passed ++ (mid ++ rest ++ c.behind)) := by simp
    rw [hrhs, append_cancel_left_eq, append_cancel_left_eq] at this
    exact this
  have hflock : (trimNeighbours sc₁ (some new)).flock =
      c.before ++ (passed ++ [new] ++ mid ++ rest) ++ c.behind := by
    rw [hflock0, hpre, hrestEq]
    simp
  have hnodup : (c.before ++ (passed ++ [new] ++ mid ++ rest) ++ c.behind).Nodup := by
    have hmove : c.before ++ (passed ++ [new] ++ mid ++ rest) ++ c.behind =
        (c.before ++ passed) ++ new :: (mid ++ rest ++ c.behind) := by simp
    have hold : c.before ++ (passed ++ mid ++ rest) ++ c.behind =
        (c.before ++ passed) ++ (mid ++ rest ++ c.behind) := by simp
    rw [hmove, nodup_middle, nodup_cons, ← hold]
    exact ⟨hnew, hi.nodup⟩
  generalize trimNeighbours sc₁ (some new) = s' at *
  -- the old lock starts in front of the request, so nothing was done before
  obtain ⟨rest', rfl, htype, hstart, hle, hlt⟩ := hd.broken hright hleft
    fun hmem => happ.1 hmem (.inr (.inl hrmem))
  obtain ⟨rfl, rfl⟩ := hd.inv.not_added (Int.le_of_lt hstart)
  have hvalid := hc.valid right (hd.inv.mem_mine (.inr mem_cons_self))
  have hfront (a) (ha : a ∈ passed) : s'.lock a = c.lock₀ a := by
    have hne : a ≠ right := by
      rintro rfl
      exact happ.1 ha (.inr (.inl mem_cons_self))
    rw [hlock a, if_neg (hnomem a (.inr (.inl ha))), if_neg hne, hi.frame a (.inr (.inr (.inl ha)))]
  have hpassed := passed_cut s' hc hd.inv rfl (fun a ha => by
    rw [hfront a ha]
    simp)
  have hrest := rest_cut s' hc hd.inv hd.stopped (fun a ha => by
    rw [hlock a, if_neg (hnomem a (.inr (.inr (.inr (.inl ha))))), hright]
    by_cases har : a = right
    · subst har
      simp
    · rw [if_neg har, hi.frame a (.inr (.inr (.inr ha)))]
      simp [Ne.symm har])
  have hnewval : s'.lock new = { c.lock₀ right with stop := (sc.lock sc.request).start - 1 } := by
    rw [hlock new, if_pos rfl]
  have hnewvalid : Valid c.r.owner (s'.lock new) := by
    rw [hnewval]
    have := hd.inv.stop_le
    have hs1 := hd.inv.start_le
    have hs2 := hd.inv.le_stop
    have hr := hc.le
    exact ⟨hvalid.owner, hvalid.type, hvalid.start, by simp only; omega, by simp only; omega⟩
  refine finished_of_parts hc hd.inv rfl hflock (by rw [hflock]; exact hnodup) ?_ ?_ ?_
    hrest.1 ?_ hrest.2.1 ?_
  · intro a ha
    have ha' : a ∈ c.before ∨ a ∈ c.behind := mem_append.mp ha
    have hne : a ≠ right := by
      rintro rfl
      exact happ.2 mem_cons_self (.inr ha')
    rw [hlock a, if_neg (hnomem a (ha'.imp_right fun h => .inr (.inr (.inr h)))), if_neg hne,
      hi.frame a (ha'.imp_right .inl)]
  · rcases hi.mid_eq with hu | ⟨hu, m, rfl, hm⟩
    · exact .inl hu
    · refine .inr ⟨hu, m, rfl, ?_⟩
      have hne : m ≠ right := by
        rintro rfl
        exact happ.2 mem_cons_self (.inl (by simp))
      rw [hlock m, if_neg (hnomem m (by simp)), if_neg hne, hm]
  · rw [map_append, separated_append]
    refine ⟨hpassed.1, pairwise_singleton _ _, ?_⟩
    refine forall_mem_map.mpr fun a ha => forall_mem_singleton.mpr ?_
    rw [hnewval, hfront a ha]
    exact hd.inv.passed_before hc a ha
  · intro a ha
    rcases mem_append.mp ha with ha | ha
    · exact hpassed.2.1 a ha
    obtain rfl : a = new := by simpa using ha
    refine ⟨hnewvalid, ?_, ?_⟩
    · rw [hnewval]
      simp only
      omega
    · rw [hnewval]
      intro heq
      exact absurd heq htype
  · intro x ty hx
    rw [map_append, held_append, hpassed.2.2 x ty hx, map_singleton, hnewval, held_cons,
      map_append, held_append]
    by_cases hhi : (sc.lock sc.request).stop < x
    · rw [hrest.2.2 x ty hhi]
      have hs1 := hd.inv.start_le
      have hs2 := hd.inv.le_stop
      have hr := hc.le
      have hno : ¬ x ≤ (sc.lock sc.request).start - 1 := by omega
      simp [hno]
    have hnone : ¬ Held ((right :: rest').map s'.lock) x ty :=
      not_held_of_lt fun a ha => Int.lt_of_le_of_lt (Int.not_lt.mp hhi) (hrest.2.1 a ha).2.1
    have hnone' : ¬ Held (rest'.map c.lock₀) x ty := by
      refine not_held_of_lt fun a ha => ?_
      have := (hd.inv.rest_behind hc a ha).1
      omega
    have hold : Held ((right :: rest').map c.lock₀) x ty ↔
        (c.lock₀ right).start ≤ x ∧ x ≤ (c.lock₀ right).stop ∧ (c.lock₀ right).type = ty := by
      simp [hnone']
    have hiff : (c.lock₀ right).start ≤ x ∧ x ≤ (sc.lock sc.request).start - 1 ∧
        (c.lock₀ right).type = ty ↔
        (c.lock₀ right).start ≤ x ∧ x ≤ (c.lock₀ right).stop ∧ (c.lock₀ right).type = ty := by
      constructor <;>
      · rintro ⟨h1, h2, h3⟩
        exact ⟨h1, by omega, h3⟩
    rw [hiff, hold]
    simp only [held_nil, or_false, hnone]

end

end

end LinuxKernel.Fs.Locks
