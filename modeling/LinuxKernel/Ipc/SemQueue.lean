/-
  `try_atomic_semop` and `update_queue`.

  An attempt that does not succeed changes nothing, and one without a nonzero
  operation changes nothing either.  `update_queue` therefore ends with a queue of
  operations that would all block.
-/
import LinuxKernel.Ipc.Sem

namespace LinuxKernel.Ipc.Sem

open Foundation Function List Option

/-! ## One attempt -/

variable {result : Result} {sops ops : List Sembuf}

section

variable {T L : Type} [DecidableEq L] {array : SemArray L} {un : Option L}

def InRange (semval : Nat → Int) : Prop := ∀ i, 0 ≤ semval i ∧ semval i ≤ SEMVMX

theorem InRange.update {semval : Nat → Int} (h : InRange semval) {i : Nat} {val : Int}
    (hval : 0 ≤ val ∧ val ≤ SEMVMX) : InRange (update semval i val) :=
  (forall_update_iff semval fun _ v => 0 ≤ v ∧ v ≤ SEMVMX).mpr ⟨hval, fun j _ => h j⟩

/-- The undo structure is there if an operation needs it. -/
def HasUndo (array : SemArray L) (sops : List Sembuf) (un : Option L) : Prop :=
  ∀ sop ∈ sops, sop.undo = true → (un.bind array.undo).isSome = true

/-- The undo structures are those of before. -/
def SameUndos (array array' : SemArray L) : Prop :=
  ∀ l, (array'.undo l).isSome = (array.undo l).isSome

/-- What an attempt does. -/
structure Attempted (array array' : SemArray L) (result : Result) : Prop where
  nsems : array'.nsems = array.nsems
  unchanged : result ≠ .done → array' = array
  range : InRange array.semval → InRange array'.semval
  undos : SameUndos array array'

theorem undoSemvals_step (semval : Nat → Int) (sop : Sembuf) (ops : List Sembuf) :
    undoSemvals (update semval sop.semNum (semval sop.semNum + sop.semOp.toInt)) (sop :: ops) =
      undoSemvals semval ops := by
  have hback : update (update semval sop.semNum (semval sop.semNum + sop.semOp.toInt)) sop.semNum
      (semval sop.semNum + sop.semOp.toInt - sop.semOp.toInt) = semval := by
    rw [Int.add_sub_cancel, update_idem, update_eq_self]
  rw [undoSemvals, update_self, hback]

theorem commitUndo_sameUndos (array : SemArray L) (un : Option L) (ops : List Sembuf) :
    SameUndos array (commitUndo array un ops) := by
  intro l
  cases un with
  | none => rfl
  | some l' =>
    by_cases hl : l = l'
    · subst hl
      simp [commitUndo]
    · simp [commitUndo, update_of_ne hl]

/-- The loop of `try_atomic_semop`: `before` is the array at its start. -/
theorem tryFrom_spec {before : SemArray L} {array : SemArray L} (hundo : HasUndo before sops un)
    (hbefore : before = { array with semval := undoSemvals array.semval ops })
    (hrange : InRange before.semval → InRange array.semval) :
    ∃ array' result, tryFrom array un ops sops = some (array', result) ∧
      Attempted before array' result := by
  induction sops generalizing ops array with
  | nil =>
    refine ⟨_, _, rfl, ?_, by simp, ?_, ?_⟩
    · rw [hbefore]
      cases un <;> rfl
    · intro h
      have := hrange h
      cases un <;> exact this
    · have hsame := commitUndo_sameUndos array un ops
      intro l
      rw [hsame l, hbefore]
  | cons sop sops ih =>
    have hfailed : ∀ result, Attempted before { array with semval := undoSemvals array.semval ops }
        result := by
      intro result
      rw [← hbefore]
      exact ⟨rfl, fun _ => rfl, id, fun _ => rfl⟩
    -- the rest of the loop, when the operation is possible
    have hnext : 0 ≤ array.semval sop.semNum + sop.semOp.toInt →
        array.semval sop.semNum + sop.semOp.toInt ≤ SEMVMX →
        ∃ array' result, tryFrom { array with
            semval := update array.semval sop.semNum
              (array.semval sop.semNum + sop.semOp.toInt) } un (sop :: ops) sops =
          some (array', result) ∧ Attempted before array' result := by
      intro hpos hmax
      refine ih (fun x hx => hundo x (mem_cons_of_mem _ hx)) ?_ ?_
      · rw [hbefore, undoSemvals_step]
      · intro h
        exact (hrange h).update ⟨hpos, hmax⟩
    rw [tryFrom]
    simp only
    split
    · exact ⟨_, _, rfl, hfailed _⟩
    split
    · exact ⟨_, _, rfl, hfailed _⟩
    split
    · exact ⟨_, _, rfl, hfailed _⟩
    have hnext := hnext (by omega) (by omega)
    split
    · rename_i hsop
      have hsome := hundo sop mem_cons_self hsop
      rw [hbefore] at hsome
      obtain ⟨semadj, hsemadj⟩ := isSome_iff_exists.mp hsome
      rw [hsemadj]
      simp only
      split
      · exact ⟨_, _, rfl, hfailed _⟩
      · exact hnext
    · exact hnext

theorem tryAtomicSemop_spec (h : HasUndo array sops un) :
    ∃ array' result, tryAtomicSemop array sops un = some (array', result) ∧
      Attempted array array' result :=
  tryFrom_spec h rfl id

section

variable (h : ∀ sop ∈ ops, sop.semOp = 0)
include h

theorem commitSemadj_zero (semadj : Nat → Int16) : commitSemadj semadj ops = semadj := by
  induction ops with
  | nil => rfl
  | cons sop ops ih =>
    have hzero := h sop mem_cons_self
    have hsame : update semadj sop.semNum (semadj sop.semNum - sop.semOp) = semadj := by
      rw [hzero, Int16.sub_zero, update_eq_self]
    rw [commitSemadj, hsame, ite_self]
    exact ih fun sop hsop => h sop (mem_cons_of_mem _ hsop)

theorem commitUndo_zero (array : SemArray L) (un : Option L) : commitUndo array un ops = array := by
  cases un with
  | none => rfl
  | some l =>
    have hsame : ((array.undo l).map fun semadj => commitSemadj semadj ops) = array.undo l := by
      cases array.undo l with
      | none => rfl
      | some semadj => exact congrArg some (commitSemadj_zero h semadj)
    rw [commitUndo, hsame, update_eq_self]

theorem undoSemvals_zero (semval : Nat → Int) : undoSemvals semval ops = semval := by
  induction ops generalizing semval with
  | nil => rfl
  | cons sop ops ih =>
    have hzero : sop.semOp.toInt = 0 := by rw [h sop mem_cons_self]; rfl
    rw [undoSemvals, hzero, Int.sub_zero, update_eq_self]
    exact ih (fun sop hsop => h sop (mem_cons_of_mem _ hsop)) semval

end

/-- Waiting for zero changes nothing. -/
theorem tryFrom_zero {array' : SemArray L} (hops : ∀ sop ∈ ops, sop.semOp = 0)
    (hsops : ∀ sop ∈ sops, sop.semOp = 0) (h : tryFrom array un ops sops = some (array', result)) :
    array' = array := by
  induction sops generalizing ops array' result with
  | nil =>
    rw [tryFrom, commitUndo_zero hops] at h
    simp only [some.injEq, Prod.mk.injEq] at h
    exact h.1.symm
  | cons sop sops ih =>
    have hzero : sop.semOp.toInt = 0 := by rw [hsops sop mem_cons_self]; rfl
    have hnext : tryFrom array un (sop :: ops) sops = some (array', result) → array' = array :=
      ih (forall_mem_cons.mpr ⟨hsops sop mem_cons_self, hops⟩) (forall_mem_cons.mp hsops).2
    rw [tryFrom] at h
    simp only [undoSemvals_zero hops, hzero, Int.add_zero, update_eq_self] at h
    split at h
    · simp at h; exact h.1.symm
    split at h
    · simp at h; exact h.1.symm
    split at h
    · simp at h; exact h.1.symm
    split at h
    · split at h
      · cases h
      · split at h
        · simp at h; exact h.1.symm
        · exact hnext h
    · exact hnext h

theorem tryAtomicSemop_zero {array' : SemArray L} (halter : alters sops = false)
    (h : tryAtomicSemop array sops un = some (array', result)) : array' = array := by
  refine tryFrom_zero (by simp) ?_ h
  intro sop hsop
  by_contra hne
  have : alters sops = true := any_eq_true.mpr ⟨sop, hsop, by simpa using hne⟩
  rw [halter] at this
  cases this

end

/-! ## The state -/

section

variable {T L : Type} [DecidableEq T] [DecidableEq L] {s : State T L}

/-- A task may go on with this undo structure. -/
structure Ready (undoList : T → Option L) (undo : L → Option (Nat → Int16)) (t : T)
    (sops : List Sembuf) (un : Option L) : Prop where
  need : ∀ sop ∈ sops, sop.undo = true → un.isSome = true
  own : ∀ l, un = some l → undoList t = some l ∧ (undo l).isSome = true

/-- What holds in the middle of a step as well. -/
structure Wf (s : State T L) : Prop where
  range : InRange s.array.semval
  distinct : (s.pending.map SemQueue.sleeper).Nodup
  sleeping : ∀ t, s.task t = .asleep ↔ t ∈ s.pending.map SemQueue.sleeper
  queued : ∀ q ∈ s.pending, Ready s.undoList s.array.undo q.sleeper q.sops q.undo
  alter : ∀ q ∈ s.pending, q.alter = alters q.sops
  found : ∀ t sops un, s.task t = .found sops un →
    Ready s.undoList s.array.undo t sops un
  nodup : s.tasks.Nodup
  idle : ∀ t, t ∉ s.tasks → s.task t = .running ∧ s.undoList t = none
  refs : ∀ l, s.refcnt l = s.tasks.countP fun t => decide (s.undoList t = some l)
  held : ∀ l, (s.array.undo l).isSome = true → 0 < s.refcnt l

/-- The operation cannot be completed now. -/
def Blocks (array : SemArray L) (q : SemQueue T L) : Prop :=
  tryAtomicSemop array q.sops q.undo = some (array, .block)

omit [DecidableEq T] [DecidableEq L] in
theorem Ready.hasUndo {undoList : T → Option L} {array : SemArray L} {t : T} {un : Option L}
    (h : Ready undoList array.undo t sops un) : HasUndo array sops un := by
  intro sop hsop hundo
  obtain ⟨l, rfl⟩ := isSome_iff_exists.mp (h.need sop hsop hundo)
  exact (h.own l rfl).2

omit [DecidableEq T] [DecidableEq L] in
theorem Ready.congr {undoList undoList' : T → Option L} {undo undo' : L → Option (Nat → Int16)}
    {t : T} {un : Option L} (h : Ready undoList undo t sops un)
    (hlist : ∀ l, undoList t = some l → undoList' t = some l)
    (hundo : ∀ l, (undo l).isSome = true → undoList t = some l → (undo' l).isSome = true) :
    Ready undoList' undo' t sops un := by
  refine ⟨h.need, fun l hl => ?_⟩
  obtain ⟨hown, hsome⟩ := h.own l hl
  exact ⟨hlist l hown, hundo l hsome hown⟩

omit [DecidableEq T] in
theorem Wf.mem_tasks (h : Wf s) {t : T} (ht : s.task t ≠ .running) : t ∈ s.tasks := by
  by_contra hnot
  exact ht (h.idle t hnot).1

theorem Wf.idle_update (h : Wf s) {t : T} {task : Task L} (hlive : task = .running ∨ t ∈ s.tasks) :
    ∀ x, x ∉ s.tasks → update s.task t task x = .running ∧ s.undoList x = none :=
  (forall_update_iff s.task fun x task => x ∉ s.tasks → task = .running ∧ s.undoList x = none).mpr
    ⟨fun hx => ⟨hlive.resolve_right hx, (h.idle t hx).2⟩, fun x _ => h.idle x⟩

/-- An entry is taken from the queue and its task woken. -/
theorem Wf.complete (h : Wf s) {passed rest : List (SemQueue T L)} {q : SemQueue T L}
    (hpending : s.pending = passed ++ q :: rest) {array : SemArray L}
    (ha : Attempted s.array array result) : Wf { s with
      array := array
      pending := passed ++ rest
      task := update s.task q.sleeper (.woken result) } := by
  have hq : s.task q.sleeper = .asleep := (h.sleeping _).mpr (by simp [hpending])
  have hdistinct := h.distinct
  rw [hpending, map_append, map_cons, nodup_middle, ← map_append, nodup_cons] at hdistinct
  have hmem (x) (hx : x ∈ passed ++ rest) : x ∈ s.pending := by
    rw [hpending]
    exact ((sublist_cons_self q rest).append_left passed).subset hx
  have hready : ∀ t sops un, Ready s.undoList s.array.undo t sops un →
      Ready s.undoList array.undo t sops un :=
    fun t sops un hr => hr.congr (fun _ => id) fun l hl _ => (ha.undos l).trans hl
  refine ⟨ha.range h.range, hdistinct.2, ?_, ?_, ?_, ?_, h.nodup,
    h.idle_update (.inr (h.mem_tasks (by simp [hq]))), h.refs, ?_⟩
  · refine (forall_update_iff s.task fun t task => task = .asleep ↔
      t ∈ (passed ++ rest).map SemQueue.sleeper).mpr
        ⟨⟨nofun, fun hin => absurd hin hdistinct.1⟩, fun t ht => ?_⟩
    rw [h.sleeping t, hpending]
    simp [ht]
  · intro x hx
    exact hready _ _ _ (h.queued x (hmem x hx))
  · intro x hx
    exact h.alter x (hmem x hx)
  · exact (forall_update_iff s.task fun t task => ∀ sops un, task = .found sops un →
      Ready s.undoList array.undo t sops un).mpr
        ⟨nofun, fun t _ sops un ht => hready _ _ _ (h.found t sops un ht)⟩
  · intro l hl
    exact h.held l ((ha.undos l).symm.trans hl)

/-! ## update_queue -/

/-- The state of the scan: what it has passed would block. -/
structure UpdateInv (u : Update T L) : Prop where
  wf : Wf u.s
  pending : u.s.pending = u.passed ++ u.rest
  blocks : ∀ q ∈ u.passed, Blocks u.s.array q

/-- A completed entry makes the queue shorter, which pays for a scan from the start. -/
def updateMeasure (u : Update T L) : Nat :=
  u.s.pending.length * u.s.pending.length + u.rest.length

/-- One round of the scan. -/
theorem updateRound_spec (u : Update T L) (h : UpdateInv u) :
    (∃ s', updateRound u = some (.inl s') ∧ Wf s' ∧ ∀ q ∈ s'.pending, Blocks s'.array q) ∨
    ∃ u', updateRound u = some (.inr u') ∧ UpdateInv u' ∧ updateMeasure u' < updateMeasure u := by
  obtain ⟨s, passed, rest⟩ := u
  obtain ⟨hwf, hpending, hblocks⟩ := h
  simp only at hwf hpending hblocks
  cases rest with
  | nil =>
    rw [append_nil] at hpending
    refine .inl ⟨s, rfl, hwf, ?_⟩
    rw [hpending]
    exact hblocks
  | cons q rest =>
    have hready := hwf.queued q (by simp [hpending])
    obtain ⟨array, result, htry, ha⟩ := tryAtomicSemop_spec hready.hasUndo
    have hlen : s.pending.length = (passed ++ rest).length + 1 := by
      rw [hpending]
      simp
      omega
    right
    unfold updateRound
    simp only [htry]
    by_cases hblock : result = .block
    · -- nothing has changed, and the entry is passed
      subst hblock
      obtain rfl := ha.unchanged (by simp)
      refine ⟨_, rfl, ⟨hwf, by simp [hpending], ?_⟩, ?_⟩
      · intro x hx
        rcases mem_append.mp hx with hx | hx
        · exact hblocks x hx
        · obtain rfl : x = q := by simpa using hx
          exact htry
      · simp [updateMeasure]
    · rw [if_pos hblock]
      have hwf' := hwf.complete hpending ha
      cases halter : q.alter with
      | true =>
        refine ⟨_, rfl, ⟨hwf', rfl, by simp⟩, ?_⟩
        simp only [updateMeasure, hlen]
        rw [Nat.add_one_mul, Nat.mul_add_one]
        omega
      | false =>
        -- the array is the same, so what was passed still blocks
        have hsame : array = s.array :=
          tryAtomicSemop_zero ((hwf.alter q (by simp [hpending])).symm.trans halter) htry
        subst hsame
        refine ⟨_, rfl, ⟨hwf', rfl, hblocks⟩, ?_⟩
        simp only [updateMeasure, hlen, length_cons]
        rw [Nat.add_one_mul, Nat.mul_add_one]
        omega

/-- `update_queue` terminates, and what remains in the queue would block. -/
theorem updateQueue_spec (h : Wf s) :
    ∃ s', updateQueue s = some s' ∧ Wf s' ∧ ∀ q ∈ s'.pending, Blocks s'.array q := by
  obtain ⟨s', hrounds, hpost⟩ := rounds_of_measure updateRound_spec _ ⟨s, [], s.pending⟩
    ⟨h, rfl, by simp⟩ (Nat.lt_succ_self _)
  exact ⟨s', loop_of_rounds _ hrounds, hpost⟩

end

end LinuxKernel.Ipc.Sem
