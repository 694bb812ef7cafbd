/-
  No wake-up is lost.

  Every step of every task keeps the queue free of operations that could be
  completed, whatever the order of the steps.
-/
import LinuxKernel.Ipc.SemQueue

namespace LinuxKernel.Ipc.Sem

open Foundation Function List Option

variable {T L : Type} [DecidableEq T] [DecidableEq L] {s : State T L} {t : T} {newList : Option L}
  {sops : List Sembuf} {tasks : List T} {un : Option L} {v : Option (Nat → Int16)} {l : L}
  {refcnt : L → Nat}

/-- What holds whenever the lock is free. -/
structure Inv (s : State T L) : Prop where
  wf : Wf s
  blocks : ∀ q ∈ s.pending, Blocks s.array q

/-! ## Parts of the calls -/

section

variable (h : Wf s) {task : Task L}
include h

theorem Wf.found_update
    (hfound : ∀ sops un, task = .found sops un → Ready s.undoList s.array.undo t sops un) :
    ∀ x sops un, update s.task t task x = .found sops un →
      Ready s.undoList s.array.undo x sops un :=
  (forall_update_iff s.task fun x task => ∀ sops un, task = .found sops un →
    Ready s.undoList s.array.undo x sops un).mpr ⟨hfound, fun x _ => h.found x⟩

/-- A task that is not asleep goes on. -/
theorem Wf.goOn (hawake : s.task t ≠ .asleep) (htask : task ≠ .asleep)
    (hfound : ∀ sops un, task = .found sops un → Ready s.undoList s.array.undo t sops un)
    (hlive : task = .running ∨ t ∈ s.tasks) : Wf (setTask s t task) := by
  refine ⟨h.range, h.distinct, ?_, h.queued, h.alter, h.found_update hfound, h.nodup,
    h.idle_update hlive, h.refs, h.held⟩
  refine (forall_update_iff s.task fun x task =>
    task = .asleep ↔ x ∈ s.pending.map SemQueue.sleeper).mpr ⟨?_, fun x _ => h.sleeping x⟩
  exact ⟨fun heq => absurd heq htask, fun hin => absurd ((h.sleeping t).mpr hin) hawake⟩

end

omit [DecidableEq T] in
/-- New values for the semaphores. -/
theorem Wf.setArray (h : Wf s) (array : SemArray L) (hrange : InRange array.semval)
    (hundo : SameUndos s.array array) : Wf { s with array := array } := by
  have hready : ∀ t sops un, Ready s.undoList s.array.undo t sops un →
      Ready s.undoList array.undo t sops un :=
    fun t sops un hr => hr.congr (fun _ => id) fun l hl _ => (hundo l).trans hl
  exact ⟨hrange, h.distinct, h.sleeping, fun q hq => hready _ _ _ (h.queued q hq), h.alter,
    fun t sops un ht => hready _ _ _ (h.found t sops un ht), h.nodup, h.idle, h.refs,
    fun l hl => h.held l ((hundo l).symm.trans hl)⟩

omit [DecidableEq T] in
/-- An undo structure that the operation does not use. -/
theorem tryFrom_frame (hun : un ≠ some l) (ops : List Sembuf) (array : SemArray L) :
    tryFrom { array with undo := update array.undo l v } un ops sops =
      (tryFrom array un ops sops).map fun r =>
        ({ r.1 with undo := update r.1.undo l v }, r.2) := by
  induction sops generalizing ops array with
  | nil =>
    rw [tryFrom, tryFrom]
    cases un with
    | none => rfl
    | some l' =>
      have hne : l' ≠ l := fun heq => hun (congrArg some heq)
      simp only [commitUndo, update_of_ne hne, map_some]
      rw [update_comm hne]
  | cons sop sops ih =>
    have hbind : un.bind (update array.undo l v) = un.bind array.undo := by
      cases un with
      | none => rfl
      | some l' => exact update_of_ne (fun heq => hun (congrArg some heq)) ..
    have ih' := ih (sop :: ops) { array with
      semval := update array.semval sop.semNum (array.semval sop.semNum + sop.semOp.toInt) }
    rw [tryFrom, tryFrom]
    simp only [hbind, ih']
    split
    · rfl
    split
    · rfl
    split
    · rfl
    split
    · split
      · rfl
      · split <;> rfl
    · rfl

omit [DecidableEq T] in
theorem Blocks.frame {q : SemQueue T L} (hq : q.undo ≠ some l) {array : SemArray L}
    (h : Blocks array q) : Blocks { array with undo := update array.undo l v } q := by
  unfold Blocks tryAtomicSemop at h ⊢
  rw [tryFrom_frame hq, h]
  rfl

/-- How often a list is used, when one task changes its list. -/
theorem countP_update (hnodup : tasks.Nodup) {f : T → Option L}
    (ht : t ∈ tasks) (hnone : f t = none) (l' : L) :
    tasks.countP (fun x => decide (update f t (some l) x = some l')) =
      tasks.countP (fun x => decide (f x = some l')) + if l' = l then 1 else 0 := by
  have hperm := perm_cons_erase ht
  have hrest : (tasks.erase t).countP (fun x => decide (update f t (some l) x = some l')) =
      (tasks.erase t).countP (fun x => decide (f x = some l')) := by
    refine countP_congr fun x hx => ?_
    rw [update_of_ne fun heq => hnodup.mem_erase_iff.mp hx |>.1 heq]
  rw [hperm.countP_eq, hperm.countP_eq, countP_cons, countP_cons, hrest, hnone]
  by_cases hl : l' = l
  · simp [hl]
  · simp [hl, Ne.symm hl]

omit [DecidableEq L] in
/-- A task that had no undo list gets one. -/
theorem Ready.setList {undoList : T → Option L} {undo : L → Option (Nat → Int16)} {x : T}
    (h : Ready undoList undo x sops un) (ht : undoList t = none) (list : Option L) :
    Ready (update undoList t list) undo x sops un := by
  refine h.congr (fun l hown => ?_) fun l hsome _ => hsome
  have hx : x ≠ t := by
    rintro rfl
    rw [ht] at hown
    cases hown
  exact (update_of_ne hx ..).trans hown

/-- `get_undo_list` -/
theorem getUndoList_spec (h : Inv s) (ht : t ∈ s.tasks)
    (hnew : ∀ l, newList = some l → s.refcnt l = 0) {s' : State T L}
    (heq : getUndoList s t newList = some (s', l)) :
    Inv s' ∧ s'.undoList t = some l ∧ s'.task = s.task ∧ s'.tasks = s.tasks := by
  unfold getUndoList at heq
  cases hl : s.undoList t with
  | some l' =>
    rw [hl] at heq
    obtain ⟨rfl, rfl⟩ := heq
    exact ⟨h, hl, rfl, rfl⟩
  | none =>
    rw [hl] at heq
    cases newList with
    | none => cases heq
    | some l' =>
      simp only [some.injEq, Prod.mk.injEq] at heq
      obtain ⟨rfl, rfl⟩ := heq
      have hzero := hnew l' rfl
      refine ⟨⟨⟨h.wf.range, h.wf.distinct, h.wf.sleeping,
        fun q hq => (h.wf.queued q hq).setList hl _, h.wf.alter,
        fun x sops un hx => (h.wf.found x sops un hx).setList hl _, h.wf.nodup, ?_, ?_, ?_⟩,
        h.blocks⟩, update_self .., rfl, rfl⟩
      · intro x hx
        have hxt : x ≠ t := by
          rintro rfl
          exact hx ht
        exact ⟨(h.wf.idle x hx).1, (update_of_ne hxt ..).trans (h.wf.idle x hx).2⟩
      · intro l
        show update s.refcnt l' 1 l = _
        rw [countP_update h.wf.nodup ht hl, ← h.wf.refs l]
        by_cases hll : l = l'
        · subst hll
          rw [update_self, hzero, if_pos rfl]
        · rw [update_of_ne hll, if_neg hll, Nat.add_zero]
      · exact (forall_update_iff s.refcnt fun l n => (s.array.undo l).isSome = true → 0 < n).mpr
          ⟨fun _ => Nat.one_pos, fun l _ => h.wf.held l⟩

/-- `find_undo` -/
theorem findUndo_spec (h : Inv s) (ht : t ∈ s.tasks) (newUndo : Bool)
    (hnew : ∀ l, newList = some l → s.refcnt l = 0) : Inv (findUndo s t newList newUndo).1 ∧
      (findUndo s t newList newUndo).1.task = s.task ∧
      (findUndo s t newList newUndo).1.tasks = s.tasks ∧
      ∀ l, (findUndo s t newList newUndo).2 = some l →
        (findUndo s t newList newUndo).1.undoList t = some l ∧
          ((findUndo s t newList newUndo).1.array.undo l).isSome = true := by
  unfold findUndo
  cases hget : getUndoList s t newList with
  | none => exact ⟨h, rfl, rfl, by simp⟩
  | some p =>
    obtain ⟨s', l⟩ := p
    obtain ⟨hinv, hlist, htask, htasks⟩ := getUndoList_spec h ht hnew hget
    simp only
    cases hundo : s'.array.undo l with
    | some semadj =>
      refine ⟨hinv, htask, htasks, ?_⟩
      rintro l' ⟨⟩
      exact ⟨hlist, by rw [hundo]; rfl⟩
    | none =>
      cases newUndo with
      | false => exact ⟨hinv, htask, htasks, by simp⟩
      | true =>
        have hold : ∀ l', (s'.array.undo l').isSome = true → l' ≠ l := by
          rintro l' hsome rfl
          rw [hundo] at hsome
          cases hsome
        have hready (x sops un) (hr : Ready s'.undoList s'.array.undo x sops un) : Ready s'.undoList
              (update s'.array.undo l (some fun _ => 0)) x sops un := by
          refine hr.congr (fun _ => id) fun l' hsome _ => ?_
          rw [update_of_ne (hold l' hsome)]
          exact hsome
        have hcount : 0 < s'.refcnt l := by
          rw [hinv.wf.refs l]
          refine countP_pos_iff.mpr ⟨t, by rw [htasks]; exact ht, by simpa using hlist⟩
        refine ⟨⟨⟨hinv.wf.range, hinv.wf.distinct, hinv.wf.sleeping,
          fun q hq => hready _ _ _ (hinv.wf.queued q hq), hinv.wf.alter,
          fun x sops un hx => hready _ _ _ (hinv.wf.found x sops un hx), hinv.wf.nodup, hinv.wf.idle,
          hinv.wf.refs, ?_⟩, ?_⟩, htask, htasks, ?_⟩
        · exact (forall_update_iff s'.array.undo fun l undo => undo.isSome = true →
            0 < s'.refcnt l).mpr ⟨fun _ => hcount, fun l _ => hinv.wf.held l⟩
        · intro q hq
          refine (hinv.blocks q hq).frame fun heq => ?_
          exact hold l ((hinv.wf.queued q hq).own l heq).2 rfl
        · rintro l' ⟨⟩
          exact ⟨hlist, by simp⟩

/-! ## The calls -/

/-- The first part of `sys_semtimedop`. -/
theorem enter_inv (h : Inv s) (ht : t ∈ s.tasks) (hrun : s.task t = .running) (sops : List Sembuf)
    (semopm : Nat) (newUndo : Bool) (hnew : ∀ l, newList = some l → s.refcnt l = 0) :
    Inv (enter s t sops semopm newList newUndo).1 := by
  have hfound {s' : State T L} {un : Option L} (h' : Inv s') (htask : s'.task = s.task)
      (htasks : s'.tasks = s.tasks) (hready : Ready s'.undoList s'.array.undo t sops un) :
      Inv (setTask s' t (.found sops un)) := by
    refine ⟨h'.wf.goOn (by rw [htask, hrun]; simp) (by simp) ?_ (.inr (by rw [htasks]; exact ht)),
      h'.blocks⟩
    rintro sops' un' ⟨⟩
    exact hready
  unfold enter
  split
  · exact h
  split
  · exact h
  cases hundos : undos sops with
  | false =>
    refine hfound h rfl rfl ⟨?_, by simp⟩
    intro sop hsop hundo
    have : undos sops = true := any_eq_true.mpr ⟨sop, hsop, hundo⟩
    rw [hundos] at this
    cases this
  | true =>
    obtain ⟨hinv, htask, htasks, hown⟩ := findUndo_spec h ht newUndo hnew
    generalize findUndo s t newList newUndo = p at hinv htask htasks hown
    obtain ⟨s', un⟩ := p
    cases un with
    | none => exact hinv
    | some un =>
      refine hfound hinv htask htasks ⟨by simp, ?_⟩
      rintro l ⟨⟩
      exact hown un rfl

/-- A new entry, on either end of the queue. -/
theorem Wf.enqueue (h : Wf s) (ht : s.task t = .found sops un) {pending : List (SemQueue T L)}
    (hperm : pending.Perm (⟨t, sops, un, alters sops⟩ :: s.pending)) :
    Wf (setTask { s with pending := pending } t .asleep) := by
  have hready := h.found t sops un ht
  have hout : t ∉ s.pending.map SemQueue.sleeper := by
    intro hin
    rw [← h.sleeping, ht] at hin
    cases hin
  have hsleepers := hperm.map SemQueue.sleeper
  have hcases (q) (hq : q ∈ pending) : q = ⟨t, sops, un, alters sops⟩ ∨ q ∈ s.pending := by
    exact mem_cons.mp (hperm.mem_iff.mp hq)
  refine ⟨h.range, ?_, ?_, ?_, ?_, h.found_update (by simp), h.nodup,
    h.idle_update (.inr (h.mem_tasks (by simp [ht]))), h.refs, h.held⟩
  · exact hsleepers.nodup_iff.mpr (nodup_cons.mpr ⟨hout, h.distinct⟩)
  · intro x
    show update s.task t .asleep x = .asleep ↔ x ∈ pending.map SemQueue.sleeper
    rw [hsleepers.mem_iff]
    by_cases hx : x = t
    · simp [hx]
    · rw [update_of_ne hx, h.sleeping x]
      simp [hx]
  · intro q hq
    rcases hcases q hq with rfl | hq
    · exact hready
    · exact h.queued q hq
  · intro q hq
    rcases hcases q hq with rfl | hq
    · rfl
    · exact h.alter q hq

section

variable (h : Inv s)
include h

/-- The section of `sys_semtimedop` with the lock. -/
theorem attempt_inv (ht : s.task t = .found sops un) (denied : Bool) :
    ∃ s' evs, attempt s t sops un denied = some (s', evs) ∧ Inv s' := by
  have hawake : s.task t ≠ .asleep := by rw [ht]; simp
  have hback : ∀ {s' : State T L}, Wf s' → s'.task = s.task → Wf (setTask s' t .running) :=
    fun h' heq => h'.goOn (by rw [heq]; exact hawake) (by simp) (by simp) (.inl rfl)
  unfold attempt
  split
  · exact ⟨_, _, rfl, hback h.wf rfl, h.blocks⟩
  split
  · exact ⟨_, _, rfl, hback h.wf rfl, h.blocks⟩
  obtain ⟨array, error, htry, ha⟩ := tryAtomicSemop_spec (h.wf.found t sops un ht).hasUndo
  rw [htry]
  simp only
  by_cases hblock : error = .block
  · subst hblock
    obtain rfl := ha.unchanged (by simp)
    have hperm : (if alters sops = true then s.pending ++ [⟨t, sops, un, alters sops⟩]
        else ⟨t, sops, un, alters sops⟩ :: s.pending).Perm
          (⟨t, sops, un, alters sops⟩ :: s.pending) := by
      split
      · exact perm_append_singleton ..
      · exact List.Perm.refl _
    refine ⟨_, _, rfl, h.wf.enqueue ht hperm, fun q hq => ?_⟩
    rcases mem_cons.mp (hperm.mem_iff.mp hq) with rfl | hq
    · exact htry
    · exact h.blocks q hq
  · rw [if_pos hblock]
    have hwf := hback (h.wf.setArray array (ha.range h.wf.range) ha.undos) rfl
    by_cases hupdate : alters sops = true ∧ error = .done
    · rw [if_pos hupdate]
      obtain ⟨s', hs', hwf', hblocks⟩ := updateQueue_spec hwf
      rw [hs']
      exact ⟨_, _, rfl, hwf', hblocks⟩
    -- nothing has changed
    rw [if_neg hupdate]
    have hsame : array = s.array := by
      by_cases hdone : error = .done
      · exact tryAtomicSemop_zero (by simpa [hdone] using hupdate) htry
      · exact ha.unchanged hdone
    subst hsame
    exact ⟨_, _, rfl, hwf, h.blocks⟩

/-- A timeout or a signal. -/
theorem interrupted_inv (timeout : Bool) : Inv (interrupted s t timeout).1 := by
  have hsub : ∀ q ∈ s.pending.filter (fun q => q.sleeper ≠ t), q ∈ s.pending :=
    fun q hq => (mem_filter.mp hq).1
  refine ⟨⟨h.wf.range, ?_, ?_, ?_, ?_, h.wf.found_update (by simp), h.wf.nodup,
    h.wf.idle_update (.inl rfl), h.wf.refs, h.wf.held⟩, ?_⟩
  · exact h.wf.distinct.sublist (filter_sublist.map _)
  · intro x
    show update s.task t .running x = .asleep ↔
      x ∈ (s.pending.filter fun q => q.sleeper ≠ t).map SemQueue.sleeper
    by_cases hx : x = t
    · subst hx
      simp
    rw [update_of_ne hx, h.wf.sleeping x]
    simp only [List.mem_map, mem_filter, decide_eq_true_eq]
    refine exists_congr fun q => ⟨?_, fun hq => ⟨hq.1.1, hq.2⟩⟩
    rintro ⟨hq, rfl⟩
    exact ⟨⟨hq, hx⟩, rfl⟩
  · exact fun q hq => h.wf.queued q (hsub q hq)
  · exact fun q hq => h.wf.alter q (hsub q hq)
  · exact fun q hq => h.blocks q (hsub q hq)

theorem setval_inv (semnum : Nat) (val : Int) : ∃ s', setval s semnum val = some s' ∧ Inv s' := by
  unfold setval
  split
  · exact ⟨s, rfl, h⟩
  split
  · exact ⟨s, rfl, h⟩
  obtain ⟨s', hs', hwf, hblocks⟩ := updateQueue_spec (h.wf.setArray ({ s.array with
      undo := fun l => (s.array.undo l).map fun semadj => update semadj semnum 0
      semval := update s.array.semval semnum val })
    (h.wf.range.update (by omega)) fun l => isSome_map)
  exact ⟨s', hs', hwf, hblocks⟩

theorem setall_inv (semIo : Nat → UInt16) : ∃ s', setall s semIo = some s' ∧ Inv s' := by
  unfold setall
  split
  · exact ⟨s, rfl, h⟩
  rename_i hval
  have hrange : InRange fun i =>
      if i < s.array.nsems then ((semIo i).toNat : Int) else s.array.semval i := by
    intro i
    by_cases hi : i < s.array.nsems
    · simp only [if_pos hi]
      by_contra hbig
      refine hval (any_eq_true.mpr ⟨i, mem_range.mpr hi, ?_⟩)
      simpa using hbig
    · simp only [if_neg hi]
      exact h.wf.range i
  obtain ⟨s', hs', hwf, hblocks⟩ := updateQueue_spec (h.wf.setArray ({ s.array with
      semval := fun i => if i < s.array.nsems then ((semIo i).toNat : Int) else s.array.semval i
      undo := fun l => (s.array.undo l).map fun semadj i =>
        if i < s.array.nsems then 0 else semadj i }) hrange fun l => isSome_map)
  exact ⟨s', hs', hwf, hblocks⟩

/-- A new task, with the undo list of its parent or without one. -/
theorem Inv.newTask {child : T} (hchild : child ∉ s.tasks) (list : Option L)
    (hrefcnt : ∀ l, refcnt l = s.refcnt l + if list = some l then 1 else 0) : Inv { s with
      tasks := child :: s.tasks
      task := update s.task child .running
      undoList := update s.undoList child list
      refcnt := refcnt } := by
  obtain ⟨hidle, hnone⟩ := h.wf.idle child hchild
  have htask : update s.task child .running = s.task := by rw [← hidle, update_eq_self]
  rw [htask]
  refine ⟨⟨h.wf.range, h.wf.distinct, h.wf.sleeping,
    fun q hq => (h.wf.queued q hq).setList hnone _, h.wf.alter,
    fun x sops un hx => (h.wf.found x sops un hx).setList hnone _,
    nodup_cons.mpr ⟨hchild, h.wf.nodup⟩, ?_, ?_, ?_⟩, h.blocks⟩
  · intro x hx
    obtain ⟨hne, hx'⟩ := not_or.mp (fun hin => hx (mem_cons.mpr hin))
    exact ⟨(h.wf.idle x hx').1, (update_of_ne hne ..).trans (h.wf.idle x hx').2⟩
  · intro l
    show refcnt l = (child :: s.tasks).countP fun x =>
      decide (update s.undoList child list x = some l)
    rw [countP_cons, hrefcnt l, h.wf.refs l]
    congr 1
    · refine countP_congr fun x hx => ?_
      rw [update_of_ne fun heq : x = child => hchild (heq ▸ hx)]
    · simp
  · intro l hsome
    show 0 < refcnt l
    have := h.wf.held l hsome
    rw [hrefcnt l]
    omega

theorem copySemundo_inv (ht : t ∈ s.tasks) {child : T} (hchild : child ∉ s.tasks)
    (share : Bool) (hnew : ∀ l, newList = some l → s.refcnt l = 0) :
    Inv (copySemundo s t child share newList) := by
  unfold copySemundo
  cases share with
  | false => exact h.newTask hchild none (by simp)
  | true =>
    cases hget : getUndoList s t newList with
    | none => simpa using h
    | some p =>
      obtain ⟨s', l⟩ := p
      obtain ⟨hinv, -, -, htasks⟩ := getUndoList_spec h ht hnew hget
      refine hinv.newTask (by rw [htasks]; exact hchild) (some l) ?_
      intro l'
      by_cases hl : l' = l
      · subst hl
        simp
      · rw [update_of_ne hl, if_neg fun heq => hl (some.inj heq).symm, Nat.add_zero]

end

theorem adjust_range {semval : Int} (h : 0 ≤ semval ∧ semval ≤ SEMVMX) (semadj : Int16) :
    0 ≤ adjust semval semadj ∧ adjust semval semadj ≤ SEMVMX := by
  unfold adjust
  simp only
  split_ifs <;> omega

/-- The task is gone, with what it had of its undo list. -/
theorem Wf.leave (h : Wf s) (ht : t ∈ s.tasks) (hrun : s.task t = .running)
    (undo : L → Option (Nat → Int16))
    (hrefcnt : ∀ l, refcnt l = s.refcnt l - if s.undoList t = some l then 1 else 0)
    (hundo : ∀ l, undo l = s.array.undo l ∨ undo l = none ∧ refcnt l = 0)
    (hlast : ∀ l, refcnt l = 0 → undo l = none) : Wf { s with
      tasks := s.tasks.erase t
      undoList := update s.undoList t none
      refcnt := refcnt
      array := { s.array with undo := undo } } := by
  have hother : ∀ x, x ≠ t → update s.undoList t none x = s.undoList x :=
    fun x hx => update_of_ne hx ..
  have hrefs (l) : refcnt l = (s.tasks.erase t).countP fun x =>
        decide (update s.undoList t none x = some l) := by
    have hcount := h.refs l
    rw [(perm_cons_erase ht).countP_eq, countP_cons] at hcount
    have hrest : (s.tasks.erase t).countP (fun x =>
        decide (update s.undoList t none x = some l)) =
        (s.tasks.erase t).countP fun x => decide (s.undoList x = some l) := by
      refine countP_congr fun x hx => ?_
      rw [hother x (h.nodup.mem_erase_iff.mp hx).1]
    rw [hrest, hrefcnt l, hcount]
    simp
  -- another task that uses an undo structure keeps it
  have hready (x sops un) (hx : x ≠ t) (hmem : x ∈ s.tasks)
      (hr : Ready s.undoList s.array.undo x sops un) :
      Ready (update s.undoList t none) undo x sops un := by
    refine hr.congr (fun l hown => (hother x hx).trans hown) fun l hsome hlist => ?_
    rcases hundo l with heq | ⟨-, hzero⟩
    · rw [heq]; exact hsome
    exfalso
    rw [hrefs l, countP_eq_zero] at hzero
    refine hzero x (h.nodup.mem_erase_iff.mpr ⟨hx, hmem⟩) ?_
    simpa [hother x hx] using hlist
  have hlive (x) (hx : s.task x ≠ .running) : x ≠ t ∧ x ∈ s.tasks := by
    refine ⟨?_, h.mem_tasks hx⟩
    rintro rfl
    exact hx hrun
  refine ⟨h.range, h.distinct, h.sleeping, ?_, h.alter, ?_, h.nodup.erase t, ?_, hrefs, ?_⟩
  · intro q hq
    have hasleep : s.task q.sleeper = .asleep := (h.sleeping _).mpr (mem_map_of_mem hq)
    obtain ⟨hne, hmem⟩ := hlive q.sleeper (by rw [hasleep]; simp)
    exact hready _ _ _ hne hmem (h.queued q hq)
  · intro x sops un hx
    have hx' : s.task x = .found sops un := hx
    obtain ⟨hne, hmem⟩ := hlive x (by rw [hx']; simp)
    exact hready _ _ _ hne hmem (h.found x sops un hx)
  · intro x hx
    by_cases hxt : x = t
    · subst hxt
      exact ⟨hrun, update_self ..⟩
    · have hx' : x ∉ s.tasks := fun hin => hx (h.nodup.mem_erase_iff.mpr ⟨hxt, hin⟩)
      exact ⟨(h.idle x hx').1, (hother x hxt).trans (h.idle x hx').2⟩
  · intro l hsome
    have hsome' : (undo l).isSome = true := hsome
    refine Nat.pos_of_ne_zero fun hzero => ?_
    rw [hlast l hzero] at hsome'
    cases hsome'

theorem exitSem_inv (h : Inv s) (ht : t ∈ s.tasks) (hrun : s.task t = .running) :
    ∃ s', exitSem s t = some s' ∧ Inv s' := by
  have hheld (l) (hzero : s.refcnt l = 0) : s.array.undo l = none := by
    cases hundo : s.array.undo l with
    | none => rfl
    | some semadj =>
      have := h.wf.held l (by rw [hundo]; rfl)
      omega
  unfold exitSem
  cases hlist : s.undoList t with
  | none =>
    refine ⟨_, rfl, h.wf.leave ht hrun s.array.undo ?_ (fun l => .inl rfl) hheld, h.blocks⟩
    rw [hlist]
    simp
  | some l =>
    have hrefcnt (l') : update s.refcnt l (s.refcnt l - 1) l' =
          s.refcnt l' - if s.undoList t = some l' then 1 else 0 := by
      by_cases hl : l' = l
      · rw [hl, update_self, if_pos hlist]
      · rw [update_of_ne hl, if_neg fun heq => hl (some.inj (heq.symm.trans hlist)), Nat.sub_zero]
    -- the list has other users, or nothing for this array
    have hkeep (hl : s.refcnt l - 1 = 0 → s.array.undo l = none) :=
      (forall_update_iff s.refcnt fun l' n => n = 0 → s.array.undo l' = none).mpr
        ⟨hl, fun l' _ => hheld l'⟩
    simp only
    by_cases hcount : s.refcnt l - 1 ≠ 0
    · rw [if_pos hcount]
      exact ⟨_, rfl, h.wf.leave ht hrun s.array.undo hrefcnt (fun l => .inl rfl)
        (hkeep fun hzero => absurd hzero hcount), h.blocks⟩
    rw [if_neg hcount]
    have hzero : s.refcnt l - 1 = 0 := by omega
    cases hundo : s.array.undo l with
    | none =>
      exact ⟨_, rfl, h.wf.leave ht hrun s.array.undo hrefcnt (fun l => .inl rfl) (hkeep fun _ => hundo), h.blocks⟩
    | some semadj =>
      have hleave := h.wf.leave ht hrun (update s.array.undo l none) hrefcnt
        ((forall_update_iff s.array.undo fun l' undo => undo = s.array.undo l' ∨
          undo = none ∧ update s.refcnt l (s.refcnt l - 1) l' = 0).mpr
            ⟨.inr ⟨rfl, (update_self ..).trans hzero⟩, fun _ _ => .inl rfl⟩)
        ((forall_update_iff s.array.undo fun l' undo =>
          update s.refcnt l (s.refcnt l - 1) l' = 0 → undo = none).mpr
            ⟨fun _ => rfl, fun l' hll hz => hheld l' ((update_of_ne hll ..).symm.trans hz)⟩)
      have hwf := hleave.setArray ({ s.array with
          undo := update s.array.undo l none
          semval := fun i =>
            if i < s.array.nsems then adjust (s.array.semval i) (semadj i) else s.array.semval i })
        (by
          intro i
          simp only
          split
          · exact adjust_range (h.wf.range i) _
          · exact h.wf.range i)
        fun _ => rfl
      obtain ⟨s', hs', hwf', hblocks⟩ := updateQueue_spec hwf
      exact ⟨s', hs', hwf', hblocks⟩

/-! ## Any interleaving -/

/-- Who may make a call: a task that exists and is at that point.  New memory is not in
use. -/
def Allowed (s : State T L) : Call T L → Prop
  | .enter t _ _ newList _ =>
    t ∈ s.tasks ∧ s.task t = .running ∧ ∀ l, newList = some l → s.refcnt l = 0
  | .attempt t _ => ∃ sops un, s.task t = .found sops un
  | .interrupted t _ => s.task t = .asleep
  | .resume t => ∃ status, s.task t = .woken status
  | .setval _ _ => True
  | .setall _ => True
  | .copySemundo t child _ newList =>
    t ∈ s.tasks ∧ child ∉ s.tasks ∧ s.task t = .running ∧ ∀ l, newList = some l → s.refcnt l = 0
  | .exitSem t => t ∈ s.tasks ∧ s.task t = .running

/-- Every call has a step: `update_queue` terminates and no undo structure is missing. -/
theorem step_inv (h : Inv s) {call : Call T L} (hcall : Allowed s call) :
    ∃ s' evs, step s call = some (s', evs) ∧ Inv s' := by
  cases call with
  | enter t sops semopm newList newUndo =>
    obtain ⟨ht, hrun, hnew⟩ := hcall
    refine ⟨_, (enter s t sops semopm newList newUndo).2, ?_,
      enter_inv h ht hrun sops semopm newUndo hnew⟩
    simp [step, ht, hrun]
  | attempt t denied =>
    obtain ⟨sops, un, ht⟩ := hcall
    obtain ⟨s', evs, hs', hinv⟩ := attempt_inv h ht denied
    exact ⟨s', evs, by simp only [step, ht]; exact hs', hinv⟩
  | interrupted t timeout =>
    have ht : s.task t = .asleep := hcall
    refine ⟨_, (interrupted s t timeout).2, ?_, interrupted_inv (t := t) h timeout⟩
    simp [step, ht]
  | resume t =>
    obtain ⟨status, ht⟩ := hcall
    refine ⟨setTask s t .running, [.returned t status], by simp only [step, ht], ?_, h.blocks⟩
    exact h.wf.goOn (by rw [ht]; simp) (by simp) (by simp) (.inl rfl)
  | setval semnum val =>
    obtain ⟨s', hs', hinv⟩ := setval_inv h semnum val
    exact ⟨s', [], by simp [step, hs'], hinv⟩
  | setall semIo =>
    obtain ⟨s', hs', hinv⟩ := setall_inv h semIo
    exact ⟨s', [], by simp [step, hs'], hinv⟩
  | copySemundo t child share newList =>
    obtain ⟨ht, hchild, hrun, hnew⟩ := hcall
    refine ⟨_, [], ?_, copySemundo_inv h ht hchild share hnew⟩
    simp [step, ht, hchild, hrun]
  | exitSem t =>
    obtain ⟨ht, hrun⟩ := hcall
    obtain ⟨s', hs', hinv⟩ := exitSem_inv h ht hrun
    exact ⟨s', [], by simp [step, ht, hrun, hs'], hinv⟩

omit [DecidableEq T] in
theorem newary_inv (nsems : Nat) (hnodup : tasks.Nodup) : Inv (newary nsems tasks : State T L) := by
  refine ⟨⟨fun _ => ⟨Int.le_refl 0, (by decide : (0 : Int) ≤ SEMVMX)⟩, nodup_nil, ?_, ?_, ?_, ?_, hnodup,
    fun _ _ => ⟨rfl, rfl⟩, ?_, ?_⟩, ?_⟩
  · simp [newary]
  · nofun
  · nofun
  · nofun
  · simp [newary]
  · nofun
  · nofun

theorem RunWith.inv {nsems : Nat} (hnodup : tasks.Nodup) {evs : List (Event T)}
    (hrun : RunWith Allowed step (newary nsems tasks) evs s) : Inv s := by
  refine hrun.invariant_of_step (newary_inv nsems hnodup) fun call h hcall => ?_
  obtain ⟨s', evs', hstep, hinv⟩ := step_inv h hcall
  exact ⟨_, hstep, hinv⟩

/-- In every run: what is queued would block if it were tried now, who sleeps is queued,
the values are in range, and every call that a task can make terminates. -/
theorem sem_run_no_lost_wakeup {nsems : Nat} {tasks : List T} (hnodup : tasks.Nodup)
    {evs : List (Event T)} (hrun : RunWith Allowed step (newary nsems tasks) evs s) :
    (∀ q ∈ s.pending, tryAtomicSemop s.array q.sops q.undo = some (s.array, .block)) ∧
    (∀ t, s.task t = .asleep ↔ ∃ q ∈ s.pending, q.sleeper = t) ∧
    (∀ i, 0 ≤ s.array.semval i ∧ s.array.semval i ≤ SEMVMX) ∧
    (∀ call, Allowed s call → ∃ s' evs', step s call = some (s', evs')) := by
  have h := RunWith.inv hnodup hrun
  refine ⟨h.blocks, ?_, h.wf.range, ?_⟩
  · intro t
    rw [h.wf.sleeping t, List.mem_map]
  · intro call hcall
    obtain ⟨s', evs', hstep, -⟩ := step_inv h hcall
    exact ⟨s', evs', hstep⟩

/-- One task waits for the other one. -/
theorem sem_run_no_lost_wakeup_twoTasks : ∃ (s : State Nat Nat) (evs : List (Event Nat)),
    RunWith Allowed step (newary 1 [0, 1]) evs s ∧ s.pending.length = 1 ∧
      (∀ q ∈ s.pending, tryAtomicSemop s.array q.sops q.undo = some (s.array, .block)) ∧
      ∃ s' evs', step s (.attempt 1 false) = some (s', evs') := by
  have hrun1 : RunWith Allowed step (newary 1 [0, 1] : State Nat Nat) _ _ :=
    .tail (.enter 0 [⟨0, -1, false, true⟩] 32 (some 7) true) (.refl _)
      ⟨by decide, rfl, fun _ _ => rfl⟩ rfl
  have hrun2 : RunWith Allowed step (newary 1 [0, 1] : State Nat Nat) _ _ :=
    .tail (.attempt 0 false) hrun1 ⟨_, _, rfl⟩ rfl
  have hrun3 : RunWith Allowed step (newary 1 [0, 1] : State Nat Nat) _ _ :=
    .tail (.enter 1 [⟨0, 1, false, false⟩] 32 none true) hrun2 ⟨by decide, rfl, by simp⟩ rfl
  obtain ⟨hblocks, -, -, hsteps⟩ := sem_run_no_lost_wakeup (by decide) hrun3
  exact ⟨_, _, hrun3, rfl, hblocks, hsteps (.attempt 1 false) ⟨_, _, rfl⟩⟩

end LinuxKernel.Ipc.Sem
