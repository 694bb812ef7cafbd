/-
  What one `try_atomic_semop` does to values and adjustments.

  An attempt that succeeds has made its operations one after another, and what it
  leaves in the undo structure is the entry of before minus the sum of its SEM_UNDO
  operations, cut to the 16 bits of `semadj`.  The range is checked for each operation
  alone, so the cut is not excluded by the checks.
-/
import LinuxKernel.Ipc.SemQueue

namespace LinuxKernel.Ipc.Sem

open Foundation Function

section

variable {L : Type} [DecidableEq L] {array array' : SemArray L} {un : Option L} {l : L}
  {sops ops : List Sembuf} {evs : List (Option L × List Sembuf × Result)}

/-! ## The values -/

/-- The operations one after another, each of them possible where it is made. -/
inductive Executes : (Nat → Int) → List Sembuf → (Nat → Int) → Prop
  | nil (semval : Nat → Int) : Executes semval [] semval
  | cons {semval semval' : Nat → Int} {sop : Sembuf} {sops : List Sembuf}
      (zero : sop.semOp = 0 → semval sop.semNum = 0)
      (nonneg : 0 ≤ semval sop.semNum + sop.semOp.toInt)
      (le : semval sop.semNum + sop.semOp.toInt ≤ SEMVMX)
      (rest : Executes (Function.update semval sop.semNum (semval sop.semNum + sop.semOp.toInt))
        sops semval') : Executes semval (sop :: sops) semval'

/-- What a successful attempt has done from one operation on. -/
theorem tryFrom_done {sops ops : List Sembuf} {array array' : SemArray L}
    (h : tryFrom array un ops sops = some (array', .done)) :
    Executes array.semval sops array'.semval ∧
      array'.undo = (commitUndo array un (sops.reverse ++ ops)).undo := by
  induction sops generalizing ops array array' with
  | nil =>
    obtain rfl : commitUndo array un ops = array' := by simpa [tryFrom] using h
    refine ⟨?_, rfl⟩
    cases un <;> exact .nil _
  | cons sop sops ih =>
    have hfail (a) : some (a, wouldBlock sop) ≠ some (array', Result.done) := by
      intro ha
      unfold wouldBlock at ha
      split at ha <;> simp at ha
    -- the rest of the loop, when the operation is possible
    have hnext : ¬ (sop.semOp = 0 ∧ array.semval sop.semNum ≠ 0) →
        ¬ array.semval sop.semNum + sop.semOp.toInt < 0 →
        ¬ array.semval sop.semNum + sop.semOp.toInt > SEMVMX →
        tryFrom { array with
            semval := update array.semval sop.semNum
              (array.semval sop.semNum + sop.semOp.toInt) } un (sop :: ops) sops =
          some (array', .done) →
        Executes array.semval (sop :: sops) array'.semval ∧
          array'.undo = (commitUndo array un ((sop :: sops).reverse ++ ops)).undo := by
      intro hzero hneg hmax hrest
      obtain ⟨hvals, hundo⟩ := ih hrest
      refine ⟨.cons (fun h0 => ?_) (by omega) (by omega) hvals, ?_⟩
      · by_contra hne
        exact hzero ⟨h0, hne⟩
      · rw [hundo, List.reverse_cons, List.append_assoc]
        cases un <;> rfl
    rw [tryFrom] at h
    simp only at h
    split at h
    · exact absurd h (hfail _)
    rename_i hzero
    split at h
    · exact absurd h (hfail _)
    rename_i hneg
    split at h
    · simp at h
    rename_i hmax
    split at h
    · split at h
      · cases h
      · split at h
        · simp at h
        · exact hnext hzero hneg hmax h
    · exact hnext hzero hneg hmax h

/-- All or nothing: a successful attempt has made its operations in order, and any other
leaves every value and every adjustment as it was. -/
theorem tryAtomicSemop_all_or_nothing (h : HasUndo array sops un) :
    ∃ array' result, tryAtomicSemop array sops un = some (array', result) ∧
      (result = .done → Executes array.semval sops array'.semval) ∧
      (result ≠ .done → array'.semval = array.semval ∧ array'.undo = array.undo) := by
  obtain ⟨array', result, hrun, hattempt⟩ := tryAtomicSemop_spec h
  refine ⟨array', result, hrun, ?_, ?_⟩
  · rintro rfl
    exact (tryFrom_done hrun).1
  · intro hne
    rw [hattempt.unchanged hne]
    exact ⟨rfl, rfl⟩

/-- Two operations, of which the second one would block. -/
theorem tryAtomicSemop_all_or_nothing_two :
    ∃ array' result, tryAtomicSemop (⟨1, fun _ => 1, fun _ => none⟩ : SemArray Nat)
        [⟨0, -1, false, false⟩, ⟨0, -1, false, false⟩] none = some (array', result) ∧
      (result = .done → Executes (fun _ => 1) [⟨0, -1, false, false⟩, ⟨0, -1, false, false⟩]
        array'.semval) ∧
      (result ≠ .done → array'.semval = (fun _ => 1) ∧ array'.undo = fun _ => none) :=
  tryAtomicSemop_all_or_nothing (by simp [HasUndo])

/-! ## The adjustments -/

/-- The sum of the SEM_UNDO operations on one semaphore. -/
def undoSum (sops : List Sembuf) (i : Nat) : Int :=
  ((sops.filter fun sop => sop.undo && decide (sop.semNum = i)).map fun sop => sop.semOp.toInt).sum

theorem undoSum_cons (sop : Sembuf) (sops : List Sembuf) (i : Nat) : undoSum (sop :: sops) i =
      (if sop.undo = true ∧ sop.semNum = i then sop.semOp.toInt else 0) + undoSum sops i := by
  by_cases h : sop.undo = true ∧ sop.semNum = i
  · simp [undoSum, h]
  · rw [if_neg h, Int.zero_add, undoSum, List.filter_cons_of_neg (by simpa using h)]
    rfl

theorem undoSum_reverse (sops : List Sembuf) (i : Nat) : undoSum sops.reverse i = undoSum sops i := by
  rw [undoSum, List.filter_reverse, List.map_reverse, List.sum_reverse]
  rfl

/-- The second loop of `try_atomic_semop`, in `short`. -/
theorem toInt_commitSemadj (semadj : Nat → Int16) (ops : List Sembuf) (i : Nat) :
    (commitSemadj semadj ops i).toInt = ((semadj i).toInt - undoSum ops i).bmod (2 ^ 16) := by
  induction ops generalizing semadj with
  | nil =>
    have h1 := (semadj i).le_toInt
    have h2 := (semadj i).toInt_lt
    have hsum : undoSum [] i = 0 := rfl
    rw [commitSemadj, hsum, Int.sub_zero, Int.bmod_eq_of_le (by omega) (by omega)]
  | cons sop ops ih =>
    rw [commitSemadj, ih, undoSum_cons]
    by_cases h : sop.undo = true ∧ sop.semNum = i
    · obtain ⟨hundo, rfl⟩ := h
      rw [if_pos hundo, if_pos ⟨hundo, rfl⟩, update_self, Int16.toInt_sub,
        Int.bmod_sub_bmod, Int.sub_sub]
    · rw [if_neg h, Int.zero_add]
      split
      · rename_i hundo
        rw [update_of_ne fun hi => h ⟨hundo, hi.symm⟩]
      · rfl

/-- A value that `semadj` can hold. -/
def Representable (v : Int) : Prop := -SEMAEM - 1 ≤ v ∧ v ≤ SEMAEM
  deriving Decidable

theorem bmod_eq_iff {v : Int} : v.bmod (2 ^ 16) = v ∧ Representable v ↔ Representable v := by
  refine ⟨And.right, fun h => ⟨?_, h⟩⟩
  obtain ⟨h1, h2⟩ := h
  simp only [SEMAEM, SEMVMX] at h1 h2
  exact Int.bmod_eq_of_le (by omega) (by omega)

/-- The entry that a call has to leave. -/
def target (array : SemArray L) (l : L) (sops : List Sembuf) (i : Nat) : Option Int :=
  (array.undo l).map fun semadj => (semadj i).toInt - undoSum sops i

/-- A successful call leaves in every entry what it has to, in the range of `semadj`. -/
def UndoExact (array : SemArray L) (l : L) (sops : List Sembuf) : Prop :=
  ∀ array', tryAtomicSemop array sops (some l) = some (array', .done) → ∀ i v,
    target array l sops i = some v →
    (array'.undo l).map (fun semadj => (semadj i).toInt) = some v ∧ Representable v

/-- A call that succeeds keeps to the range of `semadj`, all its operations taken together. -/
def Fits (array : SemArray L) (call : Option L × List Sembuf) : Prop :=
  ∀ array', tryAtomicSemop array call.2 call.1 = some (array', .done) → ∀ l i v,
    call.1 = some l → target array l call.2 i = some v → Representable v

theorem undo_commit (h : tryAtomicSemop array sops (some l) = some (array', .done)) (i : Nat) :
    (array'.undo l).map (fun semadj => (semadj i).toInt) =
      (target array l sops i).map fun v => v.bmod (2 ^ 16) := by
  rw [(tryFrom_done h).2]
  simp only [commitUndo, update_self, target, Option.map_map]
  congr 1
  funext semadj
  simp [toInt_commitSemadj, undoSum_reverse]

theorem undoExact_iff (array : SemArray L) (l : L) (sops : List Sembuf) :
    UndoExact array l sops ↔ Fits array (some l, sops) := by
  refine forall_congr' fun array' => forall_congr' fun hrun => ⟨?_, ?_⟩
  · rintro h l' i v ⟨⟩ hv
    exact (h i v hv).2
  · intro h i v hv
    have hfit := h l i v rfl hv
    rw [undo_commit hrun, hv]
    exact ⟨congrArg some (bmod_eq_iff.mpr hfit).1, hfit⟩

/-! ## Histories -/

/-- One call of `try_atomic_semop` on the array, by any process. -/
def semopStep (array : SemArray L) (call : Option L × List Sembuf) :
    Option (SemArray L × List (Option L × List Sembuf × Result)) :=
  (tryAtomicSemop array call.2 call.1).map fun (array, result) => (array, [(call.1, call.2, result)])

/-- The undo structure is there, and the call fits. -/
def FitCall (array : SemArray L) (call : Option L × List Sembuf) : Prop :=
  HasUndo array call.2 call.1 ∧ Fits array call

/-- What the successful calls with an undo structure have asked to undo. -/
def undoTotal (l : L) (evs : List (Option L × List Sembuf × Result)) (i : Nat) : Int :=
  (evs.map fun ev => if ev.1 = some l ∧ ev.2.2 = .done then undoSum ev.2.1 i else 0).sum

/-- The entries of an undo structure add up the calls so far. -/
theorem semadj_eq_total {array0 : SemArray L} (h0 : array0.undo l = some fun _ => 0)
    (hrun : RunWith FitCall semopStep array0 evs array) :
    ∃ semadj, array.undo l = some semadj ∧ ∀ i, (semadj i).toInt = -undoTotal l evs i := by
  induction hrun with
  | refl => exact ⟨_, h0, fun _ => rfl⟩
  | @tail t u evs new call _ hcall hstep ih =>
    obtain ⟨semadj, hsemadj, htotal⟩ := ih
    obtain ⟨un, sops⟩ := call
    obtain ⟨⟨_, result⟩, htry, heq⟩ := Option.map_eq_some_iff.mp hstep
    obtain ⟨rfl, rfl⟩ := Prod.mk.inj heq
    have hsum (i) : undoTotal l (evs ++ [(un, sops, result)]) i = undoTotal l evs i +
          if un = some l ∧ result = .done then undoSum sops i else 0 := by
      simp [undoTotal]
    by_cases hmine : un = some l ∧ result = .done
    · obtain ⟨rfl, rfl⟩ := hmine
      have hexact := (undoExact_iff t l sops).mpr hcall.2 _ htry
      have hsome (i) : target t l sops i = some ((semadj i).toInt - undoSum sops i) := by
        simp [target, hsemadj]
      obtain ⟨semadj', hsemadj', -⟩ := Option.map_eq_some_iff.mp (hexact 0 _ (hsome 0)).1
      refine ⟨semadj', hsemadj', fun i => ?_⟩
      have hi := (hexact i _ (hsome i)).1
      rw [hsemadj'] at hi
      have hi : (semadj' i).toInt = (semadj i).toInt - undoSum sops i := Option.some.inj hi
      rw [hsum, if_pos ⟨rfl, rfl⟩, hi, htotal]
      omega
    · refine ⟨semadj, ?_, fun i => by rw [hsum, if_neg hmine, htotal, Int.add_zero]⟩
      rw [← hsemadj]
      obtain ⟨_, _, htry', hattempt⟩ := tryAtomicSemop_spec hcall.1
      obtain ⟨rfl, rfl⟩ := Prod.mk.inj (Option.some.inj (htry.symm.trans htry'))
      by_cases hdone : result = .done
      · subst hdone
        rw [(tryFrom_done htry).2]
        cases un with
        | none => rfl
        | some l' => exact update_of_ne (fun hl => hmine ⟨congrArg some hl.symm, rfl⟩) ..
      · rw [hattempt.unchanged hdone]

end

end LinuxKernel.Ipc.Sem
