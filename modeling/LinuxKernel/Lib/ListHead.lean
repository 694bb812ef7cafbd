/-
  The kernel's doubly linked lists.

  Source: include/linux/list.h, `INIT_LIST_HEAD`, `__list_add`, `list_add_tail`,
  `__list_del`, `list_del_init`, `list_move_tail`, `list_empty`.

  A list is a ring through its head.
-/
import LinuxKernel.Foundation.Ring

namespace LinuxKernel.Lib.ListHead

open Foundation List

variable {L : Type} [DecidableEq L]

/-- `INIT_LIST_HEAD` -/
def initListHead (links : Links L) (list : L) : Links L := links.join list list

/-- `__list_add` -/
def listAdd (links : Links L) (new prev next : L) : Links L := (links.join new next).join prev new

/-- `list_add_tail` -/
def listAddTail (links : Links L) (new head : L) : Links L :=
  listAdd links new (links.prev head) head

/-- `__list_del` -/
def listDel (links : Links L) (prev next : L) : Links L := links.join prev next

/-- `list_del_init` -/
def listDelInit (links : Links L) (entry : L) : Links L :=
  initListHead (listDel links (links.prev entry) (links.next entry)) entry

/-- `list_move_tail` -/
def listMoveTail (links : Links L) (list head : L) : Links L :=
  listAddTail (listDel links (links.prev list) (links.next list)) list head

/-- `list_empty` -/
def listEmpty (links : Links L) (head : L) : Bool := links.next head = head

/-! ## What they do to a ring -/

variable {links : Links L} {h a n z : L} {l l1 l2 : List L}

theorem listEmpty_of_alone (halone : links.Alone z) : listEmpty links z = true :=
  decide_eq_true halone.next

theorem listEmpty_of_ring (hr : Ring links h (l1 ++ a :: l2)) : listEmpty links a = false :=
  decide_eq_false hr.next_ne

omit [DecidableEq L] in
/-- The neighbours of a place in a ring are in the ring. -/
theorem ne_neighbours (hz : z ∉ h :: (l1 ++ l2)) : z ≠ l1.getLastD h ∧ z ≠ l2.headD h :=
  ⟨fun heq => hz (((sublist_append_left l1 l2).cons_cons h).subset (heq ▸ getLastD_mem_cons)),
    fun heq => hz (((sublist_append_right l1 l2).cons_cons h).subset (heq ▸ headD_mem l2 h))⟩

/-- `list_add_tail` in front of the records `l2`, or of the head if there are none. -/
theorem listAddTail_ring (hr : Ring links h (l1 ++ l2)) (hnew : n ∉ h :: (l1 ++ l2)) :
    Ring (listAddTail links n (l2.headD h)) h (l1 ++ n :: l2) ∧
      ∀ z, z ≠ n → z ∉ h :: (l1 ++ l2) → links.Kept (listAddTail links n (l2.headD h)) z := by
  unfold listAddTail listAdd
  rw [hr.prev_eq]
  refine ⟨hr.insert hnew, fun z hzn hz => ?_⟩
  obtain ⟨hlast, hfirst⟩ := ne_neighbours hz
  exact (Links.kept_join hzn hfirst).trans (Links.kept_join hlast hzn)

/-- `__list_del` with the neighbours of a record. -/
theorem listDel_ring (hr : Ring links h (l1 ++ a :: l2)) :
    Ring (listDel links (links.prev a) (links.next a)) h (l1 ++ l2) ∧
      ∀ z, z ∉ h :: (l1 ++ l2) → links.Kept (listDel links (links.prev a) (links.next a)) z := by
  obtain ⟨hprev, hnext⟩ := hr.neighbours
  rw [hprev, hnext]
  refine ⟨hr.remove, fun z hz => ?_⟩
  obtain ⟨hlast, hfirst⟩ := ne_neighbours hz
  exact Links.kept_join hlast hfirst

/-- `list_del_init` -/
theorem listDelInit_ring (hr : Ring links h (l1 ++ a :: l2)) :
    Ring (listDelInit links a) h (l1 ++ l2) ∧ (listDelInit links a).Alone a ∧
      ∀ z, z ≠ a → z ∉ h :: (l1 ++ l2) → links.Kept (listDelInit links a) z := by
  obtain ⟨hring, hkept⟩ := listDel_ring hr
  have ha : a ∉ h :: (l1 ++ l2) := by
    intro hmem
    refine (nodup_cons.mp hr.rotate.nodup).1 ?_
    rcases mem_cons.mp hmem with rfl | hmem
    · exact mem_append_cons_self
    · rcases mem_append.mp hmem with hmem | hmem
      · exact mem_append_right _ (mem_cons_of_mem _ hmem)
      · exact mem_append_left _ hmem
  refine ⟨hring.congr fun z hz => ?_, Links.alone_join_self _ a, fun z hza hz => ?_⟩
  · have hza : z ≠ a := fun heq => ha (heq ▸ hz)
    exact Links.kept_join hza hza
  · exact (hkept z hz).trans (Links.kept_join hza hza)

/-- `list_del_init` of a record that is on no list. -/
theorem listDelInit_alone (halone : links.Alone a) : listDelInit links a = links := by
  unfold listDelInit listDel initListHead
  rw [halone.prev, halone.next, halone.join_self, halone.join_self]

/-- `list_move_tail` of a record that is on no list. -/
theorem listMoveTail_alone (halone : links.Alone n) (z : L) :
    listMoveTail links n z = listAddTail links n z := by
  unfold listMoveTail listDel
  rw [halone.prev, halone.next, halone.join_self]

/-- Seen from `a`, the next record goes from the beginning of the circle to its end,
and then `a` is left out. -/
theorem moveNext_ring {b : L} (hr : Ring links a (b :: l)) :
    Ring (listDelInit (listMoveTail links b a) a) b l ∧
      (listDelInit (listMoveTail links b a) a).Alone a ∧
      ∀ z, z ∉ a :: b :: l → links.Kept (listDelInit (listMoveTail links b a) a) z := by
  have hb : b ∉ a :: (l ++ []) := by
    rw [append_nil]
    exact (nodup_cons.mp ((List.Perm.swap b a l).nodup_iff.mp hr.nodup)).1
  have hr' : Ring links a ([] ++ b :: l) := hr
  obtain ⟨hdel, hkept1⟩ := listDel_ring hr'
  rw [nil_append, ← append_nil l] at hdel
  obtain ⟨hadd, hkept2⟩ := listAddTail_ring hdel hb
  have hadd' := hadd.rotate
  obtain ⟨hout, halone, hkept3⟩ := listDelInit_ring hadd'
  refine ⟨hout, halone, fun z hz => ?_⟩
  obtain ⟨hza, hzb, hzl⟩ : z ≠ a ∧ z ≠ b ∧ z ∉ l := by simpa using hz
  refine ((hkept1 z ?_).trans (hkept2 z hzb ?_)).trans (hkept3 z hza ?_)
  · simp [hza, hzl]
  · simp [hza, hzl]
  · simp [hzb, hzl]

/-- The record behind `a` takes the place of `a`, although it is the next one anyway;
it may be the head itself. -/
theorem replaceByNext_ring (hr : Ring links h (l1 ++ a :: l2)) :
    Ring (listDelInit (listMoveTail links (links.next a) a) a) h (l1 ++ l2) ∧
      (listDelInit (listMoveTail links (links.next a) a) a).Alone a ∧
      ∀ z, z ∉ h :: (l1 ++ a :: l2) →
        links.Kept (listDelInit (listMoveTail links (links.next a) a) a) z := by
  have hrot := hr.rotate
  rw [hr.neighbours.2]
  cases l2 with
  | nil =>
    obtain ⟨hring, halone, hkept⟩ := moveNext_ring hrot
    rw [append_nil]
    refine ⟨hring, halone, fun z hz => hkept z ?_⟩
    intro hmem
    refine hz ?_
    simp only [mem_cons, mem_append] at hmem ⊢
    tauto
  | cons b l2 =>
    rw [cons_append] at hrot
    obtain ⟨hring, halone, hkept⟩ := moveNext_ring hrot
    refine ⟨hring.rotate, halone, fun z hz => hkept z ?_⟩
    intro hmem
    refine hz ?_
    simp only [mem_cons, mem_append] at hmem ⊢
    tauto

end LinuxKernel.Lib.ListHead
