/-
  Singly linked lists in memory.

  Memory is a function `slot` from locations to pointers; `next a` is the location
  of the link field of the record at `a`.  `Chain next slot p l` says that the
  list which starts at location `p` consists of the records `l`.  The location
  where a list goes on after a prefix of its records is `endLoc`: this is what a
  pointer to a link, as in `struct node **p`, walks through.
-/
import Mathlib

namespace LinuxKernel.Foundation

open Function List

variable {L α : Type} {next : α → L} {slot slot' : L → Option α} {l : List α} {p : L}

/-- The records `l` are linked from `p` on. -/
def Segment (next : α → L) (slot : L → Option α) : L → List α → Prop
  | _, [] => True
  | p, a :: l => slot p = some a ∧ Segment next slot (next a) l

/-- The location behind the records `l`. -/
def endLoc (next : α → L) : L → List α → L
  | p, [] => p
  | _, a :: l => endLoc next (next a) l

/-- The records `l` are linked from `p` on, and the list ends there. -/
def Chain (next : α → L) (slot : L → Option α) (p : L) (l : List α) : Prop :=
  Segment next slot p l ∧ slot (endLoc next p l) = none

/-- The locations of a list. -/
def locs (next : α → L) (p : L) (l : List α) : List L := p :: l.map next

@[simp] theorem endLoc_nil (p : L) : endLoc next p [] = p := rfl
@[simp] theorem endLoc_cons (p : L) (a : α) (l : List α) :
    endLoc next p (a :: l) = endLoc next (next a) l := rfl

theorem endLoc_append (l1 l2 : List α) (p : L) :
    endLoc next p (l1 ++ l2) = endLoc next (endLoc next p l1) l2 := by
  induction l1 generalizing l2 p with
  | nil => rfl
  | cons a l1 ih => exact ih l2 (next a)

theorem endLoc_mem (next : α → L) (l : List α) (p : L) : endLoc next p l ∈ locs next p l := by
  induction l generalizing p with
  | nil => simp [locs]
  | cons a l ih => exact mem_cons_of_mem p (ih (next a))

theorem segment_append (l1 l2 : List α) (p : L) : Segment next slot p (l1 ++ l2) ↔
      Segment next slot p l1 ∧ Segment next slot (endLoc next p l1) l2 := by
  induction l1 generalizing l2 p with
  | nil => simp [Segment]
  | cons a l1 ih => simp [Segment, ih, and_assoc]

theorem chain_append (l1 l2 : List α) (p : L) : Chain next slot p (l1 ++ l2) ↔
      Segment next slot p l1 ∧ Chain next slot (endLoc next p l1) l2 := by
  simp [Chain, segment_append, endLoc_append, and_assoc]

theorem chain_nil (p : L) : Chain next slot p [] ↔ slot p = none := by simp [Chain, Segment]

theorem chain_cons (p : L) (a : α) (l : List α) :
    Chain next slot p (a :: l) ↔ slot p = some a ∧ Chain next slot (next a) l := by
  simp [Chain, Segment, and_assoc]

/-- The first pointer of a list. -/
theorem Chain.slot_eq (h : Chain next slot p l) : slot p = l.head? := by
  cases l with
  | nil => exact (chain_nil p).mp h
  | cons a l => exact ((chain_cons p a l).mp h).1

/-- What is linked from a location is the beginning of its list. -/
theorem Chain.mem_of_segment {l l' : List α} (h : Chain next slot p l)
    (h' : Segment next slot p l') : ∀ a ∈ l', a ∈ l := by
  induction l generalizing l' p with
  | nil =>
    intro a ha
    cases l' with
    | nil => simp at ha
    | cons b l' => simp [Segment, (chain_nil p).mp h] at h'
  | cons b l ih =>
    intro a ha
    obtain ⟨hb, hl⟩ := (chain_cons p b l).mp h
    cases l' with
    | nil => simp at ha
    | cons c l' =>
      obtain ⟨hc, hl'⟩ := h'
      obtain rfl : b = c := by simpa [hb] using hc
      rcases mem_cons.mp ha with rfl | ha
      · exact mem_cons_self
      · exact mem_cons_of_mem b (ih hl hl' a ha)

/-- A segment looks at its locations except the last one. -/
theorem Segment.congr (h : Segment next slot p l) (hnodup : (locs next p l).Nodup)
    (hsame : ∀ loc ∈ locs next p l, loc ≠ endLoc next p l → slot' loc = slot loc) :
    Segment next slot' p l := by
  induction l generalizing p with
  | nil => trivial
  | cons a l ih =>
    obtain ⟨hp, hl⟩ := h
    obtain ⟨hpn, hnodup'⟩ := nodup_cons.mp hnodup
    refine ⟨?_, ih hl hnodup' fun loc hloc hne => hsame loc (mem_cons_of_mem p hloc) hne⟩
    have hne : p ≠ endLoc next p (a :: l) := by
      intro heq
      refine hpn ?_
      rw [heq]
      exact endLoc_mem next l (next a)
    rw [hsame p mem_cons_self hne, hp]

/-- A list may be read from another location with the same pointer, in a memory
that has the same links. -/
theorem Chain.congr {p' : L} (h : Chain next slot p l) (hp : slot' p' = slot p)
    (hsame : ∀ a ∈ l, slot' (next a) = slot (next a)) : Chain next slot' p' l := by
  induction l generalizing p p' with
  | nil =>
    rw [chain_nil] at h ⊢
    rw [hp, h]
  | cons a l ih =>
    rw [chain_cons] at h ⊢
    exact ⟨hp.trans h.1, ih h.2 (hsame a mem_cons_self) fun b hb => hsame b (mem_cons_of_mem a hb)⟩

/-- A segment that is closed behind its last record is a list. -/
theorem Segment.close {a : α} {p' : L} (h : Segment next slot p (a :: l))
    (hnodup : (locs next p (a :: l)).Nodup) (hp : slot' p' = slot p)
    (hsame : ∀ b ∈ a :: l, next b ≠ endLoc next p (a :: l) → slot' (next b) = slot (next b))
    (hend : slot' (endLoc next p (a :: l)) = none) : Chain next slot' p' (a :: l) := by
  obtain ⟨hfirst, hrest⟩ := h
  obtain ⟨-, hnodup'⟩ := nodup_cons.mp hnodup
  refine ⟨⟨hp.trans hfirst, hrest.congr hnodup' ?_⟩, hend⟩
  intro loc hloc hne
  obtain ⟨b, hb, rfl⟩ : ∃ b ∈ a :: l, next b = loc := mem_map.mp hloc
  exact hsame b hb hne

/-! ## Linking and unlinking -/

section

variable [DecidableEq L] {l1 l2 : List α} {a : α}

/-- `new->next = *q; *q = new` behind the records `l1`. -/
theorem Chain.insert (h : Chain next slot p (l1 ++ l2)) (hnodup : (locs next p (l1 ++ l2)).Nodup)
    (hnew : next a ∉ locs next p (l1 ++ l2)) :
    Chain next (update (update slot (next a) (slot (endLoc next p l1)))
      (endLoc next p l1) (some a)) p (l1 ++ a :: l2) := by
  obtain ⟨hseg, hrest⟩ := (chain_append l1 l2 p).mp h
  have hsplit : locs next p (l1 ++ l2) = locs next p l1 ++ l2.map next := by simp [locs]
  rw [hsplit] at hnodup hnew
  obtain ⟨hnd1, -, hapart⟩ := nodup_append.mp hnodup
  have hend := endLoc_mem next l1 p
  have hne : next a ≠ endLoc next p l1 := fun heq => hnew (mem_append_left _ (heq ▸ hend))
  rw [chain_append]
  refine ⟨hseg.congr hnd1 ?_, (chain_cons _ _ _).mpr ⟨update_self .., hrest.congr ?_ ?_⟩⟩
  · intro loc hloc hloc'
    have hloc'' : loc ≠ next a := fun heq => hnew (mem_append_left _ (heq ▸ hloc))
    rw [update_of_ne hloc', update_of_ne hloc'']
  · rw [update_of_ne hne, update_self]
  · intro b hb
    have hb' : next b ∈ l2.map next := mem_map_of_mem hb
    have hbend : next b ≠ endLoc next p l1 := fun heq => hapart _ hend _ hb' heq.symm
    have hba : next b ≠ next a := fun heq => hnew (mem_append_right _ (heq ▸ hb'))
    rw [update_of_ne hbend, update_of_ne hba]

/-- `*q = a->next` behind the records `l1`. -/
theorem Chain.remove (h : Chain next slot p (l1 ++ a :: l2))
    (hnodup : (locs next p (l1 ++ a :: l2)).Nodup) :
    Chain next (update slot (endLoc next p l1) (slot (next a))) p (l1 ++ l2) := by
  obtain ⟨hseg, hrest⟩ := (chain_append l1 (a :: l2) p).mp h
  obtain ⟨-, hrest⟩ := (chain_cons _ _ _).mp hrest
  have hsplit : locs next p (l1 ++ a :: l2) = locs next p l1 ++ next a :: l2.map next := by
    simp [locs]
  rw [hsplit] at hnodup
  obtain ⟨hnd1, -, hapart⟩ := nodup_append.mp hnodup
  have hend := endLoc_mem next l1 p
  rw [chain_append]
  refine ⟨hseg.congr hnd1 ?_, hrest.congr (update_self ..) ?_⟩
  · intro loc _ hloc'
    exact update_of_ne hloc' ..
  · intro b hb
    refine update_of_ne ?_ ..
    intro heq
    exact hapart _ hend _ (mem_cons_of_mem _ (mem_map_of_mem hb)) heq.symm

end

end LinuxKernel.Foundation
