/-
  Circular doubly linked lists in memory.

  `Links` is a memory of records with a link to the next and one to the previous
  record.  `Ring links h l` says that the records `h :: l` are linked in a circle in
  this order.  Each direction of the circle is a path; what inserting and removing a
  record does is shown for one path, and holds for the other one by reversal.  A
  circle has no distinguished first record (`Ring.rotate`).
-/
import Mathlib

namespace LinuxKernel.Foundation

open Function List

variable {L : Type} {l1 l : List L} {x : L}

/-! ## Paths -/

/-- From `x` the links `f` lead through the records `l` to `y`. -/
def Path (f : L → L) : L → List L → L → Prop
  | x, [], y => f x = y
  | x, a :: l, y => f x = a ∧ Path f a l y

namespace Path

variable {f g : L → L} {y z a : L} {l2 : List L}

theorem append : Path f x (l1 ++ a :: l2) y ↔
      Path f x l1 a ∧ Path f a l2 y := by
  induction l1 generalizing x with
  | nil => exact Iff.rfl
  | cons b l1 ih => simp [Path, ih, and_assoc]

theorem first (h : Path f x l y) : f x = l.headD y := by
  cases l with
  | nil => exact h
  | cons a l => exact h.1

/-- A path may begin elsewhere, and only the links of its records matter. -/
theorem congr {z : L} (h : Path f x l y) (hz : g z = f x) (hsame : ∀ a ∈ l, g a = f a) :
    Path g z l y := by
  induction l generalizing x z with
  | nil => exact hz.trans h
  | cons a l ih =>
    exact ⟨hz.trans h.1, ih h.2 (hsame a mem_cons_self) fun b hb => hsame b (mem_cons_of_mem a hb)⟩

/-- A path is a path to where its rest begins, and the rest begins at its last record. -/
theorem split : Path f x (l1 ++ l2) y ↔
      Path f x l1 (l2.headD y) ∧ Path f (l1.getLastD x) l2 y := by
  induction l1 generalizing x with
  | nil => exact ⟨fun h => ⟨h.first, h⟩, fun h => h.2⟩
  | cons b l1 ih => simp only [cons_append, Path, ih, getLastD_cons, and_assoc]

/-- The last record is linked to another end. -/
theorem setLast [DecidableEq L] (h : Path f x l y) (hnodup : (x :: l).Nodup) :
    Path (update f (l.getLastD x) z) x l z := by
  induction l generalizing x with
  | nil => exact update_self ..
  | cons a l ih =>
    obtain ⟨hx, hnodup'⟩ := nodup_cons.mp hnodup
    have hne : x ≠ l.getLastD a := fun heq => hx (heq ▸ getLastD_mem_cons)
    rw [getLastD_cons]
    exact ⟨(update_of_ne hne ..).trans h.1, ih h.2 hnodup'⟩

section

variable [DecidableEq L] {n : L}

/-- A record is linked in behind the records `l1`. -/
theorem insert (h : Path f x (l1 ++ l2) y) (hnodup : (x :: (l1 ++ l2)).Nodup)
    (hnew : n ∉ x :: (l1 ++ l2)) : Path (update (update f n (l2.headD y)) (l1.getLastD x) n) x
      (l1 ++ n :: l2) y := by
  obtain ⟨h1, h2⟩ := split.mp h
  rw [← cons_append] at hnodup hnew
  obtain ⟨hnd1, -, hapart⟩ := nodup_append.mp hnodup
  obtain ⟨hnew1, hnew2⟩ : n ∉ x :: l1 ∧ n ∉ l2 := by
    rw [mem_append] at hnew
    exact ⟨fun hn => hnew (.inl hn), fun hn => hnew (.inr hn)⟩
  have hlast : l1.getLastD x ∈ x :: l1 := getLastD_mem_cons
  have hne : n ≠ l1.getLastD x := fun heq => hnew1 (heq ▸ hlast)
  rw [append]
  constructor
  · refine setLast (h1.congr ?_ ?_) hnd1
    · have hxn : x ≠ n := fun heq => hnew1 (heq ▸ mem_cons_self)
      exact update_of_ne hxn ..
    · intro a ha
      have han : a ≠ n := fun heq => hnew1 (heq ▸ mem_cons_of_mem x ha)
      exact update_of_ne han ..
  · refine h2.congr ?_ ?_
    · rw [update_of_ne hne, update_self, h2.first]
    · intro a ha
      have halast : a ≠ l1.getLastD x := fun heq => hapart _ hlast _ ha heq.symm
      have han : a ≠ n := fun heq => hnew2 (heq ▸ ha)
      rw [update_of_ne halast, update_of_ne han]

/-- The record behind the records `l1` is left out. -/
theorem remove (h : Path f x (l1 ++ n :: l2) y) (hnodup : (x :: (l1 ++ n :: l2)).Nodup) :
    Path (update f (l1.getLastD x) (l2.headD y)) x (l1 ++ l2) y := by
  obtain ⟨h1, h2⟩ := append.mp h
  rw [← cons_append] at hnodup
  obtain ⟨hnd1, -, hapart⟩ := nodup_append.mp hnodup
  have hlast : l1.getLastD x ∈ x :: l1 := getLastD_mem_cons
  refine split.mpr ⟨h1.setLast hnd1, h2.congr ?_ ?_⟩
  · rw [update_self, h2.first]
  · intro a ha
    exact update_of_ne (fun heq => hapart _ hlast _ (mem_cons_of_mem n ha) heq.symm) ..

end

end Path

/-! ## Circles -/

theorem headD_reverse (l : List L) (x : L) : l.reverse.headD x = l.getLastD x := by
  rw [headD_eq_head?_getD, head?_reverse, getLastD_eq_getLast?]

theorem getLastD_reverse (l : List L) (x : L) : l.reverse.getLastD x = l.headD x := by
  rw [headD_eq_head?_getD, getLastD_eq_getLast?, getLast?_reverse]

theorem headD_mem (l : List L) (x : L) : l.headD x ∈ x :: l := by
  cases l with
  | nil => exact mem_cons_self
  | cons a l => exact mem_cons_of_mem x mem_cons_self

structure Links (L : Type) where
  next : L → L
  prev : L → L

/-- The records `h :: l` are linked in a circle. -/
structure Ring (links : Links L) (h : L) (l : List L) : Prop where
  nodup : (h :: l).Nodup
  next : Path links.next h l h
  prev : Path links.prev h l.reverse h

/-- `x` is linked to itself. -/
structure Links.Alone (links : Links L) (x : L) : Prop where
  next : links.next x = x
  prev : links.prev x = x

/-- `links'` has the links of `x` that `links` has. -/
structure Links.Kept (links links' : Links L) (x : L) : Prop where
  next : links'.next x = links.next x
  prev : links'.prev x = links.prev x

theorem Links.Kept.trans {links links' links'' : Links L} (h : links.Kept links' x)
    (h' : links'.Kept links'' x) : links.Kept links'' x :=
  ⟨h'.next.trans h.next, h'.prev.trans h.prev⟩

theorem Links.Kept.alone {links links' : Links L} (h : links.Kept links' x)
    (halone : links.Alone x) : links'.Alone x :=
  ⟨h.next.trans halone.next, h.prev.trans halone.prev⟩

namespace Ring

variable {links : Links L} {h a : L} {l2 : List L}

theorem single (halone : links.Alone h) : Ring links h [] :=
  ⟨nodup_singleton h, halone.next, halone.prev⟩

/-- Any record of a circle may be taken as the first one. -/
theorem rotate (hr : Ring links h (l1 ++ a :: l2)) : Ring links a (l2 ++ h :: l1) := by
  obtain ⟨hnodup, hnext, hprev⟩ := hr
  rw [reverse_append, reverse_cons, append_assoc] at hprev
  refine ⟨?_, ?_, ?_⟩
  · have hperm : (a :: (l2 ++ h :: l1)).Perm (h :: (l1 ++ a :: l2)) := by
      rw [← cons_append]
      exact perm_append_comm
    exact hperm.nodup_iff.mpr hnodup
  · exact Path.append.mpr (Path.append.mp hnext).symm
  · rw [reverse_append, reverse_cons, append_assoc]
    exact Path.append.mpr (Path.append.mp hprev).symm

/-- Only the links of the records of the circle matter. -/
theorem congr {links' : Links L} (hr : Ring links h l)
    (hsame : ∀ z ∈ h :: l, links.Kept links' z) : Ring links' h l := by
  refine ⟨hr.nodup, hr.next.congr (hsame h mem_cons_self).next ?_,
    hr.prev.congr (hsame h mem_cons_self).prev ?_⟩
  · intro z hz
    exact (hsame z (mem_cons_of_mem h hz)).next
  · intro z hz
    exact (hsame z (mem_cons_of_mem h (mem_reverse.mp hz))).prev

/-- The record in front of the records `l2`. -/
theorem prev_eq (hr : Ring links h (l1 ++ l2)) : links.prev (l2.headD h) = l1.getLastD h := by
  have hprev := hr.prev
  rw [reverse_append] at hprev
  have hfirst := (Path.split.mp hprev).2.first
  rwa [getLastD_reverse, headD_reverse] at hfirst

/-- The neighbours of a record. -/
theorem neighbours (hr : Ring links h (l1 ++ a :: l2)) :
    links.prev a = l1.getLastD h ∧ links.next a = l2.headD h :=
  ⟨hr.prev_eq, (Path.append.mp hr.next).2.first⟩

/-- A record of a circle with others is not alone. -/
theorem next_ne (hr : Ring links h (l1 ++ a :: l2)) : links.next a ≠ a := by
  intro heq
  have hfirst := hr.neighbours.2
  have hnodup := hr.rotate.nodup
  rw [heq] at hfirst
  refine (nodup_cons.mp hnodup).1 ?_
  cases l2 <;> exact hfirst ▸ mem_cons_self

end Ring

/-! ## Linking and unlinking -/

section

variable [DecidableEq L] {links : Links L} {h a n y z : L} {l2 : List L}

/-- `y->prev = x; x->next = y` -/
def Links.join (links : Links L) (x y : L) : Links L :=
  ⟨Function.update links.next x y, Function.update links.prev y x⟩

theorem Links.kept_join (hx : z ≠ x) (hy : z ≠ y) : links.Kept (links.join x y) z :=
  ⟨update_of_ne hx .., update_of_ne hy ..⟩

theorem Links.alone_join_self (links : Links L) (x : L) : (links.join x x).Alone x :=
  ⟨update_self .., update_self ..⟩

/-- Joining a record that is alone to itself changes nothing. -/
theorem Links.Alone.join_self (halone : links.Alone x) : links.join x x = links := by
  unfold Links.join
  rw [update_eq_self_iff.mpr halone.next.symm, update_eq_self_iff.mpr halone.prev.symm]

namespace Ring

/-- `n` is linked in between the records `l1` and the records `l2`. -/
theorem insert (hr : Ring links h (l1 ++ l2)) (hnew : n ∉ h :: (l1 ++ l2)) :
    Ring ((links.join n (l2.headD h)).join (l1.getLastD h) n) h (l1 ++ n :: l2) := by
  have hperm : (h :: (l1 ++ n :: l2)).Perm (n :: h :: (l1 ++ l2)) :=
    (perm_middle.cons h).trans (List.Perm.swap n h _)
  refine ⟨hperm.nodup_iff.mpr (nodup_cons.mpr ⟨hnew, hr.nodup⟩), hr.next.insert hr.nodup hnew, ?_⟩
  have hprev := hr.prev
  have hnodup : (h :: (l2.reverse ++ l1.reverse)).Nodup := by
    rw [← reverse_append]
    exact ((reverse_perm _).cons h).nodup_iff.mpr hr.nodup
  have hnew' : n ∉ h :: (l2.reverse ++ l1.reverse) := by
    rw [← reverse_append]
    exact fun hn => hnew (((reverse_perm _).cons h).mem_iff.mp hn)
  rw [reverse_append] at hprev
  -- in the other direction `n` comes behind `l2`; the order of the two writes does not matter
  have hpath := hprev.insert hnodup hnew'
  rw [headD_reverse, getLastD_reverse] at hpath
  have hne : n ≠ l2.headD h := fun heq =>
    hnew (((sublist_append_right l1 l2).cons_cons h).subset (heq ▸ headD_mem l2 h))
  rw [reverse_append, reverse_cons, append_assoc]
  unfold Links.join
  rw [update_comm hne.symm]
  exact hpath

/-- `a` is left out. -/
theorem remove (hr : Ring links h (l1 ++ a :: l2)) :
    Ring (links.join (l1.getLastD h) (l2.headD h)) h (l1 ++ l2) := by
  have hsub : (h :: (l1 ++ l2)).Sublist (h :: (l1 ++ a :: l2)) :=
    ((sublist_cons_self a l2).append_left l1).cons_cons h
  refine ⟨hr.nodup.sublist hsub, hr.next.remove hr.nodup, ?_⟩
  have hprev := hr.prev
  have hnodup : (h :: (l2.reverse ++ a :: l1.reverse)).Nodup := by
    have hperm := ((reverse_perm (l1 ++ a :: l2)).cons h).nodup_iff.mpr hr.nodup
    rwa [reverse_append, reverse_cons, append_assoc, singleton_append] at hperm
  rw [reverse_append, reverse_cons, append_assoc, singleton_append] at hprev
  have hpath := hprev.remove hnodup
  rw [headD_reverse, getLastD_reverse] at hpath
  rw [reverse_append]
  exact hpath

end Ring

end

end LinuxKernel.Foundation
