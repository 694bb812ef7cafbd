/-
  The main loop of `__posix_lock_file`.

  The loop walks over the locks of one owner.  `ScanInv` relates what it has left of
  them to the locks at the beginning: outside the current range of `request` nothing
  has changed, and what the range has gained was locked with the same type.
-/
import LinuxKernel.Fs.Locks

namespace LinuxKernel.Fs.Locks

open Foundation Function List

/-! ## Locks as values -/

section

variable {ω : Type} {vs ws : List (FileLock ω)} {v w : FileLock ω} {x : Int} {ty : LockType}
  {α : Type}

/-- One of the locks covers the byte. -/
def Held (vs : List (FileLock ω)) (x : Int) (ty : LockType) : Prop :=
  ∃ v ∈ vs, v.start ≤ x ∧ x ≤ v.stop ∧ v.type = ty

/-- The first lock ends before the second one starts, with a byte between them if they
could be merged. -/
def Before (v w : FileLock ω) : Prop := v.stop < w.start ∧ (v.type = w.type → v.stop + 1 < w.start)

/-- Sorted, disjoint, and merged where possible. -/
abbrev Separated (vs : List (FileLock ω)) : Prop := vs.Pairwise Before

/-- A lock that an owner may hold. -/
structure Valid (owner : ω) (v : FileLock ω) : Prop where
  owner : v.owner = owner
  type : v.type ≠ .UNLCK
  start : 0 ≤ v.start
  le : v.start ≤ v.stop
  stop : v.stop ≤ OFFSET_MAX

theorem separated_append : Separated (vs ++ ws) ↔
    Separated vs ∧ Separated ws ∧ ∀ v ∈ vs, ∀ w ∈ ws, Before v w :=
  pairwise_append

@[simp] theorem held_nil : ¬ Held ([] : List (FileLock ω)) x ty := by simp [Held]

@[simp] theorem held_append : Held (vs ++ ws) x ty ↔ Held vs x ty ∨ Held ws x ty := by
  simp only [Held, mem_append, or_and_right, exists_or]

@[simp] theorem held_cons :
    Held (v :: vs) x ty ↔ (v.start ≤ x ∧ x ≤ v.stop ∧ v.type = ty) ∨ Held vs x ty := by
  simp only [Held, mem_cons, or_and_right, exists_or, exists_eq_left]

theorem Held.elim (h : Held vs x ty) {p : Prop} (hp : ∀ v ∈ vs, v.start ≤ x → x ≤ v.stop →
    v.type = ty → p) : p := by
  obtain ⟨v, hv, h1, h2, h3⟩ := h
  exact hp v hv h1 h2 h3

theorem held_map {l : List α} {f : α → FileLock ω} : Held (l.map f) x ty ↔
    ∃ a ∈ l, (f a).start ≤ x ∧ x ≤ (f a).stop ∧ (f a).type = ty := by
  simp only [Held, mem_map, exists_exists_and_eq_and]

/-- Nothing is held in front of the first lock. -/
theorem not_held_of_lt {l : List α} {f : α → FileLock ω}
    (h : ∀ a ∈ l, x < (f a).start) : ¬ Held (l.map f) x ty := by
  rw [held_map]
  rintro ⟨a, ha, h1, -, -⟩
  have := h a ha
  omega

/-- Nothing is held behind the last lock. -/
theorem not_held_of_gt {l : List α} {f : α → FileLock ω}
    (h : ∀ a ∈ l, (f a).stop < x) : ¬ Held (l.map f) x ty := by
  rw [held_map]
  rintro ⟨a, ha, -, h2, -⟩
  have := h a ha
  omega

/-- A byte has one lock of an owner. -/
theorem Separated.held_unique {vs : List (FileLock ω)} (hsep : Separated vs) {ty ty' : LockType}
    (h : Held vs x ty) (h' : Held vs x ty') : ty = ty' := by
  induction vs generalizing ty ty' with
  | nil => exact absurd h held_nil
  | cons v vs ih =>
    obtain ⟨hv, hsep'⟩ := pairwise_cons.mp hsep
    have hapart : ∀ {ty'}, x ≤ v.stop → Held vs x ty' → False := by
      intro ty' hx hh
      refine hh.elim fun w hw h1 _ _ => ?_
      have := (hv w hw).1
      omega
    rw [held_cons] at h h'
    rcases h with ⟨h1, h2, h3⟩ | h
    · rcases h' with ⟨-, -, h3'⟩ | h'
      · exact h3.symm.trans h3'
      · exact (hapart h2 h').elim
    · rcases h' with ⟨-, h2, -⟩ | h'
      · exact (hapart h2 h).elim
      · exact ih hsep' h h'

end

/-! ## The loop -/

section

variable {α ω : Type}

/-- What stays the same during the loop: the request `r` at `req₀`, the memory at the
beginning, and the locks of the owner among those of others. -/
structure Ctx (α ω : Type) where
  lock₀ : α → FileLock ω
  req₀ : α
  r : FileLock ω
  before : List α
  mine : List α
  behind : List α

structure Ctx.Ok (c : Ctx α ω) : Prop where
  nodup : (c.before ++ c.mine ++ c.behind).Nodup
  out : c.req₀ ∉ c.before ++ c.mine ++ c.behind
  sep : Separated (c.mine.map c.lock₀)
  valid : ∀ a ∈ c.mine, Valid c.r.owner (c.lock₀ a)
  others : ∀ a ∈ c.before ++ c.behind, (c.lock₀ a).owner ≠ c.r.owner
  start : 0 ≤ c.r.start
  le : c.r.start ≤ c.r.stop
  stop : c.r.stop ≤ OFFSET_MAX
  init : c.lock₀ c.req₀ = c.r

/-- The locks of the owner are not among the others. -/
theorem Ctx.Ok.apart {c : Ctx α ω} (hc : c.Ok) {a : α} (ha : a ∈ c.mine) :
    a ∉ c.before ∧ a ∉ c.behind := by
  have hnd := hc.nodup
  simp only [nodup_append, mem_append] at hnd
  grind

/-- The request, once it is part of the list. -/
def placed (c : Ctx α ω) (added : Bool) (request : α) : List α :=
  if added = true ∧ c.r.type ≠ .UNLCK then [request] else []

/-- The state of the loop: `passed` are the locks of the owner that it has left behind,
the one with the request apart, `rest` those to come. -/
structure ScanInv (c : Ctx α ω) (lock : α → FileLock ω) (passed : List α) (request : α)
    (added : Bool) (left : Option α) (rest : List α) : Prop where
  sublist : (passed ++ placed c added request ++ rest).Sublist c.mine
  home : ¬ (added = true ∧ c.r.type ≠ .UNLCK) → request = c.req₀
  frame : ∀ a, a ∈ c.before ∨ a ∈ c.behind ∨ a ∈ passed ∨ a ∈ rest → lock a = c.lock₀ a
  owner : (lock request).owner = c.r.owner
  type : (lock request).type = c.r.type
  start_le : (lock request).start ≤ c.r.start
  le_stop : c.r.stop ≤ (lock request).stop
  start_nonneg : 0 ≤ (lock request).start
  stop_le : (lock request).stop ≤ OFFSET_MAX
  below : ∀ a ∈ passed, left ≠ some a → (c.lock₀ a).stop < (lock request).start ∧
    ((c.lock₀ a).type = c.r.type → (c.lock₀ a).stop + 1 < (lock request).start)
  left_mem : ∀ a, left = some a → a ∈ passed ∧ (c.lock₀ a).type ≠ c.r.type ∧
    (c.lock₀ a).start < (lock request).start ∧ (lock request).start ≤ (c.lock₀ a).stop ∧
    (c.lock₀ a).stop ≤ (lock request).stop
  ahead : left.isSome = true ∨ added = true → ∀ a ∈ rest, (lock request).start < (c.lock₀ a).start
  same : ∀ x ty, ¬ ((lock request).start ≤ x ∧ x ≤ (lock request).stop) →
    (Held (c.mine.map c.lock₀) x ty ↔ Held ((passed ++ rest).map c.lock₀) x ty)
  gained : ∀ x, (lock request).start ≤ x → x ≤ (lock request).stop →
    ¬ (c.r.start ≤ x ∧ x ≤ c.r.stop) → Held (c.mine.map c.lock₀) x c.r.type
  quiet : added = false → lock = c.lock₀ ∧ passed ++ rest = c.mine
  unlck : c.r.type = .UNLCK → left.isSome = true → added = true

variable {c : Ctx α ω} {lock : α → FileLock ω} {passed rest : List α} {request fl : α} {added : Bool}
  {left : Option α}

theorem placed_false (c : Ctx α ω) (request : α) : placed c false request = [] := by simp [placed]

theorem placed_unlck (h : c.r.type = .UNLCK) (added : Bool) (request : α) :
    placed c added request = [] := by
  simp [placed, h]

theorem placed_left (request : α) :
    placed c (if c.r.type = .UNLCK then true else false) request = [] := by
  by_cases hu : c.r.type = .UNLCK
  · exact placed_unlck hu _ request
  · rw [if_neg hu, placed_false]

theorem placed_true (h : c.r.type ≠ .UNLCK) (request : α) : placed c true request = [request] := by
  simp [placed, h]

namespace ScanInv

section

variable (h : ScanInv c lock passed request added left rest)
include h

theorem mem_mine {a : α} (ha : a ∈ passed ∨ a ∈ rest) : a ∈ c.mine := by
  refine h.sublist.subset ?_
  rw [mem_append, mem_append]
  rcases ha with ha | ha
  · exact .inl (.inl ha)
  · exact .inr ha

theorem separated (hc : c.Ok) : Separated ((passed ++ rest).map c.lock₀) := by
  refine hc.sep.sublist (List.Sublist.map _ (List.Sublist.trans ?_ h.sublist))
  exact List.Sublist.append (sublist_append_left _ _) (List.Sublist.refl _)

/-- The request is none of the other locks. -/
theorem request_ne (hc : c.Ok) {a : α}
    (ha : a ∈ c.before ∨ a ∈ c.behind ∨ a ∈ passed ∨ a ∈ rest) : a ≠ request := by
  rintro rfl
  by_cases hplaced : added = true ∧ c.r.type ≠ .UNLCK
  · have hsub := h.sublist
    rw [placed, if_pos hplaced] at hsub
    have hin : a ∈ c.mine := hsub.subset (by simp)
    have hnd := (nodup_append.mp (nodup_append.mp hc.nodup).1).2.1.sublist hsub
    simp only [nodup_append, mem_append, mem_singleton] at hnd
    have := hc.apart hin
    grind
  · have hout := hc.out
    rw [← h.home hplaced, mem_append, mem_append] at hout
    have := @mem_mine _ _ _ _ _ _ _ _ _ h a
    tauto

end

section

variable (h : ScanInv c lock passed request added left (fl :: rest))
include h

/-- The first lock to come. -/
theorem head_eq : lock fl = c.lock₀ fl := h.frame fl (.inr (.inr (.inr mem_cons_self)))

/-- The locks to come start behind the first one. -/
theorem rest_behind (hc : c.Ok) : ∀ a ∈ rest, Before (c.lock₀ fl) (c.lock₀ a) := by
  have hsep := h.separated hc
  rw [map_append, separated_append] at hsep
  intro a ha
  exact (pairwise_cons.mp hsep.2.1).1 _ (mem_map_of_mem ha)

/-- With the first lock to come all of them start behind the request. -/
theorem all_behind (hc : c.Ok) {stop : Int} (hstart : stop < (c.lock₀ fl).start)
    (hgap : (c.lock₀ fl).type = c.r.type → stop + 1 < (c.lock₀ fl).start) :
    ∀ a ∈ fl :: rest, stop < (c.lock₀ a).start ∧
      ((c.lock₀ a).type = c.r.type → stop + 1 < (c.lock₀ a).start) := by
  intro a ha
  rcases mem_cons.mp ha with rfl | ha
  · exact ⟨hstart, hgap⟩
  · have := (h.rest_behind hc a ha).1
    have := (hc.valid fl (h.mem_mine (.inr mem_cons_self))).le
    exact ⟨by omega, fun _ => by omega⟩

theorem passed_before (hc : c.Ok) : ∀ a ∈ passed, Before (c.lock₀ a) (c.lock₀ fl) := by
  have hsep := h.separated hc
  rw [map_append, separated_append] at hsep
  intro a ha
  exact hsep.2.2 _ (mem_map_of_mem ha) _ (mem_map_of_mem mem_cons_self)

/-- A lock that starts at or before the request is the first one of interest. -/
theorem not_added (hstart : (c.lock₀ fl).start ≤ (lock request).start) :
    left = none ∧ added = false := by
  have hno : ¬ (left.isSome = true ∨ added = true) := by
    intro hc
    have := h.ahead hc fl mem_cons_self
    omega
  rw [not_or] at hno
  exact ⟨by simpa using hno.1, by simpa using hno.2⟩

theorem frame_next (a) (ha : a ∈ c.before ∨ a ∈ c.behind ∨ a ∈ passed ++ [fl] ∨ a ∈ rest) :
    lock a = c.lock₀ a := by
  refine h.frame a ?_
  simp only [mem_append, mem_cons, not_mem_nil, or_false] at ha ⊢
  tauto

/-- The lock ends in front of the request. -/
theorem pass (hc : c.Ok) (hstop : (c.lock₀ fl).stop < (lock request).start)
    (hgap : (c.lock₀ fl).type = c.r.type → (c.lock₀ fl).stop + 1 < (lock request).start) :
    added = false ∧ ScanInv c lock (passed ++ [fl]) request added left rest := by
  have hvalid := hc.valid fl (h.mem_mine (.inr mem_cons_self))
  obtain ⟨rfl, rfl⟩ := h.not_added (by have := hvalid.le; omega)
  have hsub := h.sublist
  have hassoc : passed ++ [fl] ++ rest = passed ++ fl :: rest := by simp
  refine ⟨rfl, ?_, h.home, h.frame_next, h.owner, h.type, h.start_le, h.le_stop, h.start_nonneg,
    h.stop_le, ?_, by simp, by simp, ?_, h.gained, ?_, h.unlck⟩
  · rw [placed_false, append_nil] at hsub ⊢
    rw [hassoc]
    exact hsub
  · intro a ha _
    rcases mem_append.mp ha with ha | ha
    · exact h.below a ha (by simp)
    · obtain rfl : a = fl := by simpa using ha
      exact ⟨hstop, hgap⟩
  · rw [hassoc]
    exact h.same
  · rw [hassoc]
    exact h.quiet

/-- The lock overlaps the start of the request, and not its end. -/
theorem passLeft (hc : c.Ok)
    (htype : (c.lock₀ fl).type ≠ c.r.type) (hstart : (c.lock₀ fl).start < (lock request).start)
    (hlo : (lock request).start ≤ (c.lock₀ fl).stop) (hhi : (c.lock₀ fl).stop ≤ (lock request).stop) :
    added = false ∧ ScanInv c lock (passed ++ [fl]) request
      (if c.r.type = .UNLCK then true else added) (some fl) rest := by
  obtain ⟨rfl, rfl⟩ := h.not_added (Int.le_of_lt hstart)
  have hsub := h.sublist
  have hassoc : passed ++ [fl] ++ rest = passed ++ fl :: rest := by simp
  have hbehind := h.rest_behind hc
  refine ⟨rfl, ?_, ?_, h.frame_next, h.owner, h.type, h.start_le, h.le_stop, h.start_nonneg,
    h.stop_le, ?_, ?_, ?_, ?_, h.gained, ?_, fun hu _ => by rw [if_pos hu]⟩
  · rw [placed_false, append_nil] at hsub
    rw [placed_left, append_nil, hassoc]
    exact hsub
  · intro _
    exact h.home (by simp)
  · intro a ha hne
    rcases mem_append.mp ha with ha | ha
    · exact h.below a ha (by simp)
    · obtain rfl : a = fl := by simpa using ha
      exact absurd rfl hne
  · intro a ha
    obtain rfl : fl = a := by simpa using ha
    exact ⟨by simp, htype, hstart, hlo, hhi⟩
  · intro _ a ha
    have := (hbehind a ha).1
    omega
  · rw [hassoc]
    exact h.same
  · intro hadded
    by_cases hu : c.r.type = .UNLCK
    · simp [hu] at hadded
    · rw [hassoc]
      exact h.quiet rfl

/-- Bytes outside the request are not concerned when a lock inside it goes. -/
theorem same_drop {lo hi : Int} (hlo : lo ≤ (lock request).start) (hhi : (lock request).stop ≤ hi)
    (hlo' : lo ≤ (c.lock₀ fl).start) (hhi' : (c.lock₀ fl).stop ≤ hi) (x : Int) (ty : LockType)
    (hx : ¬ (lo ≤ x ∧ x ≤ hi)) :
    Held (c.mine.map c.lock₀) x ty ↔ Held ((passed ++ rest).map c.lock₀) x ty := by
  rw [h.same x ty (by omega), map_append, map_cons, held_append, held_cons]
  have hout : ¬ ((c.lock₀ fl).start ≤ x ∧ x ≤ (c.lock₀ fl).stop ∧ (c.lock₀ fl).type = ty) := by
    omega
  simp [hout]

/-- The rest of the list without its first lock. -/
theorem frame_tail (hc : c.Ok) {a : α} (ha : a ∈ c.before ∨ a ∈ c.behind ∨ a ∈ passed ∨ a ∈ rest) :
    lock a = c.lock₀ a ∧ a ≠ request ∧ a ≠ fl := by
  have ha' : a ∈ c.before ∨ a ∈ c.behind ∨ a ∈ passed ∨ a ∈ fl :: rest := by
    rw [mem_cons]
    tauto
  refine ⟨h.frame a ha', h.request_ne hc ha', ?_⟩
  rintro rfl
  have hin := h.mem_mine (.inr (mem_cons_self (a := a)))
  rcases ha with ha | ha | ha | ha
  · exact (hc.apart hin).1 ha
  · exact (hc.apart hin).2 ha
  · have hbefore := (h.passed_before hc a ha).1
    have := (hc.valid a hin).le
    omega
  · have hbehind := (h.rest_behind hc a ha).1
    have := (hc.valid a hin).le
    omega

/-- The lock lies inside the request, which is in the list already or unlocks. -/
theorem drop (hc : c.Ok) (hstart : (lock request).start ≤ (c.lock₀ fl).start)
    (hstop : (c.lock₀ fl).stop ≤ (lock request).stop) (hadded : added = true ∨ c.r.type = .UNLCK) :
    ScanInv c lock passed request true left rest := by
  have hvalid := hc.valid fl (h.mem_mine (.inr mem_cons_self))
  have hbehind := h.rest_behind hc
  have hplaced : placed c true request = placed c added request := by
    rcases hadded with hadded | hu
    · rw [hadded]
    · rw [placed_unlck hu, placed_unlck hu]
  refine ⟨?_, ?_, ?_, h.owner, h.type, h.start_le, h.le_stop, h.start_nonneg, h.stop_le, h.below,
    h.left_mem, ?_, ?_, h.gained, by simp, fun _ _ => rfl⟩
  · rw [hplaced]
    refine List.Sublist.trans ?_ h.sublist
    exact List.Sublist.append (List.Sublist.refl _) (sublist_cons_self _ _)
  · intro hno
    refine h.home fun hyes => hno ⟨rfl, hyes.2⟩
  · exact fun a ha => (h.frame_tail hc ha).1
  · intro _ a ha
    have := (hbehind a ha).1
    have := hvalid.le
    omega
  · intro x ty hx
    exact h.same_drop (Int.le_refl _) (Int.le_refl _) hstart hstop x ty hx

/-- The request takes the place of a lock: with a new range, which contains the old one
and the lock, has no gap, and gains only bytes of the same type. -/
theorem takeOver (hc : c.Ok)
    (lock' : α → FileLock ω) (request' : α) (hu : c.r.type ≠ .UNLCK)
    (hrequest : added = false ∧ request' = fl ∨ added = true ∧ request' = request)
    (hlock : ∀ a, a ≠ request → a ≠ fl → lock' a = lock a)
    (howner : (lock' request').owner = c.r.owner) (htype : (lock' request').type = c.r.type)
    (hstart : (lock' request').start = min (lock request).start (c.lock₀ fl).start)
    (hstop : (lock' request').stop = max (lock request).stop (c.lock₀ fl).stop)
    (hgain : (c.lock₀ fl).type = c.r.type ∧ (lock request).start - 1 ≤ (c.lock₀ fl).stop ∧
        (c.lock₀ fl).start - 1 ≤ (lock request).stop ∨
      (lock request).start ≤ (c.lock₀ fl).start ∧ (c.lock₀ fl).stop ≤ (lock request).stop) :
    ScanInv c lock' passed request' true left rest := by
  have hvalid := hc.valid fl (h.mem_mine (.inr mem_cons_self))
  have hvle := hvalid.le
  have hv0 := hvalid.start
  have hv1 := hvalid.stop
  have hs1 := h.start_le
  have hs2 := h.le_stop
  have hs3 := h.start_nonneg
  have hs4 := h.stop_le
  have hbehind := h.rest_behind hc
  have hleft : left.isSome = true → (lock request).start < (c.lock₀ fl).start :=
    fun hl => h.ahead (.inl hl) fl mem_cons_self
  refine ⟨?_, ?_, ?_, howner, htype, by omega, by omega, by omega, by omega, ?_, ?_, ?_, ?_, ?_,
    by simp, fun _ _ => rfl⟩
  · rw [placed_true hu]
    refine List.Sublist.trans ?_ h.sublist
    rcases hrequest with ⟨rfl, rfl⟩ | ⟨rfl, rfl⟩
    · simp
    · rw [placed_true hu]
      exact List.Sublist.append (List.Sublist.refl _) (sublist_cons_self _ _)
  · intro hno
    exact absurd ⟨rfl, hu⟩ hno
  · intro a ha
    obtain ⟨h1, h2, h3⟩ := h.frame_tail hc ha
    rw [hlock a h2 h3, h1]
  · intro a ha hne
    obtain ⟨h1, h2⟩ := h.below a ha hne
    obtain ⟨h3, h4⟩ := h.passed_before hc a ha
    refine ⟨by omega, fun hty => ?_⟩
    have := h2 hty
    rcases hgain with ⟨hsame, -, -⟩ | ⟨hin, -⟩
    · have := h4 (hty.trans hsame.symm)
      omega
    · omega
  · intro a ha
    obtain ⟨h1, h2, h3, h4, h5⟩ := h.left_mem a ha
    have := hleft (by rw [ha]; rfl)
    exact ⟨h1, h2, by omega, by omega, by omega⟩
  · intro _ a ha
    have := (hbehind a ha).1
    omega
  · intro x ty hx
    rw [hstart, hstop] at hx
    exact h.same_drop (Int.min_le_left _ _) (Int.le_max_left _ _) (Int.min_le_right _ _)
      (Int.le_max_right _ _) x ty hx
  · intro x h1 h2 hout
    by_cases hin : (lock request).start ≤ x ∧ x ≤ (lock request).stop
    · exact h.gained x hin.1 hin.2 hout
    rcases hgain with ⟨hsame, hadj1, hadj2⟩ | ⟨hin1, hin2⟩
    · rw [h.same x _ hin, map_append, map_cons, held_append, held_cons]
      exact .inr (.inl ⟨by omega, by omega, hsame⟩)
    · omega

end

end ScanInv

/-! ## Merging and replacing -/

variable [DecidableEq α]

/-- Both locks get the joint range. -/
theorem mergeLocks_eq (lock : α → FileLock ω) (hne : fl ≠ request) : mergeLocks lock request fl fl =
      { lock fl with
        start := min (lock request).start (lock fl).start
        stop := max (lock request).stop (lock fl).stop } ∧
    mergeLocks lock request fl request =
      { lock request with
        start := min (lock request).start (lock fl).start
        stop := max (lock request).stop (lock fl).stop } ∧
    ∀ a, a ≠ request → a ≠ fl → mergeLocks lock request fl a = lock a := by
  unfold mergeLocks
  by_cases hstart : (lock fl).start > (lock request).start
  · have hmin := Int.min_eq_left (Int.le_of_lt hstart)
    by_cases hstop : (lock fl).stop < (lock request).stop
    · simp +contextual [hstart, hstop, hmin, hne.symm, Int.max_eq_left (Int.le_of_lt hstop)]
    · simp +contextual [hstart, hstop, hmin, hne, hne.symm, Int.max_eq_right (Int.not_lt.mp hstop)]
  · have hmin := Int.min_eq_right (Int.not_lt.mp hstart)
    by_cases hstop : (lock fl).stop < (lock request).stop
    · simp +contextual [hstart, hstop, hmin, hne, hne.symm, Int.max_eq_left (Int.le_of_lt hstop)]
    · simp +contextual [hstart, hstop, hmin, hne, Int.max_eq_right (Int.not_lt.mp hstop)]

/-! ## The whole loop -/

/-- Where the loop stops: behind the request, or at a lock of another type that reaches
beyond it. -/
inductive Stopped (c : Ctx α ω) (cur : FileLock ω) (added : Bool) (left : Option α) (rest : List α)
    (sc : Scan α ω) : Prop
  | behind : sc.right = none → sc.left = left → sc.added = added →
      (∀ a ∈ rest, cur.stop < (c.lock₀ a).start ∧
        ((c.lock₀ a).type = c.r.type → cur.stop + 1 < (c.lock₀ a).start)) →
      Stopped c cur added left rest sc
  | right {fl : α} {rest' : List α} : rest = fl :: rest' → sc.right = some fl →
      sc.left = (if (c.lock₀ fl).start < cur.start then some fl else left) →
      sc.added = (if c.r.type = .UNLCK then true else added) →
      (c.lock₀ fl).type ≠ c.r.type → (c.lock₀ fl).start ≤ cur.stop →
      cur.stop < (c.lock₀ fl).stop → Stopped c cur added left rest sc

/-- The state of the loop when it is left. -/
structure ScanDone (c : Ctx α ω) (sc : Scan α ω) (passed rest : List α) (added : Bool)
    (left : Option α) : Prop where
  inv : ScanInv c sc.lock passed sc.request added left rest
  pre_eq : sc.pre = c.before ++ passed ++ placed c added sc.request
  rest_eq : sc.rest = rest ++ c.behind
  stopped : Stopped c (sc.lock sc.request) added left rest sc

variable [DecidableEq ω]

theorem scan_behind (hc : c.Ok) (h : ScanInv c lock passed request added left [])
    (pre : List α) : scan lock pre request added left c.behind =
      ⟨lock, pre, c.behind, request, added, left, none⟩ := by
  cases hb : c.behind with
  | nil => rfl
  | cons b rest =>
    have hmem : b ∈ c.behind := by rw [hb]; exact mem_cons_self
    have hne : posixSameOwner (lock request) (lock b) = false := by
      rw [posixSameOwner, h.owner, h.frame b (.inr (.inl hmem))]
      exact decide_eq_false fun heq => hc.others b (mem_append_right _ hmem) heq.symm
    rw [scan, hne]
    rfl

theorem scan_spec (hc : c.Ok) : ∀ {rest : List α} {lock : α → FileLock ω} {passed : List α}
    {request : α} {added : Bool} {left : Option α}, ScanInv c lock passed request added left rest →
    ∃ passed' rest' added' left', ScanDone c
      (scan lock (c.before ++ passed ++ placed c added request) request added left (rest ++ c.behind))
      passed' rest' added' left' := by
  intro rest
  induction rest with
  | nil =>
    intro lock passed request added left h
    rw [nil_append, scan_behind hc h]
    exact ⟨passed, [], added, left, h, rfl, rfl, .behind rfl rfl rfl (by simp)⟩
  | cons fl rest ih =>
    intro lock passed request added left h
    have hfl := h.head_eq
    have hvalid := hc.valid fl (h.mem_mine (.inr mem_cons_self))
    have hne : fl ≠ request := h.request_ne hc (.inr (.inr (.inr mem_cons_self)))
    have howner : posixSameOwner (lock request) (lock fl) = true := by
      rw [posixSameOwner, h.owner, hfl, hvalid.owner]
      exact decide_eq_true rfl
    rw [cons_append, scan, if_pos howner, h.type, hfl]
    by_cases htype : c.r.type = (c.lock₀ fl).type
    · -- the same type
      have hu : c.r.type ≠ .UNLCK := by rw [htype]; exact hvalid.type
      rw [if_pos htype]
      by_cases hfront : (c.lock₀ fl).stop < (lock request).start - 1
      · rw [if_pos hfront]
        obtain ⟨rfl, hnext⟩ := h.pass hc (by omega) (fun _ => by omega)
        have := ih hnext
        rw [placed_false, append_nil, ← append_assoc] at this
        rw [placed_false, append_nil]
        exact this
      rw [if_neg hfront]
      by_cases hback : (c.lock₀ fl).start - 1 > (lock request).stop
      · rw [if_pos hback]
        have hback' : (lock request).stop + 1 < (c.lock₀ fl).start := by omega
        exact ⟨passed, fl :: rest, added, left, h, rfl, rfl,
          .behind rfl rfl rfl (h.all_behind hc (Int.lt_trans (Int.lt_succ _) hback') fun _ => hback')⟩
      rw [if_neg hback]
      obtain ⟨hmfl, hmreq, hmother⟩ := mergeLocks_eq lock hne
      rw [hfl] at hmfl hmreq
      cases added with
      | true =>
        refine ih (h.takeOver hc _ request hu (.inr ⟨rfl, rfl⟩) hmother ?_ ?_ ?_ ?_
          (.inl ⟨htype.symm, by omega, by omega⟩))
        · rw [hmreq]; exact h.owner
        · rw [hmreq]; exact h.type
        · rw [hmreq]
        · rw [hmreq]
      | false =>
        have hnext := ih (h.takeOver hc _ fl hu (.inl ⟨rfl, rfl⟩) hmother
          (by rw [hmfl]; exact hvalid.owner) (by rw [hmfl]; exact htype.symm) (by rw [hmfl])
          (by rw [hmfl]) (.inl ⟨htype.symm, by omega, by omega⟩))
        rw [placed_true hu] at hnext
        rw [placed_false, append_nil]
        exact hnext
    rw [if_neg htype]
    by_cases hfront : (c.lock₀ fl).stop < (lock request).start
    · rw [if_pos hfront]
      obtain ⟨rfl, hnext⟩ := h.pass hc hfront (fun heq => absurd heq.symm htype)
      have := ih hnext
      rw [placed_false, append_nil, ← append_assoc] at this
      rw [placed_false, append_nil]
      exact this
    rw [if_neg hfront]
    by_cases hback : (c.lock₀ fl).start > (lock request).stop
    · rw [if_pos hback]
      exact ⟨passed, fl :: rest, added, left, h, rfl, rfl,
        .behind rfl rfl rfl (h.all_behind hc hback fun heq => absurd heq.symm htype)⟩
    rw [if_neg hback]
    by_cases hright : (c.lock₀ fl).stop > (lock request).stop
    · rw [if_pos hright]
      exact ⟨passed, fl :: rest, added, left, h, rfl, rfl,
        .right rfl rfl rfl rfl (fun heq => htype heq.symm) (by simp only; omega) hright⟩
    rw [if_neg hright]
    by_cases hin : (c.lock₀ fl).start ≥ (lock request).start
    · -- the lock lies inside the request
      have hnotleft : ¬ (c.lock₀ fl).start < (lock request).start := by omega
      rw [if_pos hin, if_neg hnotleft]
      by_cases hadded : (if c.r.type = .UNLCK then true else added) = true
      · rw [hadded]
        have hadded' : added = true ∨ c.r.type = .UNLCK := by
          by_cases hu : c.r.type = .UNLCK
          · exact .inr hu
          · rw [if_neg hu] at hadded
            exact .inl hadded
        have hplaced : placed c added request = placed c true request := by
          rcases hadded' with rfl | hu
          · rfl
          · rw [placed_unlck hu, placed_unlck hu]
        rw [hplaced]
        exact ih (h.drop hc hin (by omega) hadded')
      · rw [if_neg hadded]
        by_cases hu : c.r.type = .UNLCK
        · rw [if_pos hu] at hadded
          exact absurd rfl hadded
        rw [if_neg hu] at hadded
        obtain rfl : added = false := by simpa using hadded
        have hrep : replaceLock lock request fl fl = { lock fl with
              start := (lock request).start
              stop := (lock request).stop
              type := (lock request).type } := update_self ..
        have hnext := ih (h.takeOver hc (replaceLock lock request fl) fl hu
          (.inl ⟨rfl, rfl⟩) (fun a _ h2 => update_of_ne h2 ..)
          (by rw [hrep, hfl]; exact hvalid.owner) (by rw [hrep]; exact h.type)
          (by rw [hrep, Int.min_eq_left hin]) (by rw [hrep, Int.max_eq_left (by omega)])
          (.inr ⟨hin, by omega⟩))
        rw [placed_true hu] at hnext
        rw [placed_false, append_nil]
        exact hnext
    · -- the lock reaches into the request from the left
      have hleft : (c.lock₀ fl).start < (lock request).start := by omega
      rw [if_neg hin, if_pos hleft]
      obtain ⟨rfl, hnext⟩ := h.passLeft hc (fun heq => htype heq.symm) (by omega) (by omega) (by omega)
      have := ih hnext
      rw [placed_left, append_nil, ← append_assoc] at this
      rw [placed_false, append_nil]
      exact this

end

end LinuxKernel.Fs.Locks
