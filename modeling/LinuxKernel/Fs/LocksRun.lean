/-
  POSIX locks as a function of owner and byte.

  One request, and any sequence of requests: the list keeps the locks of an owner
  together, sorted, disjoint and merged, and a request that succeeds sets the bytes
  of its owner in its range, and nothing else.
-/
import LinuxKernel.Fs.LocksFinish

namespace LinuxKernel.Fs.Locks

open Foundation Function List Option

variable {ty : LockType}

/-! ## Owners stay together -/

section

variable {ω : Type}

/-- Equal elements are next to each other. -/
def Grouped : List ω → Prop
  | [] => True
  | x :: l => (x ∈ l → l.head? = some x) ∧ Grouped l

/-- The elements of one kind, and those before and behind. -/
theorem Grouped.split {α : Type} (f : α → ω) (o : ω) {l : List α} (h : Grouped (l.map f)) :
    ∃ before mine behind, l = before ++ mine ++ behind ∧ (∀ a ∈ mine, f a = o) ∧
      (∀ a ∈ before ++ behind, f a ≠ o) ∧ (mine = [] → behind = []) := by
  induction l with
  | nil => exact ⟨[], [], [], rfl, by simp, by simp, fun _ => rfl⟩
  | cons a l ih =>
    obtain ⟨hhead, hl⟩ := h
    obtain ⟨before, mine, behind, rfl, hmine, hothers, hempty⟩ := ih hl
    by_cases ha : f a = o
    · cases mine with
      | nil =>
        obtain rfl := hempty rfl
        rw [append_nil] at hothers
        exact ⟨[], [a], before, by simp, by simpa using ha, hothers, by simp⟩
      | cons b mine =>
        -- `a` joins the group, which is the beginning of the list
        have hfirst := hhead (by
          rw [ha, ← hmine b mem_cons_self]
          exact mem_map_of_mem (by simp))
        cases before with
        | nil =>
          exact ⟨[], a :: b :: mine, behind, rfl, forall_mem_cons.mpr ⟨ha, hmine⟩, hothers, by simp⟩
        | cons c before =>
          have hc : f c = f a := by simpa using hfirst
          exact absurd (hc.trans ha) (hothers c (by simp))
    · exact ⟨a :: before, mine, behind, rfl, hmine, forall_mem_cons.mpr ⟨ha, hothers⟩, hempty⟩

/-- A group may be replaced by another one of its kind. -/
theorem Grouped.replace {o : ω} : ∀ {before mine mine' behind : List ω},
    Grouped (before ++ mine ++ behind) → (∀ x ∈ mine, x = o) → (∀ x ∈ mine', x = o) →
    (∀ x ∈ before ++ behind, x ≠ o) → (mine = [] → behind = []) →
    Grouped (before ++ mine' ++ behind) := by
  have hsuffix : ∀ {l l' : List ω}, Grouped (l ++ l') → Grouped l' := by
    intro l
    induction l with
    | nil => intro l' h; exact h
    | cons x l ih => intro l' h; exact ih h.2
  intro before
  induction before with
  | nil =>
    intro mine mine' behind h _ hmine' hothers _
    have hbehind : Grouped behind := hsuffix h
    induction mine' with
    | nil => exact hbehind
    | cons x mine' ih =>
      refine ⟨?_, ih fun y hy => hmine' y (mem_cons_of_mem x hy)⟩
      intro hx
      cases mine' with
      | nil =>
        have hxo := hmine' x (by simp)
        exact absurd hxo (hothers x (by simpa using hx))
      | cons y mine' =>
        have hxo := hmine' x (by simp)
        have hyo := hmine' y (by simp)
        simp [hxo, hyo]
  | cons x before ih =>
    intro mine mine' behind h hmine hmine' hothers hempty
    obtain ⟨hhead, hrest⟩ :
        (x ∈ before ++ mine ++ behind → (before ++ mine ++ behind).head? = some x) ∧
          Grouped (before ++ mine ++ behind) := h
    have hxo : x ≠ o := hothers x (by simp)
    refine ⟨?_, ih hrest hmine hmine' (fun y hy => hothers y (mem_cons_of_mem x hy)) hempty⟩
    intro (hx : x ∈ before ++ mine' ++ behind)
    have hno : x ∉ mine' := fun h => hxo (hmine' x h)
    have hx' : x ∈ before ++ behind := by
      simp only [mem_append] at hx ⊢
      tauto
    have hfirst := hhead (by
      simp only [mem_append] at hx' ⊢
      tauto)
    cases before with
    | cons y before => exact hfirst
    | nil =>
      -- the list begins with the group, which is not of the kind of `x`
      exfalso
      cases mine with
      | nil => simp [hempty rfl] at hx'
      | cons m mine =>
        have hm : m = x := by simpa using hfirst
        exact hxo (hm ▸ hmine m (by simp))

end

/-! ## The invariant -/

section

variable {α ω : Type} [DecidableEq ω] {s s' : State α ω} {r : FileLock ω} {o : ω} {x : Int}

/-- The locks of an owner. -/
def locksOf (s : State α ω) (o : ω) : List α :=
  s.flock.filter fun a => (s.lock a).owner = o

/-- The owner has a lock of that type on the byte. -/
def HeldBy (s : State α ω) (o : ω) (x : Int) (ty : LockType) : Prop :=
  ∃ a ∈ s.flock, (s.lock a).owner = o ∧ (s.lock a).start ≤ x ∧ x ≤ (s.lock a).stop ∧
    (s.lock a).type = ty

structure Inv (s : State α ω) : Prop where
  nodup : s.flock.Nodup
  grouped : Grouped (s.flock.map fun a => (s.lock a).owner)
  valid : ∀ a ∈ s.flock, Valid (s.lock a).owner (s.lock a)
  separated : ∀ o, Separated ((locksOf s o).map s.lock)
  exclusive : ∀ o o' x ty ty', o ≠ o' → HeldBy s o x ty → HeldBy s o' x ty' →
    ty = .RDLCK ∧ ty' = .RDLCK

theorem mem_locksOf {a : α} : a ∈ locksOf s o ↔ a ∈ s.flock ∧ (s.lock a).owner = o := by
  simp [locksOf]

theorem locksOf_eq {before mine behind : List α} (hflock : s.flock = before ++ mine ++ behind)
    (hmine : ∀ a ∈ mine, (s.lock a).owner = o)
    (hothers : ∀ a ∈ before ++ behind, (s.lock a).owner ≠ o) : locksOf s o = mine := by
  have hnone : ∀ l : List α, (∀ a ∈ l, a ∈ before ++ behind) →
      l.filter (fun a => decide ((s.lock a).owner = o)) = [] :=
    fun l hl => filter_eq_nil_iff.mpr fun a ha => by simpa using hothers a (hl a ha)
  have hall : mine.filter (fun a => decide ((s.lock a).owner = o)) = mine :=
    filter_eq_self.mpr fun a ha => by simpa using hmine a ha
  rw [locksOf, hflock, filter_append, filter_append, hall,
    hnone before fun a ha => mem_append_left _ ha,
    hnone behind fun a ha => mem_append_right _ ha, nil_append, append_nil]

/-- The locks of an owner say what they hold. -/
theorem heldBy_iff : HeldBy s o x ty ↔ Held ((locksOf s o).map s.lock) x ty := by
  simp only [held_map, HeldBy, mem_locksOf, and_assoc]

theorem Inv.heldBy_unique (h : Inv s) {ty' : LockType} (h1 : HeldBy s o x ty)
    (h2 : HeldBy s o x ty') : ty = ty' := by
  rw [heldBy_iff] at h1 h2
  exact (h.separated o).held_unique h1 h2

/-- The computed value. -/
theorem Inv.held_eq (h : Inv s) : held s o x = some ty ↔ HeldBy s o x ty := by
  have hsome : ∀ {ty}, held s o x = some ty → HeldBy s o x ty := by
    intro ty heq
    obtain ⟨a, hfind, hty⟩ := map_eq_some_iff.mp heq
    have hp := find?_some hfind
    simp only [Bool.and_eq_true, decide_eq_true_eq] at hp
    exact ⟨a, mem_of_find?_eq_some hfind, hp.1, hp.2.1, hp.2.2, hty⟩
  constructor
  · exact hsome
  · intro hheld
    cases heq : held s o x with
    | some ty' => rw [h.heldBy_unique hheld (hsome heq)]
    | none =>
      obtain ⟨a, ha, h1, h2, h3, -⟩ := hheld
      unfold held at heq
      rw [map_eq_none_iff, find?_eq_none] at heq
      exact absurd (by simp [h1, h2, h3]) (heq a ha)

omit [DecidableEq ω] in
/-- Memory outside the list does not matter. -/
theorem heldBy_congr (hflock : s'.flock = s.flock) (hlock : ∀ a ∈ s.flock, s'.lock a = s.lock a) :
    HeldBy s' o x ty ↔ HeldBy s o x ty := by
  unfold HeldBy
  rw [hflock]
  refine exists_congr fun a => and_congr_right fun ha => ?_
  rw [hlock a ha]

theorem Inv.congr (h : Inv s) (hflock : s'.flock = s.flock)
    (hlock : ∀ a ∈ s.flock, s'.lock a = s.lock a) : Inv s' := by
  refine ⟨by rw [hflock]; exact h.nodup, ?_, ?_, ?_, ?_⟩
  · rw [hflock, map_congr_left fun a ha => by rw [hlock a ha]]
    exact h.grouped
  · intro a ha
    rw [hflock] at ha
    rw [hlock a ha]
    exact h.valid a ha
  · intro o
    have hsame : locksOf s' o = locksOf s o := by
      rw [locksOf, hflock]
      exact filter_congr fun a ha => by rw [hlock a ha]
    rw [hsame, map_congr_left fun a ha => hlock a (mem_locksOf.mp ha).1]
    exact h.separated o
  · intro o o' x ty ty' hne h1 h2
    rw [heldBy_congr hflock hlock] at h1 h2
    exact h.exclusive o o' x ty ty' hne h1 h2

/-- The request has set its bytes. -/
def Sets (s s' : State α ω) (r : FileLock ω) : Prop :=
  ∀ o x ty, (o = r.owner ∧ r.start ≤ x ∧ x ≤ r.stop →
      (HeldBy s' o x ty ↔ ty = r.type ∧ r.type ≠ .UNLCK)) ∧
    (¬ (o = r.owner ∧ r.start ≤ x ∧ x ≤ r.stop) → (HeldBy s' o x ty ↔ HeldBy s o x ty))

/-! ## One request -/

variable [DecidableEq α]

/-- What the callers see to: the structure of the request and the memory for new locks
are not in the list. -/
structure FreshEnv (flock : List α) (request : α) (env : Env α) : Prop where
  request_out : request ∉ flock
  newFl : ∀ a, env.newFl = some a → a ∉ flock ∧ a ≠ request
  newFl2 : ∀ a, env.newFl2 = some a → a ∉ flock ∧ a ≠ request
  ne : ∀ a, env.newFl = some a → env.newFl2 ≠ some a

section

variable {c : Ctx α ω} {sc : Scan α ω} {passed rest : List α} {added : Bool} {left : Option α}
omit [DecidableEq ω]

omit [DecidableEq α] in
/-- The list with the request in it. -/
theorem placed_nodup (hc : c.Ok) (hd : ScanDone c sc passed rest added left) :
    (c.before ++ (passed ++ placed c added sc.request ++ rest) ++ c.behind).Nodup :=
  hc.nodup.sublist (List.Sublist.append (List.Sublist.append (List.Sublist.refl _) hd.inv.sublist)
    (List.Sublist.refl _))

omit [DecidableEq α] in
theorem inserted_added (hc : c.Ok) (hd : ScanDone c sc passed rest added left)
    (hplaced : added = true ∨ c.r.type = .UNLCK) :
    Inserted c sc sc passed (placed c added sc.request) rest := by
  refine ⟨rfl, rfl, rfl, rfl, hd.inv.frame, ?_, ?_, placed_nodup hc hd⟩
  · by_cases hu : c.r.type = .UNLCK
    · exact .inl ⟨hu, placed_unlck hu _ _⟩
    · rcases hplaced with rfl | hu'
      · exact .inr ⟨hu, sc.request, placed_true hu _, rfl⟩
      · exact absurd hu' hu
  · rw [hd.pre_eq, hd.rest_eq]
    simp

theorem inserted_new (hc : c.Ok) (hd : ScanDone c sc passed rest false left)
    (hu : c.r.type ≠ .UNLCK) {new : α} (hnew : new ∉ c.before ++ c.mine ++ c.behind)
    (hreq : new ≠ sc.request) :
    Inserted c sc { sc with lock := update sc.lock new (sc.lock sc.request)
                            rest := new :: sc.rest } passed [new] rest := by
  have hnot : ∀ a, a ∈ c.before ∨ a ∈ c.behind ∨ a ∈ passed ∨ a ∈ rest → a ≠ new := by
    rintro a ha rfl
    refine hnew ?_
    simp only [mem_append]
    rcases ha with ha | ha | ha
    · exact .inl (.inl ha)
    · exact .inr ha
    · exact .inl (.inr (hd.inv.mem_mine ha))
  have hnodup := placed_nodup hc hd
  rw [placed_false, append_nil] at hnodup
  refine ⟨rfl, rfl, rfl, update_of_ne hreq.symm .., ?_, ?_, ?_, ?_⟩
  · intro a ha
    show update sc.lock new _ a = _
    rw [update_of_ne (hnot a ha)]
    exact hd.inv.frame a ha
  · exact .inr ⟨hu, new, rfl, update_self ..⟩
  · rw [hd.pre_eq, hd.rest_eq, placed_false]
    simp
  · have hmove : c.before ++ (passed ++ [new] ++ rest) ++ c.behind =
        (c.before ++ passed) ++ new :: (rest ++ c.behind) := by simp
    have hold : c.before ++ (passed ++ rest) ++ c.behind =
        (c.before ++ passed) ++ (rest ++ c.behind) := by simp
    rw [hmove, nodup_middle, nodup_cons, ← hold]
    refine ⟨fun hin => ?_, hnodup⟩
    simp only [mem_append] at hin
    exact hnot new (by tauto) rfl

omit [DecidableEq α] in
/-- Nothing was done if no lock has become the request. -/
theorem unchanged_of_quiet (hd : ScanDone c sc passed rest false left) :
    Unchanged c ⟨sc.lock, sc.pre ++ sc.rest⟩ := by
  obtain ⟨hlock, hmine⟩ := hd.inv.quiet rfl
  refine ⟨?_, fun a _ => by show sc.lock a = _; rw [hlock]⟩
  rw [hd.pre_eq, hd.rest_eq, placed_false, ← hmine]
  simp

theorem finish_spec (hc : c.Ok) (hd : ScanDone c sc passed rest added left) (flags : Flags)
    {newFl newFl2 : Option α}
    (henv : FreshEnv (c.before ++ c.mine ++ c.behind) c.req₀ ⟨newFl, newFl2, false⟩) :
    ((finish sc flags newFl newFl2).2 = .ok ∧
      ∃ mine', Finished c (finish sc flags newFl newFl2).1 mine') ∨
    ((finish sc flags newFl newFl2).2 ≠ .ok ∧ Unchanged c (finish sc flags newFl newFl2).1) := by
  have hreq : ∀ a, a ∉ c.before ++ c.mine ++ c.behind ∧ a ≠ c.req₀ → a ≠ sc.request := by
    rintro a ⟨hout, hreq0⟩ rfl
    by_cases hplaced : added = true ∧ c.r.type ≠ .UNLCK
    · refine hout ?_
      have hsub := hd.inv.sublist
      rw [placed, if_pos hplaced] at hsub
      have hin : sc.request ∈ c.mine := hsub.subset (by simp)
      simp [hin]
    · exact hreq0 (hd.inv.home hplaced)
  have hmid : ∀ (mid : List α) a, a ∉ c.before ++ c.mine ++ c.behind → a ∉ mid →
      a ∉ c.before ++ (passed ++ mid ++ rest) ++ c.behind := by
    intro mid a hout hnotmid hin
    refine hout ?_
    simp only [mem_append] at hin ⊢
    rcases hin with (hin | (hin | hin) | hin) | hin
    · exact .inl (.inl hin)
    · exact .inl (.inr (hd.inv.mem_mine (.inl hin)))
    · exact absurd hin hnotmid
    · exact .inl (.inr (hd.inv.mem_mine (.inr hin)))
    · exact .inr hin
  -- a lock on both sides of the request is the first one of interest
  have hboth (hsome : sc.right.isSome = true) (hlr : sc.left = sc.right) :
      added = false ∧ left = none := by
    cases hd.stopped with
    | behind hright => rw [hright] at hsome; cases hsome
    | @right fl rest' hrest hright hleft =>
      subst hrest
      by_cases hlt : (c.lock₀ fl).start < (sc.lock sc.request).start
      · obtain ⟨h1, h2⟩ := hd.inv.not_added (Int.le_of_lt hlt)
        exact ⟨h2, h1⟩
      rw [if_neg hlt, hlr, hright] at hleft
      obtain ⟨hmem, -⟩ := hd.inv.left_mem fl hleft.symm
      have hbefore := (hd.inv.passed_before hc fl hmem).1
      omega
  have hsc : sc.added = added ∨ sc.added = true ∧ c.r.type = .UNLCK := by
    cases hd.stopped with
    | behind _ _ hadded => exact .inl hadded
    | right _ _ _ hadded =>
      by_cases hu : c.r.type = .UNLCK
      · exact .inr ⟨by rw [hadded, if_pos hu], hu⟩
      · exact .inl (by rw [hadded, if_neg hu])
  unfold finish
  by_cases hnolck : sc.right.isSome ∧ sc.left = sc.right ∧ newFl2 = none
  · rw [if_pos hnolck]
    obtain ⟨rfl, rfl⟩ := hboth hnolck.1 hnolck.2.1
    exact .inr ⟨by simp, unchanged_of_quiet hd⟩
  rw [if_neg hnolck]
  -- the neighbours, once the request is in the list
  have hdone {sc1 : Scan α ω} {mid : List α} (hi : Inserted c sc sc1 passed mid rest)
      (hpre : sc.left = sc.right → sc.right.isSome = true → sc1.pre = c.before ++ passed)
      (hnotmid : ∀ a, newFl2 = some a → a ∉ mid) :
      ∃ mine', Finished c (trimNeighbours sc1 newFl2) mine' := by
    by_cases hsplit : sc.right ≠ none ∧ sc.left = sc.right
    · have hsome : sc.right.isSome = true := isSome_iff_ne_none.mpr hsplit.1
      obtain ⟨right, hright⟩ := isSome_iff_exists.mp hsome
      cases hn2 : newFl2 with
      | none => exact absurd ⟨hsome, hsplit.2, hn2⟩ hnolck
      | some new =>
        refine ⟨_, split_finished hc hd hi hright (by rw [hsplit.2, hright])
          (hpre hsplit.2 hsome) (hmid mid new (henv.newFl2 new hn2).1 (hnotmid new hn2)) ?_⟩
        rw [hi.request]
        exact hreq new (henv.newFl2 new hn2)
    · refine ⟨_, trim_finished hc hd hi newFl2 fun hr heq => hsplit ⟨hr, heq⟩⟩
  by_cases hadded : sc.added = true
  · rw [if_pos hadded]
    have hplaced : added = true ∨ c.r.type = .UNLCK := by
      rcases hsc with hsc | ⟨-, hu⟩
      · exact .inl (by rw [← hsc, hadded])
      · exact .inr hu
    refine .inl ⟨rfl, hdone (inserted_added hc hd hplaced) ?_ ?_⟩
    · intro hlr hsome
      obtain ⟨rfl, -⟩ := hboth hsome hlr
      rw [hd.pre_eq, placed_false, append_nil]
    · intro a ha hin
      refine (henv.newFl2 a ha).1 ?_
      have : a ∈ c.mine := hd.inv.sublist.subset (by simp [hin])
      simp [this]
  rw [if_neg hadded]
  have hadded' : added = false := by
    rcases hsc with hsc | ⟨hsc, -⟩
    · rw [← hsc]
      simpa using hadded
    · exact absurd hsc hadded
  subst hadded'
  rw [hd.inv.type]
  by_cases hu : c.r.type = .UNLCK
  · -- there is nothing to unlock
    rw [if_pos hu]
    have hunchanged := unchanged_of_quiet hd
    cases hexist : flags.exist with
    | true => exact .inr ⟨by simp, hunchanged⟩
    | false =>
      refine .inl ⟨by simp, passed ++ placed c false sc.request ++ rest, ?_⟩
      have hi := inserted_added hc hd (.inr hu)
      have hright : sc.right = none := by
        cases hd.stopped with
        | behind hright => exact hright
        | right _ _ _ hadd =>
          rw [if_pos hu] at hadd
          exact absurd hadd hadded
      have hleft : sc.left = none := by
        cases hd.stopped with
        | behind _ hl =>
          rw [hl]
          cases hl' : left with
          | none => rfl
          | some a =>
            have := hd.inv.unlck hu (by rw [hl']; rfl)
            simp at this
        | right _ hr => rw [hright] at hr; cases hr
      have htrim : trimNeighbours sc none = ⟨sc.lock, sc.pre ++ sc.rest⟩ := by
        unfold trimNeighbours trimNeighbours.trimLeft
        rw [hright, hleft]
      have := trim_finished hc hd hi none fun hr => absurd hright hr
      rwa [htrim] at this
  rw [if_neg hu]
  cases hn : newFl with
  | none => exact .inr ⟨by simp, unchanged_of_quiet hd⟩
  | some new =>
    obtain ⟨hout, hreq0⟩ := henv.newFl new hn
    have hi := inserted_new hc hd hu hout (hreq new ⟨hout, hreq0⟩)
    refine .inl ⟨rfl, hdone hi ?_ ?_⟩
    · intro _ _
      rw [hd.pre_eq, placed_false, append_nil]
    · intro a ha hin
      obtain rfl : a = new := by simpa using hin
      exact henv.ne a hn ha

end

omit [DecidableEq α] in
/-- The state after a request for the owner of one group. -/
theorem Finished.inv {c : Ctx α ω} {mine' : List α} (hs : Inv s) (hlock : s.lock = c.lock₀)
    (hflock : s.flock = c.before ++ c.mine ++ c.behind)
    (hmine : ∀ a ∈ c.mine, (s.lock a).owner = c.r.owner)
    (hothers : ∀ a ∈ c.before ++ c.behind, (s.lock a).owner ≠ c.r.owner)
    (hempty : c.mine = [] → c.behind = []) (hf : Finished c s' mine')
    (hfree : c.r.type ≠ .UNLCK → ∀ o x ty, o ≠ c.r.owner → c.r.start ≤ x → x ≤ c.r.stop →
      HeldBy s o x ty → ty = .RDLCK ∧ c.r.type = .RDLCK) :
    Inv s' ∧ Sets s s' c.r := by
  have hframe : ∀ a ∈ c.before ++ c.behind, s'.lock a = s.lock a := by
    rw [hlock]
    exact hf.frame
  have hothers' (a) (ha : a ∈ c.before ++ c.behind) : (s'.lock a).owner ≠ c.r.owner := by
    rw [hframe a ha]
    exact hothers a ha
  have hmine' (a) (ha : a ∈ mine') : (s'.lock a).owner = c.r.owner := (hf.valid a ha).owner
  have hmem (a) : a ∈ s'.flock ↔ a ∈ c.before ++ c.behind ∨ a ∈ mine' := by
    rw [hf.flock]
    simp only [mem_append]
    tauto
  have hmem0 (a) : a ∈ s.flock ↔ a ∈ c.before ++ c.behind ∨ a ∈ c.mine := by
    rw [hflock]
    simp only [mem_append]
    tauto
  -- other owners hold what they held
  have hother (o x ty) (ho : o ≠ c.r.owner) : (HeldBy s' o x ty ↔ HeldBy s o x ty) := by
    constructor
    · rintro ⟨a, ha, h1, h2⟩
      rcases (hmem a).mp ha with hin | hin
      · rw [hframe a hin] at h1 h2
        exact ⟨a, (hmem0 a).mpr (.inl hin), h1, h2⟩
      · exact absurd (h1.symm.trans (hmine' a hin)) ho
    · rintro ⟨a, ha, h1, h2⟩
      rcases (hmem0 a).mp ha with hin | hin
      · rw [← hframe a hin] at h1 h2
        exact ⟨a, (hmem a).mpr (.inl hin), h1, h2⟩
      · exact absurd (h1.symm.trans (hmine a hin)) ho
  have hself (x ty) : HeldBy s' c.r.owner x ty ↔
        if c.r.start ≤ x ∧ x ≤ c.r.stop then ty = c.r.type ∧ c.r.type ≠ .UNLCK
        else HeldBy s c.r.owner x ty := by
    rw [heldBy_iff, locksOf_eq hf.flock hmine' hothers', hf.held x ty, heldBy_iff,
      locksOf_eq hflock hmine hothers, hlock]
  have hsets : Sets s s' c.r := by
    intro o x ty
    by_cases ho : o = c.r.owner
    · subst ho
      refine ⟨fun hin => ?_, fun hout => ?_⟩
      · rw [hself, if_pos hin.2]
      · rw [hself, if_neg fun hin => hout ⟨rfl, hin⟩]
    · exact ⟨fun hin => absurd hin.1 ho, fun _ => hother o x ty ho⟩
  refine ⟨⟨hf.nodup, ?_, ?_, ?_, ?_⟩, hsets⟩
  · have hgrouped := hs.grouped
    rw [hflock, map_append, map_append] at hgrouped
    rw [hf.flock, map_append, map_append]
    have hb : c.before.map (fun a => (s'.lock a).owner) = c.before.map fun a => (s.lock a).owner :=
      map_congr_left fun a ha => by rw [hframe a (mem_append_left _ ha)]
    have hh : c.behind.map (fun a => (s'.lock a).owner) = c.behind.map fun a => (s.lock a).owner :=
      map_congr_left fun a ha => by rw [hframe a (mem_append_right _ ha)]
    rw [hb, hh]
    refine hgrouped.replace (forall_mem_map.mpr hmine) (forall_mem_map.mpr hmine') ?_ ?_
    · rw [← map_append]
      exact forall_mem_map.mpr hothers
    · intro hnil
      rw [hempty (map_eq_nil_iff.mp hnil), map_nil]
  · intro a ha
    rcases (hmem a).mp ha with hin | hin
    · rw [hframe a hin]
      exact hs.valid a ((hmem0 a).mpr (.inl hin))
    · rw [hmine' a hin]
      exact hf.valid a hin
  · intro o
    by_cases ho : o = c.r.owner
    · subst ho
      rw [locksOf_eq hf.flock hmine' hothers']
      exact hf.sep
    -- the locks of another owner are where they were
    have hnone {l : List α} {t : State α ω} (hl : ∀ a ∈ l, (t.lock a).owner = c.r.owner) :
        l.filter (fun a => decide ((t.lock a).owner = o)) = [] := by
      refine filter_eq_nil_iff.mpr fun a ha => ?_
      simpa [hl a ha] using Ne.symm ho
    have hkeep : ∀ l : List α, (∀ a ∈ l, a ∈ c.before ++ c.behind) →
        l.filter (fun a => decide ((s'.lock a).owner = o)) =
          l.filter fun a => decide ((s.lock a).owner = o) :=
      fun l hl => filter_congr fun a ha => by rw [hframe a (hl a ha)]
    have hsame : locksOf s' o = locksOf s o := by
      rw [locksOf, hf.flock, locksOf, hflock]
      simp only [filter_append]
      rw [hnone hmine', hnone hmine, hkeep c.before fun a ha => mem_append_left _ ha,
        hkeep c.behind fun a ha => mem_append_right _ ha]
    have hin (a) (ha : a ∈ locksOf s o) : s'.lock a = s.lock a := by
      obtain ⟨hmem', howner⟩ := mem_locksOf.mp ha
      rcases (hmem0 a).mp hmem' with hin | hin
      · exact hframe a hin
      · exact absurd (howner.symm.trans (hmine a hin)) ho
    rw [hsame, map_congr_left hin]
    exact hs.separated o
  · intro o o' x ty ty' hne h1 h2
    -- a byte of the request was free for it
    have hcase : ∀ {o ty}, HeldBy s' o x ty → HeldBy s o x ty ∨
        o = c.r.owner ∧ (c.r.start ≤ x ∧ x ≤ c.r.stop) ∧ ty = c.r.type ∧ c.r.type ≠ .UNLCK := by
      intro o ty h
      by_cases hin : o = c.r.owner ∧ c.r.start ≤ x ∧ x ≤ c.r.stop
      · exact .inr ⟨hin.1, hin.2, ((hsets o x ty).1 hin).mp h⟩
      · exact .inl (((hsets o x ty).2 hin).mp h)
    rcases hcase h1 with h1 | ⟨rfl, hx, rfl, hu⟩
    · rcases hcase h2 with h2 | ⟨rfl, hx, rfl, hu⟩
      · exact hs.exclusive o o' x ty ty' hne h1 h2
      · exact hfree hu o x ty hne hx.1 hx.2 h1
    · rcases hcase h2 with h2 | ⟨rfl, -, -, -⟩
      · exact (hfree hu o' x ty' (Ne.symm hne) hx.1 hx.2 h2).symm
      · exact absurd rfl hne

/-- Requests for a range of bytes that a file can have. -/
structure Allowed (s : State α ω) (call : Call α ω) : Prop where
  fresh : FreshEnv s.flock call.request call.env
  start : 0 ≤ call.fl.start
  le : call.fl.start ≤ call.fl.stop
  stop : call.fl.stop ≤ OFFSET_MAX

omit [DecidableEq α] in
/-- Where the loops of `__posix_lock_file` begin. -/
theorem split_at_owner {l before mine behind : List α} {p : α → Bool}
    (hl : l = before ++ mine ++ behind) (hmine : ∀ a ∈ mine, p a = false)
    (hbefore : ∀ a ∈ before, p a = true) (hempty : mine = [] → behind = []) :
    l.takeWhile p = before ∧ l.dropWhile p = mine ++ behind := by
  have hstop : (mine ++ behind).takeWhile p = [] ∧ (mine ++ behind).dropWhile p = mine ++ behind := by
    cases mine with
    | nil => rw [hempty rfl]; exact ⟨rfl, rfl⟩
    | cons a mine => simp [hmine a (by simp)]
  rw [hl, append_assoc, takeWhile_append_of_pos hbefore,
    dropWhile_append_of_pos hbefore, hstop.1, hstop.2]
  simp

omit [DecidableEq α] in
/-- No lock of another owner conflicts with the request. -/
theorem free_of_no_conflict
    (h : ¬ (r.type ≠ .UNLCK ∧ (s.flock.any fun fl => posixLocksConflict r (s.lock fl)) = true))
    (hs : Inv s) (hu : r.type ≠ .UNLCK) {o : ω} {x : Int} (ho : o ≠ r.owner) (hstart : r.start ≤ x)
    (hstop : x ≤ r.stop) (hheld : HeldBy s o x ty) : ty = .RDLCK ∧ r.type = .RDLCK := by
  obtain ⟨a, ha, howner, h1, h2, rfl⟩ := hheld
  have hno : posixLocksConflict r (s.lock a) = false := by
    by_contra hconflict
    exact h ⟨hu, any_eq_true.mpr ⟨a, ha, by simpa using hconflict⟩⟩
  have hsame : posixSameOwner r (s.lock a) = false := by
    simpa [posixSameOwner, howner] using Ne.symm ho
  have hoverlap : locksOverlap r (s.lock a) = true := by
    simp only [locksOverlap, Bool.and_eq_true, decide_eq_true_eq]
    omega
  have hu' := (hs.valid a ha).type
  simp only [posixLocksConflict, hsame, hoverlap, locksConflict, if_true] at hno
  cases htype : (s.lock a).type <;> cases hrtype : r.type <;> simp_all

/-- One request. -/
theorem posixLockFile_spec {request : α} (flags : Flags) {env : Env α} (hs : Inv s)
    (hfresh : FreshEnv s.flock request env) (hstart : 0 ≤ (s.lock request).start)
    (hle : (s.lock request).start ≤ (s.lock request).stop)
    (hstop : (s.lock request).stop ≤ OFFSET_MAX) : Inv (posixLockFile s request flags env).1 ∧
      if (posixLockFile s request flags env).2 = .ok ∧ flags.access = false then
        Sets s (posixLockFile s request flags env).1 (s.lock request)
      else ∀ o x ty, HeldBy (posixLockFile s request flags env).1 o x ty ↔ HeldBy s o x ty := by
  unfold posixLockFile
  generalize hr : s.lock request = r at hstart hle hstop ⊢
  by_cases hconflict : r.type ≠ .UNLCK ∧
      (s.flock.any fun fl => posixLocksConflict r (s.lock fl)) = true
  · rw [if_pos hconflict]
    cases flags.sleep <;> cases env.deadlock <;> exact ⟨hs, by simp⟩
  rw [if_neg hconflict]
  cases haccess : flags.access with
  | true => exact ⟨hs, by simp⟩
  | false =>
    obtain ⟨before, mine, behind, hflock, hmine, hothers, hempty⟩ := hs.grouped.split _ r.owner
    obtain ⟨htake, hdrop⟩ := split_at_owner (p := fun fl => !posixSameOwner r (s.lock fl)) hflock
      (fun a ha => by simp [posixSameOwner, hmine a ha])
      (fun a ha => by
        simpa [posixSameOwner] using Ne.symm (hothers a (mem_append_left _ ha))) hempty
    rw [htake, hdrop]
    have hlocks := locksOf_eq hflock hmine hothers
    let c : Ctx α ω := ⟨s.lock, request, r, before, mine, behind⟩
    have hc : c.Ok := by
      refine ⟨hflock ▸ hs.nodup, hflock ▸ hfresh.request_out, ?_, ?_, hothers, hstart, hle, hstop, hr⟩
      · show Separated (mine.map s.lock)
        rw [← hlocks]
        exact hs.separated r.owner
      intro a ha
      have := hs.valid a (by rw [hflock]; simp [show a ∈ mine from ha])
      rwa [hmine a ha] at this
    have hinit : ScanInv c s.lock [] request false none mine := by
      refine ⟨by simp [placed, c], fun _ => rfl, fun _ _ => rfl, by rw [hr], by rw [hr], ?_, ?_, ?_,
        ?_, by simp, by simp, by simp, fun _ _ _ => by simp [c], ?_, fun _ => ⟨rfl, rfl⟩, by simp⟩
      · exact Int.le_of_eq (by rw [hr])
      · exact Int.le_of_eq (by rw [hr])
      · rw [hr]; exact hstart
      · rw [hr]; exact hstop
      · intro x h1 h2 hout
        rw [hr] at h1 h2
        exact absurd ⟨h1, h2⟩ hout
    obtain ⟨passed, rest, added, left, hd⟩ := scan_spec hc hinit
    rw [show c.before ++ [] ++ placed c false request = before by simp [placed, c]] at hd
    have hfree : c.r.type ≠ .UNLCK → ∀ o x ty, o ≠ c.r.owner → c.r.start ≤ x → x ≤ c.r.stop →
        HeldBy s o x ty → ty = .RDLCK ∧ c.r.type = .RDLCK :=
      fun hu o x ty ho h1 h2 hheld => free_of_no_conflict hconflict hs hu ho h1 h2 hheld
    have henv (b : Bool) : FreshEnv s.flock request
        ⟨if b = true then env.newFl else none, if b = true then env.newFl2 else none, false⟩ := by
      cases b with
      | false => exact ⟨hfresh.request_out, by simp, by simp, by simp⟩
      | true => exact ⟨hfresh.request_out, hfresh.newFl, hfresh.newFl2, hfresh.ne⟩
    rw [hflock] at henv
    rcases finish_spec hc hd flags (henv (!false && (decide (r.type ≠ .UNLCK) ||
      decide (r.start ≠ 0) || decide (r.stop ≠ OFFSET_MAX)))) with ⟨hok, mine', hf⟩ | ⟨hok, hun⟩
    · obtain ⟨hinv, hsets⟩ := hf.inv hs rfl hflock hmine hothers hempty hfree
      refine ⟨hinv, ?_⟩
      rw [if_pos ⟨hok, rfl⟩]
      exact hsets
    · have hlock := hun.lock
      rw [hun.flock, show c.before ++ c.mine ++ c.behind = s.flock from hflock.symm] at hlock
      have hfl := hun.flock.trans hflock.symm
      refine ⟨hs.congr hfl hlock, ?_⟩
      rw [if_neg fun h => hok h.1]
      exact fun o x ty => heldBy_congr hfl hlock

theorem step_spec {call : Call α ω} (hs : Inv s) (hcall : Allowed s call) :
    ∃ s' result, step s call = some (s', [⟨call.fl, call.flags, result⟩]) ∧ Inv s' ∧
      if result = .ok ∧ call.flags.access = false then Sets s s' call.fl
      else ∀ o x ty, HeldBy s' o x ty ↔ HeldBy s o x ty := by
  -- filling in the structure of the request is not seen
  let s0 : State α ω := ⟨update s.lock call.request call.fl, s.flock⟩
  have hlock (a) (ha : a ∈ s.flock) : s0.lock a = s.lock a := by
    have hne : a ≠ call.request := by
      rintro rfl
      exact hcall.fresh.request_out ha
    exact update_of_ne hne ..
  have hfl : s0.lock call.request = call.fl := update_self ..
  have hs0 : Inv s0 := hs.congr rfl hlock
  have hspec := posixLockFile_spec call.flags hs0 hcall.fresh
    (by rw [hfl]; exact hcall.start) (by rw [hfl]; exact hcall.le) (by rw [hfl]; exact hcall.stop)
  have heldBy_eq : ∀ o x ty, HeldBy s0 o x ty ↔ HeldBy s o x ty :=
    fun o x ty => heldBy_congr rfl hlock
  refine ⟨(posixLockFile s0 call.request call.flags call.env).1,
    (posixLockFile s0 call.request call.flags call.env).2, rfl, hspec.1, ?_⟩
  have hrest := hspec.2
  rw [hfl] at hrest
  split at hrest
  · rename_i hok
    rw [if_pos hok]
    intro o x ty
    have := hrest o x ty
    rwa [heldBy_eq] at this
  · rename_i hok
    rw [if_neg hok]
    intro o x ty
    rw [hrest, heldBy_eq]

/-! ## Any sequence of requests -/

omit [DecidableEq α] in
theorem inv_empty (lock : α → FileLock ω) : Inv ⟨lock, []⟩ := by
  refine ⟨nodup_nil, trivial, by simp, fun o => List.Pairwise.nil, ?_⟩
  rintro o o' x ty ty' - ⟨a, ha, -⟩
  exact absurd ha not_mem_nil

theorem RunWith.inv {lock : α → FileLock ω} {evs : List (Event ω)}
    (h : RunWith Allowed step ⟨lock, []⟩ evs s) : Inv s := by
  refine h.invariant_of_step (inv_empty lock) fun call ht hcall => ?_
  obtain ⟨s', result, hstep, hinv, -⟩ := step_spec ht hcall
  exact ⟨_, hstep, hinv⟩

omit [DecidableEq α] in
/-- The type of lock as the list has it. -/
theorem held_eq_of_heldBy (hs : Inv s) (hs' : Inv s')
    (h : ∀ ty, HeldBy s' o x ty ↔ HeldBy s o x ty) : held s' o x = held s o x := by
  refine ext fun ty => ?_
  rw [hs'.held_eq, hs.held_eq]
  exact h ty

/-- In every run of requests, the list is a function of owner and byte that no two owners'
locks contradict; each owner's locks are together, sorted, disjoint and merged; and the
next request, unless it only tests (`FL_ACCESS`), sets its owner's bytes when it succeeds
and leaves everything as it is when it fails. -/
theorem posix_locks_run {lock : α → FileLock ω} {evs : List (Event ω)}
    (hrun : RunWith Allowed step ⟨lock, []⟩ evs s) :
    (∀ o, ∃ before mine behind, s.flock = before ++ mine ++ behind ∧
      (∀ a ∈ mine, Valid o (s.lock a)) ∧ (∀ a ∈ before ++ behind, (s.lock a).owner ≠ o) ∧
      Separated (mine.map s.lock)) ∧
    (∀ o o' x, o ≠ o' → held s o x = some .WRLCK → held s o' x = none) ∧
    ∀ call, Allowed s call →
      ∃ s' result, step s call = some (s', [⟨call.fl, call.flags, result⟩]) ∧
        (result = .ok → call.flags.access = false → ∀ o x, held s' o x =
          if o = call.fl.owner ∧ call.fl.start ≤ x ∧ x ≤ call.fl.stop then
            if call.fl.type = .UNLCK then none else some call.fl.type
          else held s o x) ∧
        (result ≠ .ok ∨ call.flags.access = true → ∀ o x, held s' o x = held s o x) := by
  have hs := RunWith.inv hrun
  refine ⟨?_, ?_, ?_⟩
  · intro o
    obtain ⟨before, mine, behind, hflock, hmine, hothers, -⟩ := hs.grouped.split _ o
    refine ⟨before, mine, behind, hflock, ?_, hothers, ?_⟩
    · intro a ha
      have := hs.valid a (by rw [hflock]; simp [ha])
      rwa [hmine a ha] at this
    · rw [← locksOf_eq hflock hmine hothers]
      exact hs.separated o
  · intro o o' x hne hwrite
    cases hheld : held s o' x with
    | none => rfl
    | some ty =>
      have := (hs.exclusive o o' x _ _ hne (hs.held_eq.mp hwrite) (hs.held_eq.mp hheld)).1
      cases this
  · intro call hcall
    obtain ⟨s', result, hstep, hs', hspec⟩ := step_spec hs hcall
    refine ⟨s', result, hstep, ?_, ?_⟩
    · intro hok haccess o x
      rw [if_pos ⟨hok, haccess⟩] at hspec
      split
      · rename_i hin
        refine ext fun ty => ?_
        rw [hs'.held_eq, (hspec o x ty).1 hin]
        split
        · rename_i hu
          simp [hu]
        · rename_i hu
          simp [hu, eq_comm]
      · rename_i hout
        exact held_eq_of_heldBy hs hs' fun ty => (hspec o x ty).2 hout
    · intro hfailed o x
      rw [if_neg (by rintro ⟨rfl, haccess⟩; simp [haccess] at hfailed)] at hspec
      exact held_eq_of_heldBy hs hs' fun ty => hspec o x ty

end

/-! ## Two owners -/

/-- A request for bytes 0 to 9 by owner 1. -/
def firstCall : Call Nat Nat where
  request := 0
  fl := ⟨1, .WRLCK, 0, 9⟩
  flags := ⟨false, false, false⟩
  env := ⟨some 1, some 2, false⟩

/-- The same owner unlocks the bytes in the middle. -/
def secondCall : Call Nat Nat where
  request := 0
  fl := ⟨1, .UNLCK, 3, 5⟩
  flags := ⟨false, false, false⟩
  env := ⟨some 3, some 4, false⟩

def noLocks : State Nat Nat := ⟨fun _ => ⟨0, .UNLCK, 0, 0⟩, []⟩

theorem posix_locks_run_split : ∃ s evs, RunWith Allowed step noLocks evs s ∧ evs.length = 2 ∧
    (∀ o o' x, o ≠ o' → held s o x = some .WRLCK → held s o' x = none) ∧
    held s 1 2 = some .WRLCK ∧ held s 1 4 = none ∧ held s 1 6 = some .WRLCK := by
  have hallowed1 : Allowed noLocks firstCall :=
    ⟨⟨by decide, by simp [firstCall, noLocks], by simp [firstCall, noLocks], by simp [firstCall]⟩,
      by decide, by decide, by decide⟩
  have hrun1 : RunWith Allowed step noLocks _ _ := .tail firstCall (.refl noLocks) hallowed1 rfl
  have hrun2 : RunWith Allowed step noLocks _ _ := .tail secondCall hrun1
    ⟨⟨by decide, by simp; decide, by simp; decide, by simp [secondCall]⟩,
      by decide, by decide, by decide⟩ rfl
  exact ⟨_, _, hrun2, rfl, (posix_locks_run hrun2).2.1, by decide, by decide, by decide⟩

/-- With `FL_ACCESS`, 0 means that the lock could have been set: it is not set. -/
theorem access_sets_nothing :
    ∃ s', step noLocks { firstCall with flags := ⟨true, false, false⟩ } =
        some (s', [⟨firstCall.fl, ⟨true, false, false⟩, .ok⟩]) ∧
      held s' 1 0 = none :=
  ⟨_, rfl, by decide⟩

end LinuxKernel.Fs.Locks
