/-
  The invariant of the buddy system.

  `Inv z m held` relates the memory of the zone to the list of blocks in use.
  While `__free_one_page` and `expand` are under way, the block they work on is
  neither free nor in use; it is counted among the blocks in use here.  With that
  every change is one of four:

      take       a free block leaves its list and is held
      release    a held block enters its list
      mergeHeld  two held buddies are regarded as their parent
      splitHeld  a held block is regarded as its two halves

  The last two change no memory.  The loops of the code are sequences of these.
-/
import LinuxKernel.Mm.PageAlloc

namespace LinuxKernel.Mm.PageAlloc

open Foundation List Mem Block

/-! ## The invariant -/

/-- The bookkeeping of the zone is exact. -/
structure Inv (z : Zone) (m : Mem) (held : List Block) : Prop where
  /-- the free and the held blocks partition the zone, and all are aligned -/
  tiles : Tiling z.zoneStartPfn z.zoneEndPfn {b | b ∈ held ∨ m.Free b}
  heldNodup : held.Nodup
  apart : ∀ b ∈ held, ¬ m.Free b
  orders : ∀ b, b ∈ held ∨ m.Free b → b.order < z.maxOrder
  listNodup : ∀ order, (m.freeArea order).freeList.Nodup
  /-- PG_buddy marks the heads of the listed blocks -/
  tagged : ∀ pfn, (m.page pfn).pgBuddy = true ↔ ∃ order, m.Free ⟨pfn, order⟩
  /-- and `private` holds their order -/
  tagOrder : ∀ b, m.Free b → (m.page b.start).priv = b.order
  nrFree : ∀ order, (m.freeArea order).nrFree = (m.freeArea order).freeList.length
  /-- coalescing is maximal -/
  coalesced : ∀ b, b.order < z.maxOrder - 1 → m.Free b → ¬ m.Free b.buddy
  /-- free pages have no references -/
  counts : ∀ b, m.Free b → ∀ pfn, b.Has pfn → (m.page pfn).count = 0

namespace Mem

/-- A free block leaves its list. -/
def take (m : Mem) (b : Block) : Mem :=
  ((m.listDel b.start).addNrFree b.order (-1)).rmvPageOrder b.start

/-- A block enters its list. -/
def put (m : Mem) (b : Block) : Mem :=
  ((m.setPageOrder b.start b.order).listAdd b.start b.order).addNrFree b.order 1

section

variable (m : Mem) (b : Block)

theorem take_freeList (order : Nat) :
    ((m.take b).freeArea order).freeList = (m.freeArea order).freeList.erase b.start := by
  by_cases h : order = b.order <;>
    simp [take, rmvPageOrder, putPage, addNrFree, putArea, listDel, h]

theorem take_nrFree (order : Nat) : ((m.take b).freeArea order).nrFree =
      if order = b.order then (m.freeArea order).nrFree - 1 else (m.freeArea order).nrFree := by
  by_cases h : order = b.order
  · simp [take, rmvPageOrder, putPage, addNrFree, putArea, h]
    rfl
  · simp [take, rmvPageOrder, putPage, addNrFree, putArea, listDel, h]

theorem take_page (pfn : Nat) : (m.take b).page pfn =
      if pfn = b.start then { m.page pfn with pgBuddy := false, priv := 0 } else m.page pfn := by
  by_cases h : pfn = b.start <;> simp [take, rmvPageOrder, putPage, addNrFree, putArea, listDel, h]

theorem put_freeList (order : Nat) : ((m.put b).freeArea order).freeList =
      if order = b.order then b.start :: (m.freeArea order).freeList
      else (m.freeArea order).freeList := by
  by_cases h : order = b.order <;> simp [put, setPageOrder, putPage, addNrFree, putArea, listAdd, h]

theorem put_nrFree (order : Nat) : ((m.put b).freeArea order).nrFree =
      if order = b.order then (m.freeArea order).nrFree + 1 else (m.freeArea order).nrFree := by
  by_cases h : order = b.order <;> simp [put, setPageOrder, putPage, addNrFree, putArea, listAdd, h]

theorem put_page (pfn : Nat) : (m.put b).page pfn =
      if pfn = b.start then { m.page pfn with pgBuddy := true, priv := b.order }
      else m.page pfn := by
  by_cases h : pfn = b.start <;> simp [put, setPageOrder, putPage, addNrFree, putArea, listAdd, h]

theorem take_count (pfn : Nat) : ((m.take b).page pfn).count = (m.page pfn).count := by
  rw [take_page]
  split <;> rfl

theorem put_count (pfn : Nat) : ((m.put b).page pfn).count = (m.page pfn).count := by
  rw [put_page]
  split <;> rfl

end

theorem free_put (m : Mem) (b c : Block) : (m.put b).Free c ↔ c = b ∨ m.Free c := by
  obtain ⟨p, o⟩ := b
  obtain ⟨q, r⟩ := c
  simp only [Free, put_freeList]
  by_cases h : r = o <;> simp [h]

end Mem

variable {pfn : Nat} {held : List Block} {m : Mem} {b : Block} {z : Zone} {s : System}

namespace Inv

variable {c : Block}

theorem mk_ne (hpfn : pfn ≠ b.start) (order : Nat) : (⟨pfn, order⟩ : Block) ≠ b :=
  fun heq => hpfn (heq ▸ rfl)

/-- Two blocks with a common page are equal. -/
theorem eq_of_has (h : Inv z m held) (hb : b ∈ held ∨ m.Free b) (hc : c ∈ held ∨ m.Free c)
    (hbx : b.Has pfn) (hcx : c.Has pfn) : b = c :=
  h.tiles.eq_of_has hb hc hbx hcx

/-- A page determines the free block that it heads. -/
theorem eq_of_start (h : Inv z m held) (hb : m.Free b) (hc : m.Free c)
    (heq : c.start = b.start) : c = b :=
  h.eq_of_has (Or.inr hc) (Or.inr hb) c.has_start (heq ▸ b.has_start)

/-- A free block has no page of a held one. -/
theorem not_has (h : Inv z m held) (hb : b ∈ held) (hc : m.Free c) (hbx : b.Has pfn) :
    ¬ c.Has pfn :=
  fun hcx => h.apart b hb (h.eq_of_has (Or.inl hb) (Or.inr hc) hbx hcx ▸ hc)

/-- PG_buddy and `private` tell the free blocks. -/
theorem marked_iff {order : Nat} (h : Inv z m held) :
    ((m.page pfn).pgBuddy = true ∧ (m.page pfn).priv = order) ↔ m.Free ⟨pfn, order⟩ := by
  rw [h.tagged]
  constructor
  · rintro ⟨⟨k, hfree⟩, rfl⟩
    rwa [h.tagOrder ⟨pfn, k⟩ hfree]
  · exact fun hfree => ⟨⟨order, hfree⟩, h.tagOrder _ hfree⟩

theorem free_take (h : Inv z m held) (hb : m.Free b) : (m.take b).Free c ↔ m.Free c ∧ c ≠ b := by
  simp only [Mem.Free, take_freeList, (h.listNodup c.order).mem_erase_iff]
  constructor
  · rintro ⟨hne, hc⟩
    exact ⟨hc, fun heq => hne (heq ▸ rfl)⟩
  · rintro ⟨hc, hne⟩
    exact ⟨fun heq => hne (h.eq_of_start hb hc heq), hc⟩

/-! ## The four changes -/

/-- A free block becomes a held block. -/
theorem take (h : Inv z m held) (hb : m.Free b) : Inv z (m.take b) (b :: held) := by
  have hset (c) : (c ∈ b :: held ∨ (m.take b).Free c) ↔ (c ∈ held ∨ m.Free c) := by
    rw [h.free_take hb]
    by_cases hcb : c = b
    · simp [hcb, hb]
    · simp [hcb]
  refine ⟨?_, ?_, ?_, ?_, ?_, ?_, ?_, ?_, ?_, ?_⟩
  · simp only [hset]
    exact h.tiles
  · exact nodup_cons.mpr ⟨fun hmem => h.apart b hmem hb, h.heldNodup⟩
  · intro c hc
    rw [h.free_take hb]
    rcases mem_cons.mp hc with rfl | hc
    · simp
    · exact fun hfree => h.apart c hc hfree.1
  · exact fun c hc => h.orders c ((hset c).mp hc)
  · intro order
    rw [take_freeList]
    exact (h.listNodup order).erase _
  · intro pfn
    rw [take_page]
    simp only [h.free_take hb]
    by_cases hpfn : pfn = b.start
    · rw [if_pos hpfn]
      simp only [Bool.false_eq_true, false_iff, not_exists, not_and, not_not]
      intro order hfree
      exact h.eq_of_start hb hfree hpfn
    · simp [if_neg hpfn, h.tagged, mk_ne hpfn]
  · intro c hc
    obtain ⟨hfree, hne⟩ := (h.free_take hb).mp hc
    have hstart : c.start ≠ b.start := fun heq => hne (h.eq_of_start hb hfree heq)
    rw [take_page, if_neg hstart]
    exact h.tagOrder c hfree
  · intro order
    rw [take_nrFree, take_freeList, h.nrFree]
    by_cases horder : order = b.order
    · have hmem : b.start ∈ (m.freeArea order).freeList := horder ▸ hb
      have hpos := length_pos_of_mem hmem
      rw [length_erase_of_mem hmem]
      omega
    · have hmem : b.start ∉ (m.freeArea order).freeList := by
        intro hmem
        have heq := h.eq_of_start (c := ⟨b.start, order⟩) hb hmem rfl
        exact horder (congrArg Block.order heq)
      rw [if_neg horder, erase_of_not_mem hmem]
  · intro c horder hc hbuddy
    exact h.coalesced c horder ((h.free_take hb).mp hc).1 ((h.free_take hb).mp hbuddy).1
  · intro c hc pfn hpfn
    rw [take_count]
    exact h.counts c ((h.free_take hb).mp hc).1 pfn hpfn

/-- A held block whose buddy is not free becomes a free block. -/
theorem release (h : Inv z m (b :: held)) (hcount : ∀ pfn, b.Has pfn → (m.page pfn).count = 0)
    (hbuddy : b.order < z.maxOrder - 1 → ¬ m.Free b.buddy) : Inv z (m.put b) held := by
  have hset (c) : (c ∈ held ∨ (m.put b).Free c) ↔ (c ∈ b :: held ∨ m.Free c) := by
    rw [free_put, mem_cons]
    tauto
  obtain ⟨hbheld, hnodup⟩ := nodup_cons.mp h.heldNodup
  have hbfree : ¬ m.Free b := h.apart b mem_cons_self
  -- no listed block starts where `b` does
  have hstart (c) (hc : m.Free c) : c.start ≠ b.start :=
    fun heq => h.not_has mem_cons_self hc b.has_start (heq ▸ c.has_start)
  refine ⟨?_, hnodup, ?_, ?_, ?_, ?_, ?_, ?_, ?_, ?_⟩
  · simp only [hset]
    exact h.tiles
  · intro c hc
    rw [free_put]
    rintro (rfl | hfree)
    · exact hbheld hc
    · exact h.apart c (by simp [hc]) hfree
  · exact fun c hc => h.orders c ((hset c).mp hc)
  · intro order
    rw [put_freeList]
    split
    · rename_i horder
      refine nodup_cons.mpr ⟨?_, h.listNodup order⟩
      rw [horder]
      exact hbfree
    · exact h.listNodup order
  · intro pfn
    rw [put_page]
    simp only [free_put]
    by_cases hpfn : pfn = b.start
    · subst hpfn
      rw [if_pos rfl]
      simp only [true_iff]
      exact ⟨b.order, Or.inl rfl⟩
    · simp [if_neg hpfn, h.tagged, mk_ne hpfn]
  · intro c hc
    rw [put_page]
    rcases (free_put m b c).mp hc with rfl | hfree
    · rw [if_pos rfl]
    · rw [if_neg (hstart c hfree)]
      exact h.tagOrder c hfree
  · intro order
    rw [put_nrFree, put_freeList, h.nrFree]
    split
    · simp
    · rfl
  · intro c horder hc hcbuddy
    rw [free_put] at hc hcbuddy
    rcases hc with rfl | hc
    · rcases hcbuddy with heq | hfree
      · exact c.buddy_ne heq
      · exact hbuddy horder hfree
    · rcases hcbuddy with rfl | hfree
      · rw [buddy_buddy] at hbuddy
        exact hbuddy horder hc
      · exact h.coalesced c horder hc hfree
  · intro c hc pfn hpfn
    rw [put_count]
    rcases (free_put m b c).mp hc with rfl | hfree
    · exact hcount pfn hpfn
    · exact h.counts c hfree pfn hpfn

/-- Regrouping the held blocks: only the tiling and the list of held blocks are
concerned. -/
theorem regroup {held' : List Block} (h : Inv z m held)
    (htiles : Tiling z.zoneStartPfn z.zoneEndPfn {b | b ∈ held' ∨ m.Free b})
    (hnodup : held'.Nodup) (hapart : ∀ b ∈ held', ¬ m.Free b)
    (horders : ∀ b ∈ held', b.order < z.maxOrder) : Inv z m held' :=
  { h with
    tiles := htiles
    heldNodup := hnodup
    apart := hapart
    orders := fun b hb => hb.elim (horders b) fun hfree => h.orders b (Or.inr hfree) }

/-- A block does not overlap a block of the partition unless they are equal. -/
theorem not_block (h : Inv z m held) (hb : b ∈ held ∨ m.Free b) (hbx : b.Has pfn)
    (hcx : c.Has pfn) (hne : c ≠ b) : c ∉ held ∧ ¬ m.Free c :=
  ⟨fun hc => hne (h.eq_of_has (Or.inl hc) hb hcx hbx),
    fun hc => hne (h.eq_of_has (Or.inr hc) hb hcx hbx)⟩

/-- Two held buddies make a held parent. -/
theorem mergeHeld (h : Inv z m (b.buddy :: b :: held)) (horder : b.order < z.maxOrder - 1) :
    Inv z m (b.parent :: held) := by
  have hb : b ∈ b.buddy :: b :: held := by simp
  have hbuddy : b.buddy ∈ b.buddy :: b :: held := by simp
  have haligned : b.Aligned := h.tiles.aligned b (Or.inl hb)
  have hparent := h.not_block (Or.inl hb) b.has_start ((haligned.has_parent _).mpr
    (Or.inl b.has_start)) (fun heq => by simpa using congrArg Block.order heq)
  have hnodup := h.heldNodup
  simp only [nodup_cons, mem_cons, not_or] at hnodup hparent
  obtain ⟨⟨-, hbuddyHeld⟩, hbHeld, hnodup⟩ := hnodup
  refine h.regroup ?_ ?_ ?_ ?_
  · have hmerged := h.tiles.merge (Or.inl hb) (Or.inl hbuddy)
    have hset : {c | (c ∈ {c | c ∈ b.buddy :: b :: held ∨ m.Free c} ∧ c ≠ b ∧ c ≠ b.buddy) ∨
        c = b.parent} = {c | c ∈ b.parent :: held ∨ m.Free c} := by
      ext c
      have hcb : c ∈ held ∨ m.Free c → c ≠ b ∧ c ≠ b.buddy := by
        rintro (hc | hc)
        · exact ⟨fun heq => hbHeld (heq ▸ hc), fun heq => hbuddyHeld (heq ▸ hc)⟩
        · exact ⟨fun heq => h.apart b hb (heq ▸ hc), fun heq => h.apart _ hbuddy (heq ▸ hc)⟩
      simp only [Set.mem_ofPred_eq, mem_cons]
      tauto
    rwa [hset] at hmerged
  · exact nodup_cons.mpr ⟨hparent.1.2.2, hnodup⟩
  · exact forall_mem_cons.mpr ⟨hparent.2, fun c hc => h.apart c (by simp [hc])⟩
  · refine forall_mem_cons.mpr ⟨?_, fun c hc => h.orders c (Or.inl (by simp [hc]))⟩
    rw [order_parent]
    omega

/-- A held block is its two halves. -/
theorem splitHeld {page high : Nat} (h : Inv z m (⟨page, high + 1⟩ :: held)) :
    Inv z m (⟨page + 2 ^ high, high⟩ :: ⟨page, high⟩ :: held) := by
  have hb : (⟨page, high + 1⟩ : Block) ∈ ⟨page, high + 1⟩ :: held := by simp
  have hpos : 0 < 2 ^ high := Nat.two_pow_pos high
  have hlow := h.not_block (Or.inl hb) (has_start _) (has_start ⟨page, high⟩) (by simp)
  have hhas : (⟨page, high + 1⟩ : Block).Has (page + 2 ^ high) := by
    simp only [Block.Has, stop]
    omega
  have hup := h.not_block (Or.inl hb) hhas (has_start ⟨page + 2 ^ high, high⟩) (by simp)
  have hnodup := h.heldNodup
  simp only [nodup_cons, mem_cons, not_or] at hnodup hlow hup
  have horder : high + 1 < z.maxOrder := h.orders _ (Or.inl hb)
  refine h.regroup ?_ ?_ ?_ ?_
  · have hsplit := h.tiles.split (Or.inl hb)
    have hset : {c | (c ∈ {c | c ∈ (⟨page, high + 1⟩ : Block) :: held ∨ m.Free c} ∧
        c ≠ ⟨page, high + 1⟩) ∨ c = ⟨page, high⟩ ∨ c = ⟨page + 2 ^ high, high⟩} =
        {c | c ∈ (⟨page + 2 ^ high, high⟩ : Block) :: ⟨page, high⟩ :: held ∨ m.Free c} := by
      ext c
      have hcb : c ∈ held ∨ m.Free c → c ≠ ⟨page, high + 1⟩ := by
        rintro (hc | hc)
        · exact fun heq => hnodup.1 (heq ▸ hc)
        · exact fun heq => h.apart _ hb (heq ▸ hc)
      simp only [Set.mem_ofPred_eq, mem_cons]
      tauto
    rwa [hset] at hsplit
  · simp only [nodup_cons, mem_cons, Block.mk.injEq, not_or]
    exact ⟨⟨by omega, hup.1.2⟩, hlow.1.2, hnodup.2⟩
  · simp only [forall_mem_cons]
    exact ⟨hup.2, hlow.2, fun c hc => h.apart c (mem_cons_of_mem _ hc)⟩
  · simp only [forall_mem_cons]
    exact ⟨Nat.lt_of_succ_lt horder, Nat.lt_of_succ_lt horder,
      fun c hc => h.orders c (Or.inl (mem_cons_of_mem _ hc))⟩

/-- What holders do to their own pages does not concern the invariant. -/
theorem of_pages {m' : Mem} (h : Inv z m held) (harea : m'.freeArea = m.freeArea)
    (hbuddy : ∀ pfn, (m'.page pfn).pgBuddy = (m.page pfn).pgBuddy)
    (hpage : ∀ b, m.Free b → ∀ pfn, b.Has pfn → m'.page pfn = m.page pfn) : Inv z m' held := by
  have hfree (b) : m'.Free b ↔ m.Free b := by rw [Mem.Free, Mem.Free, harea]
  refine ⟨?_, h.heldNodup, ?_, ?_, ?_, ?_, ?_, ?_, ?_, ?_⟩
  · simp only [hfree]
    exact h.tiles
  · simp only [hfree]
    exact h.apart
  · simp only [hfree]
    exact h.orders
  · rw [harea]
    exact h.listNodup
  · simp only [hfree, hbuddy]
    exact h.tagged
  · intro b hb
    rw [hpage b ((hfree b).mp hb) _ b.has_start]
    exact h.tagOrder b ((hfree b).mp hb)
  · rw [harea]
    exact h.nrFree
  · simp only [hfree]
    exact h.coalesced
  · intro b hb pfn hpfn
    rw [hpage b ((hfree b).mp hb) pfn hpfn]
    exact h.counts b ((hfree b).mp hb) pfn hpfn

end Inv

/-! ## Freeing -/

section

/-- A block of the partition is in the zone. -/
theorem Inv.not_badRange (h : Inv z m held) (hb : b ∈ held ∨ m.Free b) (hpfn : b.Has pfn) :
    z.badRange pfn = false := by
  have hwithin := h.tiles.within b hb
  simp only [Block.Has] at hpfn
  simp only [Zone.badRange, Bool.or_eq_false_iff, decide_eq_false_iff_not]
  omega

/-- The test of the code finds out whether a block of the zone is free. -/
theorem pageIsBuddy_eq (h : Inv z m held) {c : Block} (hzone : z.badRange c.start = false) :
    pageIsBuddy z m c.start c.order = some (decide (m.Free c)) := by
  have htag : ((m.page c.start).pgBuddy && decide ((m.page c.start).priv = c.order)) =
      decide (m.Free c) := by
    rw [Bool.eq_iff_iff, Bool.and_eq_true, decide_eq_true_iff, decide_eq_true_iff]
    exact h.marked_iff
  rw [pageIsBuddy, hzone, htag]
  by_cases hfree : m.Free c
  · simp [hfree, h.counts c hfree _ c.has_start]
  · simp [hfree]

/-- The loop of `__free_one_page` merges the block with its buddies as long as they
are free. -/
theorem freeLoop_spec (levels : Nat) (hlevels : levels = z.maxOrder - 1 - b.order)
    (h : Inv z m (b :: held)) (hcount : ∀ pfn, b.Has pfn → (m.page pfn).count = 0) :
    ∃ m' c, freeLoop z levels m b.start (b.start % 2 ^ z.maxOrder) b.order =
        some (m', c.start, c.order) ∧
      Inv z m' (c :: held) ∧ (∀ pfn, c.Has pfn → (m'.page pfn).count = 0) ∧
      (c.order < z.maxOrder - 1 → ¬ m'.Free c.buddy) ∧ m'.nrFreePages = m.nrFreePages := by
  induction levels generalizing m b with
  | zero => exact ⟨m, b, rfl, h, hcount, fun hlt => by omega, rfl⟩
  | succ levels ih =>
    have hb : b ∈ b :: held := by simp
    have horder : b.order < z.maxOrder - 1 := by omega
    have haligned := h.tiles.aligned b (Or.inl hb)
    have hlt : b.order < z.maxOrder := by omega
    have hbuddyPage : pageFindBuddy b.start (b.start % 2 ^ z.maxOrder) b.order = b.buddy.start := by
      rw [pageFindBuddy, mod_two_pow_xor hlt]
      exact add_residue_sub (xor_two_pow_div hlt _)
    have hcombined : findCombinedIndex (b.start % 2 ^ z.maxOrder) b.order =
        b.parent.start % 2 ^ z.maxOrder := mod_two_pow_ldiff _ _ _
    have hnextPage : b.start + b.parent.start % 2 ^ z.maxOrder - b.start % 2 ^ z.maxOrder =
        b.parent.start := add_residue_sub (ldiff_two_pow_div hlt _)
    have hzone : z.badRange b.buddy.start = false := by
      have hwithin := haligned.parent_within z.start_aligned z.end_aligned horder
        (h.tiles.within b (Or.inl hb))
      have hin := (haligned.has_parent b.buddy.start).mpr (Or.inr b.buddy.has_start)
      simp only [Block.Has] at hin
      simp only [Zone.badRange, Bool.or_eq_false_iff, decide_eq_false_iff_not]
      omega
    have htest : pageIsBuddy z m b.buddy.start b.order = some (decide (m.Free b.buddy)) :=
      pageIsBuddy_eq h hzone
    by_cases hfree : m.Free b.buddy
    · -- the buddy is free: take it and go on with the parent
      have hmerged := (h.take hfree).mergeHeld horder
      obtain ⟨m', c, hrun, hinv, hzero, hend, hpages⟩ := ih
        (by rw [order_parent]; omega) hmerged (by
          intro pfn hpfn
          rw [take_count]
          rcases (haligned.has_parent pfn).mp hpfn with hpfn | hpfn
          · exact hcount pfn hpfn
          · exact h.counts _ hfree pfn hpfn)
      refine ⟨m', c, ?_, hinv, hzero, hend, hpages⟩
      simp only [freeLoop, hbuddyPage, htest, hfree, hcombined, hnextPage]
      exact hrun
    · refine ⟨m, b, ?_, h, hcount, fun _ => hfree, rfl⟩
      simp [freeLoop, hbuddyPage, htest, hfree]

/-- `__free_one_page` of a held block without references. -/
theorem freeOnePage_spec (h : Inv z m (b :: held))
    (hcount : ∀ pfn, b.Has pfn → (m.page pfn).count = 0) :
    ∃ m', freeOnePage z m b.start b.order = some m' ∧ Inv z m' held ∧
      m'.nrFreePages = m.nrFreePages + 2 ^ b.order := by
  have hb : b ∈ b :: held := by simp
  have hlt := h.orders b (Or.inl hb)
  have hpages : Inv z (m.modFreePages (2 ^ b.order)) (b :: held) :=
    h.of_pages rfl (fun _ => rfl) (fun _ _ _ _ => rfl)
  obtain ⟨m', c, hrun, hinv, hzero, hend, hsame⟩ :=
    freeLoop_spec (z.maxOrder - 1 - b.order) rfl hpages hcount
  refine ⟨m'.put c, ?_, hinv.release hzero hend, hsame⟩
  have haligned : b.start % 2 ^ z.maxOrder % 2 ^ b.order = 0 := by
    rw [Nat.mod_mod_of_dvd _ (Nat.pow_dvd_pow 2 (Nat.le_of_lt hlt))]
    exact Nat.mod_eq_zero_of_dvd (h.tiles.aligned b (Or.inl hb))
  have hzone := h.not_badRange (Or.inl hb) b.has_start
  simp only [freeOnePage, Nat.and_two_pow_sub_one_eq_mod, haligned, hzone, hrun, ne_eq,
    not_true_eq_false, Bool.false_eq_true, or_self, if_false, Option.bind_eq_bind,
    Option.bind_some]
  rfl

end

/-! ## Allocation -/

section

/-- `expand` frees the upper halves of a held block down to the wanted order. -/
theorem expand_spec {page low : Nat} (high : Nat) (hle : low ≤ high)
    (h : Inv z m (⟨page, high⟩ :: held))
    (hcount : ∀ pfn, (⟨page, high⟩ : Block).Has pfn → (m.page pfn).count = 0) :
    ∃ m', expand z page low high m = some m' ∧ Inv z m' (⟨page, low⟩ :: held) ∧
      m'.nrFreePages = m.nrFreePages := by
  induction high generalizing m with
  | zero =>
    obtain rfl : low = 0 := by omega
    exact ⟨m, rfl, h, rfl⟩
  | succ high ih =>
    by_cases hlow : low < high + 1
    · have hsplit := h.splitHeld
      have hzone := hsplit.not_badRange (Or.inl (by simp)) (has_start ⟨page + 2 ^ high, high⟩)
      -- the buddy of the upper half is the lower half, which is held
      have hbuddy : ¬ m.Free (⟨page + 2 ^ high, high⟩ : Block).buddy := by
        rw [buddy_upper (h.tiles.aligned ⟨page, high + 1⟩ (Or.inl (by simp)))]
        exact hsplit.apart _ (by simp)
      have hreleased := hsplit.release (fun pfn hpfn => hcount pfn (by
        simp only [Block.Has, stop] at hpfn ⊢
        omega)) (fun _ => hbuddy)
      obtain ⟨m', hrun, hinv, hsame⟩ := ih (by omega) hreleased (fun pfn hpfn => by
        rw [put_count]
        refine hcount pfn ?_
        simp only [Block.Has, stop] at hpfn ⊢
        omega)
      refine ⟨m', ?_, hinv, hsame⟩
      simp only [expand, if_pos hlow, hzone]
      exact hrun
    · obtain rfl : low = high + 1 := by omega
      exact ⟨m, by simp [expand], h, rfl⟩

/-- The loop of `__rmqueue` returns NULL only if nothing is listed from `current` on. -/
theorem rmqueueLoop_spec {order : Nat} (h : Inv z m held) :
    ∀ (levels current : Nat), levels = z.maxOrder - current → order ≤ current →
    (∃ m' page, rmqueueLoop z m order levels current = some (m', some page) ∧
      Inv z m' (⟨page, order⟩ :: held) ∧ m'.nrFreePages = m.nrFreePages - 2 ^ order) ∨
    (rmqueueLoop z m order levels current = some (m, none) ∧
      ∀ b, current ≤ b.order → ¬ m.Free b) := by
  intro levels
  induction levels with
  | zero =>
    intro current hlevels _
    refine Or.inr ⟨rfl, fun b hb hfree => ?_⟩
    have horder := h.orders b (Or.inr hfree)
    omega
  | succ levels ih =>
    intro current hlevels hle
    cases hlist : (m.freeArea current).freeList with
    | nil =>
      simp only [rmqueueLoop, hlist]
      rcases ih (current + 1) (by omega) (by omega) with hfound | ⟨hnone, hempty⟩
      · exact Or.inl hfound
      refine Or.inr ⟨hnone, fun b hb hfree => ?_⟩
      by_cases hb' : b.order = current
      · rw [Mem.Free, hb', hlist] at hfree
        simp at hfree
      · exact hempty b (by omega) hfree
    | cons page rest =>
      left
      have hfree : m.Free ⟨page, current⟩ := by simp [Mem.Free, hlist]
      have htaken : Inv z ((m.take ⟨page, current⟩).modFreePages (-2 ^ order))
          (⟨page, current⟩ :: held) :=
        (h.take hfree).of_pages rfl (fun _ => rfl) (fun _ _ _ _ => rfl)
      obtain ⟨m', hrun, hinv, hsame⟩ := expand_spec current hle htaken (fun pfn hpfn => by
        have hcount := take_count m ⟨page, current⟩ pfn
        exact hcount.trans (h.counts _ hfree pfn hpfn))
      refine ⟨m', page, ?_, hinv, hsame⟩
      have hexpand : expand z page order current ((((m.listDel page).rmvPageOrder page).addNrFree
          current (-1)).modFreePages (-2 ^ order)) = some m' := hrun
      simp [rmqueueLoop, hlist, hexpand]

/-- `__rmqueue` hands out a block of the wanted order, or returns NULL when no free
block is large enough. -/
theorem rmqueue_spec (h : Inv z m held) (order : Nat) :
    (∃ m' page, rmqueue z m order = some (m', some page) ∧ Inv z m' (⟨page, order⟩ :: held) ∧
      m'.nrFreePages = m.nrFreePages - 2 ^ order) ∨
    (rmqueue z m order = some (m, none) ∧ ∀ b, order ≤ b.order → ¬ m.Free b) :=
  rmqueueLoop_spec h (z.maxOrder - order) order rfl (Nat.le_refl _)

end

/-! ## Runs -/

section

variable {evs : List Allocated} {t : System}

theorem Boot.inv (hboot : Boot z s) : Inv z s.mem s.held := by
  have hfree (b) : ¬ s.mem.Free b := fun hb => by
    rw [Mem.Free, hboot.lists] at hb
    simp at hb
  refine ⟨?_, hboot.nodup, fun b _ => hfree b, ?_, ?_, ?_, fun b hb => absurd hb (hfree b), ?_,
    fun b _ hb => absurd hb (hfree b), fun b hb => absurd hb (hfree b)⟩
  · simpa only [hfree, or_false] using hboot.tiles
  · rintro b (hb | hb)
    · exact hboot.orders b hb
    · exact absurd hb (hfree b)
  · simp [hboot.lists]
  · simp [hboot.noBuddy, hfree]
  · simp [hboot.lists]

/-- The reset of the counts of a held block by `free_pages_check`. -/
theorem Inv.freePagesCheck (h : Inv z m held) (hb : b ∈ held) :
    Inv z (m.freePagesCheck b.start b.order) held := by
  refine h.of_pages rfl (fun pfn => ?_) (fun c hc pfn hpfn => ?_)
  · simp only [Mem.freePagesCheck]
    split <;> rfl
  · have hout : ¬ (b.start ≤ pfn ∧ pfn < b.start + 2 ^ b.order) :=
      fun hin => h.not_has hb hc hin hpfn
    simp [Mem.freePagesCheck, if_neg hout]

/-- The number of pages in use. -/
def heldPages (held : List Block) : Int := (held.map fun b => (2 : Int) ^ b.order).sum

theorem heldPages_cons (b : Block) (held : List Block) :
    heldPages (b :: held) = 2 ^ b.order + heldPages held := by
  simp [heldPages]

/-- Freeing a held block is never refused. -/
theorem free_defined (h : Inv z s.mem s.held) (hb : b ∈ s.held) :
    ∃ m', step z s (.free b.start b.order) = some (⟨m', s.held.erase b⟩, []) ∧
      Inv z m' (s.held.erase b) ∧ m'.nrFreePages = s.mem.nrFreePages + 2 ^ b.order := by
  have hperm : List.Perm s.held (b :: s.held.erase b) := perm_cons_erase hb
  have hchecked := h.freePagesCheck hb
  have hfront : Inv z (s.mem.freePagesCheck b.start b.order) (b :: s.held.erase b) := by
    refine hchecked.regroup ?_ (hperm.nodup_iff.mp h.heldNodup) ?_ ?_
    · simp only [← hperm.mem_iff]
      exact hchecked.tiles
    · exact fun c hc => hchecked.apart c (hperm.mem_iff.mpr hc)
    · exact fun c hc => hchecked.orders c (Or.inl (hperm.mem_iff.mpr hc))
  obtain ⟨m', hrun, hinv, hpages⟩ := freeOnePage_spec hfront (fun pfn hpfn => by
    have hin : b.start ≤ pfn ∧ pfn < b.start + 2 ^ b.order := hpfn
    simp [Mem.freePagesCheck, if_pos hin])
  refine ⟨m', ?_, hinv, hpages⟩
  simp [step, if_pos hb, hrun]

/-- One call keeps the invariant, and the sum of the free and the used pages. -/
theorem step_inv {call : Call} (h : Inv z s.mem s.held) (hstep : step z s call = some (t, evs)) :
    Inv z t.mem t.held ∧
      t.mem.nrFreePages + heldPages t.held = s.mem.nrFreePages + heldPages s.held := by
  cases call with
  | rmqueue order =>
    rcases rmqueue_spec h order with ⟨m', page, hrun, hinv, hpages⟩ | ⟨hrun, -⟩
    · simp only [step, hrun] at hstep
      obtain ⟨rfl, -⟩ := hstep
      refine ⟨hinv, ?_⟩
      simp only [heldPages_cons]
      omega
    · simp only [step, hrun] at hstep
      obtain ⟨rfl, -⟩ := hstep
      exact ⟨h, rfl⟩
  | free page order =>
    by_cases hb : (⟨page, order⟩ : Block) ∈ s.held
    · obtain ⟨m', hrun, hinv, hpages⟩ := free_defined h hb
      rw [hrun] at hstep
      obtain ⟨rfl, -⟩ := hstep
      refine ⟨hinv, ?_⟩
      have hsum : heldPages s.held = 2 ^ order + heldPages (s.held.erase ⟨page, order⟩) := by
        exact ((perm_cons_erase hb).map _).sum_eq
      simp only at hpages ⊢
      omega
    · simp [step, hb] at hstep
  | touch pfn priv count =>
    simp only [step] at hstep
    split at hstep
    · rename_i hheld
      obtain ⟨b, hb, hpfn⟩ := hheld
      obtain ⟨rfl, -⟩ := hstep
      refine ⟨h.of_pages rfl (fun x => ?_) (fun c hc x hx => ?_), rfl⟩
      · by_cases hx : x = pfn <;> simp [putPage, hx]
      · have hne : x ≠ pfn := fun heq => h.not_has hb hc hpfn (heq ▸ hx)
        simp [putPage, hne]
    · simp at hstep

/-- The invariant holds after every run from boot. -/
theorem run_inv (hboot : Boot z s) (hrun : Run (step z) s evs t) : Inv z t.mem t.held :=
  hrun.invariant hboot.inv
    fun _ hinv hstep => (step_inv hinv hstep).1

/-- The contract of the buddy system.  After any sequence of calls: free blocks
and blocks in use partition the pages of the zone, free blocks are aligned,
PG_buddy and `private` mark exactly the heads of the listed blocks, the counters
are the lengths of the lists, no two buddies below the top order are both free;
no call by a holder is refused, and an allocation fails only if no free block of
its order or a larger one exists. -/
theorem buddy_run_contract {s t : System} {evs : List Allocated} (hboot : Boot z s)
    (hrun : Run (step z) s evs t) :
    (∀ pfn, z.zoneStartPfn ≤ pfn → pfn < z.zoneEndPfn →
      ∃! b, (b ∈ t.held ∨ t.mem.Free b) ∧ b.Has pfn) ∧
    (∀ b, b ∈ t.held ∨ t.mem.Free b → z.zoneStartPfn ≤ b.start ∧ b.stop ≤ z.zoneEndPfn) ∧
    t.held.Nodup ∧ (∀ order, (t.mem.freeArea order).freeList.Nodup) ∧
    (∀ b ∈ t.held, ¬ t.mem.Free b) ∧
    (∀ b, t.mem.Free b → 2 ^ b.order ∣ b.start) ∧
    (∀ pfn order, ((t.mem.page pfn).pgBuddy = true ∧ (t.mem.page pfn).priv = order) ↔
      t.mem.Free ⟨pfn, order⟩) ∧
    (∀ order, (t.mem.freeArea order).nrFree = (t.mem.freeArea order).freeList.length) ∧
    (∀ pfn order, order < z.maxOrder - 1 → t.mem.Free ⟨pfn, order⟩ →
      ¬ t.mem.Free ⟨pfn ^^^ 2 ^ order, order⟩) ∧
    (∀ order, ∃ m' page, rmqueue z t.mem order = some (m', page) ∧
      (page = none → ∀ b, order ≤ b.order → ¬ t.mem.Free b)) ∧
    (∀ b ∈ t.held, ∃ u, step z t (.free b.start b.order) = some (u, [])) := by
  have h := run_inv hboot hrun
  refine ⟨h.tiles.unique, h.tiles.within, h.heldNodup, h.listNodup, h.apart,
    fun b hb => h.tiles.aligned b (Or.inr hb), ?_, h.nrFree,
    fun pfn order => h.coalesced ⟨pfn, order⟩, ?_, ?_⟩
  · intro pfn order
    rw [h.tagged]
    constructor
    · rintro ⟨⟨k, hfree⟩, rfl⟩
      have horder : (t.mem.page pfn).priv = k := h.tagOrder _ hfree
      rw [horder]
      exact hfree
    · intro hfree
      exact ⟨⟨order, hfree⟩, h.tagOrder _ hfree⟩
  · intro order
    rcases rmqueue_spec h order with ⟨m', page, hrun', -, -⟩ | ⟨hrun', hnone⟩
    · exact ⟨m', some page, hrun', by simp⟩
    · exact ⟨t.mem, none, hrun', fun _ => hnone⟩
  · intro b hb
    obtain ⟨m', hfree, -⟩ := free_defined h hb
    exact ⟨_, hfree⟩

end

/-- A zone of two pages. -/
def twoPages : Zone where
  maxOrder := 2
  zoneStartPfn := 0
  zoneEndPfn := 2
  maxOrder_pos := by decide
  start_aligned := by decide
  end_aligned := by decide

/-- Both pages are in use. -/
def twoPagesBoot : System where
  mem := ⟨fun _ => ⟨false, 0, 1⟩, fun _ => ⟨[], 0⟩, 0⟩
  held := [⟨0, 0⟩, ⟨1, 0⟩]

/-- When both pages are freed, each is in one free block, and not both blocks are
single pages. -/
theorem buddy_run_contract_merge :
    ∃ evs t, Run (step twoPages) twoPagesBoot evs t ∧ t.held = [] ∧
      (∃! b, (b ∈ t.held ∨ t.mem.Free b) ∧ b.Has 1) ∧
      (t.mem.Free ⟨0, 0⟩ → ¬ t.mem.Free ⟨1, 0⟩) := by
  have hboot : Boot twoPages twoPagesBoot := by
    refine ⟨fun _ => rfl, fun _ => rfl, rfl, by decide, by decide, ?_, ?_, ?_⟩
    · simp [twoPagesBoot, Block.Aligned]
    · simp [twoPagesBoot, twoPages, stop]
    · intro x _ hx
      refine ⟨⟨x, 0⟩, ?_, ?_⟩
      · have hx' : x < 2 := hx
        simp [twoPagesBoot, Block.Has, stop]
        omega
      · rintro b ⟨hb, hbx⟩
        simp only [twoPagesBoot, mem_cons, not_mem_nil, or_false] at hb
        rcases hb with rfl | rfl <;> simp [Block.Has, stop] at hbx ⊢ <;> omega
  have hrun : Run (step twoPages) twoPagesBoot _ _ :=
    .tail (.free 1 0) (.single (.free 0 0) rfl) rfl
  obtain ⟨hunique, -, -, -, -, -, -, -, hbuddies, -⟩ := buddy_run_contract hboot hrun
  exact ⟨_, _, hrun, rfl, hunique 1 (by decide) (by decide), hbuddies 0 0 (by decide)⟩

end LinuxKernel.Mm.PageAlloc
