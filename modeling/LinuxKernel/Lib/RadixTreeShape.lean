/-
  What the memory of a radix tree looks like.

  The tree is described by its table of entries (`Foundation/LevelTable`): items
  at level 0, nodes above.  `Shape` ties the nodes in memory to the table, `Tagged`
  ties their tags to the set of the tagged indices.  Every change that
  lib/radix-tree.c makes to the tree is one of: an entry is written into a node or
  into the root, a node is put on top or taken off the top, a node comes from the
  slab or goes back to it.
-/
import LinuxKernel.Foundation.LevelTable
import LinuxKernel.Lib.RadixTree

namespace LinuxKernel.Lib.RadixTree

open Foundation Function

variable {α β : Type} {c : Config} {s s' : State α β} {e : Nat → Nat → Ptr α β} {a n : α}
  {k j p index : Nat} {T : Tag → Nat → Prop}

theorem tag_cases : ∀ tag : Tag, tag = 0 ∨ tag = 1 := by decide

/-! ## Indices -/

theorem mapSize_pos (c : Config) : 0 < c.mapSize := Nat.two_pow_pos _

theorem mapSize_pow (c : Config) (k : Nat) : c.mapSize ^ k = 2 ^ (k * c.mapShift) := by
  rw [Config.mapSize, ← Nat.pow_mul, Nat.mul_comm]

theorem slotOffset_eq (c : Config) (index k : Nat) :
    slotOffset c index (k * c.mapShift) = index / c.mapSize ^ k % c.mapSize := by
  rw [slotOffset, Nat.and_two_pow_sub_one_eq_mod, Nat.shiftRight_eq_div_pow, mapSize_pow]
  rfl

/-- The table of the largest indices says what it should. -/
theorem maxindex_lt_iff (hi : index < 2 ^ c.indexBits) (h : Nat) :
    index > maxindex c h ↔ index / c.mapSize ^ h ≠ 0 := by
  have hpos : 0 < c.mapSize ^ h := Nat.pow_pos (mapSize_pos c)
  have hdiv : index / c.mapSize ^ h = 0 ↔ index < c.mapSize ^ h := Nat.div_eq_zero_iff_lt hpos
  rw [Ne, hdiv, mapSize_pow]
  unfold maxindex
  by_cases hle : h * c.mapShift ≥ c.indexBits
  · have hpow : 2 ^ c.indexBits ≤ 2 ^ (h * c.mapShift) := Nat.pow_le_pow_right (by decide) hle
    simp only [if_pos hle]
    omega
  simp only [if_neg hle]
  have hsplit : 2 ^ c.indexBits = 2 ^ (h * c.mapShift) * 2 ^ (c.indexBits - h * c.mapShift) := by
    rw [← Nat.pow_add]
    congr 1
    omega
  have hlow : 0 < 2 ^ (c.indexBits - h * c.mapShift) := Nat.two_pow_pos _
  have hhigh : 0 < 2 ^ (h * c.mapShift) := Nat.two_pow_pos _
  have hshift : (2 ^ c.indexBits - 1) >>> (c.indexBits - h * c.mapShift - 1) >>> 1 =
      2 ^ (h * c.mapShift) - 1 := by
    have hone : c.indexBits - h * c.mapShift - 1 + 1 = c.indexBits - h * c.mapShift := by omega
    rw [← Nat.shiftRight_add, hone, Nat.shiftRight_eq_div_pow]
    refine Nat.div_eq_of_lt_le ?_ ?_
    · rw [Nat.sub_mul]
      omega
    · have hsucc : 2 ^ (h * c.mapShift) - 1 + 1 = 2 ^ (h * c.mapShift) := by omega
      rw [hsucc]
      omega
  omega

/-! ## Shape -/

/-- Memory that the slab may hand out. -/
structure Zeroed (c : Config) (s : State α β) (a : α) : Prop where
  slots : ∀ off < c.mapSize, s.slots a off = none
  count : s.count a = 0
  tags : ∀ tag, ∀ off < c.mapSize, s.tags a tag off = false

theorem Zeroed.of_eq (hz : Zeroed c s a) (hslots : s'.slots a = s.slots a)
    (hcount : s'.count a = s.count a) (htags : s'.tags a = s.tags a) : Zeroed c s' a :=
  ⟨by rw [hslots]; exact hz.slots, hcount.trans hz.count, by rw [htags]; exact hz.tags⟩

/-- The node at position `p` of level `k + 1`. -/
structure NodeOk (c : Config) (s : State α β) (e : Nat → Nat → Ptr α β) (k p : Nat) (a : α) :
    Prop where
  live : s.live a = true
  height : s.height a = k + 1
  slots : ∀ off < c.mapSize, s.slots a off = e k (p * c.mapSize + off)
  count : s.count a = used c.mapSize (s.slots a)

structure Shape (c : Config) (s : State α β) (e : Nat → Nat → Ptr α β) : Prop where
  height_lt : s.rootHeight < c.maxPath
  table : Table c.mapSize s.rootHeight e
  rnode : s.rnode = if s.rootHeight = 0 then ptrToDirect (e 0 0) else e s.rootHeight 0
  leaf : ∀ i t, e 0 i = some t → ∃ x, t = .item x
  inner : ∀ k p t, e (k + 1) p = some t → ∃ a, t = .node a ∧ NodeOk c s e k p a
  /-- every node has one place -/
  inj : ∀ k p k' p' a, e k p = some (.node a) → e k' p' = some (.node a) → k = k' ∧ p = p'
  zeroed : ∀ a, s.live a = false → Zeroed c s a

/-- The node `a` is part of the tree. -/
def InTable (e : Nat → Nat → Ptr α β) (a : α) : Prop := ∃ k p, e k p = some (.node a)

namespace Shape

section

variable (hs : Shape c s e)
include hs

/-- Only a node from outside the tree is written. -/
theorem inj_put {v : Ptr α β} (hv : ∀ a, v = some (.node a) → ¬ InTable e a) {k1 p1 k2 p2 : Nat}
    (h1 : put e k j v k1 p1 = some (.node a)) (h2 : put e k j v k2 p2 = some (.node a)) :
    k1 = k2 ∧ p1 = p2 := by
  rcases put_eq_some h1 with ⟨rfl, rfl, hv1⟩ | ⟨-, he1⟩ <;>
    rcases put_eq_some h2 with ⟨rfl, rfl, hv2⟩ | ⟨-, he2⟩
  · exact ⟨rfl, rfl⟩
  · exact absurd ⟨k2, p2, he2⟩ (hv a hv1)
  · exact absurd ⟨k1, p1, he1⟩ (hv a hv2)
  · exact hs.inj _ _ _ _ a he1 he2

theorem nodeOk (ha : e (k + 1) p = some (.node a)) : NodeOk c s e k p a := by
  obtain ⟨b, heq, hok⟩ := hs.inner k p _ ha
  obtain rfl : a = b := by simpa using heq
  exact hok

theorem slot_eq (ha : e (k + 1) (j / c.mapSize) = some (.node a)) :
    s.slots a (j % c.mapSize) = e k j := by
  rw [(hs.nodeOk ha).slots _ (Nat.mod_lt _ (mapSize_pos c)), Nat.div_add_mod']

/-- A level above 0 has nodes. -/
theorem exists_node (hne : e (k + 1) p ≠ none) : ∃ a, e (k + 1) p = some (.node a) := by
  obtain ⟨t, ht⟩ := Option.ne_none_iff_exists'.mp hne
  obtain ⟨a, rfl, -⟩ := hs.inner k p t ht
  exact ⟨a, ht⟩

/-- There are no nodes above the root. -/
theorem level_lt (ha : e (k + 1) p = some (.node a)) : k < s.rootHeight := by
  by_contra hge
  rw [hs.table.top _ _ (by omega) (by omega)] at ha
  cases ha

theorem inTable_live (ha : InTable e a) : s.live a = true := by
  obtain ⟨k, p, hk⟩ := ha
  cases k with
  | zero =>
    obtain ⟨x, hx⟩ := hs.leaf p _ hk
    cases hx
  | succ k => exact (hs.nodeOk hk).live

theorem not_inTable (ha : s.live a = false) : ¬ InTable e a := by
  intro hin
  have hlive := hs.inTable_live hin
  rw [ha] at hlive
  cases hlive

theorem directToPtr_rnode : directToPtr s.rnode = e s.rootHeight 0 := by
  rw [hs.rnode]
  by_cases hzero : s.rootHeight = 0
  · rw [hzero]
    cases h0 : e 0 0 with
    | none => rfl
    | some t =>
      obtain ⟨x, rfl⟩ := hs.leaf 0 t h0
      rfl
  · obtain ⟨k, hk⟩ := Nat.exists_eq_succ_of_ne_zero hzero
    rw [hk]
    cases h0 : e (k + 1) 0 with
    | none => rfl
    | some t =>
      obtain ⟨b, rfl, -⟩ := hs.inner k 0 t h0
      rfl

/-- Without a root node there is nothing. -/
theorem all_none (hnone : s.rnode = none) : ∀ k j, e k j = none := by
  refine hs.table.none_of_root ?_
  rw [← hs.directToPtr_rnode, hnone]
  rfl

theorem root_eq (hpos : s.rootHeight ≠ 0) : s.rnode = e s.rootHeight 0 := by
  rw [hs.rnode, if_neg hpos]

/-- Only the nodes of the tree matter. -/
theorem congr (hheight : s'.rootHeight = s.rootHeight) (hrnode : s'.rnode = s.rnode)
    (hnodes : ∀ a, InTable e a → s'.live a = s.live a ∧ s'.height a = s.height a ∧
      s'.slots a = s.slots a ∧ s'.count a = s.count a)
    (hzero : ∀ a, s'.live a = false → Zeroed c s' a) : Shape c s' e where
  height_lt := hheight ▸ hs.height_lt
  table := hheight ▸ hs.table
  rnode := by rw [hrnode, hheight, hs.rnode]
  leaf := hs.leaf
  inner k p t ht := by
    obtain ⟨a, rfl, hok⟩ := hs.inner k p t ht
    obtain ⟨hl, hh, hsl, hc⟩ := hnodes a ⟨k + 1, p, ht⟩
    exact ⟨a, rfl, hl.trans hok.live, hh.trans hok.height, fun off ho => by rw [hsl, hok.slots off ho],
      by rw [hc, hsl, hok.count]⟩
  inj := hs.inj
  zeroed := hzero

end

end Shape

/-! ## Tags in memory -/

theorem rootTagGet_eq (s : State α β) (tag : Tag) :
    s.rootTagGet tag = s.gfpMask.getLsbD (tag.val + 20) := by
  unfold State.rootTagGet State.tagBit
  rw [BitVec.and_twoPow]
  rcases tag_cases tag with rfl | rfl
  · cases s.gfpMask.getLsbD ((0 : Tag).val + 20) <;> decide
  · cases s.gfpMask.getLsbD ((1 : Tag).val + 20) <;> decide

theorem rootTagGet_congr (hgfp : s'.gfpMask = s.gfpMask) (tag : Tag) :
    s'.rootTagGet tag = s.rootTagGet tag := by simp [State.rootTagGet, hgfp]

theorem rootTagGet_rootTagSet (s : State α β) (tag tag' : Tag) :
    (s.rootTagSet tag).rootTagGet tag' = if tag' = tag then true else s.rootTagGet tag' := by
  rw [rootTagGet_eq, rootTagGet_eq]
  unfold State.rootTagSet State.tagBit
  rcases tag_cases tag with rfl | rfl <;> rcases tag_cases tag' with rfl | rfl <;> simp

theorem rootTagGet_rootTagClear (s : State α β) (tag tag' : Tag) :
    (s.rootTagClear tag).rootTagGet tag' = if tag' = tag then false else s.rootTagGet tag' := by
  rw [rootTagGet_eq, rootTagGet_eq]
  unfold State.rootTagClear State.tagBit
  rcases tag_cases tag with rfl | rfl <;> rcases tag_cases tag' with rfl | rfl <;> simp

theorem rootTagGet_rootTagClearAll (s : State α β) (tag : Tag) :
    s.rootTagClearAll.rootTagGet tag = false := by
  rw [rootTagGet_eq]
  unfold State.rootTagClearAll
  rw [BitVec.getLsbD_and]
  have hmask : (BitVec.twoPow 32 20 - 1).getLsbD (tag.val + 20) = false := by
    rcases tag_cases tag with rfl | rfl <;> decide
  rw [hmask, Bool.and_false]

/-! ## The tree changes -/

section

variable [DecidableEq α]

namespace Shape

/-- Memory outside the tree is taken, or given back when it is clear. -/
theorem setLive (hs : Shape c s e) {v : Bool} (hout : ¬ InTable e a)
    (hzero : v = false → Zeroed c s a) : Shape c { s with live := update s.live a v } e := by
  refine hs.congr rfl rfl ?_ ?_
  · intro b hb
    have hne : b ≠ a := fun heq => hout (heq ▸ hb)
    exact ⟨update_of_ne hne .., rfl, rfl, rfl⟩
  · intro b hb
    have hb' : Zeroed c s b := (forall_update_iff s.live fun b v => v = false → Zeroed c s b).mpr
      ⟨hzero, fun b _ => hs.zeroed b⟩ b hb
    exact { hb' with }

theorem alloc (hs : Shape c s e) (ha : s.live a = false) :
    Shape c { s with live := update s.live a true } e := hs.setLive (hs.not_inTable ha) (by simp)

theorem free (hs : Shape c s e) (hout : ¬ InTable e a) (hzero : Zeroed c s a) :
    Shape c (s.nodeFree a) e := hs.setLive hout fun _ => hzero

/-- Fields of memory outside the tree may change. -/
theorem setHeight (hs : Shape c s e) (hout : ¬ InTable e a) (h : Nat) :
    Shape c (s.setHeight a h) e := by
  refine hs.congr rfl rfl ?_ ?_
  · intro b hb
    have hne : b ≠ a := fun heq => hout (heq ▸ hb)
    exact ⟨rfl, update_of_ne hne .., rfl, rfl⟩
  · exact fun b hb => { hs.zeroed b hb with }

/-- A value that may stand at level `k`: an item, or an empty node from outside the
tree. -/
def Fresh (c : Config) (s : State α β) (e : Nat → Nat → Ptr α β) (k : Nat) :
    Target α β → Prop
  | .item _ => k = 0
  | .node a => ¬ InTable e a ∧ s.live a = true ∧ s.height a = k ∧ k ≠ 0 ∧ Zeroed c s a
  | .direct _ => False

omit [DecidableEq α] in
theorem Fresh.item {t : Target α β} (h : Fresh c s e 0 t) : ∃ x, t = .item x := by
  cases t with
  | item x => exact ⟨x, rfl⟩
  | node b => exact absurd rfl h.2.2.2.1
  | direct x => exact h.elim

omit [DecidableEq α] in
theorem Fresh.node {t : Target α β} (h : Fresh c s e (k + 1) t) :
    ∃ a, t = .node a ∧ Fresh c s e (k + 1) (.node a) := by
  cases t with
  | item x => cases h
  | node a => exact ⟨a, rfl, h⟩
  | direct x => exact h.elim

theorem slots_setSlot (s : State α β) (b : α) (off : Nat) (v : Ptr α β) (cnt : Nat) :
    ((s.setSlot n off v).setCount n cnt).slots b =
      if b = n then update (s.slots n) off v else s.slots b := by
  exact update_apply ..

theorem count_setSlot (s : State α β) (b : α) (off : Nat) (v : Ptr α β) (cnt : Nat) :
    ((s.setSlot n off v).setCount n cnt).count b = if b = n then cnt else s.count b := by
  exact update_apply ..

/-- An entry is written into its node. -/
theorem put_slot (hs : Shape c s e) {v : Ptr α β} (hk : k < s.rootHeight)
    (hn : e (k + 1) (j / c.mapSize) = some (.node n)) (hfresh : ∀ t, v = some t → Fresh c s e k t)
    (hbelow : ∀ k' j', k = k' + 1 → j' / c.mapSize = j → e k' j' = none) {cnt : Nat}
    (hcnt : cnt = used c.mapSize (update (s.slots n) (j % c.mapSize) v)) :
    Shape c ((s.setSlot n (j % c.mapSize) v).setCount n cnt) (put e k j v) := by
  have hnin : InTable e n := ⟨k + 1, _, hn⟩
  have hj : j / c.mapSize * c.mapSize + j % c.mapSize = j := Nat.div_add_mod' ..
  refine ⟨hs.height_lt, hs.table.put_entry v hk (by simp [hn]) (fun k' j' h1 h2 _ => hbelow k' j' h1 h2),
    ?rnode, ?leaf, ?inner, ?inj, ?zeroed⟩
  case rnode =>
    have hpos : s.rootHeight ≠ 0 := by omega
    have hput : put e k j v s.rootHeight 0 = e s.rootHeight 0 := put_of_level_ne _ _ _ (by omega)
    exact ((hs.root_eq hpos).trans hput.symm).trans (if_neg hpos).symm
  case leaf =>
    intro i t ht
    rcases put_eq_some ht with ⟨rfl, -, hv⟩ | ⟨-, ht⟩
    · exact (hfresh t hv).item
    · exact hs.leaf i t ht
  case inner =>
    intro k' p' t hput
    rcases put_eq_some hput with ⟨rfl, rfl, hv⟩ | ⟨-, ht⟩
    · -- the new node
      obtain ⟨b, rfl, hout, hlive, hheight, -, hzero⟩ := (hfresh t hv).node
      have hbn : b ≠ n := fun heq => hout (heq ▸ hnin)
      refine ⟨b, rfl, hlive, hheight, ?_, ?_⟩
      · intro off hoff
        rw [slots_setSlot, if_neg hbn, put_of_level_ne _ _ _ (by omega), hzero.slots off hoff]
        exact (hbelow k' _ rfl (slot_div _ hoff)).symm
      · rw [count_setSlot, slots_setSlot, if_neg hbn, if_neg hbn, hzero.count]
        exact (used_eq_zero.mpr hzero.slots).symm
    · obtain ⟨b, rfl, hok⟩ := hs.inner k' p' t ht
      refine ⟨b, rfl, hok.live, hok.height, ?_, ?_⟩
      · intro off hoff
        rw [slots_setSlot]
        by_cases hbn : b = n
        · -- the node that is written to
          subst hbn
          obtain ⟨hkk, rfl⟩ := hs.inj _ _ _ _ b ht hn
          obtain rfl : k' = k := by omega
          rw [if_pos rfl]
          by_cases hoff' : off = j % c.mapSize
          · subst hoff'
            rw [update_self, hj, put_self]
          have hne : j / c.mapSize * c.mapSize + off ≠ j := by
            intro heq
            exact hoff' (by omega)
          rw [update_of_ne hoff', put_of_pos_ne _ _ _ hne, hok.slots off hoff]
        · rw [if_neg hbn, hok.slots off hoff]
          refine (put_of_ne v ?_).symm
          rintro ⟨rfl, rfl⟩
          rw [slot_div _ hoff, ht] at hn
          exact hbn (by simpa using hn)
      · rw [count_setSlot, slots_setSlot]
        by_cases hbn : b = n
        · rw [if_pos hbn, if_pos hbn, hcnt]
        · rw [if_neg hbn, if_neg hbn, hok.count]
  case inj => exact fun _ _ _ _ _ => hs.inj_put fun b hb => (hfresh _ hb).1
  case zeroed =>
    intro b hb
    have hbn : b ≠ n := by
      rintro rfl
      exact hs.not_inTable hb hnin
    exact (hs.zeroed b hb).of_eq (by rw [slots_setSlot, if_neg hbn])
      (by rw [count_setSlot, if_neg hbn]) rfl

omit [DecidableEq α] in
/-- The tree is empty and gets a root. -/
theorem put_root (hs : Shape c s e) (hnone : s.rnode = none) {t : Target α β}
    (hfresh : Fresh c s e s.rootHeight t) :
    Shape c { s with rnode := if s.rootHeight = 0 then ptrToDirect (some t) else some t }
      (put e s.rootHeight 0 (some t)) := by
  have hall := hs.all_none hnone
  refine ⟨hs.height_lt, .put_root _ _ hall _, ?rnode, ?leaf, ?inner, ?inj, ?zeroed⟩
  case rnode =>
    by_cases hzero : s.rootHeight = 0
    · simp only [hzero, put_self]
    · simp only [if_neg hzero, put_self]
  case leaf =>
    intro i u hu
    rcases put_eq_some hu with ⟨hz, -, ⟨⟩⟩ | ⟨-, hu⟩
    · rw [← hz] at hfresh
      exact hfresh.item
    · rw [hall] at hu
      cases hu
  case inner =>
    intro k p u hu
    rcases put_eq_some hu with ⟨hz, rfl, ⟨⟩⟩ | ⟨-, hu⟩
    · rw [← hz] at hfresh
      obtain ⟨b, rfl, -, hlive, hheight, -, hzero⟩ := hfresh.node
      refine ⟨b, rfl, hlive, hheight, ?_, hzero.count.trans (used_eq_zero.mpr hzero.slots).symm⟩
      intro off hoff
      rw [put_of_level_ne _ _ _ (by omega), hall]
      exact hzero.slots off hoff
    · rw [hall] at hu
      cases hu
  case inj =>
    refine fun _ _ _ _ _ => hs.inj_put fun b hb => ?_
    cases hb
    exact hfresh.1
  case zeroed => exact fun b hb => { hs.zeroed b hb with }

end Shape

theorem tags_setTag (s : State α β) (a b : α) (tag tag' : Tag) (off off' : Nat) (v : Bool) :
    (s.setTag a tag off v).tags b tag' off' =
      if b = a ∧ tag' = tag ∧ off' = off then v else s.tags b tag' off' := by
  by_cases hb : b = a
  · subst hb
    by_cases ht : tag' = tag
    · subst ht
      by_cases ho : off' = off
      · subst ho
        simp [State.setTag]
      · simp [State.setTag, ho]
    · simp [State.setTag, ht]
  · simp [State.setTag, hb]

/-- The states differ in tags only. -/
structure TagsOnly (s s' : State α β) : Prop where
  live : s'.live = s.live
  height : s'.height = s.height
  count : s'.count = s.count
  slots : s'.slots = s.slots
  rootHeight : s'.rootHeight = s.rootHeight
  rnode : s'.rnode = s.rnode

omit [DecidableEq α] in
theorem TagsOnly.trans {s s' s'' : State α β} (h : TagsOnly s s') (h' : TagsOnly s' s'') :
    TagsOnly s s'' :=
  ⟨h'.live.trans h.live, h'.height.trans h.height, h'.count.trans h.count, h'.slots.trans h.slots,
    h'.rootHeight.trans h.rootHeight, h'.rnode.trans h.rnode⟩

section

variable (s : State α β) (a : α) (tag : Tag)

theorem tagsOnly_setTag (off : Nat) (v : Bool) :
    TagsOnly s (s.setTag a tag off v) := ⟨rfl, rfl, rfl, rfl, rfl, rfl⟩

theorem tagsOnly_inheritTag : TagsOnly s (inheritTag s a tag) := by
  unfold inheritTag
  split
  · exact tagsOnly_setTag ..
  · exact ⟨rfl, rfl, rfl, rfl, rfl, rfl⟩

theorem inheritTag_gfpMask : (inheritTag s a tag).gfpMask = s.gfpMask := by
  unfold inheritTag
  split <;> rfl

end

theorem inheritTag_tags (s : State α β) (a b : α) (tag tag' : Tag) (off : Nat) :
    (inheritTag s a tag).tags b tag' off =
      if b = a ∧ tag' = tag ∧ off = 0 ∧ s.rootTagGet tag = true then true
      else s.tags b tag' off := by
  unfold inheritTag
  split
  · rename_i hroot
    unfold State.tagSet
    rw [tags_setTag]
    simp [hroot]
  · rename_i hroot
    rw [if_neg]
    exact fun h => hroot h.2.2.2

omit [DecidableEq α] in
/-- Tags of nodes in the tree do not matter for its shape. -/
theorem Shape.tagsOnly (hs : Shape c s e) (h : TagsOnly s s')
    (htags : ∀ b, s.live b = false → s'.tags b = s.tags b) : Shape c s' e := by
  refine hs.congr h.rootHeight h.rnode ?_ ?_
  · intro b _
    rw [h.live, h.height, h.slots, h.count]
    exact ⟨rfl, rfl, rfl, rfl⟩
  · intro b hb
    rw [h.live] at hb
    exact (hs.zeroed b hb).of_eq (by rw [h.slots]) (by rw [h.count]) (htags b hb)

/-! ## The height changes -/

/-- What a round of `radix_tree_extend` does. -/
structure Extended (s s' : State α β) (a : α) : Prop where
  live : s'.live = s.live
  height : s'.height = update s.height a (s.rootHeight + 1)
  count : s'.count = update s.count a 1
  slots : ∀ b, s'.slots b =
    if b = a then update (s.slots a) 0 (directToPtr s.rnode) else s.slots b
  tags : ∀ b tag off, s'.tags b tag off =
    if b = a ∧ off = 0 ∧ s.rootTagGet tag = true then true else s.tags b tag off
  rootHeight : s'.rootHeight = s.rootHeight + 1
  gfpMask : s'.gfpMask = s.gfpMask
  rnode : s'.rnode = some (.node a)

theorem extendOnce_extended (s : State α β) (a : α) : Extended s (extendOnce s a) a := by
  let s1 := s.setSlot a 0 (directToPtr s.rnode)
  let s2 := inheritTag (inheritTag s1 a 0) a 1
  have hsame : TagsOnly s1 s2 := (tagsOnly_inheritTag s1 a 0).trans (tagsOnly_inheritTag _ a 1)
  have hget (tag) : (inheritTag s1 a 0).rootTagGet tag = s.rootTagGet tag :=
    rootTagGet_congr (inheritTag_gfpMask ..) tag
  refine ⟨hsame.live, ?_, ?_, ?_, ?_, ?_, ?_, rfl⟩
  · change update s2.height a (s2.rootHeight + 1) = _
    rw [hsame.height, hsame.rootHeight]
    rfl
  · change update s2.count a 1 = _
    rw [hsame.count]
    rfl
  · intro b
    change s2.slots b = _
    rw [hsame.slots]
    exact update_apply ..
  · intro b tag off
    change (inheritTag (inheritTag s1 a 0) a 1).tags b tag off = _
    rw [inheritTag_tags, inheritTag_tags, hget]
    have hroot : s1.rootTagGet 0 = s.rootTagGet 0 := rfl
    have htags : s1.tags = s.tags := rfl
    rw [hroot, htags]
    rcases tag_cases tag with rfl | rfl <;> simp
  · change s2.rootHeight + 1 = _
    rw [hsame.rootHeight]
    rfl
  · change (inheritTag (inheritTag s1 a 0) a 1).gfpMask = _
    rw [inheritTag_gfpMask, inheritTag_gfpMask]
    rfl

/-- A node is put on top. -/
theorem Shape.grow (hs : Shape c s e) (hlt : s.rootHeight + 1 < c.maxPath) (hsome : s.rnode ≠ none)
    (hlive : s.live a = true) (hout : ¬ InTable e a) (hzero : Zeroed c s a)
    (hx : Extended s s' a) : Shape c s' (put e (s.rootHeight + 1) 0 (some (.node a))) := by
  have hroot : e s.rootHeight 0 ≠ none := by
    intro hnone
    rw [hs.rnode, hs.table.none_of_root hnone] at hsome
    split at hsome
    · exact hsome rfl
    · exact hsome hnone
  have hslot0 : ∀ off < c.mapSize, s'.slots a off = e s.rootHeight (0 * c.mapSize + off) := by
    intro off hoff
    rw [hx.slots, if_pos rfl, Nat.zero_mul, Nat.zero_add]
    by_cases ho : off = 0
    · rw [ho, update_self, hs.directToPtr_rnode]
    · rw [update_of_ne ho, hzero.slots off hoff]
      exact (hs.table.top _ _ (Nat.le_refl _) fun h => ho h.2).symm
  refine ⟨by rw [hx.rootHeight]; exact hlt, by rw [hx.rootHeight]; exact hs.table.grow _,
    ?rnode, hs.leaf, ?inner, ?inj, ?zeroed⟩
  case rnode => rw [hx.rnode, hx.rootHeight, if_neg (by omega), put_self]
  case inner =>
    intro k p t ht
    rcases put_eq_some ht with ⟨⟨⟩, rfl, ⟨⟩⟩ | ⟨-, ht⟩
    · refine ⟨a, rfl, by rw [hx.live, hlive], by rw [hx.height, update_self], ?_, ?_⟩
      · intro off hoff
        rw [hslot0 off hoff, put_of_level_ne _ _ _ (by omega)]
      · have hupdate := used_update (s.slots a) (directToPtr s.rnode) (mapSize_pos c)
        rw [hzero.slots 0 (mapSize_pos c), used_eq_zero.mpr hzero.slots, hs.directToPtr_rnode,
          if_pos (Option.isSome_iff_ne_none.mpr hroot)] at hupdate
        rw [hx.count, hx.slots, hs.directToPtr_rnode]
        simpa using hupdate.symm
    · obtain ⟨b, rfl, hok⟩ := hs.inner k p t ht
      have hba : b ≠ a := fun heq => hout ⟨k + 1, p, heq ▸ ht⟩
      have hkh := hs.level_lt ht
      refine ⟨b, rfl, by rw [hx.live, hok.live],
        by rw [hx.height, update_of_ne hba, hok.height], ?_, ?_⟩
      · intro off hoff
        rw [hx.slots, if_neg hba, hok.slots off hoff, put_of_level_ne _ _ _ (by omega)]
      · rw [hx.count, update_of_ne hba, hx.slots, if_neg hba, hok.count]
  case inj =>
    refine fun _ _ _ _ _ => hs.inj_put fun b hb => ?_
    cases hb
    exact hout
  case zeroed =>
    intro b hb
    rw [hx.live] at hb
    have hba : b ≠ a := by
      rintro rfl
      rw [hlive] at hb
      cases hb
    refine (hs.zeroed b hb).of_eq (by rw [hx.slots, if_neg hba])
      (by rw [hx.count, update_of_ne hba]) ?_
    funext tag off
    rw [hx.tags, if_neg fun h => hba h.1]

/-- What a round of `radix_tree_shrink` does. -/
structure Shrunk (s s' : State α β) (a : α) : Prop where
  live : s'.live = update s.live a false
  height : s'.height = s.height
  count : s'.count = update s.count a 0
  slots : ∀ b, s'.slots b = if b = a then update (s.slots a) 0 none else s.slots b
  tags : ∀ b tag off, s'.tags b tag off = if b = a ∧ off = 0 then false else s.tags b tag off
  rootHeight : s'.rootHeight = s.rootHeight - 1
  gfpMask : s'.gfpMask = s.gfpMask
  rnode : s'.rnode = if s.rootHeight = 1 then ptrToDirect (s.slots a 0) else s.slots a 0

theorem shrinkOnce_shrunk (s : State α β) (a : α) : Shrunk s (shrinkOnce s a) a := by
  refine ⟨rfl, rfl, rfl, ?_, ?_, rfl, rfl, rfl⟩
  · intro b
    exact update_apply ..
  · intro b tag off
    change (((s.setRoot _ _).setTag a 0 0 false).setTag a 1 0 false).tags b tag off = _
    rw [tags_setTag, tags_setTag]
    rcases tag_cases tag with rfl | rfl <;> simp [State.setRoot]

/-- The root node goes; what is in its first slot takes its place. -/
theorem Shape.shrink (hs : Shape c s e) {h : Nat} (hheight : s.rootHeight = h + 1)
    (ha : e (h + 1) 0 = some (.node a)) (hcount : s.count a = 1) (hslot : s.slots a 0 ≠ none)
    (htags : ∀ tag, ∀ off < c.mapSize, off ≠ 0 → s.tags a tag off = false)
    (hx : Shrunk s s' a) : Shape c s' (put e (h + 1) 0 none) := by
  have hok := hs.nodeOk ha
  have hpos := mapSize_pos c
  have honly : ∀ off < c.mapSize, off ≠ 0 → s.slots a off = none := by
    refine used_eq_one ?_ hpos hslot
    rw [← hok.count, hcount]
  have hslots (off) (hoff : off < c.mapSize) : s.slots a off = e h off := by
    rw [hok.slots off hoff, Nat.zero_mul, Nat.zero_add]
  have hrest (k p b) (hb : put e (h + 1) 0 none k p = some (.node b)) :
      b ≠ a ∧ e k p = some (.node b) := by
    obtain ⟨-, -, ⟨⟩⟩ | ⟨hself, hb⟩ := put_eq_some hb
    refine ⟨?_, hb⟩
    rintro rfl
    exact hself (hs.inj _ _ _ _ b hb ha)
  have htable := hs.table
  rw [hheight] at htable
  have hrooth : s'.rootHeight = h := by rw [hx.rootHeight, hheight]; rfl
  refine ⟨?height, ?table, ?rnode, hs.leaf, ?inner, ?inj, ?zeroed⟩
  case height =>
    have hlt := hs.height_lt
    omega
  case table =>
    rw [hrooth]
    refine htable.shrink hpos ?_
    intro off hoff hne
    rw [← hslots off hoff, honly off hoff hne]
  case rnode =>
    rw [hx.rnode, hrooth, hheight, hslots 0 hpos]
    by_cases hh : h = 0
    · rw [hh, if_pos rfl, if_pos rfl, put_of_level_ne _ _ _ (by omega)]
    · rw [if_neg (by omega), if_neg hh, put_of_level_ne _ _ _ (by omega)]
  case inner =>
    intro k p t ht'
    obtain ⟨-, -, ⟨⟩⟩ | ⟨-, ht⟩ := put_eq_some ht'
    obtain ⟨b, rfl, hokb⟩ := hs.inner k p t ht
    obtain ⟨hba, -⟩ := hrest _ _ _ ht'
    have hk := hs.level_lt ht
    refine ⟨b, rfl, ?_, ?_, ?_, ?_⟩
    · rw [hx.live, update_of_ne hba, hokb.live]
    · rw [hx.height, hokb.height]
    · intro off hoff
      rw [hx.slots, if_neg hba, hokb.slots off hoff, put_of_level_ne _ _ _ (by omega)]
    · rw [hx.count, update_of_ne hba, hx.slots, if_neg hba, hokb.count]
  case inj =>
    intro k1 p1 k2 p2 b h1 h2
    exact hs.inj _ _ _ _ b (hrest _ _ _ h1).2 (hrest _ _ _ h2).2
  case zeroed =>
    intro b hb
    by_cases hba : b = a
    · subst hba
      refine ⟨?_, ?_, ?_⟩
      · intro off hoff
        rw [hx.slots, if_pos rfl]
        by_cases ho : off = 0
        · rw [ho, update_self]
        · rw [update_of_ne ho, honly off hoff ho]
      · rw [hx.count, update_self]
      · intro tag off hoff
        rw [hx.tags]
        by_cases ho : off = 0
        · rw [if_pos ⟨rfl, ho⟩]
        · rw [if_neg (fun h => ho h.2), htags tag off hoff ho]
    · rw [hx.live, update_of_ne hba] at hb
      refine (hs.zeroed b hb).of_eq (by rw [hx.slots, if_neg hba])
        (by rw [hx.count, update_of_ne hba]) ?_
      funext tag off
      rw [hx.tags, if_neg fun h => hba h.1]

end

/-! ## The tree and its tags -/

/-- The tags in memory are those of the indices `T`. -/
structure Tagged (c : Config) (s : State α β) (e : Nat → Nat → Ptr α β) (T : Tag → Nat → Prop) :
    Prop where
  bits : ∀ tag k p a, e (k + 1) p = some (.node a) → ∀ off < c.mapSize,
    (s.tags a tag off = true ↔ ∃ i, T tag i ∧ i / c.mapSize ^ k = p * c.mapSize + off)
  root : ∀ tag, s.rootTagGet tag = true ↔ ∃ i, T tag i
  present : ∀ tag i, T tag i → e 0 i ≠ none

namespace Tagged

section

variable (ht : Tagged c s e T)
include ht

/-- Nothing is tagged where nothing is. -/
theorem not_below (hs : Shape c s e) {tag : Tag} {i : Nat}
    (hk : k ≤ s.rootHeight) (hnone : e k (i / c.mapSize ^ k) = none) : ¬ T tag i :=
  fun hi => ht.present tag i hi (hs.table.none_below hk i hnone)

theorem root_congr (hgfp : s'.gfpMask = s.gfpMask) (tag : Tag) :
    s'.rootTagGet tag = true ↔ ∃ i, T tag i := by
  rw [rootTagGet_congr hgfp]
  exact ht.root tag

/-- One entry is written and no tag. -/
theorem put_entry (hs : Shape c s e) {v : Ptr α β}
    (hk : k ≤ s.rootHeight) (htags : s'.tags = s.tags) (hgfp : s'.gfpMask = s.gfpMask)
    (hnew : ∀ a, v = some (.node a) → ∀ tag, ∀ off < c.mapSize, s.tags a tag off = false)
    (hbelow : ∀ k' j', k = k' + 1 → j' / c.mapSize = j → e k' j' = none)
    (hpresent : k = 0 → v = none → ∀ tag, ¬ T tag j) : Tagged c s' (put e k j v) T where
  bits tag k' p a ha off hoff := by
    rw [htags]
    rcases put_eq_some ha with ⟨rfl, rfl, hv⟩ | ⟨-, ha⟩
    · rw [hnew a hv tag off hoff]
      refine iff_of_false Bool.false_ne_true ?_
      rintro ⟨i, hi, heq⟩
      refine absurd hi (ht.not_below hs (k := k') (by omega) ?_)
      rw [heq]
      exact hbelow k' _ rfl (slot_div _ hoff)
    · exact ht.bits tag k' p a ha off hoff
  root := ht.root_congr hgfp
  present tag i hi := by
    by_cases hself : 0 = k ∧ i = j
    · obtain ⟨rfl, rfl⟩ := hself
      rw [put_self]
      intro hv
      exact hpresent rfl hv tag hi
    · rw [put_of_ne v hself]
      exact ht.present tag i hi

theorem congr (htags : s'.tags = s.tags) (hgfp : s'.gfpMask = s.gfpMask) : Tagged c s' e T where
  bits := by
    rw [htags]
    exact ht.bits
  root := ht.root_congr hgfp
  present := ht.present

/-- The tags of a node with nothing in a slot. -/
theorem tags_of_none (hs : Shape c s e) (ha : e (k + 1) p = some (.node a))
    {off : Nat} (hoff : off < c.mapSize) (hnone : e k (p * c.mapSize + off) = none) (tag : Tag) :
    s.tags a tag off = false := by
  refine Bool.eq_false_iff.mpr fun htrue => ?_
  obtain ⟨i, hi, heq⟩ := (ht.bits tag k p a ha off hoff).mp htrue
  exact ht.not_below hs (Nat.le_of_lt (hs.level_lt ha)) (by rw [heq]; exact hnone) hi

variable [DecidableEq α]

theorem grow (hs : Shape c s e) (hout : ¬ InTable e a) (hzero : Zeroed c s a)
    (hx : Extended s s' a) : Tagged c s' (put e (s.rootHeight + 1) 0 (some (.node a))) T where
  bits tag k p b hb off hoff := by
    rcases put_eq_some hb with ⟨⟨⟩, rfl, ⟨⟩⟩ | ⟨-, hb⟩
    · have hsmall (i) (hi : T tag i) : i / c.mapSize ^ s.rootHeight = 0 :=
        hs.table.div_eq_zero (ht.present tag i hi)
      rw [hx.tags, Nat.zero_mul, Nat.zero_add]
      by_cases ho : off = 0
      · subst ho
        by_cases hroot : s.rootTagGet tag = true
        · rw [if_pos ⟨rfl, rfl, hroot⟩]
          obtain ⟨i, hi⟩ := (ht.root tag).mp hroot
          exact ⟨fun _ => ⟨i, hi, hsmall i hi⟩, fun _ => rfl⟩
        · rw [if_neg (fun h => hroot h.2.2), hzero.tags tag 0 hoff]
          refine iff_of_false Bool.false_ne_true ?_
          rintro ⟨i, hi, -⟩
          exact hroot ((ht.root tag).mpr ⟨i, hi⟩)
      · rw [if_neg (fun h => ho h.2.1), hzero.tags tag off hoff]
        refine iff_of_false Bool.false_ne_true ?_
        rintro ⟨i, hi, heq⟩
        rw [hsmall i hi] at heq
        exact ho heq.symm
    · have hba : b ≠ a := fun heq => hout ⟨k + 1, p, heq ▸ hb⟩
      rw [hx.tags, if_neg (fun h => hba h.1)]
      exact ht.bits tag k p b hb off hoff
  root := ht.root_congr hx.gfpMask
  present := ht.present

theorem shrink (hs : Shape c s e) {h : Nat} (ha : e (h + 1) 0 = some (.node a))
    (hx : Shrunk s s' a) : Tagged c s' (put e (h + 1) 0 none) T where
  bits tag k p b hb off hoff := by
    obtain ⟨-, -, ⟨⟩⟩ | ⟨hself, hb⟩ := put_eq_some hb
    have hba : b ≠ a := by
      rintro rfl
      exact hself (hs.inj _ _ _ _ b hb ha)
    rw [hx.tags, if_neg (fun h => hba h.1)]
    exact ht.bits tag k p b hb off hoff
  root := ht.root_congr hx.gfpMask
  present := ht.present

end

end Tagged

/-- The memory of a radix tree with the entries `e` and the tagged indices `T`. -/
structure Holds (c : Config) (s : State α β) (e : Nat → Nat → Ptr α β) (T : Tag → Nat → Prop) :
    Prop where
  shape : Shape c s e
  tagged : Tagged c s e T

/-- An empty tree. -/
theorem Holds.of_empty (hlt : s.rootHeight < c.maxPath) (hrnode : s.rnode = none)
    (hroot : ∀ tag, s.rootTagGet tag = false) (hzero : ∀ a, s.live a = false → Zeroed c s a)
    (hT : ∀ tag i, ¬ T tag i) : Holds c s (fun _ _ => none) T := by
  refine ⟨⟨hlt, .of_none _ _ fun _ _ => rfl, ?_, by simp, by simp, by simp, hzero⟩, by simp, ?_,
    fun tag i hi => absurd hi (hT tag i)⟩
  · rw [hrnode]
    split <;> rfl
  · intro tag
    rw [hroot]
    exact iff_of_false Bool.false_ne_true fun ⟨i, hi⟩ => hT tag i hi

end LinuxKernel.Lib.RadixTree
