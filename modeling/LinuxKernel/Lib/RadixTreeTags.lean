/-
  Walking down a radix tree; its tags.

  The loops of `radix_tree_lookup`, `radix_tree_tag_set` and
  `radix_tree_tag_clear` against the table of entries.  While a tag is set or
  cleared along a path, the levels already passed have the new tags and the others
  the old ones (`mixed`).
-/
import LinuxKernel.Lib.RadixTreeShape

namespace LinuxKernel.Lib.RadixTree

open Foundation

variable {α β : Type} {c : Config} {s s' : State α β} {e : Nat → Nat → Ptr α β} {a : α}
  {k p index : Nat} {T : Tag → Nat → Prop} {tag : Tag} {A B : Nat → Prop}
  {W W' : Tag → Nat → Nat → Prop} {l : Nat}

/-! ## Walking down -/

theorem div_pow_zero (size i : Nat) : i / size ^ 0 = i := by rw [pow_zero, Nat.div_one]

/-- The slot that a node at level `k + 1` is asked for. -/
theorem Shape.next_slot (hs : Shape c s e)
    (ha : e (k + 1) (index / c.mapSize ^ (k + 1)) = some (.node a)) :
    s.slots a (slotOffset c index (k * c.mapShift)) = e k (index / c.mapSize ^ k) := by
  rw [slotOffset_eq]
  rw [div_pow_succ] at ha
  exact hs.slot_eq ha

theorem lookupLoop_spec [DecidableEq α] (hs : Shape c s e) (k : Nat) (t : Target α β)
    (hk : k ≤ s.rootHeight) (ht : e k (index / c.mapSize ^ k) = some t) :
    lookupLoop c s index k ((k - 1) * c.mapShift) (some t) = some (e 0 index) := by
  induction k generalizing t with
  | zero =>
    rw [div_pow_zero] at ht
    rw [ht]
    rfl
  | succ k ih =>
    obtain ⟨a, rfl, hok⟩ := hs.inner k _ t ht
    unfold lookupLoop
    simp only [hok.live, if_true, Nat.add_sub_cancel, hs.next_slot ht]
    cases hnext : e k (index / c.mapSize ^ k) with
    | none => rw [hs.table.none_below (by omega) index hnext]
    | some t' =>
      rw [← Nat.sub_one_mul]
      exact ih t' (by omega) hnext

theorem div_eq_zero_of_le (hi : index < 2 ^ c.indexBits) {h : Nat}
    (hle : ¬ index > maxindex c h) : index / c.mapSize ^ h = 0 := by
  rw [maxindex_lt_iff hi] at hle
  omega

theorem Shape.none_of_gt (hs : Shape c s e) (hi : index < 2 ^ c.indexBits)
    (hgt : index > maxindex c s.rootHeight) : e 0 index = none := by
  rw [maxindex_lt_iff hi] at hgt
  by_contra hne
  exact hgt (hs.table.div_eq_zero hne)

/-- `radix_tree_lookup` finds the items of the table. -/
theorem radixTreeLookup_spec [DecidableEq α] (hs : Shape c s e) (hi : index < 2 ^ c.indexBits) :
    radixTreeLookup c s index = some (e 0 index) := by
  unfold radixTreeLookup
  by_cases hzero : s.rootHeight = 0
  · have hrnode := hs.rnode
    rw [if_pos hzero] at hrnode
    cases h0 : e 0 0 with
    | none =>
      rw [h0] at hrnode
      have hnone : s.rnode = none := hrnode
      rw [hnone, hs.all_none hnone]
    | some t =>
      obtain ⟨x, rfl⟩ := hs.leaf 0 t h0
      rw [h0] at hrnode
      have hdirect : s.rnode = some (.direct x) := hrnode
      rw [hdirect]
      by_cases hpos : index > 0
      · simp only [if_pos hpos]
        rw [hs.table.top 0 index (by omega) (by omega)]
      · obtain rfl : index = 0 := by omega
        rw [h0]
        rfl
  · have hrnode := hs.root_eq hzero
    obtain ⟨h, hh⟩ := Nat.exists_eq_succ_of_ne_zero hzero
    rw [hh] at hrnode
    cases htop : e (h + 1) 0 with
    | none =>
      have hnone : s.rnode = none := hrnode.trans htop
      rw [hnone, hs.all_none hnone]
    | some t =>
      obtain ⟨a, rfl, hok⟩ := hs.inner h 0 t htop
      have hnode : s.rnode = some (.node a) := hrnode.trans htop
      rw [hnode]
      simp only [hok.live, if_true, hok.height]
      by_cases hgt : index > maxindex c (h + 1)
      · rw [if_pos hgt, hs.none_of_gt hi (by rw [hh]; exact hgt)]
      rw [if_neg hgt]
      refine lookupLoop_spec hs (h + 1) _ (by omega) ?_
      rw [div_eq_zero_of_le hi hgt]
      exact htop

/-- The nodes above level `k` on the way to `index`, with the offsets taken. -/
def OnPath (c : Config) (e : Nat → Nat → Ptr α β) (index h : Nat) : Nat → List (α × Nat) → Prop
  | k, [] => k = h
  | k, (a, off) :: path =>
    k < h ∧ e (k + 1) (index / c.mapSize ^ (k + 1)) = some (.node a) ∧
      off = index / c.mapSize ^ k % c.mapSize ∧ OnPath c e index h (k + 1) path

/-- The descent arrives at the item, or finds that it is not there. -/
theorem descend_spec [DecidableEq α] (hs : Shape c s e) (index : Nat) (k : Nat)
    (path : List (α × Nat)) (hk : k ≤ s.rootHeight) (hpath : OnPath c e index s.rootHeight k path) :
    (descend c s index k ((k - 1) * c.mapShift) path (e k (index / c.mapSize ^ k)) =
        some (none, none) ∧ e 0 index = none) ∨
      ∃ path', OnPath c e index s.rootHeight 0 path' ∧
      descend c s index k ((k - 1) * c.mapShift) path (e k (index / c.mapSize ^ k)) =
        some (some path', e 0 index) := by
  induction k generalizing path with
  | zero =>
    refine .inr ⟨path, hpath, ?_⟩
    rw [div_pow_zero]
    rfl
  | succ k ih =>
    cases ht : e (k + 1) (index / c.mapSize ^ (k + 1)) with
    | none => exact .inl ⟨rfl, hs.table.none_below hk index ht⟩
    | some t =>
      obtain ⟨a, rfl, hok⟩ := hs.inner k _ t ht
      unfold descend
      simp only [hok.live, Nat.add_sub_cancel, hs.next_slot ht, ← Nat.sub_one_mul]
      refine ih _ (by omega) ⟨by omega, ht, ?_, hpath⟩
      exact slotOffset_eq c index k

/-! ## Tags level by level -/

/-- The tags at level `k + 1` are those of the indices `W tag k`. -/
def Bits (c : Config) (s : State α β) (e : Nat → Nat → Ptr α β) (W : Tag → Nat → Nat → Prop) :
    Prop :=
  ∀ tag k p a, e (k + 1) p = some (.node a) → ∀ off < c.mapSize,
    (s.tags a tag off = true ↔ ∃ i, W tag k i ∧ i / c.mapSize ^ k = p * c.mapSize + off)

/-- Below level `k` the indices with `tag` are `A`, from there on `B`. -/
def mixed (T : Tag → Nat → Prop) (tag : Tag) (A B : Nat → Prop) (k : Nat) :
    Tag → Nat → Nat → Prop :=
  fun t l i => if t = tag then if l < k then A i else B i else T t i

theorem mixed_other {T : Tag → Nat → Prop} {tag t : Tag} (ht : t ≠ tag) (A B : Nat → Prop)
    (k l i : Nat) : mixed T tag A B k t l i ↔ T t i := by
  unfold mixed
  rw [if_neg ht]

theorem mixed_lt {T : Tag → Nat → Prop} (hl : l < k) (i : Nat) :
    mixed T tag A B k tag l i ↔ A i := by
  unfold mixed
  rw [if_pos rfl, if_pos hl]

theorem mixed_ge {T : Tag → Nat → Prop} (hl : k ≤ l) (i : Nat) :
    mixed T tag A B k tag l i ↔ B i := by
  unfold mixed
  rw [if_pos rfl, if_neg (by omega)]

/-- Moving the boundary over level `k` changes that level only. -/
theorem mixed_step {T : Tag → Nat → Prop} {t : Tag} (hne : ¬ (t = tag ∧ l = k)) (i : Nat) :
    mixed T tag A B (k + 1) t l i ↔ mixed T tag A B k t l i := by
  by_cases ht : t = tag
  · subst ht
    have hl : l ≠ k := fun h => hne ⟨rfl, h⟩
    by_cases hlt : l < k
    · rw [mixed_lt hlt, mixed_lt (by omega)]
    · rw [mixed_ge (by omega), mixed_ge (by omega)]
  · rw [mixed_other ht, mixed_other ht]

/-- Only the sets of indices below the root matter. -/
theorem Bits.congr (hs : Shape c s' e) (hb : Bits c s e W)
    (h : ∀ t l i, l < s'.rootHeight → (W t l i ↔ W' t l i)) : Bits c s e W' := by
  intro t l p a ha off hoff
  rw [hb t l p a ha off hoff]
  exact exists_congr fun i => and_congr_left fun _ => h t l i (hs.level_lt ha)

/-- The slots of a level stand for different indices. -/
theorem slot_unique {off off' p p' : Nat} (hoff : off < c.mapSize) (hoff' : off' < c.mapSize)
    (heq : p * c.mapSize + off = p' * c.mapSize + off') : p = p' ∧ off = off' := by
  have hp := congrArg (· / c.mapSize) heq
  have ho := congrArg (· % c.mapSize) heq
  simp only [slot_div _ hoff, slot_div _ hoff', Nat.mul_add_mod_of_lt hoff,
    Nat.mul_add_mod_of_lt hoff'] at hp ho
  exact ⟨hp, ho⟩

theorem slot_of_index (c : Config) (index k : Nat) :
    index / c.mapSize ^ (k + 1) * c.mapSize + index / c.mapSize ^ k % c.mapSize =
      index / c.mapSize ^ k := by
  rw [div_pow_succ, Nat.div_add_mod']

/-- The tag for `index` in the node `a` at level `k + 1` becomes `v`. -/
theorem Bits.write [DecidableEq α] (hs : Shape c s e) (hb : Bits c s e W)
    (ha : e (k + 1) (index / c.mapSize ^ (k + 1)) = some (.node a)) {v : Bool}
    (htags : ∀ b t o, s'.tags b t o = if b = a ∧ t = tag ∧
      o = index / c.mapSize ^ k % c.mapSize then v else s.tags b t o)
    (hsame : ∀ t l i, ¬ (t = tag ∧ l = k) → (W' t l i ↔ W t l i)) (hold : ∀ i, W tag k i ↔ A i)
    (hnew : ∀ i, W' tag k i ↔ B i)
    (hv : v = true ↔ ∃ i, B i ∧ i / c.mapSize ^ k = index / c.mapSize ^ k)
    (hdiff : ∀ i, i ≠ index → (B i ↔ A i)) : Bits c s' e W' := by
  intro t l p b hlb o ho
  rw [htags]
  by_cases hlevel : t = tag ∧ l = k
  · obtain ⟨rfl, rfl⟩ := hlevel
    by_cases hslot : b = a ∧ o = index / c.mapSize ^ l % c.mapSize
    · obtain ⟨rfl, rfl⟩ := hslot
      obtain ⟨-, rfl⟩ := hs.inj _ _ _ _ b hlb ha
      rw [if_pos ⟨rfl, rfl, rfl⟩, slot_of_index, hv]
      refine exists_congr fun i => ?_
      rw [hnew]
    · rw [if_neg (fun h => hslot ⟨h.1, h.2.2⟩), hb t l p b hlb o ho]
      refine exists_congr fun i => and_congr_left fun hpos => ?_
      rw [hold, hnew]
      refine (hdiff i ?_).symm
      rintro rfl
      rw [← slot_of_index c i l] at hpos
      obtain ⟨rfl, rfl⟩ := slot_unique (Nat.mod_lt _ (mapSize_pos c)) ho hpos
      rw [hlb] at ha
      exact hslot ⟨by simpa using ha, rfl⟩
  · have hcond : ¬ (b = a ∧ t = tag ∧ o = index / c.mapSize ^ k % c.mapSize) := by
      rintro ⟨rfl, rfl, -⟩
      obtain ⟨hkl, -⟩ := hs.inj _ _ _ _ b hlb ha
      exact hlevel ⟨rfl, by omega⟩
    rw [if_neg hcond, hb t l p b hlb o ho]
    refine exists_congr fun i => ?_
    rw [hsame t l i hlevel]

/-! ## Sets of tags -/

/-- The tags without that of `index`. -/
def untag (T : Tag → Nat → Prop) (tag : Tag) (index : Nat) : Tag → Nat → Prop :=
  fun t i => T t i ∧ ¬ (t = tag ∧ i = index)

theorem untag_self (T : Tag → Nat → Prop) (tag : Tag) (index i : Nat) :
    untag T tag index tag i ↔ T tag i ∧ i ≠ index := by
  simp [untag]

theorem untag_other (T : Tag → Nat → Prop) {tag t : Tag} (ht : t ≠ tag) (index i : Nat) :
    untag T tag index t i ↔ T t i := by
  simp [untag, ht]

/-- The levels have the tags of the state before, or after, when the two do not
differ. -/
theorem Tagged.of_mixed {s0 : State α β} (ht : Tagged c s0 e T) (hgfp : s.gfpMask = s0.gfpMask)
    (hb : Bits c s e (mixed T tag (fun i => T tag i ∧ i ≠ index) (T tag) k))
    (hsame : ∀ l, k ≤ l → ∀ j, (∃ i, T tag i ∧ i / c.mapSize ^ l = j) → ∃ i, (T tag i ∧
      i ≠ index) ∧ i / c.mapSize ^ l = j)
    (hroot : (∃ i, T tag i) → ∃ i, T tag i ∧ i ≠ index) : Tagged c s e (untag T tag index) where
  bits t l p a ha off hoff := by
    rw [hb t l p a ha off hoff]
    by_cases htag : t = tag
    · subst htag
      by_cases hl : l < k
      · refine exists_congr fun i => and_congr_left fun _ => ?_
        rw [mixed_lt hl, untag_self]
      simp only [mixed_ge (Nat.le_of_not_lt hl), untag_self]
      refine ⟨hsame l (by omega) _, ?_⟩
      rintro ⟨i, ⟨hi, -⟩, hpos⟩
      exact ⟨i, hi, hpos⟩
    · refine exists_congr fun i => and_congr_left fun _ => ?_
      rw [mixed_other htag, untag_other T htag]
  root t := by
    rw [ht.root_congr hgfp t]
    by_cases htag : t = tag
    · subst htag
      simp only [untag_self]
      refine ⟨hroot, ?_⟩
      rintro ⟨i, hi, -⟩
      exact ⟨i, hi⟩
    · simp only [untag_other T htag]
  present t i hi := ht.present t i hi.1

theorem anyTagSet_iff (s : State α β) (a : α) (tag : Tag) :
    s.anyTagSet c a tag = true ↔ ∃ off < c.mapSize, s.tags a tag off = true := by
  simp [State.anyTagSet]

theorem Tagged.untag_of_not (ht : Tagged c s e T) (hnot : ¬ T tag index) :
    Tagged c s e (untag T tag index) := by
  have heq : untag T tag index = T := by
    funext t i
    refine propext ⟨fun h => h.1, fun h => ⟨h, ?_⟩⟩
    rintro ⟨rfl, rfl⟩
    exact hnot h
  rw [heq]
  exact ht

/-! ## Setting a tag -/

/-- What changes when tags of nodes in the tree change. -/
structure Retagged (s s' : State α β) : Prop extends TagsOnly s s' where
  free : ∀ b, s.live b = false → s'.tags b = s.tags b

theorem Retagged.trans {s s' s'' : State α β} (h : Retagged s s') (h' : Retagged s' s'') :
    Retagged s s'' where
  toTagsOnly := h.toTagsOnly.trans h'.toTagsOnly
  free b hb := (h'.free b (by rw [h.live]; exact hb)).trans (h.free b hb)

theorem Retagged.refl (s : State α β) : Retagged s s := ⟨⟨rfl, rfl, rfl, rfl, rfl, rfl⟩, fun _ _ => rfl⟩

theorem Shape.retag (hs : Shape c s e) (h : Retagged s s') : Shape c s' e :=
  hs.tagsOnly h.toTagsOnly h.free

theorem ensureRootTag_get (s : State α β) {slot : Ptr α β} (hslot : slot ≠ none) (tag t : Tag) :
    (ensureRootTag s slot tag).rootTagGet t = if t = tag then true else s.rootTagGet t := by
  unfold ensureRootTag
  rw [Option.isSome_iff_ne_none.mpr hslot]
  cases hget : s.rootTagGet tag with
  | true =>
    by_cases ht : t = tag
    · rw [if_pos ht, ht]
      exact hget
    · rw [if_neg ht]
      rfl
  | false => exact rootTagGet_rootTagSet s tag t

theorem ensureRootTag_retagged (s : State α β) (slot : Ptr α β) (tag : Tag) :
    Retagged s (ensureRootTag s slot tag) ∧ (ensureRootTag s slot tag).tags = s.tags := by
  unfold ensureRootTag
  split
  · exact ⟨⟨⟨rfl, rfl, rfl, rfl, rfl, rfl⟩, fun _ _ => rfl⟩, rfl⟩
  · exact ⟨.refl s, rfl⟩

section

variable [DecidableEq α]

theorem ensureTag_tags (s : State α β) (a b : α) (tag t : Tag) (off o : Nat) :
    (ensureTag s a tag off).tags b t o =
      if b = a ∧ t = tag ∧ o = off then true else s.tags b t o := by
  unfold ensureTag State.tagGet State.tagSet
  cases hbit : s.tags a tag off with
  | true =>
    by_cases h : b = a ∧ t = tag ∧ o = off
    · obtain ⟨rfl, rfl, rfl⟩ := h
      simpa using hbit
    · rw [if_neg h]
      rfl
  | false => exact tags_setTag ..

theorem Retagged.setTag (hlive : s.live a = true) (tag : Tag) (off : Nat) (v : Bool) :
    Retagged s (s.setTag a tag off v) where
  toTagsOnly := tagsOnly_setTag ..
  free b hb := by
    have hne : b ≠ a := by
      rintro rfl
      rw [hlive] at hb
      cases hb
    exact Function.update_of_ne hne ..

theorem Retagged.ensureTag (hlive : s.live a = true) (tag : Tag) (off : Nat) :
    Retagged s (RadixTree.ensureTag s a tag off) := by
  unfold RadixTree.ensureTag
  split
  · exact .setTag hlive tag off true
  · exact .refl s

theorem ensureTag_gfpMask (s : State α β) (a : α) (tag : Tag) (off : Nat) :
    (ensureTag s a tag off).gfpMask = s.gfpMask := by
  unfold ensureTag
  split <;> rfl

/-- The loop of `radix_tree_tag_set` sets the tag on the levels below `k`. -/
theorem tagSetLoop_spec (hpresent : e 0 index ≠ none) : ∀ (k : Nat) (s : State α β),
    Shape c s e → k ≤ s.rootHeight →
    Bits c s e (mixed T tag (T tag) (fun i => T tag i ∨ i = index) k) →
    ∃ s', tagSetLoop c index tag k ((k - 1) * c.mapShift) s (e k (index / c.mapSize ^ k)) =
        some (s', e 0 index) ∧ Retagged s s' ∧ s'.gfpMask = s.gfpMask ∧
      Bits c s' e (mixed T tag (T tag) (fun i => T tag i ∨ i = index) 0) := by
  intro k
  induction k with
  | zero =>
    intro s hs _ hb
    rw [div_pow_zero]
    exact ⟨s, rfl, .refl s, rfl, hb⟩
  | succ k ih =>
    intro s hs hk hb
    obtain ⟨a, ha⟩ := hs.exists_node (hs.table.some_above hk hpresent)
    have hlive := (hs.nodeOk ha).live
    have hre := Retagged.ensureTag hlive tag (slotOffset c index (k * c.mapShift))
    have hs1 := hs.retag hre
    have hoff := slotOffset_eq c index k
    have hb1 : Bits c (ensureTag s a tag (slotOffset c index (k * c.mapShift))) e
        (mixed T tag (T tag) (fun i => T tag i ∨ i = index) k) := by
      refine hb.write hs ha (v := true) ?_ ?_ (mixed_lt (Nat.lt_succ_self k))
        (mixed_ge (Nat.le_refl k)) ?_ ?_
      · intro b t o
        rw [hoff]
        exact ensureTag_tags s a b tag t _ o
      · intro t l i hne
        exact (mixed_step hne i).symm
      · exact ⟨fun _ => ⟨index, .inr rfl, rfl⟩, fun _ => rfl⟩
      · intro i hi
        simp [hi]
    obtain ⟨s', heq, hre', hgfp, hb'⟩ := ih _ hs1 (by rw [hre.rootHeight]; omega) hb1
    refine ⟨s', ?_, hre.trans hre', hgfp.trans (ensureTag_gfpMask ..), hb'⟩
    rw [ha]
    unfold tagSetLoop
    simp only [hlive, Nat.add_sub_cancel, hs1.next_slot ha]
    obtain ⟨t, ht⟩ := Option.ne_none_iff_exists'.mp
      (hs.table.some_above (by omega : k ≤ s.rootHeight) hpresent)
    rw [ht] at heq ⊢
    rw [Nat.sub_one_mul] at heq
    exact heq

/-- The contents of the slot of an index.  At height 0 the root is the slot of index 0,
and the pointer there is a direct one. -/
def slotOf (s : State α β) (e : Nat → Nat → Ptr α β) (index : Nat) : Ptr α β :=
  if s.rootHeight = 0 ∧ index = 0 then s.rnode else e 0 index

/-- `radix_tree_tag_set` on an item that is there. -/
theorem radixTreeTagSet_spec (hh : Holds c s e T) (hi : index < 2 ^ c.indexBits)
    (hpresent : e 0 index ≠ none) (tag : Tag) :
    ∃ s', radixTreeTagSet c s index tag = some (s', slotOf s e index) ∧
      Holds c s' e (fun t i => T t i ∨ t = tag ∧ i = index) := by
  obtain ⟨hs, ht⟩ := hh
  have hle : ¬ index > maxindex c s.rootHeight := fun hgt => hpresent (hs.none_of_gt hi hgt)
  have hdiv := div_eq_zero_of_le hi hle
  -- the loop
  obtain ⟨s1, hloop, hslot, hre, hgfp, hb⟩ : ∃ s1,
      tagSetLoop c index tag s.rootHeight ((s.rootHeight - 1) * c.mapShift) s s.rnode =
        some (s1, slotOf s e index) ∧ slotOf s e index ≠ none ∧ Retagged s s1 ∧
      s1.gfpMask = s.gfpMask ∧
      Bits c s1 e (mixed T tag (T tag) (fun i => T tag i ∨ i = index) 0) := by
    have hb0 : Bits c s e (mixed T tag (T tag) (fun i => T tag i ∨ i = index) s.rootHeight) := by
      refine Bits.congr hs ht.bits fun t l i hl => ?_
      by_cases htag : t = tag
      · rw [htag, mixed_lt hl]
      · rw [mixed_other htag]
    by_cases hzero : s.rootHeight = 0
    · have hnone : s.rnode ≠ none := fun hnone => hpresent (hs.all_none hnone 0 index)
      have hindex : index = 0 := by rwa [hzero, div_pow_zero] at hdiv
      rw [slotOf, if_pos ⟨hzero, hindex⟩]
      rw [hzero] at hb0 ⊢
      exact ⟨s, rfl, hnone, .refl s, rfl, hb0⟩
    · obtain ⟨s1, heq, hre, hgfp, hb⟩ := tagSetLoop_spec hpresent s.rootHeight s hs
        (Nat.le_refl _) hb0
      rw [hdiv, ← hs.root_eq hzero] at heq
      rw [slotOf, if_neg (fun h => hzero h.1)]
      exact ⟨s1, heq, hpresent, hre, hgfp, hb⟩
  obtain ⟨hre', htags⟩ := ensureRootTag_retagged s1 (slotOf s e index) tag
  refine ⟨_, ?_, hs.retag (hre.trans hre'), ?_, ?_, ?_⟩
  · unfold radixTreeTagSet
    rw [if_neg hle, hloop]
    rfl
  · rw [htags]
    refine hb.congr hs fun t l i _ => ?_
    by_cases htag : t = tag
    · rw [htag, mixed_ge (Nat.zero_le l)]
      simp
    · rw [mixed_other htag]
      simp [htag]
  · intro t
    rw [ensureRootTag_get s1 hslot]
    by_cases htag : t = tag
    · rw [if_pos htag]
      exact ⟨fun _ => ⟨index, .inr ⟨htag, rfl⟩⟩, fun _ => rfl⟩
    · rw [if_neg htag, ht.root_congr hgfp t]
      simp [htag]
  · rintro t i (hti | ⟨-, rfl⟩)
    · exact ht.present t i hti
    · exact hpresent

/-! ## Clearing a tag -/

/-- The second loop of `radix_tree_tag_clear`, from level `k` on: below it `index`
is not tagged any more. -/
theorem clearLoop_spec (hs : Shape c s e) (ht : Tagged c s e T)
    (hdiv : index / c.mapSize ^ s.rootHeight = 0) :
    ∀ (path : List (α × Nat)) (k : Nat) (s' : State α β), Retagged s s' → s'.gfpMask = s.gfpMask →
    OnPath c e index s.rootHeight k path →
    Bits c s' e (mixed T tag (fun i => T tag i ∧ i ≠ index) (T tag) k) →
    (∀ i, T tag i → i ≠ index → i / c.mapSize ^ k ≠ index / c.mapSize ^ k) →
    Retagged s (clearLoop c tag path s') ∧
      Tagged c (clearLoop c tag path s') e (untag T tag index) := by
  intro path
  induction path with
  | nil =>
    intro k s' hre hgfp hpath hb hnone
    obtain rfl : k = s.rootHeight := hpath
    -- nothing with the tag is left
    have hempty : ∀ i, ¬ (T tag i ∧ i ≠ index) := by
      rintro i ⟨hti, hne⟩
      refine hnone i hti hne ?_
      rw [hdiv, hs.table.div_eq_zero (ht.present tag i hti)]
    have hclear (t) : (clearLoop c tag [] s').rootTagGet t =
          if t = tag then false else s.rootTagGet t := by
      have hget := rootTagGet_congr hgfp
      unfold clearLoop
      by_cases hroot : s'.rootTagGet tag = true
      · rw [if_pos hroot, rootTagGet_rootTagClear, hget]
      rw [if_neg hroot, hget]
      by_cases htag : t = tag
      · rw [if_pos htag, htag, ← hget]
        exact Bool.eq_false_iff.mpr hroot
      · rw [if_neg htag]
    have htags : (clearLoop c tag [] s').tags = s'.tags := by
      unfold clearLoop
      split <;> rfl
    refine ⟨hre.trans ?_, ?_, ?_, fun t i hi => ht.present t i hi.1⟩
    · unfold clearLoop
      split
      · exact ⟨⟨rfl, rfl, rfl, rfl, rfl, rfl⟩, fun _ _ => rfl⟩
      · exact .refl s'
    · rw [htags]
      refine hb.congr hs fun t l i hl => ?_
      by_cases htag : t = tag
      · rw [htag, mixed_lt hl, untag_self]
      · rw [mixed_other htag, untag_other T htag]
    · intro t
      rw [hclear]
      by_cases htag : t = tag
      · rw [if_pos htag, htag]
        refine iff_of_false Bool.false_ne_true ?_
        rintro ⟨i, hi⟩
        exact hempty i ((untag_self T tag index i).mp hi)
      · rw [if_neg htag, ht.root t]
        simp [untag_other T htag]
  | cons entry path ih =>
    intro k s' hre hgfp hpath hb hnone
    obtain ⟨a, off⟩ := entry
    obtain ⟨hk, ha, rfl, hpath⟩ := hpath
    have hs' := hs.retag hre
    have hofflt : index / c.mapSize ^ k % c.mapSize < c.mapSize := Nat.mod_lt _ (mapSize_pos c)
    have hbit := hb tag k _ a ha _ hofflt
    simp only [mixed_ge (Nat.le_refl k), slot_of_index] at hbit
    unfold clearLoop
    unfold State.tagGet
    cases hget : s'.tags a tag (index / c.mapSize ^ k % c.mapSize) with
    | false =>
      -- `index` was not tagged
      refine ⟨hre, ht.of_mixed hgfp hb ?_ ?_⟩
      all_goals have hnot : ¬ T tag index := fun hti =>
          Bool.false_ne_true (hget.symm.trans (hbit.mpr ⟨index, hti, rfl⟩))
      · rintro l - j ⟨i, hi, hpos⟩
        exact ⟨i, ⟨hi, fun heq => hnot (heq ▸ hi)⟩, hpos⟩
      · rintro ⟨i, hi⟩
        exact ⟨i, hi, fun heq => hnot (heq ▸ hi)⟩
    | true =>
      let s1 := s'.tagClear a tag (index / c.mapSize ^ k % c.mapSize)
      have hre1 : Retagged s s1 := hre.trans (.setTag (hs'.nodeOk ha).live ..)
      have hb1 : Bits c s1 e (mixed T tag (fun i => T tag i ∧ i ≠ index) (T tag) (k + 1)) := by
        refine hb.write hs' ha (fun b t o => tags_setTag ..)
          (fun t l i hne => mixed_step hne i) (mixed_ge (Nat.le_refl k))
          (mixed_lt (Nat.lt_succ_self k)) ?_ ?_
        · refine iff_of_false Bool.false_ne_true ?_
          rintro ⟨i, ⟨hi, hne⟩, hpos⟩
          exact hnone i hi hne hpos
        · intro i hi
          simp [hi]
      have hany : s1.anyTagSet c a tag = true ↔
          ∃ i, (T tag i ∧ i ≠ index) ∧ i / c.mapSize ^ (k + 1) = index / c.mapSize ^ (k + 1) := by
        rw [anyTagSet_iff]
        constructor
        · rintro ⟨o, ho, hset⟩
          obtain ⟨i, hi, hpos⟩ := (hb1 tag k _ a ha o ho).mp hset
          rw [mixed_lt (Nat.lt_succ_self k)] at hi
          refine ⟨i, hi, ?_⟩
          rw [div_pow_succ, hpos, slot_div _ ho]
        · rintro ⟨i, hi, hpos⟩
          refine ⟨i / c.mapSize ^ k % c.mapSize, Nat.mod_lt _ (mapSize_pos c), ?_⟩
          refine (hb1 tag k _ a ha _ (Nat.mod_lt _ (mapSize_pos c))).mpr ⟨i, ?_, ?_⟩
          · rw [mixed_lt (Nat.lt_succ_self k)]
            exact hi
          · rw [← hpos, slot_of_index]
      by_cases hset : s1.anyTagSet c a tag = true
      · -- another index below this node keeps the tags above
        rw [if_pos hset]
        obtain ⟨i0, hi0, hpos0⟩ := hany.mp hset
        refine ⟨hre1, ht.of_mixed hgfp hb1 ?_ fun _ => ⟨i0, hi0⟩⟩
        rintro l hl j ⟨i, hi, hpos⟩
        by_cases hne : i = index
        · subst hne
          refine ⟨i0, hi0, ?_⟩
          obtain ⟨d, rfl⟩ := Nat.exists_eq_add_of_le hl
          rw [← hpos, Nat.pow_add, ← Nat.div_div_eq_div_mul, ← Nat.div_div_eq_div_mul, hpos0]
        · exact ⟨i, ⟨hi, hne⟩, hpos⟩
      · rw [if_neg hset]
        refine ih (k + 1) _ hre1 hgfp hpath hb1 ?_
        intro i hi hne hpos
        exact hset (hany.mpr ⟨i, ⟨hi, hne⟩, hpos⟩)

/-- `radix_tree_tag_clear` -/
theorem radixTreeTagClear_spec (hh : Holds c s e T) (hi : index < 2 ^ c.indexBits) (tag : Tag) :
    ∃ s', radixTreeTagClear c s index tag = some (s', slotOf s e index) ∧ Retagged s s' ∧
      Holds c s' e (untag T tag index) := by
  obtain ⟨hs, ht⟩ := hh
  have hskip (hnone : e 0 index = none) : Holds c s e (untag T tag index) :=
    ⟨hs, ht.untag_of_not fun hti => ht.present tag index hti hnone⟩
  unfold radixTreeTagClear
  by_cases hgt : index > maxindex c s.rootHeight
  · have hnone := hs.none_of_gt hi hgt
    have hpos : index ≠ 0 := by omega
    rw [if_pos hgt, slotOf, if_neg (fun h => hpos h.2), hnone]
    exact ⟨s, rfl, .refl s, hskip hnone⟩
  rw [if_neg hgt]
  have hdiv := div_eq_zero_of_le hi hgt
  have hclear (path : List (α × Nat)) (hpath : OnPath c e index s.rootHeight 0 path) :
      Retagged s (clearLoop c tag path s) ∧ Holds c (clearLoop c tag path s) e
        (untag T tag index) := by
    have hb : Bits c s e (mixed T tag (fun i => T tag i ∧ i ≠ index) (T tag) 0) := by
      refine Bits.congr hs ht.bits fun t l i _ => ?_
      by_cases htag : t = tag
      · rw [htag, mixed_ge (Nat.zero_le l)]
      · rw [mixed_other htag]
    obtain ⟨hre, htag⟩ := clearLoop_spec hs ht hdiv path 0 s (.refl s) rfl hpath hb
      (fun i _ hne => by rw [div_pow_zero, div_pow_zero]; exact hne)
    exact ⟨hre, hs.retag hre, htag⟩
  by_cases hzero : s.rootHeight = 0
  · have hindex : index = 0 := by rw [hzero, div_pow_zero] at hdiv; exact hdiv
    rw [slotOf, if_pos ⟨hzero, hindex⟩, hzero]
    cases hr : s.rnode with
    | none => exact ⟨s, rfl, .refl s, hskip (hs.all_none hr 0 index)⟩
    | some t => exact ⟨_, rfl, hclear [] hzero.symm⟩
  have hdesc := descend_spec hs index s.rootHeight [] (Nat.le_refl _) rfl
  rw [hdiv, ← hs.root_eq hzero] at hdesc
  rw [slotOf, if_neg (fun h => hzero h.1)]
  rcases hdesc with ⟨hdesc, hnone⟩ | ⟨path, hpath, hdesc⟩
  · rw [hdesc, hnone]
    exact ⟨s, rfl, .refl s, hskip hnone⟩
  rw [hdesc]
  cases h0 : e 0 index with
  | none => exact ⟨s, rfl, .refl s, hskip h0⟩
  | some t => exact ⟨_, rfl, hclear path hpath⟩

end

end LinuxKernel.Lib.RadixTree
