/-
  Gang lookups in a radix tree.

  Source: lib/radix-tree.c, `__lookup`, `radix_tree_gang_lookup`, `__lookup_tag`,
  `radix_tree_gang_lookup_tag`.

  One search lists the items of an initial part of the indices and says where the
  next search begins.  An `index` that reaches the end of the index space is 0 again;
  the proofs count on to `2 ^ indexBits` there.
-/
import LinuxKernel.Foundation.Listing
import LinuxKernel.Foundation.Loop
import LinuxKernel.Lib.RadixTreeRun

set_option maxRecDepth 4000

namespace LinuxKernel.Lib.RadixTree

open Foundation List Option

variable {maxItems index : Nat} {c : Config} {T : Tag → Nat → Prop} {P : Nat → Prop}

/-! ## The model -/

section

variable {α β : Type} (c : Config)

/-- `index &= ~((1UL << shift) - 1); index += 1UL << shift;` -/
def nextBlock (index shift : Nat) : Nat :=
  ((index >>> shift) <<< shift + 1 <<< shift) % 2 ^ c.indexBits

/-- The `for (;;)` of `__lookup` and `__lookup_tag`, with `rest` slots from `i` on:
`.inr (i, index)` where the test holds, `.inl index` for `goto out`. -/
def skipLoop (test : Nat → Bool) (shift : Nat) : Nat → Nat → Nat → Nat ⊕ Nat × Nat
  | 0, _, index => .inl index
  | rest + 1, i, index =>
    if test i then .inr (i, index)
    else
      let index := nextBlock c index shift
      if index = 0 then .inl index else skipLoop test shift rest (i + 1) index

/-- The bottom level of both functions: `slot i` is the item at `i`, if it is wanted. -/
def grabLoop (slot : Nat → Ptr α β) (maxItems : Nat) : Nat → Nat → Nat → List (Ptr α β) →
    List (Ptr α β) × Nat
  | 0, _, index, results => (results, index)
  | rest + 1, i, index, results =>
    let index := (index + 1) % 2 ^ c.indexBits
    match slot i with
    | none => grabLoop slot maxItems rest (i + 1) index results
    | some node =>
      let results := results ++ [some node]
      if results.length = maxItems then (results, index)
      else grabLoop slot maxItems rest (i + 1) index results

/-- `for (i = index & RADIX_TREE_MAP_MASK; i < RADIX_TREE_MAP_SIZE; i++)` -/
def grab (slot : Nat → Ptr α β) (index maxItems : Nat) : List (Ptr α β) × Nat :=
  let i := slotOffset c index 0
  grabLoop c slot maxItems (c.mapSize - i) i index []

/-- The skipping at one level. -/
def skip (test : Nat → Bool) (shift index : Nat) : Nat ⊕ Nat × Nat :=
  let i := slotOffset c index shift
  skipLoop c test shift (c.mapSize - i) i index

/-- The levels of `__lookup`, from `height + 1` on. -/
def lookupLevels (s : State α β) (maxItems : Nat) : Nat → Nat → Nat → α →
    Option (List (Ptr α β) × Nat)
  | 0, _, index, slot =>
    if s.live slot then some (grab c (s.slots slot) index maxItems) else none
  | height + 1, shift, index, slot =>
    if s.live slot then
      match skip c (fun i => (s.slots slot i).isSome) shift index with
      | .inl next => some ([], next)
      | .inr (i, index) =>
        match s.slots slot i with
        | none => some ([], index)
        | some (.node a) => lookupLevels s maxItems height (shift - c.mapShift) index a
        | some _ => none
    else none

/-- `__lookup`: the results and `*next_index`. -/
def lookup (s : State α β) (slot : α) (index maxItems : Nat) : Option (List (Ptr α β) × Nat) :=
  match s.height slot with
  | 0 => if s.live slot then some ([], index) else none
  | height + 1 => lookupLevels c s maxItems height (height * c.mapShift) index slot

/-- The items of a node that have the tag. -/
def taggedSlots (s : State α β) (slot : α) (tag : Tag) (i : Nat) : Ptr α β :=
  if s.tagGet slot tag i then s.slots slot i else none

/-- The levels of `__lookup_tag`, from `height + 1` on.  After the bottom level the
loop is left, whatever `slots[i]` is. -/
def lookupTagLevels (s : State α β) (maxItems : Nat) (tag : Tag) : Nat → Nat → Nat → α →
    Option (List (Ptr α β) × Nat)
  | 0, shift, index, slot =>
    if s.live slot then
      match skip c (s.tagGet slot tag) shift index with
      | .inl next => some ([], next)
      | .inr (_, index) => some (grab c (taggedSlots s slot tag) index maxItems)
    else none
  | height + 1, shift, index, slot =>
    if s.live slot then
      match skip c (s.tagGet slot tag) shift index with
      | .inl next => some ([], next)
      | .inr (i, index) =>
        match s.slots slot i with
        | none => some ([], index)
        | some (.node a) => lookupTagLevels s maxItems tag height (shift - c.mapShift) index a
        | some _ => none
    else none

/-- `__lookup_tag` -/
def lookupTag (s : State α β) (slot : α) (tag : Tag) (index maxItems : Nat) :
    Option (List (Ptr α β) × Nat) :=
  match s.height slot with
  | 0 => if s.live slot then some ([], index) else none
  | height + 1 => lookupTagLevels c s maxItems tag height (height * c.mapShift) index slot

/-- One round of `while (ret < max_items)`; the state is the results and `cur_index`. -/
def gangRound (search : Nat → Nat → Option (List (Ptr α β) × Nat)) (maxIndex maxItems : Nat) :
    List (Ptr α β) × Nat → Option (List (Ptr α β) ⊕ List (Ptr α β) × Nat)
  | (results, cur) =>
    if results.length < maxItems then
      if cur > maxIndex then some (.inl results)
      else do
        let (found, next) ← search cur (maxItems - results.length)
        if next = 0 then some (.inl (results ++ found))
        else some (.inr (results ++ found, next))
    else some (.inl results)

/-- What both gang lookups do with `root->rnode`. -/
def gangLookup (s : State α β) (search : α → Nat → Nat → Option (List (Ptr α β) × Nat))
    (firstIndex maxItems : Nat) : Option (List (Ptr α β)) :=
  match s.rnode with
  | none => some []
  | some (.direct x) =>
    if firstIndex > 0 then some [] else some [directToPtr (some (.direct x))]
  | some (.node a) =>
    if s.live a then
      loop (gangRound (search a) (maxindex c (s.height a)) maxItems) ([], firstIndex)
    else none
  | some (.item _) => none

/-- `radix_tree_gang_lookup` -/
def radixTreeGangLookup (s : State α β) (firstIndex maxItems : Nat) :
    Option (List (Ptr α β)) :=
  gangLookup c s (lookup c s) firstIndex maxItems

/-- `radix_tree_gang_lookup_tag` -/
def radixTreeGangLookupTag (s : State α β) (firstIndex maxItems : Nat) (tag : Tag) :
    Option (List (Ptr α β)) :=
  if !s.rootTagGet tag then some []
  else gangLookup c s (fun slot => lookupTag c s slot tag) firstIndex maxItems

end

/-! ## Blocks of indices -/

section

variable {k p i : Nat}

/-- Where the block of level `k` around `index` ends, within the index space. -/
def blockEnd (c : Config) (index k : Nat) : Nat :=
  min ((index / c.mapSize ^ k + 1) * c.mapSize ^ k) (2 ^ c.indexBits)

section

variable (hi : index < 2 ^ c.indexBits)
include hi

/-- Blocks do not stick out of the index space, unless they contain it. -/
theorem block_fits (hk : k * c.mapShift ≤ c.indexBits) :
    (index / c.mapSize ^ k + 1) * c.mapSize ^ k ≤ 2 ^ c.indexBits := by
  have hsplit : 2 ^ c.indexBits = 2 ^ (c.indexBits - k * c.mapShift) * c.mapSize ^ k := by
    rw [mapSize_pow, ← Nat.pow_add]
    congr 1
    omega
  have hlt : index / c.mapSize ^ k < 2 ^ (c.indexBits - k * c.mapShift) :=
    Nat.div_lt_of_lt_mul (by rw [Nat.mul_comm, ← hsplit]; exact hi)
  rw [hsplit]
  exact Nat.mul_le_mul_right _ hlt

theorem nextBlock_eq :
    nextBlock c index (k * c.mapShift) = blockEnd c index k % 2 ^ c.indexBits := by
  have hform : nextBlock c index (k * c.mapShift) =
      (index / c.mapSize ^ k + 1) * c.mapSize ^ k % 2 ^ c.indexBits := by
    rw [nextBlock, Nat.shiftLeft_eq, Nat.shiftLeft_eq, Nat.shiftRight_eq_div_pow, mapSize_pow,
      Nat.add_mul]
  rw [hform, blockEnd]
  by_cases hk : k * c.mapShift ≤ c.indexBits
  · rw [Nat.min_eq_left (block_fits hi hk)]
  -- the block contains the index space
  have hdvd : 2 ^ c.indexBits ∣ c.mapSize ^ k := by
    rw [mapSize_pow]
    exact Nat.pow_dvd_pow 2 (by omega)
  have hle : 2 ^ c.indexBits ≤ (index / c.mapSize ^ k + 1) * c.mapSize ^ k := by
    refine Nat.le_trans (Nat.le_of_dvd (Nat.pow_pos (mapSize_pos c)) hdvd) ?_
    exact Nat.le_mul_of_pos_left _ (Nat.succ_pos _)
  rw [Nat.min_eq_right hle, Nat.mod_self]
  exact Nat.mod_eq_zero_of_dvd (Nat.dvd_mul_left_of_dvd hdvd _)

theorem lt_blockEnd : index < blockEnd c index k := by
  have hpos : 0 < c.mapSize ^ k := Nat.pow_pos (mapSize_pos c)
  have hlt := Nat.lt_mul_div_succ index hpos
  rw [Nat.mul_comm] at hlt
  exact Nat.lt_min.mpr ⟨hlt, hi⟩

end

theorem blockEnd_le : blockEnd c index k ≤ 2 ^ c.indexBits := Nat.min_le_right ..

/-- The indices from `index` to the end of its block. -/
theorem div_of_lt_blockEnd {j : Nat} (hle : index ≤ j) (hlt : j < blockEnd c index k) :
    j / c.mapSize ^ k = index / c.mapSize ^ k := by
  refine Nat.le_antisymm ?_ (Nat.div_le_div_right hle)
  have hpos : 0 < c.mapSize ^ k := Nat.pow_pos (mapSize_pos c)
  have hlt' : j < (index / c.mapSize ^ k + 1) * c.mapSize ^ k :=
    Nat.lt_of_lt_of_le hlt (Nat.min_le_left ..)
  exact Nat.le_of_lt_succ ((Nat.div_lt_iff_lt_mul hpos).mpr hlt')

/-- The next block begins at the end of a block. -/
theorem blockEnd_div (hlt : blockEnd c index k < 2 ^ c.indexBits) :
    blockEnd c index k / c.mapSize ^ k = index / c.mapSize ^ k + 1 := by
  have heq : blockEnd c index k = (index / c.mapSize ^ k + 1) * c.mapSize ^ k := by
    unfold blockEnd at hlt ⊢
    omega
  rw [heq, Nat.mul_div_cancel _ (Nat.pow_pos (mapSize_pos c))]

end

/-! ## Searches -/

section

variable {α β : Type} {val : Nat → Ptr α β}

/-- A search from `index` on has listed the values of `P` up to where the next search
begins. -/
def Found (c : Config) (P : Nat → Prop) (val : Nat → Ptr α β) (index maxItems : Nat)
    (out : List (Ptr α β) × Nat) : Prop :=
  ∃ hi l, Listing P index hi l ∧ index < hi ∧ hi ≤ 2 ^ c.indexBits ∧ l.length ≤ maxItems ∧
    out = (l.map val, hi % 2 ^ c.indexBits)

/-- What has been skipped does not change what is found. -/
theorem Found.skip {index' : Nat} {out : List (Ptr α β) × Nat}
    (h : Found c P val index' maxItems out) (hle : index ≤ index')
    (hnone : ∀ j, index ≤ j → j < index' → ¬ P j) : Found c P val index maxItems out := by
  obtain ⟨hi, l, hl, hlt, hhi, hlen, rfl⟩ := h
  exact ⟨hi, l, .skip hnone hl hle (Nat.le_of_lt hlt), by omega, hhi, hlen, rfl⟩

/-- Nothing is found up to `hi`. -/
theorem Found.nothing {hi : Nat} (hlt : index < hi) (hhi : hi ≤ 2 ^ c.indexBits)
    (hnone : ∀ j, index ≤ j → j < hi → ¬ P j) :
    Found c P val index maxItems ([], hi % 2 ^ c.indexBits) :=
  ⟨hi, [], .nil hnone, hlt, hhi, Nat.zero_le _, rfl⟩

/-- How the skipping at level `k` ends, in the node at position `p` of level `k + 1`. -/
def Skipped (c : Config) (P : Nat → Prop) (test : Nat → Bool) (k p index : Nat) :
    Nat ⊕ Nat × Nat → Prop
  | .inl next => ∃ hi, index < hi ∧ hi ≤ 2 ^ c.indexBits ∧ next = hi % 2 ^ c.indexBits ∧
      ∀ j, index ≤ j → j < hi → ¬ P j
  | .inr (i, index') => i < c.mapSize ∧ test i = true ∧ index ≤ index' ∧
      index' < 2 ^ c.indexBits ∧ index' / c.mapSize ^ k = p * c.mapSize + i ∧
      ∀ j, index ≤ j → j < index' → ¬ P j

variable {test : Nat → Bool} {k p : Nat}

theorem Skipped.found {next : Nat} (h : Skipped c P test k p index (.inl next)) :
    Found c P val index maxItems ([], next) := by
  obtain ⟨hend, hlt, hle, rfl, hnone⟩ := h
  exact .nothing hlt hle hnone

section

variable
  (htest : ∀ i < c.mapSize, test i = false → ∀ j, j / c.mapSize ^ k = p * c.mapSize + i → ¬ P j)
include htest

/-- The invariant of the loop: nothing has been wanted so far, and when no slot is left
there has been progress. -/
theorem skipLoop_spec {start : Nat} :
    ∀ (rest i index : Nat), i + rest = c.mapSize → index < 2 ^ c.indexBits →
      index / c.mapSize ^ k = p * c.mapSize + i → start ≤ index → (rest = 0 → start < index) →
      (∀ j, start ≤ j → j < index → ¬ P j) →
      Skipped c P test k p start (skipLoop c test (k * c.mapShift) rest i index) := by
  intro rest
  induction rest with
  | zero =>
    intro i index _ hi _ _ hstart hnone
    exact ⟨index, hstart rfl, Nat.le_of_lt hi, (Nat.mod_eq_of_lt hi).symm, hnone⟩
  | succ rest ih =>
    intro i index hrest hi hpos hstart _ hnone
    unfold skipLoop
    by_cases ht : test i = true
    · rw [if_pos ht]
      exact ⟨by omega, ht, hstart, hi, hpos, hnone⟩
    have hlt := lt_blockEnd (k := k) hi
    have hnone' (j) (h1 : start ≤ j) (h2 : j < blockEnd c index k) : ¬ P j := by
      by_cases hj : j < index
      · exact hnone j h1 hj
      · refine htest i (by omega) (by simpa using ht) j ?_
        rw [div_of_lt_blockEnd (by omega) h2, hpos]
    rw [if_neg ht]
    simp only [nextBlock_eq hi]
    by_cases hzero : blockEnd c index k % 2 ^ c.indexBits = 0
    · rw [if_pos hzero]
      exact ⟨_, by omega, blockEnd_le, rfl, hnone'⟩
    have hend : blockEnd c index k < 2 ^ c.indexBits := by
      refine Nat.lt_of_le_of_ne blockEnd_le fun heq => hzero ?_
      rw [heq, Nat.mod_self]
    rw [if_neg hzero, Nat.mod_eq_of_lt hend]
    refine ih (i + 1) _ (by omega) hend ?_ (by omega) (fun _ => by omega) hnone'
    rw [blockEnd_div hend]
    omega

/-- The skipping, from the slot of `index` on. -/
theorem skip_spec (hi : index < 2 ^ c.indexBits) (hp : index / c.mapSize ^ (k + 1) = p) :
    Skipped c P test k p index (skip c test (k * c.mapShift) index) := by
  have hlt : index / c.mapSize ^ k % c.mapSize < c.mapSize := Nat.mod_lt _ (mapSize_pos c)
  unfold skip
  rw [slotOffset_eq]
  refine skipLoop_spec htest _ _ _ (by omega) hi ?_ (Nat.le_refl _) (by omega)
    (fun j h1 h2 => by omega)
  rw [← hp, div_pow_succ, Nat.div_add_mod']

end

/-! ## The bottom level -/

variable {slot : Nat → Ptr α β}
  (hval : ∀ i < c.mapSize, P (p * c.mapSize + i) → val (p * c.mapSize + i) ≠ none)
  (hslot : ∀ i < c.mapSize,
    slot i = open Classical in if P (p * c.mapSize + i) then val (p * c.mapSize + i) else none)
include hval hslot

/-- The invariant of the loop: the results list what is wanted from `start` on. -/
theorem grabLoop_spec {start : Nat} (hfits : (p + 1) * c.mapSize ≤ 2 ^ c.indexBits) :
    ∀ (rest i : Nat) (l : List Nat), i + rest = c.mapSize →
      Listing P start (p * c.mapSize + i) l → l.length < maxItems →
      start ≤ p * c.mapSize + i → (rest = 0 → start < p * c.mapSize + i) →
      Found c P val start maxItems
        (grabLoop c slot maxItems rest i ((p * c.mapSize + i) % 2 ^ c.indexBits) (l.map val)) := by
  rw [Nat.add_mul] at hfits
  intro rest
  induction rest with
  | zero =>
    intro i l hrest hl hlen _ hstart
    exact ⟨_, l, hl, hstart rfl, by omega, Nat.le_of_lt hlen, rfl⟩
  | succ rest ih =>
    intro i l hrest hl hlen hle _
    unfold grabLoop
    have hindex : ((p * c.mapSize + i) % 2 ^ c.indexBits + 1) % 2 ^ c.indexBits =
        (p * c.mapSize + (i + 1)) % 2 ^ c.indexBits := Nat.mod_add_mod ..
    simp only [hindex, hslot i (by omega)]
    by_cases hP : P (p * c.mapSize + i)
    · obtain ⟨t, ht⟩ := ne_none_iff_exists'.mp (hval i (by omega) hP)
      have hl' := hl.append (Listing.single hP) hle (Nat.le_succ _)
      have hmap : l.map val ++ [some t] = (l ++ [p * c.mapSize + i]).map val := by
        rw [map_append, map_singleton, ht]
      simp only [if_pos hP, ht, hmap, length_map]
      by_cases hfull : (l ++ [p * c.mapSize + i]).length = maxItems
      · rw [if_pos hfull]
        exact ⟨_, _, hl', by omega, by omega, Nat.le_of_eq hfull, rfl⟩
      rw [if_neg hfull]
      rw [length_append, length_singleton] at hfull
      refine ih (i + 1) _ (by omega) hl' ?_ (by omega) (fun _ => by omega)
      rw [length_append, length_singleton]
      omega
    · simp only [if_neg hP]
      have hskip : Listing P (p * c.mapSize + i) (p * c.mapSize + i + 1) [] := by
        refine .nil fun j h1 h2 => ?_
        obtain rfl : j = p * c.mapSize + i := by omega
        exact hP
      have hl' := hl.append hskip hle (Nat.le_succ _)
      rw [append_nil] at hl'
      exact ih (i + 1) l (by omega) hl' hlen (by omega) (fun _ => by omega)

/-- The items of a leaf, from the slot of `index` on. -/
theorem grab_spec (hc : c.mapShift ≤ c.indexBits) (hi : index < 2 ^ c.indexBits)
    (hmax : 0 < maxItems) (hp : index / c.mapSize = p) :
    Found c P val index maxItems (grab c slot index maxItems) := by
  have hfits := block_fits hi (by rw [Nat.one_mul]; exact hc)
  have hlt : index % c.mapSize < c.mapSize := Nat.mod_lt _ (mapSize_pos c)
  have hsplit : p * c.mapSize + index % c.mapSize = index := by rw [← hp, Nat.div_add_mod']
  have hoff : slotOffset c index 0 = index % c.mapSize := by
    have h := slotOffset_eq c index 0
    rwa [Nat.zero_mul, div_pow_zero] at h
  rw [pow_one, hp] at hfits
  have hloop : Found c P val index maxItems _ := grabLoop_spec hval hslot hfits
    (c.mapSize - index % c.mapSize) (index % c.mapSize) [] (by omega)
    (.nil fun j h1 h2 => by omega) hmax (by omega) (by omega)
  rw [hsplit, Nat.mod_eq_of_lt hi] at hloop
  unfold grab
  rw [hoff]
  exact hloop

end

/-! ## Both searches -/

section

variable {α β : Type} {s : State α β} {e : Nat → Nat → Ptr α β} {a : α}

section

variable (hc : c.mapShift ≤ c.indexBits)
include hc

/-- The levels of `__lookup`: the items of the table are found. -/
theorem lookupLevels_spec (hs : Shape c s e) (hmax : 0 < maxItems) (k index : Nat) (a : α)
    (hi : index < 2 ^ c.indexBits) (ha : e (k + 1) (index / c.mapSize ^ (k + 1)) = some (.node a)) :
    ∃ out, lookupLevels c s maxItems k (k * c.mapShift) index a = some out ∧
      Found c (fun i => e 0 i ≠ none) (e 0) index maxItems out := by
  induction k generalizing index a with
  | zero =>
    have hok := hs.nodeOk ha
    rw [pow_one] at hok
    unfold lookupLevels
    rw [if_pos hok.live]
    refine ⟨_, rfl, grab_spec (fun i _ hne => hne) ?_ hc hi hmax rfl⟩
    intro i hoff
    rw [hok.slots i hoff]
    split
    · rfl
    · next hnone => exact not_not.mp hnone
  | succ k ih =>
    have hok := hs.nodeOk ha
    have hk := hs.level_lt ha
    unfold lookupLevels
    rw [if_pos hok.live]
    have hskip : Skipped c (fun i => e 0 i ≠ none) (fun i => (s.slots a i).isSome) (k + 1)
        (index / c.mapSize ^ (k + 1 + 1)) index
        (skip c (fun i => (s.slots a i).isSome) ((k + 1) * c.mapShift) index) := by
      refine skip_spec (fun i hoff htest j hj hne => ?_) hi rfl
      rw [hok.slots i hoff, ← hj, isSome_eq_false_iff, isNone_iff_eq_none] at htest
      exact hne (hs.table.none_below (by omega) j htest)
    cases hout : skip c (fun i => (s.slots a i).isSome) ((k + 1) * c.mapShift) index with
    | inl next => exact ⟨_, rfl, (hout ▸ hskip : Skipped ..).found⟩
    | inr found =>
      obtain ⟨i, index'⟩ := found
      rw [hout] at hskip
      obtain ⟨hoff, htest, hle, hi', hpos, hnone⟩ := hskip
      dsimp only at htest ⊢
      rw [hok.slots i hoff, ← hpos] at htest ⊢
      obtain ⟨b, hb⟩ := hs.exists_node (isSome_iff_ne_none.mp htest)
      obtain ⟨out, heq, hfound⟩ := ih index' b hi' hb
      rw [hb, ← Nat.sub_one_mul]
      exact ⟨out, heq, hfound.skip hle hnone⟩

/-- The levels of `__lookup_tag`: the tagged items are found. -/
theorem lookupTagLevels_spec (hh : Holds c s e T)
    (hmax : 0 < maxItems) (tag : Tag) : ∀ (k index : Nat) (a : α), index < 2 ^ c.indexBits →
      e (k + 1) (index / c.mapSize ^ (k + 1)) = some (.node a) →
      ∃ out, lookupTagLevels c s maxItems tag k (k * c.mapShift) index a = some out ∧
        Found c (T tag) (e 0) index maxItems out := by
  obtain ⟨hs, ht⟩ := hh
  have hskip {k index : Nat} {a : α} (hi : index < 2 ^ c.indexBits)
      (ha : e (k + 1) (index / c.mapSize ^ (k + 1)) = some (.node a)) :
      Skipped c (T tag) (s.tagGet a tag) k (index / c.mapSize ^ (k + 1)) index
        (skip c (s.tagGet a tag) (k * c.mapShift) index) := by
    refine skip_spec (fun i hoff htest j hj hT => ?_) hi rfl
    rw [State.tagGet, (ht.bits tag k _ a ha i hoff).mpr ⟨j, hT, hj⟩] at htest
    cases htest
  intro k
  induction k with
  | zero =>
    intro index a hi ha
    have hok := hs.nodeOk ha
    unfold lookupTagLevels
    rw [if_pos hok.live]
    have hskip' := hskip hi ha
    cases hout : skip c (s.tagGet a tag) (0 * c.mapShift) index with
    | inl next => exact ⟨_, rfl, (hout ▸ hskip' : Skipped ..).found⟩
    | inr found =>
      obtain ⟨i, index'⟩ := found
      rw [hout] at hskip'
      obtain ⟨hoff, -, hle, hi', hpos, hnone⟩ := hskip'
      rw [div_pow_zero] at hpos
      have hp : index' / c.mapSize = index / c.mapSize ^ (0 + 1) := by rw [hpos, slot_div _ hoff]
      refine ⟨_, rfl, Found.skip ?_ hle hnone⟩
      refine grab_spec (fun i _ hT => ht.present tag _ hT) ?_ hc hi' hmax hp
      intro i hoff
      have hbits := ht.bits tag 0 _ a ha i hoff
      simp only [div_pow_zero, exists_eq_right] at hbits
      unfold taggedSlots State.tagGet
      by_cases hT : T tag (index / c.mapSize ^ (0 + 1) * c.mapSize + i)
      · rw [if_pos (hbits.mpr hT), if_pos hT, hok.slots i hoff]
      · rw [if_neg (fun h => hT (hbits.mp h)), if_neg hT]
  | succ k ih =>
    intro index a hi ha
    have hok := hs.nodeOk ha
    have hk := hs.level_lt ha
    unfold lookupTagLevels
    rw [if_pos hok.live]
    have hskip' := hskip hi ha
    cases hout : skip c (s.tagGet a tag) ((k + 1) * c.mapShift) index with
    | inl next => exact ⟨_, rfl, (hout ▸ hskip' : Skipped ..).found⟩
    | inr found =>
      obtain ⟨i, index'⟩ := found
      rw [hout] at hskip'
      obtain ⟨hoff, htest, hle, hi', hpos, hnone⟩ := hskip'
      obtain ⟨j, hT, hj⟩ := (ht.bits tag (k + 1) _ a ha i hoff).mp htest
      have hsome := hs.table.some_above (k := k + 1) (by omega) (ht.present tag j hT)
      rw [hj, ← hpos] at hsome
      obtain ⟨b, hb⟩ := hs.exists_node hsome
      obtain ⟨out, heq, hfound⟩ := ih index' b hi' hb
      dsimp only
      rw [hok.slots i hoff, ← hpos, hb, ← Nat.sub_one_mul]
      exact ⟨out, heq, hfound.skip hle hnone⟩

/-- A search at the root node finds what is wanted. -/
def Searches (c : Config) (s : State α β) (e : Nat → Nat → Ptr α β) (P : Nat → Prop)
    (search : α → Nat → Nat → Option (List (Ptr α β) × Nat)) : Prop :=
  ∀ k a, s.height a = k + 1 → e (k + 1) 0 = some (.node a) → ∀ index < 2 ^ c.indexBits,
    index / c.mapSize ^ (k + 1) = 0 → ∀ n > 0, ∃ out, search a index n = some out ∧
      Found c P (e 0) index n out

theorem lookup_spec (hs : Shape c s e) : Searches c s e (fun i => e 0 i ≠ none) (lookup c s) := by
  intro k a hheight ha index hi hdiv n hn
  rw [← hdiv] at ha
  simp only [lookup, hheight]
  exact lookupLevels_spec hc hs hn k index a hi ha

theorem lookupTag_spec (hh : Holds c s e T) (tag : Tag) :
    Searches c s e (T tag) (fun slot => lookupTag c s slot tag) := by
  intro k a hheight ha index hi hdiv n hn
  rw [← hdiv] at ha
  simp only [lookupTag, hheight]
  exact lookupTagLevels_spec hc hh hn tag k index a hi ha

end

end

/-! ## Search after search -/

section

variable {α β : Type} {val : Nat → Ptr α β} {search : Nat → Nat → Option (List (Ptr α β) × Nat)}
  {maxIndex : Nat} {first : Nat} {e : Nat → Nat → Ptr α β}

/-- Between the rounds: the results list what is wanted before `cur_index`. -/
def Gathered (c : Config) (P : Nat → Prop) (val : Nat → Ptr α β) (first maxItems : Nat)
    (x : List (Ptr α β) × Nat) : Prop :=
  first ≤ x.2 ∧ x.2 < 2 ^ c.indexBits ∧
    ∃ l, Listing P first x.2 l ∧ l.length ≤ maxItems ∧ x.1 = l.map val

/-- The results are the first `max_items` of those wanted. -/
def Complete (c : Config) (P : Nat → Prop) (val : Nat → Ptr α β) (first maxItems : Nat)
    (results : List (Ptr α β)) : Prop :=
  ∃ idx, Listing P first (2 ^ c.indexBits) idx ∧ results = (idx.take maxItems).map val

theorem Complete.of_all {l : List Nat} (hl : Listing P first (2 ^ c.indexBits) l)
    (hlen : l.length ≤ maxItems) : Complete c P val first maxItems (l.map val) :=
  ⟨l, hl, by rw [take_of_length_le hlen]⟩

theorem Complete.none (hnone : ∀ i, first ≤ i → ¬ P i) : Complete c P val first maxItems [] :=
  .of_all (.nil fun i hi _ => hnone i hi) (Nat.zero_le _)

section

variable (hP : ∀ i, P i → i ≤ maxIndex)
  (hsearch : ∀ index ≤ maxIndex, index < 2 ^ c.indexBits → ∀ n > 0, ∃ out,
    search index n = some out ∧ Found c P val index n out)
include hP hsearch

/-- One round: the next search begins where the last one ended. -/
theorem gangRound_spec (x : List (Ptr α β) × Nat) (hx : Gathered c P val first maxItems x) :
    (∃ r, gangRound search maxIndex maxItems x = some (.inl r) ∧
      Complete c P val first maxItems r) ∨
    ∃ y, gangRound search maxIndex maxItems x = some (.inr y) ∧
      Gathered c P val first maxItems y ∧ 2 ^ c.indexBits - y.2 < 2 ^ c.indexBits - x.2 := by
  obtain ⟨results, cur⟩ := x
  obtain ⟨hle, hcur, l, hl, hlen, hresults⟩ := hx
  subst hresults
  simp only [gangRound, length_map]
  by_cases hmore : l.length < maxItems
  · rw [if_pos hmore]
    by_cases hgt : cur > maxIndex
    · -- the rest of the index space is above the tree
      have hrest : Listing P cur (2 ^ c.indexBits) [] := .nil fun i h1 _ hi => by
        have := hP i hi
        omega
      have hl' := hl.append hrest hle (Nat.le_of_lt hcur)
      rw [append_nil] at hl'
      exact .inl ⟨_, if_pos hgt, .of_all hl' hlen⟩
    · obtain ⟨out, heq, hi, found, hfound, hlt, hhi, hlen', rfl⟩ :=
        hsearch cur (by omega) hcur (maxItems - l.length) (by omega)
      have hl' := hl.append hfound hle (Nat.le_of_lt hlt)
      have hlen'' : (l ++ found).length ≤ maxItems := by
        rw [length_append]
        omega
      rw [if_neg hgt, heq]
      simp only [bind_eq_bind, bind_some, ← map_append]
      by_cases hend : hi = 2 ^ c.indexBits
      · rw [hend, Nat.mod_self]
        exact .inl ⟨_, rfl, .of_all (hend ▸ hl') hlen''⟩
      have hhi' : hi < 2 ^ c.indexBits := by omega
      rw [Nat.mod_eq_of_lt hhi', if_neg (by omega)]
      exact .inr ⟨_, rfl, ⟨by dsimp only; omega, hhi', l ++ found, hl', hlen'', rfl⟩,
        by dsimp only; omega⟩
  · obtain ⟨rest, hrest⟩ := Listing.exists_listing P cur (2 ^ c.indexBits)
    have hl' := hl.append hrest hle (Nat.le_of_lt hcur)
    refine .inl ⟨_, if_neg hmore, l ++ rest, hl', ?_⟩
    rw [take_append_of_le_length (by omega), take_of_length_le hlen]

/-- The loop ends, since the index grows until it wraps around. -/
theorem gangLoop_spec (hfirst : first < 2 ^ c.indexBits) :
    ∃ results, loop (gangRound search maxIndex maxItems) ([], first) = some results ∧
      Complete c P val first maxItems results := by
  have hstart : Gathered c P val first maxItems ([], first) :=
    ⟨Nat.le_refl _, hfirst, [], .nil fun i h1 h2 => by omega, Nat.zero_le _, rfl⟩
  obtain ⟨r, hr, hcomplete⟩ := rounds_of_measure (gangRound_spec hP hsearch)
    (2 ^ c.indexBits + 1) _ hstart (by dsimp only; omega)
  exact ⟨r, loop_of_rounds _ hr, hcomplete⟩

end

/-- A gang lookup over a tree that is not empty, whatever the searches look for. -/
theorem gangLookup_spec {s : State α β} {search : α → Nat → Nat → Option (List (Ptr α β) × Nat)}
    (hs : Shape c s e) (hpresent : ∀ i, P i → e 0 i ≠ none)
    (hindex : ∀ i, P i → i < 2 ^ c.indexBits) (hroot : s.rootHeight = 0 → e 0 0 ≠ none → P 0)
    (hsearch : Searches c s e P search) (hmax : 1 ≤ maxItems) (hfirst : first < 2 ^ c.indexBits) :
    ∃ results, gangLookup c s search first maxItems = some results ∧
      Complete c P (e 0) first maxItems results := by
  unfold gangLookup
  cases hr : s.rnode with
  | none => exact ⟨_, rfl, .none fun i _ hi => hpresent i hi (hs.all_none hr 0 i)⟩
  | some t =>
    by_cases hzero : s.rootHeight = 0
    · -- the only item is in the root
      have hdirect := hs.rnode
      rw [hr, if_pos hzero] at hdirect
      cases h0 : e 0 0 with
      | none =>
        rw [h0] at hdirect
        cases hdirect
      | some u =>
        obtain ⟨x, rfl⟩ := hs.leaf 0 u h0
        rw [h0] at hdirect
        obtain rfl : t = .direct x := some.inj hdirect
        dsimp only
        have honly (i) (hi : P i) : i = 0 := by
          have hdiv := hs.table.div_eq_zero (hpresent i hi)
          rwa [hzero, div_pow_zero] at hdiv
        by_cases hpos : first > 0
        · rw [if_pos hpos]
          refine ⟨_, rfl, .none fun i h1 hi => ?_⟩
          have := honly i hi
          omega
        obtain rfl : first = 0 := by omega
        have hP := hroot hzero (by rw [h0]; simp)
        have hrest : Listing P 1 (2 ^ c.indexBits) [] := .nil fun i h1 _ hi => by
          have := honly i hi
          omega
        have hlist := (Listing.single hP).append hrest (Nat.zero_le _) (Nat.two_pow_pos _)
        refine ⟨_, rfl, ?_⟩
        have hall : Complete c P (e 0) 0 maxItems _ := .of_all hlist hmax
        rw [append_nil, map_singleton, h0] at hall
        exact hall
    · obtain ⟨h, hh⟩ := Nat.exists_eq_succ_of_ne_zero hzero
      have hnode := hs.root_eq hzero
      rw [hr, hh] at hnode
      obtain ⟨a, rfl, hok⟩ := hs.inner h 0 t hnode.symm
      dsimp only
      rw [if_pos hok.live, hok.height]
      refine gangLoop_spec ?_ ?_ hfirst
      · intro i hi
        by_contra hgt
        refine hpresent i hi (hs.none_of_gt (hindex i hi) ?_)
        rw [hh]
        exact Nat.lt_of_not_le hgt
      · intro index hle hi n hn
        exact hsearch h a hok.height hnode.symm index hi (div_eq_zero_of_le hi (by omega)) n hn

/-- With the root's tag set the only item of a tree of height 0 has it; without it
nothing is tagged. -/
theorem radixTreeGangLookupTag_spec {s : State α β} (hc : c.mapShift ≤ c.indexBits)
    (hh : Holds c s e T) (hindex : ∀ i, e 0 i ≠ none → i < 2 ^ c.indexBits) (hmax : 1 ≤ maxItems)
    (hfirst : first < 2 ^ c.indexBits) (tag : Tag) :
    ∃ results, radixTreeGangLookupTag c s first maxItems tag = some results ∧
      Complete c (T tag) (e 0) first maxItems results := by
  unfold radixTreeGangLookupTag
  cases hroot : s.rootTagGet tag with
  | false =>
    refine ⟨_, rfl, .none fun i _ hi => ?_⟩
    rw [(hh.tagged.root tag).mpr ⟨i, hi⟩] at hroot
    cases hroot
  | true =>
    refine gangLookup_spec hh.shape (hh.tagged.present tag)
      (fun i hi => hindex i (hh.tagged.present tag i hi)) ?_ (lookupTag_spec hc hh tag) hmax hfirst
    intro hzero _
    obtain ⟨i, hi⟩ := (hh.tagged.root tag).mp hroot
    have hdiv := hh.shape.table.div_eq_zero (hh.tagged.present tag i hi)
    rw [hzero, div_pow_zero] at hdiv
    exact hdiv ▸ hi

end

/-! ## Runs -/

section

variable {α β : Type} [DecidableEq α] [DecidableEq β] {s s₀ : State α β} {evs : List (Event α β)}

/-- Items come from insertions. -/
theorem step_items {call : Call α β} {new : List (Event α β)} {s' : State α β} {m : Map β}
    (hcall : Allowed c s call) (hstep : step c s call = some (s', new))
    (hbound : ∀ i, m.item i ≠ none → i < 2 ^ c.indexBits) (i)
    (hi : (new.foldl Map.apply m).item i ≠ none) : i < 2 ^ c.indexBits := by
  cases call
  all_goals
    simp only [step, bind_eq_bind, bind_eq_some_iff] at hstep
    obtain ⟨⟨s1, found⟩, -, hout⟩ := hstep
    obtain rfl := (Prod.mk.inj (some.inj hout)).2
  case insert index item mem =>
    cases found with
    | none =>
      by_cases hii : i = index
      · exact hii ▸ hcall.1
      · refine hbound i ?_
        simpa [Map.apply, hii] using hi
    | some err => exact hbound i hi
  case delete index =>
    by_cases hii : i = index
    · simp [Map.apply, hii] at hi
    · refine hbound i ?_
      simpa [Map.apply, hii] using hi
  all_goals exact hbound i hi

/-- Only indices of the index space are in use. -/
theorem run_item_lt (hrun : RunWith (Allowed c) (step c) s₀ evs s) :
    ∀ i, (Map.after evs).item i ≠ none → i < 2 ^ c.indexBits := by
  refine hrun.invariant (fun i hi => absurd rfl hi) ?_
  intro s s' evs new call hbound hcall hstep i hi
  rw [Map.after, foldl_append] at hi
  exact step_items hcall hstep hbound i hi

/-- `radix_tree_gang_lookup` and `radix_tree_gang_lookup_tag` return in every state that
is reached, with the first `max_items` of the items, and of the tagged items, whose
index is at least `first_index`, in ascending order. -/
theorem gang_lookup_run (hc : c.mapShift ≤ c.indexBits) (hinit : Initial c s₀)
    (hrun : RunWith (Allowed c) (step c) s₀ evs s) {first maxItems : Nat}
    (hfirst : first < 2 ^ c.indexBits) (hmax : 1 ≤ maxItems) :
    (∃ idx : List Nat, idx.Pairwise (· < ·) ∧
      (∀ i, i ∈ idx ↔ first ≤ i ∧ (Map.after evs).item i ≠ none) ∧
      radixTreeGangLookup c s first maxItems =
        some ((idx.take maxItems).map fun i => ((Map.after evs).item i).map .item)) ∧
    ∀ tag, ∃ idx : List Nat, idx.Pairwise (· < ·) ∧
      (∀ i, i ∈ idx ↔ first ≤ i ∧ (Map.after evs).tagged tag i) ∧
      radixTreeGangLookupTag c s first maxItems tag =
        some ((idx.take maxItems).map fun i => ((Map.after evs).item i).map .item) := by
  obtain ⟨e, hh, hitems⟩ := run_represents hinit hrun
  have hval : (fun i => ((Map.after evs).item i).map .item) = e 0 := funext fun i => (hitems i).symm
  have hpresent (i) : (Map.after evs).item i ≠ none ↔ e 0 i ≠ none := by
    rw [hitems i, Ne, Ne, map_item_eq_none]
  have hbound (i) (hi : e 0 i ≠ none) : i < 2 ^ c.indexBits :=
    run_item_lt hrun i ((hpresent i).mpr hi)
  rw [hval]
  refine ⟨?_, fun tag => ?_⟩
  · obtain ⟨results, heq, idx, hidx, rfl⟩ := gangLookup_spec hh.shape (fun _ h => h) hbound
      (fun _ h => h) (lookup_spec hc hh.shape) hmax hfirst
    refine ⟨idx, hidx.sorted, fun i => ?_, heq⟩
    rw [hidx.mem_iff, hpresent i]
    exact ⟨fun h => ⟨h.1, h.2.2⟩, fun h => ⟨h.1, hbound i h.2, h.2⟩⟩
  · obtain ⟨results, heq, idx, hidx, rfl⟩ := radixTreeGangLookupTag_spec hc hh hbound hmax hfirst tag
    refine ⟨idx, hidx.sorted, fun i => ?_, heq⟩
    rw [hidx.mem_iff]
    exact ⟨fun h => ⟨h.1, h.2.2⟩, fun h => ⟨h.1, hbound i (hh.tagged.present tag i h.2), h.2⟩⟩

end

/-- Items at the first and at the last index: the search from 1 on finds the last one,
and `cur_index` wraps around. -/
theorem gang_lookup_run_wraps : ∃ s,
    RunWith (Allowed (.ofBaseSmall false)) (step (.ofBaseSmall false)) emptyTree
      [.insert 0 7 none, .insert 4294967295 8 none] s ∧ s.rootHeight = 6 ∧
    ∃ idx : List Nat, idx.Pairwise (· < ·) ∧
      (∀ i, i ∈ idx ↔ 1 ≤ i ∧ (Map.after (α := Nat) (β := Nat)
        [.insert 0 7 none, .insert 4294967295 8 none]).item i ≠ none) ∧
      radixTreeGangLookup (.ofBaseSmall false) s 1 3 = some ((idx.take 3).map fun i =>
        ((Map.after (α := Nat) (β := Nat)
          [.insert 0 7 none, .insert 4294967295 8 none]).item i).map .item) := by
  have hrun := insertZero_run.tail (Call.insert 4294967295 8 [1, 2, 3, 4, 5, 6, 7, 8, 9, 10, 11])
    (show Allowed (.ofBaseSmall false) _
        (.insert 4294967295 8 [1, 2, 3, 4, 5, 6, 7, 8, 9, 10, 11]) from
      ⟨by decide, by decide, by intro a _; rfl⟩) rfl
  have hgang := gang_lookup_run (by decide) (emptyTree_initial _) hrun (by decide : 1 < 2 ^ 32)
    (by decide : 1 ≤ 3)
  exact ⟨_, hrun, rfl, hgang.1⟩

end LinuxKernel.Lib.RadixTree
