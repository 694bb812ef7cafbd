/-
  The radix tree is a finite map with tags.

  `Map` is what the tree is for: items by index, and the tagged indices.  The calls
  of a run that have returned determine the map (`Map.after`); the code and the map
  agree in every state of every run.
-/
import LinuxKernel.Lib.RadixTreeOps

namespace LinuxKernel.Lib.RadixTree

open Foundation

/-! ## The map -/

section

variable {α β : Type}

structure Map (β : Type) where
  item : Nat → Option β
  tagged : Tag → Nat → Prop

def Map.empty : Map β := ⟨fun _ => none, fun _ _ => False⟩

/-- What a call that has returned means for the map. -/
def Map.apply (m : Map β) : Event α β → Map β
  | .insert index item none => { m with item := Function.update m.item index (some item) }
  | .insert _ _ (some _) => m
  | .delete index _ => ⟨Function.update m.item index none, fun t i => m.tagged t i ∧ i ≠ index⟩
  | .tagSet index tag => { m with tagged := fun t i => m.tagged t i ∨ t = tag ∧ i = index }
  | .tagClear index tag => { m with tagged := untag m.tagged tag index }

def Map.after (evs : List (Event α β)) : Map β := evs.foldl Map.apply Map.empty

theorem Map.after_snoc (evs : List (Event α β)) (ev : Event α β) :
    Map.after (evs ++ [ev]) = (Map.after evs).apply ev := by
  simp [Map.after]

/-- What a call may return, given the map: -EEXIST means that the item is there, and
a new item has no tags; deletion returns the item. -/
def Map.Admits (m : Map β) : Event α β → Prop
  | .insert index _ none => m.item index = none ∧ ∀ tag, ¬ m.tagged tag index
  | .insert index _ (some .EEXIST) => m.item index ≠ none
  | .insert _ _ (some .ENOMEM) => True
  | .delete index found => found = (m.item index).map .item
  | .tagSet _ _ => True
  | .tagClear _ _ => True

/-- The nodes of the tree, along the pointers: the node, its height and its position. -/
inductive NodeAt (c : Config) (s : State α β) : α → Nat → Nat → Prop
  | root {a : α} : s.rnode = some (.node a) → NodeAt c s a s.rootHeight 0
  | slot {a b : α} {k p off : Nat} : NodeAt c s a (k + 1) p → off < c.mapSize →
      s.slots a off = some (.node b) → NodeAt c s b k (p * c.mapSize + off)

theorem NodeAt.entry {c : Config} {s : State α β} {e : Nat → Nat → Ptr α β} {a : α} {k p : Nat}
    (hs : Shape c s e) (h : NodeAt c s a k p) : e k p = some (.node a) := by
  induction h with
  | root hr =>
    rw [← hs.directToPtr_rnode, hr]
    rfl
  | slot _ hoff hslot ih => rw [← (hs.nodeOk ih).slots _ hoff, hslot]

end

/-! ## Runs -/

section

variable {α β : Type} [DecidableEq α] [DecidableEq β] (c : Config)

/-- An empty tree, as `INIT_RADIX_TREE` leaves it, and a slab of cleared nodes. -/
structure Initial (s : State α β) : Prop where
  height : s.rootHeight = 0
  rnode : s.rnode = none
  gfpMask : ∀ tag, s.rootTagGet tag = false
  slab : ∀ a, s.live a = false → Zeroed c s a

/-- Indices are `unsigned long`, the slab hands out memory that is not in use (or
none, when `mem` is exhausted), and only items that are there are tagged. -/
def Allowed (s : State α β) : Call α β → Prop
  | .insert index _ mem => index < 2 ^ c.indexBits ∧ Spare s mem
  | .delete index => index < 2 ^ c.indexBits
  | .tagSet index _ => index < 2 ^ c.indexBits ∧ ∃ t, radixTreeLookup c s index = some (some t)
  | .tagClear index _ => index < 2 ^ c.indexBits

/-- The tree in memory and the map agree. -/
def Represents (s : State α β) (m : Map β) : Prop :=
  ∃ e, Holds c s e m.tagged ∧ ∀ i, e 0 i = (m.item i).map .item

variable {c} {s : State α β} {m : Map β}

omit [DecidableEq α] [DecidableEq β] in
theorem Initial.represents (h : Initial c s) : Represents c s Map.empty := by
  refine ⟨_, .of_empty ?_ h.rnode h.gfpMask h.slab fun _ _ => id, fun _ => rfl⟩
  rw [h.height]
  exact Nat.succ_pos _

omit [DecidableEq α] [DecidableEq β] in
theorem map_item_eq_none {o : Option β} : (o.map .item : Ptr α β) = none ↔ o = none :=
  Option.map_eq_none_iff

/-- What one call does. -/
theorem step_represents (hr : Represents c s m) (call : Call α β) (hcall : Allowed c s call) :
    ∃ s' ev, step c s call = some (s', [ev]) ∧ m.Admits ev ∧ Represents c s' (m.apply ev) := by
  obtain ⟨e, hh, hitems⟩ := hr
  cases call with
  | insert index item mem =>
    obtain ⟨hi, hm⟩ := hcall
    obtain ⟨s', err, e', heq, hh', hins⟩ := radixTreeInsert_spec hh hi hm item
    refine ⟨s', .insert index item err, by simp only [step, heq]; rfl, ?_⟩
    cases hins with
    | ok hnone hnew =>
      refine ⟨⟨?_, fun tag ht => hh.tagged.present tag index ht hnone⟩, e', hh', ?_⟩
      · rwa [hitems index, map_item_eq_none] at hnone
      · intro i
        rw [hnew i]
        by_cases hii : i = index
        · rw [hii]
          simp [Map.apply]
        · rw [hitems i]
          simp [Map.apply, hii]
    | exists_ hne hsame =>
      refine ⟨?_, e', hh', fun i => (hsame i).trans (hitems i)⟩
      rwa [hitems index, Ne, map_item_eq_none] at hne
    | nomem hsame => exact ⟨trivial, e', hh', fun i => (hsame i).trans (hitems i)⟩
  | delete index =>
    obtain ⟨s', e', heq, hh', hwithout⟩ := radixTreeDelete_spec hh hcall
    refine ⟨s', .delete index (e 0 index), by simp only [step, heq]; rfl, hitems index, e', hh', ?_⟩
    intro i
    rw [hwithout i]
    by_cases hii : i = index
    · rw [hii]
      simp [Map.apply]
    · rw [hitems i]
      simp [Map.apply, hii]
  | tagSet index tag =>
    obtain ⟨hi, t, ht⟩ := hcall
    have hpresent : e 0 index ≠ none := by
      rw [radixTreeLookup_spec hh.shape hi] at ht
      intro hnone
      rw [hnone] at ht
      cases ht
    obtain ⟨s', heq, hh'⟩ := radixTreeTagSet_spec hh hi hpresent tag
    exact ⟨s', .tagSet index tag, by simp only [step, heq]; rfl, trivial, e, hh', hitems⟩
  | tagClear index tag =>
    obtain ⟨s', heq, -, hh'⟩ := radixTreeTagClear_spec hh hcall tag
    exact ⟨s', .tagClear index tag, by simp only [step, heq]; rfl, trivial, e, hh', hitems⟩

theorem run_represents {s0 : State α β} {evs : List (Event α β)} (hinit : Initial c s0)
    (hrun : RunWith (Allowed c) (step c) s0 evs s) : Represents c s (Map.after evs) := by
  refine hrun.invariant hinit.represents ?_
  intro s s' evs new call hr hcall hstep
  obtain ⟨s'', ev, heq, -, hr'⟩ := step_represents hr call hcall
  rw [hstep] at heq
  obtain ⟨rfl, rfl⟩ : s' = s'' ∧ new = [ev] := by simpa using heq
  rw [Map.after_snoc]
  exact hr'

/-- In every state that insertions, deletions and taggings lead to from an empty tree,
also those that ran out of memory half way: `radix_tree_lookup` is the map; a node's
tag bit is set exactly when a tagged item is below it, and the root's tag exactly when
there is a tagged item.  Every further call returns, without a BUG, what the map
admits; in particular a new item has no tags. -/
theorem radix_tree_run_contract {s₀ : State α β} {evs : List (Event α β)} (hinit : Initial c s₀)
    (hrun : RunWith (Allowed c) (step c) s₀ evs s) :
    (∀ index < 2 ^ c.indexBits,
      radixTreeLookup c s index = some (((Map.after evs).item index).map .item)) ∧
    (∀ tag i, (Map.after evs).tagged tag i → (Map.after evs).item i ≠ none) ∧
    (∀ a k p, NodeAt c s a (k + 1) p → ∀ tag, ∀ off < c.mapSize, (s.tagGet a tag off = true ↔
      ∃ i, (Map.after evs).tagged tag i ∧ i / c.mapSize ^ k = p * c.mapSize + off)) ∧
    (∀ tag, radixTreeTagged s tag = true ↔ ∃ i, (Map.after evs).tagged tag i) ∧
    ∀ call, Allowed c s call → ∃ s' ev, step c s call = some (s', [ev]) ∧
      (Map.after evs).Admits ev := by
  obtain ⟨e, hh, hitems⟩ := run_represents hinit hrun
  refine ⟨?_, ?_, ?_, ?_, ?_⟩
  · intro index hi
    rw [radixTreeLookup_spec hh.shape hi, hitems index]
  · intro tag i ht
    have hpresent := hh.tagged.present tag i ht
    rwa [hitems i, Ne, map_item_eq_none] at hpresent
  · intro a k p hat tag off hoff
    exact hh.tagged.bits tag k p a (hat.entry hh.shape) off hoff
  · intro tag
    exact hh.tagged.root tag
  · intro call hcall
    obtain ⟨s', ev, heq, hadmits, -⟩ := step_represents ⟨e, hh, hitems⟩ call hcall
    exact ⟨s', ev, heq, hadmits⟩

/-! ## What the calls return -/

variable (c) in
/-- `radix_tree_tag_set` on an index that is there, `radix_tree_tag_clear` and
`radix_tree_delete` return the address that `radix_tree_lookup` returns. -/
def ReturnsLookup (s : State α β) (index : Nat) (tag : Tag) : Prop :=
  ∃ found, radixTreeLookup c s index = some found ∧
    (found ≠ none → ∃ s', radixTreeTagSet c s index tag = some (s', found)) ∧
    (∃ s', radixTreeTagClear c s index tag = some (s', found)) ∧
    ∃ s', radixTreeDelete c s index = some (s', found)

omit [DecidableEq α] [DecidableEq β] in
/-- A slot contains the address of its item, unless it is the root. -/
theorem slotOf_eq_iff {e : Nat → Nat → Ptr α β} (hs : Shape c s e) (index : Nat) :
    slotOf s e index = e 0 index ↔ ¬ (s.rootHeight = 0 ∧ index = 0 ∧ s.rnode ≠ none) := by
  by_cases hroot : s.rootHeight = 0 ∧ index = 0
  · obtain ⟨hzero, rfl⟩ := hroot
    have hrnode := hs.rnode
    rw [if_pos hzero] at hrnode
    rw [slotOf]
    cases h0 : e 0 0 with
    | none =>
      have hnone : s.rnode = none := by
        rw [hrnode, h0]
        rfl
      simp
    | some t =>
      obtain ⟨x, rfl⟩ := hs.leaf 0 t h0
      have hdirect : s.rnode = some (.direct x) := by
        rw [hrnode, h0]
        rfl
      simp [hdirect]
  · rw [slotOf, if_neg hroot]
    exact ⟨fun _ h => hroot ⟨h.1, h.2.1⟩, fun _ => rfl⟩

/-- In every state that is reached the calls return the address that a lookup
returns, unless the tree is a single item in the root and it is asked for: then
`radix_tree_tag_set` and `radix_tree_tag_clear` return the direct pointer as it is. -/
theorem returnsLookup_iff {s₀ : State α β} {evs : List (Event α β)} (hinit : Initial c s₀)
    (hrun : RunWith (Allowed c) (step c) s₀ evs s) {index : Nat} (hi : index < 2 ^ c.indexBits)
    (tag : Tag) :
    ReturnsLookup c s index tag ↔ ¬ (s.rootHeight = 0 ∧ index = 0 ∧ s.rnode ≠ none) := by
  obtain ⟨e, hh, -⟩ := run_represents hinit hrun
  have hlookup := radixTreeLookup_spec hh.shape hi
  obtain ⟨sc, hclear, -, -⟩ := radixTreeTagClear_spec hh hi tag
  obtain ⟨sd, -, hdelete, -, -⟩ := radixTreeDelete_spec hh hi
  rw [← slotOf_eq_iff hh.shape index]
  constructor
  · rintro ⟨found, hfound, -, ⟨s', hclear'⟩, -⟩
    rw [hlookup] at hfound
    rw [hclear] at hclear'
    exact (Prod.mk.inj (Option.some.inj hclear')).2.trans (Option.some.inj hfound).symm
  · intro hslot
    refine ⟨e 0 index, hlookup, ?_, ⟨sc, ?_⟩, ⟨sd, hdelete⟩⟩
    · intro hpresent
      obtain ⟨ss, hset, -⟩ := radixTreeTagSet_spec hh hi hpresent tag
      exact ⟨ss, by rw [hset, hslot]⟩
    · rw [hclear, hslot]

end

/-- A tree without items. -/
def emptyTree : State Nat Nat where
  live _ := false
  height _ := 0
  count _ := 0
  slots _ _ := none
  tags _ _ _ := false
  rootHeight := 0
  gfpMask := 0
  rnode := none

theorem emptyTree_initial (c : Config) : Initial c emptyTree :=
  ⟨rfl, rfl, by decide, fun _ _ => ⟨fun _ _ => rfl, rfl, fun _ _ _ => rfl⟩⟩

theorem insertZero_run : RunWith (Allowed (.ofBaseSmall false)) (step (.ofBaseSmall false)) emptyTree
    [.insert 0 7 none] { emptyTree with rnode := some (.direct 7) } :=
  .tail (Call.insert 0 7 []) (.refl emptyTree) ⟨by decide, List.nodup_nil, by simp⟩ rfl

/-- A tree of height 2: the two items are found by all calls. -/
theorem returnsLookup_iff_farApart : ∃ s,
    RunWith (Allowed (.ofBaseSmall false)) (step (.ofBaseSmall false)) emptyTree
      [.insert 0 7 none, .insert 100 8 none] s ∧ s.rootHeight = 2 ∧
    ReturnsLookup (.ofBaseSmall false) s 0 1 ∧ ReturnsLookup (.ofBaseSmall false) s 100 0 := by
  have hrun := insertZero_run.tail (Call.insert 100 8 [1, 2, 3])
    (show Allowed (.ofBaseSmall false) _ (.insert 100 8 [1, 2, 3]) from
      ⟨by decide, by decide, by intro a _; rfl⟩) rfl
  refine ⟨_, hrun, rfl, ?_, ?_⟩
  · exact (returnsLookup_iff (emptyTree_initial _) hrun (by decide) 1).mpr fun h =>
      absurd h.1 (by decide)
  · exact (returnsLookup_iff (emptyTree_initial _) hrun (by decide) 0).mpr fun h =>
      absurd h.2.1 (by decide)

/-- One item at index 0.  A lookup finds it; setting and clearing a tag return its
address with the low bit set. -/
theorem returnsLookup_singleItem : ∃ s,
    RunWith (Allowed (.ofBaseSmall false)) (step (.ofBaseSmall false)) emptyTree
      [.insert 0 7 none] s ∧
    radixTreeLookup (.ofBaseSmall false) s 0 = some (some (.item 7)) ∧
    (radixTreeTagSet (.ofBaseSmall false) s 0 0).map Prod.snd = some (some (.direct 7)) ∧
    (radixTreeTagClear (.ofBaseSmall false) s 0 0).map Prod.snd = some (some (.direct 7)) ∧
    (radixTreeDelete (.ofBaseSmall false) s 0).map Prod.snd = some (some (.item 7)) ∧
    ¬ ReturnsLookup (.ofBaseSmall false) s 0 0 := by
  refine ⟨_, insertZero_run, rfl, rfl, rfl, rfl, ?_⟩
  rintro ⟨found, hlookup, hset, -, -⟩
  obtain rfl : some (.item 7) = found := Option.some.inj hlookup
  obtain ⟨s', hset⟩ := hset (by simp)
  cases (Prod.mk.inj (Option.some.inj hset)).2

/-- An item is inserted and tagged; an insertion far away runs out of memory after
the tree has become higher. -/
theorem radix_tree_run_contract_nomem : ∃ s,
    RunWith (Allowed (.ofBaseSmall false)) (step (.ofBaseSmall false)) emptyTree
      [.insert 0 7 none, .tagSet 0 0, .insert 100 8 (some .ENOMEM)] s ∧ s.rootHeight = 2 ∧
    (∀ tag, radixTreeTagged s tag = true ↔ ∃ i, (Map.after (α := Nat) (β := Nat)
      [.insert 0 7 none, .tagSet 0 0, .insert 100 8 (some .ENOMEM)]).tagged tag i) ∧
    radixTreeLookup (.ofBaseSmall false) s 0 = some (some (.item 7)) := by
  have htag := insertZero_run.tail (Call.tagSet 0 0)
    (show Allowed (.ofBaseSmall false) _ (.tagSet 0 0) from ⟨by decide, .item 7, rfl⟩) rfl
  have hrun := htag.tail (Call.insert 100 8 [1, 2])
    (show Allowed (.ofBaseSmall false) _ (.insert 100 8 [1, 2]) from
      ⟨by decide, by decide, by intro a _; rfl⟩) rfl
  have hcontract := radix_tree_run_contract (emptyTree_initial _) hrun
  exact ⟨_, hrun, rfl, hcontract.2.2.2.1, hcontract.1 0 (by decide)⟩

end LinuxKernel.Lib.RadixTree
