/-
  Insertion into and deletion from a radix tree.

  Each loop of lib/radix-tree.c that changes nodes keeps `Holds`, for a table with
  one more or one less entry per round.  An insertion that runs out of memory
  leaves nodes without items behind; they are part of the table like any other.
-/
import LinuxKernel.Lib.RadixTreeTags

namespace LinuxKernel.Lib.RadixTree

open Foundation Function

variable {α β : Type} [DecidableEq α] {c : Config} {s s' : State α β} {e : Nat → Nat → Ptr α β}
  {a n : α} {k index : Nat} {T : Tag → Nat → Prop} {mem : List α} {at_ : Cursor α β}
  {t : Target α β}

/-! ## Changing one entry -/

/-- The memory that the slab may hand out. -/
structure Spare (s : State α β) (mem : List α) : Prop where
  nodup : mem.Nodup
  free : ∀ a ∈ mem, s.live a = false

/-- A node comes from the slab. -/
theorem Holds.alloc (hh : Holds c s e T) (ha : s.live a = false) :
    Holds c { s with live := update s.live a true } e T ∧ ¬ InTable e a ∧
      Zeroed c { s with live := update s.live a true } a :=
  ⟨⟨hh.shape.alloc ha, hh.tagged.congr rfl rfl⟩, hh.shape.not_inTable ha,
    { hh.shape.zeroed a ha with }⟩

theorem Spare.tail (hm : Spare s (a :: mem)) (hlive : s'.live = update s.live a true) :
    Spare s' mem where
  nodup := (List.nodup_cons.mp hm.nodup).2
  free b hb := by
    have hne : b ≠ a := fun heq => (List.nodup_cons.mp hm.nodup).1 (heq ▸ hb)
    rw [hlive, update_of_ne hne]
    exact hm.free b (List.mem_cons_of_mem a hb)

/-- An entry is added to a node. -/
theorem Holds.add (hh : Holds c s e T) (hk : k < s.rootHeight)
    (hn : e (k + 1) (index / c.mapSize ^ (k + 1)) = some (.node n)) (hfresh : Shape.Fresh c s e k t)
    (hnone : e k (index / c.mapSize ^ k) = none) :
    Holds c ((s.setSlot n (index / c.mapSize ^ k % c.mapSize) (some t)).setCount n (s.count n + 1))
      (put e k (index / c.mapSize ^ k) (some t)) T := by
  have hn' := hn
  rw [div_pow_succ] at hn'
  have hbelow : ∀ k' j', k = k' + 1 → j' / c.mapSize = index / c.mapSize ^ k → e k' j' = none := by
    rintro k' j' rfl hj
    refine hh.shape.table.closed k' j' (by omega) ?_
    rw [hj, hnone]
  have hslot := hh.shape.slot_eq hn'
  refine ⟨hh.shape.put_slot hk hn' ?_ hbelow ?_, hh.tagged.put_entry hh.shape (by omega) rfl rfl ?_
    hbelow (by simp)⟩
  · intro u hu
    obtain rfl : t = u := by simpa using hu
    exact hfresh
  · have hupdate := used_update (s.slots n) (some t)
      (Nat.mod_lt (index / c.mapSize ^ k) (mapSize_pos c))
    rw [hslot, hnone, ← (hh.shape.nodeOk hn).count] at hupdate
    simpa using hupdate.symm
  · intro b hb
    obtain rfl : t = .node b := by simpa using hb
    exact hfresh.2.2.2.2.tags

omit [DecidableEq α] in
/-- The tree is empty and gets a root. -/
theorem Holds.add_root (hh : Holds c s e T) (hnone : s.rnode = none)
    (hfresh : Shape.Fresh c s e s.rootHeight t) :
    Holds c { s with rnode := if s.rootHeight = 0 then ptrToDirect (some t) else some t }
      (put e s.rootHeight 0 (some t)) T := by
  refine ⟨hh.shape.put_root hnone hfresh, hh.tagged.put_entry hh.shape (Nat.le_refl _) rfl rfl ?_
    (fun k' j' _ _ => hh.shape.all_none hnone k' j') (by simp)⟩
  intro b hb
  obtain rfl : t = .node b := by simpa using hb
  exact hfresh.2.2.2.2.tags

/-! ## `radix_tree_extend` -/

omit [DecidableEq α] in
theorem extendHeight_spec (hi : index < 2 ^ c.indexBits) (rest height : Nat)
    (hsum : height + rest = c.maxPath) (hpos : 0 < rest) :
    ∃ h, extendHeight c index rest height = some h ∧ height ≤ h ∧ h < c.maxPath ∧
      ¬ index > maxindex c h := by
  induction rest generalizing height with
  | zero => omega
  | succ rest ih =>
    unfold extendHeight
    by_cases hgt : index > maxindex c height
    · rw [if_pos hgt]
      have hrest : 0 < rest := by
        -- the last entry of the table is the largest index there is
        by_contra hzero
        have hheight : height = c.indexBits / c.mapShift + 1 := by
          unfold Config.maxPath at hsum
          omega
        have hfull : c.indexBits ≤ height * c.mapShift := by
          have hdiv := Nat.div_add_mod c.indexBits c.mapShift
          have hmod := Nat.mod_lt c.indexBits c.mapShift_pos
          rw [hheight, Nat.add_mul, Nat.mul_comm]
          omega
        rw [maxindex_lt_iff hi, mapSize_pow] at hgt
        refine hgt (Nat.div_eq_of_lt (Nat.lt_of_lt_of_le hi ?_))
        exact Nat.pow_le_pow_right (by decide) hfull
      obtain ⟨h, heq, hle, hlt, hmax⟩ := ih (height + 1) (by omega) hrest
      exact ⟨h, heq, by omega, hlt, hmax⟩
    · rw [if_neg hgt]
      exact ⟨height, rfl, Nat.le_refl _, by omega, hgt⟩

/-- The items are the same. -/
def SameItems (e e' : Nat → Nat → Ptr α β) : Prop := ∀ i, e' 0 i = e 0 i

theorem extendLoop_spec (rounds : Nat) (s : State α β) (e : Nat → Nat → Ptr α β) (mem : List α)
    (hh : Holds c s e T) (hsome : s.rnode ≠ none) (hlt : s.rootHeight + rounds < c.maxPath)
    (hm : Spare s mem) :
    ∃ s' mem' err e', extendLoop rounds s mem = (s', mem', err) ∧ Holds c s' e' T ∧
      SameItems e e' ∧ Spare s' mem' ∧
      (err = none ∧ s'.rootHeight = s.rootHeight + rounds ∨ err = some .ENOMEM) := by
  induction rounds generalizing s e mem with
  | zero => exact ⟨s, mem, none, e, rfl, hh, fun _ => rfl, hm, .inl ⟨rfl, rfl⟩⟩
  | succ rounds ih =>
    cases mem with
    | nil => exact ⟨s, [], _, e, rfl, hh, fun _ => rfl, hm, .inr rfl⟩
    | cons a mem =>
      obtain ⟨hh1, hout, hzero⟩ := hh.alloc (hm.free a List.mem_cons_self)
      have hx := extendOnce_extended { s with live := update s.live a true } a
      have hs2 := hh1.shape.grow (by change s.rootHeight + 1 < _; omega) hsome (update_self ..) hout
        hzero hx
      have ht2 := hh1.tagged.grow hh1.shape hout hzero hx
      have hm2 := hm.tail hx.live
      obtain ⟨s', mem', err, e', heq, hh', hsame, hm', hres⟩ := ih _ _ mem ⟨hs2, ht2⟩
        (by rw [hx.rnode]; simp) (by rw [hx.rootHeight]; change s.rootHeight + 1 + rounds < _; omega)
        hm2
      refine ⟨s', mem', err, e', heq, hh', hsame, hm', hres.imp_left fun hok => ⟨hok.1, ?_⟩⟩
      rw [hok.2, hx.rootHeight]
      change s.rootHeight + 1 + rounds = _
      omega

/-- `radix_tree_extend` makes the tree high enough, or runs out of memory. -/
theorem radixTreeExtend_spec (hh : Holds c s e T) (hi : index < 2 ^ c.indexBits)
    (hgt : index > maxindex c s.rootHeight) (hm : Spare s mem) :
    ∃ s' mem' err e', radixTreeExtend c s index mem = some (s', mem', err) ∧ Holds c s' e' T ∧
      SameItems e e' ∧ Spare s' mem' ∧
      (err = none ∧ ¬ index > maxindex c s'.rootHeight ∨ err = some .ENOMEM) := by
  have hlt : s.rootHeight + 1 < c.maxPath := by
    by_contra hge
    have hheight := hh.shape.height_lt
    obtain ⟨h, -, hle, hlt, hmax⟩ := extendHeight_spec hi 1 s.rootHeight (by omega) (by omega)
    obtain rfl : h = s.rootHeight := by omega
    exact hmax hgt
  obtain ⟨h, heq, hle, hhlt, hmax⟩ :=
    extendHeight_spec hi (c.maxPath - (s.rootHeight + 1)) (s.rootHeight + 1) (by omega) (by omega)
  unfold radixTreeExtend
  rw [heq]
  cases hr : s.rnode with
  | none =>
    -- an empty tree just gets its height
    have hall := hh.shape.all_none hr
    refine ⟨_, mem, none, e, rfl, ⟨⟨hhlt, .of_none _ _ hall, ?_, hh.shape.leaf, ?_, hh.shape.inj, ?_⟩,
      hh.tagged.congr rfl rfl⟩, fun _ => rfl, ⟨hm.nodup, hm.free⟩, .inl ⟨rfl, hmax⟩⟩
    · change none = if h = 0 then ptrToDirect (e 0 0) else e h 0
      rw [if_neg (by omega), hall]
    · intro k p t ht
      rw [hall] at ht
      cases ht
    · exact fun b hb => { hh.shape.zeroed b hb with }
  | some t =>
    obtain ⟨s', mem', err, e', hloop, hh', hsame, hm', hres⟩ :=
      extendLoop_spec (h - s.rootHeight) s e mem hh (by rw [hr]; simp) (by omega) hm
    refine ⟨s', mem', err, e', by simp [hloop], hh', hsame, hm', hres.imp_left fun hok => ⟨hok.1, ?_⟩⟩
    rw [hok.2, show s.rootHeight + (h - s.rootHeight) = h by omega]
    exact hmax

/-! ## `radix_tree_insert` -/

/-- The descent has arrived at level `k` on the way to `index`. -/
structure Arrived (c : Config) (s : State α β) (e : Nat → Nat → Ptr α β) (index k : Nat)
    (at_ : Cursor α β) : Prop where
  slot : at_.slot = e k (index / c.mapSize ^ k)
  root : k = s.rootHeight → at_.node = none
  node : k < s.rootHeight → ∃ n, at_.node = some n ∧
    e (k + 1) (index / c.mapSize ^ (k + 1)) = some (.node n) ∧
    at_.offset = index / c.mapSize ^ k % c.mapSize

/-- A child node is added where one is missing. -/
theorem addChild_spec (hh : Holds c s e T) (hdiv : index / c.mapSize ^ s.rootHeight = 0)
    (hat : Arrived c s e index (k + 1) at_) (hk : k + 1 ≤ s.rootHeight) (hnone : at_.slot = none)
    (hlive : s.live a = true) (hout : ¬ InTable e a) (hzero : Zeroed c s a) :
    Holds c (addChild s (k + 1) at_ a)
      (put e (k + 1) (index / c.mapSize ^ (k + 1)) (some (.node a))) T ∧
    (addChild s (k + 1) at_ a).rootHeight = s.rootHeight ∧
    (addChild s (k + 1) at_ a).live = s.live := by
  have hh1 : Holds c (s.setHeight a (k + 1)) e T :=
    ⟨hh.shape.setHeight hout _, hh.tagged.congr rfl rfl⟩
  have hfresh : Shape.Fresh c (s.setHeight a (k + 1)) e (k + 1) (.node a) :=
    ⟨hout, hlive, update_self .., by omega, { hzero with }⟩
  rw [hat.slot] at hnone
  unfold addChild
  by_cases htop : k + 1 = s.rootHeight
  · rw [hat.root htop]
    have hrnode : (s.setHeight a (k + 1)).rnode = none := by
      change s.rnode = none
      rw [hh.shape.root_eq (by omega), ← htop]
      rw [htop, hdiv, ← htop] at hnone
      exact hnone
    have hadd := hh1.add_root hrnode (by
      change Shape.Fresh c (s.setHeight a (k + 1)) e s.rootHeight (.node a)
      rw [← htop]
      exact hfresh)
    have hpos : ¬ (s.setHeight a (k + 1)).rootHeight = 0 := by
      change ¬ s.rootHeight = 0
      omega
    have hplace : put e (k + 1) (index / c.mapSize ^ (k + 1)) (some (Target.node a)) =
        put e s.rootHeight 0 (some (.node a)) := by rw [htop, hdiv]
    rw [if_neg hpos] at hadd
    rw [hplace]
    exact ⟨hadd, rfl, rfl⟩
  · obtain ⟨n, hnode, hn, hoff⟩ := hat.node (by omega)
    rw [hnode, hoff]
    exact ⟨hh1.add (by change k + 1 < s.rootHeight; omega) hn hfresh hnone, rfl, rfl⟩

/-- The loop of `radix_tree_insert` arrives at the place of `index`, or runs out of
memory. -/
theorem insertLoop_spec (k : Nat) (s : State α β) (e : Nat → Nat → Ptr α β) (mem : List α)
    (at_ : Cursor α β) (hh : Holds c s e T) (hdiv : index / c.mapSize ^ s.rootHeight = 0)
    (hm : Spare s mem) (hk : k ≤ s.rootHeight) (hat : Arrived c s e index k at_) :
    ∃ s' res e', insertLoop c index k ((k - 1) * c.mapShift) s mem at_ = some (s', res) ∧
      Holds c s' e' T ∧ SameItems e e' ∧ s'.rootHeight = s.rootHeight ∧
      (res = .error .ENOMEM ∨ ∃ at', res = .ok at' ∧ Arrived c s' e' index 0 at') := by
  induction k generalizing s e mem at_ with
  | zero => exact ⟨s, _, e, rfl, hh, fun _ => rfl, rfl, .inr ⟨at_, rfl, hat⟩⟩
  | succ k ih =>
    have hoff := slotOffset_eq c index k
    cases hslot : at_.slot with
    | none =>
      cases mem with
      | nil =>
        refine ⟨s, _, e, ?_, hh, fun _ => rfl, rfl, .inl rfl⟩
        unfold insertLoop
        rw [hslot]
        rfl
      | cons a mem =>
        obtain ⟨hh1, hout, hzero⟩ := hh.alloc (hm.free a List.mem_cons_self)
        obtain ⟨hh2, hroot2, hlive2⟩ := addChild_spec hh1 hdiv
          ⟨hat.slot, hat.root, hat.node⟩ hk hslot (update_self ..) hout hzero
        have hnew := put_self e (k + 1) (index / c.mapSize ^ (k + 1)) (some (Target.node a))
        obtain ⟨s', res, e', heq, hh', hsame, hroot', hres⟩ := ih _ _ mem
          ⟨some a, slotOffset c index (k * c.mapShift), _⟩ hh2 (by rw [hroot2]; exact hdiv) (hm.tail hlive2)
          (by rw [hroot2]; change k ≤ s.rootHeight; omega)
          ⟨hh2.shape.next_slot hnew, fun heq => by
              rw [hroot2] at heq
              change k = s.rootHeight at heq
              omega,
            fun _ => ⟨a, rfl, hnew, hoff⟩⟩
        refine ⟨s', res, e', ?_, hh', hsame, hroot'.trans hroot2, hres⟩
        rw [← heq]
        conv => lhs; unfold insertLoop
        simp [hslot, State.nodeAlloc, ← Nat.sub_one_mul]
    | some t =>
      rw [hat.slot] at hslot
      obtain ⟨a, rfl, hok⟩ := hh.shape.inner k _ t hslot
      obtain ⟨s', res, e', heq, hh', hsame, hroot', hres⟩ := ih s e mem
        ⟨some a, slotOffset c index (k * c.mapShift), _⟩ hh hdiv hm (by omega)
        ⟨hh.shape.next_slot hslot, fun heq => by omega, fun _ => ⟨a, rfl, hslot, hoff⟩⟩
      refine ⟨s', res, e', ?_, hh', hsame, hroot', hres⟩
      rw [← heq]
      conv => lhs; unfold insertLoop
      simp [hat.slot, hslot, hok.live, ← Nat.sub_one_mul]

/-- The ways `radix_tree_insert` ends. -/
inductive Inserted (e e' : Nat → Nat → Ptr α β) (index : Nat) (item : β) : Option Errno → Prop
  | ok : e 0 index = none →
      (∀ i, e' 0 i = if i = index then some (.item item) else e 0 i) → Inserted e e' index item none
  | exists_ : e 0 index ≠ none → SameItems e e' → Inserted e e' index item (some .EEXIST)
  | nomem : SameItems e e' → Inserted e e' index item (some .ENOMEM)

/-- A tree with the item, or a reason why it has not got it. -/
abbrev Inserts (c : Config) (e : Nat → Nat → Ptr α β) (T : Tag → Nat → Prop) (index : Nat) (item : β)
    (out : Option (State α β × Option Errno)) : Prop :=
  ∃ s' err e', out = some (s', err) ∧ Holds c s' e' T ∧ Inserted e e' index item err

omit [DecidableEq α] in
theorem Inserts.congr {e e1 : Nat → Nat → Ptr α β} {item : β}
    {out : Option (State α β × Option Errno)} (h : Inserts c e1 T index item out)
    (hsame : SameItems e e1) : Inserts c e T index item out := by
  obtain ⟨s', err, e', hout, hh, hins⟩ := h
  refine ⟨s', err, e', hout, hh, ?_⟩
  cases hins with
  | ok hnone hitems =>
    refine .ok ((hsame index).symm.trans hnone) fun i => ?_
    rw [hitems i, hsame i]
  | exists_ hne hitems =>
    exact .exists_ (fun h => hne ((hsame index).trans h)) fun i => (hitems i).trans (hsame i)
  | nomem hitems => exact .nomem fun i => (hitems i).trans (hsame i)

/-- The item is put into its place. -/
theorem insertItem_spec (hh : Holds c s e T) (hat : s.rootHeight ≠ 0 → Arrived c s e index 0 at_)
    (hroot : s.rootHeight = 0 → index = 0 ∧ at_ = ⟨none, 0, s.rnode⟩) (item : β) :
    Inserts c e T index item (insertItem s at_ item) := by
  have hitems (i) : put e 0 index (some (Target.item item)) 0 i =
        if i = index then some (.item item) else e 0 i := by simp [put]
  unfold insertItem
  by_cases hzero : s.rootHeight = 0
  · obtain ⟨rfl, rfl⟩ := hroot hzero
    cases hr : s.rnode with
    | some t =>
      refine ⟨s, _, e, rfl, hh, .exists_ ?_ fun _ => rfl⟩
      intro hnone
      have hrnode := hh.shape.rnode
      rw [hr, if_pos hzero, hnone] at hrnode
      cases hrnode
    | none =>
      have hall := hh.shape.all_none hr
      have hadd := hh.add_root hr (t := .item item) hzero
      have hplace : put e s.rootHeight 0 (some (Target.item item)) =
          put e 0 0 (some (.item item)) := by rw [hzero]
      rw [if_pos hzero, hplace] at hadd
      have hnot (tag) : s.rootTagGet tag = false := by
        refine Bool.eq_false_iff.mpr fun htrue => ?_
        obtain ⟨i, hi⟩ := (hh.tagged.root tag).mp htrue
        exact hh.tagged.present tag i hi (hall 0 i)
      have hcond : ¬ (s.rootTagGet 0 || s.rootTagGet 1) = true := by simp [hnot]
      have hput : insertIntoRoot s item =
          some { s with rnode := ptrToDirect (some (.item item)) } := if_neg hcond
      exact ⟨_, none, _, congrArg (Option.map fun s => (s, none)) hput, hadd, .ok (hall 0 0) hitems⟩
  · have hat := hat hzero
    have hslot := hat.slot
    rw [div_pow_zero] at hslot
    obtain ⟨n, hnode, hn, hoff⟩ := hat.node (by omega)
    cases hcur : at_.slot with
    | some t =>
      refine ⟨s, _, e, rfl, hh, .exists_ ?_ fun _ => rfl⟩
      rw [← hslot, hcur]
      simp
    | none =>
      rw [hcur] at hslot
      have hnone : e 0 (index / c.mapSize ^ 0) = none := by rw [div_pow_zero, ← hslot]
      have hadd := hh.add (t := .item item) (by omega : 0 < s.rootHeight) hn rfl hnone
      rw [div_pow_zero] at hadd hoff
      have hnot : ∀ tag, s.tags n tag (index % c.mapSize) = false := by
        refine hh.tagged.tags_of_none hh.shape hn (Nat.mod_lt _ (mapSize_pos c)) ?_
        have hplace := slot_of_index c index 0
        rw [div_pow_zero] at hplace
        rw [hplace, ← hslot]
      have hcond : ¬ (s.tags n 0 (index % c.mapSize) || s.tags n 1 (index % c.mapSize)) = true := by
        simp [hnot]
      have hput : insertIntoNode s n (index % c.mapSize) item =
          some ((s.setSlot n (index % c.mapSize) (some (.item item))).setCount n (s.count n + 1)) :=
        if_neg hcond
      refine ⟨_, none, _, ?_, hadd, .ok hslot.symm hitems⟩
      rw [hnode, hoff]
      exact congrArg (Option.map fun s => (s, none)) hput

theorem insertBelow_spec (hh : Holds c s e T) (hdiv : index / c.mapSize ^ s.rootHeight = 0)
    (hm : Spare s mem) (item : β) :
    Inserts c e T index item (insertBelow c s index item mem) := by
  unfold insertBelow
  by_cases hzero : s.rootHeight = 0
  · have hindex : index = 0 := by rwa [hzero, div_pow_zero] at hdiv
    rw [hzero]
    exact insertItem_spec hh (absurd hzero) (fun _ => ⟨hindex, rfl⟩) item
  have hat : Arrived c s e index s.rootHeight ⟨none, 0, s.rnode⟩ := by
    refine ⟨?_, fun _ => rfl, fun hlt => absurd hlt (Nat.lt_irrefl _)⟩
    rw [hdiv]
    exact hh.shape.root_eq hzero
  obtain ⟨s1, res, e1, heq, hh1, hsame, hroot, hres⟩ :=
    insertLoop_spec s.rootHeight s e mem _ hh hdiv hm (Nat.le_refl _) hat
  rw [heq]
  rcases hres with rfl | ⟨at', rfl, hat'⟩
  · exact ⟨s1, _, e1, rfl, hh1, .nomem hsame⟩
  · exact (insertItem_spec hh1 (fun _ => hat') (fun hz => absurd (hroot.symm.trans hz) hzero)
      item).congr hsame

/-- `radix_tree_insert` -/
theorem radixTreeInsert_spec (hh : Holds c s e T) (hi : index < 2 ^ c.indexBits)
    (hm : Spare s mem) (item : β) :
    Inserts c e T index item (radixTreeInsert c s index item mem) := by
  unfold radixTreeInsert
  by_cases hgt : index > maxindex c s.rootHeight
  · obtain ⟨s1, mem1, err, e1, hext, hh1, hsame, hm1, hres⟩ := radixTreeExtend_spec hh hi hgt hm
    rw [if_pos hgt, hext]
    rcases hres with ⟨rfl, hle⟩ | rfl
    · exact (insertBelow_spec hh1 (div_eq_zero_of_le hi hle) hm1 item).congr hsame
    · exact ⟨s1, _, e1, rfl, hh1, .nomem hsame⟩
  · rw [if_neg hgt]
    exact insertBelow_spec hh (div_eq_zero_of_le hi hgt) hm item

/-! ## `radix_tree_shrink` -/

omit [DecidableEq α] in
/-- A node with nothing in its slots may go back to the slab. -/
theorem Holds.zeroed_of_empty (hh : Holds c s e T) {p : Nat} (ha : e (k + 1) p = some (.node a))
    (hnone : ∀ off < c.mapSize, e k (p * c.mapSize + off) = none) : Zeroed c s a := by
  have hok := hh.shape.nodeOk ha
  have hslots (off) (hoff : off < c.mapSize) : s.slots a off = none := by
    rw [hok.slots off hoff, hnone off hoff]
  refine ⟨hslots, ?_, ?_⟩
  · rw [hok.count]
    exact used_eq_zero.mpr hslots
  · intro tag off hoff
    exact hh.tagged.tags_of_none hh.shape ha hoff (hnone off hoff) tag

theorem shrinkLoop_spec (h : Nat) (s : State α β) (e : Nat → Nat → Ptr α β) (hh : Holds c s e T)
    (hheight : s.rootHeight = h) (hsome : s.rnode ≠ none) :
    ∃ s' e', shrinkLoop h s = some s' ∧ Holds c s' e' T ∧ SameItems e e' := by
  induction h generalizing s e with
  | zero => exact ⟨s, e, rfl, hh, fun _ => rfl⟩
  | succ h ih =>
    have hrnode := hh.shape.root_eq (by omega)
    rw [hheight] at hrnode
    obtain ⟨a, ha⟩ := hh.shape.exists_node (hrnode ▸ hsome)
    have hok := hh.shape.nodeOk ha
    unfold shrinkLoop
    rw [hrnode, ha]
    simp only [hok.live]
    by_cases hcond : s.count a = 1 ∧ (s.slots a 0).isSome = true
    · rw [if_pos hcond]
      obtain ⟨hcount, hslot⟩ := hcond
      have hslot := Option.isSome_iff_ne_none.mp hslot
      have hx := shrinkOnce_shrunk s a
      have honly := used_eq_one (hok.count.symm.trans hcount) (mapSize_pos c) hslot
      have htags (tag off) (hoff : off < c.mapSize) (hne : off ≠ 0) : s.tags a tag off = false := by
        refine hh.tagged.tags_of_none hh.shape ha hoff ?_ tag
        rw [← hok.slots off hoff, honly off hoff hne]
      have hs1 := hh.shape.shrink hheight ha hcount hslot htags hx
      have ht1 := hh.tagged.shrink hh.shape ha hx
      obtain ⟨s', e', heq, hh', hsame⟩ := ih _ _ ⟨hs1, ht1⟩
        (by rw [hx.rootHeight, hheight]; rfl) (by
          rw [hx.rnode]
          obtain ⟨t, ht⟩ := Option.ne_none_iff_exists'.mp hslot
          rw [ht]
          split
          · cases t <;> simp [ptrToDirect]
          · simp)
      exact ⟨s', e', heq, hh', hsame⟩
    · rw [if_neg hcond]
      exact ⟨s, e, rfl, hh, fun _ => rfl⟩

/-! ## `radix_tree_delete` -/

omit [DecidableEq α] in
/-- A path depends on the levels above it only. -/
theorem OnPath.congr {e' : Nat → Nat → Ptr α β} {h : Nat} {path : List (α × Nat)} {k : Nat}
    (hp : OnPath c e index h k path) (hsame : ∀ l, k < l → e' l = e l) :
    OnPath c e' index h k path := by
  induction path generalizing k with
  | nil => exact hp
  | cons entry path ih =>
    obtain ⟨hk, ha, hoff, hp⟩ := hp
    refine ⟨hk, ?_, hoff, ih hp fun l hl => hsame l (by omega)⟩
    rw [hsame _ (by omega)]
    exact ha

/-- The entry on the way to `index` that `radix_tree_delete` takes out next: the
item, or a node with nothing in it. -/
def Doomed (c : Config) (e : Nat → Nat → Ptr α β) (index : Nat) : Nat → Option α → Prop
  | 0, toFree => toFree = none ∧ e 0 index ≠ none
  | k + 1, toFree => ∃ a, toFree = some a ∧
      e (k + 1) (index / c.mapSize ^ (k + 1)) = some (.node a) ∧
      ∀ off < c.mapSize, e k (index / c.mapSize ^ (k + 1) * c.mapSize + off) = none

/-- The items but that of `index`. -/
def Without (e e' : Nat → Nat → Ptr α β) (index : Nat) : Prop :=
  ∀ i, e' 0 i = if i = index then none else e 0 i

/-- One entry is taken out, and its memory freed. -/
theorem remove_spec (hh : Holds c s e T) (hk : k < s.rootHeight)
    (hn : e (k + 1) (index / c.mapSize ^ (k + 1)) = some (.node n)) {toFree : Option α}
    (hdoomed : Doomed c e index k toFree) (hT : ∀ tag, ¬ T tag index) :
    Holds c (freeIf ((s.setSlot n (index / c.mapSize ^ k % c.mapSize) none).setCount n
      (s.count n - 1)) toFree) (put e k (index / c.mapSize ^ k) none) T := by
  have hn' := hn
  rw [div_pow_succ] at hn'
  have hbelow : ∀ k' j', k = k' + 1 → j' / c.mapSize = index / c.mapSize ^ k → e k' j' = none := by
    rintro k' j' rfl hj
    obtain ⟨a, -, -, hnone⟩ := hdoomed
    have hj' := hnone (j' % c.mapSize) (Nat.mod_lt _ (mapSize_pos c))
    rwa [← hj, Nat.div_add_mod'] at hj'
  have hsome : e k (index / c.mapSize ^ k) ≠ none := by
    cases k with
    | zero =>
      rw [div_pow_zero]
      exact hdoomed.2
    | succ k =>
      obtain ⟨a, -, ha, -⟩ := hdoomed
      rw [ha]
      simp
  have hcount : s.count n - 1 = used c.mapSize
      (update (s.slots n) (index / c.mapSize ^ k % c.mapSize) none) := by
    have hupdate := used_update (s.slots n) none
      (Nat.mod_lt (index / c.mapSize ^ k) (mapSize_pos c))
    rw [hh.shape.slot_eq hn', ← (hh.shape.nodeOk hn).count,
      if_pos (Option.isSome_iff_ne_none.mpr hsome)] at hupdate
    simp only [Option.isSome_none, Bool.false_eq_true, if_false] at hupdate
    omega
  have hs1 := hh.shape.put_slot hk hn' (by simp) hbelow hcount
  have ht1 : Tagged c ((s.setSlot n (index / c.mapSize ^ k % c.mapSize) none).setCount n
      (s.count n - 1)) (put e k (index / c.mapSize ^ k) none) T := by
    refine hh.tagged.put_entry hh.shape (by omega) rfl rfl (by simp) hbelow ?_
    rintro rfl - tag
    rw [div_pow_zero]
    exact hT tag
  cases k with
  | zero =>
    rw [hdoomed.1]
    exact ⟨hs1, ht1⟩
  | succ k =>
    obtain ⟨a, rfl, ha, hnone⟩ := hdoomed
    have hzero := hh.zeroed_of_empty ha hnone
    have han : a ≠ n := by
      rintro rfl
      have := (hh.shape.inj _ _ _ _ a ha hn).1
      omega
    refine ⟨hs1.free ?_ ⟨?_, ?_, hzero.tags⟩, ht1.congr rfl rfl⟩
    · rintro ⟨l, p, hl⟩
      obtain ⟨-, -, ⟨⟩⟩ | ⟨hself, hl⟩ := put_eq_some hl
      exact hself (hh.shape.inj _ _ _ _ a hl ha)
    · intro off hoff
      rw [Shape.slots_setSlot, if_neg han, hzero.slots off hoff]
    · rw [Shape.count_setSlot, if_neg han, hzero.count]

/-- The root node has nothing in it any more. -/
theorem removeRoot_spec (hh : Holds c s e T) {h : Nat} (hheight : s.rootHeight = h + 1)
    (ha : e (h + 1) 0 = some (.node a)) (hnone : ∀ off < c.mapSize, e h off = none) :
    Holds c (freeIf (s.rootTagClearAll.setRoot 0 none) (some a)) (fun _ _ => none) T ∧
      ∀ i, e 0 i = none := by
  have htable := hh.shape.table
  rw [hheight] at htable
  have hall := htable.clear_root (mapSize_pos c) hnone
  have hitems (i) : e 0 i = none := hall 0 i (by omega)
  have hzero : Zeroed c s a := by
    refine hh.zeroed_of_empty ha fun off hoff => ?_
    rw [Nat.zero_mul, Nat.zero_add]
    exact hnone off hoff
  have hT (tag i) : ¬ T tag i := fun hi => hh.tagged.present tag i hi (hitems i)
  refine ⟨.of_empty (Nat.succ_pos _) rfl (rootTagGet_rootTagClearAll s) (fun b hb => ?_) hT, hitems⟩
  by_cases hba : b = a
  · rw [hba]
    exact { hzero with }
  · have hb' : s.live b = false := (update_of_ne hba ..).symm.trans hb
    exact { hh.shape.zeroed b hb' with }

theorem freeIf_root (s : State α β) (toFree : Option α) :
    (freeIf s toFree).rootHeight = s.rootHeight := by
  cases toFree <;> rfl

/-- The last loop of `radix_tree_delete`, from level `k` on. -/
theorem deleteLoop_spec [DecidableEq β] (index : Nat) (hT : ∀ tag, ¬ T tag index)
    (path : List (α × Nat)) (k : Nat) (s : State α β) (e : Nat → Nat → Ptr α β) (toFree : Option α)
    (hh : Holds c s e T) (hpos : s.rootHeight ≠ 0) (hdiv : index / c.mapSize ^ s.rootHeight = 0)
    (hpath : OnPath c e index s.rootHeight k path) (hdoomed : Doomed c e index k toFree) :
    ∃ s' e', deleteLoop path toFree s = some s' ∧ Holds c s' e' T ∧ Without e e' index := by
  induction path generalizing k s e toFree with
  | nil =>
    obtain rfl : k = s.rootHeight := hpath
    obtain ⟨h, hheight⟩ := Nat.exists_eq_succ_of_ne_zero hpos
    rw [hheight] at hdoomed hdiv
    obtain ⟨a, rfl, ha, hnone⟩ := hdoomed
    simp only [hdiv, Nat.zero_mul, Nat.zero_add] at ha hnone
    obtain ⟨hh', hitems⟩ := removeRoot_spec hh hheight ha hnone
    refine ⟨_, _, rfl, hh', ?_⟩
    intro i
    rw [hitems i]
    split <;> rfl
  | cons entry path ih =>
    obtain ⟨n, off⟩ := entry
    obtain ⟨hk, hn, rfl, hpath⟩ := hpath
    have hh1 := remove_spec hh hk hn hdoomed hT
    have hwithout : Without e (put e k (index / c.mapSize ^ k) none) index := by
      intro i
      cases k with
      | zero => simp [put]
      | succ k =>
        rw [put_of_level_ne _ _ _ (by omega)]
        by_cases hi : i = index
        · obtain ⟨a, -, -, hnone⟩ := hdoomed
          rw [if_pos hi, hi]
          refine hh.shape.table.none_below (by omega : k ≤ s.rootHeight) index ?_
          rw [← slot_of_index c index k]
          exact hnone _ (Nat.mod_lt _ (mapSize_pos c))
        · rw [if_neg hi]
    have hroot := freeIf_root ((s.setSlot n (index / c.mapSize ^ k % c.mapSize)
      none).setCount n (s.count n - 1)) toFree
    have hn1 : put e k (index / c.mapSize ^ k) none (k + 1) (index / c.mapSize ^ (k + 1)) =
        some (.node n) := by rw [put_of_level_ne _ _ _ (by omega), hn]
    unfold deleteLoop
    simp only
    split
    · split
      · -- `n` is the root and still in use
        rename_i hrn
        obtain ⟨s', e', heq, hh', hsame⟩ := shrinkLoop_spec _ _ _ hh1 rfl (by rw [hrn]; simp)
        exact ⟨s', e', heq, hh', fun i => (hsame i).trans (hwithout i)⟩
      · exact ⟨_, _, rfl, hh1, hwithout⟩
    · -- nothing is left in `n`
      rename_i hcount
      have hok := hh1.shape.nodeOk hn1
      have hempty := used_eq_zero.mp (hok.count.symm.trans (not_not.mp hcount))
      obtain ⟨s', e', heq, hh', hwithout'⟩ := ih (k + 1) _ _ (some n) hh1 (hroot ▸ hpos)
        (hroot ▸ hdiv) (hroot ▸ hpath.congr fun l hl => by
          funext j
          exact put_of_level_ne _ _ _ (by omega))
        ⟨n, rfl, hn1, fun off hoff => by rw [← hok.slots off hoff, hempty off hoff]⟩
      refine ⟨s', e', heq, hh', ?_⟩
      intro i
      rw [hwithout' i, hwithout i]
      split <;> rfl

/-- The tags of a deleted item are cleared. -/
theorem clearIf_spec (hh : Holds c s e T) (hi : index < 2 ^ c.indexBits)
    (hn : e 1 (index / c.mapSize ^ 1) = some (.node n)) (tag : Tag) :
    ∃ s', clearIf c s index n (index / c.mapSize ^ 0 % c.mapSize) tag = some s' ∧ Retagged s s' ∧
      Holds c s' e (untag T tag index) := by
  unfold clearIf State.tagGet
  by_cases hbit : s.tags n tag (index / c.mapSize ^ 0 % c.mapSize) = true
  · rw [if_pos hbit]
    obtain ⟨s', heq, hre, hh'⟩ := radixTreeTagClear_spec hh hi tag
    rw [heq]
    exact ⟨s', rfl, hre, hh'⟩
  · rw [if_neg hbit]
    refine ⟨s, rfl, .refl s, hh.shape, hh.tagged.untag_of_not fun hti => hbit ?_⟩
    refine (hh.tagged.bits tag 0 _ n hn _ (Nat.mod_lt _ (mapSize_pos c))).mpr ⟨index, hti, ?_⟩
    exact (slot_of_index c index 0).symm

omit [DecidableEq α] in
/-- The item of a tree of height 0 is taken out. -/
theorem removeDirect_spec (hh : Holds c s e T) (hzero : s.rootHeight = 0) :
    Holds c { s.rootTagClearAll with rnode := none } (fun _ _ => none)
      (fun t i => T t i ∧ i ≠ 0) ∧ Without e (fun _ _ => none) 0 := by
  have hothers (i) (hne : i ≠ 0) : e 0 i = none := hh.shape.table.top 0 i (by omega) (by omega)
  have hT (t i) : ¬ (T t i ∧ i ≠ 0) := fun h => hh.tagged.present t i h.1 (hothers i h.2)
  refine ⟨.of_empty hh.shape.height_lt rfl (rootTagGet_rootTagClearAll s)
    (fun b hb => { hh.shape.zeroed b hb with }) hT, fun i => ?_⟩
  by_cases hi : i = 0
  · rw [if_pos hi]
  · rw [if_neg hi, hothers i hi]

/-- `radix_tree_delete` -/
theorem radixTreeDelete_spec [DecidableEq β] (hh : Holds c s e T) (hi : index < 2 ^ c.indexBits) :
    ∃ s' e', radixTreeDelete c s index = some (s', e 0 index) ∧
      Holds c s' e' (fun t i => T t i ∧ i ≠ index) ∧ Without e e' index := by
  have hskip (hnone : e 0 index = none) : Holds c s e (fun t i => T t i ∧ i ≠ index) ∧
      Without e e index := by
    have heq : (fun t i => T t i ∧ i ≠ index) = T := by
      funext t i
      refine propext ⟨fun h => h.1, fun h => ⟨h, ?_⟩⟩
      rintro rfl
      exact hh.tagged.present t i h hnone
    rw [heq]
    refine ⟨hh, fun i => ?_⟩
    by_cases hii : i = index
    · rw [if_pos hii, hii, hnone]
    · rw [if_neg hii]
  unfold radixTreeDelete
  by_cases hgt : index > maxindex c s.rootHeight
  · rw [if_pos hgt]
    have hnone := hh.shape.none_of_gt hi hgt
    rw [hnone]
    exact ⟨s, e, rfl, hskip hnone⟩
  rw [if_neg hgt]
  have hdiv := div_eq_zero_of_le hi hgt
  by_cases hdirect : s.rootHeight = 0 ∧ s.rnode.isSome = true
  · -- the only item is in the root
    rw [if_pos hdirect]
    obtain ⟨hzero, -⟩ := hdirect
    have hindex : index = 0 := by rwa [hzero, div_pow_zero] at hdiv
    subst hindex
    have hfound : directToPtr s.rnode = e 0 0 := by rw [hh.shape.directToPtr_rnode, hzero]
    obtain ⟨hh', hwithout⟩ := removeDirect_spec hh hzero
    exact ⟨{ s.rootTagClearAll with rnode := none }, _, by rw [hfound], hh', hwithout⟩
  rw [if_neg hdirect]
  by_cases hzero : s.rootHeight = 0
  · have hr : s.rnode = none := by
      by_contra hne
      exact hdirect ⟨hzero, Option.isSome_iff_ne_none.mpr hne⟩
    have hnone := hh.shape.all_none hr 0 index
    rw [hzero, hr, hnone]
    exact ⟨s, e, rfl, hskip hnone⟩
  have hdesc := descend_spec hh.shape index s.rootHeight [] (Nat.le_refl _) rfl
  rw [hdiv, ← hh.shape.root_eq hzero] at hdesc
  rcases hdesc with ⟨hdesc, hnone⟩ | ⟨path, hpath, hdesc⟩
  · rw [hdesc, hnone]
    exact ⟨s, e, rfl, hskip hnone⟩
  rw [hdesc]
  cases path with
  | nil => exact absurd hpath.symm hzero
  | cons entry path =>
    obtain ⟨n, off⟩ := entry
    cases h0 : e 0 index with
    | none => exact ⟨s, e, rfl, hskip h0⟩
    | some t =>
      obtain ⟨hk, hn, rfl, hrest⟩ := hpath
      obtain ⟨s1, hclear1, hre1, hh1⟩ := clearIf_spec hh hi hn 0
      obtain ⟨s2, hclear2, hre2, hh2⟩ := clearIf_spec hh1 hi hn 1
      have hT : (fun t i => T t i ∧ i ≠ index) = untag (untag T 0 index) 1 index := by
        funext t i
        rcases tag_cases t with rfl | rfl <;> simp [untag]
      rw [← hT] at hh2
      have hroot : s2.rootHeight = s.rootHeight := hre2.rootHeight.trans hre1.rootHeight
      obtain ⟨s', e', hloop, hh', hwithout⟩ := deleteLoop_spec index
        (fun tag h => h.2 rfl) ((n, index / c.mapSize ^ 0 % c.mapSize) :: path) 0 s2 e none hh2
        (hroot ▸ hzero) (hroot ▸ hdiv) (hroot ▸ ⟨hk, hn, rfl, hrest⟩) ⟨rfl, by rw [h0]; simp⟩
      refine ⟨s', e', ?_, hh', hwithout⟩
      simp only [Option.bind_eq_bind, Option.bind_some, hclear1, hclear2, hloop]

end LinuxKernel.Lib.RadixTree
