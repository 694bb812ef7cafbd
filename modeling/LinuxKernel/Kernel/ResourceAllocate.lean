/-
  What `allocate_resource` finds.

  Source: kernel/resource.c, `find_resource`, `allocate_resource`.

  The gaps between the children are tried in order.  Two things keep the search from
  finding the least place: a gap in which only one address is left is passed over
  (`new->start < new->end`), and an aligned start may wrap around to 0.
-/
import LinuxKernel.Foundation.Gaps
import LinuxKernel.Kernel.ResourceAdjust

namespace LinuxKernel.Kernel.Resource

open BitVec Foundation Function List Heap

variable {α : Type} {bits : Nat} {l : List α} {x : BitVec bits}

/-! ## `ALIGN` -/

theorem toNat_one (hx : 0 < x.toNat) : (1 : BitVec bits).toNat = 1 := by
  show 1 % 2 ^ bits = 1
  exact Nat.mod_eq_of_lt (by omega)

theorem toNat_sub_one (hx : 0 < x.toNat) : (x - 1).toNat = x.toNat - 1 := by
  have hone := toNat_one hx
  rw [toNat_sub_of_le (by rw [le_def]; omega), hone]

theorem toNat_and_not_mask {k : Nat} {v : BitVec bits} (hv : v.toNat = 2 ^ k - 1) (x : BitVec bits) :
    (x &&& ~~~v).toNat = x.toNat / 2 ^ k * 2 ^ k := by
  refine Nat.eq_of_testBit_eq fun i => ?_
  rw [Nat.testBit_mul_two_pow, testBit_toNat, getLsbD_and, getLsbD_not, Nat.testBit_div_two_pow]
  have hbit : v.getLsbD i = decide (i < k) := by
    rw [← testBit_toNat, hv, Nat.testBit_two_pow_sub_one]
  rw [hbit]
  by_cases hi : i < k
  · simp [hi]
  have hik : k ≤ i := by omega
  rw [show i - k + k = i by omega, testBit_toNat]
  by_cases hb : i < bits
  · simp [hik, hb]
  · simp [getLsbD_of_ge x i (by omega)]

/-- `ALIGN` rounds up, modulo the size of the type. -/
theorem align_toNat {k : Nat} {a : BitVec bits} (ha : a.toNat = 2 ^ k) (x : BitVec bits) :
    (align x a).toNat = alignUp a.toNat x.toNat % 2 ^ bits := by
  have hlt : 2 ^ k < 2 ^ bits := by
    rw [← ha]
    exact a.isLt
  have hk : k < bits := (Nat.pow_lt_pow_iff_right (by omega)).mp hlt
  have hpos : 0 < 2 ^ k := Nat.two_pow_pos k
  have hmask : (a - 1).toNat = 2 ^ k - 1 := by rw [toNat_sub_one (by omega), ha]
  have hdvd : 2 ^ k ∣ 2 ^ bits := Nat.pow_dvd_pow 2 (by omega)
  unfold align alignUp
  rw [toNat_and_not_mask hmask, BitVec.toNat_add, hmask, ha]
  generalize x.toNat + (2 ^ k - 1) = y
  obtain ⟨d, hd⟩ := hdvd
  rw [hd]
  -- both sides forget the low bits of `y`
  have hsplit : y % (2 ^ k * d) / 2 ^ k = y / 2 ^ k % d := Nat.mod_mul_right_div_self y (2 ^ k) d
  rw [hsplit, Nat.mul_comm (y / 2 ^ k), Nat.mul_mod_mul_left, Nat.mul_comm]

/-! ## The loop of `find_resource` -/

/-- A size, a power of two as alignment, and no alignment function. -/
structure Wish.Proper (w : Wish bits) : Prop where
  size : 0 < w.size.toNat
  align : ∃ k, w.align.toNat = 2 ^ k
  alignf : w.alignf = none

/-- The start that is tried for the gap from `g` on. -/
def place (w : Wish bits) (g : Nat) : Nat :=
  alignUp w.align.toNat (max (g % 2 ^ bits) w.min.toNat) % 2 ^ bits

/-- The test of the loop, which asks for two addresses at least. -/
def passes (w : Wish bits) (x : Nat × Nat) : Bool :=
  decide (place w x.1 + max w.size.toNat 2 ≤ min x.2 (w.max.toNat + 1))

section

variable {w : Wish bits}

theorem window_start (hw : w.Proper) (g : Nat) (end_ : BitVec bits) :
    (w.window (BitVec.ofNat bits g) end_).1.toNat = place w g := by
  obtain ⟨k, hk⟩ := hw.align
  have hmax : (if BitVec.ofNat bits g < w.min then w.min else BitVec.ofNat bits g).toNat =
      max (g % 2 ^ bits) w.min.toNat := by
    split
    · rename_i hlt
      rw [lt_def, toNat_ofNat] at hlt
      omega
    · rename_i hge
      rw [lt_def, toNat_ofNat] at hge
      rw [toNat_ofNat]
      omega
  unfold Wish.window place
  rw [hw.alignf]
  rw [align_toNat hk, hmax]

theorem window_end (hw : w.Proper) (start end_ : BitVec bits) :
    (w.window start end_).2.toNat = min end_.toNat w.max.toNat := by
  unfold Wish.window
  rw [hw.alignf]
  dsimp only
  split
  · rename_i hgt
    rw [gt_iff_lt, lt_def] at hgt
    omega
  · rename_i hle
    rw [gt_iff_lt, lt_def] at hle
    omega

/-- `new->start < new->end && new->end - new->start >= size - 1` -/
theorem window_passes (hw : w.Proper) {g f : Nat} {end_ : BitVec bits} (hf : end_.toNat + 1 = f) :
    ((w.window (BitVec.ofNat bits g) end_).1 < (w.window (BitVec.ofNat bits g) end_).2 ∧
      (w.window (BitVec.ofNat bits g) end_).2 - (w.window (BitVec.ofNat bits g) end_).1 ≥
        w.size - 1) ↔ passes w (g, f) = true := by
  have hsize := hw.size
  have hone : (w.size - 1).toNat = w.size.toNat - 1 := toNat_sub_one hsize
  have h1 := window_start hw g end_
  have h2 := window_end hw (BitVec.ofNat bits g) end_
  unfold passes
  rw [decide_eq_true_iff, lt_def, ge_iff_le, le_def, hone]
  dsimp only
  constructor
  · rintro ⟨hlt, hle⟩
    rw [toNat_sub_of_le (by rw [le_def]; omega)] at hle
    omega
  · intro hle
    rw [toNat_sub_of_le (by rw [le_def]; omega)]
    omega

end

variable {h : Heap α bits} {root a new : α} {kids : α → List α} {w : Wish bits} {x : Nat × Nat}
  {n s : Nat}

/-- The ranges of resources, half-open. -/
def ranges (h : Heap α bits) (l : List α) : List (Nat × Nat) :=
  l.map fun c => ((h.start c).toNat, (h.end_ c).toNat + 1)

/-- What is left of a search: the start that has been found. -/
def Found (w : Wish bits) (h' : Heap α bits) (new : α) (err : Option Errno) :
    Option (Nat × Nat) → Prop
  | none => err = some .EBUSY
  | some x => err = none ∧ (h'.start new).toNat = place w x.1 ∧
      (h'.end_ new).toNat = place w x.1 + w.size.toNat - 1

section

variable [DecidableEq α]

/-- The range that is set when a gap has been found. -/
theorem found_setRange (hw : w.Proper) (hx : passes w x = true)
    (hle : x.2 ≤ 2 ^ bits) {s : BitVec bits} (hs : s.toNat = place w x.1) :
    Found w (h.setRange new s (s + w.size - 1)) new none (some x) := by
  have hfit := decide_eq_true_iff.mp hx
  have hsize := hw.size
  refine ⟨rfl, ?_, ?_⟩
  · rw [show (h.setRange new s (s + w.size - 1)).start new = s from update_self ..]
    exact hs
  · rw [show (h.setRange new s (s + w.size - 1)).end_ new = s + w.size - 1 from
      update_self .., ← hs]
    rw [BitVec.sub_eq_add_neg, BitVec.add_assoc, ← BitVec.sub_eq_add_neg, BitVec.toNat_add,
      toNat_sub_one hsize, Nat.mod_eq_of_lt (by omega)]
    omega

theorem ranges_setRange {s e : BitVec bits} (hnew : new ∉ l) :
    ranges (h.setRange new s e) l = ranges h l := by
  refine map_congr_left fun c hc => ?_
  have hne : c ≠ new := fun heq => hnew (heq ▸ hc)
  simp [Heap.setRange, update_of_ne hne]

omit [DecidableEq α] in
theorem ofNat_end (c : α) : BitVec.ofNat bits ((h.end_ c).toNat + 1) = h.end_ c + 1 := by
  rw [ofNat_add, ofNat_toNat, setWidth_eq]
  rfl

/-- The loop finds the first gap that passes the test. -/
theorem findLoop_found (hw : w.Proper) (hanew : a ≠ new) (l : List α) (h : Heap α bits) (p : Loc α)
    (g : Nat) (hchain : Chain Loc.sibling h.slot p l) (hlive : ∀ c ∈ l, h.live c = true)
    (hnew : new ∉ l) (hpos : ∀ c ∈ l, 0 < (h.start c).toNat) :
    ∃ h' err, findLoop h a new w (h.slot p) (BitVec.ofNat bits g) = some (h', err) ∧
      Found w h' new err
        ((gaps ((h.end_ a).toNat + 1) (ranges h l) g).find? (passes w)) := by
  induction l generalizing h p g with
  | nil =>
    rw [(chain_nil p).mp hchain, findLoop]
    have htest := window_passes hw (g := g) (rfl : (h.end_ a).toNat + 1 = _)
    have hgaps : gaps ((h.end_ a).toNat + 1) (ranges h []) g = [(g, (h.end_ a).toNat + 1)] := rfl
    rw [hgaps]
    by_cases hpass : passes w (g, (h.end_ a).toNat + 1) = true
    · refine ⟨_, _, if_pos (htest.mpr hpass), ?_⟩
      rw [find?_cons_of_pos hpass]
      exact found_setRange hw hpass (h.end_ a).isLt (window_start hw g _)
    · refine ⟨_, _, if_neg fun hyes => hpass (htest.mp hyes), ?_⟩
      rw [find?_cons_of_neg hpass]
      rfl
  | cons c l ih =>
    obtain ⟨hp, hrest⟩ := (chain_cons p c l).mp hchain
    obtain ⟨hcn, hnew'⟩ : new ≠ c ∧ new ∉ l := by simpa using hnew
    have hc := hpos c mem_cons_self
    have hend : (h.start c - 1).toNat + 1 = (h.start c).toNat := by
      rw [toNat_sub_one hc]
      omega
    have htest := window_passes hw (g := g) hend
    have hgaps : gaps ((h.end_ a).toNat + 1) (ranges h (c :: l)) g =
        (g, (h.start c).toNat) :: gaps ((h.end_ a).toNat + 1) (ranges h l) ((h.end_ c).toNat + 1) :=
      rfl
    rw [hp, findLoop, hgaps]
    simp only [hlive c mem_cons_self]
    by_cases hpass : passes w (g, (h.start c).toNat) = true
    · refine ⟨_, _, if_pos (htest.mpr hpass), ?_⟩
      rw [find?_cons_of_pos hpass]
      exact found_setRange hw hpass (Nat.le_of_lt (h.start c).isLt) (window_start hw g _)
    rw [if_neg fun hyes => hpass (htest.mp hyes), find?_cons_of_neg hpass]
    generalize w.window (BitVec.ofNat bits g) (h.start c - 1) = tried
    have hend' : (h.setRange new tried.1 tried.2).end_ a = h.end_ a := update_of_ne hanew ..
    have hstart' (d) (hd : d ∈ l) : (h.setRange new tried.1 tried.2).start d = h.start d := by
      have hne : d ≠ new := fun heq => hnew' (heq ▸ hd)
      exact update_of_ne hne ..
    obtain ⟨h', err, heq, hfound⟩ := ih (h.setRange new tried.1 tried.2) (.sibling c)
      ((h.end_ c).toNat + 1) hrest (fun b hb => hlive b (mem_cons_of_mem c hb)) hnew'
      (fun d hd => by rw [hstart' d hd]; exact hpos d (mem_cons_of_mem c hd))
    rw [hend', ranges_setRange hnew'] at hfound
    rw [← ofNat_end]
    exact ⟨h', err, heq, hfound⟩

/-- `find_resource` among the children of `a`. -/
theorem findResource_found (ht : Tree h root kids) (ha : Reach kids root a)
    (hnew : ¬ Reach kids root new) (hlive : h.live new = true) (hw : w.Proper) :
    ∃ h' err, findResource h a new w = some (h', err) ∧
      Found w h' new err ((gaps ((h.end_ a).toNat + 1) (ranges h (kids a))
        (h.start a).toNat).find? (passes w)) := by
  have hchain := ht.chain a ha
  have hanew : a ≠ new := fun heq => hnew (heq ▸ ha)
  have hkids (c) (hc : c ∈ kids a) : h.live c = true := ht.live c (ha.tail hc)
  have hnotin : new ∉ kids a := fun hmem => hnew (ha.tail hmem)
  have hstart : BitVec.ofNat bits (h.start a).toNat = h.start a := by
    rw [ofNat_toNat, setWidth_eq]
  -- only the first child can start at 0
  have hpos (c l) (hk : kids a = c :: l) (d) (hd : d ∈ l) : 0 < (h.start d).toNat := by
    have hsorted := ht.sorted a ha
    rw [hk] at hsorted
    have hlt := (pairwise_cons.mp hsorted).1 d hd
    rw [lt_def] at hlt
    omega
  rcases findResource_eq ht ha hlive w with ⟨hfirst, heq⟩ | ⟨c, l, hk, hzero, heq⟩
  · have hpos' (d) (hd : d ∈ kids a) : 0 < (h.start d).toNat := by
      obtain ⟨c, l, hk⟩ := exists_cons_of_ne_nil (ne_nil_of_mem hd)
      rw [hk] at hd hfirst
      rcases mem_cons.mp hd with rfl | hd
      · refine Nat.pos_of_ne_zero fun hd0 => hfirst d rfl (eq_of_toNat_eq ?_)
        exact hd0.trans (toNat_zero ..).symm
      · exact hpos c l hk d hd
    have hloop := findLoop_found hw hanew (kids a) h (.child a) (h.start a).toNat hchain hkids
      hnotin hpos'
    rw [hstart] at hloop
    rw [heq]
    exact hloop
  · have hskip : passes w ((h.start a).toNat, (h.start c).toNat) = false := by
      rw [passes, hzero]
      simp
    rw [hk] at hchain hkids hnotin ⊢
    have hloop := findLoop_found hw hanew l h (.sibling c) ((h.end_ c).toNat + 1)
      ((chain_cons _ _ _).mp hchain).2 (fun b hb => hkids b (mem_cons_of_mem c hb))
      (fun hl => hnotin (mem_cons_of_mem c hl)) (hpos c l hk)
    rw [heq, ranges, map_cons, gaps, find?_cons_of_neg (by rw [hskip]; simp), ← ofNat_end]
    exact hloop

end

/-! ## Requesting what has been found -/

/-- The range is free under `a`. -/
def Free (h : Heap α bits) (l : List α) (a : α) (n s : Nat) : Prop :=
  (h.start a).toNat ≤ s ∧ s + n ≤ (h.end_ a).toNat + 1 ∧
    ∀ c ∈ l, s + n ≤ (h.start c).toNat ∨ (h.end_ c).toNat < s

section

variable [DecidableEq α]

/-- A range that meets no resource of the list is linked. -/
theorem requestLoop_of_free (root new : α) (l : List α) (p : Loc α)
    (hchain : Chain Loc.sibling h.slot p l) (hlive : ∀ c ∈ l, h.live c = true)
    (hfree : ∀ c ∈ l, h.end_ new < h.start c ∨ h.end_ c < h.start new) :
    ∃ q, requestLoop h root new p = some (h.link root new q, none) := by
  induction l generalizing p with
  | nil =>
    refine ⟨p, ?_⟩
    rw [requestLoop, (chain_nil p).mp hchain]
  | cons c l ih =>
    obtain ⟨hp, hrest⟩ := (chain_cons p c l).mp hchain
    rw [requestLoop, hp]
    simp only [hlive c mem_cons_self]
    by_cases hafter : h.start c > h.end_ new
    · exact ⟨p, if_pos hafter⟩
    · rw [if_neg hafter, if_pos ((hfree c mem_cons_self).resolve_left hafter)]
      exact ih (.sibling c) hrest (fun b hb => hlive b (mem_cons_of_mem c hb))
        fun b hb => hfree b (mem_cons_of_mem c hb)

/-- `__request_resource` succeeds if and only if the range is one and free. -/
theorem requestResource'_free (ht : Tree h root kids) (ha : Reach kids root a)
    (hnew : h.live new = true) (hn : 0 < n) (hs : (h.start new).toNat = s)
    (he : (h.end_ new).toNat = s + n - 1) :
    ∃ h' conflict, requestResource' h a new = some (h', conflict) ∧ h'.start = h.start ∧
      h'.end_ = h.end_ ∧ (conflict = none ↔ Free h (kids a) a n s) := by
  by_cases hfree : Free h (kids a) a n s
  · obtain ⟨hlo, hhi, hkids⟩ := hfree
    have hloop := requestLoop_of_free a new (kids a) (.child a) (ht.chain a ha)
      (fun c hc => ht.live c (ha.tail hc)) fun c hc => by
        have := hkids c hc
        simp only [lt_def]
        omega
    obtain ⟨q, hq⟩ := hloop
    refine ⟨h.link a new q, none, ?_, rfl, rfl, fun _ => ⟨hlo, hhi, hkids⟩, fun _ => rfl⟩
    unfold requestResource'
    rw [deref_eq (ht.live a ha), deref_eq hnew]
    rw [if_neg (by rw [lt_def]; omega), if_neg (by rw [lt_def]; omega),
      if_neg (by rw [gt_iff_lt, lt_def]; omega)]
    exact hq
  · obtain ⟨res, heq, hres⟩ := requestResource'_spec ht ha hnew
    cases hres with
    | refused | conflict => exact ⟨_, _, heq, rfl, rfl, by simp, fun h => absurd h hfree⟩
    | linked l1 l2 hfits hkids hgap =>
      refine absurd ⟨?_, ?_, fun c hc => ?_⟩ hfree
      · have := hfits.2.1
        rw [le_def] at this
        omega
      · have := hfits.2.2
        rw [le_def] at this
        omega
      · rw [hkids] at hc
        rcases mem_append.mp hc with hc | hc
        · have := hgap.before c hc
          rw [lt_def] at this
          omega
        · have := hgap.after c hc
          rw [lt_def] at this
          omega

end

/-! ## The least place -/

/-- `[s, s + n - 1]` is aligned, inside `[min, max]` and the range of `a`, and disjoint from
the resources `l`. -/
def Suitable (h : Heap α bits) (l : List α) (a : α) (w : Wish bits) (n s : Nat) : Prop :=
  w.align.toNat ∣ s ∧ w.min.toNat ≤ s ∧ s + n ≤ w.max.toNat + 1 ∧ Free h l a n s

/-- What `allocate_resource` is for: it succeeds if there is a suitable place, and takes the
least one. -/
def AllocatesLeast [DecidableEq α] (h : Heap α bits) (l : List α) (a new : α) (w : Wish bits) : Prop :=
  ∃ h' err, allocateResource h a new w = some (h', err) ∧
    (err = none ↔ ∃ s, Suitable h l a w w.size.toNat s) ∧
    (err = none → IsLeast {s | Suitable h l a w w.size.toNat s} (h'.start new).toNat ∧
      (h'.end_ new).toNat + 1 = (h'.start new).toNat + w.size.toNat)

/-- The gaps between the resources `l` under `a`. -/
def gapsOf (h : Heap α bits) (l : List α) (a : α) : List (Nat × Nat) :=
  gaps ((h.end_ a).toNat + 1) (ranges h l) (h.start a).toNat

/-- In some gap, the aligned start wraps around to 0, and from 0 to the end of the gap there
is room. -/
def Wraps (h : Heap α bits) (l : List α) (a : α) (w : Wish bits) : Prop :=
  ∃ x ∈ gapsOf h l a, 2 ^ bits ≤ alignUp w.align.toNat (max (x.1 % 2 ^ bits) w.min.toNat) ∧
    max w.size.toNat 2 ≤ min x.2 (w.max.toNat + 1)

/-- When the search finds the least place.  For a size of 1 the place must not be a gap of
one address, unless the search comes back to it: from a start that wraps around, or from
the start 0 that stands behind a resource at the end of the address space.  And if there is
no place, no start that wraps around may lead to a range that is free. -/
structure SearchSucceeds (h : Heap α bits) (l : List α) (a : α) (w : Wish bits) : Prop where
  single : w.size.toNat = 1 → ∀ s, IsLeast {s | Suitable h l a w 1 s} s →
    Suitable h l a w 2 s ∨ (¬ ∃ s', Suitable h l a w 2 s') ∧
      (Wraps h l a w ∧ s = 0 ∨ ¬ Wraps h l a w ∧ (∃ c ∈ l, (h.end_ c).toNat + 1 = 2 ^ bits) ∧
        s = alignUp w.align.toNat w.min.toNat ∧ s < w.max.toNat)
  full : (¬ ∃ s, Suitable h l a w w.size.toNat s) → Wraps h l a w → ¬ Free h l a w.size.toNat 0

theorem free_iff : Free h l a n s ↔
    (h.start a).toNat ≤ s ∧ s + n ≤ (h.end_ a).toNat + 1 ∧
      ∀ i ∈ ranges h l, s + n ≤ i.1 ∨ i.2 ≤ s := by
  unfold Free ranges
  rw [forall_mem_map]
  exact Iff.rfl

theorem suitable_iff : Suitable h l a w n s ↔
    Suits ((h.end_ a).toNat + 1) (ranges h l) (h.start a).toNat w.align.toNat w.min.toNat
      (w.max.toNat + 1) n s :=
  and_congr_right fun _ => and_congr_right fun _ => and_congr_right fun _ => free_iff

theorem Suitable.mono {n n' s : Nat} (hle : n' ≤ n) (hs : Suitable h l a w n s) :
    Suitable h l a w n' s :=
  suitable_iff.mpr ((suitable_iff.mp hs).mono hle)

/-- The children are in order. -/
theorem Tree.inOrder (ht : Tree h root kids) (ha : Reach kids root a) :
    InOrder ((h.end_ a).toNat + 1) (ranges h (kids a)) (h.start a).toNat := by
  have key : ∀ (l : List α) (g : Nat), g ≤ (h.end_ a).toNat + 1 → (∀ c ∈ l, c ∈ kids a) →
      (∀ c ∈ l, g ≤ (h.start c).toNat) → l.Pairwise (fun b c => h.end_ b < h.start c) →
      InOrder ((h.end_ a).toNat + 1) (ranges h l) g := by
    intro l
    induction l with
    | nil => intro g hg _ _ _; exact hg
    | cons c l ih =>
      intro g _ hmem hle hsorted
      have hin := (ht.inside a ha c (hmem c mem_cons_self)).2
      have hord := ht.ordered c (ha.tail (hmem c mem_cons_self))
      rw [le_def] at hin hord
      refine ⟨hle c mem_cons_self, by show (h.start c).toNat < (h.end_ c).toNat + 1; omega,
        ih _ (by omega) (fun d hd => hmem d (mem_cons_of_mem c hd)) (fun d hd => ?_)
          (pairwise_cons.mp hsorted).2⟩
      have := (pairwise_cons.mp hsorted).1 d hd
      rw [lt_def] at this
      omega
  have hord := ht.ordered a ha
  rw [le_def] at hord
  refine key (kids a) _ (by omega) (fun _ hc => hc) (fun c hc => ?_) (ht.sorted a ha)
  have := (ht.inside a ha c hc).1
  rwa [le_def] at this

/-- `allocate_resource` in terms of the gap that is found. -/
theorem allocatesLeast_iff_find [DecidableEq α] (ht : Tree h root kids) (ha : Reach kids root a)
    (hnew : ¬ Reach kids root new) (hlive : h.live new = true) (hw : w.Proper) :
    AllocatesLeast h (kids a) a new w ↔
      match (gapsOf h (kids a) a).find? (passes w) with
      | none => ¬ ∃ s, Suitable h (kids a) a w w.size.toNat s
      | some x => IsLeast {s | Suitable h (kids a) a w w.size.toNat s} (place w x.1) ∨
          ¬ Free h (kids a) a w.size.toNat (place w x.1) ∧
            ¬ ∃ s, Suitable h (kids a) a w w.size.toNat s := by
  obtain ⟨h1, err, hfind, hl, -, hsame⟩ := findResource_spec ht ha hnew hlive w
  obtain ⟨h1', err', hfind', hfound⟩ := findResource_found ht ha hnew hlive hw
  obtain ⟨rfl, rfl⟩ := Prod.mk.inj (Option.some.inj (hfind.symm.trans hfind'))
  change Found w h1 new err ((gapsOf h (kids a) a).find? (passes w)) at hfound
  have ht1 := ht.frame hsame
  cases hx : (gapsOf h (kids a) a).find? (passes w) with
  | none =>
    rw [hx] at hfound
    obtain rfl : err = some .EBUSY := hfound
    have heq : allocateResource h a new w = some (h1, some .EBUSY) := by
      unfold allocateResource
      rw [hfind]
      rfl
    constructor
    · rintro ⟨h', err, heq', hiff, -⟩
      rw [heq] at heq'
      obtain ⟨rfl, rfl⟩ := Prod.mk.inj (Option.some.inj heq')
      exact fun hs => by cases hiff.mpr hs
    · intro hno
      exact ⟨h1, _, heq, ⟨(fun he => by cases he), fun hs => absurd hs hno⟩, fun he => by cases he⟩
  | some x =>
    rw [hx] at hfound
    obtain ⟨rfl, hstart, hend⟩ := hfound
    have hlive1 : h1.live new = true := by rw [hl, hlive]
    obtain ⟨h2, conflict, hreq, hs2, he2, hconf⟩ :=
      requestResource'_free ht1 ha hlive1 hw.size hstart hend
    have hfree : Free h1 (kids a) a w.size.toNat (place w x.1) ↔
        Free h (kids a) a w.size.toNat (place w x.1) := by
      unfold Free
      rw [(hsame a ha).start, (hsame a ha).end_]
      refine and_congr_right fun _ => and_congr_right fun _ => forall₂_congr fun c hc => ?_
      rw [(hsame c (ha.tail hc)).start, (hsame c (ha.tail hc)).end_]
    rw [hfree] at hconf
    have heq : allocateResource h a new w =
        some (h2, if conflict.isSome then some .EBUSY else none) := by
      unfold allocateResource
      rw [hfind]
      simp [hreq]
    have hnone : (if conflict.isSome then some Errno.EBUSY else none) = none ↔
        Free h (kids a) a w.size.toNat (place w x.1) := by
      rw [← hconf]
      cases conflict <;> simp
    have hsize := hw.size
    constructor
    · rintro ⟨h', err, heq', hiff, hleast⟩
      rw [heq] at heq'
      obtain ⟨rfl, rfl⟩ := Prod.mk.inj (Option.some.inj heq')
      by_cases hf : Free h (kids a) a w.size.toNat (place w x.1)
      · left
        have := (hleast (hnone.mpr hf)).1
        rwa [hs2, hstart] at this
      · exact .inr ⟨hf, fun hs => hf (hnone.mp (hiff.mpr hs))⟩
    · rintro (hleast | ⟨hf, hno⟩)
      · have hf : Free h (kids a) a w.size.toNat (place w x.1) := hleast.1.2.2.2
        refine ⟨h2, _, heq, ⟨fun _ => ⟨_, hleast.1⟩, fun _ => hnone.mpr hf⟩, fun _ => ?_⟩
        rw [hs2, he2, hstart]
        exact ⟨hleast, by omega⟩
      · refine ⟨h2, _, heq, ⟨fun he => absurd (hnone.mp he) hf, fun hs => absurd hs hno⟩, ?_⟩
        exact fun he => absurd (hnone.mp he) hf

/-! ## The gap that is found -/

section

theorem Wish.Proper.align_pos (hw : w.Proper) : 0 < w.align.toNat := by
  obtain ⟨k, hk⟩ := hw.align
  rw [hk]
  exact Nat.two_pow_pos k

theorem alignUp_le_top (hw : w.Proper) {x : Nat} (hx : x ≤ 2 ^ bits) :
    alignUp w.align.toNat x ≤ 2 ^ bits := by
  refine (alignUp_le_iff hw.align_pos ?_).mpr hx
  obtain ⟨k, hk⟩ := hw.align
  have hlt := w.align.isLt
  rw [hk] at hlt ⊢
  exact Nat.pow_dvd_pow 2 (Nat.le_of_lt ((Nat.pow_lt_pow_iff_right (by omega)).mp hlt))

/-- A start that does not wrap around. -/
theorem place_of_lt {g : Nat} (hg : g < 2 ^ bits)
    (hlt : alignUp w.align.toNat (max g w.min.toNat) < 2 ^ bits) :
    place w g = alignUp w.align.toNat (max g w.min.toNat) := by
  unfold place
  rw [Nat.mod_eq_of_lt hg, Nat.mod_eq_of_lt hlt]

theorem place_of_wrap (hw : w.Proper) {g : Nat}
    (hge : 2 ^ bits ≤ alignUp w.align.toNat (max (g % 2 ^ bits) w.min.toNat)) : place w g = 0 := by
  have hle := alignUp_le_top hw (show max (g % 2 ^ bits) w.min.toNat ≤ 2 ^ bits by omega)
  unfold place
  rw [show alignUp w.align.toNat (max (g % 2 ^ bits) w.min.toNat) = 2 ^ bits by omega, Nat.mod_self]

/-- Behind a resource at the end of the address space, the search starts at 0. -/
theorem place_top (hlt : alignUp w.align.toNat w.min.toNat < 2 ^ bits) :
    place w (2 ^ bits) = alignUp w.align.toNat w.min.toNat := by
  unfold place
  rw [Nat.mod_self, Nat.zero_max, Nat.mod_eq_of_lt hlt]

/-- The gap has room for two addresses, and for the size. -/
abbrev roomFor (w : Wish bits) : Nat × Nat → Bool :=
  room w.align.toNat w.min.toNat (w.max.toNat + 1) (max w.size.toNat 2)

theorem passes_iff : passes w x = true ↔
    place w x.1 + max w.size.toNat 2 ≤ min x.2 (w.max.toNat + 1) := decide_eq_true_iff

/-- A start that wraps around passes the test. -/
theorem exists_passes_of_wraps (hw : w.Proper) (hwraps : Wraps h l a w) :
    ∃ x ∈ gapsOf h l a, passes w x = true ∧
      2 ^ bits ≤ alignUp w.align.toNat (max (x.1 % 2 ^ bits) w.min.toNat) := by
  obtain ⟨x, hx, hwrap, hroom⟩ := hwraps
  refine ⟨x, hx, ?_, hwrap⟩
  rw [passes_iff, place_of_wrap hw hwrap]
  omega

theorem exists_least (hs : ∃ s, Suitable h l a w w.size.toNat s) :
    ∃ s, IsLeast {s | Suitable h l a w w.size.toNat s} s := by
  classical
  exact ⟨Nat.find hs, Nat.find_spec hs, fun s' hs' => Nat.find_min' hs hs'⟩

section

variable (hw : w.Proper) (hl : InOrder ((h.end_ a).toNat + 1) (ranges h l) (h.start a).toNat)
include hw hl

/-- A gap with room for two addresses, and for the size, is found as it should. -/
theorem find_passes_of_room
    (hx : (gapsOf h l a).find? (roomFor w) = some x) :
    (gapsOf h l a).find? (passes w) = some x ∧
      place w x.1 = alignUp w.align.toNat (max x.1 w.min.toNat) := by
  obtain ⟨hroom, before, after, heq, hbefore⟩ := find?_eq_some_iff_append.mp hx
  have hroom' := room_iff.mp hroom
  have hxtop := le_alignUp hw.align_pos (max x.1 w.min.toNat)
  have hplace : place w x.1 = alignUp w.align.toNat (max x.1 w.min.toNat) :=
    place_of_lt (by omega) (by omega)
  refine ⟨find?_eq_some_iff_append.mpr ⟨?_, before, after, heq, fun y hy => ?_⟩, hplace⟩
  · rw [passes_iff, hplace]
    exact hroom'
  · -- the gaps before it start lower, so they do not wrap around either
    have hsorted := gaps_sorted hl
    change (gapsOf h l a).Pairwise _ at hsorted
    rw [heq] at hsorted
    have hlt := (pairwise_append.mp hsorted).2.2 y hy x (mem_cons_self ..)
    have hymem : y ∈ gapsOf h l a := by rw [heq]; exact mem_append_left _ hy
    have hyle := gap_le hl y hymem
    have hmono : alignUp w.align.toNat (max y.1 w.min.toNat) ≤
        alignUp w.align.toNat (max x.1 w.min.toNat) := alignUp_mono (by omega)
    have hno := hbefore y hy
    rw [Bool.not_eq_true', ← Bool.not_eq_true, roomFor, room_iff] at hno
    rw [Bool.not_eq_true', ← Bool.not_eq_true, passes_iff, place_of_lt (by omega) (by omega)]
    exact hno

/-- If no gap has room, what passes the test has wrapped around. -/
theorem passes_of_no_room
    (hnone : (gapsOf h l a).find? (roomFor w) = none)
    (hx : x ∈ gapsOf h l a) (hpass : passes w x = true) :
    (place w x.1 = 0 ∧ 2 ^ bits ≤ alignUp w.align.toNat (max (x.1 % 2 ^ bits) w.min.toNat) ∧
      max w.size.toNat 2 ≤ min x.2 (w.max.toNat + 1)) ∨
    (x.1 = 2 ^ bits ∧ alignUp w.align.toNat w.min.toNat < 2 ^ bits ∧
      alignUp w.align.toNat w.min.toNat < w.max.toNat ∧
      alignUp w.align.toNat w.min.toNat + w.size.toNat ≤ w.max.toNat + 1 ∧
      ∃ c ∈ l, (h.end_ c).toNat + 1 = 2 ^ bits) := by
  have hpass' := passes_iff.mp hpass
  have hle := gap_le hl x hx
  by_cases hwrap : 2 ^ bits ≤ alignUp w.align.toNat (max (x.1 % 2 ^ bits) w.min.toNat)
  · have hzero := place_of_wrap hw hwrap
    exact .inl ⟨hzero, hwrap, by omega⟩
  right
  have hx1 : x.1 = 2 ^ bits := by
    by_contra hne
    have hlt : x.1 < 2 ^ bits := by omega
    rw [Nat.mod_eq_of_lt hlt] at hwrap
    rw [place_of_lt hlt (by omega)] at hpass'
    exact find?_eq_none.mp hnone x hx (room_iff.mpr hpass')
  rw [hx1, Nat.mod_self, Nat.zero_max] at hwrap
  rw [hx1, place_top (by omega)] at hpass'
  refine ⟨hx1, by omega, by omega, by omega, ?_⟩
  have hstart : x.1 ∈ (gapsOf h l a).map Prod.fst := mem_map_of_mem hx
  rw [gapsOf, gap_starts, ranges, map_map] at hstart
  rcases mem_cons.mp hstart with heq | hmem
  · omega
  · obtain ⟨c, hc, heq⟩ := mem_map.mp hmem
    exact ⟨c, hc, heq.trans hx1⟩

/-- The start 0 behind a resource at the end of the address space is tried last. -/
theorem not_wraps_of_find_top
    (hx : (gapsOf h l a).find? (passes w) = some x) (hx1 : x.1 = 2 ^ bits)
    (hlt : alignUp w.align.toNat w.min.toNat < 2 ^ bits) : ¬ Wraps h l a w := by
  intro hwraps
  obtain ⟨y, hy, hpass, hwrap⟩ := exists_passes_of_wraps hw hwraps
  obtain ⟨-, before, after, heq, hbefore⟩ := find?_eq_some_iff_append.mp hx
  have hsorted := gaps_sorted hl
  change (gapsOf h l a).Pairwise _ at hsorted
  have hyle := gap_le hl y hy
  have hxle := gap_le hl x (mem_of_find?_eq_some hx)
  rw [heq] at hy hsorted
  rcases mem_append.mp hy with hy | hy
  · have := hbefore y hy
    rw [hpass] at this
    cases this
  · rcases mem_cons.mp hy with rfl | hy
    · rw [hx1, Nat.mod_self, Nat.zero_max] at hwrap
      omega
    · have := (pairwise_cons.mp (pairwise_append.mp hsorted).2.1).1 y hy
      omega

omit hw in
/-- The search comes back to the start 0 if it has passed over everything else. -/
theorem exists_passes_top
    (hsize : w.size.toNat = 1) (htop : ∃ c ∈ l, (h.end_ c).toNat + 1 = 2 ^ bits)
    (hlt : alignUp w.align.toNat w.min.toNat < w.max.toNat) :
    ∃ x ∈ gapsOf h l a, passes w x = true := by
  obtain ⟨c, hc, hend⟩ := htop
  have hstart : 2 ^ bits ∈ (gapsOf h l a).map Prod.fst := by
    rw [gapsOf, gap_starts, ranges, map_map]
    exact mem_cons_of_mem _ (mem_map.mpr ⟨c, hc, hend⟩)
  obtain ⟨x, hx, hx1⟩ := mem_map.mp hstart
  refine ⟨x, hx, ?_⟩
  have hle := gap_le hl x hx
  rw [passes_iff, hx1, place_top (by omega)]
  omega

/-! ## The condition -/

/-- Some gap has room for two addresses and for the size. -/
theorem search_iff_of_room (hroom : (gapsOf h l a).find? (roomFor w) = some x) :
    (IsLeast {s | Suitable h l a w w.size.toNat s} (place w x.1) ∨
      ¬ Free h l a w.size.toNat (place w x.1) ∧ ¬ ∃ s, Suitable h l a w w.size.toNat s) ↔
    SearchSucceeds h l a w := by
  have hsize := hw.size
  obtain ⟨-, hplace⟩ := find_passes_of_room hw hl hroom
  have hset (n) : {s | Suitable h l a w n s} = {s | Suits ((h.end_ a).toNat + 1) (ranges h l)
        (h.start a).toNat w.align.toNat w.min.toNat (w.max.toNat + 1) n s} :=
    Set.ext fun s => suitable_iff
  have hleast := isLeast_of_find_room hw.align_pos hl hroom
  rw [← hset, ← hplace] at hleast
  have hs : Suitable h l a w w.size.toNat (place w x.1) := Suitable.mono (by omega) hleast.1
  constructor
  · intro hfound
    have hmin := hfound.resolve_right fun hno => hno.2 ⟨_, hs⟩
    refine ⟨fun hone s hls => .inl ?_, fun hno => absurd ⟨_, hs⟩ hno⟩
    rw [hone] at hmin
    rw [hls.unique hmin]
    exact Suitable.mono (by omega) hleast.1
  · intro hok
    left
    by_cases hone : w.size.toNat = 1
    · obtain ⟨s, hls⟩ := exists_least ⟨_, hs⟩
      have hmax : max w.size.toNat 2 = 2 := by omega
      rw [hmax] at hleast
      have hs2 : Suitable h l a w 2 s :=
        (hok.single hone s (hone ▸ hls)).resolve_right fun hno => hno.1 ⟨_, hleast.1⟩
      have heq : s = place w x.1 := Nat.le_antisymm (hls.2 hs) (hleast.2 hs2)
      rw [← heq]
      exact hls
    · rw [show max w.size.toNat 2 = w.size.toNat by omega] at hleast
      exact hleast

section

variable (hroom : (gapsOf h l a).find? (roomFor w) = none)
include hroom

theorem not_suitable_of_no_room {s : Nat} : ¬ Suitable h l a w (max w.size.toNat 2) s := fun hs =>
  not_suits_of_find_none hw.align_pos hl hroom (suitable_iff.mp hs)

/-- With no room for two addresses, only a size of 1 has a place. -/
theorem size_one_of_suitable (hs : ∃ s, Suitable h l a w w.size.toNat s) : w.size.toNat = 1 := by
  obtain ⟨s, hs⟩ := hs
  have hsize := hw.size
  by_contra hne
  refine not_suitable_of_no_room hw hl hroom (s := s) ?_
  rwa [show max w.size.toNat 2 = w.size.toNat by omega]

theorem not_pair_of_no_room (hone : w.size.toNat = 1) : ¬ ∃ s, Suitable h l a w 2 s := by
  rintro ⟨s, hs⟩
  refine not_suitable_of_no_room hw hl hroom (s := s) ?_
  rwa [show max w.size.toNat 2 = 2 by omega]

/-- Nothing passes the test. -/
theorem search_iff_of_none (hfind : (gapsOf h l a).find? (passes w) = none) :
    (¬ ∃ s, Suitable h l a w w.size.toNat s) ↔ SearchSucceeds h l a w := by
  have hnopass := find?_eq_none.mp hfind
  have hnowrap : ¬ Wraps h l a w := by
    intro hwraps
    obtain ⟨x, hx, hpass, -⟩ := exists_passes_of_wraps hw hwraps
    exact hnopass x hx hpass
  constructor
  · intro hno
    exact ⟨fun hone s hls => absurd ⟨s, hone ▸ hls.1⟩ hno, fun _ hwraps => absurd hwraps hnowrap⟩
  · intro hok hs
    obtain ⟨s, hls⟩ := exists_least hs
    have hone := size_one_of_suitable hw hl hroom hs
    rcases hok.single hone s (hone ▸ hls) with hs2 | ⟨-, ⟨hwraps, -⟩ | ⟨-, htop, rfl, hlt⟩⟩
    · exact not_pair_of_no_room hw hl hroom hone ⟨s, hs2⟩
    · exact hnowrap hwraps
    · obtain ⟨x, hx, hpass⟩ := exists_passes_top hl hone htop hlt
      exact hnopass x hx hpass

/-- A place passes it that the search comes back to. -/
theorem search_iff_of_place {x : Nat}
    (hback : ∀ s, (Wraps h l a w ∧ s = 0 ∨ ¬ Wraps h l a w ∧
      (∃ c ∈ l, (h.end_ c).toNat + 1 = 2 ^ bits) ∧ s = alignUp w.align.toNat w.min.toNat ∧
        s < w.max.toNat) ↔ s = x)
    (hfull : (¬ ∃ s, Suitable h l a w w.size.toNat s) →
      ((Wraps h l a w → ¬ Free h l a w.size.toNat 0) ↔ ¬ Free h l a w.size.toNat x)) :
    (IsLeast {s | Suitable h l a w w.size.toNat s} x ∨
      ¬ Free h l a w.size.toNat x ∧ ¬ ∃ s, Suitable h l a w w.size.toNat s) ↔
    SearchSucceeds h l a w := by
  constructor
  · rintro (hleast | ⟨hfree, hno⟩)
    · refine ⟨fun hone s hls => .inr ⟨not_pair_of_no_room hw hl hroom hone, (hback s).mpr ?_⟩,
        fun hno => absurd ⟨_, hleast.1⟩ hno⟩
      rw [hone] at hleast
      exact hls.unique hleast
    · exact ⟨fun hone s hls => absurd ⟨s, hone ▸ hls.1⟩ hno, fun _ => (hfull hno).mpr hfree⟩
  · intro hok
    by_cases hs : ∃ s, Suitable h l a w w.size.toNat s
    · left
      obtain ⟨s, hls⟩ := exists_least hs
      have hone := size_one_of_suitable hw hl hroom hs
      rcases hok.single hone s (hone ▸ hls) with hs2 | ⟨-, hx⟩
      · exact absurd ⟨s, hs2⟩ (not_pair_of_no_room hw hl hroom hone)
      · rwa [(hback s).mp hx] at hls
    · exact .inr ⟨(hfull hs).mp (hok.full hs), hs⟩

end

/-- The gap that is found has the least place exactly under the condition. -/
theorem find_passes_iff :
    (match (gapsOf h l a).find? (passes w) with
      | none => ¬ ∃ s, Suitable h l a w w.size.toNat s
      | some x => IsLeast {s | Suitable h l a w w.size.toNat s} (place w x.1) ∨
          ¬ Free h l a w.size.toNat (place w x.1) ∧ ¬ ∃ s, Suitable h l a w w.size.toNat s) ↔
    SearchSucceeds h l a w := by
  cases hroom : (gapsOf h l a).find? (roomFor w) with
  | some x =>
    rw [(find_passes_of_room hw hl hroom).1]
    exact search_iff_of_room hw hl hroom
  | none =>
    cases hfind : (gapsOf h l a).find? (passes w) with
    | none => exact search_iff_of_none hw hl hroom hfind
    | some x =>
      have hx := mem_of_find?_eq_some hfind
      dsimp only
      rcases passes_of_no_room hw hl hroom hx (find?_some hfind) with
        ⟨hzero, hwrap, hfit⟩ | ⟨hx1, hlt, hltmax, hfit, htop⟩
      · -- from a start that has wrapped around
        have hwraps : Wraps h l a w := ⟨x, hx, hwrap, hfit⟩
        rw [hzero]
        exact search_iff_of_place hw hl hroom (by simp [hwraps]) (by simp [hwraps])
      -- from the start 0 behind a resource at the end of the address space
      have hnowrap := not_wraps_of_find_top hw hl hfind hx1 hlt
      rw [hx1, place_top hlt]
      refine search_iff_of_place hw hl hroom (fun s => ?_) fun hno => ?_
      · simp only [hnowrap, htop, false_and, false_or, not_false_eq_true, true_and]
        exact and_iff_left_of_imp fun heq => heq ▸ hltmax
      · exact ⟨fun _ hfree => hno ⟨_, dvd_alignUp .., le_alignUp hw.align_pos _, hfit, hfree⟩,
          fun _ hwraps => absurd hwraps hnowrap⟩

end

end

/-- `allocate_resource` succeeds exactly if there is a suitable place, and takes the least one,
if and only if the search is not led astray. -/
theorem allocateResource_least_iff [DecidableEq α] (ht : Tree h root kids) (ha : Reach kids root a)
    (hnew : ¬ Reach kids root new) (hlive : h.live new = true) (hw : w.Proper) :
    AllocatesLeast h (kids a) a new w ↔ SearchSucceeds h (kids a) a w :=
  (allocatesLeast_iff_find ht ha hnew hlive hw).trans (find_passes_iff hw (ht.inOrder ha))

/-! ## Runs of the search -/

section

/-- All ports are free, and there is a descriptor at 1. -/
def freePorts : Heap Nat 32 := ioports.kzalloc 1

/-- The same for a root that covers all addresses. -/
def freeMemory : Heap Nat 32 := { freePorts with end_ := fun a => if a = 0 then 0xffffffff else 0 }

theorem not_reach_one : ¬ Reach (fun _ : Nat => []) 0 1 := by
  intro hr
  cases hr with
  | tail _ hc => cases hc

theorem freePorts_tree : Tree freePorts 0 fun _ => [] :=
  ioports_initial.tree.frame (kzalloc_unchanged not_reach_one)

theorem freeMemory_tree : Tree freeMemory 0 fun _ => [] := Initial.tree ⟨rfl, rfl, by decide⟩

/-- 16 ports, aligned. -/
def sixteenPorts : Wish 32 := ⟨16, 0, 0xffff, 16, none⟩

/-- The port 5. -/
def onePort : Wish 32 := ⟨1, 5, 5, 1, none⟩

/-- 4 addresses above the last multiple of 16. -/
def lastAddresses : Wish 32 := ⟨4, 0xfffffff1, 0xffffffff, 16, none⟩

theorem allocateResource_least_iff_sixteenPorts :
    Tree freePorts 0 (fun _ => []) ∧ freePorts.live 1 = true ∧ sixteenPorts.Proper ∧
      AllocatesLeast freePorts [] 0 1 sixteenPorts := by
  have hproper : sixteenPorts.Proper := ⟨by decide, ⟨4, rfl⟩, rfl⟩
  have hsuit : Suitable freePorts [] 0 sixteenPorts sixteenPorts.size.toNat 0 :=
    ⟨by decide, by decide, by decide, by decide, by decide, by simp⟩
  refine ⟨freePorts_tree, rfl, hproper,
    (allocateResource_least_iff freePorts_tree .refl not_reach_one rfl hproper).mpr ⟨?_, ?_⟩⟩
  · intro hone
    cases hone
  · intro hno
    exact absurd ⟨0, hsuit⟩ hno

/-- The port 5 is free, and is not found; and 4 addresses from 0xfffffff1 on that are aligned
to 16 do not exist, but the addresses 0 to 3 are returned. -/
theorem allocateResource_led_astray :
    (Tree freePorts 0 (fun _ => []) ∧ onePort.Proper ∧ Suitable freePorts [] 0 onePort 1 5 ∧
      ¬ AllocatesLeast freePorts [] 0 1 onePort) ∧
    Tree freeMemory 0 (fun _ => []) ∧ lastAddresses.Proper ∧
      ∃ h', allocateResource freeMemory 0 1 lastAddresses = some (h', none) ∧ h'.start 1 = 0 ∧
        h'.end_ 1 = 3 := by
  have hport : Suitable freePorts [] 0 onePort 1 5 :=
    ⟨by decide, by decide, by decide, by decide, by decide, by simp⟩
  have hfind : allocateResource freePorts 0 1 onePort =
      some (freePorts.setRange 1 5 5, some .EBUSY) := by
    unfold allocateResource findResource
    rw [findLoop]
    rfl
  refine ⟨⟨freePorts_tree, ⟨by decide, ⟨0, rfl⟩, rfl⟩, hport, ?_⟩, freeMemory_tree,
    ⟨by decide, ⟨4, rfl⟩, rfl⟩, (freeMemory.setRange 1 0 3).link 0 1 (.child 0), ?_, rfl, rfl⟩
  · rintro ⟨h', err, heq, hiff, -⟩
    rw [hfind] at heq
    cases heq
    cases hiff.mpr ⟨5, hport⟩
  · have hfound : findResource freeMemory 0 1 lastAddresses =
        some (freeMemory.setRange 1 0 3, none) := by
      unfold findResource
      rw [findLoop]
      rfl
    have hrequest : requestResource' (freeMemory.setRange 1 0 3) 0 1 =
        some ((freeMemory.setRange 1 0 3).link 0 1 (.child 0), none) :=
      requestResource'_empty rfl rfl ⟨by decide, by decide, by decide⟩ rfl
    unfold allocateResource
    rw [hfound]
    simp only [Option.bind_eq_bind, Option.bind_some, hrequest]
    rfl

end

end LinuxKernel.Kernel.Resource
