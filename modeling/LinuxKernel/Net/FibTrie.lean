/-
  The child counters of a trie node.

  Source: net/ipv4/fib_trie.c, `tnode_new`, `tnode_full`, `put_child`,
  `tnode_put_child_reorg`.

  Of a child only what `tnode_full` reads is kept.  The counters are `unsigned short`.  Keys,
  parent pointers and a failed allocation are left out.
-/
import LinuxKernel.Foundation.Run

namespace LinuxKernel.Net.FibTrie

open Foundation

/-- `struct node`: a leaf, or a tnode with its position. -/
inductive Node where
  | leaf
  | tnode (pos : Nat)

/-- `struct tnode` -/
structure Tnode where
  pos : Nat
  bits : Nat
  fullChildren : BitVec 16
  emptyChildren : BitVec 16
  child : List (Option Node)

/-- `tnode_new` -/
def tnodeNew (pos bits : Nat) : Tnode :=
  ⟨pos, bits, 0, BitVec.ofNat 16 (2 ^ bits), List.replicate (2 ^ bits) none⟩

/-- `tnode_full`, for a node whose children are at the position `stop`. -/
def full (stop : Nat) : Option Node → Bool
  | none | some .leaf => false
  | some (.tnode pos) => decide (pos = stop)

def tnodeFull (tn : Tnode) : Option Node → Bool := full (tn.pos + tn.bits)

/-- `tnode_put_child_reorg`; `none` for `wasfull` is -1, and makes it `put_child`. -/
def tnodePutChildReorg (tn : Tnode) (i : Nat) (n : Option Node) (wasfull : Option Bool) :
    Option Tnode := do
  let chi ← tn.child[i]?
  if i ≥ 2 ^ tn.bits then none
  else
    let empty :=
      if n.isNone ∧ ¬ chi.isNone then tn.emptyChildren + 1
      else if ¬ n.isNone ∧ chi.isNone then tn.emptyChildren - 1
      else tn.emptyChildren
    let wasfull := wasfull.getD (tnodeFull tn chi)
    let isfull := tnodeFull tn n
    let full :=
      if wasfull ∧ ¬ isfull then tn.fullChildren - 1
      else if ¬ wasfull ∧ isfull then tn.fullChildren + 1
      else tn.fullChildren
    some { tn with fullChildren := full, emptyChildren := empty, child := tn.child.set i n }

/-- A call of one of the two; the event is the slot. -/
def step (tn : Tnode) (call : Nat × Option Node × Option Bool) : Option (Tnode × List Nat) :=
  (tnodePutChildReorg tn call.1 call.2.1 call.2.2).map (·, [call.1])

/-- `wasfull` is -1, or tells whether the old child was full. -/
def Allowed (tn : Tnode) (call : Nat × Option Node × Option Bool) : Prop :=
  ∀ b ∈ call.2.2, ∀ chi ∈ tn.child[call.1]?, b = tnodeFull tn chi

/-- The counters are the numbers of empty and of full children, modulo 2^16. -/
structure Counted (bits : Nat) (tn : Tnode) : Prop where
  bits_eq : tn.bits = bits
  length : tn.child.length = 2 ^ bits
  empty : tn.emptyChildren = BitVec.ofNat 16 (tn.child.countP Option.isNone)
  full : tn.fullChildren = BitVec.ofNat 16 (tn.child.countP (tnodeFull tn))

/-- One child is replaced: the number goes up or down by 1, or stays. -/
theorem ofNat_countP_set {l : List (Option Node)} {p : Option Node → Bool} {i : Nat}
    {chi : Option Node} (hi : l[i]? = some chi) (n : Option Node) :
    BitVec.ofNat 16 ((l.set i n).countP p) =
      if p n ∧ ¬ p chi then BitVec.ofNat 16 (l.countP p) + 1
      else if ¬ p n ∧ p chi then BitVec.ofNat 16 (l.countP p) - 1
      else BitVec.ofNat 16 (l.countP p) := by
  obtain ⟨hlt, rfl⟩ := List.getElem?_eq_some_iff.mp hi
  rw [List.countP_set hlt]
  cases hchi : p l[i] with
  | false =>
    cases p n with
    | false => simp
    | true => simpa using BitVec.ofNat_add ..
  | true =>
    obtain ⟨c, hc⟩ := Nat.exists_eq_succ_of_ne_zero
      (Nat.ne_of_gt (List.countP_pos_iff.mpr ⟨_, List.getElem_mem hlt, hchi⟩))
    rw [hc]
    cases p n with
    | false => simp [BitVec.ofNat_add]
    | true => simp

theorem Counted.step {bits : Nat} {tn tn' : Tnode} {call : Nat × Option Node × Option Bool}
    {new : List Nat} (h : Counted bits tn) (hal : Allowed tn call)
    (hstep : FibTrie.step tn call = some (tn', new)) : Counted bits tn' := by
  obtain ⟨i, n, wasfull⟩ := call
  cases hchi : tn.child[i]? with
  | none => simp [FibTrie.step, tnodePutChildReorg, hchi] at hstep
  | some chi =>
    have hlt : i < 2 ^ tn.bits := by
      rw [h.bits_eq, ← h.length]
      exact (List.getElem?_eq_some_iff.mp hchi).1
    have hwas : wasfull.getD (tnodeFull tn chi) = tnodeFull tn chi := by
      cases wasfull with
      | none => rfl
      | some b => exact hal b rfl chi hchi
    simp only [FibTrie.step, tnodePutChildReorg, hchi, hwas, Option.bind_eq_bind, Option.bind_some,
      if_neg (Nat.not_le.mpr hlt)] at hstep
    cases hstep
    refine ⟨h.bits_eq, by simpa using h.length, ?_, ?_⟩
    · simp [ofNat_countP_set hchi, h.empty]
    · have hset := ofNat_countP_set (p := tnodeFull tn) hchi n
      refine Eq.trans ?_ hset.symm
      simp only [h.full]
      cases tnodeFull tn n <;> cases tnodeFull tn chi <;> rfl

/-- After every sequence of calls the counters are the numbers of empty and of full children,
modulo 2^16: they are exact just as long as these numbers are below 2^16, so always in a node of
at most 2^15 slots. -/
theorem child_counters {pos bits : Nat} {tn : Tnode} {slots : List Nat}
    (h : RunWith Allowed step (tnodeNew pos bits) slots tn) : Counted bits tn ∧
    (tn.emptyChildren.toNat = tn.child.countP Option.isNone ↔
      tn.child.countP Option.isNone < 2 ^ 16) ∧
    (tn.fullChildren.toNat = tn.child.countP (tnodeFull tn) ↔
      tn.child.countP (tnodeFull tn) < 2 ^ 16) ∧
    (bits ≤ 15 → ∀ p, tn.child.countP p < 2 ^ 16) := by
  have hcounted : Counted bits tn := by
    refine h.invariant ⟨rfl, by simp [tnodeNew], ?_, ?_⟩ fun _ ht hal hstep => ht.step hal hstep
    · simp [tnodeNew, List.countP_replicate]
    · simp [tnodeNew, List.countP_replicate, tnodeFull, full]
  have hmod (n : Nat) : (BitVec.ofNat 16 n).toNat = n ↔ n < 2 ^ 16 := by
    rw [BitVec.toNat_ofNat]
    omega
  refine ⟨hcounted, hcounted.empty ▸ hmod _, hcounted.full ▸ hmod _, fun hbits p => ?_⟩
  calc tn.child.countP p ≤ tn.child.length := List.countP_le_length
    _ = 2 ^ bits := hcounted.length
    _ ≤ 2 ^ 15 := Nat.pow_le_pow_right (by omega) hbits
    _ < 2 ^ 16 := by decide

/-- A leaf and a full node are put into a node of two slots. -/
theorem child_counters_two : ∃ tn, RunWith Allowed step (tnodeNew 0 1) [0, 1] tn ∧
    tn.emptyChildren.toNat = tn.child.countP Option.isNone := by
  have hleaf : RunWith Allowed step (tnodeNew 0 1) [0] _ :=
    .tail (0, some .leaf, none) (.refl _) (by simp [Allowed]) rfl
  have hrun := hleaf.tail (1, some (.tnode 1), none) (by simp [Allowed]) rfl
  obtain ⟨-, hempty, -, hsmall⟩ := child_counters hrun
  exact ⟨_, hrun, hempty.mpr (hsmall (by decide) _)⟩

/-- With 2^16 slots, all of them empty. -/
theorem emptyChildren_wraps : (tnodeNew 0 16).emptyChildren = 0 ∧
    (tnodeNew 0 16).child.countP Option.isNone = 2 ^ 16 :=
  ⟨rfl, List.countP_replicate ..⟩

end LinuxKernel.Net.FibTrie
