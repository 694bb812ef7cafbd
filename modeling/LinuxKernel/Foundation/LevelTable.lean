/-
  Tries seen as tables.

  A trie with `size` slots per node puts each of its entries at a level and a
  position: position `j` at level `k` stands for the indices `i` with
  `i / size ^ k = j`.  Level 0 holds the values, level `k + 1` the nodes whose
  slots are at level `k`: the slots of the node at position `p` are the positions
  `p * size + off`, and conversely position `j` belongs to the node at `j / size`.
  The root of a trie of height `h` is position 0 of level `h`.
-/
import Mathlib

namespace LinuxKernel.Foundation

open Function

variable {π : Type} {f : Nat → Option π} {e : Nat → Nat → Option π} {size k off : Nat}

/-! ## Positions -/

theorem div_pow_succ (size i k : Nat) : i / size ^ (k + 1) = i / size ^ k / size := by
  rw [Nat.div_div_eq_div_mul, pow_succ]

/-- The positions of a node's slots. -/
theorem slot_div (p : Nat) (hoff : off < size) : (p * size + off) / size = p := by
  rw [Nat.add_comm, Nat.add_mul_div_right _ _ (by omega), Nat.div_eq_of_lt hoff, Nat.zero_add]

/-! ## Tables -/

/-- Write one entry. -/
def put (e : Nat → Nat → Option π) (k j : Nat) (v : Option π) : Nat → Nat → Option π :=
  fun k' j' => if k' = k ∧ j' = j then v else e k' j'

@[simp] theorem put_self (e : Nat → Nat → Option π) (k j : Nat) (v : Option π) :
    put e k j v k j = v := if_pos ⟨rfl, rfl⟩

theorem put_of_level_ne {k' : Nat} (j j' : Nat) (v : Option π) (hne : k' ≠ k) :
    put e k j v k' j' = e k' j' := if_neg fun h => hne h.1

theorem put_of_pos_ne {j j' : Nat} (k k' : Nat) (v : Option π) (hne : j' ≠ j) :
    put e k j v k' j' = e k' j' := if_neg fun h => hne h.2

theorem put_of_ne {k' j j' : Nat} (v : Option π) (hne : ¬ (k' = k ∧ j' = j)) :
    put e k j v k' j' = e k' j' := if_neg hne

/-- An entry is the one that was written, or an old one. -/
theorem put_eq_some {k' j j' : Nat} {v : Option π} {t : π} (h : put e k j v k' j' = some t) :
    k' = k ∧ j' = j ∧ v = some t ∨ ¬ (k' = k ∧ j' = j) ∧ e k' j' = some t := by
  by_cases hself : k' = k ∧ j' = j
  · exact .inl ⟨hself.1, hself.2, (if_pos hself).symm.trans h⟩
  · exact .inr ⟨hself, (if_neg hself).symm.trans h⟩

/-- A table of height `h`: there is nothing above the root and nothing below a
missing entry. -/
structure Table (size h : Nat) (e : Nat → Nat → Option π) : Prop where
  top : ∀ k j, h ≤ k → ¬ (k = h ∧ j = 0) → e k j = none
  closed : ∀ k j, k < h → e (k + 1) (j / size) = none → e k j = none

namespace Table

variable {h : Nat}

section

variable (ht : Table size h e)
include ht

/-- Nothing is below a missing entry, at any depth. -/
theorem none_below (hk : k ≤ h) (i : Nat) (hnone : e k (i / size ^ k) = none) : e 0 i = none := by
  induction k with
  | zero => simpa using hnone
  | succ k ih =>
    refine ih (by omega) (ht.closed k _ (by omega) ?_)
    rwa [← div_pow_succ]

/-- A value has all its ancestors. -/
theorem some_above (hk : k ≤ h) {i : Nat} (hsome : e 0 i ≠ none) :
    e k (i / size ^ k) ≠ none := fun hnone => hsome (ht.none_below hk i hnone)

/-- The values of a trie have indices below `size ^ h`. -/
theorem div_eq_zero {i : Nat} (hsome : e 0 i ≠ none) : i / size ^ h = 0 := by
  by_contra hne
  exact ht.some_above (Nat.le_refl h) hsome (ht.top h _ (Nat.le_refl h) fun heq => hne heq.2)

/-- Without a root there is nothing. -/
theorem none_of_root (hroot : e h 0 = none) (k j : Nat) : e k j = none := by
  by_cases hk : h ≤ k
  · by_cases hself : k = h ∧ j = 0
    · rw [hself.1, hself.2, hroot]
    · exact ht.top k j hk hself
  -- from the level of the root downwards
  obtain ⟨d, rfl⟩ : ∃ d, h = k + d := ⟨h - k, by omega⟩
  induction d generalizing k j with
  | zero => omega
  | succ d ih =>
    refine ht.closed k j (by omega) ?_
    by_cases hd : d = 0
    · subst hd
      by_cases hj : j / size = 0
      · rw [hj, hroot]
      · exact ht.top _ _ (Nat.le_refl _) fun heq => hj heq.2
    · have heq : k + (d + 1) = k + 1 + d := by omega
      rw [heq] at ht hroot
      exact ih (k + 1) (j / size) ht hroot (by omega)

end

/-- A table with nothing in it. -/
theorem of_none (size h : Nat) (hnone : ∀ k j, e k j = none) : Table size h e :=
  ⟨fun k j _ _ => hnone k j, fun k j _ _ => hnone k j⟩

/-- A root for an empty table. -/
theorem put_root (size h : Nat) (hnone : ∀ k j, e k j = none) (v : Option π) :
    Table size h (put e h 0 v) where
  top k j _ hne := by rw [put_of_ne v hne, hnone]
  closed k j hk _ := by rw [put_of_level_ne _ _ v (by omega), hnone]

/-- A root with nothing below it may go. -/
theorem clear_root (ht : Table size (h + 1) e) (hsize : 0 < size)
    (hnone : ∀ off < size, e h off = none) (k j : Nat) (hne : ¬ (k = h + 1 ∧ j = 0)) :
    e k j = none := by
  have htable : Table size (h + 1) (put e (h + 1) 0 none) := by
    refine ⟨fun k j hk hne => by rw [put_of_ne _ hne]; exact ht.top k j hk hne, ?_⟩
    intro k j hk habove
    rw [put_of_level_ne _ _ _ (by omega)]
    by_cases hself : k + 1 = h + 1 ∧ j / size = 0
    · obtain rfl : k = h := by omega
      exact hnone j (Nat.lt_of_div_eq_zero hsize hself.2)
    · rw [put_of_ne _ hself] at habove
      exact ht.closed k j hk habove
  have hempty := htable.none_of_root (put_self ..) k j
  rwa [put_of_ne _ hne] at hempty

/-- One more level. -/
theorem grow (ht : Table size h e) (v : π) : Table size (h + 1) (put e (h + 1) 0 (some v)) where
  top k j hk hne := by
    rw [put_of_ne _ hne]
    exact ht.top k j (by omega) (by omega)
  closed k j hk hnone := by
    rw [put_of_level_ne _ _ _ (by omega)]
    by_cases hk' : k = h
    · subst hk'
      by_cases hj : j / size = 0
      · rw [hj, put_self] at hnone
        cases hnone
      · refine ht.top k j (Nat.le_refl k) ?_
        rintro ⟨-, rfl⟩
        exact hj (Nat.zero_div size)
    · rw [put_of_level_ne _ _ _ (by omega)] at hnone
      exact ht.closed k j (by omega) hnone

/-- One level less, when the root has nothing but its first slot. -/
theorem shrink (ht : Table size (h + 1) e) (hsize : 0 < size)
    (honly : ∀ off < size, off ≠ 0 → e h off = none) : Table size h (put e (h + 1) 0 none) where
  top k j hk hne := by
    by_cases hk' : k = h
    · subst hk'
      rw [put_of_level_ne _ _ _ (by omega)]
      have hj : j ≠ 0 := fun hj => hne ⟨rfl, hj⟩
      by_cases hjs : j < size
      · exact honly j hjs hj
      · refine ht.closed k j (by omega) (ht.top _ _ (Nat.le_refl _) ?_)
        rintro ⟨-, hzero⟩
        exact hjs (Nat.lt_of_div_eq_zero hsize hzero)
    · by_cases hself : k = h + 1 ∧ j = 0
      · rw [hself.1, hself.2, put_self]
      · rw [put_of_ne _ hself]
        exact ht.top k j (by omega) hself
  closed k j hk hnone := by
    rw [put_of_level_ne _ _ _ (by omega)] at hnone ⊢
    exact ht.closed k j (by omega) hnone

/-- An entry may be replaced when nothing is below it, or when it was there. -/
theorem put_entry (ht : Table size h e) {j : Nat} (v : Option π) (hk : k < h)
    (hparent : e (k + 1) (j / size) ≠ none)
    (hbelow : ∀ k' j', k = k' + 1 → j' / size = j → v = none → e k' j' = none) :
    Table size h (put e k j v) where
  top k' j' hk' hne := by
    rw [put_of_level_ne j j' v (by omega)]
    exact ht.top k' j' hk' hne
  closed k' j' hk' hnone := by
    by_cases hself : k' = k ∧ j' = j
    · obtain ⟨rfl, rfl⟩ := hself
      rw [put_of_level_ne _ _ v (by omega)] at hnone
      exact absurd hnone hparent
    rw [put_of_ne v hself]
    by_cases habove : k' + 1 = k ∧ j' / size = j
    · obtain ⟨rfl, rfl⟩ := habove
      rw [put_self] at hnone
      exact hbelow k' j' rfl rfl hnone
    · rw [put_of_ne v habove] at hnone
      exact ht.closed k' j' hk' hnone

end Table

/-! ## Counting slots -/

/-- The number of slots in use. -/
def used (size : Nat) (f : Nat → Option π) : Nat := (List.range size).countP fun off => (f off).isSome

theorem used_congr {f g : Nat → Option π} (h : ∀ off < size, f off = g off) :
    used size f = used size g := by
  refine List.countP_congr ?_
  intro off hoff
  rw [h off (List.mem_range.mp hoff)]

theorem used_eq_zero : used size f = 0 ↔ ∀ off < size, f off = none := by simp [used]

/-- Writing one slot. -/
theorem used_update (f : Nat → Option π) (v : Option π) : ∀ {size : Nat}, off < size →
    used size (update f off v) + (if (f off).isSome then 1 else 0) =
      used size f + (if v.isSome then 1 else 0) := by
  have hout (size) (hle : size ≤ off) : used size (update f off v) = used size f := by
    refine used_congr fun o ho => ?_
    rw [update_of_ne (by omega)]
  intro size
  induction size with
  | zero => intro hoff; omega
  | succ size ih =>
    have hsucc (g : Nat → Option π) :
        used (size + 1) g = used size g + (if (g size).isSome then 1 else 0) := by
      simp [used, List.range_succ]
    rw [hsucc, hsucc]
    by_cases heq : off = size
    · subst heq
      rw [hout off (Nat.le_refl off), update_self]
      omega
    · rw [update_of_ne (Ne.symm heq)]
      omega

/-- A single slot in use is the only one. -/
theorem used_eq_one (hused : used size f = 1) (hoff : off < size) (hsome : f off ≠ none) :
    ∀ o < size, o ≠ off → f o = none := by
  have hclear := used_update f none hoff
  have hzero : used size (update f off none) = 0 := by
    rw [if_pos (Option.isSome_iff_ne_none.mpr hsome)] at hclear
    simp only [Option.isSome_none, Bool.false_eq_true, if_false] at hclear
    omega
  intro o ho hne
  have hnone := used_eq_zero.mp hzero o ho
  rwa [update_of_ne hne] at hnone

end LinuxKernel.Foundation
