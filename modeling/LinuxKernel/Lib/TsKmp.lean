/-
  Knuth-Morris-Pratt search in a text that comes in blocks.

  Source: lib/ts_kmp.c; include/linux/textsearch.h, `alloc_ts_config`.

  The table and the pattern are lists, and what would be read outside of them is `none`.
  Positions in the text are of type `unsigned int`.
-/
import LinuxKernel.Foundation.Loop
import LinuxKernel.Foundation.Matching

namespace LinuxKernel.Lib.TsKmp

open Foundation List

/-! ## The code -/

section

def uintMax : Nat := 2 ^ 32 - 1

/-- `while (q > 0 && pattern[q] != c) q = prefix_tbl[q - 1];` -/
def fallBack (pattern : List UInt8) (prefixTbl : List Nat) (c : UInt8) : Nat → Option Nat :=
  loop fun q =>
    if q = 0 then some (.inl q)
    else
      match pattern[q]? with
      | none => none
      | some b => if b ≠ c then (prefixTbl[q - 1]?).map .inr else some (.inl q)

/-- The loop above and `if (pattern[q] == c) q++;` -/
def advance (pattern : List UInt8) (prefixTbl : List Nat) (q : Nat) (c : UInt8) : Option Nat :=
  match fallBack pattern prefixTbl c q with
  | none => none
  | some q => (pattern[q]?).map fun b => if b = c then q + 1 else q

/-- The loop of `compute_prefix_tbl`, with `left` rounds to go. -/
def prefixTblFrom (pattern : List UInt8) :
    (left k q : Nat) → (prefixTbl : List Nat) → Option (List Nat)
  | 0, _, _, prefixTbl => some prefixTbl
  | left + 1, k, q, prefixTbl =>
    match pattern[q]? with
    | none => none
    | some c =>
      match advance pattern prefixTbl k c with
      | none => none
      | some k => prefixTblFrom pattern left k (q + 1) (prefixTbl.set q k)

/-- `compute_prefix_tbl`, for a table that `alloc_ts_config` has set to zero -/
def computePrefixTbl (pattern : List UInt8) : Option (List Nat) :=
  prefixTblFrom pattern (pattern.length - 1) 0 1 (List.replicate pattern.length 0)

structure Kmp where
  pattern : List UInt8
  prefixTbl : List Nat

/-- `kmp_init`, when there is memory -/
def kmpInit (pattern : List UInt8) : Option Kmp :=
  (computePrefixTbl pattern).map fun prefixTbl => ⟨pattern, prefixTbl⟩

/-- The inner loop of `kmp_find`: the new `state->offset`, or `q` at the end of the block -/
def scanBlock (kmp : Kmp) (consumed : Nat) : (text : List UInt8) → (i q : Nat) → Option (Nat ⊕ Nat)
  | [], _, q => some (.inr q)
  | c :: text, i, q =>
    match advance kmp.pattern kmp.prefixTbl q c with
    | none => none
    | some q =>
      if q = kmp.pattern.length then some (.inl ((consumed + i + 1) % 2 ^ 32))
      else scanBlock kmp consumed text (i + 1) q

/-- `kmp_find`: what it returns, and `state->offset` afterwards -/
def kmpFind (kmp : Kmp) (getNextBlock : Nat → List UInt8) (offset : Nat) : Option (Nat × Nat) :=
  loop (fun (consumed, q) =>
    let text := getNextBlock consumed
    if text.length = 0 then some (.inl (uintMax, offset))
    else
      match scanBlock kmp consumed text 0 q with
      | none => none
      | some (.inl offset) =>
        some (.inl ((offset + (2 ^ 32 - kmp.pattern.length)) % 2 ^ 32, offset))
      | some (.inr q) => some (.inr ((consumed + text.length) % 2 ^ 32, q))) (offset, 0)

end

/-! ## The table -/

section

variable {pattern text : List UInt8} {prefixTbl : List Nat} {c : UInt8} {q k : Nat}

/-- The first `n` entries of the table are the longest proper borders. -/
def TableUpTo (pattern : List UInt8) (prefixTbl : List Nat) (n : Nat) : Prop :=
  ∀ q < n, ∃ k, prefixTbl[q]? = some k ∧ Longest pattern (pattern.take (q + 1)).tail k

theorem fallBack_spec : ∀ (q : Nat), TableUpTo pattern prefixTbl q → q < pattern.length →
    ∃ q', fallBack pattern prefixTbl c q = some q' ∧ Ends pattern (pattern.take q) q' ∧ q' ≤ q ∧
      (q' = 0 ∨ pattern[q']? = some c) ∧
      ∀ r, Ends pattern (pattern.take q) r → pattern[r]? = some c → r ≤ q' := by
  intro q
  induction q using Nat.strong_induction_on with
  | _ q ih =>
    intro htable hq
    by_cases hzero : q = 0
    · subst hzero
      refine ⟨0, loop_done (by rw [if_pos rfl]), ends_zero _ _, Nat.le_refl _, .inl rfl, ?_⟩
      intro r hr _
      simpa using hr.le_length
    have hget := getElem?_eq_getElem hq
    by_cases hc : pattern[q] = c
    · refine ⟨q, loop_done ?_, ends_self (Nat.le_of_lt hq), Nat.le_refl _, .inr ?_, ?_⟩
      · rw [if_neg hzero, hget]
        dsimp only
        rw [if_neg (not_not.mpr hc)]
      · rw [hget, hc]
      · intro r hr _
        have hle := hr.le_length
        rw [length_take] at hle
        omega
    · -- the longest border is tried next, and the shorter ones are its borders
      obtain ⟨k, hk, hlongest⟩ := htable (q - 1) (by omega)
      rw [Nat.sub_add_cancel (Nat.pos_of_ne_zero hzero)] at hlongest
      obtain ⟨hborder, hkq⟩ := (ends_tail (Nat.le_of_lt hq) (Nat.pos_of_ne_zero hzero)).mp
        hlongest.ends
      obtain ⟨q', heq, hends, hle, hstop, hgreatest⟩ :=
        ih k hkq (fun j hj => htable j (by omega)) (by omega)
      refine ⟨q', ?_, hborder.trans hends, by omega, hstop, fun r hr hrc => ?_⟩
      · rw [← heq]
        refine loop_next ?_
        rw [if_neg hzero, hget]
        dsimp only
        rw [if_pos hc, hk]
        rfl
      · have hrq : r ≠ q := by
          rintro rfl
          exact hc (Option.some.inj (hget.symm.trans hrc))
        have hrlen := hr.le_length
        rw [length_take] at hrlen
        have htail := (ends_tail (Nat.le_of_lt hq) (Nat.pos_of_ne_zero hzero)).mpr ⟨hr, by omega⟩
        exact hgreatest r (hborder.of_le hr (hlongest.greatest r htail)) hrc

/-- One more byte. -/
theorem advance_spec (htable : TableUpTo pattern prefixTbl q) (hq : q < pattern.length)
    (h : Longest pattern text q) (c : UInt8) :
    ∃ q', advance pattern prefixTbl q c = some q' ∧ Longest pattern (text ++ [c]) q' := by
  obtain ⟨q', heq, hends, hle, hstop, hgreatest⟩ := fallBack_spec q htable hq
  have hget := getElem?_eq_getElem (Nat.lt_of_le_of_lt hle hq)
  unfold advance
  rw [heq]
  dsimp only
  rw [hget, Option.map_some]
  split
  · rename_i hc
    rw [hc] at hget
    exact ⟨q' + 1, rfl, h.snoc hends hgreatest hget⟩
  rename_i hc
  rw [hget] at hstop
  have hzero : q' = 0 := hstop.resolve_right fun heq => hc (Option.some.inj heq)
  subst hzero
  refine ⟨0, rfl, h.snoc_zero fun r hr hrc => hc ?_⟩
  obtain rfl := Nat.le_zero.mp (hgreatest r hr hrc)
  exact Option.some.inj (hget.symm.trans hrc)

theorem prefixTblFrom_spec (left k q : Nat) (prefixTbl : List Nat) (hq : q + left = pattern.length)
    (hpos : 0 < q) (hlen : prefixTbl.length = pattern.length)
    (htable : TableUpTo pattern prefixTbl q) (hk : Longest pattern (pattern.take q).tail k) :
    ∃ prefixTbl', prefixTblFrom pattern left k q prefixTbl = some prefixTbl' ∧
      TableUpTo pattern prefixTbl' pattern.length := by
  induction left generalizing k q prefixTbl with
  | zero => exact ⟨prefixTbl, rfl, hq ▸ htable⟩
  | succ left ih =>
    have hlt : q < pattern.length := by omega
    have hkq : k < q := ((ends_tail (Nat.le_of_lt hlt) hpos).mp hk.ends).2
    obtain ⟨k', heq, hk'⟩ := advance_spec (fun j hj => htable j (by omega)) (by omega) hk pattern[q]
    -- reading the next byte of the pattern makes the prefix longer by one
    have htail : (pattern.take q).tail ++ [pattern[q]] = (pattern.take (q + 1)).tail := by
      rw [take_succ_eq_append_getElem hlt, tail_append_of_ne_nil]
      intro hnil
      have hl := congrArg length hnil
      rw [length_take, length_nil] at hl
      omega
    rw [htail] at hk'
    rw [prefixTblFrom, getElem?_eq_getElem hlt]
    dsimp only
    rw [heq]
    refine ih k' (q + 1) _ (by omega) (by omega) (by rw [length_set, hlen]) ?_ hk'
    intro j hj
    by_cases hjq : j = q
    · subst hjq
      exact ⟨k', getElem?_set_self (by omega), hk'⟩
    · obtain ⟨m, hm, hlongest⟩ := htable j (by omega)
      exact ⟨m, by rw [getElem?_set_ne (Ne.symm hjq), hm], hlongest⟩

theorem computePrefixTbl_spec (hne : pattern ≠ []) :
    ∃ prefixTbl, computePrefixTbl pattern = some prefixTbl ∧
      TableUpTo pattern prefixTbl pattern.length := by
  have hpos := length_pos_iff.mpr hne
  have hfirst : Longest pattern (pattern.take 1).tail 0 := by
    obtain ⟨b, rest, rfl⟩ := exists_cons_of_ne_nil hne
    exact longest_nil (b :: rest)
  refine prefixTblFrom_spec (pattern.length - 1) 0 1 _ (by omega) (by omega)
    (length_replicate) ?_ hfirst
  intro q hq
  obtain rfl : q = 0 := by omega
  exact ⟨0, by rw [getElem?_replicate, if_pos hpos], hfirst⟩

theorem kmpInit_spec (hne : pattern ≠ []) : ∃ kmp, kmpInit pattern = some kmp ∧
    kmp.pattern = pattern ∧ TableUpTo pattern kmp.prefixTbl pattern.length := by
  obtain ⟨prefixTbl, heq, htable⟩ := computePrefixTbl_spec hne
  exact ⟨⟨pattern, prefixTbl⟩, by rw [kmpInit, heq]; rfl, rfl, htable⟩

end

/-! ## The search -/

section

/-- `get_next_block` hands the text out in blocks that are not empty. -/
def Delivers (text : List UInt8) (getNextBlock : Nat → List UInt8) : Prop :=
  ∀ consumed, getNextBlock consumed <+: text.drop consumed ∧
    (consumed < text.length → getNextBlock consumed ≠ [])

variable {kmp : Kmp} {pattern text : List UInt8} {getNextBlock : Nat → List UInt8} {o n q : Nat}

/-- `n` bytes from `o` on have been read, without an occurrence so far. -/
structure Reading (pattern text : List UInt8) (o n q : Nat) : Prop where
  read : n ≤ (text.drop o).length
  longest : Longest pattern ((text.drop o).take n) q
  short : q < pattern.length
  none_yet : ∀ p, o ≤ p → p + pattern.length ≤ o + n → ¬ OccursAt pattern text p

/-- One more byte: the pattern ends here, or the search goes on. -/
theorem Reading.next (h : Reading pattern text o n q)
    (htable : TableUpTo pattern kmp.prefixTbl pattern.length) {c : UInt8}
    (hc : (text.drop o)[n]? = some c) : ∃ q', advance pattern kmp.prefixTbl q c = some q' ∧
      (q' = pattern.length ∧ (∃ p, p + pattern.length = o + n + 1 ∧ FirstFrom pattern text o p) ∨
        q' ≠ pattern.length ∧ Reading pattern text o (n + 1) q') := by
  obtain ⟨hlt, hget⟩ := List.getElem?_eq_some_iff.mp hc
  obtain ⟨q', heq, hq'⟩ := advance_spec (fun j hj => htable j (Nat.lt_trans hj h.short)) h.short
    h.longest c
  have htake : (text.drop o).take n ++ [c] = (text.drop o).take (n + 1) := by
    rw [take_succ_eq_append_getElem hlt, hget]
  rw [htake] at hq'
  refine ⟨q', heq, ?_⟩
  by_cases hfull : q' = pattern.length
  · subst hfull
    obtain ⟨p, hop, hlen, hoccurs⟩ := (suffix_take_iff hlt).mp (ends_length.mp hq'.ends)
    refine .inl ⟨rfl, p, by omega, hop, hoccurs, fun p' hop' hlt' => ?_⟩
    exact h.none_yet p' hop' (by omega)
  have hle := hq'.ends.1
  refine .inr ⟨hfull, hlt, hq', by omega, fun p hop hp hoccurs => ?_⟩
  by_cases hend : p + pattern.length = o + (n + 1)
  · -- an occurrence that ends here would be the longest prefix
    have hends := ends_length.mpr ((suffix_take_iff hlt).mpr ⟨p, hop, hend, hoccurs⟩)
    have := hq'.greatest _ hends
    omega
  · exact h.none_yet p hop (by omega) hoccurs

theorem scanBlock_spec (hkmp : kmp.pattern = pattern)
    (htable : TableUpTo pattern kmp.prefixTbl pattern.length) (consumed : Nat) (block : List UInt8)
    (i n q : Nat) (h : Reading pattern text o n q) (hblock : block <+: (text.drop o).drop n)
    (hi : consumed + i = o + n) : ∃ out, scanBlock kmp consumed block i q = some out ∧
      ((∃ p, out = .inl ((p + pattern.length) % 2 ^ 32) ∧ FirstFrom pattern text o p) ∨
        ∃ q', out = .inr q' ∧ Reading pattern text o (n + block.length) q') := by
  induction block generalizing i n q with
  | nil => exact ⟨_, rfl, .inr ⟨q, rfl, h⟩⟩
  | cons c block ih =>
    obtain ⟨rest, hrest⟩ := hblock
    have hc : (text.drop o)[n]? = some c := by
      have hhead := congrArg head? hrest
      rw [head?_drop] at hhead
      exact hhead.symm
    obtain ⟨q', heq, hnext⟩ := h.next htable hc
    rw [scanBlock, hkmp, heq]
    dsimp only
    rcases hnext with ⟨hfull, p, hp, hfirst⟩ | ⟨hmore, hreading⟩
    · rw [if_pos hfull]
      refine ⟨_, rfl, .inl ⟨p, ?_, hfirst⟩⟩
      rw [hp, hi]
    rw [if_neg hmore]
    have htail : block <+: (text.drop o).drop (n + 1) := by
      refine ⟨rest, ?_⟩
      rw [← drop_drop, ← hrest]
      rfl
    obtain ⟨out, hout, hcases⟩ := ih (i + 1) (n + 1) q' hreading htail (by omega)
    refine ⟨out, hout, ?_⟩
    rw [length_cons, show n + (block.length + 1) = n + 1 + block.length by omega]
    exact hcases

/-- What `kmp_find` returns, with `state->offset` afterwards. -/
def Found (pattern text : List UInt8) (o : Nat) (out : Nat × Nat) : Prop :=
  (∃ p, FirstFrom pattern text o p ∧ out = (p, p + pattern.length)) ∨
    (∀ p, o ≤ p → ¬ OccursAt pattern text p) ∧ out = (uintMax, o)

theorem kmpFind_spec (hne : pattern ≠ []) (hkmp : kmp.pattern = pattern)
    (htable : TableUpTo pattern kmp.prefixTbl pattern.length)
    (hdelivers : Delivers text getNextBlock) (hlen : text.length < uintMax) (o : Nat) :
    ∃ out, kmpFind kmp getNextBlock o = some out ∧ Found pattern text o out := by
  have hpos := length_pos_iff.mpr hne
  -- every round reads one block
  refine loop_of_measure (fun x => ∃ n, x.1 = o + n ∧ Reading pattern text o n x.2)
    (fun x => text.length - x.1) ?_ ⟨0, rfl, ?_⟩
  · rintro ⟨consumed, q⟩ ⟨n, rfl, hreading⟩
    obtain ⟨hblock, hempty⟩ := hdelivers (o + n)
    dsimp only
    by_cases hzero : (getNextBlock (o + n)).length = 0
    · rw [if_pos hzero]
      refine .inl ⟨_, rfl, .inr ⟨fun p hop hoccurs => ?_, rfl⟩⟩
      have hend : ¬ o + n < text.length := fun hlt => hempty hlt (length_eq_zero_iff.mp hzero)
      have hle := hoccurs.le_length hne
      exact hreading.none_yet p hop (by omega) hoccurs
    rw [if_neg hzero]
    have hle := hblock.length_le
    rw [length_drop] at hle
    rw [← drop_drop] at hblock
    obtain ⟨out, hout, hcases⟩ :=
      scanBlock_spec hkmp htable (o + n) (getNextBlock (o + n)) 0 n q hreading hblock rfl
    rw [hout]
    rcases hcases with ⟨p, rfl, hfirst⟩ | ⟨q', rfl, hnext⟩
    · have hp := hfirst.occurs.le_length hne
      refine .inl ⟨_, rfl, .inl ⟨p, hfirst, ?_⟩⟩
      rw [hkmp]
      unfold uintMax at hlen
      refine Prod.ext ?_ ?_
      · omega
      · omega
    · have hsmall : o + n + (getNextBlock (o + n)).length < 2 ^ 32 := by
        unfold uintMax at hlen
        omega
      refine .inr ⟨_, rfl, ⟨n + (getNextBlock (o + n)).length, ?_, hnext⟩, ?_⟩
      · rw [Nat.mod_eq_of_lt hsmall, Nat.add_assoc]
      · omega
  · refine ⟨Nat.zero_le _, ?_, hpos, fun p hop hp => ?_⟩
    · exact longest_nil pattern
    · omega

/-- The search is exact however the text is cut into blocks. -/
theorem kmp_find_exact (hne : pattern ≠ []) (hdelivers : Delivers text getNextBlock)
    (hlen : text.length < uintMax) (offset : Nat) :
    ∃ kmp ret offset', kmpInit pattern = some kmp ∧
      kmpFind kmp getNextBlock offset = some (ret, offset') ∧
      (ret = uintMax ↔ ∀ p, offset ≤ p → ¬ OccursAt pattern text p) ∧
      (ret ≠ uintMax → FirstFrom pattern text offset ret ∧ offset' = ret + pattern.length) := by
  obtain ⟨kmp, hinit, hkmp, htable⟩ := kmpInit_spec hne
  obtain ⟨⟨ret, offset'⟩, heq, hfound⟩ := kmpFind_spec hne hkmp htable hdelivers hlen offset
  refine ⟨kmp, ret, offset', hinit, heq, ?_⟩
  rcases hfound with ⟨p, hfirst, hout⟩ | ⟨hnone, hout⟩
  · obtain ⟨rfl, rfl⟩ := Prod.mk.inj hout
    have hp := hfirst.occurs.le_length hne
    exact ⟨⟨fun h => by omega, fun h => absurd hfirst.occurs (h ret hfirst.le)⟩,
      fun _ => ⟨hfirst, rfl⟩⟩
  · obtain ⟨rfl, rfl⟩ := Prod.mk.inj hout
    exact ⟨⟨fun _ => hnone, fun _ => rfl⟩, fun h => absurd rfl h⟩

/-- "aab" in "aaab", one byte at a time. -/
theorem kmp_find_exact_aab : ∃ kmp ret offset', kmpInit [97, 97, 98] = some kmp ∧
    kmpFind kmp (fun consumed => ([97, 97, 97, 98].drop consumed).take 1) 0 = some (ret, offset') ∧
    (ret = uintMax ↔ ∀ p, 0 ≤ p → ¬ OccursAt [97, 97, 98] ([97, 97, 97, 98] : List UInt8) p) ∧
    (ret ≠ uintMax → FirstFrom [97, 97, 98] ([97, 97, 97, 98] : List UInt8) 0 ret ∧
      offset' = ret + 3) := by
  refine @kmp_find_exact [97, 97, 98] [97, 97, 97, 98] _ (by decide) ?_ (by decide) 0
  intro consumed
  refine ⟨ take_prefix _ _, fun hlt hnil => ?_⟩
  have hl := congrArg length hnil
  rw [length_take, length_drop] at hl
  simp only [length_nil] at hl hlt
  omega

end

end LinuxKernel.Lib.TsKmp
