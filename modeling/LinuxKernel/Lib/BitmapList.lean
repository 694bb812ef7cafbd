/-
  Bitmaps from lists of numbers and ranges.

  Source: lib/bitmap.c (`bitmap_parselist`), lib/vsprintf.c (`simple_strtoul`).

  A string is the bytes before its NUL.  The parser takes more than lists (`Loose`): numbers
  wrap, a comma may stand at the end, and nothing is read after a newline.  A list is read
  item by item (`parselistFrom_list`), and nothing else is accepted (`parselistFrom_sound`).
-/
import LinuxKernel.Lib.BitmapShift
import LinuxKernel.Lib.Vsprintf

namespace LinuxKernel.Lib.BitmapList

open Foundation List Function

variable {rest : List UInt8} {l : List (Nat × Nat)} {p item : Nat × Nat}
open Lib.Vsprintf
open Lib.BitmapShift

/-! ## Numbers -/

section

/-- `*cp` -/
def peek (cp : List UInt8) : UInt8 := cp.headD 0

@[simp] theorem peek_cons (c : UInt8) (cp : List UInt8) : peek (c :: cp) = c := rfl

/-- The loop of `simple_strtoul` -/
def strtoulDigits (w base : Nat) : List UInt8 → Nat → Nat × List UInt8
  | [], result => (result, [])
  | c :: cp, result =>
    if isxdigit c ∧ unhex c < base then strtoulDigits w base cp ((result * base + unhex c) % 2 ^ w)
    else (result, c :: cp)

/-- The base, and where the digits begin -/
def strtoulBase (cp : List UInt8) (base : Nat) : Nat × List UInt8 :=
  if base = 0 then
    if peek cp = ch '0' then
      let cp := cp.tail
      if toupper (peek cp) = ch 'X' ∧ isxdigit (peek cp.tail) then (16, cp.tail) else (8, cp)
    else (10, cp)
  else if base = 16 then
    if peek cp = ch '0' ∧ toupper (peek cp.tail) = ch 'X' then (16, cp.tail.tail) else (16, cp)
  else (base, cp)

/-- `simple_strtoul` -/
def simpleStrtoul (w : Nat) (cp : List UInt8) (base : Nat) : Nat × List UInt8 :=
  let start := strtoulBase cp base
  strtoulDigits w start.1 start.2 0

/-- The digits of base ten. -/
theorem decimal_iff (c : UInt8) : isxdigit c ∧ unhex c < 10 ↔ isdigit c := by
  unfold unhex
  constructor
  · rintro ⟨-, hlt⟩
    by_contra hno
    rw [if_neg hno] at hlt
    omega
  · intro h
    refine ⟨by simp [isxdigit, h], ?_⟩
    rw [if_pos h]
    simp only [isdigit, Bool.and_eq_true, decide_eq_true_eq, UInt8.le_iff_toNat_le] at h
    have hnine : (ch '9').toNat = 57 := rfl
    omega

/-- The value of digits. -/
def decValue (ds : List UInt8) : Nat := ds.foldl (fun v c => v * 10 + unhex c) 0

/-- The digits are read up to the first character that is none. -/
theorem strtoulDigits_decimal (w : Nat) (cp : List UInt8) (result : Nat) :
    strtoulDigits w 10 cp (result % 2 ^ w) =
      ((cp.takeWhile isdigit).foldl (fun v c => v * 10 + unhex c) result % 2 ^ w,
        cp.dropWhile isdigit) := by
  induction cp generalizing result with
  | nil => rfl
  | cons c cp ih =>
    rw [strtoulDigits]
    by_cases hc : isdigit c = true
    · have hmod : (result % 2 ^ w * 10 + unhex c) % 2 ^ w = (result * 10 + unhex c) % 2 ^ w := by
        rw [Nat.add_mod, Nat.mod_mul_mod, ← Nat.add_mod]
      rw [if_pos ((decimal_iff c).mpr hc), hmod, ih, takeWhile_cons_of_pos hc,
        dropWhile_cons_of_pos hc]
      rfl
    · rw [if_neg fun h => hc ((decimal_iff c).mp h), takeWhile_cons_of_neg hc,
        dropWhile_cons_of_neg hc]
      rfl

theorem simpleStrtoul_decimal (w : Nat) (cp : List UInt8) :
    simpleStrtoul w cp 10 = (decValue (cp.takeWhile isdigit) % 2 ^ w, cp.dropWhile isdigit) := by
  have hread := strtoulDigits_decimal w cp 0
  exact hread

end

/-! ## The parser -/

section

variable {w : Nat}

def einval : Int := 22

def erange : Int := 34

/-- `set_bit` -/
def setBit (maskp : Nat → BitVec w) (nr : Nat) : Nat → BitVec w :=
  update maskp (nr / w) (maskp (nr / w) ||| 1#w <<< (nr % w))

/-- The loop that sets the bits from `a` on -/
def setBits : (n a : Nat) → (Nat → BitVec w) → Nat → BitVec w
  | 0, _, maskp => maskp
  | n + 1, a, maskp => setBits n (a + 1) (setBit maskp a)

/-- A number, as an `unsigned int`, if there is one -/
def getNumber (w : Nat) (bp : List UInt8) : Option (Nat × List UInt8) :=
  if isdigit (peek bp) then
    let number := simpleStrtoul w bp 10
    some (number.1 % 2 ^ 32, number.2)
  else none

/-- A number or a range -/
def getItem (w : Nat) (bp : List UInt8) : Option ((Nat × Nat) × List UInt8) :=
  match getNumber w bp with
  | none => none
  | some (a, bp) =>
    if peek bp = ch '-' then
      match getNumber w bp.tail with
      | none => none
      | some (b, bp) => some ((a, b), bp)
    else some ((a, a), bp)

/-- `if (*bp == ',') bp++;` -/
def skipComma (bp : List UInt8) : List UInt8 := if peek bp = ch ',' then bp.tail else bp

theorem length_getNumber {bp : List UInt8} {a : Nat} (h : getNumber w bp = some (a, rest)) :
    rest.length < bp.length := by
  unfold getNumber at h
  split at h
  · rename_i hdigit
    cases bp with
    | nil => exact absurd hdigit (by decide)
    | cons c bp =>
      have hc : isdigit c = true := hdigit
      rw [simpleStrtoul_decimal, dropWhile_cons_of_pos hc] at h
      cases h
      exact Nat.lt_succ_of_le (dropWhile_suffix _).length_le
  · cases h

theorem length_getItem {bp : List UInt8} (h : getItem w bp = some (item, rest)) :
    rest.length < bp.length := by
  unfold getItem at h
  split at h
  · cases h
  rename_i a bp' hfirst
  have hlen := length_getNumber hfirst
  split at h
  · split at h
    · cases h
    · rename_i b bp'' hsecond
      have hlen' := length_getNumber hsecond
      rw [length_tail] at hlen'
      cases h
      omega
  · cases h
    exact hlen

theorem length_skipComma_le (bp : List UInt8) : (skipComma bp).length ≤ bp.length := by
  unfold skipComma
  split
  · rw [length_tail]
    exact Nat.sub_le _ _
  · exact le_rfl

/-- The loop of `bitmap_parselist` -/
def parselistFrom (nmaskbits : Int) (bp : List UInt8) (maskp : Nat → BitVec w) :
    Int × (Nat → BitVec w) :=
  match _hitem : getItem w bp with
  | none => (-einval, maskp)
  | some ((a, b), rest) =>
    if ¬ a ≤ b then (-einval, maskp)
    else if b ≥ (nmaskbits % 2 ^ 32).toNat then (-erange, maskp)
    else
      let maskp := setBits (b + 1 - a) a maskp
      let rest := skipComma rest
      if peek rest ≠ 0 ∧ peek rest ≠ ch '\n' then parselistFrom nmaskbits rest maskp
      else (0, maskp)
termination_by bp.length
decreasing_by
  exact Nat.lt_of_le_of_lt (length_skipComma_le _) (length_getItem _hitem)

/-- `bitmap_parselist` -/
def bitmapParselist (bp : List UInt8) (maskp : Nat → BitVec w) (nmaskbits : Int) :
    Int × (Nat → BitVec w) :=
  parselistFrom nmaskbits bp (bitmapZero maskp nmaskbits)

end

/-! ## Lists -/

variable {ds : List UInt8}

section

/-- A decimal number. -/
def Number (ds : List UInt8) : Prop := ds ≠ [] ∧ ∀ c ∈ ds, isdigit c = true

/-- A number or a range, with its two ends. -/
inductive ItemText : List UInt8 → Nat × Nat → Prop
  | number {ds : List UInt8} : Number ds → ItemText ds (decValue ds, decValue ds)
  | range {ds es : List UInt8} : Number ds → Number es →
      ItemText (ds ++ ch '-' :: es) (decValue ds, decValue es)

/-- Items with commas between them. -/
inductive ListText : List UInt8 → List (Nat × Nat) → Prop
  | item {t : List UInt8} {p : Nat × Nat} : ItemText t p → ListText t [p]
  | cons {t rest : List UInt8} {p : Nat × Nat} {l : List (Nat × Nat)} :
      ItemText t p → ListText rest l → ListText (t ++ ch ',' :: rest) (p :: l)

/-- The ranges are not empty and end below `n`. -/
def InRange (n : Nat) (l : List (Nat × Nat)) : Prop := ∀ p ∈ l, p.1 ≤ p.2 ∧ p.2 < n

/-- The bits that a list names. -/
def Named (l : List (Nat × Nat)) (i : Nat) : Prop := ∃ p ∈ l, p.1 ≤ i ∧ i ≤ p.2

variable {t t' : List UInt8} {p' : Nat × Nat} {l' : List (Nat × Nat)} {c : UInt8}

theorem Number.of_all (hne : ds ≠ []) (h : ds.all isdigit = true) : Number ds :=
  ⟨hne, all_eq_true.mp h⟩

theorem Number.not_mem (h : Number ds) (hc : isdigit c = false) : c ∉ ds := by
  intro hmem
  rw [h.2 c hmem] at hc
  cases hc

theorem Number.peek_append (h : Number ds) (rest : List UInt8) :
    isdigit (peek (ds ++ rest)) = true := by
  cases ds with
  | nil => exact absurd rfl h.1
  | cons c ds => exact h.2 c mem_cons_self

/-- The other characters of an item are hyphens. -/
theorem ItemText.not_mem (h : ItemText t p) (hc : isdigit c = false) (hne : c ≠ ch '-') :
    c ∉ t := by
  cases h with
  | number hds => exact hds.not_mem hc
  | range hds hes =>
    simp only [mem_append, mem_cons, not_or]
    exact ⟨hds.not_mem hc, hne, hes.not_mem hc⟩

theorem ItemText.not_comma (h : ItemText t p) : ch ',' ∉ t := h.not_mem rfl (by decide)

theorem ListText.not_mem (h : ListText t l) (hc : isdigit c = false) (hne : c ≠ ch '-')
    (hne' : c ≠ ch ',') : c ∉ t := by
  induction h with
  | item hitem => exact hitem.not_mem hc hne
  | cons hitem _ ih =>
    simp only [mem_append, mem_cons, not_or]
    exact ⟨hitem.not_mem hc hne, hne', ih⟩

/-- An item begins and ends with a digit. -/
theorem ItemText.digits (h : ItemText t p) :
    isdigit (peek t) = true ∧ ∃ u c, t = u ++ [c] ∧ isdigit c = true := by
  have hlast : ∀ {ds : List UInt8}, Number ds → ∃ u c, ds = u ++ [c] ∧ isdigit c = true :=
    fun {ds} hds => ⟨_, _, (dropLast_append_getLast hds.1).symm, hds.2 _ (getLast_mem hds.1)⟩
  cases h with
  | number hds =>
    refine ⟨?_, hlast hds⟩
    have hpeek := hds.peek_append []
    rwa [append_nil] at hpeek
  | @range ds es hds hes =>
    obtain ⟨u, c, hu, hc⟩ := hlast hes
    refine ⟨hds.peek_append _, ds ++ ch '-' :: u, c, ?_, hc⟩
    rw [hu, append_assoc, cons_append]

theorem ListText.digits (h : ListText t l) :
    isdigit (peek t) = true ∧ ∃ u c, t = u ++ [c] ∧ isdigit c = true := by
  induction h with
  | item hitem => exact hitem.digits
  | @cons t rest p l hitem hrest ih =>
    obtain ⟨-, u, c, rfl, hc⟩ := ih
    obtain ⟨hpeek, v, d, rfl, -⟩ := hitem.digits
    refine ⟨?_, v ++ [d] ++ ch ',' :: u, c, ?_, hc⟩
    · cases v <;> exact hpeek
    · rw [append_assoc (v ++ [d]), cons_append]

theorem ListText.peek_append (h : ListText t l) (rest : List UInt8) :
    isdigit (peek (t ++ rest)) = true := by
  obtain ⟨hpeek, u, c, rfl, -⟩ := h.digits
  cases u <;> exact hpeek

theorem append_sep_inj {α : Type} {a : α} {x y u v : List α} (hx : a ∉ x) (hy : a ∉ y)
    (h : x ++ a :: u = y ++ a :: v) : x = y ∧ u = v := by
  induction x generalizing y u v with
  | nil =>
    obtain (- | ⟨c, y⟩) := y
    · exact ⟨rfl, (cons.inj h).2⟩
    · exact absurd (mem_cons.mpr (.inl (cons.inj h).1)) hy
  | cons b x ih =>
    obtain (- | ⟨c, y⟩) := y
    · exact absurd (mem_cons.mpr (.inl (cons.inj h).1.symm)) hx
    obtain ⟨rfl, htail⟩ := cons.inj h
    obtain ⟨rfl, huv⟩ := ih (fun hmem => hx (mem_cons_of_mem _ hmem))
      (fun hmem => hy (mem_cons_of_mem _ hmem)) htail
    exact ⟨rfl, huv⟩

theorem ItemText.unique (h : ItemText t p) (h' : ItemText t p') : p = p' := by
  cases h with
  | number hds =>
    generalize ht : t = t1 at h'
    cases h' with
    | number _ => rfl
    | range _ _ => exact absurd (ht ▸ mem_append_cons_self) (hds.not_mem rfl)
  | @range ds es hds hes =>
    generalize ht : ds ++ ch '-' :: es = t1 at h'
    cases h' with
    | number hds' => exact absurd (ht ▸ mem_append_cons_self) (hds'.not_mem rfl)
    | range hds' hes' =>
      obtain ⟨rfl, rfl⟩ := append_sep_inj (hds.not_mem rfl) (hds'.not_mem rfl) ht
      rfl

/-- A text is a list in one way. -/
theorem ListText.unique (h : ListText t l) (h' : ListText t l') : l = l' := by
  induction h generalizing l' with
  | @item t p hitem =>
    generalize ht : t = t1 at h'
    cases h' with
    | item hitem' => rw [hitem.unique (ht ▸ hitem')]
    | cons _ _ => exact absurd (ht ▸ mem_append_cons_self) hitem.not_comma
  | @cons t rest p l hitem hrest ih =>
    generalize ht : t ++ ch ',' :: rest = t1 at h'
    cases h' with
    | item hitem' => exact absurd (ht ▸ mem_append_cons_self) hitem'.not_comma
    | cons hitem' hrest' =>
      obtain ⟨rfl, rfl⟩ := append_sep_inj hitem.not_comma hitem'.not_comma ht
      rw [hitem.unique hitem', ih hrest']

/-- An item may come at the end. -/
theorem ListText.append (h : ListText t l) (hitem : ItemText t' p) :
    ListText (t ++ ch ',' :: t') (l ++ [p]) := by
  induction h with
  | item hfirst => exact .cons hfirst (.item hitem)
  | cons hfirst _ ih =>
    rw [append_assoc]
    exact .cons hfirst ih

end

/-! ## What is read -/

variable {trail : List UInt8}

section

variable {w : Nat} {bp t : List UInt8} {nmaskbits : Int}

/-- The digits are all there is. -/
theorem span_digits (hds : Number ds) (hrest : isdigit (peek rest) = false) :
    (ds ++ rest).takeWhile isdigit = ds ∧ (ds ++ rest).dropWhile isdigit = rest := by
  have hnone : rest.takeWhile isdigit = [] ∧ rest.dropWhile isdigit = rest := by
    cases rest with
    | nil => exact ⟨rfl, rfl⟩
    | cons c rest =>
      have hc : ¬ isdigit c = true := by
        rw [show isdigit c = false from hrest]
        exact Bool.false_ne_true
      exact ⟨takeWhile_cons_of_neg hc, dropWhile_cons_of_neg hc⟩
  rw [takeWhile_append_of_pos hds.2, dropWhile_append_of_pos hds.2, hnone.1, hnone.2, append_nil]
  exact ⟨rfl, rfl⟩

theorem getNumber_eq (hw : 32 ≤ w) (bp : List UInt8) : getNumber w bp = if isdigit (peek bp) then
      some (decValue (bp.takeWhile isdigit) % 2 ^ 32, bp.dropWhile isdigit) else none := by
  unfold getNumber
  dsimp only
  rw [simpleStrtoul_decimal, Nat.mod_mod_of_dvd _ (Nat.pow_dvd_pow 2 hw)]

theorem getNumber_complete (hw : 32 ≤ w) (hds : Number ds) (hrest : isdigit (peek rest) = false) :
    getNumber w (ds ++ rest) = some (decValue ds % 2 ^ 32, rest) := by
  obtain ⟨htake, hdrop⟩ := span_digits hds hrest
  rw [getNumber_eq hw, if_pos (hds.peek_append rest), htake, hdrop]

theorem peek_dropWhile (bp : List UInt8) : isdigit (peek (bp.dropWhile isdigit)) = false := by
  induction bp with
  | nil => rfl
  | cons c bp ih =>
    by_cases hc : isdigit c = true
    · rw [dropWhile_cons_of_pos hc]
      exact ih
    · rw [dropWhile_cons_of_neg hc]
      exact Bool.eq_false_iff.mpr hc

theorem getNumber_sound (hw : 32 ≤ w) {a : Nat} (h : getNumber w bp = some (a, rest)) :
    ∃ ds, Number ds ∧ bp = ds ++ rest ∧ isdigit (peek rest) = false := by
  rw [getNumber_eq hw] at h
  split at h
  · rename_i hpeek
    cases h
    refine ⟨bp.takeWhile isdigit, ⟨?_, all_eq_true.mp all_takeWhile⟩,
      (takeWhile_append_dropWhile).symm, peek_dropWhile bp⟩
    cases bp with
    | nil => exact absurd hpeek (by decide)
    | cons c bp =>
      rw [peek_cons] at hpeek
      rw [takeWhile_cons_of_pos hpeek]
      exact cons_ne_nil _ _
  · cases h

/-- What the code makes of the ends of a range. -/
def wrap (p : Nat × Nat) : Nat × Nat := (p.1 % 2 ^ 32, p.2 % 2 ^ 32)

theorem getItem_complete (hw : 32 ≤ w) (h : ItemText t p) (hdigit : isdigit (peek rest) = false)
    (hrange : peek rest ≠ ch '-') : getItem w (t ++ rest) = some (wrap p, rest) := by
  unfold getItem
  cases h with
  | number hds =>
    rw [getNumber_complete hw hds hdigit]
    dsimp only
    rw [if_neg hrange]
    rfl
  | @range ds es hds hes =>
    rw [append_assoc, cons_append, getNumber_complete hw hds rfl]
    dsimp only
    rw [tail_cons, getNumber_complete hw hes hdigit]
    rfl

theorem getItem_sound (hw : 32 ≤ w) (h : getItem w bp = some (item, rest)) :
    ∃ t p, ItemText t p ∧ bp = t ++ rest ∧ isdigit (peek rest) = false := by
  unfold getItem at h
  split at h
  · cases h
  rename_i a bp' hfirst
  obtain ⟨ds, hds, rfl, hend⟩ := getNumber_sound hw hfirst
  split at h
  · rename_i hrange
    split at h
    · cases h
    rename_i b bp'' hsecond
    obtain ⟨es, hes, htail, hend'⟩ := getNumber_sound hw hsecond
    obtain ⟨-, rfl⟩ := Prod.mk.inj (Option.some.inj h)
    refine ⟨_, _, .range hds hes, ?_, hend'⟩
    cases bp' with
    | nil => exact absurd hrange (by decide)
    | cons c bp' =>
      obtain rfl : c = ch '-' := hrange
      obtain rfl : bp' = es ++ bp'' := htail
      rw [append_assoc, cons_append]
  · cases h
    exact ⟨_, _, .number hds, rfl, hend⟩

/-- What may follow a list: a comma, and then the end of the string or of the line. -/
inductive Trail : List UInt8 → Prop
  | nil : Trail []
  | newline (rest : List UInt8) : Trail (ch '\n' :: rest)
  | comma : Trail [ch ',']
  | commaNewline (rest : List UInt8) : Trail (ch ',' :: ch '\n' :: rest)

/-- The items one after the other. -/
def runItems (nmaskbits : Int) : List (Nat × Nat) → (Nat → BitVec w) → Int × (Nat → BitVec w)
  | [], maskp => (0, maskp)
  | (a, b) :: l, maskp =>
    if ¬ a ≤ b then (-einval, maskp)
    else if b ≥ (nmaskbits % 2 ^ 32).toNat then (-erange, maskp)
    else runItems nmaskbits l (setBits (b + 1 - a) a maskp)

/-- A round of the loop. -/
theorem parselistFrom_item {a b : Nat} (h : getItem w bp = some ((a, b), rest))
    (maskp : Nat → BitVec w) : parselistFrom nmaskbits bp maskp =
      if ¬ a ≤ b then (-einval, maskp)
      else if b ≥ (nmaskbits % 2 ^ 32).toNat then (-erange, maskp)
      else if peek (skipComma rest) ≠ 0 ∧ peek (skipComma rest) ≠ ch '\n' then
        parselistFrom nmaskbits (skipComma rest) (setBits (b + 1 - a) a maskp)
      else (0, setBits (b + 1 - a) a maskp) := by
  rw [parselistFrom]
  split
  · rename_i hnone
    rw [h] at hnone
    cases hnone
  · rename_i a' b' rest' hsome
    rw [h] at hsome
    obtain ⟨hitem, rfl⟩ := Prod.mk.inj (Option.some.inj hsome)
    obtain ⟨rfl, rfl⟩ := Prod.mk.inj hitem
    rfl

theorem Trail.ends (h : Trail trail) : isdigit (peek trail) = false ∧ peek trail ≠ ch '-' ∧
      ¬ (peek (skipComma trail) ≠ 0 ∧ peek (skipComma trail) ≠ ch '\n') := by
  cases h with
  | nil => exact ⟨rfl, by decide, by decide⟩
  | newline rest => exact ⟨rfl, by rw [peek_cons]; decide, fun h => h.2 rfl⟩
  | comma => exact ⟨rfl, by decide, by decide⟩
  | commaNewline rest => exact ⟨rfl, by rw [peek_cons]; decide, fun h => h.2 rfl⟩

/-- A list is read item by item, whatever may follow it. -/
theorem parselistFrom_list (hw : 32 ≤ w) (nmaskbits : Int)
    (htrail : Trail trail) (h : ListText t l) (maskp : Nat → BitVec w) :
    parselistFrom nmaskbits (t ++ trail) maskp = runItems nmaskbits (l.map wrap) maskp := by
  obtain ⟨hdigit, hrange, hend⟩ := htrail.ends
  induction h generalizing maskp with
  | @item t p hitem =>
    rw [parselistFrom_item (getItem_complete hw hitem hdigit hrange), if_neg hend]
    rfl
  | @cons t rest p l hitem hrest ih =>
    have hget : getItem w (t ++ ch ',' :: (rest ++ trail)) = some (wrap p, _) :=
      getItem_complete hw hitem rfl (by rw [peek_cons]; decide)
    have hskip : skipComma (ch ',' :: (rest ++ trail)) = rest ++ trail := rfl
    have hmore {c} (hc : isdigit c = false) : peek (rest ++ trail) ≠ c := by
      rintro rfl
      rw [hrest.peek_append] at hc
      cases hc
    rw [append_assoc, cons_append, parselistFrom_item hget, hskip,
      if_pos (And.intro (hmore rfl) (hmore rfl)), ih]
    rfl

theorem parselistFrom_none (h : getItem w bp = none) (maskp : Nat → BitVec w) :
    parselistFrom nmaskbits bp maskp = (-einval, maskp) := by
  rw [parselistFrom]
  split
  · rfl
  · rename_i a b rest hsome
    rw [h] at hsome
    cases hsome

/-- The loop ends at a NUL or a newline, with or without a comma in front. -/
theorem Trail.of_ends (hzero : 0 ∉ rest)
    (h : ¬ (peek (skipComma rest) ≠ 0 ∧ peek (skipComma rest) ≠ ch '\n')) : Trail rest := by
  have hend : ∀ {u : List UInt8}, 0 ∉ u → ¬ (peek u ≠ 0 ∧ peek u ≠ ch '\n') →
      u = [] ∨ ∃ v, u = ch '\n' :: v := by
    rintro (- | ⟨c, u⟩) hu hstop
    · exact .inl rfl
    · rw [peek_cons] at hstop
      have hc : c ≠ 0 := fun hc => hu (mem_cons.mpr (.inl hc.symm))
      refine .inr ⟨u, ?_⟩
      rw [not_not.mp fun hne => hstop ⟨hc, hne⟩]
  unfold skipComma at h
  split at h
  · rename_i hcomma
    cases rest with
    | nil => exact .nil
    | cons c rest =>
      obtain rfl : c = ch ',' := hcomma
      rcases hend (fun hmem => hzero (mem_cons_of_mem _ hmem)) h with rfl | ⟨v, rfl⟩
      · exact .comma
      · exact .commaNewline v
  · rcases hend hzero h with rfl | ⟨v, rfl⟩
    · exact .nil
    · exact .newline v

/-- What is accepted is a list, with something behind it. -/
theorem parselistFrom_sound (hw : 32 ≤ w) (bp : List UInt8)
    (maskp : Nat → BitVec w) (hbp : 0 ∉ bp) (h : (parselistFrom nmaskbits bp maskp).1 = 0) :
    ∃ t trail l, bp = t ++ trail ∧ ListText t l ∧ Trail trail := by
  induction hlen : bp.length using Nat.strong_induction_on generalizing bp maskp with
  | _ len ih =>
  cases hitem : getItem w bp with
  | none =>
    rw [parselistFrom_none hitem] at h
    cases h
  | some found =>
    obtain ⟨⟨a, b⟩, rest⟩ := found
    have hshort := length_getItem hitem
    rw [parselistFrom_item hitem] at h
    obtain ⟨t, p, ht, rfl, hdigit⟩ := getItem_sound hw hitem
    have hrest : 0 ∉ rest := fun hmem => hbp (mem_append_right _ hmem)
    split at h
    · cases h
    split at h
    · cases h
    split at h
    · have hskip := length_skipComma_le rest
      have hzero : 0 ∉ skipComma rest := by
        unfold skipComma
        split
        · exact fun hmem => hrest (mem_of_mem_tail hmem)
        · exact hrest
      obtain ⟨t', trail, l, htext, hlist, htrail⟩ := ih _ (by omega) _ _ hzero h rfl
      unfold skipComma at htext
      split at htext
      · rename_i hcomma
        cases rest with
        | nil => exact absurd hcomma (by decide)
        | cons c rest =>
          obtain rfl : c = ch ',' := hcomma
          obtain rfl : rest = t' ++ trail := htext
          refine ⟨t ++ ch ',' :: t', trail, p :: l, ?_, .cons ht hlist, htrail⟩
          rw [append_assoc, cons_append]
      · -- the next item begins with a digit, and no digit was left
        rw [htext, hlist.peek_append] at hdigit
        cases hdigit
    · rename_i hend
      exact ⟨t, rest, [p], rfl, .item ht, .of_ends hrest hend⟩

end

/-! ## What is accepted -/

section

variable {w n : Nat} {s t : List UInt8}

theorem bitsOf_setBit (hw : 0 < w) (maskp : Nat → BitVec w) (nr : Nat) :
    bitsOf (setBit maskp nr) = update (bitsOf maskp) nr true := by
  funext i
  unfold bitsOf setBit
  rw [update_apply, update_apply]
  have hi := Nat.div_add_mod i w
  have hnr := Nat.div_add_mod nr w
  have hlt := Nat.mod_lt i hw
  by_cases hword : i / w = nr / w
  · rw [if_pos hword, BitVec.getLsbD_or, one_shiftLeft hw, BitVec.getLsbD_ofNat,
      Nat.testBit_two_pow, decide_eq_true hlt, Bool.true_and, hword]
    by_cases hbit : nr % w = i % w
    · have heq : i = nr := by rw [← hi, ← hnr, hword, hbit]
      rw [if_pos heq, decide_eq_true hbit, Bool.or_true]
    · have hne : i ≠ nr := fun heq => hbit (by rw [heq])
      rw [if_neg hne, decide_eq_false hbit, Bool.or_false]
  · have hne : i ≠ nr := fun heq => hword (by rw [heq])
    rw [if_neg hword, if_neg hne]

theorem bitsOf_setBits (hw : 0 < w) (n a : Nat) (maskp : Nat → BitVec w) :
    bitsOf (setBits n a maskp) = fill true n a (bitsOf maskp) := by
  induction n generalizing a maskp with
  | zero => rfl
  | succ n ih => rw [setBits, ih, bitsOf_setBit hw, fill]

/-- The items are all taken, or the first bad one ends the parse with an error. -/
theorem runItems_spec (hw : 0 < w) (hn : n < 2 ^ 31) : ∀ (l : List (Nat × Nat)) (maskp : Nat → BitVec w),
    ((runItems n l maskp).1 = 0 ↔ InRange n l) ∧
    (InRange n l → ∀ i, bitsOf (runItems n l maskp).2 i = true ↔ bitsOf maskp i = true ∨ Named l i) := by
  intro l
  induction l with
  | nil =>
    intro maskp
    refine ⟨⟨fun _ p hp => absurd hp not_mem_nil, fun _ => rfl⟩, fun _ i => ?_⟩
    exact ⟨.inl, fun h => h.elim id fun ⟨p, hp, _⟩ => absurd hp not_mem_nil⟩
  | cons p l ih =>
    intro maskp
    obtain ⟨a, b⟩ := p
    have hcons : InRange n ((a, b) :: l) ↔ (a ≤ b ∧ b < n) ∧ InRange n l := forall_mem_cons
    rw [hcons, runItems]
    by_cases hle : a ≤ b
    · by_cases hlt : b < n
      · obtain ⟨hzero, hbits⟩ := ih (setBits (b + 1 - a) a maskp)
        rw [if_neg (not_not.mpr hle), if_neg (by omega)]
        refine ⟨hzero.trans ⟨fun h => ⟨⟨hle, hlt⟩, h⟩, fun h => h.2⟩, fun h i => ?_⟩
        rw [hbits h.2 i, bitsOf_setBits hw, fill_apply]
        unfold Named
        rw [exists_mem_cons_iff, ← or_assoc]
        refine or_congr ?_ Iff.rfl
        by_cases hi : a ≤ i ∧ i < a + (b + 1 - a)
        · rw [if_pos hi]
          exact ⟨fun _ => .inr ⟨hi.1, by dsimp only; omega⟩, fun _ => rfl⟩
        · rw [if_neg hi]
          refine ⟨.inl, fun h => h.elim id fun hin => ?_⟩
          omega
      · rw [if_neg (not_not.mpr hle), if_pos (by omega)]
        exact ⟨⟨fun h => absurd h (show ¬ -erange = 0 by decide), fun h => absurd h.1.2 hlt⟩,
          fun h => absurd h.1.2 hlt⟩
    · rw [if_pos hle]
      exact ⟨⟨fun h => absurd h (show ¬ -einval = 0 by decide), fun h => absurd h.1.1 hle⟩,
        fun h => absurd h.1.1 hle⟩

/-- A string that the code reads as a list: numbers are taken modulo `2 ^ 32`, and something
may follow. -/
structure Loose (n : Nat) (s : List UInt8) (l : List (Nat × Nat)) (trail : List UInt8) : Prop where
  text : ∃ t, s = t ++ trail ∧ ListText t l
  trail : Trail trail
  inRange : InRange n (l.map wrap)

theorem parselist_eq (hw : 32 ≤ w) (htext : ListText t l) (htrail : Trail trail)
    (maskp : Nat → BitVec w) :
    bitmapParselist (t ++ trail) maskp n = runItems n (l.map wrap) (bitmapZero maskp n) :=
  parselistFrom_list hw n htrail htext _

/-- Exactly these strings are accepted. -/
theorem parselist_accepts_iff (hw : 32 ≤ w) (hn : n < 2 ^ 31) (hs : 0 ∉ s) (maskp : Nat → BitVec w) :
    (bitmapParselist s maskp n).1 = 0 ↔ ∃ l trail, Loose n s l trail := by
  constructor
  · intro h
    obtain ⟨t, trail, l, rfl, htext, htrail⟩ := parselistFrom_sound hw s _ hs h
    rw [parselist_eq hw htext htrail] at h
    exact ⟨l, trail, ⟨t, rfl, htext⟩, htrail, (runItems_spec (by omega) hn _ _).1.mp h⟩
  · rintro ⟨l, trail, ⟨t, rfl, htext⟩, htrail, hrange⟩
    rw [parselist_eq hw htext htrail]
    exact (runItems_spec (by omega) hn _ _).1.mpr hrange

theorem wrap_eq_of_lt (h1 : p.1 < 2 ^ 32) (h2 : p.2 < 2 ^ 32) : wrap p = p :=
  Prod.ext (Nat.mod_eq_of_lt h1) (Nat.mod_eq_of_lt h2)

theorem map_wrap_of_lt (h : ∀ p ∈ l, p.1 < 2 ^ 32 ∧ p.2 < 2 ^ 32) : l.map wrap = l :=
  (map_congr_left fun p hp => wrap_eq_of_lt (h p hp).1 (h p hp).2).trans (map_id l)

theorem InRange.small (hn : n < 2 ^ 31) (h : InRange n l) (p) (hp : p ∈ l) :
    p.1 < 2 ^ 32 ∧ p.2 < 2 ^ 32 := by
  obtain ⟨hle, hlt⟩ := h p hp
  omega

/-- The bits of a list that is in range. -/
theorem parselist_bits (hw : 32 ≤ w) (hint : n + w ≤ 2 ^ 31) (htext : ListText s l)
    (hrange : InRange n l) (maskp : Nat → BitVec w) : (bitmapParselist s maskp n).1 = 0 ∧
      ∀ i < n, bitsOf (bitmapParselist s maskp n).2 i = true ↔ Named l i := by
  have heq := parselist_eq (n := n) hw htext .nil maskp
  obtain ⟨hzero, hbits⟩ := runItems_spec (n := n) (by omega) (by omega) l (bitmapZero maskp n)
  rw [append_nil, map_wrap_of_lt (hrange.small (by omega))] at heq
  rw [heq]
  refine ⟨hzero.mpr hrange, fun i hi => ?_⟩
  rw [hbits hrange i, bitsOf_bitmapZero maskp hw hint hi]
  simp

/-- The string is accepted if and only if it is a list of numbers and ranges below `n`, and
then the bits that it names are set. -/
def ParsesList (w n : Nat) (s : List UInt8) : Prop :=
  ∀ maskp : Nat → BitVec w,
    ((bitmapParselist s maskp n).1 = 0 ↔ ∃ l, ListText s l ∧ InRange n l) ∧
    ∀ l, ListText s l → (bitmapParselist s maskp n).1 = 0 →
      ∀ i < n, bitsOf (bitmapParselist s maskp n).2 i = true ↔ Named l i

/-- A list is followed by nothing if the whole string is a list, too. -/
theorem Trail.eq_nil {l' : List (Nat × Nat)} (h : Trail trail)
    (hwhole : ListText (t ++ trail) l') : trail = [] := by
  have hnewline : ch '\n' ∉ t ++ trail := hwhole.not_mem rfl (by decide) (by decide)
  rw [mem_append, not_or] at hnewline
  cases h with
  | nil => rfl
  | newline rest => exact absurd mem_cons_self hnewline.2
  | comma =>
    obtain ⟨-, u, c, hu, hc⟩ := hwhole.digits
    obtain ⟨-, hlast⟩ := append_inj' hu rfl
    rw [← (cons.inj hlast).1] at hc
    cases hc
  | commaNewline rest => exact absurd (mem_cons_of_mem _ mem_cons_self) hnewline.2

/-- The parser is right about a string if and only if, in the way in which the code reads it,
the string has no number of `2 ^ 32` or more and nothing behind the list. -/
theorem parsesList_iff (hw : 32 ≤ w) (hint : n + w ≤ 2 ^ 31) (hs : 0 ∉ s) :
    ParsesList w n s ↔ ∀ l trail, Loose n s l trail →
      trail = [] ∧ ∀ p ∈ l, p.1 < 2 ^ 32 ∧ p.2 < 2 ^ 32 := by
  have haccepts := fun maskp => parselist_accepts_iff (n := n) hw (by omega) hs maskp
  constructor
  · intro hparses l trail hloose
    have hzero := (haccepts fun _ => 0#w).mpr ⟨l, trail, hloose⟩
    obtain ⟨l', htext', hrange'⟩ := (hparses fun _ => 0#w).1.mp hzero
    obtain ⟨⟨t, rfl, htext⟩, htrail, -⟩ := hloose
    obtain rfl := htrail.eq_nil htext'
    rw [append_nil] at htext'
    refine ⟨rfl, ?_⟩
    rw [htext.unique htext']
    exact hrange'.small (by omega)
  · intro hclean maskp
    have hlist (hzero : (bitmapParselist s maskp n).1 = 0) : ∃ l, ListText s l ∧ InRange n l := by
      obtain ⟨l, trail, hloose⟩ := (haccepts maskp).mp hzero
      obtain ⟨rfl, hsmall⟩ := hclean l trail hloose
      obtain ⟨⟨t, rfl, htext⟩, -, hrange⟩ := hloose
      rw [map_wrap_of_lt hsmall] at hrange
      rw [append_nil]
      exact ⟨l, htext, hrange⟩
    refine ⟨⟨hlist, ?_⟩, ?_⟩
    · rintro ⟨l, htext, hrange⟩
      exact (parselist_bits hw hint htext hrange maskp).1
    · intro l htext hzero
      obtain ⟨l', htext', hrange⟩ := hlist hzero
      obtain rfl := htext.unique htext'
      exact (parselist_bits hw hint htext hrange maskp).2

end

end LinuxKernel.Lib.BitmapList
