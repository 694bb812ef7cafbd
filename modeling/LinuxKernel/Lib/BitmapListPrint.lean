/-
  Bitmaps as lists of numbers and ranges.

  Source: lib/bitmap.c (`bscnl_emit`, `bitmap_scnlistprintf`).

  The printer emits each run of set bits, and its text is a list that names the set bits.
  For a bitmap without a bit it writes nothing at all, and the empty string is no list.
-/
import LinuxKernel.Lib.BitmapList
import LinuxKernel.Lib.VsprintfLaw

namespace LinuxKernel.Lib.BitmapList

open Foundation List

variable {cs : List UInt8}
open Lib.Vsprintf
open Lib.BitmapShift

/-! ## The printer -/

section

variable {w : Nat} {σ : Type}

theorem findNext_gt (bits : Bits) {n cur : Nat} (h : cur < n) : cur < findNext bits true n (cur + 1) :=
  (findNext_spec bits true h).lower

/-- The loop of `bitmap_scnlistprintf`: every run of set bits is emitted -/
def eachRun (bits : Bits) (nmaskbits : Nat) (emit : Nat → Nat → σ → σ) (rbot cur : Nat) (s : σ) : σ :=
  if _hcur : cur < nmaskbits then
    let rtop := cur
    let cur := findNext bits true nmaskbits (cur + 1)
    if cur ≥ nmaskbits ∨ cur > rtop + 1 then
      eachRun bits nmaskbits emit cur cur (emit rbot rtop s)
    else eachRun bits nmaskbits emit rbot cur s
  else s
termination_by nmaskbits - cur
decreasing_by
  all_goals
    have hgt := findNext_gt bits _hcur
    omega

/-- `buflen - len`, of `int`s -/
def room (w : Nat) (buflen len : Int) : Nat := (toInt (buflen - len) % 2 ^ w).toNat

/-- The formats are without strings -/
def noStrings : Nat → List UInt8 := fun _ => []

/-- `bscnl_emit` -/
def bscnlEmit (w buf : Nat) (buflen : Int) (rbot rtop : Nat) (out : Int × (Nat → UInt8)) :
    Int × (Nat → UInt8) :=
  let out :=
    if out.1 > 0 then appendf w noStrings buf (room w buflen out.1) [ch ','] [] out.1 out.2 else out
  if rbot = rtop then
    appendf w noStrings buf (room w buflen out.1) [ch '%', ch 'd'] [rbot] out.1 out.2
  else
    appendf w noStrings buf (room w buflen out.1) [ch '%', ch 'd', ch '-', ch '%', ch 'd']
      [rbot, rtop] out.1 out.2

/-- `bitmap_scnlistprintf` -/
def bitmapScnlistprintf (mem : Nat → UInt8) (buf buflen : Nat) (maskp : Nat → BitVec w)
    (nmaskbits : Nat) : Int × (Nat → UInt8) :=
  let cur := findNext (bitsOf maskp) true nmaskbits 0
  eachRun (bitsOf maskp) nmaskbits (bscnlEmit w buf (toInt buflen)) cur cur (0, mem)

end

/-! ## The runs of a bitmap -/

section

variable {σ τ : Type} {bits : Bits} {n : Nat}

theorem eachRun_hom {emit : Nat → Nat → σ → σ} {emit' : Nat → Nat → τ → τ} {f : σ → τ}
    (hf : ∀ a b s, f (emit a b s) = emit' a b (f s)) (rbot cur : Nat) (s : σ) :
    f (eachRun bits n emit rbot cur s) = eachRun bits n emit' rbot cur (f s) := by
  induction hm : n - cur using Nat.strong_induction_on generalizing rbot cur s with
  | _ m ih =>
  rw [eachRun, eachRun]
  split
  · rename_i hcur
    have hgt := findNext_gt bits hcur
    dsimp only
    split
    · rw [ih _ (by omega) _ _ _ rfl, hf]
    · rw [ih _ (by omega) _ _ _ rfl]
  · rfl

def collect (rbot rtop : Nat) (l : List (Nat × Nat)) : List (Nat × Nat) := l ++ [(rbot, rtop)]

/-- The runs of set bits. -/
def runs (bits : Bits) (n : Nat) : List (Nat × Nat) :=
  eachRun bits n collect (findNext bits true n 0) (findNext bits true n 0) []

/-- Whatever is done with the runs, it is done with each of them. -/
theorem eachRun_eq (emit : Nat → Nat → σ → σ) (s : σ) :
    eachRun bits n emit (findNext bits true n 0) (findNext bits true n 0) s =
      (runs bits n).foldl (fun s p => emit p.1 p.2 s) s := by
  have hf (a b : Nat) (l : List (Nat × Nat)) : (collect a b l).foldl (fun s p => emit p.1 p.2 s) s =
        emit a b (l.foldl (fun s p => emit p.1 p.2 s) s) := by
    rw [collect, foldl_append]
    rfl
  exact (eachRun_hom (f := fun l : List (Nat × Nat) => l.foldl (fun s p => emit p.1 p.2 s) s)
    hf _ _ []).symm

/-- The runs below `rbot` are known, and `[rbot, cur]` is the beginning of the next one. -/
structure Seen (bits : Bits) (n rbot cur : Nat) (l : List (Nat × Nat)) : Prop where
  inRange : InRange n l
  below : ∀ i, Named l i → i < rbot
  named : ∀ i < rbot, i < n → (Named l i ↔ bits i = true)
  le : rbot ≤ cur
  set : ∀ i, rbot ≤ i → i ≤ cur → i < n → bits i = true

theorem named_collect (l : List (Nat × Nat)) (a b i : Nat) :
    Named (collect a b l) i ↔ Named l i ∨ a ≤ i ∧ i ≤ b := by
  simp [Named, collect]

theorem Seen.emit {rbot cur next : Nat} {l : List (Nat × Nat)} (h : Seen bits n rbot cur l)
    (hcur : cur < n) (hfound : Found bits true n (cur + 1) next) :
    Seen bits n next next (collect rbot cur l) := by
  have hlower := hfound.lower
  have hle := h.le
  refine ⟨forall_mem_append.mpr ⟨h.inRange, by simpa using ⟨hle, hcur⟩⟩, ?_, ?_, le_rfl, ?_⟩
  · intro i hi
    rcases (named_collect l rbot cur i).mp hi with hi | ⟨-, hi⟩
    · exact Nat.lt_of_lt_of_le (h.below i hi) (by omega)
    · omega
  · intro i hi hin
    rw [named_collect]
    rcases Nat.lt_or_ge i rbot with hlt | hge
    · rw [← h.named i hlt hin]
      exact ⟨fun hnamed => hnamed.elim id fun hin => absurd hin.1 (Nat.not_le.mpr hlt), .inl⟩
    rcases Nat.lt_or_ge cur i with hafter | hin'
    · have hclear := hfound.before i hafter hi
      refine ⟨fun hnamed => ?_, fun hset => absurd hset hclear⟩
      rcases hnamed with hnamed | hnamed
      · exact absurd (h.below i hnamed) (Nat.not_lt.mpr hge)
      · exact absurd hnamed.2 (Nat.not_le.mpr hafter)
    · exact ⟨fun _ => h.set i hge hin' hin, fun _ => .inr ⟨hge, hin'⟩⟩
  · intro i hlo hhi hin
    obtain rfl : i = next := by omega
    exact hfound.here hin

theorem eachRun_seen (rbot cur : Nat) (l : List (Nat × Nat)) (h : Seen bits n rbot cur l)
    (hend : n ≤ cur → n ≤ rbot) : InRange n (eachRun bits n collect rbot cur l) ∧
      ∀ i < n, Named (eachRun bits n collect rbot cur l) i ↔ bits i = true := by
  induction hm : n - cur using Nat.strong_induction_on generalizing rbot cur l with
  | _ m ih =>
  rw [eachRun]
  split
  · rename_i hcur
    have hgt := findNext_gt bits hcur
    have hfound := findNext_spec bits true (show cur + 1 ≤ n from hcur)
    dsimp only
    split
    · exact ih _ (by omega) _ _ _ (h.emit hcur hfound) id rfl
    refine ih _ (by omega) _ _ _ ⟨h.inRange, h.below, h.named, by have := h.le; omega, ?_⟩
      (fun hle => by omega) rfl
    intro i hlo hhi hin
    rcases Nat.lt_or_ge cur i with hafter | hle
    · obtain rfl : i = findNext bits true n (cur + 1) := by omega
      exact hfound.here hin
    · exact h.set i hlo hle hin
  · exact ⟨h.inRange, fun i hi => h.named i (Nat.lt_of_lt_of_le hi (hend (by omega))) hi⟩

/-- The runs name the set bits. -/
theorem runs_spec (bits : Bits) (n : Nat) :
    InRange n (runs bits n) ∧ ∀ i < n, Named (runs bits n) i ↔ bits i = true := by
  have hfound := findNext_spec bits true (Nat.zero_le n)
  have hnone : ∀ i, ¬ Named [] i := fun i ⟨p, hp, _⟩ => absurd hp not_mem_nil
  refine eachRun_seen _ _ [] ⟨fun p hp => absurd hp not_mem_nil,
    fun i hi => absurd hi (hnone i), ?_, le_rfl, ?_⟩ id
  · intro i hi _
    exact ⟨fun hnamed => absurd hnamed (hnone i),
      fun hset => absurd hset (hfound.before i (Nat.zero_le i) hi)⟩
  · intro i hlo hhi hin
    obtain rfl : i = findNext bits true n 0 := by omega
    exact hfound.here hin

end

/-! ## What is printed -/

section

variable {w n buf buflen : Nat} {mem : Nat → UInt8}

theorem decimal_digit : ∀ d < 10, isdigit (digit false d) = true ∧ unhex (digit false d) = d := by
  decide

theorem decValue_append (ds : List UInt8) (c : UInt8) : decValue (ds ++ [c]) = decValue ds * 10 + unhex c := by
  unfold decValue
  rw [foldl_append]
  rfl

theorem tmpDigits_decimal (fuel x : Nat) (hx : x < 10 ^ fuel) :
    (∀ d ∈ tmpDigits 10 fuel x, d < 10) ∧
      decValue ((tmpDigits 10 fuel x).reverse.map (digit false)) = x := by
  induction fuel generalizing x with
  | zero =>
    obtain rfl : x = 0 := by omega
    exact ⟨fun d hd => absurd hd not_mem_nil, rfl⟩
  | succ fuel ih =>
    rw [tmpDigits]
    split
    · rename_i hzero
      exact ⟨fun d hd => absurd hd not_mem_nil, hzero.symm⟩
    obtain ⟨hdigits, hvalue⟩ := ih (x / 10) (by omega)
    refine ⟨forall_mem_cons.mpr ⟨Nat.mod_lt _ (by decide), hdigits⟩, ?_⟩
    rw [reverse_cons, map_append]
    refine (decValue_append _ _).trans ?_
    rw [(decimal_digit (x % 10) (Nat.mod_lt _ (by decide))).2]
    omega

/-- `%d` writes a number, and its value. -/
theorem digitsText_decimal {x : Nat} (hx : x < 2 ^ 31) :
    Number (digitsText .dec false x) ∧ decValue (digitsText .dec false x) = x := by
  have hlt : x < 10 ^ 64 := Nat.lt_of_lt_of_le hx (by decide)
  obtain ⟨hdigits, hvalue⟩ := tmpDigits_decimal 64 x hlt
  unfold digitsText digitsOf
  split
  · rename_i hzero
    rw [hzero]
    exact ⟨.of_all (by decide) rfl, rfl⟩
  rename_i hne
  refine ⟨⟨?_, ?_⟩, hvalue⟩
  · rw [ne_eq, map_eq_nil_iff, reverse_eq_nil_iff]
    rw [tmpDigits, if_neg hne]
    exact cons_ne_nil _ _
  · exact forall_mem_map.mpr fun d hd => (decimal_digit d (hdigits d (mem_reverse.mp hd))).1

/-- The text of a run. -/
def itemText (p : Nat × Nat) : List UInt8 :=
  if p.1 = p.2 then digitsText .dec false p.1
  else digitsText .dec false p.1 ++ ch '-' :: digitsText .dec false p.2

theorem itemText_spec {p : Nat × Nat} (h1 : p.1 < 2 ^ 31) (h2 : p.2 < 2 ^ 31) :
    ItemText (itemText p) p := by
  obtain ⟨a, b⟩ := p
  obtain ⟨hnum, hval⟩ := digitsText_decimal h1
  obtain ⟨hnum', hval'⟩ := digitsText_decimal h2
  unfold itemText
  split
  · rename_i heq
    obtain rfl : a = b := heq
    have hitem := ItemText.number hnum
    rwa [hval] at hitem
  · have hitem := ItemText.range hnum hnum'
    rwa [hval, hval'] at hitem

/-- The text with one more run. -/
def emitText (cs : List UInt8) (p : Nat × Nat) : List UInt8 :=
  (if 0 < cs.length then cs ++ [ch ','] else cs) ++ itemText p

/-- The text of runs. -/
def listText (l : List (Nat × Nat)) : List UInt8 := l.foldl emitText []

theorem listText_spec (l : List (Nat × Nat)) (hne : l ≠ [])
    (h : ∀ p ∈ l, p.1 < 2 ^ 31 ∧ p.2 < 2 ^ 31) : ListText (listText l) l := by
  induction l using reverseRecOn with
  | nil => exact absurd rfl hne
  | append_singleton l p ih =>
    have hp := h p mem_append_cons_self
    have hitem := itemText_spec hp.1 hp.2
    unfold listText
    rw [foldl_append]
    show ListText (emitText (listText l) p) (l ++ [p])
    rcases eq_or_ne l [] with rfl | hl
    · exact .item hitem
    have htext := ih hl fun q hq => h q (mem_append_left _ hq)
    have hpos : 0 < (listText l).length := by
      obtain ⟨-, u, c, hu, -⟩ := htext.digits
      rw [hu, length_append]
      exact Nat.lt_of_lt_of_le Nat.zero_lt_one (Nat.le_add_left _ _)
    have happend := htext.append hitem
    unfold emitText
    rw [if_pos hpos, append_assoc]
    exact happend

theorem length_emitText_le (cs : List UInt8) (p : Nat × Nat) : cs.length ≤ (emitText cs p).length := by
  unfold emitText
  split
  · rw [length_append, length_append]
    omega
  · omega

theorem length_foldl_emitText_le (l : List (Nat × Nat)) (cs : List UInt8) :
    cs.length ≤ (l.foldl emitText cs).length := by
  induction l generalizing cs with
  | nil => exact le_rfl
  | cons p l ih => exact le_trans (length_emitText_le cs p) (ih _)

theorem room_eq (hw : 32 ≤ w) {len : Nat} (hint : buflen < 2 ^ 31) (hlen : len ≤ buflen) :
    room w (toInt buflen) len = buflen - len := by
  have hpow := pow_le_pow_width hw
  have hcast : (2 : Int) ^ w = ((2 ^ w : Nat) : Int) := (Int.natCast_pow 2 w).symm
  unfold room
  rw [toInt_natCast hint, toInt_of_bounds (by omega) (by omega),
    Int.emod_eq_of_lt (by omega) (by omega)]
  omega

/-- One `scnprintf` of `bscnl_emit`. -/
theorem append_room (hw : 32 ≤ w) (hint : buflen < 2 ^ 31) (hend : buf + buflen < 2 ^ w)
    {fmt : List UInt8} {args : List Nat} (hcs : Holds mem buf cs)
    (hroom : (cs ++ text w noStrings fmt args).length < buflen) :
    Written buf (cs ++ text w noStrings fmt args)
      (appendf w noStrings buf (room w (toInt buflen) cs.length) fmt args cs.length mem) := by
  rw [length_append] at hroom
  rw [room_eq hw hint (by omega)]
  exact appendf_fits hw (by omega) (by omega) (by omega) hcs

theorem text_comma : text w noStrings [ch ','] [] = [ch ','] := by
  rw [text_char (by decide), text_nil]

section

variable (hw : 32 ≤ w) (hint : buflen < 2 ^ 31) (hend : buf + buflen < 2 ^ w)
include hw hint hend

/-- The last `scnprintf` of `bscnl_emit` appends the run. -/
theorem emit_item {a b : Nat} (ha : a < 2 ^ 31) (hb : b < 2 ^ 31) (hcs : Holds mem buf cs)
    (hroom : (cs ++ itemText (a, b)).length < buflen) :
    Written buf (cs ++ itemText (a, b)) (if a = b then
        appendf w noStrings buf (room w (toInt buflen) cs.length) [ch '%', ch 'd'] [a] cs.length mem
      else
        appendf w noStrings buf (room w (toInt buflen) cs.length)
          [ch '%', ch 'd', ch '-', ch '%', ch 'd'] [a, b] cs.length mem) := by
  by_cases heq : a = b
  · have htext : text w noStrings [ch '%', ch 'd'] [a] = itemText (a, b) := by
      rw [text_decimal ha, text_nil, append_nil, itemText, if_pos heq]
    rw [← htext] at hroom ⊢
    rw [if_pos heq]
    exact append_room hw hint hend hcs hroom
  · have htext : text w noStrings [ch '%', ch 'd', ch '-', ch '%', ch 'd'] [a, b] =
        itemText (a, b) := by
      rw [text_decimal ha, text_char (by decide), text_decimal hb, text_nil, append_nil,
        itemText, if_neg heq]
    rw [← htext] at hroom ⊢
    rw [if_neg heq]
    exact append_room hw hint hend hcs hroom

/-- `bscnl_emit` appends a run. -/
theorem bscnlEmit_spec {p : Nat × Nat} (h1 : p.1 < 2 ^ 31) (h2 : p.2 < 2 ^ 31)
    (hcs : Holds mem buf cs) (hroom : (emitText cs p).length < buflen) :
    Written buf (emitText cs p) (bscnlEmit w buf (toInt buflen) p.1 p.2 (cs.length, mem)) := by
  unfold bscnlEmit
  unfold emitText at hroom ⊢
  by_cases hpos : 0 < cs.length
  · rw [if_pos hpos] at hroom ⊢
    have hcomma : (cs ++ text w noStrings [ch ','] []).length < buflen := by
      rw [text_comma]
      rw [length_append] at hroom
      omega
    obtain ⟨mem', happend, hholds, -⟩ := append_room hw hint hend hcs hcomma
    rw [text_comma] at happend hholds
    rw [if_pos (show (cs.length : Int) > 0 by omega), happend]
    exact emit_item hw hint hend h1 h2 hholds hroom
  · rw [if_neg hpos] at hroom ⊢
    rw [if_neg (show ¬ (cs.length : Int) > 0 by omega)]
    exact emit_item hw hint hend h1 h2 hcs hroom

/-- The printer writes the text of the runs, and a NUL if there are any. -/
theorem emitAll_spec : ∀ (l : List (Nat × Nat)) (cs : List UInt8) (mem : Nat → UInt8),
    (∀ p ∈ l, p.1 < 2 ^ 31 ∧ p.2 < 2 ^ 31) → Holds mem buf cs →
    (l.foldl emitText cs).length < buflen →
    ∃ mem', l.foldl (fun out p => bscnlEmit w buf (toInt buflen) p.1 p.2 out) ((cs.length : Int), mem) =
        (((l.foldl emitText cs).length : Int), mem') ∧
      Holds mem' buf (l.foldl emitText cs) ∧
      (l ≠ [] ∨ mem (buf + cs.length) = 0 → mem' (buf + (l.foldl emitText cs).length) = 0) := by
  intro l
  induction l with
  | nil =>
    intro cs mem _ hcs _
    exact ⟨mem, rfl, hcs, fun h => h.elim (absurd rfl) id⟩
  | cons p l ih =>
    intro cs mem hl hcs hroom
    obtain ⟨hp, hl⟩ := forall_mem_cons.mp hl
    rw [foldl_cons] at hroom ⊢
    have hle := length_foldl_emitText_le l (emitText cs p)
    obtain ⟨mem', hemit, hholds, hnul⟩ := bscnlEmit_spec hw hint hend hp.1 hp.2 hcs (by omega)
    obtain ⟨mem'', hrest, hholds', hnul'⟩ := ih (emitText cs p) mem' hl hholds hroom
    refine ⟨mem'', ?_, hholds', fun _ => hnul' (.inr hnul)⟩
    rw [foldl_cons, hemit, hrest]

end

/-- The bytes at an address, up to a NUL. -/
def StringAt (mem : Nat → UInt8) (buf : Nat) (s : List UInt8) : Prop :=
  0 ∉ s ∧ Holds mem buf s ∧ mem (buf + s.length) = 0

/-- What is printed into a buffer that is large enough is accepted, and gives the bitmap
back. -/
def PrintsList (maskp : Nat → BitVec w) (n : Nat) : Prop :=
  ∀ (mem : Nat → UInt8) (buf buflen : Nat),
    (listText (runs (bitsOf maskp) n)).length < buflen → buflen < 2 ^ 31 → buf + buflen < 2 ^ w →
    ∃ s, StringAt (bitmapScnlistprintf mem buf buflen maskp n).2 buf s ∧
      ∀ dst : Nat → BitVec w, (bitmapParselist s dst n).1 = 0 ∧
        ∀ i < n, bitsOf (bitmapParselist s dst n).2 i = bitsOf maskp i

theorem bitmapScnlistprintf_eq (mem : Nat → UInt8) (buf buflen : Nat) (maskp : Nat → BitVec w) (n : Nat) :
    bitmapScnlistprintf mem buf buflen maskp n =
      (runs (bitsOf maskp) n).foldl (fun out p => bscnlEmit w buf (toInt buflen) p.1 p.2 out) (0, mem) :=
  eachRun_eq _ _

/-- The text of a bitmap is a list if and only if a bit is set. -/
theorem printsList_iff (hw : 32 ≤ w) (hint : n + w ≤ 2 ^ 31) (maskp : Nat → BitVec w) :
    PrintsList maskp n ↔ ∃ i < n, bitsOf maskp i = true := by
  obtain ⟨hrange, hnamed⟩ := runs_spec (bitsOf maskp) n
  have hpow := pow_le_pow_width hw
  constructor
  · intro hprints
    by_contra hnone
    -- nothing is printed, and the buffer may hold the empty string
    have hruns : runs (bitsOf maskp) n = [] := by
      rw [eq_nil_iff_forall_not_mem]
      intro p hp
      obtain ⟨hle, hlt⟩ := hrange p hp
      exact hnone ⟨p.2, hlt, (hnamed p.2 hlt).mp ⟨p, hp, hle, le_rfl⟩⟩
    obtain ⟨s, ⟨hzero, hholds, -⟩, hparse⟩ := hprints (fun _ => 0) 0 1 (by rw [hruns]; decide)
      (by decide) (by omega)
    rw [bitmapScnlistprintf_eq, hruns] at hholds
    cases s with
    | nil =>
      have hret := (hparse fun _ => 0#w).1
      unfold bitmapParselist at hret
      rw [parselistFrom_none rfl] at hret
      cases hret
    | cons c s => exact hzero (mem_cons.mpr (.inl (hholds 0 (Nat.succ_pos _))))
  · rintro ⟨i, hi, hbit⟩ mem buf buflen hroom hbuflen hend
    obtain ⟨p, hp, -⟩ := (hnamed i hi).mpr hbit
    have hne : runs (bitsOf maskp) n ≠ [] := ne_nil_of_mem hp
    have hsmall (p) (hp : p ∈ runs (bitsOf maskp) n) : p.1 < 2 ^ 31 ∧ p.2 < 2 ^ 31 := by
      obtain ⟨hle, hlt⟩ := hrange p hp
      omega
    have htext := listText_spec _ hne hsmall
    have hzero : 0 ∉ listText (runs (bitsOf maskp) n) := htext.not_mem rfl (by decide) (by decide)
    obtain ⟨mem', hprint, hholds, hnul⟩ :=
      emitAll_spec hw hbuflen hend _ [] mem hsmall holds_nil hroom
    have hmem : (bitmapScnlistprintf mem buf buflen maskp n).2 = mem' := by
      rw [bitmapScnlistprintf_eq]
      exact congrArg Prod.snd hprint
    rw [hmem]
    refine ⟨listText (runs (bitsOf maskp) n), ⟨hzero, hholds, hnul (.inl hne)⟩, fun dst => ?_⟩
    obtain ⟨hret, hbits⟩ := parselist_bits hw hint htext hrange dst
    refine ⟨hret, fun i hi => ?_⟩
    rw [Bool.eq_iff_iff, hbits i hi, hnamed i hi]

/-- For a bitmap whose words an `int` can count: the parser is right about a string if and
only if, in the way in which the code reads it, the string has no number of `2 ^ 32` or more
and nothing behind the list; and what the printer writes gives the bitmap back if and only if
a bit is set. -/
theorem bitmap_list_iff (hw : w = 32 ∨ w = 64) (hint : n + w - 1 < 2 ^ 31) :
    (∀ s : List UInt8, 0 ∉ s → (ParsesList w n s ↔ ∀ l trail, Loose n s l trail →
      trail = [] ∧ ∀ p ∈ l, p.1 < 2 ^ 32 ∧ p.2 < 2 ^ 32)) ∧
    ∀ maskp : Nat → BitVec w, PrintsList maskp n ↔ ∃ i < n, bitsOf maskp i = true :=
  ⟨fun _ hs => parsesList_iff (by omega) (by omega) hs,
    fun maskp => printsList_iff (by omega) (by omega) maskp⟩

end

/-! ## Two strings and a bitmap -/

section

/-- `"4294967296"` -/
def wideNumber : List UInt8 :=
  [ch '4', ch '2', ch '9', ch '4', ch '9', ch '6', ch '7', ch '2', ch '9', ch '6']

theorem listText_wideNumber : ListText wideNumber [(2 ^ 32, 2 ^ 32)] :=
  .item (.number (.of_all (by decide) rfl))

/-- A range and a number of a bitmap of eight bits. -/
theorem bitmap_list_iff_eight :
    ParsesList 32 8 [ch '1', ch '-', ch '3', ch ',', ch '5'] ∧ PrintsList (fun _ => 5#32) 8 := by
  have hrange : ItemText [ch '1', ch '-', ch '3'] (1, 3) :=
    @ItemText.range [ch '1'] [ch '3'] (.of_all (by decide) rfl) (.of_all (by decide) rfl)
  have hlist : ListText [ch '1', ch '-', ch '3', ch ',', ch '5'] [(1, 3), (5, 5)] :=
    .cons hrange (.item (.number (.of_all (by decide) rfl)))
  obtain ⟨hparses, hprints⟩ := bitmap_list_iff (n := 8) (.inl rfl) (by decide)
  refine ⟨(hparses _ (by decide)).mpr ?_, (hprints _).mpr ⟨0, by decide, by decide⟩⟩
  rintro l trail ⟨⟨t, ht, htext⟩, htrail, -⟩
  rw [ht] at hlist
  obtain rfl := htrail.eq_nil hlist
  rw [append_nil] at hlist
  rw [htext.unique hlist]
  decide

/-- The number `2 ^ 32` is accepted for a bitmap of eight bits and sets bit zero, and the
bitmap without a bit is not printed as a list. -/
theorem bitmap_list_fails :
    (¬ ParsesList 32 8 wideNumber ∧
      ∀ maskp : Nat → BitVec 32, (bitmapParselist wideNumber maskp 8).1 = 0 ∧
        bitsOf (bitmapParselist wideNumber maskp 8).2 0 = true) ∧
    ¬ PrintsList (fun _ => 0#32) 8 := by
  refine ⟨⟨?_, ?_⟩, ?_⟩
  · rw [parsesList_iff (by decide) (by decide) (by decide)]
    intro hclean
    have hloose : Loose 8 wideNumber [(2 ^ 32, 2 ^ 32)] [] :=
      ⟨⟨wideNumber, (append_nil _).symm, listText_wideNumber⟩, .nil, by unfold InRange; decide⟩
    obtain ⟨-, hsmall⟩ := hclean _ _ hloose
    exact absurd (hsmall _ mem_cons_self).1 (by decide)
  · intro maskp
    have heq : bitmapParselist wideNumber maskp (8 : Nat) =
        runItems (8 : Nat) [(0, 0)] (bitmapZero maskp (8 : Nat)) :=
      parselist_eq (by decide) listText_wideNumber .nil maskp
    have hrange : InRange 8 [(0, 0)] := by
      unfold InRange
      decide
    obtain ⟨hzero, hbits⟩ := runItems_spec (n := 8) (by decide) (by decide) [(0, 0)]
      (bitmapZero maskp (8 : Nat))
    rw [← heq] at hzero hbits
    exact ⟨hzero.mpr hrange, (hbits hrange 0).mpr (.inr ⟨_, mem_cons_self, le_rfl, le_rfl⟩)⟩
  · rw [printsList_iff (by decide) (by decide)]
    rintro ⟨i, -, hbit⟩
    unfold bitsOf at hbit
    rw [BitVec.getLsbD_zero] at hbit
    cases hbit

end

end LinuxKernel.Lib.BitmapList
