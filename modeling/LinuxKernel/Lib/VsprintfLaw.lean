/-
  Formatted output into a buffer of bounded size.

  Source: lib/vsprintf.c.

  Pointers are addresses of `w` bits and go around, the cursor too: nothing stops it at the
  end of the address space.  A text that fits below that end is truncated as it should be
  (`truncationLaw_of_fits`), and no other one is (`fits_of_truncationLaw`).
-/
import LinuxKernel.Lib.Vsprintf

namespace LinuxKernel.Lib.Vsprintf

open Foundation Function List Function

variable {strings : Nat → List UInt8} {fmt : List UInt8} {args : List Nat}

/-! ## The buffer -/

section

/-- The cursor `str` and the memory -/
structure Out where
  str : Nat
  mem : Nat → UInt8

/-- `if (str < end) *str = c; ++str;` -/
def Out.put (w end_ : Nat) (o : Out) (c : UInt8) : Out :=
  ⟨(o.str + 1) % 2 ^ w, if o.str < end_ then update o.mem o.str c else o.mem⟩

/-- `vsnprintf` -/
def vsnprintf (w : Nat) (strings : Nat → List UInt8) (mem : Nat → UInt8) (buf size : Nat)
    (fmt : List UInt8) (args : List Nat) : Int × (Nat → UInt8) :=
  if toInt size < 0 then (0, mem)
  else
    let end_ := (buf + size) % 2 ^ w
    let (end_, size) := if end_ < buf then (2 ^ w - 1, 2 ^ w - 1 - buf) else (end_, size)
    let out := formatFrom (Out.put w end_) w strings fmt args ⟨buf, mem⟩
    let mem :=
      if size > 0 then
        if out.str < end_ then update out.mem out.str 0
        else update out.mem (end_ - 1) 0
      else out.mem
    (toInt ((out.str + (2 ^ w - buf)) % 2 ^ w : Nat), mem)

end

/-! ## The truncation law -/

section

variable {w : Nat} {buf size : Nat} {len : Nat}

/-- The return value does not depend on the size, nothing outside of the buffer is written,
and a buffer that is not empty holds the beginning of the text and a NUL. -/
def TruncationLaw (w : Nat) (strings : Nat → List UInt8) (buf size : Nat) (fmt : List UInt8)
    (args : List Nat) : Prop :=
  ∀ mem : Nat → UInt8,
    let ret := (vsnprintf w strings mem buf size fmt args).1
    let mem' := (vsnprintf w strings mem buf size fmt args).2
    (∀ size', size' < 2 ^ 31 → (vsnprintf w strings mem buf size' fmt args).1 = ret) ∧
    (∀ x < 2 ^ w, ¬ (buf ≤ x ∧ x < buf + size) → mem' x = mem x) ∧
    (0 < size → (∀ i : Nat, (i : Int) < min ret (size - 1) →
        mem' (buf + i) = (text w strings fmt args).getD i 0) ∧
      mem' (buf + (min ret (size - 1)).toNat) = 0)

/-- The text fits between the buffer and the end of the address space, with its NUL, and
not at the last address if the buffer reaches it. -/
def FitsAbove (w buf size len : Nat) : Prop :=
  if size = 0 then buf + len ≤ 2 ^ w
  else if buf + size < 2 ^ w then buf + len < 2 ^ w
  else buf + len + 1 < 2 ^ w

/-- Which character comes to an address, if the cursor begins at `buf`. -/
def position (m buf x : Nat) : Nat := if buf ≤ x then x - buf else x + m - buf

theorem wrap_eq {m b n : Nat} (hb : b < m) (hn : n ≤ m) :
    (b + n) % m = if b + n < m then b + n else b + n - m := by
  split
  · rename_i hlt
    exact Nat.mod_eq_of_lt hlt
  · rw [Nat.mod_eq_sub_mod (by omega), Nat.mod_eq_of_lt (by omega)]

theorem str_foldl_put {e : Nat} (hbuf : buf < 2 ^ w) (mem : Nat → UInt8) (cs : List UInt8) :
    (cs.foldl (Out.put w e) ⟨buf, mem⟩).str = (buf + cs.length) % 2 ^ w := by
  induction cs using reverseRecOn with
  | nil => exact (Nat.mod_eq_of_lt hbuf).symm
  | append_singleton cs c ih =>
    rw [foldl_append, length_append]
    show ((cs.foldl (Out.put w e) ⟨buf, mem⟩).str + 1) % 2 ^ w = _
    rw [ih, Nat.mod_add_mod]
    rfl

/-- Of a text that does not go around, every address gets at most one character. -/
theorem mem_foldl_put {e : Nat} (hbuf : buf < 2 ^ w) (mem : Nat → UInt8) {x : Nat} (hx : x < 2 ^ w)
    (cs : List UInt8) (hlen : cs.length ≤ 2 ^ w) : (cs.foldl (Out.put w e) ⟨buf, mem⟩).mem x =
      if position (2 ^ w) buf x < cs.length ∧ x < e then cs.getD (position (2 ^ w) buf x) 0
      else mem x := by
  induction cs using reverseRecOn with
  | nil => rfl
  | append_singleton cs c ih =>
    rw [length_append, length_singleton] at hlen
    specialize ih (by omega)
    have hstr := str_foldl_put (e := e) hbuf mem cs
    rw [wrap_eq hbuf (by omega)] at hstr
    have hpos : position (2 ^ w) buf x = cs.length ↔
        (cs.foldl (Out.put w e) ⟨buf, mem⟩).str = x := by
      rw [hstr]
      unfold position
      split <;> split <;> omega
    rw [foldl_append, length_append, length_singleton]
    generalize cs.foldl (Out.put w e) ⟨buf, mem⟩ = out at *
    show (if out.str < e then update out.mem out.str c else out.mem) x = _
    by_cases hx : out.str = x
    · rw [hpos.mpr hx, ← hx]
      by_cases hlt : out.str < e
      · rw [if_pos hlt, if_pos ⟨Nat.lt_succ_self _, hlt⟩]
        simp
      · rw [if_neg hlt, if_neg fun h => hlt h.2, hx, ih, if_neg fun h => hlt (hx ▸ h.2)]
    · have hkeep : (if out.str < e then update out.mem out.str c else out.mem) x = out.mem x := by
        split
        · exact update_of_ne (Ne.symm hx) _ _
        · rfl
      rw [hkeep, ih]
      by_cases hin : position (2 ^ w) buf x < cs.length ∧ x < e
      · rw [if_pos hin, if_pos ⟨by omega, hin.2⟩, getD_append _ _ _ _ hin.1]
      · rw [if_neg hin, if_neg fun h => hin ⟨by omega, h.2⟩]

/-- Where the code thinks that the buffer ends. -/
def endOf (w buf size : Nat) : Nat := if buf + size < 2 ^ w then buf + size else 2 ^ w - 1

/-- The address of the final NUL. -/
def nulAt (w buf size len : Nat) : Nat :=
  if (buf + len) % 2 ^ w < endOf w buf size then (buf + len) % 2 ^ w else endOf w buf size - 1

theorem pow_le_pow_width (hw : 32 ≤ w) : 2 ^ 32 ≤ 2 ^ w := Nat.pow_le_pow_right (by decide) hw

/-- The end and the NUL of a text that fits. -/
theorem FitsAbove.bounds (hsize : 0 < size) (h : FitsAbove w buf size len) :
    buf + len < 2 ^ w ∧ buf < endOf w buf size ∧ endOf w buf size ≤ buf + size ∧
      buf + min len (size - 1) < endOf w buf size ∧
      nulAt w buf size len = buf + min len (size - 1) := by
  unfold FitsAbove at h
  rw [if_neg (by omega)] at h
  have hlt : buf + len < 2 ^ w := by split at h <;> omega
  unfold nulAt endOf
  rw [Nat.mod_eq_of_lt hlt]
  by_cases hend : buf + size < 2 ^ w
  · rw [if_pos hend]
    split <;> omega
  · rw [if_neg hend] at h ⊢
    split <;> omega

/-- A byte that is neither of the two. -/
theorem exists_other (a b : UInt8) : ∃ c : UInt8, c ≠ a ∧ c ≠ b := by
  by_contra h
  simp only [not_exists] at h
  have h1 := h 1
  have h2 := h 2
  have h3 := h 3
  grind

theorem le_endOf (hbuf : buf < 2 ^ w) : buf ≤ endOf w buf size := by
  unfold endOf
  split <;> omega

/-- After a text that goes around, the NUL is below the buffer. -/
theorem nulAt_around (size : Nat) (hbuf : buf < 2 ^ w) (hlen : len < 2 ^ w)
    (hge : 2 ^ w ≤ buf + len) : nulAt w buf size len = buf + len - 2 ^ w := by
  have hend : buf ≤ endOf w buf size := le_endOf hbuf
  have hwrap : (buf + len) % 2 ^ w = buf + len - 2 ^ w := by
    rw [wrap_eq hbuf (by omega), if_neg (by omega)]
  unfold nulAt
  rw [hwrap, if_pos (by omega)]

theorem pos_of_not_fits (h : ¬ FitsAbove w buf size len) (hle : buf + len ≤ 2 ^ w) : 0 < size := by
  unfold FitsAbove at h
  split at h
  · exact absurd hle h
  · omega

section

variable (hw : 32 ≤ w) (hbuf : buf < 2 ^ w) (hsize : size < 2 ^ 31)
include hw hbuf hsize

/-- `vsnprintf` in terms of the text. -/
theorem vsnprintf_eq (mem : Nat → UInt8) : vsnprintf w strings mem buf size fmt args =
      (toInt (((text w strings fmt args).length % 2 ^ w : Nat)),
        if buf < endOf w buf size then
          update ((text w strings fmt args).foldl (Out.put w (endOf w buf size)) ⟨buf, mem⟩).mem
            (nulAt w buf size (text w strings fmt args).length) 0
        else ((text w strings fmt args).foldl (Out.put w (endOf w buf size)) ⟨buf, mem⟩).mem) := by
  have hm := pow_le_pow_width hw
  have hend : (if (buf + size) % 2 ^ w < buf then (2 ^ w - 1, 2 ^ w - 1 - buf)
      else ((buf + size) % 2 ^ w, size)) = (endOf w buf size, endOf w buf size - buf) := by
    rw [wrap_eq hbuf (by omega)]
    unfold endOf
    by_cases hlt : buf + size < 2 ^ w
    · rw [if_pos hlt, if_neg (by omega), if_pos hlt, Nat.add_sub_cancel_left]
    · rw [if_neg hlt, if_pos (by omega), if_neg hlt]
  have hret : ((buf + (text w strings fmt args).length) % 2 ^ w + (2 ^ w - buf)) % 2 ^ w =
      (text w strings fmt args).length % 2 ^ w := by
    rw [Nat.mod_add_mod, show buf + (text w strings fmt args).length + (2 ^ w - buf) =
      (text w strings fmt args).length + 2 ^ w by omega, Nat.add_mod_right]
  unfold vsnprintf
  rw [if_neg (by rw [toInt_natCast hsize]; omega)]
  dsimp only
  rw [hend]
  rw [formatFrom_eq, str_foldl_put hbuf, hret]
  unfold nulAt
  by_cases hroom : buf < endOf w buf size
  · rw [if_pos (by omega)]
    split <;> rfl
  · rw [if_neg (by omega), if_neg hroom]

variable (hlen : (text w strings fmt args).length < 2 ^ 31)
include hlen

/-- The return value of a text that is not too long. -/
theorem vsnprintf_ret (mem : Nat → UInt8) :
    (vsnprintf w strings mem buf size fmt args).1 = (text w strings fmt args).length := by
  have hm := pow_le_pow_width hw
  rw [vsnprintf_eq hw hbuf hsize, Nat.mod_eq_of_lt (by omega), toInt_natCast hlen]

/-- What every address holds afterwards. -/
theorem vsnprintf_mem (mem : Nat → UInt8) {x : Nat} (hx : x < 2 ^ w) :
    (vsnprintf w strings mem buf size fmt args).2 x =
      if buf < endOf w buf size ∧ x = nulAt w buf size (text w strings fmt args).length then 0
      else if position (2 ^ w) buf x < (text w strings fmt args).length ∧ x < endOf w buf size then
        (text w strings fmt args).getD (position (2 ^ w) buf x) 0
      else mem x := by
  have hm := pow_le_pow_width hw
  have hfold := mem_foldl_put (e := endOf w buf size) hbuf mem hx (text w strings fmt args) (by omega)
  rw [vsnprintf_eq hw hbuf hsize]
  dsimp only
  by_cases hroom : buf < endOf w buf size
  · rw [if_pos hroom, update_apply, hfold]
    simp [hroom]
  · simp [hroom, hfold]

/-- A text that fits is written as the law asks. -/
theorem truncationLaw_of_fits (hfits : FitsAbove w buf size (text w strings fmt args).length) :
    TruncationLaw w strings buf size fmt args := by
  intro mem
  have hmem := fun x hx => vsnprintf_mem (x := x) hw hbuf hsize hlen mem hx
  rw [vsnprintf_ret hw hbuf hsize hlen]
  refine ⟨fun size' hsize' => vsnprintf_ret hw hbuf hsize' hlen mem, ?_, ?_⟩
  · intro x hx hout
    rw [hmem x hx]
    rcases Nat.eq_zero_or_pos size with rfl | hpos
    · unfold FitsAbove at hfits
      rw [if_pos rfl] at hfits
      have hend : endOf w buf 0 = buf := if_pos hbuf
      rw [if_neg (by omega), if_neg]
      unfold position
      split <;> omega
    · obtain ⟨hlt, hroom, hend, hnul, hat⟩ := hfits.bounds hpos
      rw [if_neg (by omega), if_neg]
      unfold position
      split <;> omega
  · intro hpos
    obtain ⟨hlt, hroom, hend, hnul, hat⟩ := hfits.bounds hpos
    constructor
    · intro i hi
      have hposition : position (2 ^ w) buf (buf + i) = i := by
        unfold position
        rw [if_pos (Nat.le_add_right _ _), Nat.add_sub_cancel_left]
      rw [hmem _ (by omega), if_neg (by omega), hposition, if_pos (by omega)]
    · have hmin : (min ((text w strings fmt args).length : Int) (size - 1)).toNat =
          min (text w strings fmt args).length (size - 1) := by omega
      rw [hmin, hmem _ (by omega), if_pos ⟨hroom, hat.symm⟩]

/-- A text that does not fit breaks the law in some memory. -/
theorem fits_of_truncationLaw (hlaw : TruncationLaw w strings buf size fmt args) :
    FitsAbove w buf size (text w strings fmt args).length := by
  have hm := pow_le_pow_width hw
  -- the first and the last byte are neither NULs nor the characters that would come there
  obtain ⟨c, hc0, hc1⟩ := exists_other 0 ((text w strings fmt args).getD (2 ^ w - buf) 0)
  obtain ⟨d, hd0, hd1⟩ := exists_other 0 ((text w strings fmt args).getD 0 0)
  obtain ⟨-, houtside, hinside⟩ := hlaw fun x => if x = 0 then c else d
  have hmem := fun x hx => vsnprintf_mem (x := x) hw hbuf hsize hlen
    (fun x => if x = 0 then c else d) hx
  rw [vsnprintf_ret hw hbuf hsize hlen] at hinside
  by_contra hno
  have hend : buf ≤ endOf w buf size := le_endOf hbuf
  rcases Nat.lt_or_ge (buf + (text w strings fmt args).length) (2 ^ w) with hunder | haround
  · -- the text ends at the last address, which the code does not use
    have hpos : 0 < size := pos_of_not_fits hno (by omega)
    unfold FitsAbove at hno
    rw [if_neg (by omega)] at hno
    have htop : ¬ buf + size < 2 ^ w := by
      intro hlt
      rw [if_pos hlt] at hno
      exact hno hunder
    rw [if_neg htop] at hno
    have hendOf : endOf w buf size = 2 ^ w - 1 := if_neg htop
    have hlast : (vsnprintf w strings (fun x => if x = 0 then c else d) buf size fmt args).2
        (2 ^ w - 1) = d := by
      have hnul : ¬ (buf < endOf w buf size ∧
          2 ^ w - 1 = nulAt w buf size (text w strings fmt args).length) := by
        rintro ⟨hroom, hat⟩
        unfold nulAt at hat
        rw [Nat.mod_eq_of_lt hunder, if_neg (by omega)] at hat
        omega
      rw [hmem _ (by omega), if_neg hnul, if_neg (by omega), if_neg (by omega)]
    have hmin : (min ((text w strings fmt args).length : Int) (size - 1)).toNat =
        (text w strings fmt args).length := by omega
    have hzero := (hinside hpos).2
    rw [hmin, show buf + (text w strings fmt args).length = 2 ^ w - 1 by omega, hlast] at hzero
    exact hd0 hzero
  · -- address zero is not in the buffer
    have hkept : (vsnprintf w strings (fun x => if x = 0 then c else d) buf size fmt args).2 0 = c := by
      rw [houtside 0 (by omega) (by omega), if_pos rfl]
    have hnul := nulAt_around size hbuf (by omega) haround
    rw [hmem 0 (by omega)] at hkept
    rcases Nat.eq_or_lt_of_le haround with hexact | hover
    · by_cases hroom : buf < endOf w buf size
      · rw [if_pos ⟨hroom, by omega⟩] at hkept
        exact hc0 hkept.symm
      · -- the buffer begins at the last address
        have hpos : 0 < size := pos_of_not_fits hno (by omega)
        have hlast := hmem buf hbuf
        rw [if_neg fun h => hroom h.1, if_neg fun h => hroom h.2, if_neg (by omega)] at hlast
        obtain ⟨hchars, hzero⟩ := hinside hpos
        rcases Nat.lt_or_ge 1 size with hmany | hone
        · have hfirst := hchars 0 (by omega)
          rw [Nat.add_zero, hlast] at hfirst
          exact hd1 hfirst
        · rw [show (min ((text w strings fmt args).length : Int) (size - 1)).toNat = 0 by omega,
            Nat.add_zero, hlast] at hzero
          exact hd0 hzero
    · have hposition : position (2 ^ w) buf 0 = 2 ^ w - buf := by
        unfold position
        rw [if_neg (by omega)]
        omega
      rw [if_neg (by omega), hposition, if_pos (by omega)] at hkept
      exact hc1 hkept.symm

end

/-- The law holds of a text of at most `INT_MAX` characters if and only if the text fits
between the buffer and the end of the address space. -/
theorem vsnprintf_truncation_iff (hw : 32 ≤ w) (hbuf : buf < 2 ^ w) (hsize : size < 2 ^ 31)
    (hlen : (text w strings fmt args).length < 2 ^ 31) :
    TruncationLaw w strings buf size fmt args ↔
      FitsAbove w buf size (text w strings fmt args).length :=
  ⟨fits_of_truncationLaw hw hbuf hsize hlen, truncationLaw_of_fits hw hbuf hsize hlen⟩

end

/-! ## Texts that are put one after the other -/

section

variable {w : Nat} {buf size : Nat} {mem : Nat → UInt8} {cs : List UInt8}

/-- `scnprintf` -/
def scnprintf (w : Nat) (strings : Nat → List UInt8) (mem : Nat → UInt8) (buf size : Nat)
    (fmt : List UInt8) (args : List Nat) : Int × (Nat → UInt8) :=
  let out := vsnprintf w strings mem buf size fmt args
  (if (out.1 % 2 ^ w).toNat ≥ size then toInt ((size + (2 ^ w - 1)) % 2 ^ w : Nat) else out.1, out.2)

/-- `len += scnprintf(buf + len, size, fmt, ...)` -/
def appendf (w : Nat) (strings : Nat → List UInt8) (buf size : Nat) (fmt : List UInt8)
    (args : List Nat) (len : Int) (mem : Nat → UInt8) : Int × (Nat → UInt8) :=
  let out := scnprintf w strings mem ((buf + len) % 2 ^ w).toNat size fmt args
  (toInt (len + out.1), out.2)

/-- The memory at `buf` holds the characters. -/
def Holds (mem : Nat → UInt8) (buf : Nat) (cs : List UInt8) : Prop :=
  ∀ i < cs.length, mem (buf + i) = cs.getD i 0

theorem holds_nil : Holds mem buf [] := fun _ h => absurd h (Nat.not_lt_zero _)

/-- The length of a text, and a memory with the text and a NUL. -/
def Written (buf : Nat) (cs : List UInt8) (out : Int × (Nat → UInt8)) : Prop :=
  ∃ mem, out = ((cs.length : Int), mem) ∧ Holds mem buf cs ∧ mem (buf + cs.length) = 0

theorem scnprintf_fits (hw : 32 ≤ w) (hbuf : buf < 2 ^ w) (hsize : size < 2 ^ 31)
    (hfits : (text w strings fmt args).length < size) : scnprintf w strings mem buf size fmt args =
      (((text w strings fmt args).length : Int), (vsnprintf w strings mem buf size fmt args).2) := by
  have hpow := pow_le_pow_width hw
  have hcast : (2 : Int) ^ w = ((2 ^ w : Nat) : Int) := (Int.natCast_pow 2 w).symm
  have hret := vsnprintf_ret hw hbuf hsize (Nat.lt_trans hfits hsize) mem
  have hmod : (((text w strings fmt args).length : Int) % 2 ^ w).toNat =
      (text w strings fmt args).length := by
    rw [Int.emod_eq_of_lt (by omega) (by omega), Int.toNat_natCast]
  unfold scnprintf
  dsimp only
  rw [hret, hmod, if_neg (Nat.not_le.mpr hfits)]

theorem appendf_eq {len i : Int} {mem' : Nat → UInt8}
    (h : scnprintf w strings mem ((buf + len) % 2 ^ w).toNat size fmt args = (i, mem')) :
    appendf w strings buf size fmt args len mem = (toInt (len + i), mem') := by
  unfold appendf
  rw [h]

/-- A text that fits comes after what the buffer held, with a NUL. -/
theorem appendf_fits (hw : 32 ≤ w) (hint : cs.length + size < 2 ^ 31)
    (hend : buf + cs.length + size < 2 ^ w) (hfits : (text w strings fmt args).length < size)
    (h : Holds mem buf cs) : Written buf (cs ++ text w strings fmt args)
      (appendf w strings buf size fmt args cs.length mem) := by
  have hcast : (2 : Int) ^ w = ((2 ^ w : Nat) : Int) := (Int.natCast_pow 2 w).symm
  have haddr : (((buf : Int) + (cs.length : Nat)) % 2 ^ w).toNat = buf + cs.length := by
    rw [Int.emod_eq_of_lt (by omega) (by omega)]
    omega
  have hscn : scnprintf w strings mem (buf + cs.length) size fmt args = _ :=
    scnprintf_fits hw (by omega) (by omega) hfits
  rw [← haddr] at hscn
  have hfitsAbove : FitsAbove w (buf + cs.length) size (text w strings fmt args).length := by
    unfold FitsAbove
    rw [if_neg (by omega), if_pos hend]
    omega
  obtain ⟨-, hout, hin⟩ := truncationLaw_of_fits hw (by omega) (by omega) (by omega) hfitsAbove mem
  rw [vsnprintf_ret hw (by omega) (by omega) (by omega)] at hin
  obtain ⟨hchars, hnul⟩ := hin (by omega)
  rw [show (min ((text w strings fmt args).length : Int) (size - 1)).toNat =
    (text w strings fmt args).length by omega] at hnul
  have hlen : toInt ((cs.length : Int) + (text w strings fmt args).length) =
      ((cs ++ text w strings fmt args).length : Nat) := by
    rw [toInt_of_bounds (by omega) (by omega), length_append]
    rfl
  have happend := appendf_eq hscn
  rw [hlen, haddr] at happend
  refine ⟨_, happend, ?_, ?_⟩
  · intro i hi
    rw [length_append] at hi
    rcases Nat.lt_or_ge i cs.length with hlt | hge
    · rw [hout _ (by omega) (by omega), h i hlt, getD_append _ _ _ _ hlt]
    · rw [getD_append_right _ _ _ _ hge, ← hchars (i - cs.length) (by omega)]
      exact congrArg _ (by omega)
  · rw [length_append, ← Nat.add_assoc]
    exact hnul

end

/-! ## Two buffers -/

section

/-- A number in a buffer that is too small. -/
theorem vsnprintf_truncation_iff_number :
    TruncationLaw 32 (fun _ => []) 4096 4 [ch '%', ch 'd'] [1234] := by
  have htext : text 32 (fun _ => []) [ch '%', ch 'd'] [1234] = digitsText .dec false 1234 := by
    rw [text_decimal (by decide), text_nil, append_nil]
  refine (vsnprintf_truncation_iff (by decide) (by decide) (by decide) ?_).mpr ?_
  · rw [htext]
    decide
  · rw [htext]
    unfold FitsAbove
    decide

/-- `"%1073741825d"` -/
def wideFormat : List UInt8 :=
  ch '%' :: [ch '1', ch '0', ch '7', ch '3', ch '7', ch '4', ch '1', ch '8', ch '2', ch '5', ch 'd']

theorem length_wideFormat : (text 32 (fun _ => []) wideFormat [0]).length = 1073741825 := by
  have hd : getDirective wideFormat.tail [0] =
      (⟨noFlags, 1073741825, -1, .none⟩, [ch 'd'], [0]) := rfl
  have hone : (digitsOf .dec 0).length = 1 := rfl
  show (text 32 (fun _ => []) (ch '%' :: wideFormat.tail) [0]).length = _
  rw [text_directive hd, convert_decimal (by decide) (by decide) (by decide), text_nil,
    append_nil, length_append, length_replicate, hone]
  decide

/-- From a buffer at three quarters of the address space, the text goes around it: the NUL
comes to address one. -/
theorem vsnprintf_goes_around :
    ¬ TruncationLaw 32 (fun _ => []) 0xC0000000 1 wideFormat [0] ∧
    ∀ mem, (vsnprintf 32 (fun _ => []) mem 0xC0000000 1 wideFormat [0]).2 1 = 0 := by
  have hlen : (text 32 (fun _ => []) wideFormat [0]).length < 2 ^ 31 := by
    rw [length_wideFormat]
    decide
  constructor
  · intro hlaw
    have hfits := fits_of_truncationLaw (by decide) (by decide) (by decide) hlen hlaw
    rw [length_wideFormat] at hfits
    unfold FitsAbove at hfits
    revert hfits
    decide
  · intro mem
    rw [vsnprintf_mem (by decide) (by decide) (by decide) hlen mem (by decide), length_wideFormat,
      if_pos ⟨by decide, rfl⟩]

end

end LinuxKernel.Lib.Vsprintf
