/-
  Bitmaps as hexadecimal text.

  Source: lib/bitmap.c (`bitmap_scnprintf`, `__bitmap_parse`).

  The printer goes through the chunks of 32 bits from the top, and the first one may be
  short.  The parser shifts by 32 for each chunk and leaves out the leading zero chunks.
  Between two chunks it holds the upper part of the bitmap (`Parsed`).  A byte that
  `__get_user` cannot read is `none`.
-/
import LinuxKernel.Lib.BitmapShift
import LinuxKernel.Lib.VsprintfLaw

namespace LinuxKernel.Lib.BitmapHex

open Foundation List Function Nat

variable {mem : Nat → UInt8} {w chunksz : Nat} {r : Chunk} {cs : List UInt8}
open Lib.Vsprintf
open Lib.BitmapShift

/-! ## The printer -/

section

/-- The addresses of the two values of `sep` -/
def sepNone : Nat := 4096

def sepComma : Nat := 4098

def separators : Nat → List UInt8 := fun addr => if addr = sepComma then [ch ','] else []

/-- `"%s%0*lx"` -/
def chunkFormat : List UInt8 := [ch '%', ch 's', ch '%', ch '0', ch '*', ch 'l', ch 'x']

/-- `val` of the chunk of bits from `32 * q` on -/
def chunkVal (maskp : Nat → BitVec w) (chunksz q : Nat) : BitVec w :=
  let i := 32 * q
  let chunkmask := (2 ^ chunksz - 1) % 2 ^ 32
  (maskp (i / w) >>> (i % w)) &&& BitVec.ofNat w chunkmask

/-- `buflen - len`, which is unsigned -/
def room (buflen : Nat) (len : Int) : Nat := (((buflen : Int) - len) % 2 ^ 32).toNat

/-- The variables of the loop of `bitmap_scnprintf` -/
structure PrintState where
  chunksz : Nat
  sep : Nat
  len : Int
  mem : Nat → UInt8

/-- A round of the loop, with `i` at `32 * q` -/
def printChunk (maskp : Nat → BitVec w) (buf buflen q : Nat) (st : PrintState) : PrintState :=
  let out := appendf w separators buf (room buflen st.len) chunkFormat
    [st.sep, (st.chunksz + 3) / 4, (chunkVal maskp st.chunksz q).toNat] st.len st.mem
  ⟨32, sepComma, out.1, out.2⟩

/-- `bitmap_scnprintf` -/
def bitmapScnprintf (mem : Nat → UInt8) (buf buflen : Nat) (maskp : Nat → BitVec w)
    (nmaskbits : Nat) : Int × (Nat → UInt8) :=
  let chunksz := nmaskbits % 32
  let chunksz := if chunksz = 0 then 32 else chunksz
  let i := toInt (toInt (nmaskbits + 31) / 32 * 32 - 32)
  let st := downFrom (printChunk maskp buf buflen) (i / 32 + 1).toNat ⟨chunksz, sepNone, 0, mem⟩
  (st.len, st.mem)

end

/-! ## The parser -/

section

def efault : Int := 14

def einval : Int := 22

def eoverflow : Int := 75

/-- What the inner loop leaves -/
structure Chunk where
  c : UInt8
  totaldigits : Nat
  ndigits : Nat
  chunk : BitVec 32
  rest : List (Option UInt8)

/-- The inner loop of `__bitmap_parse` -/
def getChunk : List (Option UInt8) → UInt8 → (totaldigits ndigits : Nat) → BitVec 32 →
    Except Int Chunk
  | [], c, totaldigits, ndigits, chunk => .ok ⟨c, totaldigits, ndigits, chunk, []⟩
  | none :: _, _, _, _, _ => .error efault
  | some c :: rest, oldC, totaldigits, ndigits, chunk =>
    if isspace c then getChunk rest c totaldigits ndigits chunk
    else if totaldigits ≠ 0 ∧ c ≠ 0 ∧ isspace oldC then .error einval
    else if c = 0 ∨ c = ch ',' then .ok ⟨c, totaldigits, ndigits, chunk, rest⟩
    else if !isxdigit c then .error einval
    else if chunk &&& ~~~(1#32 <<< 28 - 1#32) ≠ 0#32 then .error eoverflow
    else
      getChunk rest c (totaldigits + 1) (ndigits + 1) (chunk <<< 4 ||| BitVec.ofNat 32 (unhex c))

/-- The inner loop reads a byte for each digit. -/
theorem length_getChunk (bytes : List (Option UInt8)) (c : UInt8) (totaldigits ndigits : Nat)
    (chunk : BitVec 32) (h : getChunk bytes c totaldigits ndigits chunk = .ok r) :
    r.ndigits + r.rest.length ≤ ndigits + bytes.length := by
  induction bytes generalizing c totaldigits ndigits chunk r with
  | nil =>
    cases h
    exact le_rfl
  | cons byte rest ih =>
    rw [length_cons]
    cases byte with
    | none => cases h
    | some c' =>
      rw [getChunk] at h
      split at h
      · exact le_trans (ih _ _ _ _ h) (by omega)
      split at h
      · cases h
      split at h
      · cases h
        dsimp only
        omega
      split at h
      · cases h
      split at h
      · cases h
      · exact le_trans (ih _ _ _ _ h) (by omega)

/-- The variables of the outer loop -/
structure ParseState (w : Nat) where
  c : UInt8
  totaldigits : Nat
  nchunks : Nat
  nbits : Int
  maskp : Nat → BitVec w

/-- `fls` -/
def fls (x : Nat) : Nat := if x = 0 then 0 else Nat.log2 x + 1

/-- `*maskp |= chunk` -/
def orFirst (maskp : Nat → BitVec w) (chunk : BitVec 32) : Nat → BitVec w :=
  update maskp 0 (maskp 0 ||| chunk.setWidth w)

/-- The rest of a round after the inner loop, and if the bits are too many -/
def takeChunk (nmaskbits : Nat) (st : ParseState w) (r : Chunk) : ParseState w × Bool :=
  if st.nchunks = 0 ∧ r.chunk = 0#32 then
    ({ st with c := r.c, totaldigits := r.totaldigits }, false)
  else
    let maskp := orFirst (bitmapShiftLeft st.maskp 32 nmaskbits) r.chunk
    let nchunks := st.nchunks + 1
    let nbits := toInt (st.nbits + if nchunks = 1 then fls r.chunk.toNat else 32)
    (⟨r.c, r.totaldigits, nchunks, nbits, maskp⟩, nbits > nmaskbits)

/-- The outer loop of `__bitmap_parse` -/
def parseFrom (nmaskbits : Nat) (bytes : List (Option UInt8)) (st : ParseState w) :
    Int × (Nat → BitVec w) :=
  match _hr : getChunk bytes st.c st.totaldigits 0 0#32 with
  | .error e => (-e, st.maskp)
  | .ok r =>
    if _hdigits : r.ndigits = 0 then (-einval, st.maskp)
    else
      let next := takeChunk nmaskbits st r
      if next.2 then (-eoverflow, next.1.maskp)
      else if r.rest ≠ [] ∧ r.c = ch ',' then parseFrom nmaskbits r.rest next.1
      else (0, next.1.maskp)
termination_by bytes.length
decreasing_by
  have hlen := length_getChunk _ _ _ _ _ _hr
  omega

/-- `__bitmap_parse` -/
def bitmapParse (bytes : List (Option UInt8)) (maskp : Nat → BitVec w) (nmaskbits : Nat) :
    Int × (Nat → BitVec w) :=
  parseFrom nmaskbits bytes ⟨0, 0, 0, 0, bitmapZero maskp nmaskbits⟩

theorem parseFrom_eq {nmaskbits : Nat} {bytes : List (Option UInt8)} {st : ParseState w}
    (hr : getChunk bytes st.c st.totaldigits 0 0#32 = .ok r) (hdigits : r.ndigits ≠ 0)
    (hbits : (takeChunk nmaskbits st r).2 = false) : parseFrom nmaskbits bytes st =
      if r.rest ≠ [] ∧ r.c = ch ',' then parseFrom nmaskbits r.rest (takeChunk nmaskbits st r).1
      else (0, (takeChunk nmaskbits st r).1.maskp) := by
  rw [parseFrom]
  split
  · rename_i e he
    rw [hr] at he
    cases he
  · rename_i r' hr'
    obtain rfl : r = r' := Except.ok.inj (hr.symm.trans hr')
    rw [dif_neg hdigits]
    dsimp only
    rw [hbits, if_neg Bool.false_ne_true]

end

/-! ## Chunks -/

section

/-- The bits of a chunk that the bitmap has. -/
def chunkSize (n q : Nat) : Nat := min 32 (n - 32 * q)

theorem toNat_lt_of_bits {x : BitVec w} {m : Nat} (h : ∀ j, m ≤ j → x.getLsbD j = false) :
    x.toNat < 2 ^ m :=
  lt_pow_two_of_testBit _ fun j hj => h j hj

section

variable (hdvd : 32 ∣ w) (hw : 0 < w) (maskp : Nat → BitVec w) (hsz : chunksz ≤ 32)
include hdvd hw hsz

/-- The bits of a chunk. -/
theorem getLsbD_chunkVal (q j : Nat) :
    (chunkVal maskp chunksz q).getLsbD j = (decide (j < chunksz) && bitsOf maskp (32 * q + j)) := by
  obtain ⟨m, rfl⟩ := hdvd
  have hm : 0 < m := by omega
  have hmask : (2 ^ chunksz - 1) % 2 ^ 32 = 2 ^ chunksz - 1 := by
    have hle := Nat.pow_le_pow_right (show 0 < 2 by decide) hsz
    exact Nat.mod_eq_of_lt (by omega)
  unfold chunkVal
  rw [hmask, BitVec.getLsbD_and, BitVec.getLsbD_ushiftRight, BitVec.getLsbD_ofNat,
    testBit_two_pow_sub_one]
  by_cases hj : j < chunksz
  · have hrem : 32 * q % (32 * m) = 32 * (q % m) := mul_mod_mul_left _ _ _
    have hlt := mod_lt q hm
    have hdiv := Nat.div_add_mod (32 * q) (32 * m)
    rw [show 32 * q + j = 32 * q / (32 * m) * (32 * m) + (32 * q % (32 * m) + j) by
      rw [Nat.mul_comm (32 * q / (32 * m))]; omega, bitsOf_word _ _ (by omega),
      decide_eq_true hj, decide_eq_true (by omega), Bool.true_and, Bool.true_and, Bool.and_true]
  · rw [decide_eq_false hj, Bool.and_false, Bool.and_false, Bool.false_and]

/-- A number of so many bits has so many digits of four bits. -/
theorem chunkVal_lt (q : Nat) : (chunkVal maskp chunksz q).toNat < 2 ^ chunksz := by
  refine toNat_lt_of_bits fun j hj => ?_
  rw [getLsbD_chunkVal hdvd hw maskp hsz, decide_eq_false (by omega), Bool.false_and]

end

theorem pow_bits_le (m : Nat) : 2 ^ m ≤ 16 ^ ((m + 3) / 4) := by
  rw [show 16 = 2 ^ 4 from rfl, ← Nat.pow_mul]
  exact Nat.pow_le_pow_right (by decide) (by omega)

/-- A number in so many hexadecimal digits. -/
def hexText : Nat → Nat → List UInt8
  | 0, _ => []
  | d + 1, v => hexText d (v / 16) ++ [digit false (v % 16)]

theorem length_hexText (d v : Nat) : (hexText d v).length = d := by
  induction d generalizing v with
  | zero => rfl
  | succ d ih =>
    rw [hexText, length_append, ih]
    rfl

theorem tmpDigits_zero (radix n : Nat) : tmpDigits radix n 0 = [] := by
  cases n <;> rfl

theorem hexText_zero (d : Nat) : hexText d 0 = replicate d (ch '0') := by
  induction d with
  | zero => rfl
  | succ d ih =>
    rw [hexText, ih, replicate_succ']
    rfl

theorem hexText_tmpDigits (d fuel v : Nat) (hv : v < 16 ^ d) (hfuel : v < 16 ^ fuel) :
    replicate (d - (tmpDigits 16 fuel v).length) (ch '0') ++
      (tmpDigits 16 fuel v).reverse.map (digit false) = hexText d v := by
  induction d generalizing fuel v with
  | zero =>
    obtain rfl : v = 0 := by omega
    rw [tmpDigits_zero]
    rfl
  | succ d ih =>
    rcases Nat.eq_zero_or_pos v with rfl | hpos
    · rw [tmpDigits_zero, hexText_zero]
      exact append_nil _
    cases fuel with
    | zero => exact absurd hfuel (by omega)
    | succ fuel =>
      have hdigits := ih fuel (v / 16) (by omega) (by omega)
      rw [tmpDigits, if_neg (by omega), hexText, ← hdigits, length_cons, reverse_cons,
        map_append, Nat.add_sub_add_right, append_assoc]
      rfl

/-- What `%0*lx` writes for a number that is not too long. -/
theorem field_hexText {d v : Nat} (hd : 0 < d) (hv : v < 16 ^ d) (hlong : v < 2 ^ 64) :
    replicate (d - (digitsOf .hex v).length) (ch '0') ++ digitsText .hex false v =
      hexText d v := by
  unfold digitsText digitsOf
  split
  · rename_i hzero
    subst hzero
    obtain ⟨d, rfl⟩ : ∃ d', d = d' + 1 := ⟨d - 1, by omega⟩
    rw [hexText_zero, replicate_succ']
    rfl
  · exact hexText_tmpDigits d 64 v hv (Nat.lt_of_lt_of_le hlong (by decide))

/-- The text of a chunk. -/
def chunkText (maskp : Nat → BitVec w) (n q : Nat) : List UInt8 :=
  hexText ((chunkSize n q + 3) / 4) (chunkVal maskp (chunkSize n q) q).toNat

/-- The text of the lower `q` chunks, with a separator in front. -/
def printed (maskp : Nat → BitVec w) (n : Nat) (sep : List UInt8) : Nat → List UInt8
  | 0 => []
  | q + 1 => sep ++ chunkText maskp n q ++ printed maskp n [ch ','] q

end

/-! ## What is printed -/

section

variable {n buf buflen : Nat} {maskp : Nat → BitVec w}

section

variable (hdvd : 32 ∣ w) (hw : 0 < w) (hlong : w ≤ 64)
include hdvd hw hlong

/-- The text of one round. -/
theorem text_chunk {q : Nat} (hq : 32 * q < n) {sep : Nat} (hsep : sep = sepNone ∨ sep = sepComma) :
    text w separators chunkFormat
        [sep, (chunkSize n q + 3) / 4, (chunkVal maskp (chunkSize n q) q).toNat] =
      separators sep ++ chunkText maskp n q := by
  have hw32 : 32 ≤ w := le_of_dvd hw hdvd
  have hpow := pow_le_pow_width hw32
  have hsize : chunkSize n q ≤ 32 := min_le_left _ _
  have hpos : 0 < chunkSize n q := by
    unfold chunkSize
    omega
  have hat : stringAt separators (sep % 2 ^ w) = separators sep := by
    rcases hsep with rfl | rfl
    · rw [sepNone, Nat.mod_eq_of_lt (by omega)]
      rfl
    · rw [sepComma, Nat.mod_eq_of_lt (by omega)]
      rfl
  have hshort : (stringAt separators (sep % 2 ^ w)).length < 2 ^ 31 := by
    rw [hat]
    unfold separators
    split <;> decide
  have hval := chunkVal_lt hdvd hw maskp hsize q
  have hlt := (chunkVal maskp (chunkSize n q) q).isLt
  unfold chunkFormat chunkText
  rw [text_string hw32 hshort, hat, text_hex (by omega) hlt, text_nil, append_nil,
    field_hexText (by omega) (Nat.lt_of_lt_of_le hval (pow_bits_le _))
      (Nat.lt_of_lt_of_le hlt (Nat.pow_le_pow_right (by decide) hlong))]

/-- A round appends the text of its chunk. -/
theorem printChunk_spec (hint : buflen < 2 ^ 31) (hend : buf + buflen < 2 ^ w) {q sep : Nat}
    (hsep : sep = sepNone ∨ sep = sepComma) (hq : 32 * q < n) (hcs : Holds mem buf cs)
    (hroom : (cs ++ (separators sep ++ chunkText maskp n q)).length < buflen) :
    Written buf (cs ++ (separators sep ++ chunkText maskp n q))
      (appendf w separators buf (room buflen cs.length) chunkFormat
        [sep, (chunkSize n q + 3) / 4, (chunkVal maskp (chunkSize n q) q).toNat] cs.length mem) := by
  rw [length_append] at hroom
  have hsize : room buflen cs.length = buflen - cs.length := by
    unfold room
    omega
  rw [← text_chunk hdvd hw hlong hq hsep] at hroom ⊢
  exact appendf_fits (le_of_dvd hw hdvd) (by omega) (by omega) (by omega) hcs

/-- The rounds append the text of their chunks. -/
theorem printChunks_spec (hint : buflen < 2 ^ 31)
    (hend : buf + buflen < 2 ^ w) (q chunksz sep : Nat) (cs : List UInt8) (mem : Nat → UInt8)
    (hsep : sep = sepNone ∨ sep = sepComma) (hq : 32 * q < n + 32)
    (hchunksz : q ≠ 0 → chunksz = chunkSize n (q - 1)) (hcs : Holds mem buf cs)
    (hnul : q = 0 → mem (buf + cs.length) = 0)
    (hroom : (cs ++ printed maskp n (separators sep) q).length < buflen) :
    ∃ st, downFrom (printChunk maskp buf buflen) q ⟨chunksz, sep, cs.length, mem⟩ = st ∧
      Written buf (cs ++ printed maskp n (separators sep) q) (st.len, st.mem) := by
  induction q generalizing chunksz sep cs mem with
  | zero =>
    rw [printed, append_nil]
    exact ⟨_, rfl, mem, rfl, hcs, hnul rfl⟩
  | succ q ih =>
    obtain rfl : chunksz = chunkSize n q := hchunksz (succ_ne_zero _)
    rw [printed, ← append_assoc] at hroom ⊢
    have hq' : 32 * q < n := by omega
    have hroom' : (cs ++ (separators sep ++ chunkText maskp n q)).length < buflen := by
      rw [length_append] at hroom
      omega
    obtain ⟨mem', happend, hholds, hnul⟩ :=
      printChunk_spec hdvd hw hlong hint hend hsep hq' hcs hroom'
    have hchunk (hpos : q ≠ 0) : 32 = chunkSize n (q - 1) := by
      unfold chunkSize
      omega
    rw [downFrom_succ, printChunk, happend]
    exact ih 32 sepComma _ mem' (.inr rfl) (by omega) hchunk hholds (fun _ => hnul) hroom

end

/-- The characters that a bitmap of `n` bits takes: eight for a chunk, fewer for the first
one, and the commas. -/
def hexLength (n : Nat) : Nat := (chunkSize n ((n - 1) / 32) + 3) / 4 + 9 * ((n - 1) / 32)

theorem length_printed (maskp : Nat → BitVec w) (q : Nat) (hq : 32 * q < n) :
    (printed maskp n [ch ','] (q + 1)).length = 9 * q + 1 + (chunkSize n q + 3) / 4 := by
  induction q with
  | zero =>
    rw [printed, length_append, length_append, chunkText, length_hexText]
    exact Nat.add_zero _
  | succ q ih =>
    have hchunk : chunkSize n q = 32 := by
      unfold chunkSize
      omega
    rw [printed, length_append, length_append, chunkText, length_hexText, length_singleton]
    omega

/-- The whole text. -/
def bitmapText (maskp : Nat → BitVec w) (n : Nat) : List UInt8 :=
  printed maskp n [] ((n - 1) / 32 + 1)

theorem length_bitmapText (maskp : Nat → BitVec w) (hn : 0 < n) :
    (bitmapText maskp n).length = hexLength n := by
  have hcomma := length_printed (n := n) maskp ((n - 1) / 32) (by omega)
  unfold bitmapText hexLength
  rw [printed, length_append, length_append, length_singleton] at hcomma
  rw [printed, nil_append, length_append]
  omega

/-- The printer puts the text and a NUL into a buffer that is large enough. -/
theorem bitmapScnprintf_spec (hdvd : 32 ∣ w) (hw : 0 < w) (hlong : w ≤ 64) (hn : 0 < n)
    (hmax : n < 2 ^ 31) (hroom : hexLength n < buflen) (hint : buflen < 2 ^ 31)
    (hend : buf + buflen < 2 ^ w) (mem : Nat → UInt8) (maskp : Nat → BitVec w) :
    ∃ mem', bitmapScnprintf mem buf buflen maskp n = ((hexLength n : Int), mem') ∧
      Holds mem' buf (bitmapText maskp n) ∧ mem' (buf + hexLength n) = 0 := by
  have hchunksz : (if n % 32 = 0 then 32 else n % 32) = chunkSize n ((n - 1) / 32) := by
    unfold chunkSize
    split <;> omega
  -- the sum may overflow, and then the difference overflows again
  have hfirst : toInt (toInt (n + 31) / 32 * 32 - 32) = 32 * ((n - 1) / 32 : Nat) := by
    simp only [toInt, Int.bmod_def]
    split <;> split <;> omega
  have hrounds : ((32 * ((n - 1) / 32 : Nat) : Int) / 32 + 1).toNat = (n - 1) / 32 + 1 := by omega
  have hlen := length_bitmapText maskp hn
  obtain ⟨st, hprint, mem', hst, hholds, hnul⟩ : ∃ st, downFrom (printChunk maskp buf buflen)
      ((n - 1) / 32 + 1) ⟨chunkSize n ((n - 1) / 32), sepNone, 0, mem⟩ = st ∧
      Written buf (bitmapText maskp n) (st.len, st.mem) :=
    printChunks_spec hdvd hw hlong hint hend ((n - 1) / 32 + 1) _ sepNone [] mem (.inl rfl)
      (by omega) (fun _ => rfl) holds_nil (fun h => absurd h (succ_ne_zero _)) (hlen ▸ hroom)
  rw [hlen] at hst hnul
  refine ⟨mem', ?_, hholds, hnul⟩
  unfold bitmapScnprintf
  dsimp only
  rw [hchunksz, hfirst, hrounds, hprint, hst]

end

/-! ## What is parsed -/

section

variable {n : Nat} {maskp : Nat → BitVec w} {tail : List (Option UInt8)} {c : UInt8}

theorem digit_facts : ∀ x < 16, isspace (digit false x) = false ∧ digit false x ≠ 0 ∧
    digit false x ≠ ch ',' ∧ isxdigit (digit false x) = true ∧ unhex (digit false x) = x := by
  decide

/-- There is room for another digit. -/
theorem and_high_eq_zero {v : Nat} (h : v < 2 ^ 28) :
    BitVec.ofNat 32 v &&& ~~~(1#32 <<< 28 - 1#32) = 0#32 := by
  refine BitVec.eq_of_getLsbD_eq fun i hi => ?_
  rw [BitVec.getLsbD_and, BitVec.getLsbD_not, getLsbD_lowMask (by decide) (by decide),
    BitVec.getLsbD_zero, BitVec.getLsbD_ofNat]
  rcases lt_or_ge i 28 with hlt | hge
  · rw [decide_eq_true hlt, Bool.not_true, Bool.and_false, Bool.and_false]
  · rw [Nat.testBit_lt_two_pow (Nat.lt_of_lt_of_le h (Nat.pow_le_pow_right (by decide) hge)),
      Bool.and_false, Bool.false_and]

theorem shift_or_digit {v x : Nat} (hx : x < 16) (hv : v < 2 ^ 28) :
    BitVec.ofNat 32 v <<< 4 ||| BitVec.ofNat 32 x = BitVec.ofNat 32 (16 * v + x) := by
  apply BitVec.eq_of_toNat_eq
  rw [BitVec.toNat_or, BitVec.toNat_shiftLeft, BitVec.toNat_ofNat, BitVec.toNat_ofNat,
    BitVec.toNat_ofNat, Nat.mod_eq_of_lt (show v < 2 ^ 32 by omega),
    Nat.mod_eq_of_lt (show x < 2 ^ 32 by omega), Nat.mod_eq_of_lt (show 16 * v + x < 2 ^ 32 by omega),
    Nat.shiftLeft_eq, Nat.mod_eq_of_lt (by omega), Nat.mul_comm v]
  exact (two_pow_add_eq_or_of_lt hx v).symm

/-- One digit. -/
theorem getChunk_digit {v x totaldigits ndigits : Nat} (hc : isspace c = false)
    (hx : x < 16) (hv : v < 2 ^ 28) (rest : List (Option UInt8)) :
    getChunk (some (digit false x) :: rest) c totaldigits ndigits (BitVec.ofNat 32 v) =
      getChunk rest (digit false x) (totaldigits + 1) (ndigits + 1) (BitVec.ofNat 32 (16 * v + x)) := by
  obtain ⟨hspace, hnul, hcomma, hxdigit, hval⟩ := digit_facts x hx
  rw [getChunk, hspace, hc, hxdigit, hval, and_high_eq_zero hv, shift_or_digit hx hv]
  simp [hnul, hcomma]

/-- The digits of a number come to the number. -/
theorem getChunk_hexText (d v : Nat) (c : UInt8) (totaldigits : Nat) (rest : List (Option UInt8))
    (hc : isspace c = false) (hv : v < 16 ^ d) (hd : d ≤ 8) :
    ∃ c', isspace c' = false ∧ getChunk ((hexText d v).map some ++ rest) c totaldigits 0 0#32 =
        getChunk rest c' (totaldigits + d) d (BitVec.ofNat 32 v) := by
  induction d generalizing v c totaldigits rest with
  | zero =>
    obtain rfl : v = 0 := by omega
    exact ⟨c, hc, rfl⟩
  | succ d ih =>
    have hbound : 16 ^ d ≤ 16 ^ 7 := Nat.pow_le_pow_right (by decide) (by omega)
    obtain ⟨c', hc', hdigits⟩ := ih (v / 16) c totaldigits (some (digit false (v % 16)) :: rest) hc
      (by omega) (by omega)
    have hdigit : getChunk (some (digit false (v % 16)) :: rest) c' (totaldigits + d) d
        (BitVec.ofNat 32 (v / 16)) = _ := getChunk_digit hc' (by omega) (by omega) rest
    refine ⟨digit false (v % 16), (digit_facts (v % 16) (by omega)).1, ?_⟩
    rw [hexText, map_append, append_assoc]
    refine hdigits.trans (hdigit.trans ?_)
    rw [Nat.div_add_mod, Nat.add_assoc]

/-- A comma ends a chunk. -/
theorem getChunk_comma (hc : isspace c = false) (rest : List (Option UInt8))
    (totaldigits ndigits : Nat) (chunk : BitVec 32) :
    getChunk (some (ch ',') :: rest) c totaldigits ndigits chunk =
      .ok ⟨ch ',', totaldigits, ndigits, chunk, rest⟩ := by
  rw [getChunk, hc]
  simp [show isspace (ch ',') = false from rfl]

/-- Nothing follows, or a NUL. -/
def Terminated (tail : List (Option UInt8)) : Prop := tail = [] ∨ ∃ junk, tail = some 0 :: junk

theorem getChunk_terminated (h : Terminated tail)
    (hc : isspace c = false) (totaldigits ndigits : Nat) (chunk : BitVec 32) :
    ∃ r, getChunk tail c totaldigits ndigits chunk = .ok r ∧ r.ndigits = ndigits ∧
      r.chunk = chunk ∧ isspace r.c = false ∧ ¬ (r.rest ≠ [] ∧ r.c = ch ',') := by
  rcases h with rfl | ⟨junk, rfl⟩
  · exact ⟨_, rfl, rfl, rfl, hc, fun h => h.1 rfl⟩
  · refine ⟨⟨0, totaldigits, ndigits, chunk, junk⟩, ?_, rfl, rfl, rfl, fun h => by cases h.2⟩
    rw [getChunk]
    simp [show isspace 0 = false from rfl]

theorem fls_le {x m : Nat} (h : x < 2 ^ m) : fls x ≤ m := by
  unfold fls
  split
  · exact zero_le _
  · rename_i hne
    exact (log2_lt hne).mpr h

theorem bitsOf_orFirst (hw : 32 ≤ w) (dst : Nat → BitVec w) (chunk : BitVec 32) (i : Nat) :
    bitsOf (orFirst dst chunk) i = (bitsOf dst i || chunk.getLsbD i) := by
  unfold bitsOf orFirst
  rcases lt_or_ge i w with hlt | hge
  · rw [div_eq_of_lt hlt, Nat.mod_eq_of_lt hlt, update_self, BitVec.getLsbD_or,
      BitVec.getLsbD_setWidth, decide_eq_true hlt, Bool.true_and]
  · have hne : i / w ≠ 0 := ne_of_gt (div_pos hge (by omega))
    rw [update_of_ne hne, BitVec.getLsbD_of_ge chunk i (by omega), Bool.or_false]

/-- The state before the lower `q` chunks: the upper part of the bitmap. -/
structure Parsed (maskp : Nat → BitVec w) (n q : Nat) (st : ParseState w) : Prop where
  bits : ∀ i < n, bitsOf st.maskp i = (decide (32 * q + i < n) && bitsOf maskp (32 * q + i))
  clean : isspace st.c = false
  zero : st.nchunks = 0 → st.nbits = 0 ∧ ∀ i < n, bitsOf st.maskp i = false
  used : st.nchunks ≠ 0 → 0 ≤ st.nbits ∧ st.nbits + (32 * q : Nat) ≤ n

/-- The chunk that is read next. -/
def nextChunk (maskp : Nat → BitVec w) (n q : Nat) : BitVec 32 :=
  BitVec.ofNat 32 (chunkVal maskp (chunkSize n q) q).toNat

theorem getLsbD_nextChunk (hdvd : 32 ∣ w) (hw : 0 < w) (maskp : Nat → BitVec w) (n q j : Nat) :
    (nextChunk maskp n q).getLsbD j =
      (decide (j < 32 ∧ 32 * q + j < n) && bitsOf maskp (32 * q + j)) := by
  have hsize : chunkSize n q ≤ 32 := min_le_left _ _
  have hiff : j < chunkSize n q ↔ j < 32 ∧ 32 * q + j < n := by
    unfold chunkSize
    omega
  unfold nextChunk
  rw [BitVec.getLsbD_ofNat, BitVec.testBit_toNat, getLsbD_chunkVal hdvd hw maskp hsize,
    ← Bool.and_assoc, ← Bool.decide_and]
  congr 1
  exact decide_eq_decide.mpr ⟨fun h => hiff.mp h.2, fun h => ⟨h.1, hiff.mpr h⟩⟩

theorem toNat_nextChunk_lt (hdvd : 32 ∣ w) (hw : 0 < w) (maskp : Nat → BitVec w) (n q : Nat) :
    (nextChunk maskp n q).toNat < 2 ^ (n - 32 * q) := by
  refine toNat_lt_of_bits fun j hj => ?_
  rw [getLsbD_nextChunk hdvd hw, decide_eq_false (by omega), Bool.false_and]

variable {q : Nat} {st : ParseState w}

section

variable (hdvd : 32 ∣ w) (hw : 0 < w)
include hdvd hw

/-- A round takes the next chunk. -/
theorem Parsed.takeChunk (hint : n + w ≤ 2 ^ 31) (hq : 32 * q < n) (h : Parsed maskp n (q + 1) st)
    (hchunk : r.chunk = nextChunk maskp n q) (hc : isspace r.c = false) :
    (takeChunk n st r).2 = false ∧ Parsed maskp n q (takeChunk n st r).1 := by
  have hw32 : 32 ≤ w := le_of_dvd hw hdvd
  have hnext := getLsbD_nextChunk hdvd hw maskp n q
  rw [← hchunk] at hnext
  unfold BitmapHex.takeChunk
  split
  · -- a leading zero chunk
    rename_i hskip
    obtain ⟨hnbits, hzero⟩ := h.zero hskip.1
    refine ⟨rfl, ⟨?_, hc, h.zero, fun hne => absurd hskip.1 hne⟩⟩
    intro i hi
    rw [hzero i hi]
    rcases lt_or_ge i 32 with hlt | hge
    · have hbit := hnext i
      rw [hskip.2, BitVec.getLsbD_zero] at hbit
      simpa only [hlt, true_and] using hbit
    · have hbit := h.bits (i - 32) (by omega)
      rw [hzero _ (by omega), show 32 * (q + 1) + (i - 32) = 32 * q + i by omega] at hbit
      exact hbit
  · have hfls : fls r.chunk.toNat ≤ n - 32 * q := by
      rw [hchunk]
      exact fls_le (toNat_nextChunk_lt hdvd hw maskp n q)
    dsimp only
    generalize hadd : (if st.nchunks + 1 = 1 then fls r.chunk.toNat else 32) = add
    have hbound : 0 ≤ st.nbits + add ∧ st.nbits + add + (32 * q : Nat) ≤ n := by
      by_cases hfirst : st.nchunks = 0
      · rw [if_pos (by omega)] at hadd
        have hzero := (h.zero hfirst).1
        omega
      · rw [if_neg (by omega)] at hadd
        have hused := h.used hfirst
        omega
    rw [toInt_of_bounds (by omega) (by omega)]
    refine ⟨decide_eq_false (by omega), ⟨?_, hc, fun hnone => absurd hnone (succ_ne_zero _),
      fun _ => hbound⟩⟩
    intro i hi
    rw [bitsOf_orFirst hw32, bitsOf_bitmapShiftLeft _ hw hint _ hi, hnext]
    rcases lt_or_ge i 32 with hlt | hge
    · rw [decide_eq_false (by omega)]
      simp [hlt]
    · rw [decide_eq_true hge, Bool.true_and, h.bits (i - 32) (by omega),
        show 32 * (q + 1) + (i - 32) = 32 * q + i by omega,
        decide_eq_false (by omega : ¬ (i < 32 ∧ _)), Bool.false_and, Bool.or_false]

/-- What follows the digits of a chunk. -/
theorem getChunk_chunkText (maskp : Nat → BitVec w) (hq : 32 * q < n) (hc : isspace c = false)
    (totaldigits : Nat) (rest : List (Option UInt8)) :
    ∃ c' totaldigits' ndigits, isspace c' = false ∧ ndigits ≠ 0 ∧
      getChunk ((chunkText maskp n q).map some ++ rest) c totaldigits 0 0#32 =
        getChunk rest c' totaldigits' ndigits (nextChunk maskp n q) := by
  have hsize : chunkSize n q ≤ 32 := min_le_left _ _
  have hpos : 0 < chunkSize n q := by
    unfold chunkSize
    omega
  have hlt := Nat.lt_of_lt_of_le (chunkVal_lt hdvd hw maskp hsize q) (pow_bits_le _)
  obtain ⟨c', hc', hget⟩ := getChunk_hexText _ _ c totaldigits rest hc hlt (by omega)
  exact ⟨c', _, _, hc', by omega, hget⟩

/-- The text of the lower chunks completes the bitmap. -/
theorem parseFrom_printed (hint : n + w ≤ 2 ^ 31) (htail : Terminated tail) (q : Nat)
    (st : ParseState w) (hq : 32 * q < n) (h : Parsed maskp n (q + 1) st) :
    ∃ words, parseFrom n ((printed maskp n [] (q + 1)).map some ++ tail) st = (0, words) ∧
      ∀ i < n, bitsOf words i = bitsOf maskp i := by
  induction q generalizing st with
  | zero =>
    obtain ⟨c, totaldigits, ndigits, hc, hdigits, hget⟩ :=
      getChunk_chunkText hdvd hw maskp hq h.clean st.totaldigits tail
    obtain ⟨r, hr, hndigits, hchunk, hrc, hend⟩ := getChunk_terminated htail hc totaldigits ndigits
      (nextChunk maskp n 0)
    obtain ⟨hbits, hparsed⟩ := h.takeChunk hdvd hw hint hq hchunk hrc
    rw [printed, printed, nil_append, append_nil,
      parseFrom_eq (hget.trans hr) (hndigits ▸ hdigits) hbits, if_neg hend]
    refine ⟨_, rfl, fun i hi => ?_⟩
    have hbit := hparsed.bits i hi
    rw [Nat.zero_add, decide_eq_true hi] at hbit
    exact hbit
  | succ q ih =>
    have hrest : printed maskp n [ch ','] (q + 1) = ch ',' :: printed maskp n [] (q + 1) := rfl
    obtain ⟨c, totaldigits, ndigits, hc, hdigits, hget⟩ := getChunk_chunkText hdvd hw maskp hq
      h.clean st.totaldigits (some (ch ',') :: ((printed maskp n [] (q + 1)).map some ++ tail))
    rw [getChunk_comma hc] at hget
    obtain ⟨hbits, hparsed⟩ := h.takeChunk hdvd hw hint hq (r := ⟨ch ',', totaldigits, ndigits,
      nextChunk maskp n (q + 1), (printed maskp n [] (q + 1)).map some ++ tail⟩) rfl rfl
    have hmore : (printed maskp n [] (q + 1)).map some ++ tail ≠ [] := by
      intro hnil
      have hlen := congrArg length hnil
      rw [printed, length_append, length_map, nil_append, length_append,
        chunkText, length_hexText, chunkSize, length_nil] at hlen
      omega
    have htext : (printed maskp n [] (q + 1 + 1)).map some ++ tail =
        (chunkText maskp n (q + 1)).map some ++
          (some (ch ',') :: ((printed maskp n [] (q + 1)).map some ++ tail)) := by
      rw [printed, nil_append, hrest, map_append, map_cons, append_assoc, cons_append]
    rw [htext, parseFrom_eq hget hdigits hbits, if_pos ⟨hmore, rfl⟩]
    exact ih _ (by omega) hparsed

end

theorem bitmapParse_bitmapText (maskp : Nat → BitVec w) (hdvd : 32 ∣ w) (hw : 0 < w) (hn : 0 < n)
    (hint : n + w ≤ 2 ^ 31) (dst : Nat → BitVec w) (htail : Terminated tail) :
    ∃ words, bitmapParse ((bitmapText maskp n).map some ++ tail) dst n = (0, words) ∧
      ∀ i < n, bitsOf words i = bitsOf maskp i := by
  have hzero : ∀ i < n, bitsOf (bitmapZero dst n) i = false :=
    fun i hi => bitsOf_bitmapZero dst (le_of_dvd hw hdvd) hint hi
  refine parseFrom_printed hdvd hw hint htail ((n - 1) / 32) _ (by omega) ⟨?_, rfl, ?_, ?_⟩
  · intro i hi
    rw [decide_eq_false (by omega)]
    exact hzero i hi
  · exact fun _ => ⟨rfl, hzero⟩
  · exact absurd rfl

end

/-! ## The round trip -/

section

variable {n buf size : Nat}

/-- The bytes that the parser is given. -/
def bytesAt (mem : Nat → UInt8) (buf size : Nat) : List (Option UInt8) :=
  (List.range size).map fun i => some (mem (buf + i))

theorem bytesAt_holds (h : Holds mem buf cs) (hnul : mem (buf + cs.length) = 0)
    (hsize : cs.length ≤ size) :
    ∃ tail, Terminated tail ∧ bytesAt mem buf size = cs.map some ++ tail := by
  obtain ⟨m, rfl⟩ := Nat.exists_eq_add_of_le hsize
  have hfirst : (range cs.length).map (fun i => some (mem (buf + i))) = cs.map some := by
    refine ext_getElem (by simp) fun i hi hi' => ?_
    rw [length_map, length_range] at hi
    rw [getElem_map, getElem_map, getElem_range, h i hi, getD_eq_getElem _ _ hi]
  refine ⟨(range m).map fun i => some (mem (buf + (cs.length + i))), ?_, ?_⟩
  · cases m with
    | zero => exact .inl rfl
    | succ m =>
      refine .inr ⟨(range m).map fun i => some (mem (buf + (cs.length + (i + 1)))), ?_⟩
      rw [range_succ_eq_map, map_cons, map_map, Nat.add_zero, hnul]
      rfl
  · unfold bytesAt
    rw [range_add, map_append, hfirst, map_map]
    rfl

/-- The text of a bitmap in a buffer that is large enough, with or without what follows it
in memory, is parsed to the bitmap. -/
def HexRoundTrip (maskp : Nat → BitVec w) (n : Nat) : Prop :=
  ∀ (mem : Nat → UInt8) (buf buflen : Nat),
    hexLength n < buflen → buflen < 2 ^ 31 → buf + buflen < 2 ^ w →
    ∀ (dst : Nat → BitVec w) (size : Nat),
      (bitmapScnprintf mem buf buflen maskp n).1 ≤ size →
      let parsed := bitmapParse (bytesAt (bitmapScnprintf mem buf buflen maskp n).2 buf size) dst n
      parsed.1 = 0 ∧ ∀ i < n, bitsOf parsed.2 i = bitsOf maskp i

theorem hexRoundTrip (hdvd : 32 ∣ w) (hw : 0 < w) (hlong : w ≤ 64) (hn : 0 < n)
    (hint : n + w ≤ 2 ^ 31) (maskp : Nat → BitVec w) : HexRoundTrip maskp n := by
  intro mem buf buflen hroom hbuflen hend dst size hsize
  obtain ⟨mem', hprint, hholds, hnul⟩ :=
    bitmapScnprintf_spec hdvd hw hlong hn (by omega) hroom hbuflen hend mem maskp
  rw [hprint] at hsize ⊢
  rw [← length_bitmapText maskp hn] at hsize hnul
  obtain ⟨tail, htail, hbytes⟩ := bytesAt_holds hholds hnul (Int.ofNat_le.mp hsize)
  obtain ⟨words, hparse, hbits⟩ := bitmapParse_bitmapText maskp hdvd hw hn hint dst htail
  rw [hbytes, hparse]
  exact ⟨rfl, hbits⟩

/-- With longs of 32 or 64 bits, a bitmap whose words an `int` can count comes back from its
text, and so does every bitmap that the parser makes. -/
theorem bitmap_hex_round_trip (hw : w = 32 ∨ w = 64) (hn : 1 ≤ n) (hint : n + w - 1 < 2 ^ 31) :
    (∀ maskp : Nat → BitVec w, HexRoundTrip maskp n) ∧
    ∀ (bytes : List (Option UInt8)) (dst : Nat → BitVec w),
      (bitmapParse bytes dst n).1 = 0 → HexRoundTrip (bitmapParse bytes dst n).2 n := by
  have hdvd : 32 ∣ w := by omega
  have htrip : ∀ maskp : Nat → BitVec w, HexRoundTrip maskp n :=
    hexRoundTrip hdvd (by omega) (by omega) hn (by omega)
  exact ⟨htrip, fun bytes dst _ => htrip _⟩

/-- A bitmap of forty bits, printed and parsed with its NUL. -/
theorem bitmap_hex_round_trip_forty :
    (bitmapScnprintf (fun _ => 0) 4096 100 (fun _ => 0xA5#32) 40).1 = 11 ∧
    (bitmapParse (bytesAt (bitmapScnprintf (fun _ => 0) 4096 100 (fun _ => 0xA5#32) 40).2 4096 12)
      (fun _ => 0#32) 40).1 = 0 := by
  obtain ⟨mem', hprint, -, -⟩ : ∃ mem', bitmapScnprintf (fun _ => 0) 4096 100 (fun _ => 0xA5#32) 40 =
      ((hexLength 40 : Int), mem') ∧ _ :=
    bitmapScnprintf_spec (by decide) (by decide) (by decide) (by decide) (by decide) (by decide)
      (by decide) (by decide) (fun _ => 0) (fun _ => 0xA5#32)
  have hlen : (bitmapScnprintf (fun _ => 0) 4096 100 (fun _ => 0xA5#32) 40).1 = 11 := by
    rw [hprint]
    rfl
  refine ⟨hlen, ?_⟩
  exact ((bitmap_hex_round_trip (.inl rfl) (by decide) (by decide)).1 _ (fun _ => 0) 4096 100
    (by decide) (by decide) (by decide) (fun _ => 0#32) 12 (by rw [hlen]; decide)).1

end

/-! ## A bitmap of `INT_MAX` bits -/

section

variable {n : Nat}

section

variable (h : bitsToLongs 32 n ≤ 1)
include h

/-- If `BITS_TO_LONGS` overflows, nothing is shifted. -/
theorem bitmapShiftLeft_overflow (dst : Nat → BitVec 32) : bitmapShiftLeft dst 32 n 1 = dst 1 := by
  have hrounds : (bitsToLongs 32 n - (1 : Nat)).toNat = 0 := by omega
  show memsetWords 1 (shiftFrom (bitsToLongs 32 n) (n % 32) 1 0
    (bitsToLongs 32 n - (1 : Nat)).toNat dst) 1 = _
  rw [hrounds]
  rfl

theorem takeChunk_overflow (st : ParseState 32) (r : Chunk) :
    (takeChunk n st r).1.maskp 1 = st.maskp 1 := by
  unfold takeChunk
  split
  · rfl
  · show orFirst (bitmapShiftLeft st.maskp 32 n) r.chunk 1 = _
    rw [orFirst, update_of_ne Nat.one_ne_zero, bitmapShiftLeft_overflow h]

/-- The parser does not get beyond the first word. -/
theorem parseFrom_overflow (bytes : List (Option UInt8))
    (st : ParseState 32) : (parseFrom n bytes st).2 1 = st.maskp 1 := by
  induction hlen : bytes.length using Nat.strong_induction_on generalizing bytes st with
  | _ len ih =>
  rw [parseFrom]
  split
  · rfl
  rename_i r hr
  have hrest := length_getChunk _ _ _ _ _ hr
  split
  · rfl
  dsimp only
  split
  · exact takeChunk_overflow h st r
  split
  · rw [ih r.rest.length (by omega) r.rest _ rfl, takeChunk_overflow h]
  · exact takeChunk_overflow h st r

end

/-- Bit 32 -/
def secondWord : Nat → BitVec 32 := fun j => if j = 1 then 1#32 else 0#32

theorem memsetWords_zero (m : Nat) : memsetWords m (fun _ => 0#32) = fun _ => 0#32 := by
  funext j
  exact ite_self _

theorem bitmapZero_zero (n : Int) : bitmapZero (fun _ => 0#32) n = fun _ => 0#32 := by
  unfold bitmapZero
  split <;> exact memsetWords_zero _

theorem bitmapParse_overflow (h : bitsToLongs 32 n ≤ 1) (bytes : List (Option UInt8)) :
    bitsOf (bitmapParse bytes (fun _ => 0#32) n).2 32 = false := by
  have hword := parseFrom_overflow h bytes ⟨0, 0, 0, 0, bitmapZero (fun _ => 0#32) n⟩
  rw [bitmapZero_zero] at hword
  unfold bitsOf bitmapParse
  rw [bitmapZero_zero, hword]
  rfl

theorem not_hexRoundTrip (h : bitsToLongs 32 n ≤ 1) (hn : 32 < n) (hlen : hexLength n < 2 ^ 30) :
    ¬ HexRoundTrip secondWord n := by
  intro htrip
  obtain ⟨-, hbits⟩ := htrip (fun _ => 0) 4096 (2 ^ 30) hlen (by decide) (by decide)
    (fun _ => 0#32) _ (Int.self_le_toNat _)
  have hbit := hbits 32 hn
  rw [bitmapParse_overflow h] at hbit
  exact absurd hbit (by decide)

/-- A bitmap of `INT_MAX` bits loses all but its first word. -/
theorem bitmap_hex_round_trip_fails : ¬ HexRoundTrip secondWord (2 ^ 31 - 1) :=
  not_hexRoundTrip (by decide) (by decide) (by decide)

end

end LinuxKernel.Lib.BitmapHex
