/-
  Formats, conversions and the text they produce.

  Source: lib/vsprintf.c.

  The code writes a character only below `end` and moves the cursor in any case; that is
  `put`, and the conversions are written over any `put`, so that the text they produce
  without a bound is the same code with lists for a buffer (`formatFrom_eq`).  `w` is the width of `long`,
  `size_t` and pointers.  A format is the bytes before its NUL; arguments are numbers, read
  at the type that is asked for, and the strings are those at their addresses.  The store
  of `%n` is left out.
-/
import LinuxKernel.Foundation.CInt

namespace LinuxKernel.Lib.Vsprintf

open Foundation List

variable {flags : Flags} {fmt : List UInt8} {x width : Nat} {σ : Type}

/-! ## Characters and directives -/

section

/-- The code of a character. -/
def ch (c : Char) : UInt8 := UInt8.ofNat c.toNat

def isdigit (c : UInt8) : Bool := ch '0' ≤ c && c ≤ ch '9'

def isxdigit (c : UInt8) : Bool :=
  isdigit c || (ch 'A' ≤ c && c ≤ ch 'F') || (ch 'a' ≤ c && c ≤ ch 'f')

/-- `isspace`; 160 is the hard space of Latin-1 -/
def isspace (c : UInt8) : Bool := (9 ≤ c && c ≤ 13) || c == 32 || c == 160

def islower (c : UInt8) : Bool :=
  (ch 'a' ≤ c && c ≤ ch 'z') || (223 ≤ c && c ≤ 246) || 248 ≤ c

def toupper (c : UInt8) : UInt8 := if islower c then c - 32 else c

/-- `unhex`, and the value of a digit in `simple_strtoul` -/
def unhex (c : UInt8) : Nat := if isdigit c then c.toNat - 48 else (toupper c).toNat - 65 + 10

/-- The flags of `number` -/
structure Flags where
  zeropad : Bool
  sign : Bool
  plus : Bool
  space : Bool
  left : Bool
  special : Bool
  large : Bool

def noFlags : Flags := ⟨false, false, false, false, false, false, false⟩

/-- The loop at `repeat`: the flags before the conversion -/
def getFlags : List UInt8 → Flags → Flags × List UInt8
  | [], flags => (flags, [])
  | c :: fmt, flags =>
    if c = ch '-' then getFlags fmt { flags with left := true }
    else if c = ch '+' then getFlags fmt { flags with plus := true }
    else if c = ch ' ' then getFlags fmt { flags with space := true }
    else if c = ch '#' then getFlags fmt { flags with special := true }
    else if c = ch '0' then getFlags fmt { flags with zeropad := true }
    else (flags, c :: fmt)

/-- `skip_atoi` -/
def skipAtoi : List UInt8 → Int → Int × List UInt8
  | [], i => (i, [])
  | c :: fmt, i =>
    if isdigit c then skipAtoi fmt (toInt (i * 10 + c.toNat - 48)) else (i, c :: fmt)

/-- `va_arg`; what is missing reads as zero -/
def vaArg : List Nat → Nat × List Nat
  | [] => (0, [])
  | x :: args => (x, args)

inductive Qualifier where
  | none
  | h
  | l
  | L
  | Z
  | z
  | t

/-- What a directive says before its conversion character. -/
structure Directive where
  flags : Flags
  fieldWidth : Int
  precision : Int
  qualifier : Qualifier

def getFieldWidth (flags : Flags) : List UInt8 → List Nat → (Int × Flags) × List UInt8 × List Nat
  | [], args => ((-1, flags), [], args)
  | c :: fmt, args =>
    if isdigit c then
      let (fieldWidth, fmt) := skipAtoi (c :: fmt) 0
      ((fieldWidth, flags), fmt, args)
    else if c = ch '*' then
      let (x, args) := vaArg args
      let fieldWidth := toInt x
      if fieldWidth < 0 then ((toInt (-fieldWidth), { flags with left := true }), fmt, args)
      else ((fieldWidth, flags), fmt, args)
    else ((-1, flags), c :: fmt, args)

/-- The precision after the point -/
def getDigits : List UInt8 → List Nat → Int × List UInt8 × List Nat
  | [], args => (-1, [], args)
  | c :: fmt, args =>
    if isdigit c then
      let (precision, fmt) := skipAtoi (c :: fmt) 0
      (precision, fmt, args)
    else if c = ch '*' then
      let (x, args) := vaArg args
      (toInt x, fmt, args)
    else (-1, c :: fmt, args)

def getPrecision : List UInt8 → List Nat → Int × List UInt8 × List Nat
  | [], args => (-1, [], args)
  | c :: fmt, args =>
    if c = ch '.' then
      let (precision, fmt, args) := getDigits fmt args
      (if precision < 0 then 0 else precision, fmt, args)
    else (-1, c :: fmt, args)

/-- The qualifier that begins with `l` -/
def getLong : List UInt8 → Qualifier × List UInt8
  | [] => (.l, [])
  | c :: fmt => if c = ch 'l' then (.L, fmt) else (.l, c :: fmt)

def getQualifier : List UInt8 → Qualifier × List UInt8
  | [] => (.none, [])
  | c :: fmt =>
    if c = ch 'h' then (.h, fmt)
    else if c = ch 'l' then getLong fmt
    else if c = ch 'L' then (.L, fmt)
    else if c = ch 'Z' then (.Z, fmt)
    else if c = ch 'z' then (.z, fmt)
    else if c = ch 't' then (.t, fmt)
    else (.none, c :: fmt)

/-- What stands between `%` and the conversion character -/
def getDirective (fmt : List UInt8) (args : List Nat) : Directive × List UInt8 × List Nat :=
  let (flags, fmt) := getFlags fmt noFlags
  let ((fieldWidth, flags), fmt, args) := getFieldWidth flags fmt args
  let (precision, fmt, args) := getPrecision fmt args
  let (qualifier, fmt) := getQualifier fmt
  (⟨flags, fieldWidth, precision, qualifier⟩, fmt, args)

end

/-! ## Conversions -/

section

variable (put : σ → UInt8 → σ)

/-- A loop that puts one character `n` times -/
def putN (c : UInt8) : Nat → σ → σ
  | 0, s => s
  | n + 1, s => putN c n (put s c)

def putAll : List UInt8 → σ → σ
  | [], s => s
  | c :: cs, s => putAll cs (put s c)

inductive Base where
  | oct
  | dec
  | hex

def Base.radix : Base → Nat
  | .oct => 8
  | .dec => 10
  | .hex => 16

/-- The digits of `tmp`, the lowest first; a number of 64 bits has at most 64 -/
def tmpDigits (radix : Nat) : (n num : Nat) → List Nat
  | 0, _ => []
  | n + 1, num => if num = 0 then [] else num % radix :: tmpDigits radix n (num / radix)

/-- `small_digits` and `large_digits` -/
def digit (large : Bool) (d : Nat) : UInt8 :=
  if d < 10 then UInt8.ofNat (48 + d)
  else if large then UInt8.ofNat (55 + d) else UInt8.ofNat (87 + d)

/-- The `sign` of a number -/
def signOf (flags : Flags) (num : Nat) : Option UInt8 :=
  if flags.sign then
    if num ≥ 2 ^ 63 then some (ch '-')
    else if flags.plus then some (ch '+')
    else if flags.space then some (ch ' ')
    else none
  else none

/-- `number` -/
def number (num : Nat) (base : Base) (size precision : Int) (flags : Flags) (s : σ) : σ :=
  let zeropad := flags.zeropad && !flags.left
  let c := if zeropad then ch '0' else ch ' '
  let sign := signOf flags num
  let num := if flags.sign && num ≥ 2 ^ 63 then 2 ^ 64 - num else num
  let size := if sign.isSome then toInt (size - 1) else size
  let size :=
    if flags.special then
      match base with
      | .hex => toInt (size - 2)
      | .oct => toInt (size - 1)
      | .dec => size
    else size
  let tmp := if num = 0 then [0] else tmpDigits base.radix 64 num
  let precision : Int := if tmp.length > precision then tmp.length else precision
  let size := toInt (size - precision)
  let (n, size) := if zeropad || flags.left then (0, size) else postDec size
  let s := putN put (ch ' ') n s
  let s := putAll put sign.toList s
  let s :=
    if flags.special then
      match base with
      | .hex => put (put s (ch '0')) (digit flags.large 33)
      | .oct => put s (ch '0')
      | .dec => s
    else s
  let (n, size) := if flags.left then (0, size) else postDec size
  let s := putN put c n s
  let s := putN put (ch '0') (precision - tmp.length).toNat s
  let s := putAll put (tmp.reverse.map (digit flags.large)) s
  putN put (ch ' ') (postDec size).1 s

/-- The sign extension of the low `b` bits to a `long long` -/
def signExtend (b x : Nat) : Nat := ((x : Int).bmod (2 ^ b) % 2 ^ 64).toNat

/-- The argument of an integer conversion, as `num` -/
def numArg (w : Nat) (qualifier : Qualifier) (sign : Bool) (x : Nat) : Nat :=
  match qualifier with
  | .L => x % 2 ^ 64
  | .l => if sign then signExtend w x else x % 2 ^ w
  | .Z => x % 2 ^ w
  | .z => x % 2 ^ w
  | .t => signExtend w x
  | .h => if sign then signExtend 16 x else x % 2 ^ 16
  | .none => if sign then signExtend 32 x else x % 2 ^ 32

def pageSize : Nat := 4096

/-- `case 'c'` -/
def putChar (d : Directive) (x : Nat) (s : σ) : σ :=
  let (n, fieldWidth) := if d.flags.left then (0, d.fieldWidth) else preDec d.fieldWidth
  let s := putN put (ch ' ') n s
  let s := put s (UInt8.ofNat x)
  putN put (ch ' ') (preDec fieldWidth).1 s

/-- `case 's'`, with the string at the address -/
def putString (w : Nat) (d : Directive) (str : List UInt8) (s : σ) : σ :=
  let len := toInt (min str.length (d.precision % 2 ^ w).toNat : Nat)
  let (n, fieldWidth) := if d.flags.left then (0, d.fieldWidth) else fieldDec len d.fieldWidth
  let s := putN put (ch ' ') n s
  let s := putAll put (str.take len.toNat) s
  putN put (ch ' ') (fieldDec len fieldWidth).1 s

/-- What the conversion character asks for; integers come with the flags they add. -/
inductive Conversion where
  | char
  | string
  | pointer
  | count
  | percent
  | integer (base : Base) (sign large : Bool)
  | other (c : UInt8)

/-- The `case`s of the `switch` -/
def conversionOf (c : UInt8) : Conversion :=
  if c = ch 'c' then .char
  else if c = ch 's' then .string
  else if c = ch 'p' then .pointer
  else if c = ch 'n' then .count
  else if c = ch '%' then .percent
  else if c = ch 'o' then .integer .oct false false
  else if c = ch 'X' then .integer .hex false true
  else if c = ch 'x' then .integer .hex false false
  else if c = ch 'd' ∨ c = ch 'i' then .integer .dec true false
  else if c = ch 'u' then .integer .dec false false
  else .other c

/-- The string at an address, as `%s` takes it -/
def stringAt (strings : Nat → List UInt8) (addr : Nat) : List UInt8 :=
  if addr < pageSize then [ch '<', ch 'N', ch 'U', ch 'L', ch 'L', ch '>'] else strings addr

/-- The `switch` over the conversion character -/
def convert (w : Nat) (strings : Nat → List UInt8) (d : Directive) (args : List Nat) (s : σ) :
    Conversion → σ × List Nat
  | .char =>
    let (x, args) := vaArg args
    (putChar put d x s, args)
  | .string =>
    let (x, args) := vaArg args
    (putString put w d (stringAt strings (x % 2 ^ w)) s, args)
  | .pointer =>
    let (x, args) := vaArg args
    if d.fieldWidth = -1 then
      (number put (x % 2 ^ w) .hex (2 * (w / 8) : Nat) d.precision
        { d.flags with zeropad := true } s, args)
    else (number put (x % 2 ^ w) .hex d.fieldWidth d.precision d.flags s, args)
  | .count => (s, (vaArg args).2)
  | .percent => (put s (ch '%'), args)
  | .integer base sign large =>
    let (x, args) := vaArg args
    let flags := { d.flags with sign := d.flags.sign || sign, large := d.flags.large || large }
    (number put (numArg w d.qualifier flags.sign x) base d.fieldWidth d.precision flags s, args)
  | .other c => (put (put s (ch '%')) c, args)

end

/-! ## Formats -/

variable {d : Directive} {c : UInt8}

section

theorem length_getFlags_le (fmt : List UInt8) (flags : Flags) :
    (getFlags fmt flags).2.length ≤ fmt.length := by
  induction fmt generalizing flags with
  | nil => exact le_rfl
  | cons c fmt ih =>
    rw [getFlags]
    split_ifs
    all_goals first | exact le_rfl | exact le_trans (ih _) (Nat.le_succ _)

theorem length_skipAtoi_le (fmt : List UInt8) (i : Int) :
    (skipAtoi fmt i).2.length ≤ fmt.length := by
  induction fmt generalizing i with
  | nil => exact le_rfl
  | cons c fmt ih =>
    rw [skipAtoi]
    split
    · exact le_trans (ih _) (Nat.le_succ _)
    · exact le_rfl

theorem length_getFieldWidth_le (flags : Flags) (fmt : List UInt8) (args : List Nat) :
    (getFieldWidth flags fmt args).2.1.length ≤ fmt.length := by
  cases fmt with
  | nil => exact le_rfl
  | cons c fmt =>
    rw [getFieldWidth]
    split
    · exact length_skipAtoi_le _ _
    split
    · dsimp only
      split <;> exact Nat.le_succ _
    · exact le_rfl

section

variable (fmt : List UInt8)

theorem length_getDigits_le (args : List Nat) : (getDigits fmt args).2.1.length ≤ fmt.length := by
  cases fmt with
  | nil => exact le_rfl
  | cons c fmt =>
    rw [getDigits]
    split
    · exact length_skipAtoi_le _ _
    split
    · exact Nat.le_succ _
    · exact le_rfl

theorem length_getPrecision_le (args : List Nat) :
    (getPrecision fmt args).2.1.length ≤ fmt.length := by
  cases fmt with
  | nil => exact le_rfl
  | cons c fmt =>
    rw [getPrecision]
    split
    · exact le_trans (length_getDigits_le fmt args) (Nat.le_succ _)
    · exact le_rfl

theorem length_getLong_le : (getLong fmt).2.length ≤ fmt.length := by
  cases fmt with
  | nil => exact le_rfl
  | cons c fmt =>
    rw [getLong]
    split
    · exact Nat.le_succ _
    · exact le_rfl

theorem length_getQualifier_le : (getQualifier fmt).2.length ≤ fmt.length := by
  cases fmt with
  | nil => exact le_rfl
  | cons c fmt =>
    rw [getQualifier]
    split_ifs
    all_goals first
      | exact le_rfl
      | exact Nat.le_succ _
      | exact le_trans (length_getLong_le fmt) (Nat.le_succ _)

theorem length_getDirective_le (args : List Nat) :
    (getDirective fmt args).2.1.length ≤ fmt.length := by
  exact le_trans (length_getQualifier_le _) (le_trans (length_getPrecision_le _ _)
    (le_trans (length_getFieldWidth_le _ _ _) (length_getFlags_le _ _)))

end

variable (put : σ → UInt8 → σ) (w : Nat) (strings : Nat → List UInt8)

/-- The `for` loop over the format -/
def formatFrom (fmt : List UInt8) (args : List Nat) (s : σ) : σ :=
  match fmt with
  | [] => s
  | c :: fmt =>
    if c ≠ ch '%' then formatFrom fmt args (put s c)
    else
      let directive := getDirective fmt args
      match _hrest : directive.2.1 with
      | [] => put s (ch '%')
      | c :: rest =>
        let out := convert put w strings directive.1 directive.2.2 s (conversionOf c)
        formatFrom rest out.2 out.1
termination_by fmt.length
decreasing_by
  · exact Nat.lt_succ_self _
  · have hle := length_getDirective_le fmt args
    rw [_hrest] at hle
    exact Nat.lt_succ_of_lt hle

variable {put w strings} {args args' : List Nat}

theorem formatFrom_nil (args : List Nat) (s : σ) : formatFrom put w strings [] args s = s := by
  rw [formatFrom]

theorem formatFrom_char (h : c ≠ ch '%') (fmt : List UInt8) (args : List Nat) (s : σ) :
    formatFrom put w strings (c :: fmt) args s = formatFrom put w strings fmt args (put s c) := by
  rw [formatFrom, if_pos h]

theorem formatFrom_directive {rest : List UInt8} (h : getDirective fmt args = (d, c :: rest, args'))
    (s : σ) : formatFrom put w strings (ch '%' :: fmt) args s =
      formatFrom put w strings rest (convert put w strings d args' s (conversionOf c)).2
        (convert put w strings d args' s (conversionOf c)).1 := by
  rw [formatFrom, if_neg (by simp)]
  dsimp only
  split
  · rename_i hnil
    rw [h] at hnil
    cases hnil
  · rename_i c' rest' hcons
    rw [h] at hcons
    obtain ⟨rfl, rfl⟩ := cons.inj hcons
    rw [h]

theorem formatFrom_end (h : getDirective fmt args = (d, [], args')) (s : σ) :
    formatFrom put w strings (ch '%' :: fmt) args s = put s (ch '%') := by
  rw [formatFrom, if_neg (by simp)]
  dsimp only
  split
  · rfl
  · rename_i c' rest' hcons
    rw [h] at hcons
    cases hcons

variable (w strings)

/-- Output that is collected -/
def snoc (cs : List UInt8) (c : UInt8) : List UInt8 := cs ++ [c]

/-- The text that a format produces. -/
def text (fmt : List UInt8) (args : List Nat) : List UInt8 :=
  formatFrom snoc w strings fmt args []

end

/-! ## The code does not look at what it writes -/

section

variable {τ : Type} {put : σ → UInt8 → σ} {put' : τ → UInt8 → τ} {f : σ → τ}

section

variable (hf : ∀ s c, f (put s c) = put' (f s) c)
include hf

theorem putN_hom (c : UInt8) (n : Nat) (s : σ) : f (putN put c n s) = putN put' c n (f s) := by
  induction n generalizing s with
  | zero => rfl
  | succ n ih => rw [putN, putN, ih, hf]

theorem putAll_hom (cs : List UInt8) (s : σ) : f (putAll put cs s) = putAll put' cs (f s) := by
  induction cs generalizing s with
  | nil => rfl
  | cons c cs ih => rw [putAll, putAll, ih, hf]

theorem number_hom (num : Nat) (base : Base) (size precision : Int) (flags : Flags) (s : σ) :
    f (number put num base size precision flags s) =
      number put' num base size precision flags (f s) := by
  unfold number
  cases flags.special with
  | false => simp only [Bool.false_eq_true, if_false, putN_hom hf, putAll_hom hf]
  | true => cases base <;> simp only [if_true, hf, putN_hom hf, putAll_hom hf]

theorem putChar_hom (d : Directive) (x : Nat) (s : σ) :
    f (putChar put d x s) = putChar put' d x (f s) := by
  unfold putChar
  simp [putN_hom hf, hf]

theorem putString_hom (w : Nat) (d : Directive)
    (str : List UInt8) (s : σ) : f (putString put w d str s) = putString put' w d str (f s) := by
  unfold putString
  simp only [putN_hom hf, putAll_hom hf]

theorem convert_hom (w : Nat) (strings : Nat → List UInt8) (d : Directive) (args : List Nat) (s : σ)
    (conv : Conversion) : convert put' w strings d args (f s) conv =
      (f (convert put w strings d args s conv).1, (convert put w strings d args s conv).2) := by
  cases conv with
  | char => simp only [convert, putChar_hom hf]
  | string => simp only [convert, putString_hom hf]
  | pointer =>
    simp only [convert]
    split <;> simp [number_hom hf]
  | count => rfl
  | percent => simp only [convert, hf]
  | integer base sign large => simp only [convert, number_hom hf]
  | other c => simp only [convert, hf]

theorem formatFrom_hom (w : Nat)
    (strings : Nat → List UInt8) (fmt : List UInt8) (args : List Nat) (s : σ) :
    f (formatFrom put w strings fmt args s) = formatFrom put' w strings fmt args (f s) := by
  induction hn : fmt.length using Nat.strong_induction_on generalizing fmt args s with
  | _ n ih =>
  subst hn
  cases fmt with
  | nil => rw [formatFrom_nil, formatFrom_nil]
  | cons c fmt =>
    by_cases hc : c = ch '%'
    case neg =>
      rw [formatFrom_char hc, formatFrom_char hc, ih _ (Nat.lt_succ_self _) fmt args _ rfl, hf]
    subst hc
    obtain ⟨d, rest, args', hd⟩ : ∃ d rest args', getDirective fmt args = (d, rest, args') :=
      ⟨_, _, _, rfl⟩
    have hle := length_getDirective_le fmt args
    rw [hd] at hle
    cases rest with
    | nil => rw [formatFrom_end hd, formatFrom_end hd, hf]
    | cons c rest =>
      rw [formatFrom_directive hd, formatFrom_directive hd,
        ih _ (Nat.lt_succ_of_lt hle) rest _ _ rfl, convert_hom hf]

end

/-- Whatever the output goes to, it is the text. -/
theorem formatFrom_eq (put : σ → UInt8 → σ) (w : Nat) (strings : Nat → List UInt8)
    (fmt : List UInt8) (args : List Nat) (s : σ) :
    formatFrom put w strings fmt args s = (text w strings fmt args).foldl put s := by
  have hf (cs : List UInt8) (c : UInt8) : (snoc cs c).foldl put s = put (cs.foldl put s) c := by
    rw [snoc, foldl_append]
    rfl
  exact (formatFrom_hom hf w strings fmt args []).symm

end

/-! ## Texts -/

section

variable {w : Nat} {strings : Nat → List UInt8} {rest : List UInt8} {args args' : List Nat}

theorem putN_snoc (c : UInt8) (n : Nat) (cs : List UInt8) :
    putN snoc c n cs = cs ++ replicate n c := by
  induction n generalizing cs with
  | zero => exact (append_nil cs).symm
  | succ n ih =>
    rw [putN, ih, snoc, append_assoc]
    rfl

theorem putAll_snoc (l cs : List UInt8) : putAll snoc l cs = cs ++ l := by
  induction l generalizing cs with
  | nil => exact (append_nil cs).symm
  | cons c l ih =>
    rw [putAll, ih, snoc, append_assoc]
    rfl

/-- The text continues what was collected before. -/
theorem formatFrom_snoc (cs : List UInt8) :
    formatFrom snoc w strings fmt args cs = cs ++ text w strings fmt args := by
  have hf (l : List UInt8) (c : UInt8) : cs ++ snoc l c = snoc (cs ++ l) c := by
    rw [snoc, snoc, append_assoc]
  have hhom := formatFrom_hom hf w strings fmt args []
  rw [append_nil] at hhom
  exact hhom.symm

theorem text_nil : text w strings [] args = [] := formatFrom_nil _ _

theorem text_char (h : c ≠ ch '%') :
    text w strings (c :: fmt) args = c :: text w strings fmt args := by
  rw [text, formatFrom_char h, formatFrom_snoc]
  rfl

theorem text_directive (h : getDirective fmt args = (d, c :: rest, args')) :
    text w strings (ch '%' :: fmt) args =
      (convert snoc w strings d args' [] (conversionOf c)).1 ++
        text w strings rest (convert snoc w strings d args' [] (conversionOf c)).2 := by
  rw [text, formatFrom_directive h, formatFrom_snoc]

theorem length_tmpDigits_le (radix : Nat) (n num : Nat) : (tmpDigits radix n num).length ≤ n := by
  induction n generalizing num with
  | zero => exact le_rfl
  | succ n ih =>
    rw [tmpDigits]
    split
    · exact Nat.zero_le _
    · exact Nat.succ_le_succ (ih _)

/-- The digits of a number, the lowest first; zero has one. -/
def digitsOf (base : Base) (num : Nat) : List Nat :=
  if num = 0 then [0] else tmpDigits base.radix 64 num

theorem length_digitsOf_le (base : Base) (num : Nat) : (digitsOf base num).length ≤ 64 := by
  unfold digitsOf
  split
  · decide
  · exact length_tmpDigits_le _ _ _

/-- The digits as they are written. -/
def digitsText (base : Base) (large : Bool) (num : Nat) : List UInt8 :=
  (digitsOf base num).reverse.map (digit large)

/-- A number without a sign and a base in front, in a field that it ends. -/
theorem number_snoc {num : Nat} {base : Base} {size : Int} (cs : List UInt8)
    (hleft : flags.left = false) (hspecial : flags.special = false)
    (hsign : signOf flags num = none) (hnum : flags.sign = true → num < 2 ^ 63) (hlo : -1 ≤ size)
    (hhi : size < 2 ^ 31) : number snoc num base size (-1) flags cs =
      cs ++ replicate (size - (digitsOf base num).length).toNat
        (if flags.zeropad then ch '0' else ch ' ') ++ digitsText base flags.large num := by
  have hlen := length_digitsOf_le base num
  have hkeep : (if (flags.sign && decide (num ≥ 2 ^ 63)) = true then 2 ^ 64 - num else num) = num := by
    rw [if_neg]
    simp only [Bool.and_eq_true, decide_eq_true_eq, not_and]
    intro hset
    exact Nat.not_le.mpr (hnum hset)
  have hprecision : (if ((digitsOf base num).length : Int) > -1 then ((digitsOf base num).length : Int)
      else -1) = (digitsOf base num).length := if_pos (by omega)
  unfold number
  dsimp only
  rw [hkeep, hsign, hleft, hspecial]
  rw [show (if num = 0 then [0] else tmpDigits base.radix 64 num) = digitsOf base num from rfl]
  rw [hprecision]
  simp only [Option.isSome_none, Bool.false_eq_true, if_false, Bool.not_false, Bool.and_true,
    Bool.or_false, putN_snoc, putAll_snoc]
  rw [toInt_of_bounds (by omega) (by omega)]
  cases flags.zeropad with
  | true =>
    have hleft := postDec_snd (x := size - (digitsOf base num).length) (by omega) (by omega)
    simp only [if_true, postDec_fst]
    rw [show (postDec (size - (digitsOf base num).length)).2.toNat = 0 by omega]
    simp [digitsText]
  | false =>
    have hleft := postDec_snd (x := size - (digitsOf base num).length) (by omega) (by omega)
    have hleft' := postDec_snd (x := (postDec (size - (digitsOf base num).length)).2)
      (by omega) (by omega)
    simp only [Bool.false_eq_true, if_false, postDec_fst]
    rw [show (postDec (size - (digitsOf base num).length)).2.toNat = 0 by omega,
      show (postDec (postDec (size - (digitsOf base num).length)).2).2.toNat = 0 by omega]
    simp [digitsText]

theorem signExtend_eq {b : Nat} (hb : b ≤ 64) (hx : 2 * x < 2 ^ b) : signExtend b x = x := by
  have hle : 2 ^ b ≤ 2 ^ 64 := Nat.pow_le_pow_right (by decide) hb
  unfold signExtend
  rw [Int.bmod_eq_of_le (by omega) (by omega)]
  omega

/-- The flags of `%d` -/
def signedFlags : Flags := { noFlags with sign := true }

/-- `%d` with a field width, for a number that is not negative. -/
theorem convert_decimal {width : Int} (hx : x < 2 ^ 31) (hlo : -1 ≤ width) (hhi : width < 2 ^ 31) :
    convert snoc w strings ⟨noFlags, width, -1, .none⟩ (x :: args) [] (conversionOf (ch 'd')) =
      (replicate (width - (digitsOf .dec x).length).toNat (ch ' ') ++ digitsText .dec false x,
        args) := by
  have hnum : signExtend 32 x = x := signExtend_eq (by decide) (by omega)
  have hnumber : number snoc x .dec width (-1) signedFlags [] = _ :=
    number_snoc [] rfl rfl (by simp [signOf, signedFlags, noFlags]; omega) (fun _ => by omega)
      hlo hhi
  simp only [convert, vaArg, noFlags, numArg]
  rw [hnum]
  refine Prod.ext ?_ rfl
  refine hnumber.trans ?_
  rfl

theorem text_decimal (hx : x < 2 ^ 31) : text w strings (ch '%' :: ch 'd' :: rest) (x :: args) =
      digitsText .dec false x ++ text w strings rest args := by
  have hd : getDirective (ch 'd' :: rest) (x :: args) =
      (⟨noFlags, -1, -1, .none⟩, ch 'd' :: rest, x :: args) := rfl
  rw [text_directive hd, convert_decimal hx (Int.le_refl _) (by decide)]
  rw [show ((-1 : Int) - (digitsOf .dec x).length).toNat = 0 by omega]
  rfl

/-- A string that is not justified to the left, with what it takes of it. -/
theorem putString_snoc {str : List UInt8} {len : Nat} (hleft : d.flags.left = false)
    (hlen : toInt (min str.length (d.precision % 2 ^ w).toNat : Nat) = len) (cs : List UInt8) :
    putString snoc w d str cs =
      cs ++ replicate (fieldDec len d.fieldWidth).1 (ch ' ') ++ str.take len ++
        replicate (fieldDec len (fieldDec len d.fieldWidth).2).1 (ch ' ') := by
  simp only [putString, hlen, hleft, Bool.false_eq_true, if_false, putN_snoc, putAll_snoc,
    Int.toNat_natCast]

/-- `%s` without a field width, for a string that an `int` can measure. -/
theorem text_string {addr : Nat} (hw : 32 ≤ w)
    (hlen : (stringAt strings (addr % 2 ^ w)).length < 2 ^ 31) :
    text w strings (ch '%' :: ch 's' :: rest) (addr :: args) =
      stringAt strings (addr % 2 ^ w) ++ text w strings rest args := by
  have hd : getDirective (ch 's' :: rest) (addr :: args) =
      (⟨noFlags, -1, -1, .none⟩, ch 's' :: rest, addr :: args) := rfl
  have hpow : 2 ^ 32 ≤ 2 ^ w := Nat.pow_le_pow_right (by decide) hw
  have hcast : (2 : Int) ^ w = ((2 ^ w : Nat) : Int) := (Int.natCast_pow 2 w).symm
  have hprecision : ((-1 : Int) % 2 ^ w).toNat = 2 ^ w - 1 := by
    rw [Int.emod_eq_add_self_emod, Int.emod_eq_of_lt (by omega) (by omega)]
    omega
  have hconv : conversionOf (ch 's') = .string := rfl
  generalize hstr : stringAt strings (addr % 2 ^ w) = str at *
  have hmin : toInt (min str.length ((-1 : Int) % 2 ^ w).toNat : Nat) = str.length := by
    rw [Nat.min_eq_left (by omega), toInt_natCast hlen]
  have hdec : fieldDec (str.length : Int) (-1) = (0, -2) := by rfl
  have hdec' : (fieldDec (str.length : Int) (-2)).1 = 0 := by
    unfold fieldDec
    rw [if_neg (by omega)]
  have hput := putString_snoc (d := ⟨noFlags, -1, -1, .none⟩) rfl hmin []
  rw [hdec, hdec'] at hput
  rw [text_directive hd, hconv]
  simp [convert, vaArg, hstr, hput]

theorem getFieldWidth_star (h : width < 2 ^ 31) :
    getFieldWidth flags (ch '*' :: fmt) (width :: args) = (((width : Int), flags), fmt, args) := by
  have hdigit : isdigit (ch '*') = false := rfl
  have hwidth : toInt width = width := toInt_natCast h
  have hpos : ¬ (width : Int) < 0 := by omega
  simp [getFieldWidth, hdigit, vaArg, hwidth, hpos]

/-- The flags of `%0x` -/
def zeropadFlags : Flags := { noFlags with zeropad := true }

/-- A directive, part by part. -/
theorem getDirective_eq {fmt1 fmt2 fmt3 fmt4 : List UInt8} {args1 args2 : List Nat} {flags' : Flags}
    {fieldWidth precision : Int} {qualifier : Qualifier}
    (hflags : getFlags fmt noFlags = (flags, fmt1))
    (hwidth : getFieldWidth flags fmt1 args = ((fieldWidth, flags'), fmt2, args1))
    (hprecision : getPrecision fmt2 args1 = (precision, fmt3, args2))
    (hqualifier : getQualifier fmt3 = (qualifier, fmt4)) :
    getDirective fmt args = (⟨flags', fieldWidth, precision, qualifier⟩, fmt4, args2) := by
  simp [getDirective, hflags, hwidth, hprecision, hqualifier]

/-- `%lx` with leading zeros. -/
theorem convert_hex (hwidth : width < 2 ^ 31) (hx : x < 2 ^ w) :
    convert snoc w strings ⟨zeropadFlags, width, -1, .l⟩ (x :: args) [] (conversionOf (ch 'x')) =
      (replicate (width - (digitsOf .hex x).length) (ch '0') ++ digitsText .hex false x,
        args) := by
  have hconv : conversionOf (ch 'x') = .integer .hex false false := rfl
  have hnum : numArg w .l zeropadFlags.sign x = x := Nat.mod_eq_of_lt hx
  have hnumber : number snoc x .hex width (-1) zeropadFlags [] = _ :=
    number_snoc [] rfl rfl rfl (fun h => by cases h) (by omega) (by omega)
  rw [Int.toNat_sub] at hnumber
  rw [hconv]
  simp only [convert, vaArg, Bool.or_false]
  rw [hnum, hnumber]
  rfl

/-- `%0*lx` -/
theorem text_hex (hwidth : width < 2 ^ 31) (hx : x < 2 ^ w) :
    text w strings (ch '%' :: ch '0' :: ch '*' :: ch 'l' :: ch 'x' :: rest) (width :: x :: args) =
      replicate (width - (digitsOf .hex x).length) (ch '0') ++ digitsText .hex false x ++
        text w strings rest args := by
  have hd : getDirective (ch '0' :: ch '*' :: ch 'l' :: ch 'x' :: rest) (width :: x :: args) =
      (⟨zeropadFlags, width, -1, .l⟩, ch 'x' :: rest, x :: args) :=
    getDirective_eq rfl (getFieldWidth_star hwidth) rfl rfl
  rw [text_directive hd, convert_hex hwidth hx]

end

end LinuxKernel.Lib.Vsprintf
