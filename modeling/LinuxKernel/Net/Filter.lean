/-
  Socket filters: the checker and the interpreter.

  Source: net/core/filter.c, `load_pointer`, `__load_pointer`, `sk_run_filter`,
  `sk_chk_filter`; include/linux/filter.h; `skb_header_pointer` of
  include/linux/skbuff.h.

  The two functions are separate switches over the instruction codes and are
  modelled separately.  `int pc` is a 32-bit word, so that a jump wraps as in C.
  What C leaves undefined is a fault of the model: a fetch outside the program, a
  scratch index out of range, a division by zero.  A shift by 32 or more gives 0.
-/
import LinuxKernel.Foundation.Loop

namespace LinuxKernel.Net.Filter

open Foundation

/-! ## Instructions -/

abbrev Code := BitVec 16

abbrev BPF_LD : Code := 0x00
abbrev BPF_LDX : Code := 0x01
abbrev BPF_ST : Code := 0x02
abbrev BPF_STX : Code := 0x03
abbrev BPF_ALU : Code := 0x04
abbrev BPF_JMP : Code := 0x05
abbrev BPF_RET : Code := 0x06
abbrev BPF_MISC : Code := 0x07

abbrev BPF_W : Code := 0x00
abbrev BPF_H : Code := 0x08
abbrev BPF_B : Code := 0x10
abbrev BPF_IMM : Code := 0x00
abbrev BPF_ABS : Code := 0x20
abbrev BPF_IND : Code := 0x40
abbrev BPF_MEM : Code := 0x60
abbrev BPF_LEN : Code := 0x80
abbrev BPF_MSH : Code := 0xa0

abbrev BPF_ADD : Code := 0x00
abbrev BPF_SUB : Code := 0x10
abbrev BPF_MUL : Code := 0x20
abbrev BPF_DIV : Code := 0x30
abbrev BPF_OR : Code := 0x40
abbrev BPF_AND : Code := 0x50
abbrev BPF_LSH : Code := 0x60
abbrev BPF_RSH : Code := 0x70
abbrev BPF_NEG : Code := 0x80
abbrev BPF_JA : Code := 0x00
abbrev BPF_JEQ : Code := 0x10
abbrev BPF_JGT : Code := 0x20
abbrev BPF_JGE : Code := 0x30
abbrev BPF_JSET : Code := 0x40
abbrev BPF_K : Code := 0x00
abbrev BPF_X : Code := 0x08
abbrev BPF_A : Code := 0x10
abbrev BPF_TAX : Code := 0x00
abbrev BPF_TXA : Code := 0x80

def BPF_CLASS (code : Code) : Code := code &&& 0x07

def BPF_MAXINSNS : Nat := 4096
def BPF_MEMWORDS : Nat := 16

def SKF_AD_OFF : Int := -0x1000
def SKF_AD_PROTOCOL : Int := 0
def SKF_AD_PKTTYPE : Int := 4
def SKF_AD_IFINDEX : Int := 8
def SKF_NET_OFF : Int := -0x100000
def SKF_LL_OFF : Int := -0x200000

/-- `struct sock_filter` -/
structure SockFilter where
  code : Code
  jt : BitVec 8
  jf : BitVec 8
  k : BitVec 32

/-! ## The checker -/

/-- The codes that `sk_chk_filter` accepts as they are. -/
def plainCodes : List Code :=
  [BPF_ALU ||| BPF_ADD ||| BPF_K, BPF_ALU ||| BPF_ADD ||| BPF_X,
   BPF_ALU ||| BPF_SUB ||| BPF_K, BPF_ALU ||| BPF_SUB ||| BPF_X,
   BPF_ALU ||| BPF_MUL ||| BPF_K, BPF_ALU ||| BPF_MUL ||| BPF_X,
   BPF_ALU ||| BPF_DIV ||| BPF_X,
   BPF_ALU ||| BPF_AND ||| BPF_K, BPF_ALU ||| BPF_AND ||| BPF_X,
   BPF_ALU ||| BPF_OR ||| BPF_K, BPF_ALU ||| BPF_OR ||| BPF_X,
   BPF_ALU ||| BPF_LSH ||| BPF_K, BPF_ALU ||| BPF_LSH ||| BPF_X,
   BPF_ALU ||| BPF_RSH ||| BPF_K, BPF_ALU ||| BPF_RSH ||| BPF_X,
   BPF_ALU ||| BPF_NEG,
   BPF_LD ||| BPF_W ||| BPF_ABS, BPF_LD ||| BPF_H ||| BPF_ABS, BPF_LD ||| BPF_B ||| BPF_ABS,
   BPF_LD ||| BPF_W ||| BPF_LEN,
   BPF_LD ||| BPF_W ||| BPF_IND, BPF_LD ||| BPF_H ||| BPF_IND, BPF_LD ||| BPF_B ||| BPF_IND,
   BPF_LD ||| BPF_IMM,
   BPF_LDX ||| BPF_W ||| BPF_LEN, BPF_LDX ||| BPF_B ||| BPF_MSH, BPF_LDX ||| BPF_IMM,
   BPF_MISC ||| BPF_TAX, BPF_MISC ||| BPF_TXA,
   BPF_RET ||| BPF_K, BPF_RET ||| BPF_A]

/-- The codes with a scratch index. -/
def scratchCodes : List Code :=
  [BPF_LD ||| BPF_MEM, BPF_LDX ||| BPF_MEM, BPF_ST, BPF_STX]

/-- The conditional jumps. -/
def branchCodes : List Code :=
  [BPF_JMP ||| BPF_JEQ ||| BPF_K, BPF_JMP ||| BPF_JEQ ||| BPF_X,
   BPF_JMP ||| BPF_JGE ||| BPF_K, BPF_JMP ||| BPF_JGE ||| BPF_X,
   BPF_JMP ||| BPF_JGT ||| BPF_K, BPF_JMP ||| BPF_JGT ||| BPF_X,
   BPF_JMP ||| BPF_JSET ||| BPF_K, BPF_JMP ||| BPF_JSET ||| BPF_X]

/-- The body of the loop of `sk_chk_filter`. -/
def checkInsn (flen pc : Nat) (ftest : SockFilter) : Bool :=
  if ftest.code ∈ plainCodes then true
  else if ftest.code = BPF_ALU ||| BPF_DIV ||| BPF_K then decide (ftest.k ≠ 0)
  else if ftest.code ∈ scratchCodes then decide (¬ ftest.k.toNat ≥ BPF_MEMWORDS)
  else if ftest.code = BPF_JMP ||| BPF_JA then decide (¬ ftest.k.toNat ≥ flen - pc - 1)
  else if ftest.code ∈ branchCodes then
    decide (¬ (pc + ftest.jt.toNat + 1 ≥ flen ∨ pc + ftest.jf.toNat + 1 ≥ flen))
  else false

/-- The loop of `sk_chk_filter`, from `pc` on. -/
def checkFrom (flen : Nat) : Nat → List SockFilter → Bool
  | _, [] => true
  | pc, ftest :: rest => checkInsn flen pc ftest && checkFrom flen (pc + 1) rest

/-- `sk_chk_filter(filter, flen) == 0`, for the `flen` instructions of the program. -/
def skChkFilter (filter : List SockFilter) : Bool :=
  if filter.length = 0 ∨ filter.length > BPF_MAXINSNS then false
  else checkFrom filter.length 0 filter &&
    match filter.getLast? with
    | some last => decide (BPF_CLASS last.code = BPF_RET)
    | none => false

/-! ## Packets -/

/-- A packet: the linear part in memory, and the bytes of the whole packet, of which
those behind the linear part come from its pages. -/
structure SkBuff where
  memory : Int → BitVec 8
  head : Int
  data : Int
  tail : Int
  networkHeader : Int
  macHeader : Int
  len : Nat
  dataLen : Nat
  paged : Nat → BitVec 8
  protocol : BitVec 16
  pktType : BitVec 32
  ifindex : BitVec 32

namespace SkBuff

def headlen (skb : SkBuff) : Int := skb.len - skb.dataLen

/-- The bytes behind a pointer. -/
abbrev Bytes := Nat → BitVec 8

/-- `skb_copy_bits`, for an offset that is not negative. -/
def copyBits (skb : SkBuff) (offset : Int) (len : Nat) : Option Bytes :=
  if offset > (skb.len : Int) - len then none
  else some fun i =>
    if offset + i < skb.headlen then skb.memory (skb.data + offset + i)
    else skb.paged (offset + i).toNat

/-- `skb_header_pointer` -/
def headerPointer (skb : SkBuff) (offset : Int) (len : Nat) : Option Bytes :=
  if skb.headlen - offset ≥ len then some fun i => skb.memory (skb.data + offset + i)
  else skb.copyBits offset len

/-- `__load_pointer` -/
def loadPointerSlow (skb : SkBuff) (k : Int) : Option Bytes :=
  let ptr : Option Int :=
    if k ≥ SKF_NET_OFF then some (skb.networkHeader + k - SKF_NET_OFF)
    else if k ≥ SKF_LL_OFF then some (skb.macHeader + k - SKF_LL_OFF)
    else none
  match ptr with
  | some ptr =>
    if ptr ≥ skb.head ∧ ptr < skb.tail then some fun i => skb.memory (ptr + i) else none
  | none => none

/-- `load_pointer` -/
def loadPointer (skb : SkBuff) (k : Int) (size : Nat) : Option Bytes :=
  if k ≥ 0 then skb.headerPointer k size
  else if k ≥ SKF_AD_OFF then none
  else skb.loadPointerSlow k

end SkBuff

/-! ## The interpreter -/

inductive Src where
  | X
  | K
  deriving DecidableEq

inductive AluOp where
  | ADD
  | SUB
  | MUL
  | DIV
  | AND
  | OR
  | LSH
  | RSH
  deriving DecidableEq

inductive Cond where
  | JGT
  | JGE
  | JEQ
  | JSET
  deriving DecidableEq

inductive Size where
  | W
  | H
  | B
  deriving DecidableEq

/-- The cases of the switch of `sk_run_filter`. -/
inductive Op where
  | alu (op : AluOp) (src : Src)
  | neg
  | ja
  | branch (cond : Cond) (src : Src)
  | ldAbs (size : Size)
  | ldLen
  | ldxLen
  | ldInd (size : Size)
  | ldxMsh
  | ldImm
  | ldxImm
  | ldMem
  | ldxMem
  | tax
  | txa
  | retK
  | retA
  | st
  | stx
  deriving DecidableEq

def Src.bits : Src → Code
  | .X => BPF_X
  | .K => BPF_K

def AluOp.bits : AluOp → Code
  | .ADD => BPF_ADD
  | .SUB => BPF_SUB
  | .MUL => BPF_MUL
  | .DIV => BPF_DIV
  | .AND => BPF_AND
  | .OR => BPF_OR
  | .LSH => BPF_LSH
  | .RSH => BPF_RSH

def Cond.bits : Cond → Code
  | .JGT => BPF_JGT
  | .JGE => BPF_JGE
  | .JEQ => BPF_JEQ
  | .JSET => BPF_JSET

def Size.bits : Size → Code
  | .W => BPF_W
  | .H => BPF_H
  | .B => BPF_B

/-- The label of a case. -/
def Op.label : Op → Code
  | .alu op src => BPF_ALU ||| op.bits ||| src.bits
  | .neg => BPF_ALU ||| BPF_NEG
  | .ja => BPF_JMP ||| BPF_JA
  | .branch cond src => BPF_JMP ||| cond.bits ||| src.bits
  | .ldAbs size => BPF_LD ||| size.bits ||| BPF_ABS
  | .ldLen => BPF_LD ||| BPF_W ||| BPF_LEN
  | .ldxLen => BPF_LDX ||| BPF_W ||| BPF_LEN
  | .ldInd size => BPF_LD ||| size.bits ||| BPF_IND
  | .ldxMsh => BPF_LDX ||| BPF_B ||| BPF_MSH
  | .ldImm => BPF_LD ||| BPF_IMM
  | .ldxImm => BPF_LDX ||| BPF_IMM
  | .ldMem => BPF_LD ||| BPF_MEM
  | .ldxMem => BPF_LDX ||| BPF_MEM
  | .tax => BPF_MISC ||| BPF_TAX
  | .txa => BPF_MISC ||| BPF_TXA
  | .retK => BPF_RET ||| BPF_K
  | .retA => BPF_RET ||| BPF_A
  | .st => BPF_ST
  | .stx => BPF_STX

def aluOps : List AluOp := [.ADD, .SUB, .MUL, .DIV, .AND, .OR, .LSH, .RSH]
def conds : List Cond := [.JGT, .JGE, .JEQ, .JSET]
def sizes : List Size := [.W, .H, .B]

/-- All cases of the switch. -/
def ops : List Op :=
  aluOps.flatMap (fun op => [.alu op .X, .alu op .K]) ++ [.neg, .ja] ++
  conds.flatMap (fun cond => [.branch cond .K, .branch cond .X]) ++
  sizes.map .ldAbs ++ [.ldLen, .ldxLen] ++ sizes.map .ldInd ++
  [.ldxMsh, .ldImm, .ldxImm, .ldMem, .ldxMem, .tax, .txa, .retK, .retA, .st, .stx]

/-- `switch (fentry->code)`: the case with that label, or none (`default`). -/
def decode (code : Code) : Option Op := ops.find? fun op => decide (op.label = code)

/-- The variables of `sk_run_filter`. -/
structure Machine where
  pc : BitVec 32
  A : BitVec 32
  X : BitVec 32
  mem : Nat → BitVec 32

/-- How `sk_run_filter` is left: by BPF_RET, since a packet load failed, since the divisor
in X was 0, at an unknown code, or behind the last instruction. -/
inductive Exit where
  | ret (value : BitVec 32)
  | loadFailed
  | zeroDivisor
  | unknownCode
  | fellThrough
  deriving DecidableEq

/-- The value that `sk_run_filter` returns. -/
def Exit.value : Exit → BitVec 32
  | .ret value => value
  | _ => 0

def Src.value (m : Machine) (f : SockFilter) : Src → BitVec 32
  | .X => m.X
  | .K => f.k

/-- `A op= ..`; division is done apart. -/
def AluOp.eval (a b : BitVec 32) : AluOp → BitVec 32
  | .ADD => a + b
  | .SUB => a - b
  | .MUL => a * b
  | .DIV => a / b
  | .AND => a &&& b
  | .OR => a ||| b
  | .LSH => a <<< b.toNat
  | .RSH => a >>> b.toNat

def Cond.eval (a b : BitVec 32) : Cond → Bool
  | .JGT => decide (a.toNat > b.toNat)
  | .JGE => decide (a.toNat ≥ b.toNat)
  | .JEQ => decide (a = b)
  | .JSET => decide (a &&& b ≠ 0)

def Size.bytes : Size → Nat
  | .W => 4
  | .H => 2
  | .B => 1

/-- `ntohl`, `ntohs` or the byte itself. -/
def Size.get (p : SkBuff.Bytes) : Size → BitVec 32
  | .W => (p 0 ++ p 1 ++ p 2 ++ p 3).setWidth 32
  | .H => (p 0 ++ p 1).setWidth 32
  | .B => (p 0).setWidth 32

/-- The ancillary data. -/
def ancillary (skb : SkBuff) (k : Int) : Option (BitVec 32) :=
  if k - SKF_AD_OFF = SKF_AD_PROTOCOL then some (skb.protocol.setWidth 32)
  else if k - SKF_AD_OFF = SKF_AD_PKTTYPE then some skb.pktType
  else if k - SKF_AD_OFF = SKF_AD_IFINDEX then some skb.ifindex
  else none

/-- What an instruction does: `none` is a fault; otherwise the function is left, or the
loop goes on, with `pc++` at its end. -/
abbrev Outcome := Option (Exit ⊕ Machine)

def Machine.next (m : Machine) : Outcome := some (.inr { m with pc := m.pc + 1 })

def exit (e : Exit) : Outcome := some (.inl e)

/-- `load_w`, `load_h`, `load_b` and the second switch. -/
def load (skb : SkBuff) (m : Machine) (size : Size) (k : BitVec 32) : Outcome :=
  match skb.loadPointer k.toInt size.bytes with
  | some ptr => { m with A := size.get ptr }.next
  | none =>
    match ancillary skb k.toInt with
    | some value => { m with A := value }.next
    | none => exit .loadFailed

/-- One case of the switch. -/
def exec (skb : SkBuff) (m : Machine) (f : SockFilter) : Op → Outcome
  | .alu .DIV .X => if m.X = 0 then exit .zeroDivisor else { m with A := m.A / m.X }.next
  | .alu .DIV .K => if f.k = 0 then none else { m with A := m.A / f.k }.next
  | .alu op src => { m with A := op.eval m.A (src.value m f) }.next
  | .neg => { m with A := -m.A }.next
  | .ja => { m with pc := m.pc + f.k }.next
  | .branch cond src =>
    let off := if cond.eval m.A (src.value m f) then f.jt else f.jf
    { m with pc := m.pc + off.setWidth 32 }.next
  | .ldAbs size => load skb m size f.k
  | .ldLen => { m with A := BitVec.ofNat 32 skb.len }.next
  | .ldxLen => { m with X := BitVec.ofNat 32 skb.len }.next
  | .ldInd size => load skb m size (m.X + f.k)
  | .ldxMsh =>
    match skb.loadPointer f.k.toInt 1 with
    | some ptr => { m with X := ((ptr 0 &&& 0xf).setWidth 32) <<< 2 }.next
    | none => exit .loadFailed
  | .ldImm => { m with A := f.k }.next
  | .ldxImm => { m with X := f.k }.next
  | .ldMem => if f.k.toNat < BPF_MEMWORDS then { m with A := m.mem f.k.toNat }.next else none
  | .ldxMem => if f.k.toNat < BPF_MEMWORDS then { m with X := m.mem f.k.toNat }.next else none
  | .tax => { m with X := m.A }.next
  | .txa => { m with A := m.X }.next
  | .retK => exit (.ret f.k)
  | .retA => exit (.ret m.A)
  | .st =>
    if f.k.toNat < BPF_MEMWORDS then
      { m with mem := Function.update m.mem f.k.toNat m.A }.next
    else none
  | .stx =>
    if f.k.toNat < BPF_MEMWORDS then
      { m with mem := Function.update m.mem f.k.toNat m.X }.next
    else none

/-- One round of the loop of `sk_run_filter`. -/
def round (skb : SkBuff) (filter : List SockFilter) (m : Machine) : Outcome :=
  if m.pc.toInt < filter.length then
    if m.pc.toInt < 0 then none
    else
      match filter[m.pc.toNat]? with
      | none => none
      | some fentry =>
        match decode fentry.code with
        | none => exit .unknownCode
        | some op => exec skb m fentry op
  else exit .fellThrough

/-- `sk_run_filter`, with any contents of the registers and of the scratch memory. -/
def skRunFilter (skb : SkBuff) (filter : List SockFilter) (A X : BitVec 32)
    (mem : Nat → BitVec 32) : Option Exit :=
  loop (round skb filter) ⟨0, A, X, mem⟩

end LinuxKernel.Net.Filter
