/-
  Checked socket filters run safely.

  What the checker establishes for each instruction (`Safe`) is what the interpreter
  needs there: every round of a checked program either leaves the loop or goes on with
  a larger `pc` inside the program.
-/
import LinuxKernel.Net.Filter

namespace LinuxKernel.Net.Filter

open Foundation

variable {skb : SkBuff} {filter : List SockFilter} {f : SockFilter} {op : Op} {m : Machine}
  {flen pc : Nat} {mem : Nat → BitVec 32}

/-! ## What the checker establishes -/

theorem label_of_decode {code : Code} (h : decode code = some op) : op.label = code := by
  have := List.find?_some h
  simpa using this

/-- Every code that the checker lets pass has a case in the interpreter. -/
theorem decode_of_checkInsn (h : checkInsn flen pc f = true) : ∃ op, decode f.code = some op := by
  have hplain : (plainCodes.all fun code => (decode code).isSome) = true := by decide +kernel
  have hscratch : (scratchCodes.all fun code => (decode code).isSome) = true := by decide +kernel
  have hbranch : (branchCodes.all fun code => (decode code).isSome) = true := by decide +kernel
  refine Option.isSome_iff_exists.mp ?_
  unfold checkInsn at h
  split at h
  · exact List.all_eq_true.mp hplain _ ‹_›
  split at h
  · next hdiv => rw [hdiv]; decide +kernel
  split at h
  · exact List.all_eq_true.mp hscratch _ ‹_›
  split at h
  · next hja => rw [hja]; decide +kernel
  split at h
  · exact List.all_eq_true.mp hbranch _ ‹_›
  · cases h

/-- What the interpreter needs of an instruction at `pc`. -/
def Safe (flen pc : Nat) (f : SockFilter) : Op → Prop
  | .alu .DIV .K => f.k ≠ 0
  | .ldMem | .ldxMem | .st | .stx => f.k.toNat < BPF_MEMWORDS
  | .ja => pc + f.k.toNat + 1 < flen
  | .branch _ _ => pc + f.jt.toNat + 1 < flen ∧ pc + f.jf.toNat + 1 < flen
  | _ => True

/-- The label of a case decides which check is made. -/
theorem safe_of_checkInsn (hcheck : checkInsn flen pc f = true) (hop : decode f.code = some op) :
    Safe flen pc f op := by
  have hlabel := label_of_decode hop
  unfold checkInsn at hcheck
  rw [← hlabel] at hcheck
  cases op with
  | alu op src =>
    cases op <;> cases src <;> first | trivial | skip
    have hk : f.k ≠ 0 := of_decide_eq_true hcheck
    exact hk
  | ja =>
    have hlt := of_decide_eq_true hcheck
    show pc + f.k.toNat + 1 < flen
    omega
  | branch cond src =>
    have hplain : (Op.branch cond src).label ∉ plainCodes := by cases cond <;> cases src <;> decide
    have hdiv : (Op.branch cond src).label ≠ BPF_ALU ||| BPF_DIV ||| BPF_K := by
      cases cond <;> cases src <;> decide
    have hscratch : (Op.branch cond src).label ∉ scratchCodes := by
      cases cond <;> cases src <;> decide
    have hja : (Op.branch cond src).label ≠ BPF_JMP ||| BPF_JA := by
      cases cond <;> cases src <;> decide
    have hbranch : (Op.branch cond src).label ∈ branchCodes := by cases cond <;> cases src <;> decide
    rw [if_neg hplain, if_neg hdiv, if_neg hscratch, if_neg hja, if_pos hbranch] at hcheck
    have hlt := of_decide_eq_true hcheck
    show pc + f.jt.toNat + 1 < flen ∧ pc + f.jf.toNat + 1 < flen
    omega
  | ldMem | ldxMem | st | stx => exact Nat.lt_of_not_ge (of_decide_eq_true hcheck)
  | _ => trivial

/-- The loop of the checker looks at every instruction. -/
theorem checkInsn_of_checkFrom {filter : List SockFilter} {pc i : Nat}
    (hcheck : checkFrom flen pc filter = true) (hf : filter[i]? = some f) :
    checkInsn flen (pc + i) f = true := by
  induction filter generalizing pc i with
  | nil => simp at hf
  | cons g rest ih =>
    rw [checkFrom, Bool.and_eq_true] at hcheck
    cases i with
    | zero =>
      obtain rfl : g = f := by simpa using hf
      exact hcheck.1
    | succ i =>
      have := ih hcheck.2 (by simpa using hf)
      rwa [Nat.add_assoc, Nat.add_comm 1 i] at this

/-- A checked program: every instruction is safe, and the last one returns. -/
structure Checked (filter : List SockFilter) : Prop where
  length_le : filter.length ≤ BPF_MAXINSNS
  length_pos : 0 < filter.length
  insn : ∀ pc f, filter[pc]? = some f → ∃ op, decode f.code = some op ∧ Safe filter.length pc f op
  last : ∀ f op, filter[filter.length - 1]? = some f → decode f.code = some op →
    op = .retK ∨ op = .retA

theorem class_ret (h : BPF_CLASS op.label = BPF_RET) : op = .retK ∨ op = .retA := by
  cases op with
  | retK => exact .inl rfl
  | retA => exact .inr rfl
  | alu op src => revert h; cases op <;> cases src <;> decide
  | branch cond src => revert h; cases cond <;> cases src <;> decide
  | ldAbs size | ldInd size => revert h; cases size <;> decide
  | _ => revert h; decide

theorem checked_of_skChkFilter (h : skChkFilter filter = true) : Checked filter := by
  unfold skChkFilter at h
  split at h
  · cases h
  rw [Bool.and_eq_true] at h
  obtain ⟨hfrom, hlast⟩ := h
  refine ⟨by omega, by omega, ?_, ?_⟩
  · intro pc f hf
    have hcheck := checkInsn_of_checkFrom hfrom hf
    rw [Nat.zero_add] at hcheck
    obtain ⟨op, hop⟩ := decode_of_checkInsn hcheck
    exact ⟨op, hop, safe_of_checkInsn hcheck hop⟩
  · intro f op hf hop
    rw [List.getLast?_eq_getElem?, hf] at hlast
    have hclass := of_decide_eq_true hlast
    rw [← label_of_decode hop] at hclass
    exact class_ret hclass

/-! ## One round -/

/-- The ways a checked program is left. -/
def Exit.Proper : Exit → Prop
  | .ret _ | .loadFailed | .zeroDivisor => True
  | .unknownCode | .fellThrough => False

/-- The round leaves the loop properly, or goes on behind `pc`, inside the program. -/
def Advances (flen pc : Nat) (out : Outcome) : Prop :=
  (∃ e, out = some (.inl e) ∧ e.Proper) ∨
  ∃ m', out = some (.inr m') ∧ pc < m'.pc.toNat ∧ m'.pc.toNat < flen

theorem advances_exit {e : Exit} (he : e.Proper) : Advances flen pc (exit e) := .inl ⟨e, rfl, he⟩

/-- `pc += off` and `pc++`. -/
theorem advances_jump (off : BitVec 32) (hflen : flen ≤ BPF_MAXINSNS)
    (hoff : m.pc.toNat + off.toNat + 1 < flen) :
    Advances flen m.pc.toNat { m with pc := m.pc + off }.next := by
  have hmax : flen ≤ 4096 := hflen
  have hpc : (m.pc + off + 1).toNat = m.pc.toNat + off.toNat + 1 := by
    rw [BitVec.toNat_add, BitVec.toNat_add, Nat.mod_eq_of_lt (a := m.pc.toNat + off.toNat) (by omega)]
    exact Nat.mod_eq_of_lt (show m.pc.toNat + off.toNat + 1 < 2 ^ 32 by omega)
  refine .inr ⟨_, rfl, ?_, ?_⟩
  · show _ < (m.pc + off + 1).toNat
    omega
  · show (m.pc + off + 1).toNat < _
    omega

section

variable (hflen : flen ≤ BPF_MAXINSNS)
include hflen

/-- An instruction that is not a jump. -/
theorem advances_next (hnext : m.pc.toNat + 1 < flen) : Advances flen m.pc.toNat m.next := by
  have h := advances_jump 0 hflen (by simpa using hnext)
  simpa using h

theorem advances_load {size : Size} {k : BitVec 32}
    (hnext : m.pc.toNat + 1 < flen) : Advances flen m.pc.toNat (load skb m size k) := by
  unfold load
  split
  · exact advances_next hflen hnext
  split
  · exact advances_next hflen hnext
  · exact advances_exit trivial

/-- What a safe instruction does; only BPF_RET may be the last one. -/
theorem exec_advances (hsafe : Safe flen m.pc.toNat f op)
    (hnext : m.pc.toNat + 1 < flen ∨ op = .retK ∨ op = .retA) :
    Advances flen m.pc.toNat (exec skb m f op) := by
  rcases hnext with hnext | rfl | rfl
  · have hgo : ∀ A X mem, Advances flen m.pc.toNat (Machine.next ⟨m.pc, A, X, mem⟩) :=
      fun A X mem => advances_next hflen hnext
    cases op with
    | alu op src =>
      cases op <;> cases src <;> try exact hgo _ _ _
      case DIV.X =>
        by_cases hX : m.X = 0
        · rw [exec, if_pos hX]
          exact advances_exit trivial
        · rw [exec, if_neg hX]
          exact hgo _ _ _
      case DIV.K =>
        rw [exec, if_neg hsafe]
        exact hgo _ _ _
    | ja => exact advances_jump f.k hflen hsafe
    | branch cond src =>
      obtain ⟨hjt, hjf⟩ := hsafe
      refine advances_jump _ hflen ?_
      split
      · exact hjt
      · exact hjf
    | ldAbs size => exact advances_load hflen hnext
    | ldInd size => exact advances_load hflen hnext
    | ldxMsh =>
      rw [exec]
      split
      · exact hgo _ _ _
      · exact advances_exit trivial
    | ldMem | ldxMem | st | stx =>
      have hk : f.k.toNat < BPF_MEMWORDS := hsafe
      rw [exec, if_pos hk]
      exact hgo _ _ _
    | retK | retA => exact advances_exit trivial
    | neg | ldLen | ldxLen | ldImm | ldxImm | tax | txa => exact hgo _ _ _
  · exact advances_exit trivial
  · exact advances_exit trivial

end

/-- `pc` is inside the program. -/
def InProgram (filter : List SockFilter) (m : Machine) : Prop := m.pc.toNat < filter.length

theorem toInt_eq_toNat (pc : BitVec 32) (h : pc.toNat ≤ BPF_MAXINSNS) : pc.toInt = pc.toNat := by
  have hmax : pc.toNat ≤ 4096 := h
  rw [BitVec.toInt_eq_toNat_of_lt (by omega)]

section

variable (skb : SkBuff) (hc : Checked filter) (hm : InProgram filter m)
include hc hm

/-- The instruction of a round does not depend on the scratch memory. -/
theorem round_eq : ∃ f op,
    filter[m.pc.toNat]? = some f ∧ decode f.code = some op ∧ Safe filter.length m.pc.toNat f op ∧
    ∀ mem, round skb filter { m with mem := mem } = exec skb { m with mem := mem } f op := by
  have hin : m.pc.toNat < filter.length := hm
  have hint := toInt_eq_toNat m.pc (Nat.le_of_lt (Nat.lt_of_lt_of_le hin hc.length_le))
  have hf : filter[m.pc.toNat]? = some filter[m.pc.toNat] := List.getElem?_eq_getElem hin
  obtain ⟨op, hop, hsafe⟩ := hc.insn _ _ hf
  refine ⟨_, op, hf, hop, hsafe, fun mem => ?_⟩
  rw [round, if_pos (by dsimp only; omega), if_neg (by dsimp only; omega), hf]
  simp [hop]

theorem round_advances : Advances filter.length m.pc.toNat (round skb filter m) := by
  obtain ⟨f, op, hf, hop, hsafe, heq⟩ := round_eq skb hc hm
  rw [heq m.mem]
  refine exec_advances hc.length_le hsafe ?_
  have hin : m.pc.toNat < filter.length := hm
  by_cases hlast : m.pc.toNat + 1 < filter.length
  · exact .inl hlast
  · have hpc : m.pc.toNat = filter.length - 1 := by omega
    rw [hpc] at hf
    exact .inr (hc.last f op hf hop)

end

/-! ## Whole runs -/

/-- The rest of the program gets shorter from round to round. -/
theorem rounds_return (skb : SkBuff) (hc : Checked filter) (hm : InProgram filter m) :
    ∃ e, rounds (round skb filter) filter.length m = some e ∧ e.Proper := by
  have hround (m) (hm : InProgram filter m) : (∃ e, round skb filter m = some (.inl e) ∧ e.Proper) ∨
      ∃ m', round skb filter m = some (.inr m') ∧ InProgram filter m' ∧
        filter.length - 1 - m'.pc.toNat < filter.length - 1 - m.pc.toNat := by
    rcases round_advances skb hc hm with hexit | ⟨m', heq, hlt, hin⟩
    · exact .inl hexit
    · exact .inr ⟨m', heq, hin, by omega⟩
  have hpos := hc.length_pos
  exact rounds_of_measure hround _ m hm (by omega)

theorem inProgram_of_reaches (hc : Checked filter) {m₀ : Machine} (hstart : InProgram filter m₀)
    (hreach : Reaches (round skb filter) m₀ m) : InProgram filter m :=
  hreach.invariant hstart fun {y z} hy hz => by
    rcases round_advances skb hc hy with ⟨e, heq, -⟩ | ⟨m', heq, -, hin⟩
    · rw [heq] at hz
      cases hz
    · rw [heq] at hz
      obtain rfl : m' = z := by simpa using hz
      exact hin

/-- For every program that `sk_chk_filter` accepts, every packet and every contents of
the registers and the scratch memory: `sk_run_filter` returns after at most `flen`
instructions, by BPF_RET, after a failed packet load or at a division by X = 0; and
at every instruction it executes, `pc` is inside the program, the code has a case,
no scratch index is out of range, and no divisor is 0. -/
theorem checked_filter_runs_safely (hchk : skChkFilter filter = true) (skb : SkBuff)
    (A X : BitVec 32) (mem : Nat → BitVec 32) :
    (∃ e, rounds (round skb filter) filter.length ⟨0, A, X, mem⟩ = some e ∧
      skRunFilter skb filter A X mem = some e ∧
      ((∃ v, e = .ret v) ∨ e = .loadFailed ∨ e = .zeroDivisor)) ∧
    ∀ m, Reaches (round skb filter) ⟨0, A, X, mem⟩ m →
      0 ≤ m.pc.toInt ∧ m.pc.toInt < filter.length ∧
      ∃ f op, filter[m.pc.toNat]? = some f ∧ decode f.code = some op ∧
        (op ∈ [.ldMem, .ldxMem, .st, .stx] → f.k.toNat < BPF_MEMWORDS) ∧
        (op = .alu .DIV .K → f.k ≠ 0) ∧
        (op = .alu .DIV .X → m.X = 0 → round skb filter m = exit .zeroDivisor) := by
  have hc := checked_of_skChkFilter hchk
  have hstart : InProgram filter ⟨0, A, X, mem⟩ := hc.length_pos
  refine ⟨?_, ?_⟩
  · obtain ⟨e, he, hproper⟩ := rounds_return skb hc hstart
    refine ⟨e, he, loop_of_rounds _ he, ?_⟩
    cases e with
    | ret v => exact .inl ⟨v, rfl⟩
    | loadFailed => exact .inr (.inl rfl)
    | zeroDivisor => exact .inr (.inr rfl)
    | unknownCode => exact absurd hproper id
    | fellThrough => exact absurd hproper id
  · intro m hreach
    have hm := inProgram_of_reaches hc hstart hreach
    obtain ⟨f, op, hf, hop, hsafe, heq⟩ := round_eq skb hc hm
    have hint := toInt_eq_toNat m.pc (Nat.le_of_lt (Nat.lt_of_lt_of_le hm hc.length_le))
    have hin : m.pc.toNat < filter.length := hm
    refine ⟨by omega, by omega, f, op, hf, hop, ?_, ?_, ?_⟩
    · intro hmem
      simp only [List.mem_cons, List.not_mem_nil, or_false] at hmem
      rcases hmem with rfl | rfl | rfl | rfl <;> exact hsafe
    · rintro rfl
      exact hsafe
    · rintro rfl hX
      rw [heq m.mem, exec, if_pos hX]

/-- `A /= X; return 1` -/
def divideByX : List SockFilter :=
  [⟨BPF_ALU ||| BPF_DIV ||| BPF_X, 0, 0, 0⟩, ⟨BPF_RET ||| BPF_K, 0, 0, 1⟩]

/-- The checker accepts it, and it is left by neither BPF_RET nor a packet load. -/
theorem divideByX_zero_divisor : skChkFilter divideByX = true ∧
    ∀ skb mem, skRunFilter skb divideByX 0 0 mem = some .zeroDivisor :=
  ⟨by decide, fun _ _ => loop_of_rounds 1 rfl⟩

/-- A packet without bytes. -/
def emptyPacket : SkBuff := ⟨fun _ => 0, 0, 0, 0, 0, 0, 0, 0, fun _ => 0, 0, 0, 0⟩

/-- With X = 3 it returns 1. -/
theorem divideByX_runs_safely : skChkFilter divideByX = true ∧
    skRunFilter emptyPacket divideByX 7 3 (fun _ => 0) = some (.ret 1) ∧
    ∃ e, rounds (round emptyPacket divideByX) 2 ⟨0, 7, 3, fun _ => 0⟩ = some e := by
  have hchk : skChkFilter divideByX = true := by decide
  obtain ⟨⟨e, he, -⟩, -⟩ := checked_filter_runs_safely hchk emptyPacket 7 3 fun _ => 0
  exact ⟨hchk, loop_of_rounds 2 rfl, e, he⟩

/-! ## Scratch memory -/

/-- The slot that an instruction loads. -/
def loads (f : SockFilter) : Op → List Nat
  | .ldMem | .ldxMem => [f.k.toNat]
  | _ => []

/-- The slot that an instruction stores. -/
def stores (f : SockFilter) : Op → List Nat
  | .st | .stx => [f.k.toNat]
  | _ => []

/-- `Ran skb filter m₀ w m`: from `m₀` the loop comes to `m`, and has stored the slots `w`. -/
inductive Ran (skb : SkBuff) (filter : List SockFilter) (m₀ : Machine) : List Nat → Machine → Prop
  | start : Ran skb filter m₀ [] m₀
  | next {w : List Nat} {m m' : Machine} {f : SockFilter} {op : Op} : Ran skb filter m₀ w m →
      filter[m.pc.toNat]? = some f → decode f.code = some op →
      round skb filter m = some (.inr m') → Ran skb filter m₀ (stores f op ++ w) m'

/-- Every slot that is loaded has been stored before. -/
def StoresFirst (skb : SkBuff) (filter : List SockFilter) (m₀ : Machine) : Prop :=
  ∀ w m f op, Ran skb filter m₀ w m → filter[m.pc.toNat]? = some f → decode f.code = some op →
    ∀ k ∈ loads f op, k ∈ w

/-- What an instruction makes of the contents `mem`. -/
def newMem (m : Machine) (f : SockFilter) (mem : Nat → BitVec 32) : Op → Nat → BitVec 32
  | .st => Function.update mem f.k.toNat m.A
  | .stx => Function.update mem f.k.toNat m.X
  | _ => mem

/-- Other contents of the slots that are not loaded change nothing but the contents. -/
theorem exec_mem (hload : ∀ k ∈ loads f op, mem k = m.mem k) :
    exec skb { m with mem := mem } f op = (exec skb m f op).map
      (Sum.map id fun m' => { m' with mem := newMem m f mem op }) := by
  cases op with
  | alu op src => cases op <;> cases src <;> first | rfl | (simp only [exec]; split <;> rfl)
  | ldAbs size | ldInd size =>
    simp only [exec, load]
    split
    · rfl
    · split <;> rfl
  | ldMem | ldxMem =>
    simp only [exec, hload f.k.toNat (by simp [loads])]
    split <;> rfl
  | ldxMsh | st | stx =>
    simp only [exec]
    split <;> rfl
  | _ => rfl

theorem newMem_agree {w : List Nat} (h : ∀ k ∈ w, mem k = m.mem k) :
    ∀ k ∈ stores f op ++ w, newMem m f mem op k = newMem m f m.mem op k := by
  cases op with
  | st | stx =>
    intro k hk
    by_cases hkf : k = f.k.toNat
    · simp [newMem, hkf]
    · have hw : k ∈ w := by simpa [stores, hkf] using hk
      simp [newMem, hkf, h k hw]
  | _ => exact h

/-- `A = mem[0]; return A` -/
def loadFirst : List SockFilter :=
  [⟨BPF_LD ||| BPF_MEM, 0, 0, 0⟩, ⟨BPF_RET ||| BPF_A, 0, 0, 0⟩]

/-! ## Packet loads -/

/-- The packet is in one piece. -/
structure SkBuff.Linear (skb : SkBuff) : Prop where
  dataLen : skb.dataLen = 0
  head : skb.head ≤ skb.data
  tail : skb.tail = skb.data + skb.len

/-- The offset and the width of the packet load that an instruction makes. -/
def packetLoad (m : Machine) (f : SockFilter) : Op → Option (Int × Nat)
  | .ldAbs size => some (f.k.toInt, size.bytes)
  | .ldInd size => some ((m.X + f.k).toInt, size.bytes)
  | .ldxMsh => some (f.k.toInt, 1)
  | _ => none

/-- Where a negative offset points to. -/
def SkBuff.fromHeader (skb : SkBuff) (k : Int) : Int :=
  if k ≥ SKF_NET_OFF then skb.networkHeader + k - SKF_NET_OFF else skb.macHeader + k - SKF_LL_OFF

/-- A load of more than one byte at a negative offset ends in the buffer. -/
def SkBuff.Fits (skb : SkBuff) (k : Int) (size : Nat) : Prop :=
  k < 0 → size = 1 ∨ skb.fromHeader k + size ≤ skb.tail

/-- The bytes of a load, if any, are in the buffer. -/
def SkBuff.LoadsInside (skb : SkBuff) (size : Nat) (bytes : Option Bytes) : Prop :=
  bytes = none ∨ ∃ ptr : Int, bytes = some (fun i : Nat => skb.memory (ptr + i)) ∧
    skb.head ≤ ptr ∧ ptr + size ≤ skb.tail

theorem SkBuff.Linear.loadsInside (hlin : skb.Linear) {k : Int} {size : Nat}
    (hfits : skb.Fits k size) : skb.LoadsInside size (skb.loadPointer k size) := by
  obtain ⟨hlen, hhead, htail⟩ := hlin
  unfold SkBuff.loadPointer
  split
  · simp only [headerPointer, headlen, hlen]
    split
    · exact .inr ⟨_, rfl, by omega, by omega⟩
    · exact .inl (if_pos (by omega))
  split
  · exact .inl rfl
  -- `__load_pointer` looks at the first byte only
  have hcheck (ptr : Int) (hsize : size = 1 ∨ ptr + size ≤ skb.tail) : skb.LoadsInside size
      (if ptr ≥ skb.head ∧ ptr < skb.tail then some fun i : Nat => skb.memory (ptr + i)
      else none) := by
    split
    · exact .inr ⟨ptr, rfl, by omega, by omega⟩
    · exact .inl rfl
  have hfits := hfits (by omega)
  unfold fromHeader at hfits
  unfold loadPointerSlow
  by_cases hnet : k ≥ SKF_NET_OFF
  · simp only [if_pos hnet] at hfits ⊢
    exact hcheck _ hfits
  simp only [if_neg hnet] at hfits ⊢
  by_cases hll : k ≥ SKF_LL_OFF
  · simp only [if_pos hll]
    exact hcheck _ hfits
  · simp only [if_neg hll]
    exact .inl rfl

/-- A packet of one byte, with `b` two bytes behind its end. -/
def oneByte (b : BitVec 8) : SkBuff :=
  { emptyPacket with memory := fun a => if a = 3 then b else 0, tail := 1, len := 1 }

/-- `A = *(u32 *)(network header); return A` -/
def loadWord : List SockFilter :=
  [⟨BPF_LD ||| BPF_W ||| BPF_ABS, 0, 0, BitVec.ofInt 32 SKF_NET_OFF⟩,
    ⟨BPF_RET ||| BPF_A, 0, 0, 0⟩]

end LinuxKernel.Net.Filter
