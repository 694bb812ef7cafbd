/-
  Translating sequence numbers back and forth.

  Source: net/ipv4/netfilter/nf_nat_helper.c, `adjust_tcp_sequence`, `nf_nat_seq_adjust`,
  `sack_adjust`.

  One direction of a connection is kept.  The offsets are `int16_t`, and are extended to 32
  bits where they are added to a sequence number.  Checksums and byte order are left out.
-/
import LinuxKernel.Foundation.Serial

namespace LinuxKernel.Net.NatSeq

open BitVec Foundation.Serial

/-- `struct nf_nat_seq` -/
structure NfNatSeq where
  correctionPos : BitVec 32
  offsetBefore : BitVec 16
  offsetAfter : BitVec 16

/-- `adjust_tcp_sequence` -/
def adjustTcpSequence (n : NfNatSeq) (seq : BitVec 32) (sizediff : Int) : NfNatSeq :=
  if n.offsetBefore = n.offsetAfter ∨ before n.correctionPos seq then
    ⟨seq, n.offsetAfter, n.offsetAfter + BitVec.ofInt 16 sizediff⟩
  else n

/-- `newseq` of `nf_nat_seq_adjust`, in this direction. -/
def newseq (n : NfNatSeq) (seq : BitVec 32) : BitVec 32 :=
  if before n.correctionPos seq then seq + n.offsetAfter.signExtend 32
  else seq + n.offsetBefore.signExtend 32

/-- `newack` of `nf_nat_seq_adjust`, in the other direction. -/
def newack (n : NfNatSeq) (ack : BitVec 32) : BitVec 32 :=
  if before n.correctionPos (ack - n.offsetBefore.signExtend 32) then
    ack - n.offsetAfter.signExtend 32
  else ack - n.offsetBefore.signExtend 32

/-- `sack_adjust`, for the edges of the blocks; both edges are treated like `ack_seq`. -/
def sackAdjust (n : NfNatSeq) (edges : List (BitVec 32)) : List (BitVec 32) := edges.map (newack n)

/-- A segment whose payload of `len` bytes has become longer by `diff`. -/
structure Mangled where
  seq : BitVec 32
  len : Nat
  diff : Int

/-- What the calls for these segments leave. -/
def adjusted (h : List Mangled) : NfNatSeq :=
  h.foldl (fun n c => adjustTcpSequence n c.seq c.diff) ⟨0, 0, 0⟩

/-- `s` is not behind the beginning of the segment, or not before its end. -/
def Outside (c : Mangled) (s : BitVec 32) : Prop :=
  before c.seq s = false ∨
    c.len ≤ (s - c.seq).toInt ∧ (s - c.seq).toInt + c.diff < 2 ^ 31

variable {h : List Mangled} {c : Mangled} {s : BitVec 32}

/-- Every segment that follows the one before is recorded. -/
theorem adjusted_concat (hinc : (h ++ [c]).IsChain fun a b => before a.seq b.seq = true) :
    adjusted (h ++ [c]) =
      ⟨c.seq, (adjusted h).offsetAfter, (adjusted h).offsetAfter + BitVec.ofInt 16 c.diff⟩ := by
  induction h using List.reverseRecOn generalizing c with
  | nil => rfl
  | append_singleton h b ih =>
    have hpos : (adjusted (h ++ [b])).correctionPos = b.seq := by rw [ih hinc.left_of_append]
    have hbc : before b.seq c.seq = true := by
      rw [List.append_assoc] at hinc
      simpa using hinc.right_of_append
    rw [adjusted, List.foldl_append, List.foldl_cons, List.foldl_nil, ← adjusted, adjustTcpSequence,
      hpos, if_pos (.inr hbc)]

/-- The offset after the segment is larger by `diff`, if it has not overflowed. -/
theorem signExtend_add {o : BitVec 16} {d : Int} (hlo : -2 ^ 15 ≤ o.toInt + d)
    (hhi : o.toInt + d < 2 ^ 15) :
    (o + BitVec.ofInt 16 d).signExtend 32 = o.signExtend 32 + word d := by
  have hsum : (o + BitVec.ofInt 16 d).toInt = o.toInt + d := by
    rw [toInt_add, toInt_ofInt, Int.add_bmod_bmod]
    exact Int.bmod_eq_of_le (by omega) (by omega)
  rw [BitVec.signExtend, hsum, BitVec.ofInt_add]
  rfl

theorem before_add {p : BitVec 32} {k : Int} (hk : 0 < k) (hk' : k < 2 ^ 31) :
    before p (p + word k) = true := by
  have h := before_word (p := p.toInt) (q := p.toInt + k) (by omega) (by omega)
  rw [word, word, BitVec.ofInt_add, BitVec.ofInt_toInt] at h
  exact h.trans (decide_eq_true (by omega))

/-- For every history of segments in order, the last of them `c`, whose sizes do not shrink
below 1 byte: if the offset does not overflow at `c`, a sequence number outside of `c` that is
translated in this direction is translated back in the other one, as an acknowledgment and as
an edge of a SACK block. -/
theorem newack_newseq (hinc : (h ++ [c]).IsChain fun a b => before a.seq b.seq = true)
    (hlen : -c.diff < c.len) (hlo : -2 ^ 15 ≤ (adjusted h).offsetAfter.toInt + c.diff)
    (hhi : (adjusted h).offsetAfter.toInt + c.diff < 2 ^ 15) :
    (∀ s, Outside c s → newack (adjusted (h ++ [c])) (newseq (adjusted (h ++ [c])) s) = s) ∧
    ∀ edges : List (BitVec 32), (∀ s ∈ edges, Outside c s) →
      sackAdjust (adjusted (h ++ [c])) (edges.map (newseq (adjusted (h ++ [c])))) = edges := by
  have hone (s : BitVec 32) (hs : Outside c s) :
      newack (adjusted (h ++ [c])) (newseq (adjusted (h ++ [c])) s) = s := by
    rw [adjusted_concat hinc]
    simp only [newack, newseq, signExtend_add hlo hhi]
    cases hafter : before c.seq s with
    | false => simp [hafter, add_sub_cancel]
    | true =>
      obtain ⟨hle, hlt⟩ := hs.resolve_left (by simp [hafter])
      -- the test of the other direction is made on a position behind `c` as well
      have hback : before c.seq (s + word c.diff) = true := by
        have h := before_add (p := c.seq) (show 0 < (s - c.seq).toInt + c.diff by omega) hlt
        rwa [word, BitVec.ofInt_add, BitVec.ofInt_toInt, ← BitVec.add_assoc, BitVec.add_comm c.seq,
          sub_add_cancel] at h
      generalize (adjusted h).offsetAfter.signExtend 32 = o
      rw [if_pos rfl, show s + (o + word c.diff) - o = s + word c.diff by bv_omega, if_pos hback]
      exact add_sub_cancel ..
  refine ⟨hone, fun edges hedges => ?_⟩
  rw [sackAdjust, List.map_map]
  exact (List.map_congr_left fun s hs => hone s (hedges s hs)).trans (List.map_id _)

/-- The first byte behind a segment of 10 bytes that has grown by 5. -/
theorem newack_newseq_grown :
    newack (adjusted [⟨1000, 10, 5⟩]) (newseq (adjusted [⟨1000, 10, 5⟩]) 1010) = 1010 :=
  (newack_newseq (h := []) (c := ⟨1000, 10, 5⟩) (.singleton _) (by decide) (by decide)
    (by decide)).1 1010 (.inr (by decide))

/-- Growth by 32767 and then by 1, in order: the offset becomes -32768. -/
theorem newack_newseq_overflow : before 1000 5000 = true ∧ Outside ⟨5000, 10, 1⟩ 5010 ∧
    newack (adjusted [⟨1000, 10, 32767⟩, ⟨5000, 10, 1⟩])
      (newseq (adjusted [⟨1000, 10, 32767⟩, ⟨5000, 10, 1⟩]) 5010) ≠ 5010 :=
  ⟨by decide, .inr (by decide), by decide⟩

end LinuxKernel.Net.NatSeq
