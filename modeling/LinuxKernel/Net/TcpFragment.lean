/-
  Splitting a segment of the write queue.

  Source: net/ipv4/tcp_output.c, `tcp_fragment`, `tcp_set_skb_tso_segs`.

  Whether the two allocations succeed is a parameter, as is `sk_can_gso`.  Checksums, the memory
  accounting, time stamps and the retransmission hints are left out.
-/
import LinuxKernel.Foundation.Serial

namespace LinuxKernel.Net.TcpFragment

open Foundation.Serial

def TCPCB_FLAG_FIN : BitVec 8 := 0x01
def TCPCB_FLAG_PSH : BitVec 8 := 0x08
def TCPCB_SACKED_ACKED : BitVec 8 := 0x01
def TCPCB_SACKED_RETRANS : BitVec 8 := 0x02
def TCPCB_LOST : BitVec 8 := 0x04
def TCPCB_AT_TAIL : BitVec 8 := 0x20

/-- A queued segment, with its `TCP_SKB_CB`. -/
structure Segment where
  (seq endSeq : BitVec 32)
  data : List (BitVec 8)
  (flags sacked : BitVec 8)
  gsoSegs : BitVec 16

/-- `struct tcp_sock` -/
structure TcpSock where
  (sndNxt packetsOut sackedOut retransOut lostOut leftOut facketsOut : BitVec 32)
  sackOk : Bool

/-- `tcp_skb_pcount` -/
def Segment.pcount (x : Segment) : BitVec 32 := x.gsoSegs.setWidth 32

/-- `tcp_set_skb_tso_segs`: the `gso_segs` of `len` bytes -/
def tcpSetSkbTsoSegs (canGso : Bool) (len mssNow : Nat) : BitVec 16 :=
  if len ≤ mssNow ∨ ¬ canGso then 1 else BitVec.ofNat 16 ((len + (mssNow - 1)) / mssNow)

/-- What is left of `skb`, and the new segment behind it. -/
def split (canGso : Bool) (skb : Segment) (len mssNow : Nat) : Segment × Segment :=
  let buff := { skb with
    seq := skb.seq + BitVec.ofNat 32 len, data := skb.data.drop len
    gsoSegs := tcpSetSkbTsoSegs canGso (skb.data.drop len).length mssNow }
  ({ skb with
      endSeq := buff.seq, data := skb.data.take len
      flags := skb.flags &&& ~~~(TCPCB_FLAG_FIN ||| TCPCB_FLAG_PSH)
      sacked := skb.sacked &&& ~~~TCPCB_AT_TAIL
      gsoSegs := tcpSetSkbTsoSegs canGso (skb.data.take len).length mssNow }, buff)

/-- The counters of a segment that has been sent. -/
def adjust (tp : TcpSock) (sacked : BitVec 8) (diff : BitVec 32) : TcpSock :=
  let less (bit : BitVec 8) (x : BitVec 32) := if sacked &&& bit ≠ 0 then x - diff else x
  let atLeastZero (x : BitVec 32) := if x.slt 0 then 0 else x
  let tp := { tp with
    packetsOut := tp.packetsOut - diff
    sackedOut := less TCPCB_SACKED_ACKED tp.sackedOut
    retransOut := less TCPCB_SACKED_RETRANS tp.retransOut
    lostOut := less TCPCB_LOST tp.lostOut
    leftOut := less TCPCB_LOST tp.leftOut }
  let tp :=
    if diff.slt 0 ∨ diff = 0 ∨ tp.sackOk then tp
    else
      -- the Reno estimate, and `tcp_sync_left_out`
      let sackedOut := atLeastZero (tp.sackedOut - diff)
      { tp with sackedOut, leftOut := sackedOut + tp.lostOut }
  { tp with facketsOut :=
      if diff.slt 0 ∨ diff = 0 then tp.facketsOut else atLeastZero (tp.facketsOut - diff) }

def Segment.isSent (x : Segment) (sndNxt : BitVec 32) : Bool := !before sndNxt x.endSeq

/-- `old_factor - tcp_skb_pcount(skb) - tcp_skb_pcount(buff)` -/
def diff (canGso : Bool) (skb : Segment) (len mssNow : Nat) : BitVec 32 :=
  let (first, buff) := split canGso skb len mssNow
  skb.pcount - first.pcount - buff.pcount

/-- The counters after `skb` was split. -/
def parting (canGso : Bool) (tp : TcpSock) (skb : Segment) (len mssNow : Nat) : TcpSock :=
  let (first, buff) := split canGso skb len mssNow
  if buff.isSent tp.sndNxt then adjust tp first.sacked (diff canGso skb len mssNow) else tp

/-- The queue with the two parts of `skb`. -/
def parted (canGso : Bool) (pre : List Segment) (skb : Segment) (post : List Segment)
    (len mssNow : Nat) : List Segment :=
  let (first, buff) := split canGso skb len mssNow
  pre ++ first :: buff :: post

/-- `tcp_fragment` of `skb`, with the queue before and behind it. -/
def tcpFragment (memory canGso : Bool) (tp : TcpSock) (pre : List Segment) (skb : Segment)
    (post : List Segment) (len mssNow : Nat) : TcpSock × List Segment × Bool :=
  if memory then
    (parting canGso tp skb len mssNow, parted canGso pre skb post len mssNow, true)
  else (tp, pre ++ skb :: post, false)

/-- The packets of the segments that have been sent and have one of the marks, or of all of them
for the empty mark. -/
def packets (sndNxt : BitVec 32) (mark : BitVec 8) : List Segment → BitVec 32
  | [] => 0
  | x :: q => (if x.isSent sndNxt ∧ (mark = 0 ∨ x.sacked &&& mark ≠ 0) then x.pcount else 0) +
    packets sndNxt mark q

/-- The counters are exact. -/
structure Counted (tp : TcpSock) (q : List Segment) : Prop where
  packets : tp.packetsOut = packets tp.sndNxt 0 q
  sacked : tp.sackedOut = TcpFragment.packets tp.sndNxt TCPCB_SACKED_ACKED q
  retrans : tp.retransOut = TcpFragment.packets tp.sndNxt TCPCB_SACKED_RETRANS q
  lost : tp.lostOut = TcpFragment.packets tp.sndNxt TCPCB_LOST q

/-- What `tcp_sync_left_out` establishes. -/
def Synced (tp : TcpSock) : Prop := tp.leftOut = tp.sackedOut + tp.lostOut

/-- Each segment starts where the one before it ends. -/
def Contiguous (q : List Segment) : Prop := q.IsChain fun a b => a.endSeq = b.seq

/-- The bytes with their sequence numbers. -/
def stream (q : List Segment) : List (BitVec 32 × BitVec 8) :=
  q.flatMap fun x => x.data.mapIdx fun i b => (x.seq + BitVec.ofNat 32 i, b)

/-- `skb` has been sent as a whole or not at all. -/
def Whole (sndNxt : BitVec 32) (skb : Segment) (len : Nat) : Prop :=
  before sndNxt (skb.seq + BitVec.ofNat 32 len) = before sndNxt skb.endSeq

variable {memory canGso : Bool} {tp : TcpSock} {pre post : List Segment} {skb : Segment}
  {len mssNow : Nat} {mark : BitVec 8}

theorem packets_append {nxt : BitVec 32} (l l' : List Segment) :
    packets nxt mark (l ++ l') = packets nxt mark l + packets nxt mark l' := by
  induction l with
  | nil => simp [packets]
  | cons x l ih => simp only [List.cons_append, packets, ih, BitVec.add_assoc]

theorem packets_parted (hwhole : Whole tp.sndNxt skb len)
    (hmark : ~~~TCPCB_AT_TAIL &&& mark = mark) :
    packets tp.sndNxt mark (parted canGso pre skb post len mssNow) =
      if skb.isSent tp.sndNxt ∧ (mark = 0 ∨ skb.sacked &&& ~~~TCPCB_AT_TAIL &&& mark ≠ 0)
        then packets tp.sndNxt mark (pre ++ skb :: post) - diff canGso skb len mssNow
        else packets tp.sndNxt mark (pre ++ skb :: post) := by
  have hsent : (split canGso skb len mssNow).1.isSent tp.sndNxt = skb.isSent tp.sndNxt :=
    congrArg Bool.not hwhole
  have hsent' : (split canGso skb len mssNow).2.isSent tp.sndNxt = skb.isSent tp.sndNxt := rfl
  have hsacked : (split canGso skb len mssNow).1.sacked &&& mark = skb.sacked &&& mark :=
    (BitVec.and_assoc ..).trans (congrArg _ hmark)
  have hsacked' : (split canGso skb len mssNow).2.sacked = skb.sacked := rfl
  simp only [parted, packets_append, packets, hsent, hsent', hsacked, hsacked', diff,
    BitVec.and_assoc, hmark]
  split <;> grind

theorem stream_parted (hlen : len ≤ skb.data.length) :
    stream (parted canGso pre skb post len mssNow) = stream (pre ++ skb :: post) := by
  have h (f : Nat → BitVec 8 → BitVec 32 × BitVec 8) : (skb.data.take len).mapIdx f ++
      (skb.data.drop len).mapIdx (fun i => f (len + i)) = skb.data.mapIdx f := by
    conv_rhs => rw [← List.take_append_drop len skb.data, List.mapIdx_append]
    simp only [List.length_take_of_le hlen, Nat.add_comm]
  simp [stream, parted, split, ← h, BitVec.ofNat_add, BitVec.add_assoc]

theorem contiguous_parted (h : Contiguous (pre ++ skb :: post)) :
    Contiguous (parted canGso pre skb post len mssNow) := by
  simp only [Contiguous, parted, List.isChain_append, List.isChain_cons, List.head?_cons] at h ⊢
  exact ⟨h.1, ⟨by rintro _ ⟨⟩; rfl, h.2.1⟩, by rintro x hx _ ⟨⟩; exact h.2.2 x hx skb rfl⟩

theorem parting_eq : parting canGso tp skb len mssNow = if skb.isSent tp.sndNxt then
    adjust tp (skb.sacked &&& ~~~TCPCB_AT_TAIL) (diff canGso skb len mssNow) else tp := rfl

/-- With SACK each counter follows the segments it counts. -/
theorem counted_parted (hwhole : Whole tp.sndNxt skb len) (hsack : tp.sackOk = true)
    (h : Counted tp (pre ++ skb :: post)) :
    Counted (parting canGso tp skb len mssNow) (parted canGso pre skb post len mssNow) := by
  have hnxt (d : BitVec 32) (sacked : BitVec 8) : (adjust tp sacked d).sndNxt = tp.sndNxt := by
    simp [adjust, hsack]
  rw [parting_eq]
  constructor <;> split <;> rename_i hsent
  all_goals
    try rw [hnxt]
    rw [packets_parted hwhole rfl]
    simp [adjust, hsack, hsent, h.packets, h.sacked, h.retrans, h.lost, TCPCB_SACKED_ACKED,
      TCPCB_SACKED_RETRANS, TCPCB_LOST]

/-- `left_out` follows the lost segments only. -/
theorem synced_parting (hleft : Synced tp) (hsack : tp.sackOk = true) :
    Synced (parting canGso tp skb len mssNow) ↔ ¬ (skb.isSent tp.sndNxt = true ∧
      skb.sacked &&& TCPCB_SACKED_ACKED ≠ 0 ∧ diff canGso skb len mssNow ≠ 0) := by
  have hacked : ~~~TCPCB_AT_TAIL &&& TCPCB_SACKED_ACKED = TCPCB_SACKED_ACKED := rfl
  unfold Synced at *
  rw [parting_eq]
  split <;> rename_i hsent
  · simp only [adjust, hsack, hsent, hleft, BitVec.and_assoc, hacked]
    grind
  · simp [hsent, hleft]

/-- Splitting keeps the stream and four of the counters exact; `left_out` stays exact unless the
number of packets of a sent and acknowledged segment changes. -/
theorem tcpFragment_exact (hlen : len < skb.data.length) (hwhole : Whole tp.sndNxt skb len)
    (hq : Contiguous (pre ++ skb :: post)) (h : Counted tp (pre ++ skb :: post))
    (hleft : Synced tp) (hsack : tp.sackOk = true) :
    match tcpFragment memory canGso tp pre skb post len mssNow with
    | (tp', q, true) => stream q = stream (pre ++ skb :: post) ∧ Contiguous q ∧ Counted tp' q ∧
        (Synced tp' ↔ ¬ (skb.isSent tp.sndNxt = true ∧
          skb.sacked &&& TCPCB_SACKED_ACKED ≠ 0 ∧ diff canGso skb len mssNow ≠ 0))
    | (tp', q, false) => tp' = tp ∧ q = pre ++ skb :: post := by
  cases memory with
  | false => exact ⟨rfl, rfl⟩
  | true =>
    exact ⟨stream_parted hlen.le, contiguous_parted hq, counted_parted hwhole hsack h,
      synced_parting hleft hsack⟩

/-- A segment of two bytes that was sent as one packet. -/
def skb₀ : Segment := ⟨0, 2, [7, 8], 0, TCPCB_SACKED_ACKED, 1⟩

def tp₀ : TcpSock := ⟨2, 1, 1, 0, 0, 1, 0, true⟩

theorem counted₀ : Counted tp₀ [skb₀] := by constructor <;> decide

theorem tcpFragment_exact_two :
    stream (tcpFragment true false tp₀ [] skb₀ [] 1 2).2.1 = stream [skb₀] :=
  (@tcpFragment_exact true false tp₀ [] [] skb₀ 1 2 (by decide) (by unfold Whole; decide)
    (List.isChain_singleton _) counted₀ rfl rfl).1

/-- It becomes two acknowledged packets, and `left_out` stays at one. -/
theorem leftOut_stale : ¬ ∀ tp pre skb post len mssNow, 0 < len → len < skb.data.length →
    1 ≤ mssNow → Whole tp.sndNxt skb len → Contiguous (pre ++ skb :: post) →
    Counted tp (pre ++ skb :: post) → Synced tp → tp.sackOk = true →
    Synced (tcpFragment true true tp pre skb post len mssNow).1 := by
  intro h
  have hbad := h tp₀ [] skb₀ [] 1 1 (by decide) (by decide) (by decide)
    (by unfold Whole; decide) (List.isChain_singleton _) counted₀ rfl rfl
  exact absurd hbad (by unfold Synced; decide)

end LinuxKernel.Net.TcpFragment
