/-
  The receive side of TCP: the queues and the SACK blocks.

  Source: net/ipv4/tcp_input.c, `tcp_sack_extend`, `tcp_dsack_set`, `tcp_dsack_extend`,
  `tcp_sack_maybe_coalesce`, `tcp_sack_new_ofo_skb`, `tcp_sack_remove`, `tcp_ofo_queue`,
  `tcp_data_queue`; include/net/tcp.h, `before`, `after`, `tcp_receive_window`.

  The queues are lists of segments, front first.  The four SACK blocks are an array: an
  access outside it makes the call fail (`none`).  What is left out has no part in the
  queues: FIN and urgent data, copying to the reader, memory accounting (there is always
  enough), ECN, the scheduling of ACKs, header prediction and statistics.
-/
import LinuxKernel.Foundation.Serial
import LinuxKernel.Foundation.Run

namespace LinuxKernel.Net.Tcp

open Foundation
open Foundation.Serial (before near word)

/-- `after(seq2, seq1)` -/
def after (seq2 seq1 : BitVec 32) : Bool := before seq1 seq2

/-! ## SACK blocks -/

/-- `struct tcp_sack_block` -/
structure SackBlock where
  startSeq : BitVec 32
  endSeq : BitVec 32
  deriving DecidableEq, Repr

/-- The fields of `tcp_options_received` and of `tcp_sock` that the SACK blocks are kept
in.  `trapped` says that the assertion of `tcp_sack_remove` has failed. -/
structure Sacks where
  sackOk : Bool
  tstampOk : Bool
  sysctlTcpDsack : Bool
  dsack : Bool
  numSacks : Nat
  effSacks : Nat
  duplicateSack : SackBlock
  selectiveAcks : Vector SackBlock 4
  trapped : Bool

/-- `eff_sacks = min(num_sacks + dsack, 4 - tstamp_ok)` -/
def Sacks.setEff (s : Sacks) : Sacks :=
  { s with effSacks := min (s.numSacks + s.dsack.toNat) (4 - s.tstampOk.toNat) }

/-- `selective_acks[i] = block` -/
def store (acks : Vector SackBlock 4) (i : Nat) (block : SackBlock) :
    Option (Vector SackBlock 4) :=
  if h : i < 4 then some (acks.set i block h) else none

/-- `tcp_sack_extend`: the block that has been extended, or `none` if it is not adjacent. -/
def tcpSackExtend (sp : SackBlock) (seq endSeq : BitVec 32) : Option SackBlock :=
  if !after seq sp.endSeq && !after sp.startSeq endSeq then
    some {
      startSeq := if before seq sp.startSeq then seq else sp.startSeq
      endSeq := if after endSeq sp.endSeq then endSeq else sp.endSeq }
  else none

/-- `tcp_dsack_set` -/
def tcpDsackSet (s : Sacks) (seq endSeq : BitVec 32) : Sacks :=
  if s.sackOk && s.sysctlTcpDsack then
    Sacks.setEff { s with dsack := true, duplicateSack := ⟨seq, endSeq⟩ }
  else s

/-- `tcp_dsack_extend` -/
def tcpDsackExtend (s : Sacks) (seq endSeq : BitVec 32) : Sacks :=
  if !s.dsack then tcpDsackSet s seq endSeq
  else { s with duplicateSack := (tcpSackExtend s.duplicateSack seq endSeq).getD s.duplicateSack }

/-- `selective_acks[i] = selective_acks[i + 1]`, for `count` blocks from `i` on. -/
def moveUp : Nat → Nat → Vector SackBlock 4 → Option (Vector SackBlock 4)
  | 0, _, acks => some acks
  | count + 1, i, acks => do
      let block ← acks[i + 1]?
      let acks ← store acks i block
      moveUp count (i + 1) acks

/-- `*sp = *(sp - 1)`, from block `i` down. -/
def moveDown : Nat → Vector SackBlock 4 → Option (Vector SackBlock 4)
  | 0, acks => some acks
  | i + 1, acks => do
      let block ← acks[i]?
      let acks ← store acks (i + 1) block
      moveDown i acks

/-- `tcp_sack_swap(sp, sp - 1)`, from block `i` down. -/
def rotate : Nat → Vector SackBlock 4 → Option (Vector SackBlock 4)
  | 0, acks => some acks
  | i + 1, acks => do
      let sack1 ← acks[i + 1]?
      let sack2 ← acks[i]?
      let acks ← store acks (i + 1) sack2
      let acks ← store acks i sack1
      rotate i acks

/-- The loop of `tcp_sack_maybe_coalesce`.  Every round takes a block away or steps over
one: there are `left = num_sacks - this_sack` rounds to go. -/
def coalesceFrom : Nat → Nat → Sacks → Option Sacks
  | 0, _, s => some s
  | left + 1, thisSack, s => do
      let sp ← s.selectiveAcks[0]?
      let swalk ← s.selectiveAcks[thisSack]?
      match tcpSackExtend sp swalk.startSeq swalk.endSeq with
      | some sp =>
        let acks ← store s.selectiveAcks 0 sp
        let acks ← moveUp left thisSack acks
        coalesceFrom left thisSack
          (Sacks.setEff { s with numSacks := s.numSacks - 1, selectiveAcks := acks })
      | none => coalesceFrom left (thisSack + 1) s

/-- `tcp_sack_maybe_coalesce` -/
def tcpSackMaybeCoalesce (s : Sacks) : Option Sacks := coalesceFrom (s.numSacks - 1) 1 s

/-- The loop of `tcp_sack_new_ofo_skb`, with `left` blocks from `thisSack` on: the first
block that could be extended. -/
def findSack (acks : Vector SackBlock 4) (seq endSeq : BitVec 32) :
    Nat → Nat → Option (Option (Nat × SackBlock))
  | 0, _ => some none
  | left + 1, thisSack => do
      let sp ← acks[thisSack]?
      match tcpSackExtend sp seq endSeq with
      | some sp => some (some (thisSack, sp))
      | none => findSack acks seq endSeq left (thisSack + 1)

/-- From the label `new_sack` on. -/
def newSack (s : Sacks) (acks : Vector SackBlock 4) (seq endSeq : BitVec 32) : Option Sacks := do
  let acks ← store acks 0 ⟨seq, endSeq⟩
  some (Sacks.setEff { s with numSacks := s.numSacks + 1, selectiveAcks := acks })

/-- `tcp_sack_new_ofo_skb` -/
def tcpSackNewOfoSkb (s : Sacks) (seq endSeq : BitVec 32) : Option Sacks :=
  if s.numSacks = 0 then newSack s s.selectiveAcks seq endSeq
  else do
    match ← findSack s.selectiveAcks seq endSeq s.numSacks 0 with
    | some (thisSack, sp) =>
      let acks ← store s.selectiveAcks thisSack sp
      let acks ← rotate thisSack acks
      let s := { s with selectiveAcks := acks }
      if s.numSacks > 1 then tcpSackMaybeCoalesce s else some s
    | none =>
      -- the array is full: forget about the last one
      let s := if s.numSacks ≥ 4 then { s with numSacks := s.numSacks - 1 } else s
      let acks ← moveDown s.numSacks s.selectiveAcks
      newSack s acks seq endSeq

/-- The loop of `tcp_sack_remove`, with `left = num_sacks - this_sack` rounds to go. -/
def sackRemoveFrom (rcvNxt : BitVec 32) : Nat → Nat → Nat → Sacks → Option (Nat × Sacks)
  | 0, _, numSacks, s => some (numSacks, s)
  | left + 1, thisSack, numSacks, s => do
      let sp ← s.selectiveAcks[thisSack]?
      if !before rcvNxt sp.startSeq then
        let acks ← moveUp left thisSack s.selectiveAcks
        let s := { s with
          selectiveAcks := acks
          trapped := s.trapped || before rcvNxt sp.endSeq }
        sackRemoveFrom rcvNxt left thisSack (numSacks - 1) s
      else sackRemoveFrom rcvNxt left (thisSack + 1) numSacks s

/-- `tcp_sack_remove`; `empty` is `skb_queue_empty(&tp->out_of_order_queue)`. -/
def tcpSackRemove (s : Sacks) (empty : Bool) (rcvNxt : BitVec 32) : Option Sacks :=
  if empty then some { s with numSacks := 0, effSacks := s.dsack.toNat }
  else do
    let (numSacks, s) ← sackRemoveFrom rcvNxt s.numSacks 0 s.numSacks s
    if numSacks ≠ s.numSacks then some (Sacks.setEff { s with numSacks := numSacks }) else some s

/-! ## The queues -/

/-- `TCP_SKB_CB(skb)->seq` and `TCP_SKB_CB(skb)->end_seq` -/
structure Skb where
  seq : BitVec 32
  endSeq : BitVec 32
  deriving DecidableEq, Repr

/-- `struct tcp_sock` -/
structure TcpSock where
  rcvNxt : BitVec 32
  rcvWup : BitVec 32
  rcvWnd : BitVec 32
  outOfOrderQueue : List Skb
  receiveQueue : List Skb
  sacks : Sacks

/-- `tcp_receive_window` -/
def tcpReceiveWindow (tp : TcpSock) : BitVec 32 :=
  let win := tp.rcvWup + tp.rcvWnd - tp.rcvNxt
  if win.toInt < 0 then 0 else win

/-- The loop of `tcp_ofo_queue` over the out-of-order queue. -/
def ofoLoop : List Skb → BitVec 32 → TcpSock → TcpSock
  | [], _, tp => { tp with outOfOrderQueue := [] }
  | skb :: rest, dsackHigh, tp =>
    if after skb.seq tp.rcvNxt then { tp with outOfOrderQueue := skb :: rest }
    else
      let sacks :=
        if before skb.seq dsackHigh then tcpDsackExtend tp.sacks skb.seq dsackHigh else tp.sacks
      let dsackHigh :=
        if before skb.seq dsackHigh && before skb.endSeq dsackHigh then skb.endSeq else dsackHigh
      if !after skb.endSeq tp.rcvNxt then
        -- already received
        ofoLoop rest dsackHigh { tp with sacks := sacks }
      else
        ofoLoop rest dsackHigh { tp with
          sacks := sacks
          receiveQueue := tp.receiveQueue ++ [skb]
          rcvNxt := skb.endSeq }

/-- `tcp_ofo_queue` -/
def tcpOfoQueue (tp : TcpSock) : TcpSock := ofoLoop tp.outOfOrderQueue tp.rcvNxt tp

/-- From the label `queue_and_out` on. -/
def queueAndOut (tp : TcpSock) (skb : Skb) : Option TcpSock :=
  let tp := { tp with receiveQueue := tp.receiveQueue ++ [skb], rcvNxt := skb.endSeq }
  let tp := if tp.outOfOrderQueue.isEmpty then tp else tcpOfoQueue tp
  if tp.sacks.numSacks ≠ 0 then do
    let sacks ← tcpSackRemove tp.sacks tp.outOfOrderQueue.isEmpty tp.rcvNxt
    some { tp with sacks := sacks }
  else some tp

/-- "Find place to insert this segment": `skb1` is the first of `prev`, the segments
before the place, last one first; `next` are those after it. -/
def findPlace (seq : BitVec 32) : List Skb → List Skb → List Skb × List Skb
  | [], next => ([], next)
  | skb1 :: prev, next =>
    if !after skb1.seq seq then (skb1 :: prev, next) else findPlace seq prev (skb1 :: next)

/-- "And clean segments covered by new one as whole." -/
def cleanCovered (endSeq : BitVec 32) : List Skb → Sacks → List Skb × Sacks
  | [], s => ([], s)
  | skb1 :: next, s =>
    if !after endSeq skb1.seq then (skb1 :: next, s)
    else if before endSeq skb1.endSeq then (skb1 :: next, tcpDsackExtend s skb1.seq endSeq)
    else cleanCovered endSeq next (tcpDsackExtend s skb1.seq skb1.endSeq)

/-- The label `add_sack`. -/
def addSack (tp : TcpSock) (skb : Skb) : Option TcpSock :=
  if tp.sacks.sackOk then do
    let sacks ← tcpSackNewOfoSkb tp.sacks skb.seq skb.endSeq
    some { tp with sacks := sacks }
  else some tp

/-- `__skb_insert` between `prev`, last one first, and `next`, and what follows it. -/
def insertAt (tp : TcpSock) (skb : Skb) (prev next : List Skb) : Option TcpSock :=
  let (next, sacks) := cleanCovered skb.endSeq next tp.sacks
  addSack { tp with outOfOrderQueue := prev.reverse ++ skb :: next, sacks := sacks } skb

/-- The search for a place, and the overlap with the previous segment. -/
def insertOfo (tp : TcpSock) (skb : Skb) : Option TcpSock :=
  match findPlace skb.seq tp.outOfOrderQueue.reverse [] with
  | ([], next) => insertAt tp skb [] next
  | (skb1 :: prev, next) =>
    if before skb.seq skb1.endSeq then
      if !after skb.endSeq skb1.endSeq then
        -- all the bits are present
        addSack { tp with sacks := tcpDsackSet tp.sacks skb.seq skb.endSeq } skb
      else if after skb.seq skb1.seq then
        insertAt { tp with sacks := tcpDsackSet tp.sacks skb.seq skb1.endSeq } skb
          (skb1 :: prev) next
      else insertAt tp skb prev (skb1 :: next)
    else insertAt tp skb (skb1 :: prev) next

/-- A segment that goes to the end of the out-of-order queue and follows on its last
segment. -/
def appendOfo (tp : TcpSock) (skb : Skb) : Option TcpSock := do
  let tp := { tp with outOfOrderQueue := tp.outOfOrderQueue ++ [skb] }
  let first ← tp.sacks.selectiveAcks[0]?
  if tp.sacks.numSacks = 0 ∨ first.endSeq ≠ skb.seq then addSack tp skb
  else do
    let acks ← store tp.sacks.selectiveAcks 0 { first with endSeq := skb.endSeq }
    some { tp with sacks := { tp.sacks with selectiveAcks := acks } }

/-- The segment is out of order. -/
def queueOfo (tp : TcpSock) (skb : Skb) : Option TcpSock :=
  match tp.outOfOrderQueue.getLast? with
  | none =>
    if tp.sacks.sackOk then do
      let acks ← store tp.sacks.selectiveAcks 0 ⟨skb.seq, skb.endSeq⟩
      some { tp with
        outOfOrderQueue := [skb]
        sacks := { tp.sacks with numSacks := 1, dsack := false, effSacks := 1,
                                 selectiveAcks := acks } }
    else some { tp with outOfOrderQueue := [skb] }
  | some skb1 => if skb.seq = skb1.endSeq then appendOfo tp skb else insertOfo tp skb

/-- How `tcp_data_queue` is left. -/
inductive Verdict where
  /-- no data -/
  | empty
  /-- put on the receive queue -/
  | queued
  /-- nothing new -/
  | retransmit
  /-- rejected at the label `out_of_window` -/
  | outOfWindow
  /-- handled as an out-of-order segment -/
  | outOfOrder
  deriving DecidableEq, Repr

/-- `tcp_data_queue` -/
def tcpDataQueue (tp : TcpSock) (skb : Skb) : Option (TcpSock × Verdict) :=
  if skb.seq = skb.endSeq then some (tp, .empty)
  else
    let tp := if tp.sacks.dsack then
        { tp with sacks := Sacks.setEff { tp.sacks with dsack := false } } else tp
    if skb.seq = tp.rcvNxt then
      if tcpReceiveWindow tp = 0 then some (tp, .outOfWindow)
      else (queueAndOut tp skb).map (·, .queued)
    else if !after skb.endSeq tp.rcvNxt then
      some ({ tp with sacks := tcpDsackSet tp.sacks skb.seq skb.endSeq }, .retransmit)
    else if !before skb.seq (tp.rcvNxt + tcpReceiveWindow tp) then some (tp, .outOfWindow)
    else if before skb.seq tp.rcvNxt then
      -- a partial packet
      let tp := { tp with sacks := tcpDsackSet tp.sacks skb.seq tp.rcvNxt }
      if tcpReceiveWindow tp = 0 then some (tp, .outOfWindow)
      else (queueAndOut tp skb).map (·, .queued)
    else (queueOfo tp skb).map (·, .outOfOrder)

/-! ## The connection -/

/-- The socket, and `rcv_nxt` without the wraparound. -/
structure Connection where
  sock : TcpSock
  rcvPos : Int

inductive Call where
  | tcpDataQueue (skb : Skb)
  /-- an ACK goes out, or the reader takes data: the window changes in any way -/
  | setWindow (rcvWup rcvWnd : BitVec 32)
  deriving DecidableEq, Repr

/-- A segment that arrived: its bytes, and what became of it. -/
structure Arrival where
  start : Int
  stop : Int
  verdict : Verdict
  deriving DecidableEq, Repr

def step (s : Connection) : Call → Option (Connection × List Arrival)
  | .tcpDataQueue skb => do
      let (sock, verdict) ← tcpDataQueue s.sock skb
      some (⟨sock, near s.rcvPos sock.rcvNxt⟩,
        [⟨near s.rcvPos skb.seq, near s.rcvPos skb.endSeq, verdict⟩])
  | .setWindow rcvWup rcvWnd =>
    some ({ s with sock := { s.sock with rcvWup := rcvWup, rcvWnd := rcvWnd } }, [])

/-- The segment is not empty: its positions, which are those within 2^31 of `rcv_nxt`,
are in order. -/
def NotEmpty (s : Connection) : Call → Prop
  | .tcpDataQueue skb => near s.rcvPos skb.seq < near s.rcvPos skb.endSeq
  | .setWindow _ _ => True

instance (s : Connection) (call : Call) : Decidable (NotEmpty s call) :=
  match call with
  | .tcpDataQueue skb => inferInstanceAs (Decidable (near s.rcvPos skb.seq < near s.rcvPos skb.endSeq))
  | .setWindow _ _ => inferInstanceAs (Decidable True)

/-- Nothing has been received. -/
structure Initial (s : Connection) : Prop where
  rcvNxt : s.sock.rcvNxt = word s.rcvPos
  outOfOrderQueue : s.sock.outOfOrderQueue = []
  receiveQueue : s.sock.receiveQueue = []
  numSacks : s.sock.sacks.numSacks = 0

end LinuxKernel.Net.Tcp
