/-
  The window that conntrack keeps of a TCP connection.

  Source: net/netfilter/nf_conntrack_proto_tcp.c, `tcp_in_window`.

  What `tcp_sack` and `tcp_options` find is part of the segment.  A direction is a `Bool`, with
  `!dir` the other one.  Logging is left out.
-/
import LinuxKernel.Foundation.Serial

namespace LinuxKernel.Net.TcpWindow

open Foundation.Serial Function

/-- `struct ip_ct_tcp_state` -/
structure IpCtTcpState where
  (tdEnd tdMaxend tdMaxwin : BitVec 32)
  (tdScale flags : BitVec 8)

def IP_CT_TCP_FLAG_WINDOW_SCALE : BitVec 8 := 0x01
def IP_CT_TCP_FLAG_SACK_PERM : BitVec 8 := 0x02
def IP_CT_TCP_FLAG_BE_LIBERAL : BitVec 8 := 0x08

/-- `enum tcp_conntrack` -/
inductive TcpConntrack where
  | NONE | SYN_SENT | SYN_RECV | ESTABLISHED | FIN_WAIT | CLOSE_WAIT | LAST_ACK | TIME_WAIT
  | CLOSE | LISTEN
  deriving DecidableEq

/-- `struct ip_ct_tcp` -/
structure IpCtTcp where
  seen : Bool → IpCtTcpState
  state : TcpConntrack
  lastDir : Bool
  retrans : BitVec 8
  (lastSeq lastAck lastEnd : BitVec 32)
  lastWin : BitVec 16

/-- A segment with `len` bytes of data.  `sack` is what `tcp_sack` makes of `ackSeq`, `options`
the scale and the flags that `tcp_options` reads, if the header has options. -/
structure Segment where
  (seq ackSeq sack len : BitVec 32)
  window : BitVec 16
  (syn ack rst fin : Bool)
  options : Option (BitVec 8 × BitVec 8)

/-- `segment_seq_plus_len` -/
def Segment.stop (s : Segment) : BitVec 32 :=
  s.seq + s.len + (if s.syn then 1 else 0) + (if s.fin then 1 else 0)

/-- `win == 0 ? 1 : win` -/
def Segment.maxwin (s : Segment) : BitVec 32 := if s.window = 0 then 1 else s.window.setWidth 32

/-- The sender starts at the end of a SYN; `tcp_options` resets the scale and the flags. -/
def start (s : Segment) (sender : IpCtTcpState) : IpCtTcpState :=
  let sender := { sender with tdEnd := s.stop, tdMaxend := s.stop, tdMaxwin := s.maxwin }
  match s.options with
  | some (scale, flags) => { sender with tdScale := scale, flags := flags }
  | none => sender

/-- The sender is a reinitialized TCP. -/
def Reinitialized (t : IpCtTcp) (dir : Bool) (s : Segment) : Prop :=
  (t.state = .SYN_SENT ∧ dir = false ∨ t.state = .SYN_RECV ∧ dir = true) ∧
    before (t.seen dir).tdEnd s.stop = true

instance (t : IpCtTcp) (dir : Bool) (s : Segment) : Decidable (Reinitialized t dir s) :=
  inferInstanceAs (Decidable (_ ∧ _))

/-- The first part of `tcp_in_window`: sender data are taken from the segment. -/
def adopt (t : IpCtTcp) (dir : Bool) (s : Segment) : IpCtTcp :=
  let sender := t.seen dir
  let receiver := t.seen !dir
  if sender.tdEnd = 0 then
    if s.syn ∧ s.ack then
      if (start s sender).flags &&& IP_CT_TCP_FLAG_WINDOW_SCALE ≠ 0 ∧
          receiver.flags &&& IP_CT_TCP_FLAG_WINDOW_SCALE ≠ 0 then
        { t with seen := update t.seen dir (start s sender) }
      else
        let seen := update t.seen dir { start s sender with tdScale := 0 }
        { t with seen := update seen (!dir) { receiver with tdScale := 0 } }
    else
      -- the history of the connection is lost
      { t with seen := update t.seen dir { sender with
          tdEnd := s.stop, tdMaxwin := s.maxwin, tdMaxend := s.stop + s.maxwin } }
  else if Reinitialized t dir s then { t with seen := update t.seen dir (start s sender) }
  else t

/-- `MAXACKWINDOW` -/
def maxAckWindow (sender : IpCtTcpState) : BitVec 32 :=
  if sender.tdMaxwin.toNat > 66000 then sender.tdMaxwin else 66000

/-- The update for a segment in the window. -/
def accept (t : IpCtTcp) (dir : Bool) (s : Segment) (seq ack sack stop : BitVec 32) : IpCtTcp :=
  let sender := t.seen dir
  let receiver := t.seen !dir
  let win := s.window.setWidth 32 <<< (if s.syn then 0 else sender.tdScale.toNat)
  let swin := win + (sack - ack)
  let seen := update t.seen dir { sender with
    tdMaxwin := if sender.tdMaxwin.toNat < swin.toNat then swin else sender.tdMaxwin
    tdEnd := if before sender.tdEnd stop then stop else sender.tdEnd }
  let seen := update seen (!dir) { receiver with
    tdMaxwin := if before sender.tdMaxend stop then receiver.tdMaxwin + (stop - sender.tdMaxend)
      else receiver.tdMaxwin
    tdMaxend := if before (receiver.tdMaxend - 1) (sack + win) then
        sack + win + (if win = 0 then 1 else 0)
      else receiver.tdMaxend }
  -- `index == TCP_ACK_SET`
  if s.ack ∧ ¬ s.rst ∧ ¬ s.syn ∧ ¬ s.fin then
    if t.lastDir = dir ∧ t.lastSeq = seq ∧ t.lastAck = ack ∧ t.lastEnd = stop ∧
        t.lastWin.setWidth 32 = win then
      { t with seen, retrans := t.retrans + 1 }
    else ⟨seen, t.state, dir, 0, seq, ack, stop, win.setWidth 16⟩
  else { t with seen }

/-- `tcp_in_window`, with the value of `nf_ct_tcp_be_liberal` -/
def tcpInWindow (beLiberal : Bool) (t : IpCtTcp) (dir : Bool) (s : Segment) : IpCtTcp × Bool :=
  let t := adopt t dir s
  let sender := t.seen dir
  let receiver := t.seen !dir
  let noAck := ¬ s.ack ∨ s.rst ∧ s.ackSeq = 0
  let ack := if noAck then receiver.tdEnd else s.ackSeq
  let sack :=
    if noAck then receiver.tdEnd
    else if receiver.flags &&& IP_CT_TCP_FLAG_SACK_PERM ≠ 0 then s.sack else s.ackSeq
  let noData := s.seq = s.stop ∧ (¬ s.rst ∨ s.seq = 0 ∧ t.state = .SYN_SENT)
  let seq := if noData then sender.tdEnd else s.seq
  let stop := if noData then sender.tdEnd else s.stop
  if before seq (sender.tdMaxend + 1) ∧ before (sender.tdEnd - receiver.tdMaxwin - 1) stop ∧
      before sack (receiver.tdEnd + 1) ∧ before (receiver.tdEnd - maxAckWindow sender) ack then
    (accept t dir s seq ack sack stop, true)
  else (t, decide (sender.flags &&& IP_CT_TCP_FLAG_BE_LIBERAL ≠ 0) || beLiberal)

theorem fst_of_snd_eq_false {α : Type} {c : Prop} [Decidable c] {a b : α} {x : Bool}
    (h : (if c then (a, true) else (b, x)).2 = false) : (if c then (a, true) else (b, x)).1 = b := by
  by_cases hc : c
  · simp [hc] at h
  · simp [hc]

variable {beLiberal dir : Bool} {t : IpCtTcp} {s : Segment}

/-- A rejected segment has changed the state only by its sender data. -/
theorem rejected_eq_adopt (h : (tcpInWindow beLiberal t dir s).2 = false) :
    (tcpInWindow beLiberal t dir s).1 = adopt t dir s :=
  fst_of_snd_eq_false h

/-- After a SYN with the sequence number 1000 and the window 500. -/
def synSent : IpCtTcp :=
  ⟨fun dir => if dir then ⟨0, 500, 1, 0, 0⟩ else ⟨1001, 1001, 500, 0, 0⟩, .SYN_SENT, false, 0, 0, 0,
    0, 0⟩

def segment (seq ack len : BitVec 32) (syn : Bool) : Segment :=
  ⟨seq, ack, ack, len, 500, syn, true, false, false, none⟩

end LinuxKernel.Net.TcpWindow
