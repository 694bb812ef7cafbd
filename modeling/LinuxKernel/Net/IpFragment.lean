/-
  Reassembly of IP fragments.

  Source: net/ipv4/ip_fragment.c, `ip_frag_reinit`, `ipq_kill`, `ip_frag_queue`,
  `ip_frag_reasm`, `ip_defrag`; `pskb_pull`, `pskb_trim_rcsum`, `skb_push` of
  include/linux/skbuff.h.

  A queue is the list of its fragments.  A fragment keeps the bytes that were pulled
  off its front, since they stay in the buffer: `skb_push` gets them back.  Checksum
  state, statistics and the accounting of memory are left out; where the kernel
  needs memory, or looks at the peer or the timer, the outcome is part of `Env`.
-/
import LinuxKernel.Foundation.Run

namespace LinuxKernel.Net.IpFragment

open Foundation

def IP_MF : BitVec 16 := 0x2000
def IP_OFFSET : BitVec 16 := 0x1FFF

def COMPLETE : BitVec 8 := 4
def FIRST_IN : BitVec 8 := 2
def LAST_IN : BitVec 8 := 1

section

variable {B : Type}

/-- An IP packet as it comes in, its header included.  `tot_len` has 16 bits, so that
no `int` below overflows. -/
structure Packet (B : Type) where
  ihl : Nat
  fragOff : BitVec 16
  bytes : List B
  length_le : bytes.length ≤ 65535

/-- `offset` in bytes -/
def Packet.offset (p : Packet B) : Int := ((p.fragOff &&& IP_OFFSET).toNat <<< 3 : Nat)

/-- A fragment: `pulled` are the bytes between the network header and `data`. -/
structure SkBuff (B : Type) where
  ihl : Nat
  offset : Int
  pulled : List B
  data : List B

/-- `skb->len` -/
def SkBuff.len (f : SkBuff B) : Int := f.data.length

/-- `struct ipq` -/
structure Ipq (B : Type) where
  lastIn : BitVec 8
  fragments : List (SkBuff B)
  len : Int
  meat : Int

/-- What the rest of the kernel decides: whether the queue is too old for the fragment
and its timer had run already, and whether `pskb_pull`, `pskb_trim_rcsum`,
`pskb_expand_head` and `alloc_skb` get their memory. -/
structure Env where
  tooFar : Bool
  expired : Bool
  pullHeader : Bool
  trim : Bool
  pullFront : Bool
  pullNext : Bool
  glue : Bool

/-- `pskb_pull` -/
def SkBuff.pull (f : SkBuff B) (n : Nat) (mem : Bool) : Option (SkBuff B) :=
  if n > f.data.length then none
  else if mem then some { f with pulled := f.pulled ++ f.data.take n, data := f.data.drop n }
  else none

/-- `pskb_trim_rcsum`; the length is `unsigned`. -/
def SkBuff.trim (f : SkBuff B) (n : Nat) (mem : Bool) : Option (SkBuff B) :=
  if n ≥ f.data.length then some f
  else if mem then some { f with data := f.data.take n }
  else none

/-- `ipq_kill` -/
def ipqKill (qp : Ipq B) : Ipq B := { qp with lastIn := qp.lastIn ||| COMPLETE }

/-- `ip_frag_reinit` when the timer was still pending. -/
def ipFragReinit (_ : Ipq B) : Ipq B := ⟨0, [], 0, 0⟩

/-- The end of the fragment, and what is known about the length of the datagram then;
`none` if the fragment is corrupted. -/
def position (qp : Ipq B) (p : Packet B) : Option (Int × Ipq B) :=
  let stop := p.offset + p.bytes.length - p.ihl
  if p.fragOff &&& IP_MF = 0 then
    if stop < qp.len ∨ (qp.lastIn &&& LAST_IN ≠ 0 ∧ stop ≠ qp.len) then none
    else some (stop, { qp with lastIn := qp.lastIn ||| LAST_IN, len := stop })
  else
    -- `end &= ~7`
    let stop := stop - stop % 8
    if stop > qp.len then
      if qp.lastIn &&& LAST_IN ≠ 0 then none else some (stop, { qp with len := stop })
    else some (stop, qp)

/-- The fragments in front of `offset`, and those behind. -/
def findPlace (offset : Int) : List (SkBuff B) → List (SkBuff B) × List (SkBuff B)
  | [] => ([], [])
  | f :: next =>
    if f.offset ≥ offset then ([], f :: next)
    else
      let (prevs, next) := findPlace offset next
      (f :: prevs, next)

/-- Check for overlap with the preceding fragment: the new offset and the fragment. -/
def cutFront (prev : Option (SkBuff B)) (offset stop : Int) (skb : SkBuff B) (env : Env) :
    Option (Int × SkBuff B) :=
  match prev with
  | none => some (offset, skb)
  | some prev =>
    let i := prev.offset + prev.len - offset
    if i > 0 then
      if stop ≤ offset + i then none
      else
        match skb.pull i.toNat env.pullFront with
        | none => none
        | some skb => some (offset + i, skb)
    else some (offset, skb)

/-- The loop over the fragments behind: `meat` and what is left of them, and whether
`pskb_pull` succeeded. -/
def eatNext (stop : Int) (env : Env) : Int → List (SkBuff B) → Int × List (SkBuff B) × Bool
  | meat, [] => (meat, [], true)
  | meat, next :: rest =>
    if next.offset < stop then
      let i := stop - next.offset
      if i < next.len then
        match next.pull i.toNat env.pullNext with
        | none => (meat, next :: rest, false)
        | some cut => (meat - i, { cut with offset := next.offset + i } :: rest, true)
      else eatNext stop env (meat - next.len) rest
    else (meat, next :: rest, true)

/-- Insert the fragment into the chain. -/
def insertFrag (qp : Ipq B) (p : Packet B) (stop : Int) (skb : SkBuff B) (env : Env) : Ipq B :=
  let (prevs, next) := findPlace p.offset qp.fragments
  match cutFront prevs.getLast? p.offset stop skb env with
  | none => qp
  | some (offset, skb) =>
    match eatNext stop env qp.meat next with
    | (meat, next, false) => { qp with fragments := prevs ++ next, meat := meat }
    | (meat, next, true) =>
      { qp with
        fragments := prevs ++ { skb with offset := offset } :: next
        meat := meat + skb.len
        lastIn := if offset = 0 then qp.lastIn ||| FIRST_IN else qp.lastIn }

/-- The fragment without its header and what is behind its end. -/
def strip (p : Packet B) (stop : Int) (env : Env) : Option (SkBuff B) :=
  match SkBuff.pull ⟨p.ihl, 0, [], p.bytes⟩ p.ihl env.pullHeader with
  | none => none
  | some skb => skb.trim (stop - p.offset).toNat env.trim

/-- `ip_frag_queue` -/
def ipFragQueue (qp : Ipq B) (p : Packet B) (env : Env) : Ipq B :=
  if qp.lastIn &&& COMPLETE ≠ 0 then qp
  else if env.tooFar ∧ qp.fragments ≠ [] ∧ env.expired then ipqKill qp
  else
    let qp := if env.tooFar ∧ qp.fragments ≠ [] then ipFragReinit qp else qp
    match position qp p with
    | none => qp
    | some (stop, qp) =>
      if stop = p.offset then qp
      else
        match strip p stop env with
        | none => qp
        | some skb => insertFrag qp p stop skb env

/-- A datagram: `tot_len` and the bytes from the network header on. -/
structure Datagram (B : Type) where
  ihlen : Nat
  totLen : Int
  bytes : List B

/-- `ip_frag_reasm` -/
def ipFragReasm (qp : Ipq B) (env : Env) : Ipq B × Option (Datagram B) :=
  let qp := ipqKill qp
  match qp.fragments with
  | [] => (qp, none)
  | head :: rest =>
    let len := head.ihl + qp.len
    if len > 65535 then (qp, none)
    else if env.glue then
      ({ qp with fragments := [] },
        some ⟨head.ihl, len, head.pulled ++ head.data ++ rest.flatMap SkBuff.data⟩)
    else (qp, none)

/-- `ip_defrag` with the queue of the packet. -/
def ipDefrag (qp : Ipq B) (p : Packet B) (env : Env) : Ipq B × Option (Datagram B) :=
  let qp := ipFragQueue qp p env
  if qp.lastIn = FIRST_IN ||| LAST_IN ∧ qp.meat = qp.len then ipFragReasm qp env
  else (qp, none)

/-- A queue as `ip_frag_create` leaves it. -/
def newQueue : Ipq B := ⟨0, [], 0, 0⟩

inductive Call (B : Type) where
  | queue (p : Packet B) (env : Env)
  /-- `ip_expire` and the evictor -/
  | kill

/-- The events are the packets that were delivered. -/
def step (qp : Ipq B) : Call B → Option (Ipq B × List (Packet B))
  | .queue p env => some (ipFragQueue qp p env, [p])
  | .kill => some (ipqKill qp, [])

end

end LinuxKernel.Net.IpFragment
