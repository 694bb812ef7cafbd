/-
  No byte is lost on the way to the receive queue.

  The words of the queues stand for positions in the stream: a `Segment` is a range of
  positions, and `Segment.skb` its words.  As everything that is queued lies in the 2^31
  positions after `rcv_nxt`, the comparisons of the code are those of the positions.
-/
import LinuxKernel.Net.TcpReceive

namespace LinuxKernel.Net.Tcp

open Foundation Foundation.Serial Option

/-! ## The array of SACK blocks is not left -/

section

theorem store_of_lt (acks : Vector SackBlock 4) {i : Nat} (h : i < 4) (block : SackBlock) :
    ∃ acks', store acks i block = some acks' := ⟨_, dif_pos h⟩

theorem getElem?_of_lt (acks : Vector SackBlock 4) {i : Nat} (h : i < 4) :
    ∃ block, acks[i]? = some block := ⟨_, Vector.getElem?_eq_getElem h⟩

theorem moveUp_some (count i : Nat) (acks : Vector SackBlock 4) (h : i + count < 4) :
    ∃ acks', moveUp count i acks = some acks' := by
  induction count generalizing i acks with
  | zero => exact ⟨acks, rfl⟩
  | succ count ih =>
    obtain ⟨block, hget⟩ := getElem?_of_lt acks (show i + 1 < 4 by omega)
    obtain ⟨acks1, hset⟩ := store_of_lt acks (show i < 4 by omega) block
    obtain ⟨acks2, hrest⟩ := ih (i + 1) acks1 (by omega)
    exact ⟨acks2, by simp [moveUp, hget, hset, hrest]⟩

theorem moveDown_some (i : Nat) (acks : Vector SackBlock 4) (h : i < 4) :
    ∃ acks', moveDown i acks = some acks' := by
  induction i generalizing acks with
  | zero => exact ⟨acks, rfl⟩
  | succ i ih =>
    obtain ⟨block, hget⟩ := getElem?_of_lt acks (show i < 4 by omega)
    obtain ⟨acks1, hset⟩ := store_of_lt acks h block
    obtain ⟨acks2, hrest⟩ := ih acks1 (by omega)
    exact ⟨acks2, by simp [moveDown, hget, hset, hrest]⟩

theorem rotate_some (i : Nat) (acks : Vector SackBlock 4) (h : i < 4) :
    ∃ acks', rotate i acks = some acks' := by
  induction i generalizing acks with
  | zero => exact ⟨acks, rfl⟩
  | succ i ih =>
    obtain ⟨sack1, hget1⟩ := getElem?_of_lt acks h
    obtain ⟨sack2, hget2⟩ := getElem?_of_lt acks (show i < 4 by omega)
    obtain ⟨acks1, hset1⟩ := store_of_lt acks h sack2
    obtain ⟨acks2, hset2⟩ := store_of_lt acks1 (show i < 4 by omega) sack1
    obtain ⟨acks3, hrest⟩ := ih acks2 (by omega)
    exact ⟨acks3, by simp [rotate, hget1, hget2, hset1, hset2, hrest]⟩

@[simp] theorem setEff_numSacks (s : Sacks) : s.setEff.numSacks = s.numSacks := rfl

@[simp] theorem tcpDsackSet_numSacks (s : Sacks) (seq endSeq : BitVec 32) :
    (tcpDsackSet s seq endSeq).numSacks = s.numSacks := by
  unfold tcpDsackSet
  split <;> rfl

@[simp] theorem tcpDsackExtend_numSacks (s : Sacks) (seq endSeq : BitVec 32) :
    (tcpDsackExtend s seq endSeq).numSacks = s.numSacks := by
  unfold tcpDsackExtend
  split
  · exact tcpDsackSet_numSacks s seq endSeq
  · rfl

theorem coalesceFrom_some (left thisSack : Nat) (s : Sacks) (hleft : left + thisSack = s.numSacks)
    (h : s.numSacks ≤ 4) : ∃ s', coalesceFrom left thisSack s = some s' ∧ s'.numSacks ≤ 4 := by
  induction left generalizing thisSack s with
  | zero => exact ⟨s, rfl, h⟩
  | succ left ih =>
    obtain ⟨sp, hget0⟩ := getElem?_of_lt s.selectiveAcks (show 0 < 4 by omega)
    obtain ⟨swalk, hget⟩ := getElem?_of_lt s.selectiveAcks (show thisSack < 4 by omega)
    cases hext : tcpSackExtend sp swalk.startSeq swalk.endSeq with
    | some sp' =>
      obtain ⟨acks1, hset⟩ := store_of_lt s.selectiveAcks (show 0 < 4 by omega) sp'
      obtain ⟨acks2, hmove⟩ := moveUp_some left thisSack acks1 (by omega)
      obtain ⟨s', hrest, hs'⟩ := ih thisSack
        (Sacks.setEff { s with numSacks := s.numSacks - 1, selectiveAcks := acks2 })
        (by simp only [setEff_numSacks]; omega) (by simp only [setEff_numSacks]; omega)
      refine ⟨s', ?_, hs'⟩
      simp only [coalesceFrom, hget0, hget, hext, hset, hmove, hrest, bind_eq_bind, bind_some]
    | none =>
      obtain ⟨s', hrest, hs'⟩ := ih (thisSack + 1) s (by omega) h
      refine ⟨s', ?_, hs'⟩
      simp only [coalesceFrom, hget0, hget, hext, hrest, bind_eq_bind, bind_some]

theorem findSack_some (acks : Vector SackBlock 4) (seq endSeq : BitVec 32) (left thisSack : Nat)
    (h : left + thisSack ≤ 4) :
    ∃ r, findSack acks seq endSeq left thisSack = some r ∧ ∀ i sp, r = some (i, sp) → i < 4 := by
  induction left generalizing thisSack with
  | zero => exact ⟨none, rfl, by simp⟩
  | succ left ih =>
    obtain ⟨sp, hget⟩ := getElem?_of_lt acks (show thisSack < 4 by omega)
    cases hext : tcpSackExtend sp seq endSeq with
    | some sp' =>
      refine ⟨some (thisSack, sp'), by simp [findSack, hget, hext], ?_⟩
      rintro i sp ⟨⟩
      omega
    | none =>
      obtain ⟨r, hrest, hr⟩ := ih (thisSack + 1) (by omega)
      exact ⟨r, by simp [findSack, hget, hext, hrest], hr⟩

theorem tcpSackNewOfoSkb_some (s : Sacks) (seq endSeq : BitVec 32) (h : s.numSacks ≤ 4) :
    ∃ s', tcpSackNewOfoSkb s seq endSeq = some s' ∧ s'.numSacks ≤ 4 := by
  unfold tcpSackNewOfoSkb
  split
  · exact ⟨_, rfl, show s.numSacks < 4 by omega⟩
  obtain ⟨r, hfind, hr⟩ := findSack_some s.selectiveAcks seq endSeq s.numSacks 0 (by omega)
  simp only [hfind, bind_eq_bind]
  cases r with
  | some found =>
    obtain ⟨i, sp⟩ := found
    obtain ⟨acks1, hset⟩ := store_of_lt s.selectiveAcks (hr i sp rfl) sp
    obtain ⟨acks2, hrot⟩ := rotate_some i acks1 (hr i sp rfl)
    simp only [hset, hrot, bind_some]
    split
    · exact coalesceFrom_some _ _ _ (by simp only; omega) h
    · exact ⟨_, rfl, h⟩
  | none =>
    obtain ⟨s1, hs1, hlt⟩ : ∃ s1 : Sacks, s1 = (if s.numSacks ≥ 4 then
        { s with numSacks := s.numSacks - 1 } else s) ∧ s1.numSacks < 4 := by
      refine ⟨_, rfl, ?_⟩
      split
      · simp only
        omega
      · omega
    rw [← hs1]
    obtain ⟨acks, hmove⟩ := moveDown_some s1.numSacks s1.selectiveAcks hlt
    rw [hmove]
    exact ⟨_, rfl, hlt⟩

theorem sackRemoveFrom_some (rcvNxt : BitVec 32) (left thisSack numSacks : Nat) (s : Sacks)
    (hleft : left + thisSack = numSacks) (h : numSacks ≤ 4) :
    ∃ n s', sackRemoveFrom rcvNxt left thisSack numSacks s = some (n, s') ∧ n ≤ 4 ∧
      s'.numSacks = s.numSacks := by
  induction left generalizing thisSack numSacks s with
  | zero => exact ⟨numSacks, s, rfl, h, rfl⟩
  | succ left ih =>
    obtain ⟨sp, hget⟩ := getElem?_of_lt s.selectiveAcks (show thisSack < 4 by omega)
    by_cases hpast : (!before rcvNxt sp.startSeq) = true
    · obtain ⟨acks, hmove⟩ := moveUp_some left thisSack s.selectiveAcks (by omega)
      obtain ⟨n, s', hrest, hn, hs'⟩ := ih thisSack (numSacks - 1)
        { s with selectiveAcks := acks, trapped := s.trapped || before rcvNxt sp.endSeq }
        (by omega) (by omega)
      refine ⟨n, s', ?_, hn, hs'⟩
      simp only [sackRemoveFrom, hget, bind_eq_bind, bind_some, if_pos hpast, hmove, hrest]
    · obtain ⟨n, s', hrest, hn, hs'⟩ := ih (thisSack + 1) numSacks s (by omega) h
      refine ⟨n, s', ?_, hn, hs'⟩
      simp only [sackRemoveFrom, hget, bind_eq_bind, bind_some, if_neg hpast, hrest]

theorem tcpSackRemove_some (s : Sacks) (empty : Bool) (rcvNxt : BitVec 32) (h : s.numSacks ≤ 4) :
    ∃ s', tcpSackRemove s empty rcvNxt = some s' ∧ s'.numSacks ≤ 4 := by
  unfold tcpSackRemove
  split
  · exact ⟨_, rfl, Nat.zero_le _⟩
  obtain ⟨n, s', hrem, hn, hs'⟩ := sackRemoveFrom_some rcvNxt s.numSacks 0 s.numSacks s rfl h
  simp only [hrem, bind_eq_bind, bind_some]
  split
  · exact ⟨_, rfl, hn⟩
  · exact ⟨_, rfl, by omega⟩

end

open List

/-! ## Segments as ranges of positions -/

section

/-- The bytes of a segment. -/
structure Segment where
  start : Int
  stop : Int

/-- The words of a segment. -/
def Segment.skb (a : Segment) : Skb := ⟨word a.start, word a.stop⟩

@[simp] theorem Segment.skb_seq (a : Segment) : a.skb.seq = word a.start := rfl
@[simp] theorem Segment.skb_endSeq (a : Segment) : a.skb.endSeq = word a.stop := rfl

def Segment.Has (a : Segment) (n : Int) : Prop := a.start ≤ n ∧ n < a.stop

/-- The segment is not empty and lies in the 2^31 positions from `lo` on. -/
structure Segment.Within (lo : Int) (a : Segment) : Prop where
  lower : lo ≤ a.start
  nonempty : a.start < a.stop
  upper : a.stop < lo + 2 ^ 31

def Increasing (l : List Segment) : Prop :=
  l.Pairwise fun a b => a.start < b.start ∧ a.stop < b.stop

theorem after_word {p q : Int} (h : -2 ^ 31 ≤ q - p) (h' : q - p < 2 ^ 31) :
    after (word p) (word q) = decide (q < p) := before_word h h'

end

/-! ## Out-of-order segments -/

variable {tp : TcpSock} {l : List Segment} {a : Segment}

section

variable {lo : Int}

/-- The queue after the segment `a` has been put into it: in order, and nothing is
lost. -/
structure Inserted (a : Segment) (l l' : List Segment) : Prop where
  increasing : Increasing l'
  sub : ∀ b ∈ l', b = a ∨ b ∈ l
  covers : ∀ b n, b = a ∨ b ∈ l → b.Has n → ∃ c ∈ l', c.Has n

/-- What an insertion leaves alone in the socket. -/
structure Framed (tp tp' : TcpSock) : Prop where
  rcvNxt : tp'.rcvNxt = tp.rcvNxt
  receiveQueue : tp'.receiveQueue = tp.receiveQueue
  numSacks : tp'.sacks.numSacks ≤ 4

/-- The place is after the last segment that does not start after the new one. -/
theorem findPlace_spec (ha : a.Within lo) (prev next : List Segment)
    (hprev : ∀ b ∈ prev, b.Within lo) (hnext : ∀ b ∈ next, a.start < b.start) :
    ∃ p n : List Segment, findPlace a.skb.seq (prev.map Segment.skb) (next.map Segment.skb) =
        (p.map Segment.skb, n.map Segment.skb) ∧ p.reverse ++ n = prev.reverse ++ next ∧
      (∀ b ∈ n, a.start < b.start) ∧ (∀ b ∈ p.head?, b.start ≤ a.start) := by
  induction prev generalizing next with
  | nil => exact ⟨[], next, rfl, rfl, hnext, by simp⟩
  | cons b prev ih =>
    obtain ⟨hb, hprev⟩ := forall_mem_cons.mp hprev
    have hafter : after b.skb.seq a.skb.seq = decide (a.start < b.start) := by
      obtain ⟨ha1, ha2, ha3⟩ := ha
      obtain ⟨hb1, hb2, hb3⟩ := hb
      exact after_word (by omega) (by omega)
    by_cases hlt : a.start < b.start
    · obtain ⟨p, n, heq, happ, hn, hp⟩ := ih (b :: next) hprev (forall_mem_cons.mpr ⟨hlt, hnext⟩)
      refine ⟨p, n, ?_, by simpa using happ, hn, hp⟩
      simp only [map_cons, findPlace, hafter, decide_eq_true hlt]
      exact heq
    · refine ⟨b :: prev, next, ?_, rfl, hnext, ?_⟩
      · simp only [map_cons, findPlace, hafter, decide_eq_false hlt, Bool.not_false, if_true]
      · rintro c ⟨⟩
        omega

/-- The segments that the new one covers go away, as far as the next one that ends after
it. -/
theorem cleanCovered_spec (ha : a.Within lo) (next : List Segment) (s : Sacks)
    (hnext : ∀ b ∈ next, b.Within lo) : ∃ (gone kept : List Segment) (s' : Sacks),
      cleanCovered a.skb.endSeq (next.map Segment.skb) s = (kept.map Segment.skb, s') ∧
      s'.numSacks = s.numSacks ∧ next = gone ++ kept ∧ (∀ b ∈ gone, b.stop ≤ a.stop) ∧
      ∀ b ∈ kept.head?, a.stop < b.stop := by
  induction next generalizing s with
  | nil => exact ⟨[], [], s, rfl, rfl, rfl, by simp, by simp⟩
  | cons b next ih =>
    obtain ⟨⟨hb1, hb2, hb3⟩, hnext⟩ := forall_mem_cons.mp hnext
    obtain ⟨ha1, ha2, ha3⟩ := ha
    have hafter : after a.skb.endSeq b.skb.seq = decide (b.start < a.stop) :=
      after_word (by omega) (by omega)
    have hbefore : before a.skb.endSeq b.skb.endSeq = decide (a.stop < b.stop) :=
      before_word (by omega) (by omega)
    simp only [map_cons, cleanCovered, hafter, hbefore, Bool.not_eq_true', decide_eq_true_eq,
      decide_eq_false_iff_not]
    split
    · refine ⟨[], b :: next, s, rfl, rfl, rfl, by simp, ?_⟩
      rintro c ⟨⟩
      omega
    split
    · rename_i hlt
      refine ⟨[], b :: next, _, rfl, tcpDsackExtend_numSacks s _ _, rfl, by simp, ?_⟩
      rintro c ⟨⟩
      exact hlt
    · obtain ⟨gone, kept, s', heq, hnum, happ, hgone, hkept⟩ :=
        ih (tcpDsackExtend s b.skb.seq b.skb.endSeq) hnext
      exact ⟨b :: gone, kept, s', heq, hnum.trans (tcpDsackExtend_numSacks s _ _),
        by rw [happ, cons_append], forall_mem_cons.mpr ⟨by omega, hgone⟩, hkept⟩

theorem addSack_spec (tp : TcpSock) (skb : Skb) (h : tp.sacks.numSacks ≤ 4) :
    ∃ tp', addSack tp skb = some tp' ∧ Framed tp tp' ∧
      tp'.outOfOrderQueue = tp.outOfOrderQueue := by
  unfold addSack
  split
  · obtain ⟨s', hs', hle⟩ := tcpSackNewOfoSkb_some tp.sacks skb.seq skb.endSeq h
    rw [hs']
    exact ⟨_, rfl, ⟨rfl, rfl, hle⟩, rfl⟩
  · exact ⟨tp, rfl, ⟨rfl, rfl, h⟩, rfl⟩

/-- Where the order allows it, the new segment takes the place of those it covers. -/
theorem insertAt_spec (tp : TcpSock) {p n : List Segment} (ha : a.Within lo)
    (hn : ∀ b ∈ n, b.Within lo) (hinc : Increasing (p.reverse ++ n))
    (hprev : ∀ b ∈ p, b.start < a.start ∧ b.stop < a.stop)
    (hnext : ∀ b ∈ n, a.start ≤ b.start ∧ (a.stop < b.stop → a.start < b.start))
    (hsacks : tp.sacks.numSacks ≤ 4) :
    ∃ (tp' : TcpSock) (l' : List Segment), insertAt tp a.skb (p.map Segment.skb) (n.map Segment.skb) = some tp' ∧
      Framed tp tp' ∧ tp'.outOfOrderQueue = l'.map Segment.skb ∧
      Inserted a (p.reverse ++ n) l' := by
  obtain ⟨gone, kept, s', hclean, hnum, rfl, hgone, hkept⟩ := cleanCovered_spec ha n tp.sacks hn
  obtain ⟨tp', hadd, hframe, hqueue⟩ := addSack_spec { tp with
    outOfOrderQueue := (p.map Segment.skb).reverse ++ a.skb :: kept.map Segment.skb, sacks := s' }
    a.skb (Nat.le_trans (Nat.le_of_eq hnum) hsacks)
  refine ⟨tp', p.reverse ++ a :: kept, ?_, { hframe with }, by rw [hqueue]; simp, ?_, ?_, ?_⟩
  · simp only [insertAt, hclean]
    exact hadd
  · -- what is kept ends after the new segment, since its first does
    have hafter (b) (hb : b ∈ kept) : a.start < b.start ∧ a.stop < b.stop := by
      have hstop : a.stop < b.stop := by
        cases kept with
        | nil => simp at hb
        | cons c kept =>
          have hc := hkept c rfl
          rcases mem_cons.mp hb with rfl | hb
          · exact hc
          · have htail := (pairwise_append.mp (pairwise_append.mp hinc).2.1).2.1
            have := (pairwise_cons.mp htail).1 b hb
            omega
      exact ⟨(hnext b (mem_append_right gone hb)).2 hstop, hstop⟩
    have hsplit := pairwise_append.mp hinc
    refine pairwise_append.mpr ⟨hsplit.1, pairwise_cons.mpr
      ⟨hafter, (pairwise_append.mp hsplit.2.1).2.1⟩, fun b hb => forall_mem_cons.mpr ⟨?_, ?_⟩⟩
    · exact hprev b (mem_reverse.mp hb)
    · exact (forall_mem_append.mp (hsplit.2.2 b hb)).2
  · intro b hb
    simp only [mem_append, mem_cons] at hb ⊢
    tauto
  · intro b k hb hk
    have hnew : a ∈ p.reverse ++ a :: kept := mem_append_cons_self
    rcases hb with rfl | hb
    · exact ⟨b, hnew, hk⟩
    rcases mem_append.mp hb with hb | hb
    · exact ⟨b, mem_append_left _ hb, hk⟩
    rcases mem_append.mp hb with hb | hb
    · have h1 := (hnext b (mem_append_left _ hb)).1
      have h2 := hgone b hb
      exact ⟨a, hnew, Int.le_trans h1 hk.1, Int.lt_of_lt_of_le hk.2 h2⟩
    · exact ⟨b, mem_append_right _ (mem_cons_of_mem _ hb), hk⟩

/-- The queue is found to hold the new segment already. -/
theorem Inserted.present (hinc : Increasing l) {b : Segment} (hb : b ∈ l)
    (hstart : b.start ≤ a.start) (hstop : a.stop ≤ b.stop) : Inserted a l l where
  increasing := hinc
  sub c hc := .inr hc
  covers c n hc hn := by
    rcases hc with rfl | hc
    · exact ⟨b, hb, Int.le_trans hstart hn.1, Int.lt_of_lt_of_le hn.2 hstop⟩
    · exact ⟨c, hc, hn⟩

/-- The new segment follows on the last one. -/
theorem appendOfo_spec (skb : Skb) (hsacks : tp.sacks.numSacks ≤ 4) :
    ∃ tp', appendOfo tp skb = some tp' ∧ Framed tp tp' ∧
      tp'.outOfOrderQueue = tp.outOfOrderQueue ++ [skb] := by
  obtain ⟨first, hget⟩ := getElem?_of_lt tp.sacks.selectiveAcks (show 0 < 4 by omega)
  simp only [appendOfo, hget, bind_eq_bind, bind_some]
  split
  · obtain ⟨tp', hadd, hframe, hqueue⟩ := addSack_spec { tp with
      outOfOrderQueue := tp.outOfOrderQueue ++ [skb] } skb hsacks
    exact ⟨tp', hadd, { hframe with }, hqueue⟩
  · exact ⟨_, rfl, ⟨rfl, rfl, hsacks⟩, rfl⟩

section

variable (tp) (hqueue : tp.outOfOrderQueue = l.map Segment.skb) (hinc : Increasing l)
  (hl : ∀ b ∈ l, b.Within lo) (ha : a.Within lo) (hsacks : tp.sacks.numSacks ≤ 4)
include hqueue hinc hl ha hsacks

theorem insertOfo_spec :
    ∃ (tp' : TcpSock) (l' : List Segment), insertOfo tp a.skb = some tp' ∧ Framed tp tp' ∧
      tp'.outOfOrderQueue = l'.map Segment.skb ∧ Inserted a l l' := by
  obtain ⟨p, n, hplace, happ, hnext, hp⟩ := findPlace_spec ha l.reverse []
    (fun b hb => hl b (mem_reverse.mp hb)) (by simp)
  simp only [reverse_reverse, append_nil] at happ
  subst happ
  rw [map_reverse, ← hqueue] at hplace
  have hafter : ∀ c ∈ n, a.start ≤ c.start ∧ (a.stop < c.stop → a.start < c.start) :=
    fun c hc => ⟨Int.le_of_lt (hnext c hc), fun _ => hnext c hc⟩
  have hnw (b) (hb : b ∈ n) : b.Within lo := hl b (mem_append_right _ hb)
  unfold insertOfo
  simp only [map_nil] at hplace
  rw [hplace]
  cases p with
  | nil => exact insertAt_spec tp ha hnw hinc (by simp) hafter hsacks
  | cons b p =>
    have hbl : b ∈ (b :: p).reverse ++ n := by simp
    have hb := hl b hbl
    have hstart := hp b rfl
    -- the segments before `b`
    have hsplit := pairwise_append.mp hinc
    have hrev := pairwise_reverse.mp hsplit.1
    have hbefore := (pairwise_cons.mp hrev).1
    obtain ⟨ha1, ha2, ha3⟩ := ha
    obtain ⟨hb1, hb2, hb3⟩ := hb
    have h1 : before a.skb.seq b.skb.endSeq = decide (a.start < b.stop) :=
      before_word (by omega) (by omega)
    have h2 : after a.skb.endSeq b.skb.endSeq = decide (b.stop < a.stop) :=
      after_word (by omega) (by omega)
    have h3 : after a.skb.seq b.skb.seq = decide (b.start < a.start) :=
      after_word (by omega) (by omega)
    have hprev (hlt : b.start < a.start) (hlt' : b.stop < a.stop) (c) (hc : c ∈ b :: p) :
        c.start < a.start ∧ c.stop < a.stop := by
      rcases mem_cons.mp hc with rfl | hc
      · exact ⟨hlt, hlt'⟩
      · have := hbefore c hc
        omega
    simp only [map_cons, h1, h2, h3, Bool.not_eq_true', decide_eq_true_eq, decide_eq_false_iff_not]
    split
    · split
      · obtain ⟨tp', hadd, hframe, hsame⟩ := addSack_spec { tp with
          sacks := tcpDsackSet tp.sacks a.skb.seq a.skb.endSeq } a.skb
          (by simpa using hsacks)
        exact ⟨tp', _, hadd, { hframe with },
          hsame.trans hqueue, .present hinc hbl hstart (by omega)⟩
      · split
        · rename_i hover hpart
          obtain ⟨tp', l', hins, hframe, hres⟩ := insertAt_spec { tp with
            sacks := tcpDsackSet tp.sacks a.skb.seq b.skb.endSeq } ⟨ha1, ha2, ha3⟩ hnw hinc
            (hprev hpart (by omega)) hafter (by simpa using hsacks)
          exact ⟨tp', l', hins, { hframe with }, hres⟩
        · -- the segment that starts with the new one ends before it, and is cleaned away
          have hshift : (b :: p).reverse ++ n = p.reverse ++ b :: n := by simp
          rw [hshift] at hinc ⊢
          refine insertAt_spec tp ⟨ha1, ha2, ha3⟩ (fun c hc => ?_) hinc (fun c hc => ?_)
            (forall_mem_cons.mpr ⟨⟨by omega, fun h => by omega⟩, hafter⟩) hsacks
          · exact hl c (hshift ▸ mem_append_right _ hc)
          · have := hbefore c hc
            omega
    · exact insertAt_spec tp ⟨ha1, ha2, ha3⟩ hnw hinc (hprev (by omega) (by omega)) hafter hsacks

theorem queueOfo_spec :
    ∃ (tp' : TcpSock) (l' : List Segment), queueOfo tp a.skb = some tp' ∧ Framed tp tp' ∧
      tp'.outOfOrderQueue = l'.map Segment.skb ∧ Inserted a l l' := by
  unfold queueOfo
  rw [hqueue, getLast?_map]
  rcases eq_nil_or_concat l with rfl | ⟨l, b, rfl⟩
  · have hnew : Inserted a [] [a] :=
      ⟨by simp [Increasing], by simp, fun b n hb hn => ⟨a, by simp, by simp_all⟩⟩
    simp only [getLast?_nil, map_none]
    split
    · exact ⟨_, [a], rfl, ⟨rfl, rfl, by simp⟩, rfl, hnew⟩
    · exact ⟨_, [a], rfl, ⟨rfl, rfl, hsacks⟩, rfl, hnew⟩
  rw [concat_eq_append] at hqueue hinc hl ⊢
  simp only [getLast?_append, getLast?_singleton, some_or, map_some]
  have hb := hl b (by simp)
  obtain ⟨ha1, ha2, ha3⟩ := ha
  obtain ⟨hb1, hb2, hb3⟩ := hb
  split
  · rename_i heq
    have hstart : a.start = b.stop := (word_inj (by omega) (by omega)).mp heq
    have hnew : Inserted a (l ++ [b]) (l ++ [b] ++ [a]) := by
      refine ⟨pairwise_append.mpr ⟨hinc, by simp, fun c hc => forall_mem_singleton.mpr ?_⟩, ?_, ?_⟩
      · rcases mem_append.mp hc with hc | hc
        · have := (pairwise_append.mp hinc).2.2 c hc b (by simp)
          omega
        · obtain rfl : c = b := by simpa using hc
          omega
      · exact forall_mem_append.mpr ⟨fun c => .inr, by simp⟩
      · rintro c n (rfl | hc) hn
        · exact ⟨c, by simp, hn⟩
        · exact ⟨c, mem_append_left _ hc, hn⟩
    obtain ⟨tp', happend, hframe, hqueue'⟩ := appendOfo_spec a.skb hsacks
    exact ⟨tp', _, happend, hframe, by rw [hqueue', hqueue]; simp, hnew⟩
  · exact insertOfo_spec _ hqueue hinc hl ⟨ha1, ha2, ha3⟩ hsacks

end

end

/-! ## Segments in sequence -/

section

/-- The segments cover the positions from the first to the last: each starts at or before
the end of the data before it, and ends after it. -/
def Delivers : Int → List Skb → Int → Prop
  | r, [], r' => r = r'
  | r, skb :: rest, r' =>
    near r skb.seq ≤ r ∧ r < near r skb.endSeq ∧ Delivers (near r skb.endSeq) rest r'

theorem Delivers.append {l l' : List Skb} {r m r' : Int} (h : Delivers r l m)
    (h' : Delivers m l' r') : Delivers r (l ++ l') r' := by
  induction l generalizing l' r m r' with
  | nil =>
    obtain rfl : r = m := h
    exact h'
  | cons skb l ih =>
    obtain ⟨h1, h2, h3⟩ := h
    exact ⟨h1, h2, ih h3 h'⟩

theorem Delivers.le {l : List Skb} {r r' : Int} (h : Delivers r l r') : r ≤ r' := by
  induction l generalizing r r' with
  | nil => exact Int.le_of_eq h
  | cons skb l ih =>
    obtain ⟨_, h2, h3⟩ := h
    have := ih h3
    omega

theorem Delivers.cons {r r' : Int} {l : List Skb} (hlo : r - 2 ^ 31 ≤ a.start)
    (hstart : a.start ≤ r) (hstop : r < a.stop) (hhi : a.stop < r + 2 ^ 31)
    (h : Delivers a.stop l r') : Delivers r (a.skb :: l) r' := by
  have h1 : near r (word a.start) = a.start := near_word (by omega) (by omega)
  have h2 : near r (word a.stop) = a.stop := near_word (by omega) (by omega)
  simp only [Delivers, Segment.skb_seq, Segment.skb_endSeq, h1, h2]
  exact ⟨hstart, hstop, h⟩

/-- `rcv_nxt` has moved from `r` to `r'`, over data of the segments `l`; the segments
`kept` stay on the out-of-order queue. -/
structure Drained (lo r r' : Int) (l kept : List Segment) (tp tp' : TcpSock) : Prop where
  rcvNxt : tp'.rcvNxt = word r'
  upper : r' < lo + 2 ^ 31
  queue : tp'.outOfOrderQueue = kept.map Segment.skb
  increasing : Increasing kept
  sub : ∀ b ∈ kept, b ∈ l
  ahead : ∀ b ∈ kept, r' < b.start
  gone : ∀ b ∈ l, b ∈ kept ∨ b.stop ≤ r'
  covers : ∀ n, r ≤ n → n < r' → ∃ b ∈ l, b.Has n
  delivers : ∃ added, tp'.receiveQueue = tp.receiveQueue ++ added ∧ Delivers r added r'
  numSacks : tp.sacks.numSacks ≤ 4 → tp'.sacks.numSacks ≤ 4

/-- A segment was delivered first. -/
theorem Drained.cons {lo r r' : Int} {kept : List Segment} {tp tp0 tp' : TcpSock}
    (hd : Drained lo a.stop r' l kept tp0 tp')
    (hqueue : tp0.receiveQueue = tp.receiveQueue ++ [a.skb])
    (hnum : tp0.sacks.numSacks = tp.sacks.numSacks) (hlo : r - 2 ^ 31 ≤ a.start)
    (hstart : a.start ≤ r) (hstop : r < a.stop) (hhi : a.stop < r + 2 ^ 31) :
    Drained lo r r' (a :: l) kept tp tp' := by
  obtain ⟨added, hadded, hdel⟩ := hd.delivers
  refine ⟨hd.rcvNxt, hd.upper, hd.queue, hd.increasing,
    fun b hb => mem_cons_of_mem a (hd.sub b hb), hd.ahead,
    forall_mem_cons.mpr ⟨.inr hdel.le, hd.gone⟩, ?_,
    ⟨a.skb :: added, by simp [hadded, hqueue], .cons hlo hstart hstop hhi hdel⟩,
    fun h => hd.numSacks (hnum ▸ h)⟩
  · intro n h h'
    by_cases hn : n < a.stop
    · exact ⟨a, mem_cons_self, by omega, hn⟩
    · obtain ⟨b, hb, hn⟩ := hd.covers n (by omega) h'
      exact ⟨b, mem_cons_of_mem a hb, hn⟩

theorem ofoLoop_spec {lo : Int} (l : List Segment) {r : Int} (dsackHigh : BitVec 32) (tp : TcpSock)
    (hinc : Increasing l) (hl : ∀ b ∈ l, b.Within lo) (hrcv : tp.rcvNxt = word r) (hlo : lo ≤ r)
    (hr : r < lo + 2 ^ 31) :
    ∃ r' kept, Drained lo r r' l kept tp (ofoLoop (l.map Segment.skb) dsackHigh tp) := by
  induction l generalizing r dsackHigh tp with
  | nil =>
    exact ⟨r, [], hrcv, hr, rfl, .nil, by simp, by simp, by simp, fun n h h' => by omega,
      ⟨[], by simp [ofoLoop], rfl⟩, id⟩
  | cons a l ih =>
    obtain ⟨⟨ha1, ha2, ha3⟩, hl⟩ := forall_mem_cons.mp hl
    obtain ⟨hahead, hinc'⟩ := pairwise_cons.mp hinc
    have h1 : after a.skb.seq tp.rcvNxt = decide (r < a.start) := by
      rw [hrcv]
      exact after_word (by omega) (by omega)
    have h2 : after a.skb.endSeq tp.rcvNxt = decide (r < a.stop) := by
      rw [hrcv]
      exact after_word (by omega) (by omega)
    simp only [map_cons, ofoLoop, h1, h2, decide_eq_true_eq, Bool.not_eq_true',
      decide_eq_false_iff_not]
    split
    · rename_i hlt
      refine ⟨r, a :: l, hrcv, hr, rfl, hinc, fun b hb => hb,
        forall_mem_cons.mpr ⟨hlt, fun b hb => ?_⟩, fun b hb => .inl hb, fun n h h' => by omega,
        ⟨[], by simp, rfl⟩, id⟩
      have := hahead b hb
      omega
    · -- what the sacks become does not matter for the queues
      obtain ⟨sacks, hsacks, hnum⟩ : ∃ sacks, sacks = (if before a.skb.seq dsackHigh = true then
          tcpDsackExtend tp.sacks a.skb.seq dsackHigh else tp.sacks) ∧
          sacks.numSacks = tp.sacks.numSacks := by
        refine ⟨_, rfl, ?_⟩
        split
        · exact tcpDsackExtend_numSacks _ _ _
        · rfl
      rw [← hsacks]
      generalize (if (before a.skb.seq dsackHigh && before a.skb.endSeq dsackHigh) = true then
        a.skb.endSeq else dsackHigh) = high
      split
      · obtain ⟨r', kept, hd⟩ := ih high { tp with sacks := sacks } hinc' hl hrcv hlo hr
        obtain ⟨added, hadded, hdel⟩ := hd.delivers
        refine ⟨r', kept, hd.rcvNxt, hd.upper, hd.queue, hd.increasing,
          fun b hb => mem_cons_of_mem a (hd.sub b hb), hd.ahead,
          forall_mem_cons.mpr ⟨.inr ?_, hd.gone⟩, fun n h h' => ?_, ⟨added, hadded, hdel⟩,
          fun h => hd.numSacks (hnum ▸ h)⟩
        · have := hdel.le
          omega
        · obtain ⟨b, hb, hn⟩ := hd.covers n h h'
          exact ⟨b, mem_cons_of_mem a hb, hn⟩
      · obtain ⟨r', kept, hd⟩ := ih high { tp with
          sacks := sacks, receiveQueue := tp.receiveQueue ++ [a.skb], rcvNxt := a.skb.endSeq }
          hinc' hl rfl (by omega) ha3
        exact ⟨r', kept, hd.cons rfl hnum (by omega) (by omega) (by omega) (by omega)⟩

/-- A segment that starts at or before `rcv_nxt`, and what it lets through. -/
theorem queueAndOut_spec (tp : TcpSock) {R : Int} (hqueue : tp.outOfOrderQueue = l.map Segment.skb)
    (hinc : Increasing l) (hl : ∀ b ∈ l, b.Within R) (hlo : R - 2 ^ 31 ≤ a.start)
    (hstart : a.start ≤ R) (hstop : R < a.stop) (hhi : a.stop < R + 2 ^ 31)
    (hsacks : tp.sacks.numSacks ≤ 4) : ∃ tp' r' kept, queueAndOut tp a.skb = some tp' ∧ R < r' ∧
      Drained R R r' (a :: l) kept tp tp' := by
  obtain ⟨tp1, r', kept, htp1, hd⟩ : ∃ tp1 r' kept, (if tp.outOfOrderQueue.isEmpty = true then
        { tp with receiveQueue := tp.receiveQueue ++ [a.skb], rcvNxt := a.skb.endSeq }
      else tcpOfoQueue
        { tp with receiveQueue := tp.receiveQueue ++ [a.skb], rcvNxt := a.skb.endSeq }) = tp1 ∧
      Drained R a.stop r' l kept
        { tp with receiveQueue := tp.receiveQueue ++ [a.skb], rcvNxt := a.skb.endSeq } tp1 := by
    split
    · rename_i hempty
      obtain rfl : l = [] := by simpa [hqueue] using hempty
      exact ⟨_, a.stop, [], rfl, rfl, hhi, hqueue, .nil, by simp, by simp, by simp,
        fun n h h' => by omega, ⟨[], by simp, rfl⟩, id⟩
    · obtain ⟨r', kept, hd⟩ := ofoLoop_spec l a.skb.endSeq { tp with
        receiveQueue := tp.receiveQueue ++ [a.skb], rcvNxt := a.skb.endSeq }
        hinc hl rfl (by omega) hhi
      rw [← hqueue] at hd
      exact ⟨_, r', kept, rfl, hd⟩
  obtain ⟨s', hs', hres⟩ : ∃ s', queueAndOut tp a.skb = some { tp1 with sacks := s' } ∧
      s'.numSacks ≤ 4 := by
    have hnum : tp1.sacks.numSacks ≤ 4 := hd.numSacks hsacks
    simp only [queueAndOut, htp1]
    split
    · obtain ⟨s', hrem, hle⟩ := tcpSackRemove_some tp1.sacks tp1.outOfOrderQueue.isEmpty tp1.rcvNxt
        hnum
      rw [hrem]
      exact ⟨s', rfl, hle⟩
    · exact ⟨tp1.sacks, rfl, hnum⟩
  obtain ⟨added, -, hdel⟩ := hd.delivers
  exact ⟨_, r', kept, hs', Int.lt_of_lt_of_le hstop hdel.le,
    { hd.cons rfl rfl hlo hstart hstop hhi with numSacks := fun _ => hres }⟩

end

/-! ## One segment -/

section

/-- What becomes of the segment `a` when `rcv_nxt` is at `R` and the segments `l` are out
of order. -/
inductive Outcome (R : Int) (l : List Segment) (a : Segment) (tp tp' : TcpSock) : Verdict → Prop
  | outOfWindow : Framed tp tp' → tp'.outOfOrderQueue = tp.outOfOrderQueue →
      Outcome R l a tp tp' .outOfWindow
  | retransmit : a.stop ≤ R → Framed tp tp' → tp'.outOfOrderQueue = tp.outOfOrderQueue →
      Outcome R l a tp tp' .retransmit
  | queued (r' : Int) (kept : List Segment) : a.start ≤ R → R < r' → Drained R R r' (a :: l) kept tp tp' →
      Outcome R l a tp tp' .queued
  | outOfOrder (l' : List Segment) : a.Within R → R < a.start → Framed tp tp' →
      tp'.outOfOrderQueue = l'.map Segment.skb → Inserted a l l' →
      Outcome R l a tp tp' .outOfOrder

theorem tcpDataQueue_spec {R : Int} (hrcv : tp.rcvNxt = word R)
    (hqueue : tp.outOfOrderQueue = l.map Segment.skb) (hinc : Increasing l)
    (hl : ∀ b ∈ l, b.Within R) (hsacks : tp.sacks.numSacks ≤ 4) (hlo : R - 2 ^ 31 ≤ a.start)
    (hne : a.start < a.stop) (hhi : a.stop < R + 2 ^ 31) :
    ∃ tp' verdict, tcpDataQueue tp a.skb = some (tp', verdict) ∧ Outcome R l a tp tp' verdict := by
  -- what is done to the sacks first, and on the way, does not matter
  obtain ⟨s1, hs1, hnum1⟩ : ∃ s1 : Sacks, (if tp.sacks.dsack = true then
        { tp with sacks := Sacks.setEff { tp.sacks with dsack := false } } else tp) =
      { tp with sacks := s1 } ∧ s1.numSacks ≤ 4 := by
    split
    · exact ⟨_, rfl, hsacks⟩
    · exact ⟨tp.sacks, rfl, hsacks⟩
  have hout : ∀ sacks : Sacks, sacks.numSacks ≤ 4 → a.start ≤ R → R < a.stop → ∃ tp',
      queueAndOut { tp with sacks := sacks } a.skb = some tp' ∧ Outcome R l a tp tp' .queued := by
    intro sacks hnum hstart hstop
    obtain ⟨tp', r', kept, heq, hlt, hd⟩ := queueAndOut_spec { tp with sacks := sacks }
      hqueue hinc hl hlo hstart hstop hhi hnum
    exact ⟨tp', heq, .queued r' kept hstart hlt { hd with numSacks := fun _ => hd.numSacks hnum }⟩
  have hempty : ¬ a.skb.seq = a.skb.endSeq := fun heq =>
    Int.ne_of_lt hne ((word_inj (by omega) (by omega)).mp heq)
  have hseq : a.skb.seq = tp.rcvNxt ↔ a.start = R := by
    rw [hrcv]
    exact word_inj (by omega) (by omega)
  have hend : after a.skb.endSeq tp.rcvNxt = decide (R < a.stop) := by
    rw [hrcv]
    exact after_word (by omega) (by omega)
  have hbefore : before a.skb.seq tp.rcvNxt = decide (a.start < R) := by
    rw [hrcv]
    exact before_word (by omega) (by omega)
  simp only [tcpDataQueue, if_neg hempty, hs1, hseq, hend, hbefore, decide_eq_true_eq,
    Bool.not_eq_true', decide_eq_false_iff_not]
  split
  · split
    · exact ⟨_, _, rfl, .outOfWindow ⟨rfl, rfl, hnum1⟩ rfl⟩
    · obtain ⟨tp', heq, hres⟩ := hout s1 hnum1 (by omega) (by omega)
      exact ⟨tp', _, by rw [heq]; rfl, hres⟩
  split
  · exact ⟨_, _, rfl, .retransmit (by omega) ⟨rfl, rfl, by simpa using hnum1⟩ rfl⟩
  split
  · exact ⟨_, _, rfl, .outOfWindow ⟨rfl, rfl, hnum1⟩ rfl⟩
  split
  · split
    · exact ⟨_, _, rfl, .outOfWindow ⟨rfl, rfl, by simpa using hnum1⟩ rfl⟩
    · obtain ⟨tp', heq, hres⟩ := hout (tcpDsackSet s1 a.skb.seq tp.rcvNxt)
        (by simpa using hnum1) (by omega) (by omega)
      exact ⟨tp', _, by rw [heq]; rfl, hres⟩
  · have ha : a.Within R := ⟨by omega, hne, hhi⟩
    obtain ⟨tp', l', heq, hframe, hqueue', hins⟩ :=
      queueOfo_spec { tp with sacks := s1 } hqueue hinc hl ha hnum1
    exact ⟨tp', _, by rw [heq]; rfl, .outOfOrder l' ha (by omega) { hframe with } hqueue' hins⟩

end

/-! ## The whole connection -/

section

variable {r₀ : Int} {evs : List Arrival} {s s' : Connection}

/-- The byte is one of a segment that was not rejected as out of window. -/
def Accepted (evs : List Arrival) (n : Int) : Prop :=
  ∃ v ∈ evs, v.verdict ≠ .outOfWindow ∧ v.start ≤ n ∧ n < v.stop

theorem accepted_snoc {v : Arrival} {n : Int} : Accepted (evs ++ [v]) n ↔
    Accepted evs n ∨ (v.verdict ≠ .outOfWindow ∧ v.start ≤ n ∧ n < v.stop) := by
  simp only [Accepted, mem_append, mem_singleton, or_and_right, exists_or, exists_eq_left]

structure Inv (r₀ : Int) (evs : List Arrival) (s : Connection) (l : List Segment) : Prop where
  rcvNxt : s.sock.rcvNxt = word s.rcvPos
  queue : s.sock.outOfOrderQueue = l.map Segment.skb
  increasing : Increasing l
  within : ∀ b ∈ l, b.Within s.rcvPos
  ahead : ∀ b ∈ l, s.rcvPos < b.start
  sound : ∀ b ∈ l, ∀ n, b.Has n → Accepted evs n
  kept : ∀ n, s.rcvPos ≤ n → Accepted evs n → ∃ b ∈ l, b.Has n
  run : ∀ n, r₀ ≤ n → n < s.rcvPos → Accepted evs n
  delivers : Delivers r₀ s.sock.receiveQueue s.rcvPos
  numSacks : s.sock.sacks.numSacks ≤ 4

theorem Initial.inv (h : Initial s) : Inv s.rcvPos [] s [] where
  rcvNxt := h.rcvNxt
  queue := h.outOfOrderQueue
  increasing := .nil
  within := by simp
  ahead := by simp
  sound := by simp
  kept n _ hacc := by
    obtain ⟨v, hv, -⟩ := hacc
    cases hv
  run n h h' := by omega
  delivers := by
    rw [h.receiveQueue]
    exact rfl
  numSacks := by simp [h.numSacks]

theorem Outcome.inv {tp' : TcpSock} {verdict : Verdict} (h : Inv r₀ evs s l)
    (hout : Outcome s.rcvPos l a s.sock tp' verdict) :
    ∃ l', Inv r₀ (evs ++ [⟨a.start, a.stop, verdict⟩]) ⟨tp', near s.rcvPos tp'.rcvNxt⟩ l' := by
  have hsame : ∀ {x : BitVec 32}, x = s.sock.rcvNxt → near s.rcvPos x = s.rcvPos := by
    rintro x rfl
    rw [h.rcvNxt]
    exact near_word (by omega) (by omega)
  have hold : ∀ {v n}, Accepted evs n → Accepted (evs ++ [v]) n := fun hacc =>
    accepted_snoc.mpr (.inl hacc)
  -- the segment has no byte that is new and accepted
  have hstays {v} (hframe : Framed s.sock tp') (hqueue : tp'.outOfOrderQueue = s.sock.outOfOrderQueue)
      (hnew : ∀ n, s.rcvPos ≤ n → ¬ (v.verdict ≠ .outOfWindow ∧ v.start ≤ n ∧ n < v.stop)) :
      ∃ l', Inv r₀ (evs ++ [v]) ⟨tp', near s.rcvPos tp'.rcvNxt⟩ l' := by
    rw [hsame hframe.rcvNxt]
    exact ⟨l, hframe.rcvNxt.trans h.rcvNxt, hqueue.trans h.queue, h.increasing, h.within, h.ahead,
      fun b hb n hn => hold (h.sound b hb n hn),
      fun n hn hacc => h.kept n hn ((accepted_snoc.mp hacc).resolve_right (hnew n hn)),
      fun n hn hn' => hold (h.run n hn hn'), by rw [hframe.receiveQueue]; exact h.delivers,
      hframe.numSacks⟩
  cases hout with
  | outOfWindow hframe hqueue => exact hstays hframe hqueue fun n _ hnew => hnew.1 rfl
  | retransmit hstop hframe hqueue =>
    refine hstays hframe hqueue fun n hn hnew => ?_
    exact absurd hstop (Int.not_le.mpr (Int.lt_of_le_of_lt hn hnew.2.2))
  | queued r' kept hstart hlt hd =>
    have hbytes : ∀ b ∈ a :: l, ∀ n, b.Has n → Accepted (evs ++ [⟨a.start, a.stop, .queued⟩]) n :=
      forall_mem_cons.mpr ⟨fun n hn => accepted_snoc.mpr (.inr ⟨by simp, hn⟩),
        fun b hb n hn => hold (h.sound b hb n hn)⟩
    have hupper := hd.upper
    have hpos : near s.rcvPos tp'.rcvNxt = r' := by
      rw [hd.rcvNxt]
      exact near_word (by omega) (by omega)
    obtain ⟨added, hadded, hdel⟩ := hd.delivers
    rw [hpos]
    refine ⟨kept, hd.rcvNxt, hd.queue, hd.increasing, fun b hb => ?_, hd.ahead,
      fun b hb => hbytes b (hd.sub b hb), fun n (hn : r' ≤ n) hacc => ?_,
      fun n hn (hn' : n < r') => ?_, ?_, hd.numSacks h.numSacks⟩
    · have hahead := hd.ahead b hb
      rcases mem_cons.mp (hd.sub b hb) with rfl | hbl
      · omega
      · obtain ⟨-, h2, h3⟩ := h.within b hbl
        exact ⟨Int.le_of_lt hahead, h2, show b.stop < r' + 2 ^ 31 by omega⟩
    · obtain ⟨b, hb, hbn⟩ : ∃ b ∈ a :: l, b.Has n := by
        rcases accepted_snoc.mp hacc with hacc | ⟨-, hnew⟩
        · obtain ⟨b, hb, hbn⟩ := h.kept n (by omega) hacc
          exact ⟨b, mem_cons_of_mem a hb, hbn⟩
        · exact ⟨a, mem_cons_self, hnew⟩
      rcases hd.gone b hb with hb | hstop
      · exact ⟨b, hb, hbn⟩
      · have := hbn.2
        omega
    · by_cases hnR : n < s.rcvPos
      · exact hold (h.run n hn hnR)
      · obtain ⟨b, hb, hbn⟩ := hd.covers n (by omega) hn'
        exact hbytes b hb n hbn
    · rw [hadded]
      exact h.delivers.append hdel
  | outOfOrder l' ha hstart hframe hqueue hins =>
    rw [hsame hframe.rcvNxt]
    refine ⟨l', hframe.rcvNxt.trans h.rcvNxt, hqueue, hins.increasing, fun b hb => ?_,
      fun b hb => ?_, fun b hb n hn => ?_, fun n hn hacc => ?_,
      fun n hn hn' => hold (h.run n hn hn'), by rw [hframe.receiveQueue]; exact h.delivers,
      hframe.numSacks⟩
    · rcases hins.sub b hb with rfl | hb
      · exact ha
      · exact h.within b hb
    · rcases hins.sub b hb with rfl | hb
      · exact hstart
      · exact h.ahead b hb
    · rcases hins.sub b hb with rfl | hb
      · exact accepted_snoc.mpr (.inr ⟨by simp, hn⟩)
      · exact hold (h.sound b hb n hn)
    · rcases accepted_snoc.mp hacc with hacc | ⟨-, hnew⟩
      · obtain ⟨b, hb, hbn⟩ := h.kept n hn hacc
        exact hins.covers b n (.inr hb) hbn
      · exact hins.covers a n (.inl rfl) hnew

/-- The words of a segment that arrives stand for its positions around `rcv_nxt`. -/
theorem Inv.receive (h : Inv r₀ evs s l) {skb : Skb}
    (hne : near s.rcvPos skb.seq < near s.rcvPos skb.endSeq) :
    ∃ tp' verdict, tcpDataQueue s.sock skb = some (tp', verdict) ∧
      Outcome s.rcvPos l ⟨near s.rcvPos skb.seq, near s.rcvPos skb.endSeq⟩ s.sock tp' verdict := by
  have hskb : Segment.skb ⟨near s.rcvPos skb.seq, near s.rcvPos skb.endSeq⟩ = skb := by
    simp [Segment.skb]
  have hspec := tcpDataQueue_spec (a := ⟨near s.rcvPos skb.seq, near s.rcvPos skb.endSeq⟩)
    h.rcvNxt h.queue h.increasing h.within h.numSacks (near_range _ _).1 hne (near_range _ _).2
  rwa [hskb] at hspec

theorem run_inv (hinit : Initial s) (hrun : RunWith NotEmpty step s evs s') :
    ∃ l, Inv s.rcvPos evs s' l := by
  refine hrun.invariant ⟨[], hinit.inv⟩ ?_
  rintro s1 s2 evs new call ⟨l, h⟩ hcall hstep
  cases call with
  | tcpDataQueue skb =>
    obtain ⟨tp', verdict, heq, hout⟩ := h.receive hcall
    simp only [step, heq] at hstep
    cases hstep
    exact hout.inv h
  | setWindow rcvWup rcvWnd =>
    cases hstep
    rw [append_nil]
    exact ⟨l, { h with }⟩

/-- What holds between the calls of `tcp_data_queue`. -/
structure Reassembled (r₀ : Int) (evs : List Arrival) (s : Connection) : Prop where
  rcvNxt : s.sock.rcvNxt = word s.rcvPos
  /-- the out-of-order queue is in order, by start and by end, and starts after `rcv_nxt` -/
  ordered : s.sock.outOfOrderQueue.Pairwise fun a b =>
    before a.seq b.seq = true ∧ before a.endSeq b.endSeq = true
  ahead : ∀ skb ∈ s.sock.outOfOrderQueue, after skb.seq s.sock.rcvNxt = true
  /-- `rcv_nxt` is the end of the longest run of accepted bytes -/
  le : r₀ ≤ s.rcvPos
  run : ∀ n, r₀ ≤ n → n < s.rcvPos → Accepted evs n
  longest : ¬ Accepted evs s.rcvPos
  /-- no accepted byte is lost -/
  kept : ∀ n, s.rcvPos < n → Accepted evs n → ∃ skb ∈ s.sock.outOfOrderQueue,
    near s.rcvPos skb.seq ≤ n ∧ n < near s.rcvPos skb.endSeq
  delivers : Delivers r₀ s.sock.receiveQueue s.rcvPos

/-- Every call for a segment returns, and what holds between the calls. -/
theorem reassembly_run (hinit : Initial s) (hrun : RunWith NotEmpty step s evs s') :
    Reassembled s.rcvPos evs s' ∧
      ∀ skb, NotEmpty s' (.tcpDataQueue skb) → (tcpDataQueue s'.sock skb).isSome = true := by
  obtain ⟨l, h⟩ := run_inv hinit hrun
  refine ⟨⟨h.rcvNxt, ?_, ?_, h.delivers.le, h.run, fun hacc => ?_, fun n hn hacc => ?_,
    h.delivers⟩, fun skb hne => ?_⟩
  · rw [h.queue, pairwise_map]
    refine h.increasing.imp_of_mem fun {a b} ha hb hab => ?_
    obtain ⟨ha1, ha2, ha3⟩ := h.within a ha
    obtain ⟨hb1, hb2, hb3⟩ := h.within b hb
    simp only [Segment.skb_seq, Segment.skb_endSeq]
    rw [before_word (by omega) (by omega), before_word (by omega) (by omega)]
    exact ⟨decide_eq_true hab.1, decide_eq_true hab.2⟩
  · intro skb hskb
    rw [h.queue] at hskb
    obtain ⟨b, hb, rfl⟩ := mem_map.mp hskb
    obtain ⟨hb1, hb2, hb3⟩ := h.within b hb
    rw [h.rcvNxt, Segment.skb_seq, after_word (by omega) (by omega)]
    exact decide_eq_true (h.ahead b hb)
  · obtain ⟨b, hb, hbn⟩ := h.kept s'.rcvPos (Int.le_refl _) hacc
    have h1 := h.ahead b hb
    have h2 := hbn.1
    omega
  · obtain ⟨b, hb, hbn⟩ := h.kept n (Int.le_of_lt hn) hacc
    obtain ⟨hb1, hb2, hb3⟩ := h.within b hb
    refine ⟨b.skb, by rw [h.queue]; exact mem_map_of_mem hb, ?_⟩
    rw [Segment.skb_seq, Segment.skb_endSeq, near_word (by omega) (by omega),
      near_word (by omega) (by omega)]
    exact hbn
  · obtain ⟨tp', verdict, heq, -⟩ := h.receive hne
    rw [heq]
    rfl

/-- A connection whose sequence numbers are about to wrap, with a window of 65535. -/
def atWrap : Connection where
  rcvPos := 0xffffff9c
  sock := {
    rcvNxt := 0xffffff9c
    rcvWup := 0xffffff9c
    rcvWnd := 65535
    outOfOrderQueue := []
    receiveQueue := []
    sacks := ⟨true, true, true, false, 0, 0, ⟨0, 0⟩, ⟨#[⟨0, 0⟩, ⟨0, 0⟩, ⟨0, 0⟩, ⟨0, 0⟩], rfl⟩, false⟩ }

/-- Two overlapping segments come out of order, in the wrong order, and the one that was
missing last. -/
theorem reassembly_run_atWrap :
    ∃ s', RunWith NotEmpty step atWrap
        [⟨0x100000064, 0x1000000c8, .outOfOrder⟩, ⟨0x100000000, 0x100000096, .outOfOrder⟩,
          ⟨0xffffff9c, 0x100000014, .queued⟩] s' ∧
      s'.rcvPos = 0x1000000c8 ∧ Delivers atWrap.rcvPos s'.sock.receiveQueue s'.rcvPos := by
  have hrun : RunWith NotEmpty step atWrap
      ([] ++ [⟨0x100000064, 0x1000000c8, .outOfOrder⟩] ++ [⟨0x100000000, 0x100000096, .outOfOrder⟩] ++
        [⟨0xffffff9c, 0x100000014, .queued⟩]) _ :=
    .tail (Call.tcpDataQueue ⟨0xffffff9c, 0x14⟩) (.tail (Call.tcpDataQueue ⟨0, 0x96⟩)
        (.tail (Call.tcpDataQueue ⟨0x64, 0xc8⟩) (.refl _) (by decide) rfl) (by decide) rfl)
      (by decide) rfl
  exact ⟨_, hrun, rfl, (reassembly_run ⟨rfl, rfl, rfl, rfl⟩ hrun).1.delivers⟩

end

end LinuxKernel.Net.Tcp
