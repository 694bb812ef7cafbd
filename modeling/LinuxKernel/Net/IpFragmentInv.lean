/-
  Reassembly is sound.

  The fragments of a queue are intervals in order (`Foundation/Intervals`) below
  `qp->len`, `meat` is the sum of their lengths, and every fragment is a piece of a
  packet that was delivered, at the offset the packet has for it.
-/
import LinuxKernel.Foundation.Intervals
import LinuxKernel.Net.IpFragment

namespace LinuxKernel.Net.IpFragment

open Foundation List SkBuff

/-- The offset behind a fragment. -/
def SkBuff.stop {B : Type} (f : SkBuff B) : Int := f.offset + f.len

section

variable {B : Type} {qp qp' : Ipq B} {p : Packet B} {f skb skb' : SkBuff B} {env : Env}
  {prevs next : List (SkBuff B)} {delivered : List (Packet B)} {lo hi stop offset : Int} {n : Nat}

/-- Fragments in order inside `[lo, hi)`. -/
abbrev InOrder (lo hi : Int) (fs : List (SkBuff B)) : Prop :=
  Ordered SkBuff.offset SkBuff.stop lo hi fs

abbrev sumLen (fs : List (SkBuff B)) : Int := total SkBuff.offset SkBuff.stop fs

theorem sumLen_cons (f : SkBuff B) (fs : List (SkBuff B)) :
    sumLen (f :: fs) = f.len + sumLen fs := by
  unfold sumLen
  rw [total_cons]
  show f.offset + f.len - f.offset + _ = _
  omega

theorem sumLen_append (fs gs : List (SkBuff B)) : sumLen (fs ++ gs) = sumLen fs + sumLen gs :=
  total_append

/-- The fragment is a piece of the packet, where the packet has it. -/
structure PieceOf (p : Packet B) (f : SkBuff B) : Prop where
  ihl : f.ihl = p.ihl
  bytes : f.pulled ++ f.data <+: p.bytes
  header : p.ihl ≤ f.pulled.length
  offset : f.offset + p.ihl = p.offset + f.pulled.length

def Delivered (delivered : List (Packet B)) (f : SkBuff B) : Prop := ∃ p ∈ delivered, PieceOf p f

structure Inv (delivered : List (Packet B)) (qp : Ipq B) : Prop where
  ordered : InOrder 0 qp.len qp.fragments
  meat : qp.meat = sumLen qp.fragments
  pieces : ∀ f ∈ qp.fragments, Delivered delivered f
  first : qp.lastIn.getLsbD 1 = true → 0 < qp.len

/-! ## Buffers -/

theorem pull_eq {mem : Bool} (h : skb.pull n mem = some skb') : n ≤ skb.data.length ∧
    skb' = { skb with pulled := skb.pulled ++ skb.data.take n, data := skb.data.drop n } := by
  unfold pull at h
  split at h
  · cases h
  split at h
  · exact ⟨by omega, by simpa using h.symm⟩
  · cases h

/-- A piece from which bytes were pulled is a piece further behind. -/
theorem PieceOf.pulled (h : PieceOf p f) (hn : n ≤ f.data.length) :
    PieceOf p ⟨f.ihl, f.offset + n, f.pulled ++ f.data.take n, f.data.drop n⟩ := by
  refine ⟨h.ihl, ?_, ?_, ?_⟩
  · rw [append_assoc, take_append_drop]
    exact h.bytes
  · rw [length_append]
    exact Nat.le_trans h.header (Nat.le_add_right _ _)
  · have := h.offset
    simp only [length_append, length_take]
    omega

/-! ## The stages of `ip_frag_queue` -/

theorem offset_nonneg (p : Packet B) : 0 ≤ p.offset := Int.natCast_nonneg _

theorem offset_mod (p : Packet B) : p.offset % 8 = 0 := by
  unfold Packet.offset
  omega

/-- The length of the datagram never shrinks, and covers the fragment. -/
theorem position_spec (h : position qp p = some (stop, qp')) :
    qp'.fragments = qp.fragments ∧ qp'.meat = qp.meat ∧ qp.len ≤ qp'.len ∧ stop ≤ qp'.len ∧
    stop ≤ p.offset + p.bytes.length - p.ihl ∧ (p.ihl ≤ p.bytes.length → p.offset ≤ stop) ∧
    qp'.lastIn.getLsbD 1 = qp.lastIn.getLsbD 1 := by
  have hmod := offset_mod p
  unfold position at h
  simp only at h
  split at h
  · split at h
    · cases h
    · obtain ⟨rfl, rfl⟩ : _ = stop ∧ _ = qp' := by simpa using h
      refine ⟨rfl, rfl, by dsimp only; omega, Int.le_refl _, Int.le_refl _, by omega, ?_⟩
      simp only [BitVec.getLsbD_or]
      rw [show LAST_IN.getLsbD 1 = false from rfl, Bool.or_false]
  · split at h
    · split at h
      · cases h
      · obtain ⟨rfl, rfl⟩ : _ = stop ∧ _ = qp' := by simpa using h
        exact ⟨rfl, rfl, by dsimp only; omega, Int.le_refl _, by omega, by omega, rfl⟩
    · obtain ⟨rfl, rfl⟩ : _ = stop ∧ qp = qp' := by simpa using h
      exact ⟨rfl, rfl, Int.le_refl _, by omega, by omega, by omega, rfl⟩

/-- What is left of the packet without its header and what is behind its end. -/
theorem strip_spec (hstop : stop ≤ p.offset + p.bytes.length - p.ihl)
    (hle : p.ihl ≤ p.bytes.length → p.offset ≤ stop) (h : strip p stop env = some skb) :
    p.offset ≤ stop ∧ skb.len = stop - p.offset ∧ PieceOf p { skb with offset := p.offset } := by
  unfold strip at h
  split at h
  · cases h
  next skb0 hpull =>
  obtain ⟨hihl, rfl⟩ := pull_eq hpull
  have hoff := hle hihl
  -- the bytes of the packet behind the header, cut at `k`
  obtain ⟨k, hk, hk', hskb⟩ : ∃ k : Nat, (k : Int) = stop - p.offset ∧ k ≤ p.bytes.length - p.ihl ∧
      skb = ⟨p.ihl, 0, p.bytes.take p.ihl, (p.bytes.drop p.ihl).take k⟩ := by
    refine ⟨(stop - p.offset).toNat, by omega, by omega, ?_⟩
    unfold trim at h
    split at h
    · next hge =>
      obtain rfl := Option.some.inj h
      have htake : (p.bytes.drop p.ihl).take (stop - p.offset).toNat = p.bytes.drop p.ihl :=
        take_of_length_le hge
      rw [htake]
      rfl
    split at h
    · obtain rfl := Option.some.inj h
      rfl
    · cases h
  subst hskb
  have hlen : ((p.bytes.drop p.ihl).take k).length = k := by
    rw [length_take, length_drop]
    omega
  refine ⟨hoff, ?_, rfl, ?_, ?_, ?_⟩
  · show (((p.bytes.drop p.ihl).take k).length : Int) = _
    rw [hlen, hk]
  · refine ⟨(p.bytes.drop p.ihl).drop k, ?_⟩
    rw [append_assoc, take_append_drop, take_append_drop]
  · rw [length_take]
    omega
  · show p.offset + p.ihl = p.offset + (p.bytes.take p.ihl).length
    rw [length_take]
    omega

theorem findPlace_spec (offset : Int) {fs prevs next : List (SkBuff B)}
    (h : findPlace offset fs = (prevs, next)) : fs = prevs ++ next := by
  induction fs generalizing prevs next with
  | nil =>
    obtain ⟨rfl, rfl⟩ : [] = prevs ∧ [] = next := by simpa [findPlace] using h
    rfl
  | cons f fs ih =>
    unfold findPlace at h
    split at h
    · obtain ⟨rfl, rfl⟩ : [] = prevs ∧ f :: fs = next := by simpa using h
      rfl
    cases hrest : findPlace offset fs with
    | mk prevs' next' =>
      rw [hrest] at h
      obtain ⟨rfl, rfl⟩ : f :: prevs' = prevs ∧ next' = next := by simpa using h
      rw [ih hrest]
      rfl

/-- The fragment begins behind those in front of it. -/
theorem cutFront_spec (hoffset : 0 ≤ p.offset) (hlt : p.offset < stop)
    (hlen : skb.len = stop - p.offset) (hpiece : PieceOf p { skb with offset := p.offset })
    (h : cutFront prevs.getLast? p.offset stop skb env = some (offset, skb')) :
    stopOf SkBuff.stop 0 prevs ≤ offset ∧ offset < stop ∧ skb'.len = stop - offset ∧
      PieceOf p { skb' with offset := offset } := by
  rw [stopOf_eq_getLast]
  cases hprev : prevs.getLast? with
  | none =>
    rw [hprev] at h
    obtain ⟨rfl, rfl⟩ : p.offset = offset ∧ skb = skb' := by simpa [cutFront] using h
    exact ⟨hoffset, hlt, hlen, hpiece⟩
  | some prev =>
    rw [hprev] at h
    simp only [cutFront] at h
    show prev.stop ≤ offset ∧ _
    have hstop : prev.stop = prev.offset + prev.len := rfl
    split at h
    · split at h
      · cases h
      split at h
      · cases h
      next cut hpull =>
      cases h
      obtain ⟨hn, rfl⟩ := pull_eq hpull
      have hcast : ((prev.offset + prev.len - p.offset).toNat : Int) =
          prev.offset + prev.len - p.offset := by omega
      refine ⟨by omega, by omega, ?_, ?_⟩
      · have hold : (skb.data.length : Int) = stop - p.offset := hlen
        show ((skb.data.drop _).length : Int) = _
        rw [length_drop]
        omega
      · have hcut := hpiece.pulled hn
        rw [hcast] at hcut
        exact hcut
    · obtain ⟨rfl, rfl⟩ : p.offset = offset ∧ skb = skb' := by simpa using h
      exact ⟨by omega, hlt, hlen, hpiece⟩

/-- The fragments behind are cut or dropped until they begin behind `stop`. -/
theorem eatNext_spec (hstop : stop ≤ hi) {next next' : List (SkBuff B)} {lo meat meat' : Int}
    {ok : Bool} (hord : InOrder lo hi next) (hpieces : ∀ f ∈ next, Delivered delivered f)
    (h : eatNext stop env meat next = (meat', next', ok)) :
    InOrder (if ok then stop else lo) hi next' ∧ meat' - sumLen next' = meat - sumLen next ∧
      ∀ f ∈ next', Delivered delivered f := by
  induction next generalizing next' lo meat meat' ok with
  | nil =>
    obtain ⟨rfl, rfl, rfl⟩ : meat = meat' ∧ [] = next' ∧ true = ok := by simpa [eatNext] using h
    exact ⟨hstop, rfl, hpieces⟩
  | cons f rest ih =>
    obtain ⟨hlo, hne, hrest⟩ := hord
    obtain ⟨hpf, hprest⟩ := forall_mem_cons.mp hpieces
    have hfstop : f.stop = f.offset + f.len := rfl
    unfold eatNext at h
    split at h
    · dsimp only at h
      split at h
      · split at h
        · obtain ⟨rfl, rfl, rfl⟩ : meat = meat' ∧ f :: rest = next' ∧ false = ok := by simpa using h
          exact ⟨⟨hlo, hne, hrest⟩, rfl, hpieces⟩
        next cut hpull =>
        obtain ⟨rfl, hrest', rfl⟩ : _ ∧ _ = next' ∧ true = ok := by
          have hinj := Prod.mk.inj h
          exact ⟨hinj.1, Prod.mk.inj hinj.2⟩
        subst hrest'
        obtain ⟨hn, rfl⟩ := pull_eq hpull
        have hcast : ((stop - f.offset).toNat : Int) = stop - f.offset := by omega
        have hflen : f.len = f.data.length := rfl
        have hnewlen : ((f.data.drop (stop - f.offset).toNat).length : Int) =
            f.len - (stop - f.offset) := by
          rw [length_drop]
          omega
        refine ⟨⟨?_, ?_, ?_⟩, ?_, ?_⟩
        · show stop ≤ f.offset + (stop - f.offset)
          omega
        · show f.offset + (stop - f.offset) < f.offset + (stop - f.offset) +
            ((f.data.drop (stop - f.offset).toNat).length : Int)
          omega
        · refine hrest.mono_left ?_
          show f.offset + (stop - f.offset) +
            ((f.data.drop (stop - f.offset).toNat).length : Int) ≤ f.stop
          omega
        · rw [sumLen_cons, sumLen_cons]
          show meat - (stop - f.offset) -
            (((f.data.drop (stop - f.offset).toNat).length : Int) + _) = _
          omega
        · obtain ⟨p, hp, hpiece⟩ := hpf
          have hcut := hpiece.pulled hn
          rw [hcast] at hcut
          exact forall_mem_cons.mpr ⟨⟨p, hp, hcut⟩, hprest⟩
      · obtain ⟨hord', hsum, hpieces'⟩ := ih (hrest.mono_left (by omega : lo ≤ f.stop)) hprest h
        refine ⟨hord', ?_, hpieces'⟩
        rw [sumLen_cons]
        omega
    · obtain ⟨rfl, rfl, rfl⟩ : meat = meat' ∧ f :: rest = next' ∧ true = ok := by simpa using h
      exact ⟨⟨by omega, hne, hrest⟩, rfl, hpieces⟩

/-! ## One fragment -/

theorem insertFrag_inv (hinv : Inv delivered qp) (hp : p ∈ delivered) (hlt : p.offset < stop)
    (hstop : stop ≤ qp.len) (hlen : skb.len = stop - p.offset)
    (hpiece : PieceOf p { skb with offset := p.offset }) :
    Inv delivered (insertFrag qp p stop skb env) := by
  unfold insertFrag
  cases hplace : findPlace p.offset qp.fragments with
  | mk prevs next =>
    have hfrags := findPlace_spec p.offset hplace
    obtain ⟨hord, hmeat, hpieces, hfirst⟩ := hinv
    rw [hfrags] at hord hmeat hpieces
    obtain ⟨hprevs, hnext⟩ := (ordered_append prevs next 0).mp hord
    obtain ⟨hpprevs, hpnext⟩ := forall_mem_append.mp hpieces
    simp only
    split
    · exact ⟨by rw [hfrags]; exact hord, by rw [hfrags, hmeat], by rw [hfrags]; exact hpieces,
        hfirst⟩
    next offset cut hcut =>
    obtain ⟨hbehind, hlt', hlen', hpiece'⟩ := cutFront_spec (offset_nonneg p) hlt hlen hpiece hcut
    have heat : ∀ {meat' next' ok}, eatNext stop env qp.meat next = (meat', next', ok) → _ :=
      fun h => eatNext_spec hstop hnext hpnext h
    rw [sumLen_append] at hmeat
    split
    · -- `pskb_pull` failed: what was dropped stays dropped
      next meat' next' heq =>
      obtain ⟨hord', hsum, hpieces'⟩ := heat heq
      refine ⟨(ordered_append prevs next' 0).mpr ⟨hprevs, hord'⟩, ?_, ?_, hfirst⟩
      · show meat' = sumLen (prevs ++ next')
        rw [sumLen_append]
        omega
      · exact forall_mem_append.mpr ⟨hpprevs, hpieces'⟩
    · next meat' next' heq =>
      obtain ⟨hord', hsum, hpieces'⟩ := heat heq
      have hnewstop : SkBuff.stop { cut with offset := offset } = stop := by
        show offset + cut.len = stop
        omega
      refine ⟨?_, ?_, ?_, ?_⟩
      · refine (ordered_append prevs _ 0).mpr ⟨hprevs, hbehind, ?_, ?_⟩
        · rw [hnewstop]
          exact hlt'
        · rw [hnewstop]
          exact hord'
      · show meat' + cut.len = sumLen (prevs ++ { cut with offset := offset } :: next')
        rw [sumLen_append, sumLen_cons]
        show _ = _ + (cut.len + _)
        omega
      · exact forall_mem_append.mpr ⟨hpprevs, forall_mem_cons.mpr ⟨⟨p, hp, hpiece'⟩, hpieces'⟩⟩
      · intro _
        have := offset_nonneg p
        show 0 < qp.len
        omega

theorem Inv.mono (h : Inv delivered qp) {more : List (Packet B)} (hsub : delivered ⊆ more) :
    Inv more qp :=
  ⟨h.ordered, h.meat, fun f hf => by
    obtain ⟨p, hp, hpiece⟩ := h.pieces f hf
    exact ⟨p, hsub hp, hpiece⟩, h.first⟩

theorem Inv.reset (delivered : List (Packet B)) : Inv delivered ⟨0, [], 0, 0⟩ :=
  ⟨Int.le_refl 0, rfl, by simp, fun h => by simp at h⟩

theorem ipqKill_inv (h : Inv delivered qp) : Inv delivered (ipqKill qp) := by
  refine ⟨h.ordered, h.meat, h.pieces, ?_⟩
  intro hbit
  refine h.first ?_
  simp only [ipqKill, BitVec.getLsbD_or] at hbit
  rwa [show COMPLETE.getLsbD 1 = false from rfl, Bool.or_false] at hbit

theorem ipFragQueue_inv (h : Inv delivered qp) (hp : p ∈ delivered) :
    Inv delivered (ipFragQueue qp p env) := by
  unfold ipFragQueue
  split
  · exact h
  split
  · exact ipqKill_inv h
  have hqp : Inv delivered (if env.tooFar ∧ qp.fragments ≠ [] then ipFragReinit qp else qp) := by
    split
    · exact Inv.reset delivered
    · exact h
  simp only
  split
  · exact hqp
  next stop qp1 hpos =>
  obtain ⟨hfrags, hmeat, hlen, hstop, hbytes, hle, hbit⟩ := position_spec hpos
  have hqp1 : Inv delivered qp1 :=
    ⟨by rw [hfrags]; exact hqp.ordered.mono_right hlen, by rw [hmeat, hfrags, hqp.meat],
      by rw [hfrags]; exact hqp.pieces, fun hb => by
        have := hqp.first (hbit ▸ hb)
        omega⟩
  split
  · exact hqp1
  split
  · exact hqp1
  next skb hstrip =>
  obtain ⟨hoff, hlen', hpiece⟩ := strip_spec hbytes hle hstrip
  exact insertFrag_inv hqp1 hp (by omega) hstop hlen' hpiece

/-! ## The datagram -/

/-- The packet has the byte `b` at position `i` of the datagram. -/
def Packet.Carries (p : Packet B) (i : Nat) (b : B) : Prop :=
  ∃ j : Nat, p.offset + j = i ∧ p.bytes[p.ihl + j]? = some b

theorem PieceOf.carries (h : PieceOf p f) {i j : Nat} (hi : f.offset + j = i)
    (hj : j < f.data.length) : p.Carries i (f.data.get ⟨j, hj⟩) := by
  have hoff := h.offset
  have hheader := h.header
  refine ⟨f.pulled.length - p.ihl + j, by omega, ?_⟩
  obtain ⟨rest, hrest⟩ := h.bytes
  have hidx : p.ihl + (f.pulled.length - p.ihl + j) = f.pulled.length + j := by omega
  rw [hidx, ← hrest, append_assoc, getElem?_append_right (by omega),
    Nat.add_sub_cancel_left, getElem?_append_left hj]
  exact getElem?_eq_getElem hj

/-- The bytes of fragments without gaps, by their position. -/
theorem flatMap_data_get {fs : List (SkBuff B)} {lo hi : Int}
    (h : Tiles SkBuff.offset SkBuff.stop lo hi fs) {k : Nat} (hk : lo + k < hi) :
    ∃ f ∈ fs, ∃ j, ∃ hj : j < f.data.length, f.offset + j = lo + k ∧
      (fs.flatMap SkBuff.data)[k]? = some (f.data.get ⟨j, hj⟩) := by
  induction fs generalizing lo hi k with
  | nil =>
    have heq : lo = hi := h
    omega
  | cons f fs ih =>
    obtain ⟨h1, h2, h3⟩ := h
    have hstop : f.stop = f.offset + f.data.length := rfl
    rw [flatMap_cons]
    by_cases hin : k < f.data.length
    · exact ⟨f, mem_cons_self, k, hin, by rw [h1], by
        rw [getElem?_append_left hin]
        exact getElem?_eq_getElem hin⟩
    · obtain ⟨g, hg, j, hj, hoff, hget⟩ := ih h3 (k := k - f.data.length) (by omega)
      refine ⟨g, mem_cons_of_mem f hg, j, hj, by omega, ?_⟩
      rw [getElem?_append_right (by omega), hget]

theorem flatMap_data_length {fs : List (SkBuff B)} {lo hi : Int}
    (h : Tiles SkBuff.offset SkBuff.stop lo hi fs) : lo + (fs.flatMap SkBuff.data).length = hi := by
  induction fs generalizing lo hi with
  | nil =>
    have heq : lo = hi := h
    simpa using heq
  | cons f fs ih =>
    obtain ⟨h1, h2, h3⟩ := h
    have hstop : f.stop = f.offset + f.data.length := rfl
    have := ih h3
    rw [flatMap_cons, length_append]
    omega

/-- A datagram with `len` bytes behind its header, each of which some packet had at
that position. -/
structure Sound (delivered : List (Packet B)) (len : Int) (d : Datagram B) : Prop where
  totLen : d.totLen = d.ihlen + len
  length : (d.bytes.length : Int) = d.ihlen + len
  bytes : ∀ i : Nat, (i : Int) < len → ∃ b, d.bytes[d.ihlen + i]? = some b ∧
    ∃ p ∈ delivered, p.Carries i b

theorem ipFragReasm_eq {d : Datagram B} (hd : (ipFragReasm qp env).2 = some d) :
    ∃ head rest, qp.fragments = head :: rest ∧
      d = ⟨head.ihl, head.ihl + qp.len,
        head.pulled ++ head.data ++ rest.flatMap SkBuff.data⟩ := by
  have hfragments : (ipqKill qp).fragments = qp.fragments := rfl
  have hlen : (ipqKill qp).len = qp.len := rfl
  unfold ipFragReasm at hd
  simp only at hd
  split at hd
  · cases hd
  next head rest heq =>
  split at hd
  · cases hd
  split at hd
  · exact ⟨head, rest, by rw [← hfragments, heq], by rw [← hlen]; exact (Option.some.inj hd).symm⟩
  · cases hd

theorem ipFragReasm_sound (h : Inv delivered qp)
    (htiles : Tiles SkBuff.offset SkBuff.stop 0 qp.len qp.fragments) {d : Datagram B}
    (hd : (ipFragReasm qp env).2 = some d) : Sound delivered qp.len d := by
  obtain ⟨head, rest, hfrags, rfl⟩ := ipFragReasm_eq hd
  rw [hfrags] at htiles
  -- the head begins at 0, so nothing but its header was pulled off
  obtain ⟨p, -, hpiece⟩ := h.pieces head (by rw [hfrags]; exact mem_cons_self)
  have hzero : head.offset = 0 := htiles.1
  have hpulled : head.pulled.length = head.ihl := by
    have h1 := hpiece.offset
    have h2 := hpiece.header
    have h3 := offset_nonneg p
    have h4 := hpiece.ihl
    omega
  have hbytes : head.pulled ++ head.data ++ rest.flatMap SkBuff.data =
      head.pulled ++ (head :: rest).flatMap SkBuff.data := by
    rw [append_assoc, flatMap_cons]
  refine ⟨rfl, ?_, ?_⟩
  · show ((head.pulled ++ head.data ++ rest.flatMap SkBuff.data).length : Int) = head.ihl + qp.len
    have := flatMap_data_length htiles
    rw [hbytes, length_append]
    omega
  · intro i hi
    show ∃ b, (head.pulled ++ head.data ++ rest.flatMap SkBuff.data)[head.ihl + i]? = some b ∧ _
    obtain ⟨f, hf, j, hj, hoff, hget⟩ := flatMap_data_get htiles (k := i) (by omega)
    obtain ⟨p, hp, hpiece⟩ := h.pieces f (by rw [hfrags]; exact hf)
    refine ⟨_, ?_, p, hp, hpiece.carries (by omega) hj⟩
    rw [hbytes, ← hpulled, getElem?_append_right (by omega), Nat.add_sub_cancel_left, hget]

/-! ## Whole runs -/

theorem run_inv {evs : List (Packet B)} (hrun : Run step newQueue evs qp) : Inv evs qp := by
  refine hrun.invariant (Inv.reset []) ?_
  intro q q' evs new call hinv hstep
  cases call with
  | queue p env =>
    obtain ⟨rfl, rfl⟩ : _ = q' ∧ [p] = new := by simpa [step] using hstep
    exact ipFragQueue_inv (hinv.mono (subset_append_left evs [p])) (by simp)
  | kill =>
    obtain ⟨rfl, rfl⟩ : _ = q' ∧ [] = new := by simpa [step] using hstep
    rw [append_nil]
    exact ipqKill_inv hinv

/-- Complete fragments leave no gap. -/
theorem Inv.tiles (h : Inv delivered qp) (hmeat : qp.meat = qp.len) :
    Tiles SkBuff.offset SkBuff.stop 0 qp.len qp.fragments := by
  refine h.ordered.tiles ?_
  have hsum : qp.meat = total SkBuff.offset SkBuff.stop qp.fragments := h.meat
  omega

/-- In every state of a queue, whatever was delivered to it: the fragments are in order,
disjoint, not empty and end at or below `len`, and `meat` is the sum of their lengths;
when the first and the last fragment are there and `meat` is `len`, they cover
`[0, len)`, and a datagram that is built from them has the length `len` and only
bytes that some packet had at that position.  So has every datagram that `ip_defrag`
returns. -/
theorem ip_frag_run_sound {evs : List (Packet B)} (hrun : Run step newQueue evs qp) :
    (qp.fragments.Pairwise fun f g => f.offset + f.len ≤ g.offset) ∧
    (∀ f ∈ qp.fragments, 0 ≤ f.offset ∧ 0 < f.len ∧ f.offset + f.len ≤ qp.len) ∧
    qp.meat = (qp.fragments.map SkBuff.len).sum ∧
    (qp.lastIn = FIRST_IN ||| LAST_IN → qp.meat = qp.len → qp.fragments ≠ [] ∧
      Tiles SkBuff.offset SkBuff.stop 0 qp.len qp.fragments ∧
      ∀ env d, (ipFragReasm qp env).2 = some d → Sound evs qp.len d) ∧
    ∀ p env d, (ipDefrag qp p env).2 = some d →
      Sound (evs ++ [p]) (ipFragQueue qp p env).len d := by
  have hinv := run_inv hrun
  refine ⟨hinv.ordered.pairwise, ?_, ?_, ?_, ?_⟩
  · intro f hf
    obtain ⟨h1, h2, h3⟩ := hinv.ordered.bounds f hf
    have hstop : f.stop = f.offset + f.len := rfl
    exact ⟨h1, by omega, by omega⟩
  · have hlen : (fun f : SkBuff B => f.stop - f.offset) = SkBuff.len := by
      funext f
      show f.offset + f.len - f.offset = f.len
      omega
    rw [hinv.meat, sumLen, total, hlen]
  · intro hlast hmeat
    have htiles := hinv.tiles hmeat
    refine ⟨?_, htiles, fun env d hd => ipFragReasm_sound hinv htiles hd⟩
    intro hnil
    rw [hnil] at htiles
    have hzero : 0 = qp.len := htiles
    have hpos := hinv.first (by rw [hlast]; rfl)
    omega
  · intro p env d hd
    have hinv' : Inv (evs ++ [p]) (ipFragQueue qp p env) :=
      ipFragQueue_inv (hinv.mono (subset_append_left evs [p])) (by simp)
    unfold ipDefrag at hd
    simp only at hd
    split at hd
    · next hcomplete => exact ipFragReasm_sound hinv' (hinv'.tiles hcomplete.2) hd
    · cases hd

end

/-- Memory is there, and the queue is not too old. -/
def ampleEnv : Env := ⟨false, false, true, true, true, true, true⟩

/-- The last 8 bytes of a datagram of 16, behind a header of one word. -/
def lastHalf : Packet Nat := ⟨4, 1, List.range' 0 12, by simp⟩

/-- Its first 12 bytes, of which 8 count. -/
def firstHalf : Packet Nat := ⟨4, IP_MF, List.range' 20 16, by simp⟩

/-- Two fragments come in the wrong order; together they are complete. -/
theorem ip_frag_run_sound_twoHalves : ∃ qp, Run step newQueue [lastHalf, firstHalf] qp ∧
    qp.lastIn = FIRST_IN ||| LAST_IN ∧ qp.meat = qp.len ∧ qp.len = 16 ∧
    Tiles SkBuff.offset SkBuff.stop 0 qp.len qp.fragments := by
  have hrun : Run step newQueue [lastHalf, firstHalf]
      (ipFragQueue (ipFragQueue newQueue lastHalf ampleEnv) firstHalf ampleEnv) :=
    Run.of_calls [.queue lastHalf ampleEnv, .queue firstHalf ampleEnv] rfl
  refine ⟨_, hrun, by decide, by decide, by decide, ?_⟩
  exact ((ip_frag_run_sound hrun).2.2.2.1 (by decide) (by decide)).2.1

/-! ## Rejected fragments -/

section

variable {B : Type} {qp : Ipq B} {p : Packet B} {env : Env}

/-- `insertFrag` goes to `err`. -/
def insertFragErr (qp : Ipq B) (p : Packet B) (stop : Int) (skb : SkBuff B) (env : Env) : Bool :=
  let (prevs, next) := findPlace p.offset qp.fragments
  match cutFront prevs.getLast? p.offset stop skb env with
  | none => true
  | some _ => !(eatNext stop env qp.meat next).2.2

/-- `ip_frag_queue` goes to `err`. -/
def ipFragQueueErr (qp : Ipq B) (p : Packet B) (env : Env) : Bool :=
  if qp.lastIn &&& COMPLETE ≠ 0 then true
  else if env.tooFar ∧ qp.fragments ≠ [] ∧ env.expired then true
  else
    let qp := if env.tooFar ∧ qp.fragments ≠ [] then ipFragReinit qp else qp
    match position qp p with
    | none => true
    | some (stop, qp) =>
      if stop = p.offset then true
      else
        match strip p stop env with
        | none => true
        | some skb => insertFragErr qp p stop skb env

/-- The queue is not too old, the fragment tells nothing new about the length, and it does
not cover the whole of the first fragment that begins behind its own beginning. -/
structure Quiet (qp : Ipq B) (p : Packet B) (env : Env) : Prop where
  age : ¬ (env.tooFar ∧ qp.fragments ≠ [])
  known : ∀ stop qp', position qp p = some (stop, qp') → qp' = qp
  partly : ∀ stop qp', position qp p = some (stop, qp') →
    ∀ f ∈ (findPlace p.offset qp.fragments).2.head?, f.offset < stop → stop < f.offset + f.len

theorem eatNext_of_fails {stop meat : Int} {next : List (SkBuff B)}
    (hpart : ∀ f ∈ next.head?, f.offset < stop → stop < f.offset + f.len)
    (hfail : (eatNext stop env meat next).2.2 = false) :
    eatNext stop env meat next = (meat, next, false) := by
  cases next with
  | nil => cases hfail
  | cons f rest =>
    have := hpart f rfl
    unfold eatNext at hfail ⊢
    split at hfail <;> rename_i hlt
    · rw [if_pos hlt, if_pos (by omega)]
      rw [if_pos (by omega)] at hfail
      split at hfail
      · rfl
      · cases hfail
    · cases hfail

end

/-- A last fragment without data. -/
def emptyLast : Packet Nat := ⟨4, 1, List.range' 0 4, by simp⟩

end LinuxKernel.Net.IpFragment
