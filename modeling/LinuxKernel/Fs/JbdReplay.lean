/-
  Recovery restores the last version that is not revoked.

  The scan finds the end of the log, the second pass leaves in the revoke table the last
  transaction that revokes each block, and the third one writes what was logged later.  A
  block that begins with the magic number of the journal is not restored.
-/
import LinuxKernel.Fs.JbdLog

namespace LinuxKernel.Fs.Jbd

open BitVec Foundation Function List Option Transaction

/-! ## Transaction ids -/

variable {j : Journal} {st : State} {id r : Word} {b : Word} {i n : Nat} {k : Nat}
  {txs : List Transaction} {rest : List Chunk}

section

variable (h1 : i < n + 2 ^ 31) (h2 : n ≤ i + 2 ^ 31)
include h1 h2

/-- Ids are compared by their distance. -/
theorem toInt_tid_sub : (tid id i - tid id n).toInt = (i : Int) - n := by
  have hsub : tid id i - tid id n = BitVec.ofInt 32 ((i : Int) - n) := by
    apply eq_of_toNat_eq
    simp only [tid, toNat_sub, toNat_add, toNat_ofNat, toNat_ofInt]
    omega
  rw [hsub, toInt_ofInt, Int.bmod_eq_of_le (by omega) (by omega)]

theorem tidGt_tid : tidGt (tid id i) (tid id n) = decide (n < i) := by
  rw [tidGt, toInt_tid_sub h1 h2, decide_eq_decide]
  omega

theorem tidGeq_tid : tidGeq (tid id i) (tid id n) = decide (n ≤ i) := by
  rw [tidGeq, toInt_tid_sub h1 h2, decide_eq_decide]
  omega

end

/-! ## The revoke table -/

/-- The id that the table has for a block. -/
def revokedBy (j : Journal) (table : Nat → List RevokeRecord) (blocknr : Word) : Option Word :=
  (findRevokeRecord j table blocknr).map (·.sequence)

theorem find?_setSequence (b s b' : Word) (records : List RevokeRecord) :
    (setSequence b s records).find? (fun record => record.blocknr == b') =
      if b' = b then (records.find? fun record => record.blocknr == b).map
        fun record => { record with sequence := s }
      else records.find? fun record => record.blocknr == b' := by
  induction records with
  | nil => simp [setSequence]
  | cons record records ih =>
    unfold setSequence
    by_cases hrec : record.blocknr = b
    · rw [if_pos (by simpa using hrec)]
      by_cases hb : b' = b
      · rw [if_pos hb, find?_cons_of_pos (by simp [hrec, hb]),
          find?_cons_of_pos (by simpa using hrec)]
        rfl
      · have hne : record.blocknr ≠ b' := fun h => hb (h.symm.trans hrec)
        rw [if_neg hb, find?_cons_of_neg (by simpa using hne),
          find?_cons_of_neg (by simpa using hne)]
    · rw [if_neg (by simpa using hrec)]
      by_cases hb : b' = b
      · subst hb
        rw [find?_cons_of_neg (by simpa using hrec), find?_cons_of_neg (by simpa using hrec), ih]
      rw [if_neg hb] at ih ⊢
      by_cases hrec' : record.blocknr = b'
      · rw [find?_cons_of_pos (by simpa using hrec'), find?_cons_of_pos (by simpa using hrec')]
      · rw [find?_cons_of_neg (by simpa using hrec'), find?_cons_of_neg (by simpa using hrec'), ih]

/-- `journal_set_revoke`, for an id that is not older than those in the table. -/
theorem revokedBy_set {table : Nat → List RevokeRecord} {b' : Word}
    (h : ∀ r, revokedBy j table b = some r → r = id ∨ tidGt id r = true) :
    revokedBy j (journalSetRevoke j table b id) b' =
      if b' = b then some id else revokedBy j table b' := by
  unfold journalSetRevoke
  cases hfind : findRevokeRecord j table b with
  | none =>
    simp only [insertRevokeHash, revokedBy, findRevokeRecord]
    by_cases hhash : j.hash b' = j.hash b
    · rw [hhash, update_self]
      by_cases hb : b' = b
      · rw [if_pos hb, find?_cons_of_pos (by simp [hb])]
        rfl
      · rw [if_neg hb, find?_cons_of_neg (by simpa using Ne.symm hb)]
    · have hb : b' ≠ b := fun heq => hhash (by rw [heq])
      rw [update_of_ne hhash, if_neg hb]
  | some record =>
    have hseq : revokedBy j table b = some record.sequence := by rw [revokedBy, hfind]; rfl
    simp only
    by_cases hgt : tidGt id record.sequence = true
    · rw [if_pos hgt]
      simp only [revokedBy, findRevokeRecord]
      by_cases hhash : j.hash b' = j.hash b
      · rw [hhash, update_self, find?_setSequence]
        by_cases hb : b' = b
        · rw [findRevokeRecord] at hfind
          rw [if_pos hb, if_pos hb, hfind]
          rfl
        · rw [if_neg hb, if_neg hb]
      · have hb : b' ≠ b := fun heq => hhash (by rw [heq])
        rw [update_of_ne hhash, if_neg hb]
    · rw [if_neg hgt]
      have heq : record.sequence = id := by
        rcases h _ hseq with heq | hgt'
        · exact heq
        · exact absurd hgt' hgt
      by_cases hb : b' = b
      · rw [if_pos hb, hb, hseq, heq]
      · rw [if_neg hb]

theorem revokedBy_blocks {blocks : List Word} {st : State}
    (h : ∀ b r, revokedBy j st.j_revoke b = some r → r = id ∨ tidGt id r = true) (b) :
    revokedBy j (blocks.foldl (revokeBlock j id) st).j_revoke b =
      if b ∈ blocks then some id else revokedBy j st.j_revoke b := by
  induction blocks generalizing st b with
  | nil => simp
  | cons blocknr blocks ih =>
    have hset : ∀ b', revokedBy j (revokeBlock j id st blocknr).j_revoke b' =
        if b' = blocknr then some id else revokedBy j st.j_revoke b' :=
      fun b' => revokedBy_set (h blocknr)
    rw [foldl_cons, ih, hset]
    · by_cases hb : b = blocknr <;> by_cases hb' : b ∈ blocks <;> simp [hb]
    · intro b' r hr
      rw [hset] at hr
      split at hr
      · left
        exact (some.inj hr).symm
      · exact h b' r hr

/-! ## What transactions do -/

/-- The blocks that a chunk logs. -/
def Chunk.tags : Chunk → List Tag
  | .descriptor tags => tags
  | .revoke _ => []

def Chunk.revokes : Chunk → List Word
  | .descriptor _ => []
  | .revoke blocks => blocks

/-- The blocks that a transaction logs, in order. -/
def Transaction.tags (t : Transaction) : List Tag := t.flatMap Chunk.tags

/-- The blocks that a transaction revokes. -/
def Transaction.revokes (t : Transaction) : List Word := t.flatMap Chunk.revokes

section

variable (t : Transaction) (st : State)

theorem chunks_scan : t.foldl (chunkEffect j .PASS_SCAN id) st = st := by
  induction t generalizing st with
  | nil => rfl
  | cons chunk t ih =>
    rw [foldl_cons, ih]
    cases chunk <;> rfl

theorem chunks_revoke :
    t.foldl (chunkEffect j .PASS_REVOKE id) st = t.revokes.foldl (revokeBlock j id) st := by
  rw [revokes, foldl_flatMap]
  congr
  funext st chunk
  cases chunk <;> rfl

theorem chunks_replay :
    t.foldl (chunkEffect j .PASS_REPLAY id) st = t.tags.foldl (replayTag j id) st := by
  rw [tags, foldl_flatMap]
  congr
  funext st chunk
  cases chunk <;> rfl

end

theorem txs_scan {id : Word} {st : State} : txsEffect j .PASS_SCAN id st txs = st := by
  induction txs generalizing id st with
  | nil => rfl
  | cons t txs ih => rw [txsEffect, chunks_scan, ih]

/-- The second pass: the table has the last transaction that revokes the block. -/
theorem txs_revoke (b : Word) (txs : List Transaction) (id : Word) (st : State)
    (hold : ∀ b r, revokedBy j st.j_revoke b = some r → ∃ d, 0 < d ∧ d + txs.length ≤ 2 ^ 31 ∧
      id = tid r d)
    (hlength : txs.length ≤ 2 ^ 31) :
    (∃ n t, txs[n]? = some t ∧ b ∈ t.revokes ∧ (∀ m u, n < m → txs[m]? = some u → b ∉ u.revokes) ∧
      revokedBy j (txsEffect j .PASS_REVOKE id st txs).j_revoke b = some (tid id n)) ∨
      (∀ (m : Nat) (u : Transaction), txs[m]? = some u → b ∉ u.revokes) ∧
      revokedBy j (txsEffect j .PASS_REVOKE id st txs).j_revoke b = revokedBy j st.j_revoke b := by
  induction txs generalizing id st with
  | nil => exact .inr ⟨by simp, rfl⟩
  | cons t txs ih =>
    rw [length_cons] at hlength
    have hblocks : ∀ b, revokedBy j (t.foldl (chunkEffect j .PASS_REVOKE id) st).j_revoke b =
        if b ∈ t.revokes then some id else revokedBy j st.j_revoke b := by
      rw [chunks_revoke]
      refine revokedBy_blocks fun b r hr => .inr ?_
      obtain ⟨d, hpos, hd, rfl⟩ := hold b r hr
      rw [length_cons] at hd
      have hgt : tidGt (tid r d) (tid r 0) = decide (0 < d) := tidGt_tid (by omega) (by omega)
      rw [tid_zero] at hgt
      rw [hgt]
      simpa using hpos
    have hold' (b r)
        (hr : revokedBy j (t.foldl (chunkEffect j .PASS_REVOKE id) st).j_revoke b = some r) :
        ∃ d, 0 < d ∧ d + txs.length ≤ 2 ^ 31 ∧ id + 1 = tid r d := by
      rw [hblocks] at hr
      split at hr
      · obtain rfl := some.inj hr
        exact ⟨1, by omega, by omega, rfl⟩
      obtain ⟨d, hpos, hd, rfl⟩ := hold b r hr
      rw [length_cons] at hd
      refine ⟨d + 1, by omega, by omega, ?_⟩
      rw [tid, tid, BitVec.add_assoc, BitVec.ofNat_add]
      rfl
    rw [txsEffect]
    rcases ih _ _ hold' (by omega) with ⟨n, u, hu, hrev, hlast, hby⟩ | ⟨hnone, hby⟩
    · left
      refine ⟨n + 1, u, hu, hrev, ?_, by rw [hby, tid_succ]⟩
      intro m u hm hu
      cases m with
      | zero => omega
      | succ m => exact hlast m u (by omega) hu
    rw [hblocks] at hby
    by_cases hrev : b ∈ t.revokes
    · left
      rw [if_pos hrev] at hby
      refine ⟨0, t, rfl, hrev, ?_, by rw [hby, tid_zero]⟩
      intro m u hm hu
      cases m with
      | zero => omega
      | succ m => exact hnone m u hu
    · right
      rw [if_neg hrev] at hby
      refine ⟨?_, hby⟩
      intro m u hu
      cases m with
      | zero =>
        obtain rfl : t = u := by simpa using hu
        exact hrev
      | succ m => exact hnone m u hu

/-- The second pass writes nothing. -/
theorem txs_revoke_fs {id : Word} {st : State} :
    (txsEffect j .PASS_REVOKE id st txs).fs = st.fs := by
  induction txs generalizing id st with
  | nil => rfl
  | cons t txs ih =>
    rw [txsEffect, ih, chunks_revoke]
    exact foldl_keeps (revokeBlock j id) (·.fs) (fun _ _ => rfl) t.revokes st

/-- What was logged last for a block. -/
def dataFor (b : Word) : List Tag → Option Block
  | [] => none
  | tag :: tags => (dataFor b tags).or (if tag.blocknr = b then some tag.data else none)

theorem replayTag_j_revoke (tag : Tag) : (replayTag j id st tag).j_revoke = st.j_revoke := by
  unfold replayTag
  split <;> rfl

/-- The third pass, for one transaction. -/
theorem tags_replay {tags : List Tag} {st : State} :
    (tags.foldl (replayTag j id) st).j_revoke = st.j_revoke ∧
      (tags.foldl (replayTag j id) st).fs b =
        if journalTestRevoke j st.j_revoke b id = true then st.fs b
        else (dataFor b tags).getD (st.fs b) := by
  induction tags generalizing st with
  | nil => exact ⟨rfl, by simp [dataFor]⟩
  | cons tag tags ih =>
    rw [foldl_cons, ih.1, ih.2, replayTag_j_revoke]
    refine ⟨rfl, ?_⟩
    unfold replayTag
    by_cases hb : tag.blocknr = b
    · rw [dataFor, hb]
      by_cases htest : journalTestRevoke j st.j_revoke b id = true
      · rw [if_pos htest, if_pos htest, if_pos htest]
      · rw [if_neg htest, if_neg htest, if_neg htest]
        simp only [update_self]
        cases dataFor b tags <;> rfl
    · have hsame : ∀ data, update st.fs tag.blocknr data b = st.fs b :=
        fun _ => update_of_ne (Ne.symm hb) ..
      rw [dataFor]
      split <;> split <;> simp [hsame]

/-- The third pass: the last transaction that logs the block and is not skipped. -/
theorem txs_replay (b : Word) (txs : List Transaction) (id : Word) (st : State) :
    ((∀ n t, txs[n]? = some t → dataFor b t.tags = none ∨
        journalTestRevoke j st.j_revoke b (tid id n) = true) →
      (txsEffect j .PASS_REPLAY id st txs).fs b = st.fs b) ∧
      ∀ n t data, txs[n]? = some t → dataFor b t.tags = some data →
      journalTestRevoke j st.j_revoke b (tid id n) = false →
      (∀ m u, n < m → txs[m]? = some u → dataFor b u.tags = none ∨
        journalTestRevoke j st.j_revoke b (tid id m) = true) →
      (txsEffect j .PASS_REPLAY id st txs).fs b = data := by
  induction txs generalizing id st with
  | nil => exact ⟨fun _ => rfl, by simp⟩
  | cons t txs ih =>
    have htable : (t.foldl (chunkEffect j .PASS_REPLAY id) st).j_revoke = st.j_revoke := by
      rw [chunks_replay]
      exact (tags_replay (b := b)).1
    have hfs : (t.foldl (chunkEffect j .PASS_REPLAY id) st).fs b =
        if journalTestRevoke j st.j_revoke b id = true then st.fs b
        else (dataFor b t.tags).getD (st.fs b) := by
      rw [chunks_replay]
      exact tags_replay.2
    rw [txsEffect]
    have ih' := ih (id + 1) (t.foldl (chunkEffect j .PASS_REPLAY id) st)
    simp only [htable, tid_succ] at ih'
    obtain ⟨ih1, ih2⟩ := ih'
    constructor
    · intro h
      rw [ih1 fun n u hu => h (n + 1) u hu, hfs]
      have h0 := h 0 t rfl
      rw [tid_zero] at h0
      rcases h0 with hnone | htest
      · rw [hnone]
        split <;> rfl
      · rw [if_pos htest]
    · intro n u data hu hdata htest hlater
      cases n with
      | succ n => exact ih2 n u data hu hdata htest fun m u hm hu => hlater (m + 1) u (by omega) hu
      | zero =>
        obtain rfl : t = u := by simpa using hu
        rw [tid_zero] at htest
        rw [ih1 fun n u hu => hlater (n + 1) u (by omega) hu, hfs, htest, hdata]
        rfl

/-! ## The passes -/

section

/-- The scan finds the first id without a commit block. -/
theorem doOnePass_scan (g : j.Geometry) (hoverflow : j.NoOverflow)
    (hlayout : Layout j st.log txs rest) : doOnePass j .PASS_SCAN st = some ({ st with
      start_transaction := j.s_sequence
      end_transaction := tid j.s_sequence txs.length }, 0) := by
  have hfits := hlayout.fits
  change Layout j ({ st with start_transaction := j.s_sequence } : State).log txs rest at hlayout
  rw [doOnePass, if_pos rfl, ← g.pos_zero,
    loop_transactions g hoverflow (fun _ _ => .inl rfl) hlayout.complete (by omega), txs_scan,
    loop_chunks g hoverflow (.inl rfl) (by rw [Nat.zero_add]; exact hlayout.incomplete) (by omega),
    chunks_scan]
  rw [Nat.zero_add]
  exact loop_done (passBody_stale g hlayout.stale)

/-- The other passes end there too. -/
theorem doOnePass_again {pass : Pass} (hpass : pass ≠ .PASS_SCAN) (g : j.Geometry)
    (hoverflow : j.NoOverflow) (hcount : txs.length ≤ 2 ^ 31) (hlayout : Layout j st.log txs rest)
    (hend : st.end_transaction = tid j.s_sequence txs.length) :
    doOnePass j pass st = some (txsEffect j pass j.s_sequence st txs, 0) := by
  have hfits := hlayout.fits
  rw [doOnePass, if_neg hpass, ← g.pos_zero,
    loop_transactions g hoverflow ?_ hlayout.complete (by omega)]
  · refine loop_done ?_
    unfold passBody
    rw [if_pos]
    · rw [passDone, if_neg hpass, if_neg (by rw [txsEffect_keeps.2, hend]; simp)]
    · refine ⟨hpass, ?_⟩
      rw [txsEffect_keeps.2, hend, tidGeq_tid (by omega) (by omega)]
      simp
  · intro n hn
    right
    rw [hend, tidGeq_tid (by omega) (by omega)]
    simpa using hn

end

/-- After the scan. -/
theorem journalRecover_of_scan {r : State × Int} (hstart : j.s_start ≠ 0)
    (hscan : doOnePass j .PASS_SCAN { st with
      start_transaction := 0, end_transaction := 0, nr_replays := 0, nr_revokes := 0,
      nr_revoke_hits := 0 } = some r) :
    journalRecover j st = (nextPass j .PASS_REVOKE r).bind fun r =>
      (nextPass j .PASS_REPLAY r).bind fun r => some (recoverDone r) := by
  unfold journalRecover
  rw [if_neg hstart, hscan]
  rfl

/-- The transaction logs the block, and neither it nor a later one revokes it. -/
structure Qualifies (txs : List Transaction) (b : Word) (i : Nat) : Prop where
  logs : ∃ t data, txs[i]? = some t ∧ dataFor b t.tags = some data
  unrevoked : ∀ m u, i ≤ m → txs[m]? = some u → b ∉ u.revokes

section

/-- The table after the second pass: a block is skipped when its transaction or a later one
revokes it. -/
theorem journalTestRevoke_iff (hlength : txs.length ≤ 2 ^ 31) (hrevoke : st.j_revoke = fun _ => [])
    (hi : i < txs.length) :
    journalTestRevoke j (txsEffect j .PASS_REVOKE id st txs).j_revoke b (tid id i) = true ↔
      ∃ m u, i ≤ m ∧ txs[m]? = some u ∧ b ∈ u.revokes := by
  have hempty (b) : revokedBy j st.j_revoke b = none := by
    rw [hrevoke]
    rfl
  have htest (table) : journalTestRevoke j table b (tid id i) = true ↔
        ∃ r, revokedBy j table b = some r ∧ tidGt (tid id i) r = false := by
    unfold journalTestRevoke revokedBy
    cases findRevokeRecord j table b <;> simp
  rw [htest]
  rcases txs_revoke b txs id st (fun b r hr => by rw [hempty] at hr; cases hr) hlength with ⟨n, t, ht, hrev, hlast, hby⟩ | ⟨hnone, hby⟩
  · have hn : n < txs.length := (List.getElem?_eq_some_iff.mp ht).1
    rw [hby]
    constructor
    · rintro ⟨r, hr, hgt⟩
      obtain rfl := some.inj hr
      rw [tidGt_tid (by omega) (by omega)] at hgt
      exact ⟨n, t, by simpa using hgt, ht, hrev⟩
    · rintro ⟨m, u, him, hu, hu'⟩
      refine ⟨_, rfl, ?_⟩
      rw [tidGt_tid (by omega) (by omega)]
      by_contra hlt
      have hlt' : n < i := by simpa using hlt
      exact hlast m u (by omega) hu hu'
  · rw [hby, hempty]
    constructor
    · rintro ⟨r, hr, -⟩
      cases hr
    · rintro ⟨m, u, -, hu, hu'⟩
      exact absurd hu' (hnone m u hu)

/-- Journal replay restores the last version that is committed and not revoked, when there
are at most 2^31 transactions and block numbers do not overflow. -/
theorem journalRecover_restores (g : j.Geometry) (hoverflow : j.NoOverflow)
    (hcount : txs.length ≤ 2 ^ 31) (hlayout : Layout j st.log txs rest) (hrevoke : st.j_revoke = fun _ => []) :
    ∃ st', journalRecover j st = some (st', 0) ∧ ∀ b,
      (∀ i t data, Qualifies txs b i → (∀ m, i < m → ¬ Qualifies txs b m) → txs[i]? = some t →
        dataFor b t.tags = some data → st'.fs b = data) ∧
      ((∀ i, ¬ Qualifies txs b i) → st'.fs b = st.fs b) := by
  let st1 : State := { st with
    start_transaction := j.s_sequence, end_transaction := tid j.s_sequence txs.length,
    nr_replays := 0, nr_revokes := 0, nr_revoke_hits := 0 }
  let st2 := txsEffect j .PASS_REVOKE j.s_sequence st1 txs
  let st3 := txsEffect j .PASS_REPLAY j.s_sequence st2 txs
  have hkeeps : st2.log = st.log ∧ st2.end_transaction = tid j.s_sequence txs.length :=
    txsEffect_keeps
  have hscan : doOnePass j .PASS_SCAN { st with
      start_transaction := 0, end_transaction := 0, nr_replays := 0, nr_revokes := 0,
      nr_revoke_hits := 0 } = some (st1, 0) := doOnePass_scan g hoverflow hlayout
  have hpass2 : doOnePass j .PASS_REVOKE st1 = some (st2, 0) :=
    doOnePass_again (by simp) g hoverflow hcount hlayout rfl
  have hpass3 : doOnePass j .PASS_REPLAY st2 = some (st3, 0) :=
    doOnePass_again (by simp) g hoverflow hcount (by rw [hkeeps.1]; exact hlayout) hkeeps.2
  refine ⟨(recoverDone (st3, 0)).1, ?_, fun b => ?_⟩
  · have hstart : j.s_start ≠ 0 := by
      have := g.first
      have := g.start
      omega
    rw [journalRecover_of_scan hstart hscan]
    simp only [nextPass, hpass2, hpass3, bind_some, if_true]
    rfl
  · have hfs2 : st2.fs = st.fs := txs_revoke_fs
    have hskip : ∀ {n}, n < txs.length →
        (journalTestRevoke j st2.j_revoke b (tid j.s_sequence n) = true ↔
          ∃ m u, n ≤ m ∧ txs[m]? = some u ∧ b ∈ u.revokes) :=
      fun hn => journalTestRevoke_iff hcount hrevoke hn
    -- a transaction that logs the block is skipped unless it qualifies
    have hqualifies : ∀ n t, txs[n]? = some t → ¬ Qualifies txs b n → dataFor b t.tags = none ∨
        journalTestRevoke j st2.j_revoke b (tid j.s_sequence n) = true := by
      intro n t ht hnot
      cases hdata : dataFor b t.tags with
      | none => exact .inl rfl
      | some data =>
        right
        rw [hskip (List.getElem?_eq_some_iff.mp ht).1]
        by_contra hno
        exact hnot ⟨⟨t, data, ht, hdata⟩, fun m u hm hu hrev => hno ⟨m, u, hm, hu, hrev⟩⟩
    obtain ⟨hnone, hsome⟩ := txs_replay b txs j.s_sequence st2
    constructor
    · intro i t data hqual hlatest ht hdata
      refine hsome i t data ht hdata ?_ fun m u hm hu => hqualifies m u hu (hlatest m hm)
      rw [Bool.eq_false_iff, ne_eq, hskip (List.getElem?_eq_some_iff.mp ht).1]
      rintro ⟨m, u, hm, hu, hrev⟩
      exact hqual.unrevoked m u hm hu hrev
    · intro hno
      rw [← hfs2]
      exact hnone fun n t ht => hqualifies n t ht (hno n)

end

/-! ## Two logs -/

/-- A block that begins with these words. -/
def blockOf (words : List Word) : Block := fun i => words.getD i 0

/-- Two blocks are logged in front of the end of the journal and behind it, with an id that
wraps, and the second one is revoked. -/
def wrappedLog : Nat → Block
  | 6 => blockOf [JFS_MAGIC_NUMBER, JFS_DESCRIPTOR_BLOCK, -1, 5, 0, 0, 0, 0, 0, 7, 10]
  | 7 => blockOf [17]
  | 1 => blockOf [34]
  | 2 => blockOf [JFS_MAGIC_NUMBER, JFS_COMMIT_BLOCK, -1]
  | 3 => blockOf [JFS_MAGIC_NUMBER, JFS_REVOKE_BLOCK, 0, 20, 7]
  | 4 => blockOf [JFS_MAGIC_NUMBER, JFS_COMMIT_BLOCK, 0]
  | _ => blockOf []

def wrappedJournal : Journal := ⟨1024, 1, 8, 8, -1, 6, fun _ => 0⟩

def wrappedTxs : List Transaction :=
  [[.descriptor [⟨5, 0, blockOf [17]⟩, ⟨7, 10, blockOf [34]⟩]], [.revoke [7]]]

/-- The state before recovery. -/
def unrecovered (log : Nat → Block) : State :=
  ⟨log, fun _ => blockOf [], fun _ => [], 0, 0, 0, 0, 0, 0⟩

theorem wrappedLog_layout : Layout wrappedJournal wrappedLog wrappedTxs [] := by
  refine ⟨⟨⟨⟨⟨rfl, rfl, rfl⟩, ?_, rfl, rfl, trivial⟩, trivial⟩, ⟨rfl, rfl, rfl⟩,
    ⟨⟨⟨rfl, rfl, rfl⟩, ⟨rfl, trivial⟩, by decide, by decide⟩, trivial⟩, ⟨rfl, rfl, rfl⟩, trivial⟩,
    trivial, .inl (by decide), by decide⟩
  refine ⟨by decide, rfl, rfl, rfl, ?_⟩
  refine ⟨by decide, rfl, rfl, rfl, ?_⟩
  rw [if_pos (by decide)]

/-- The first block is restored, the revoked one is not. -/
theorem journalRecover_restores_wrapped :
    ∃ st', journalRecover wrappedJournal (unrecovered wrappedLog) = some (st', 0) ∧
      st'.fs 5 = blockOf [17] ∧ st'.fs 7 = blockOf [] := by
  have hlayout : Layout wrappedJournal (unrecovered wrappedLog).log wrappedTxs [] := wrappedLog_layout
  obtain ⟨st', hrecover, hfs⟩ := journalRecover_restores
    ⟨by decide, by decide, by decide, by decide, by decide⟩ (by unfold Journal.NoOverflow; decide)
    (by decide) hlayout rfl
  refine ⟨st', hrecover, ?_, ?_⟩
  · refine (hfs 5).1 0 _ _ ⟨⟨_, _, rfl, rfl⟩, ?_⟩ ?_ rfl rfl
    · intro m u _ hu
      match m with
      | 0 | 1 => obtain rfl := some.inj hu; decide
      | m + 2 => cases hu
    · rintro m hm ⟨⟨u, data, hu, hdata⟩, -⟩
      match m with
      | 0 => omega
      | 1 => obtain rfl := some.inj hu; cases hdata
      | m + 2 => cases hu
  · refine (hfs 7).2 ?_
    rintro i ⟨⟨u, data, hu, -⟩, hunrevoked⟩
    match i with
    | 0 | 1 => exact hunrevoked 1 _ (by decide) rfl (by decide)
    | i + 2 => cases hu

/-- A journal with `n` transactions of which only the commit blocks are there. -/
def commitLog (n : Nat) : Nat → Block := fun p =>
  if 0 < p ∧ p ≤ n then blockOf [JFS_MAGIC_NUMBER, JFS_COMMIT_BLOCK, BitVec.ofNat 32 (p - 1)]
  else blockOf []

def commitJournal (n : Nat) : Journal := ⟨1024, 1, n + 2, n + 2, 0, 1, fun _ => 0⟩

theorem commitJournal_line (hk : k ≤ n) :
    (commitJournal n).line (commitLog n) k = commitLog n (k + 1) := by
  have hmod : (1 - 1 + k) % (n + 2 - 1) = k := by
    rw [Nat.mod_eq_of_lt (by omega)]
    omega
  have hpos : (commitJournal n).pos k = k + 1 := by
    show 1 + (1 - 1 + k) % (n + 2 - 1) = k + 1
    rw [hmod, Nat.add_comm]
  rw [Journal.line, hpos]

theorem commitLog_header (hk : k < n) :
    Header ((commitJournal n).line (commitLog n) k) JFS_COMMIT_BLOCK (tid 0 k) := by
  rw [commitJournal_line (by omega), commitLog, if_pos (by omega)]
  refine ⟨rfl, rfl, ?_⟩
  show BitVec.ofNat 32 (k + 1 - 1) = tid 0 k
  simp [tid]

theorem transactionsAt_commits {size : Nat} {line : Nat → Block} {n : Nat} {id : Word}
    (h : ∀ m, m < n → Header (line (k + m)) JFS_COMMIT_BLOCK (tid id m)) :
    TransactionsAt size line id k (replicate n []) := by
  induction n generalizing id k with
  | zero => trivial
  | succ n ih =>
    have h0 := h 0 (by omega)
    rw [tid_zero] at h0
    refine ⟨trivial, h0, ih fun m hm => ?_⟩
    rw [tid_succ]
    have := h (m + 1) (by omega)
    rwa [show k + (m + 1) = k + Transaction.length [] + 1 + m by
      simp only [Transaction.length, map_nil, sum_nil]; omega] at this

theorem logLength_commits (n : Nat) : logLength (replicate n []) = n := by
  simp [logLength, Transaction.length]

theorem commitLog_layout (n : Nat) :
    Layout (commitJournal n) (commitLog n) (replicate n []) [] := by
  refine ⟨transactionsAt_commits fun m hm => ?_, trivial, .inl ?_, ?_⟩
  · rw [Nat.zero_add]
    exact commitLog_header hm
  · rw [logLength_commits]
    show h_magic ((commitJournal n).line (commitLog n) n) ≠ _
    rw [commitJournal_line (Nat.le_refl n), commitLog, if_neg (by omega)]
    decide
  · rw [logLength_commits]
    show n + 0 ≤ n + 2 - 1
    omega

/-- Commit blocks, one after the other, in the scan. -/
theorem loop_commits (g : j.Geometry) {n : Nat} {id : Word}
    (h : ∀ m, m < n → Header (j.line st.log (k + m)) JFS_COMMIT_BLOCK (tid id m)) :
    loop (passBody j .PASS_SCAN) ⟨id, j.pos k, 0, st⟩ =
      loop (passBody j .PASS_SCAN) ⟨tid id n, j.pos (k + n), 0, st⟩ := by
  induction n generalizing id k with
  | zero => rw [tid_zero, Nat.add_zero]
  | succ n ih =>
    have h0 := h 0 (by omega)
    rw [tid_zero, Nat.add_zero] at h0
    rw [loop_next (passBody_commit g (.inl rfl) h0), ih, tid_succ, Nat.add_assoc, Nat.add_comm 1]
    intro m hm
    rw [tid_succ, Nat.add_assoc, Nat.add_comm 1]
    exact h (m + 1) (by omega)

/-- With more than 2^31 transactions the first id seems to be behind the last one, and the
second pass ends before it begins. -/
theorem journalRecover_commits (hn : 2 ^ 31 < n) (hn' : n + 2 < 2 ^ 32) :
    ∃ st', journalRecover (commitJournal n) (unrecovered (commitLog n)) = some (st', -eio) := by
  have g : (commitJournal n).Geometry :=
    ⟨Nat.one_pos, Nat.le_refl _, by show 1 < n + 2; omega, Nat.le_refl _, hn'⟩
  let st1 : State := { unrecovered (commitLog n) with end_transaction := tid 0 n }
  have hscan : doOnePass (commitJournal n) .PASS_SCAN (unrecovered (commitLog n)) =
      some (st1, 0) := by
    have hstart : (commitJournal n).s_start = (commitJournal n).pos 0 := g.pos_zero.symm
    rw [doOnePass, hstart]
    refine (loop_commits g fun m hm => ?_).trans (loop_done (passBody_stale g (.inl ?_)))
    · rw [Nat.zero_add]
      exact commitLog_header hm
    · rw [Nat.zero_add]
      show h_magic ((commitJournal n).line (commitLog n) n) ≠ _
      rw [commitJournal_line (Nat.le_refl n), commitLog, if_neg (by omega)]
      decide
  have hgeq : tidGeq 0 (tid 0 n) = true := by
    have hsub : (0 : Word) - tid 0 n = BitVec.ofInt 32 (2 ^ 32 - n) := by
      apply eq_of_toNat_eq
      simp only [tid, toNat_sub, toNat_add, toNat_ofNat, toNat_ofInt]
      omega
    rw [tidGeq, hsub, toInt_ofInt, Int.bmod_eq_of_le (by omega) (by omega)]
    simp only [decide_eq_true_eq]
    omega
  have hne : tid 0 n ≠ 0 := by
    intro heq
    have := congrArg BitVec.toNat heq
    simp only [tid, toNat_add, toNat_ofNat] at this
    omega
  have hrevoke : doOnePass (commitJournal n) .PASS_REVOKE st1 = some (st1, -eio) := by
    refine loop_done ?_
    unfold passBody
    rw [if_pos ⟨by simp, hgeq⟩]
    exact congrArg (fun r => some (Sum.inl r)) (if_pos hne)
  refine ⟨(recoverDone (st1, -eio)).1, ?_⟩
  rw [journalRecover_of_scan Nat.one_ne_zero hscan]
  simp only [nextPass, hrevoke]
  rfl

/-- A journal that ends at 2^32 - 1, with a descriptor block in front of its end. -/
def overflowJournal : Journal := ⟨1024, 1, 2 ^ 32 - 1, 2 ^ 32 - 1, 0, 2 ^ 32 - 3, fun _ => 0⟩

def overflowLog : Nat → Block := fun p =>
  if p = 2 ^ 32 - 3 then
    blockOf [JFS_MAGIC_NUMBER, JFS_DESCRIPTOR_BLOCK, 0, 5, 0, 0, 0, 0, 0, 6, 2, 7, 10]
  else if p = 3 then blockOf [JFS_MAGIC_NUMBER, JFS_COMMIT_BLOCK, 0]
  else if p = 4 then blockOf []
  else blockOf [17]

def overflowTags : List Tag :=
  [⟨5, 0, blockOf [17]⟩, ⟨6, 2, blockOf [17]⟩, ⟨7, 10, blockOf [17]⟩]

theorem overflowJournal_geometry : overflowJournal.Geometry :=
  ⟨by decide, by decide, by decide, by decide, by decide⟩

theorem overflowLog_tags :
    TagsAt 1024 (overflowJournal.line overflowLog 0) headerSize overflowTags := by
  refine ⟨by decide, rfl, rfl, rfl, ?_⟩
  refine ⟨by decide, rfl, rfl, rfl, ?_⟩
  refine ⟨by decide, rfl, rfl, rfl, ?_⟩
  rw [if_pos (by decide)]

theorem overflowLog_layout : Layout overflowJournal overflowLog [[.descriptor overflowTags]] [] :=
  ⟨⟨⟨⟨⟨rfl, rfl, rfl⟩, overflowLog_tags, rfl, rfl, rfl, trivial⟩, trivial⟩, ⟨rfl, rfl, rfl⟩,
    trivial⟩, trivial, .inl (by decide), by decide⟩

/-- Behind the descriptor block the scan goes on at a data block, and finds no transaction. -/
theorem journalRecover_overflow :
    ∃ st', journalRecover overflowJournal (unrecovered overflowLog) = some (st', 0) ∧
      st'.fs = (unrecovered overflowLog).fs := by
  have g := overflowJournal_geometry
  let st := unrecovered overflowLog
  have hnext : passBody overflowJournal .PASS_SCAN ⟨0, overflowJournal.pos 0, 0, st⟩ =
      some (.inr ⟨0, overflowJournal.pos 2, 0, st⟩) := by
    unfold passBody
    simp only [g.jread_pos]
    have hcount : countTags overflowJournal.j_blocksize (overflowJournal.line st.log 0) headerSize 0 =
        0 + overflowTags.length := countTags_spec 0 overflowLog_tags
    rw [if_neg (by decide), hcount]
    rfl
  have hscan : doOnePass overflowJournal .PASS_SCAN st = some (st, 0) := by
    exact (loop_next hnext).trans (loop_done (passBody_stale g (.inl (by decide))))
  have hagain : ∀ {pass}, pass ≠ .PASS_SCAN → doOnePass overflowJournal pass st = some (st, 0) := by
    intro pass hpass
    have hgeq : tidGeq overflowJournal.s_sequence st.end_transaction = true := by decide
    rw [doOnePass, if_neg hpass]
    refine loop_done ?_
    unfold passBody
    rw [if_pos ⟨hpass, hgeq⟩, passDone, if_neg hpass]
    rfl
  refine ⟨(recoverDone (st, 0)).1, ?_, rfl⟩
  rw [journalRecover_of_scan (by decide) hscan]
  simp only [nextPass, hagain, bind_some, if_true, ne_eq, reduceCtorEq, not_false_eq_true]
  rfl

/-- A log of 2^31 + 1 transactions is not recovered, nor one in which a block number
overflows. -/
theorem journalRecover_fails :
    (∃ j log txs rest, Journal.Geometry j ∧ Layout j log txs rest ∧
      ∃ st', journalRecover j (unrecovered log) = some (st', -eio)) ∧
    ∃ j log txs rest, Journal.Geometry j ∧ Layout j log txs rest ∧ ∃ b i t data,
      Qualifies txs b i ∧ (∀ m, i < m → ¬ Qualifies txs b m) ∧ txs[i]? = some t ∧
        dataFor b t.tags = some data ∧
        ∃ st', journalRecover j (unrecovered log) = some (st', 0) ∧ st'.fs b ≠ data := by
  refine ⟨⟨commitJournal (2 ^ 31 + 1), commitLog (2 ^ 31 + 1), replicate (2 ^ 31 + 1) [], [],
    ⟨by decide, Nat.le_refl _, by decide, Nat.le_refl _, by decide⟩, commitLog_layout _,
    journalRecover_commits (by decide) (by decide)⟩, ?_⟩
  obtain ⟨st', hrecover, hfs⟩ := journalRecover_overflow
  refine ⟨overflowJournal, overflowLog, [[.descriptor overflowTags]], [], overflowJournal_geometry,
    overflowLog_layout, 5, 0, _, _, ⟨⟨_, _, rfl, rfl⟩, ?_⟩, ?_, rfl, rfl, st', hrecover, ?_⟩
  · intro m u _ hu
    match m with
    | 0 => obtain rfl := some.inj hu; decide
    | m + 1 => cases hu
  · rintro m hm ⟨⟨u, data, hu, -⟩, -⟩
    match m with
    | 0 => omega
    | m + 1 => cases hu
  · rw [hfs]
    intro heq
    exact absurd (congrFun heq 0) (by decide)

/-! ## Escaped blocks -/

/-- What `journal_write_metadata_buffer` writes to the log for a block.  The tag of a block that
is changed here gets `JFS_FLAG_ESCAPE`. -/
def escape (content : Block) : Block :=
  if content 0 = JFS_MAGIC_NUMBER then update content 0 0 else content

/-- One block is logged, and the transaction is committed. -/
def escapeLog (flags : Word) (content : Block) : Nat → Block
  | 1 => blockOf [JFS_MAGIC_NUMBER, JFS_DESCRIPTOR_BLOCK, 0, 5, flags]
  | 2 => escape content
  | 3 => blockOf [JFS_MAGIC_NUMBER, JFS_COMMIT_BLOCK, 0]
  | _ => blockOf []

def escapeJournal : Journal := ⟨1024, 1, 8, 8, 0, 1, fun _ => 0⟩

def scanned (log : Nat → Block) : State := { unrecovered log with end_transaction := 1 }

end LinuxKernel.Fs.Jbd
