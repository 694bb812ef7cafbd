/-
  What a log looks like, and how each pass walks over it.

  Positions are counted from `s_start` on, so the log is a straight line here; `pos`
  says where on the circle a position is.  Each chunk of a transaction, a descriptor
  block with its data blocks or a revoke block, is one round of the loop in every pass,
  and the passes differ only in what a round does to the state.
-/
import LinuxKernel.Fs.JbdRecovery

namespace LinuxKernel.Fs.Jbd

open Foundation List

/-! ## Layout -/

/-- A logged block. -/
structure Tag where
  blocknr : Word
  flags : Word
  data : Block

inductive Chunk where
  | descriptor (tags : List Tag)
  | revoke (blocks : List Word)

/-- A transaction, without its commit block. -/
abbrev Transaction := List Chunk

/-- How many blocks of the log a chunk takes. -/
def Chunk.length : Chunk → Nat
  | .descriptor tags => 1 + tags.length
  | .revoke _ => 1

def Transaction.length (t : Transaction) : Nat := (t.map Chunk.length).sum

/-- The blocks of complete transactions, with their commit blocks. -/
def logLength (txs : List Transaction) : Nat := (txs.map fun t => t.length + 1).sum

structure Header (b : Block) (blocktype sequence : Word) : Prop where
  magic : h_magic b = JFS_MAGIC_NUMBER
  blocktype : h_blocktype b = blocktype
  sequence : h_sequence b = sequence

/-- The tags of a descriptor block from `tagp` on: each but the last one is not marked as
the last, and the last one is, or fills the block. -/
def TagsAt (size : Nat) (b : Block) : Nat → List Tag → Prop
  | tagp, [] => ¬ tagp + tagSize ≤ size
  | tagp, tag :: tags =>
    tagp + tagSize ≤ size ∧ be32 b tagp = tag.blocknr ∧ be32 b (tagp + 4) = tag.flags ∧
      tag.flags &&& JFS_FLAG_ESCAPE = 0 ∧
      if tag.flags &&& JFS_FLAG_LAST_TAG ≠ 0 then tags = []
      else TagsAt size b (nextTag tagp tag.flags) tags

/-- The blocks that follow. -/
def DataAt (line : Nat → Block) : Nat → List Tag → Prop
  | _, [] => True
  | k, tag :: tags => line k = tag.data ∧ DataAt line (k + 1) tags

/-- The block numbers in a revoke block. -/
def RevokesAt (b : Block) : Nat → List Word → Prop
  | _, [] => True
  | offset, blocknr :: blocks => be32 b offset = blocknr ∧ RevokesAt b (offset + 4) blocks

def ChunkAt (size : Nat) (line : Nat → Block) (id : Word) (k : Nat) : Chunk → Prop
  | .descriptor tags =>
    Header (line k) JFS_DESCRIPTOR_BLOCK id ∧ TagsAt size (line k) headerSize tags ∧
      DataAt line (k + 1) tags
  | .revoke blocks =>
    Header (line k) JFS_REVOKE_BLOCK id ∧ RevokesAt (line k) revokeHeaderSize blocks ∧
      (r_count (line k)).toInt = revokeHeaderSize + 4 * blocks.length ∧
      revokeHeaderSize + 4 * blocks.length ≤ size

def ChunksAt (size : Nat) (line : Nat → Block) (id : Word) : Nat → List Chunk → Prop
  | _, [] => True
  | k, chunk :: chunks => ChunkAt size line id k chunk ∧ ChunksAt size line id (k + chunk.length) chunks

/-- Complete transactions with consecutive ids. -/
def TransactionsAt (size : Nat) (line : Nat → Block) : Word → Nat → List Transaction → Prop
  | _, _, [] => True
  | id, k, t :: txs =>
    ChunksAt size line id k t ∧ Header (line (k + t.length)) JFS_COMMIT_BLOCK id ∧
      TransactionsAt size line (id + 1) (k + t.length + 1) txs

/-- The id of the transaction that is `n` behind the first one. -/
def tid (first : Word) (n : Nat) : Word := first + BitVec.ofNat 32 n

theorem tid_zero (first : Word) : tid first 0 = first := by simp [tid]

theorem tid_succ (first : Word) (n : Nat) : tid (first + 1) n = tid first (n + 1) := by
  rw [tid, tid, BitVec.add_assoc, BitVec.ofNat_add, BitVec.add_comm 1]
  rfl

namespace Journal

/-- Where the log is on its device. -/
structure Geometry (j : Journal) : Prop where
  first : 0 < j.j_first
  start : j.j_first ≤ j.s_start
  last : j.s_start < j.j_last
  maxlen : j.j_last ≤ j.j_maxlen
  bound : j.j_last < 2 ^ 32

/-- `next_log_block` and the tags of a descriptor block together stay below 2^32. -/
def NoOverflow (j : Journal) : Prop := j.j_last + j.j_blocksize / tagSize ≤ 2 ^ 32

/-- Position `k` of the log. -/
def pos (j : Journal) (k : Nat) : Nat :=
  j.j_first + (j.s_start - j.j_first + k) % (j.j_last - j.j_first)

/-- The log from `s_start` on. -/
def line (j : Journal) (log : Nat → Block) (k : Nat) : Block := log (j.pos k)

end Journal

/-- Complete transactions, then an incomplete one, which may be empty, then a block that
is not a block of that one.  Together they fill the log at most once. -/
structure Layout (j : Journal) (log : Nat → Block) (txs : List Transaction) (rest : List Chunk) :
    Prop where
  complete : TransactionsAt j.j_blocksize (j.line log) j.s_sequence 0 txs
  incomplete : ChunksAt j.j_blocksize (j.line log) (tid j.s_sequence txs.length) (logLength txs) rest
  stale : h_magic (j.line log (logLength txs + Transaction.length rest)) ≠ JFS_MAGIC_NUMBER ∨
    h_sequence (j.line log (logLength txs + Transaction.length rest)) ≠ tid j.s_sequence txs.length
  fits : logLength txs + Transaction.length rest ≤ j.j_last - j.j_first

/-! ## Walking around the circle -/

namespace Journal

variable {j : Journal} {k n : Nat} {st : State} {tagp : Nat}

theorem Geometry.pos_zero (g : Geometry j) : j.pos 0 = j.s_start := by
  obtain ⟨h1, h2, h3, h4, h5⟩ := g
  have hmod : (j.s_start - j.j_first + 0) % (j.j_last - j.j_first) = j.s_start - j.j_first :=
    Nat.mod_eq_of_lt (by omega)
  rw [Journal.pos]
  omega

theorem Geometry.pos_lt (g : Geometry j) : j.pos k < j.j_last := by
  obtain ⟨h1, h2, h3, h4, h5⟩ := g
  have hlt := Nat.mod_lt (j.s_start - j.j_first + k) (show j.j_last - j.j_first > 0 by omega)
  rw [Journal.pos]
  omega

/-- Moving on by no more than the length of the log, without overflow. -/
theorem Geometry.wrap_pos (g : Geometry j) (hn : n ≤ j.j_last - j.j_first)
    (hsum : j.pos k + n < 2 ^ 32) : wrap j (add32 (j.pos k) n) = j.pos (k + n) := by
  have hlt := g.pos_lt (k := k)
  rw [add32, Nat.mod_eq_of_lt hsum]
  rw [Journal.pos] at hlt ⊢
  rw [Journal.pos, ← Nat.add_assoc, Nat.add_mod _ n]
  have hpos : 0 < j.j_last - j.j_first := by omega
  have hy := Nat.mod_lt (j.s_start - j.j_first + k) hpos
  generalize (j.s_start - j.j_first + k) % (j.j_last - j.j_first) = y at hlt hy ⊢
  generalize hlen : j.j_last - j.j_first = len at hn hpos hy ⊢
  have hmod : (y + n % len) % len = if y + n ≥ len then y + n - len else y + n := by
    rcases Nat.lt_or_eq_of_le hn with hn | rfl
    · rw [Nat.mod_eq_of_lt hn]
      split
      · rw [Nat.mod_eq_sub_mod (by omega), Nat.mod_eq_of_lt (by omega)]
      · exact Nat.mod_eq_of_lt (by omega)
    · rw [Nat.mod_self, Nat.add_zero, Nat.mod_eq_of_lt hy, if_pos (by omega), Nat.add_sub_cancel]
  rw [hmod, wrap]
  split <;> split <;> omega

/-- The next block. -/
theorem Geometry.wrap_succ (g : Geometry j) : wrap j (add32 (j.pos k) 1) = j.pos (k + 1) := by
  have hlt := g.pos_lt (k := k)
  obtain ⟨h1, h2, h3, h4, h5⟩ := g
  exact Geometry.wrap_pos ⟨h1, h2, h3, h4, h5⟩ (by omega) (by omega)

theorem Geometry.jread_pos (g : Geometry j) (st : State) : jread j st (j.pos k) = some (j.line st.log k) := by
  have hlt := g.pos_lt (k := k)
  have hmax := g.maxlen
  rw [jread, if_neg (by omega)]
  rfl

end Journal

/-! ## One chunk -/

variable {j : Journal} {id : Word} {k : Nat} {pass : Pass} {tags : List Tag}
  {txs : List Transaction} {b : Block}

theorem countTags_spec {size : Nat} (nr : Nat) (h : TagsAt size b tagp tags) :
    countTags size b tagp nr = nr + tags.length := by
  induction tags generalizing tagp nr with
  | nil => rw [countTags, if_neg h, length_nil, Nat.add_zero]
  | cons tag tags ih =>
    obtain ⟨hfits, -, hflags, -, hrest⟩ := h
    rw [countTags, if_pos hfits]
    simp only [hflags]
    split at hrest
    · rename_i hlast
      subst hrest
      rw [if_pos hlast]
      rfl
    · rename_i hlast
      rw [if_neg hlast, ih (nr + 1) hrest, length_cons]
      omega

/-- How many tags a block has room for. -/
theorem tagsAt_length {size : Nat} (h : TagsAt size b tagp tags) :
    tags.length ≤ size / tagSize - tagp / tagSize := by
  induction tags generalizing tagp with
  | nil => exact Nat.zero_le _
  | cons tag tags ih =>
    obtain ⟨hfits, -, -, -, hrest⟩ := h
    simp only [tagSize] at hfits ih ⊢
    rw [length_cons]
    split at hrest
    · subst hrest
      simp only [length_nil]
      omega
    · have := ih hrest
      simp only [nextTag, tagSize] at this
      omega

/-- What replaying does for one tag. -/
def replayTag (j : Journal) (id : Word) (st : State) (tag : Tag) : State :=
  if journalTestRevoke j st.j_revoke tag.blocknr id then
    { st with nr_revoke_hits := st.nr_revoke_hits + 1 }
  else
    { st with
      fs := Function.update st.fs tag.blocknr tag.data
      nr_replays := st.nr_replays + 1 }

/-- What a pass keeps until it ends. -/
def State.kept (st : State) : (Nat → Block) × Word := (st.log, st.end_transaction)

theorem replayTag_kept (tag : Tag) : (replayTag j id st tag).kept = st.kept := by
  unfold replayTag
  split <;> rfl

theorem replayTags_spec {b : Nat} (g : j.Geometry) {k : Nat}
    (h : TagsAt j.j_blocksize (st.log b) tagp tags) (hdata : DataAt (j.line st.log) k tags) :
    replayTags j b id tagp (j.pos k) 0 st =
      (j.pos (k + tags.length), 0, tags.foldl (replayTag j id) st) := by
  induction tags generalizing tagp k st with
  | nil =>
    rw [replayTags, if_neg h]
    rfl
  | cons tag tags ih =>
    obtain ⟨hfits, hblocknr, hflags, hescape, hrest⟩ := h
    obtain ⟨hblock, hdata⟩ := hdata
    have hreplay : replayBlock j b tagp tag.flags id tag.data st = replayTag j id st tag := by
      unfold replayBlock replayTag
      simp [hblocknr, hescape]
    rw [replayTags, if_pos hfits]
    simp only [hflags, g.jread_pos, hblock, hreplay, g.wrap_succ]
    split at hrest
    · rename_i hlast
      subst hrest
      rw [if_pos hlast]
      rfl
    · rename_i hlast
      rw [if_neg hlast]
      have hlog : (replayTag j id st tag).log = st.log := congrArg Prod.fst (replayTag_kept tag)
      rw [← hlog] at hrest hdata
      rw [ih hrest hdata, Nat.add_assoc, Nat.add_comm 1]
      rfl

/-- What scanning does for one revoked block. -/
def revokeBlock (j : Journal) (id : Word) (st : State) (blocknr : Word) : State :=
  { st with
    j_revoke := journalSetRevoke j st.j_revoke blocknr id
    nr_revokes := st.nr_revokes + 1 }

theorem scanRevokeLoop_spec {blocks : List Word} {offset : Nat} (h : RevokesAt b offset blocks)
    (hsize : offset + 4 * blocks.length ≤ j.j_blocksize) :
    scanRevokeLoop j b id offset (offset + 4 * blocks.length : Nat) st =
      some (blocks.foldl (revokeBlock j id) st) := by
  induction blocks generalizing offset st with
  | nil =>
    rw [scanRevokeLoop, if_neg (by simp)]
    rfl
  | cons blocknr blocks ih =>
    obtain ⟨hblocknr, hrest⟩ := h
    rw [length_cons] at hsize ⊢
    rw [scanRevokeLoop, if_pos (by omega), if_pos (by omega)]
    simp only [hblocknr]
    rw [show offset + 4 * (blocks.length + 1) = offset + 4 + 4 * blocks.length by omega]
    exact ih hrest (by omega)

/-- What a pass does for a chunk. -/
def chunkEffect (j : Journal) (pass : Pass) (id : Word) (st : State) : Chunk → State
  | .descriptor tags =>
    if pass = .PASS_REPLAY then tags.foldl (replayTag j id) st else st
  | .revoke blocks =>
    if pass = .PASS_REVOKE then blocks.foldl (revokeBlock j id) st else st

theorem foldl_keeps {α β : Type} (f : State → α → State) (proj : State → β)
    (h : ∀ st a, proj (f st a) = proj st) (l : List α) (st : State) :
    proj (l.foldl f st) = proj st := by
  induction l generalizing st with
  | nil => rfl
  | cons a l ih => rw [foldl_cons, ih, h]

theorem chunkEffect_kept (chunk : Chunk) : (chunkEffect j pass id st chunk).kept = st.kept := by
  cases chunk with
  | descriptor tags =>
    rw [chunkEffect]
    split
    · exact foldl_keeps _ State.kept (fun _ tag => replayTag_kept tag) tags st
    · rfl
  | revoke blocks =>
    rw [chunkEffect]
    split
    · exact foldl_keeps (revokeBlock j id) State.kept (fun _ _ => rfl) blocks st
    · rfl

/-- The pass goes on. -/
def Active (pass : Pass) (id : Word) (st : State) : Prop :=
  pass = .PASS_SCAN ∨ tidGeq id st.end_transaction = false

theorem Active.not_stopped (h : Active pass id st) :
    ¬ (pass ≠ .PASS_SCAN ∧ tidGeq id st.end_transaction = true) := by
  rintro ⟨h1, h2⟩
  rcases h with h | h
  · exact h1 h
  · rw [h] at h2
    cases h2

/-- One round for each chunk, in every pass. -/
theorem passBody_chunk {chunk : Chunk} (g : j.Geometry)
    (hactive : Active pass id st) (hchunk : ChunkAt j.j_blocksize (j.line st.log) id k chunk)
    (hlength : chunk.length ≤ j.j_last - j.j_first) (hoverflow : j.NoOverflow) :
    passBody j pass ⟨id, j.pos k, 0, st⟩ =
      some (.inr ⟨id, j.pos (k + chunk.length), 0, chunkEffect j pass id st chunk⟩) := by
  unfold passBody
  rw [if_neg hactive.not_stopped]
  simp only [g.jread_pos, g.wrap_succ]
  cases chunk with
  | descriptor tags =>
    obtain ⟨⟨hmagic, htype, hseq⟩, htags, hdata⟩ := hchunk
    rw [if_neg (by simp [hmagic]), if_neg (by simp [hseq]), if_pos htype]
    simp only [Chunk.length] at hlength ⊢
    rw [chunkEffect]
    by_cases hpass : pass = .PASS_REPLAY
    · rw [if_neg (by simp [hpass]), if_pos hpass]
      rw [replayTags_spec g htags hdata, Nat.add_assoc]
    have hlt := g.pos_lt (k := k + 1)
    have htagsLength := tagsAt_length htags
    simp only [Journal.NoOverflow, tagSize] at hoverflow htagsLength
    have hwrap := g.wrap_pos (k := k + 1) (n := tags.length) (by omega) (by omega)
    rw [if_pos hpass, if_neg hpass, countTags_spec 0 htags, Nat.zero_add, hwrap, Nat.add_assoc]
  | revoke blocks =>
    obtain ⟨⟨hmagic, htype, hseq⟩, hblocks, hcount, hsize⟩ := hchunk
    rw [if_neg (by simp [hmagic]), if_neg (by simp [hseq]),
      if_neg (by rw [htype]; decide), if_neg (by rw [htype]; decide), if_pos htype]
    rw [chunkEffect]
    by_cases hpass : pass = .PASS_REVOKE
    · have hscan : scanRevokeRecords j (j.line st.log k) id st =
          some (blocks.foldl (revokeBlock j id) st) := by
        rw [scanRevokeRecords, hcount]
        exact scanRevokeLoop_spec hblocks hsize
      rw [if_neg (by simp [hpass]), if_pos hpass]
      simp [hscan, Chunk.length]
    · rw [if_pos hpass, if_neg hpass]
      rfl

/-- One round for a commit block. -/
theorem passBody_commit (g : j.Geometry) (hactive : Active pass id st)
    (hcommit : Header (j.line st.log k) JFS_COMMIT_BLOCK id) :
    passBody j pass ⟨id, j.pos k, 0, st⟩ = some (.inr ⟨id + 1, j.pos (k + 1), 0, st⟩) := by
  obtain ⟨hmagic, htype, hseq⟩ := hcommit
  unfold passBody
  rw [if_neg hactive.not_stopped]
  simp only [g.jread_pos, g.wrap_succ]
  rw [if_neg (by simp [hmagic]), if_neg (by simp [hseq]), if_neg (by rw [htype]; decide),
    if_pos htype]

/-- A block that does not belong to the transaction ends the scan. -/
theorem passBody_stale (g : j.Geometry)
    (hstale : h_magic (j.line st.log k) ≠ JFS_MAGIC_NUMBER ∨ h_sequence (j.line st.log k) ≠ id) :
    passBody j .PASS_SCAN ⟨id, j.pos k, 0, st⟩ =
      some (.inl ({ st with end_transaction := id }, 0)) := by
  unfold passBody
  rw [if_neg (by simp)]
  simp only [g.jread_pos]
  rcases hstale with hmagic | hseq
  · rw [if_pos hmagic]
    rfl
  by_cases hmagic : h_magic (j.line st.log k) = JFS_MAGIC_NUMBER
  · rw [if_neg (by simp [hmagic]), if_pos hseq]
    rfl
  · rw [if_pos hmagic]
    rfl

/-! ## Whole transactions -/

theorem loop_chunks (g : j.Geometry) (hoverflow : j.NoOverflow) {chunks : List Chunk} {k : Nat}
    (hactive : Active pass id st) (hchunks : ChunksAt j.j_blocksize (j.line st.log) id k chunks)
    (hlength : Transaction.length chunks ≤ j.j_last - j.j_first) :
    loop (passBody j pass) ⟨id, j.pos k, 0, st⟩ =
      loop (passBody j pass) ⟨id, j.pos (k + Transaction.length chunks), 0,
        chunks.foldl (chunkEffect j pass id) st⟩ := by
  induction chunks generalizing k st with
  | nil => rfl
  | cons chunk chunks ih =>
    obtain ⟨hchunk, hrest⟩ := hchunks
    have hsum : Transaction.length (chunk :: chunks) = chunk.length + Transaction.length chunks :=
      sum_cons
    rw [hsum] at hlength ⊢
    obtain ⟨hlog, hend⟩ := Prod.mk.inj (@chunkEffect_kept j id pass st chunk)
    rw [← hlog] at hrest
    rw [loop_next (passBody_chunk g hactive hchunk (by omega) hoverflow), ih _ hrest (by omega),
      Nat.add_assoc, foldl_cons]
    rw [Active, hend]
    exact hactive

/-- What a pass does for complete transactions. -/
def txsEffect (j : Journal) (pass : Pass) : Word → State → List Transaction → State
  | _, st, [] => st
  | id, st, t :: txs => txsEffect j pass (id + 1) (t.foldl (chunkEffect j pass id) st) txs

theorem chunks_kept (t : Transaction) : (t.foldl (chunkEffect j pass id) st).kept = st.kept :=
  foldl_keeps _ State.kept (fun _ chunk => chunkEffect_kept chunk) t st

theorem txsEffect_kept {id : Word} : (txsEffect j pass id st txs).kept = st.kept := by
  induction txs generalizing id st with
  | nil => rfl
  | cons t txs ih => exact ih.trans (chunks_kept t)

theorem txsEffect_keeps {id : Word} : (txsEffect j pass id st txs).log = st.log ∧
    (txsEffect j pass id st txs).end_transaction = st.end_transaction := Prod.mk.inj txsEffect_kept

theorem loop_transactions (g : j.Geometry) (hoverflow : j.NoOverflow) {id : Word} {k : Nat}
    (hactive : ∀ n, n < txs.length → Active pass (tid id n) st)
    (htxs : TransactionsAt j.j_blocksize (j.line st.log) id k txs)
    (hlength : logLength txs ≤ j.j_last - j.j_first) : loop (passBody j pass) ⟨id, j.pos k, 0, st⟩ =
      loop (passBody j pass) ⟨tid id txs.length, j.pos (k + logLength txs), 0,
        txsEffect j pass id st txs⟩ := by
  induction txs generalizing id k st with
  | nil =>
    rw [length_nil, tid_zero]
    rfl
  | cons t txs ih =>
    obtain ⟨hchunks, hcommit, hrest⟩ := htxs
    have hsum : logLength (t :: txs) = t.length + 1 + logLength txs := sum_cons
    rw [hsum] at hlength ⊢
    have hactive0 : Active pass id st := by
      have := hactive 0 (by simp)
      rwa [tid_zero] at this
    obtain ⟨hlog, hend⟩ := Prod.mk.inj (@chunks_kept j id pass st t)
    rw [← hlog] at hcommit hrest
    rw [loop_chunks g hoverflow hactive0 hchunks (by omega),
      loop_next (passBody_commit g (by rw [Active, hend]; exact hactive0) hcommit),
      ih _ hrest (by omega)]
    · rw [length_cons, txsEffect, tid_succ,
        show k + t.length + 1 + logLength txs = k + (t.length + 1 + logLength txs) by omega]
    · intro n hn
      rw [Active, hend, tid_succ]
      exact hactive (n + 1) (by simpa using hn)

end LinuxKernel.Fs.Jbd
