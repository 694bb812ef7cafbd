/-
  Recovery of a JBD journal.

  Source: fs/jbd/recovery.c, `jread`, `count_tags`, `wrap`, `journal_recover`,
  `do_one_pass`, `scan_revoke_records`; fs/jbd/revoke.c, `insert_revoke_hash`,
  `find_revoke_record`, `journal_set_revoke`, `journal_test_revoke`,
  `journal_clear_revoke`; include/linux/jbd.h, `tid_gt`, `tid_geq`.

  Everything that recovery reads from a block is an aligned big-endian word, so a block
  is the sequence of its words.  Block numbers are 32 bits wide, and sums of them wrap.
  The blocks of the journal are not blocks of the filesystem.  Reads succeed inside the
  journal and memory can be had; `none` is a read outside a block.
-/
import LinuxKernel.Foundation.Loop

namespace LinuxKernel.Fs.Jbd

open Foundation Function

abbrev Word := BitVec 32

/-- `b_data` of a buffer: word `i` is at byte `4 * i`. -/
abbrev Block := Nat → Word

/-- `be32_to_cpu` of the word at a byte offset. -/
def be32 (b : Block) (offset : Nat) : Word := b (offset / 4)

def JFS_MAGIC_NUMBER : Word := 0xc03b3998

def JFS_DESCRIPTOR_BLOCK : Word := 1
def JFS_COMMIT_BLOCK : Word := 2
def JFS_REVOKE_BLOCK : Word := 5

def JFS_FLAG_ESCAPE : Word := 1
def JFS_FLAG_SAME_UUID : Word := 2
def JFS_FLAG_LAST_TAG : Word := 8

/-- `sizeof(journal_header_t)` -/
def headerSize : Nat := 12

/-- `sizeof(journal_block_tag_t)` -/
def tagSize : Nat := 8

/-- `sizeof(journal_revoke_header_t)` -/
def revokeHeaderSize : Nat := 16

def h_magic (b : Block) : Word := be32 b 0
def h_blocktype (b : Block) : Word := be32 b 4
def h_sequence (b : Block) : Word := be32 b 8
def r_count (b : Block) : Word := be32 b 12

/-- `EIO` -/
def eio : Int := 5

/-- `tid_gt` -/
def tidGt (x y : Word) : Bool := decide ((x - y).toInt > 0)

/-- `tid_geq` -/
def tidGeq (x y : Word) : Bool := decide ((x - y).toInt ≥ 0)

/-- What recovery uses of the journal and its superblock.  `hash` is the hash function of
the revoke table. -/
structure Journal where
  j_blocksize : Nat
  j_first : Nat
  j_last : Nat
  j_maxlen : Nat
  s_sequence : Word
  s_start : Nat
  hash : Word → Nat

/-- `struct jbd_revoke_record_s` -/
structure RevokeRecord where
  sequence : Word
  blocknr : Word

/-- The buffers of the journal and of the filesystem, the revoke table, and `struct
recovery_info`. -/
structure State where
  log : Nat → Block
  fs : Word → Block
  j_revoke : Nat → List RevokeRecord
  j_transaction_sequence : Word
  start_transaction : Word
  end_transaction : Word
  nr_replays : Nat
  nr_revokes : Nat
  nr_revoke_hits : Nat

inductive Pass where
  | PASS_SCAN
  | PASS_REVOKE
  | PASS_REPLAY
  deriving DecidableEq

/-! ## The revoke table -/

/-- `find_revoke_record` -/
def findRevokeRecord (j : Journal) (table : Nat → List RevokeRecord) (blocknr : Word) :
    Option RevokeRecord :=
  (table (j.hash blocknr)).find? fun record => record.blocknr == blocknr

/-- `insert_revoke_hash` -/
def insertRevokeHash (j : Journal) (table : Nat → List RevokeRecord) (blocknr seq : Word) :
    Nat → List RevokeRecord :=
  update table (j.hash blocknr) (⟨seq, blocknr⟩ :: table (j.hash blocknr))

/-- `record->sequence = sequence` for the record that was found. -/
def setSequence (blocknr sequence : Word) : List RevokeRecord → List RevokeRecord
  | [] => []
  | record :: records =>
    if record.blocknr == blocknr then { record with sequence := sequence } :: records
    else record :: setSequence blocknr sequence records

/-- `journal_set_revoke` -/
def journalSetRevoke (j : Journal) (table : Nat → List RevokeRecord) (blocknr sequence : Word) :
    Nat → List RevokeRecord :=
  match findRevokeRecord j table blocknr with
  | some record =>
    if tidGt sequence record.sequence then
      update table (j.hash blocknr) (setSequence blocknr sequence (table (j.hash blocknr)))
    else table
  | none => insertRevokeHash j table blocknr sequence

/-- `journal_test_revoke` -/
def journalTestRevoke (j : Journal) (table : Nat → List RevokeRecord) (blocknr sequence : Word) :
    Bool :=
  match findRevokeRecord j table blocknr with
  | none => false
  | some record => if tidGt sequence record.sequence then false else true

/-! ## One pass over the log -/

/-- `jread` -/
def jread (j : Journal) (st : State) (offset : Nat) : Option Block :=
  if offset ≥ j.j_maxlen then none else some (st.log offset)

/-- `wrap` -/
def wrap (j : Journal) (var : Nat) : Nat :=
  if var ≥ j.j_last then var - (j.j_last - j.j_first) else var

/-- `var += n`, for an `unsigned long`. -/
def add32 (var n : Nat) : Nat := (var + n) % 2 ^ 32

/-- `tagp` behind a tag with these flags. -/
def nextTag (tagp : Nat) (flags : Word) : Nat :=
  tagp + tagSize + if flags &&& JFS_FLAG_SAME_UUID = 0 then 16 else 0

/-- The loop of `count_tags`. -/
def countTags (size : Nat) (bh : Block) (tagp nr : Nat) : Nat :=
  if tagp + tagSize ≤ size then
    let flags := be32 bh (tagp + 4)
    if flags &&& JFS_FLAG_LAST_TAG ≠ 0 then nr + 1
    else countTags size bh (nextTag tagp flags) (nr + 1)
  else nr
termination_by size - tagp
decreasing_by
  simp only [nextTag, tagSize] at *
  omega

/-- The loop of `scan_revoke_records`. -/
def scanRevokeLoop (j : Journal) (bh : Block) (sequence : Word) (offset : Nat) (max : Int)
    (st : State) : Option State :=
  if (offset : Int) < max then
    if offset + 4 ≤ j.j_blocksize then
      let st := { st with
        j_revoke := journalSetRevoke j st.j_revoke (be32 bh offset) sequence
        nr_revokes := st.nr_revokes + 1 }
      scanRevokeLoop j bh sequence (offset + 4) max st
    else none
  else some st
termination_by (max - offset).toNat
decreasing_by omega

/-- `scan_revoke_records` -/
def scanRevokeRecords (j : Journal) (bh : Block) (sequence : Word) (st : State) : Option State :=
  scanRevokeLoop j bh sequence revokeHeaderSize (r_count bh).toInt st

/-- Replay the block of one tag; `bh` is where the descriptor block is.  An escaped block
gets its magic number back in the buffer of the descriptor, not in its own. -/
def replayBlock (j : Journal) (bh tagp : Nat) (flags sequence : Word) (obh : Block) (st : State) :
    State :=
  let blocknr := be32 (st.log bh) tagp
  if journalTestRevoke j st.j_revoke blocknr sequence then
    { st with nr_revoke_hits := st.nr_revoke_hits + 1 }
  else
    { st with
      fs := update st.fs blocknr obh
      log := if flags &&& JFS_FLAG_ESCAPE ≠ 0 then
          update st.log bh (update (st.log bh) 0 JFS_MAGIC_NUMBER)
        else st.log
      nr_replays := st.nr_replays + 1 }

/-- The loop of `do_one_pass` over the tags of a descriptor block, with `next_log_block`
and `success`. -/
def replayTags (j : Journal) (bh : Nat) (sequence : Word) (tagp next_log_block : Nat)
    (success : Int) (st : State) : Nat × Int × State :=
  if tagp + tagSize ≤ j.j_blocksize then
    let flags := be32 (st.log bh) (tagp + 4)
    let io_block := next_log_block
    let next_log_block := wrap j (add32 next_log_block 1)
    let (success, st) :=
      match jread j st io_block with
      | none => (-eio, st)
      | some obh => (success, replayBlock j bh tagp flags sequence obh st)
    if flags &&& JFS_FLAG_LAST_TAG ≠ 0 then (next_log_block, success, st)
    else replayTags j bh sequence (nextTag tagp flags) next_log_block success st
  else (next_log_block, success, st)
termination_by j.j_blocksize - tagp
decreasing_by
  simp only [nextTag, tagSize] at *
  omega

/-- The variables of `do_one_pass`. -/
structure Walk where
  next_commit_ID : Word
  next_log_block : Nat
  success : Int
  st : State

/-- From `done` on. -/
def passDone (pass : Pass) (w : Walk) : State × Int :=
  if pass = .PASS_SCAN then ({ w.st with end_transaction := w.next_commit_ID }, w.success)
  else if w.st.end_transaction ≠ w.next_commit_ID then
    (w.st, if w.success = 0 then -eio else w.success)
  else (w.st, w.success)

/-- The body of the loop of `do_one_pass`. -/
def passBody (j : Journal) (pass : Pass) (w : Walk) : Option ((State × Int) ⊕ Walk) :=
  if pass ≠ .PASS_SCAN ∧ tidGeq w.next_commit_ID w.st.end_transaction = true then
    some (.inl (passDone pass w))
  else
    match jread j w.st w.next_log_block with
    | none => some (.inl (w.st, -eio))
    | some bh =>
      let next_log_block := wrap j (add32 w.next_log_block 1)
      if h_magic bh ≠ JFS_MAGIC_NUMBER then some (.inl (passDone pass w))
      else if h_sequence bh ≠ w.next_commit_ID then some (.inl (passDone pass w))
      else if h_blocktype bh = JFS_DESCRIPTOR_BLOCK then
        if pass ≠ .PASS_REPLAY then
          some (.inr { w with
            next_log_block :=
              wrap j (add32 next_log_block (countTags j.j_blocksize bh headerSize 0)) })
        else
          let (next_log_block, success, st) := replayTags j w.next_log_block w.next_commit_ID
            headerSize next_log_block w.success w.st
          some (.inr ⟨w.next_commit_ID, next_log_block, success, st⟩)
      else if h_blocktype bh = JFS_COMMIT_BLOCK then
        some (.inr { w with
          next_commit_ID := w.next_commit_ID + 1
          next_log_block := next_log_block })
      else if h_blocktype bh = JFS_REVOKE_BLOCK then
        if pass ≠ .PASS_REVOKE then some (.inr { w with next_log_block := next_log_block })
        else
          match scanRevokeRecords j bh w.next_commit_ID w.st with
          | none => none
          | some st => some (.inr { w with next_log_block := next_log_block, st := st })
      else some (.inl (passDone pass w))

/-- `do_one_pass` -/
def doOnePass (j : Journal) (pass : Pass) (st : State) : Option (State × Int) :=
  let st := if pass = .PASS_SCAN then { st with start_transaction := j.s_sequence } else st
  loop (passBody j pass) ⟨j.s_sequence, j.s_start, 0, st⟩

/-- `if (!err) err = do_one_pass(...)` -/
def nextPass (j : Journal) (pass : Pass) (r : State × Int) : Option (State × Int) :=
  if r.2 = 0 then doOnePass j pass r.1 else some r

/-- The end of `journal_recover`, with `journal_clear_revoke`. -/
def recoverDone (r : State × Int) : State × Int :=
  ({ r.1 with
      end_transaction := r.1.end_transaction + 1
      j_transaction_sequence := r.1.end_transaction + 1
      j_revoke := fun _ => [] }, r.2)

/-- `journal_recover` -/
def journalRecover (j : Journal) (st : State) : Option (State × Int) :=
  let st := { st with
    start_transaction := 0, end_transaction := 0, nr_replays := 0, nr_revokes := 0,
    nr_revoke_hits := 0 }
  if j.s_start = 0 then some ({ st with j_transaction_sequence := j.s_sequence + 1 }, 0)
  else do
    let r ← doOnePass j .PASS_SCAN st
    let r ← nextPass j .PASS_REVOKE r
    let r ← nextPass j .PASS_REPLAY r
    some (recoverDone r)

end LinuxKernel.Fs.Jbd
