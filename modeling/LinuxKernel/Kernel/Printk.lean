/-
  The kernel log.

  Source: kernel/printk.c, `emit_log_char`, `do_syslog` (type 3), `call_console_drivers`.

  Nobody logs while `do_syslog` copies or a console prints, and the user's buffer can be
  written.  There is one console; its `write` is given by the ranges it is called with.
-/
import LinuxKernel.Foundation.RingBuffer

namespace LinuxKernel.Kernel.Printk

open Foundation Function List

structure Log where
  logBuf : Nat → UInt8
  (logStart conStart logEnd : BitVec 32)
  loggedChars : Nat

section

variable (logBufLen : BitVec 32)

/-- Where `LOG_BUF(idx)` is. -/
def cell (idx : BitVec 32) : Nat := (idx &&& (logBufLen - 1)).toNat

def emitLogChar (s : Log) (c : UInt8) : Log :=
  let logEnd := s.logEnd + 1
  { logBuf := update s.logBuf (cell logBufLen s.logEnd) c
    logEnd := logEnd
    logStart := if logEnd - s.logStart > logBufLen then logEnd - logBufLen else s.logStart
    conStart := if logEnd - s.conStart > logBufLen then logEnd - logBufLen else s.conStart
    loggedChars := if s.loggedChars < logBufLen.toNat then s.loggedChars + 1 else s.loggedChars }

/-- The log after these characters. -/
def emitted (chars : List UInt8) : Log :=
  chars.foldl (emitLogChar logBufLen) ⟨fun _ => 0, 0, 0, 0, 0⟩

/-- The characters are copied in reverse; `left` of them are to go, to the front of `buf`. -/
def copyLoop (s : Log) : Nat → Nat → (Nat → UInt8) → Nat × (Nat → UInt8)
  | 0, i, buf => (i, buf)
  | left + 1, i, buf =>
    let j := s.logEnd - 1 - BitVec.ofNat 32 i
    if j + logBufLen < s.logEnd then (i, buf)
    else copyLoop s left (i + 1) (update buf left (s.logBuf (cell logBufLen j)))

/-- `do_syslog(3, buf, len)`: what it returns, and the buffer. -/
def doSyslog (s : Log) (buf : Nat → UInt8) (len : Nat) : Nat × (Nat → UInt8) :=
  let count := min (min len logBufLen.toNat) s.loggedChars
  let (error, buf) := copyLoop logBufLen s count 0 buf
  if error ≠ count then
    (error, (List.range error).foldl (fun b i => update b i (b (i + (count - error)))) buf)
  else (error, buf)

end

variable {logBufLen : BitVec 32} {k : Nat}

/-- With room below the end of the index space the loop copies everything. -/
theorem copyLoop_eq {s : Log} (hroom : s.logEnd.toNat + logBufLen.toNat ≤ 2 ^ 32) (left i : Nat)
    (buf : Nat → UInt8) (hi : i + left ≤ logBufLen.toNat) :
    copyLoop logBufLen s left i buf = (i + left, fun n => if n < left then
      s.logBuf (cell logBufLen (s.logEnd - BitVec.ofNat 32 (i + left - n))) else buf n) := by
  induction left generalizing i buf with
  | zero => simp [copyLoop]
  | succ left ih =>
    have hgo : ¬ s.logEnd - 1 - BitVec.ofNat 32 i + logBufLen < s.logEnd := by bv_omega
    have hnext : i + 1 + left = i + (left + 1) := by omega
    rw [copyLoop, if_neg hgo, ih (i + 1) _ (by omega), hnext]
    congr 1
    funext n
    by_cases hn : n = left
    · have hj : s.logEnd - 1 - BitVec.ofNat 32 i = s.logEnd - BitVec.ofNat 32 (i + 1) := by bv_omega
      rw [hj]
      simp [hn, ← hnext]
    · rw [update_of_ne hn]
      exact if_congr (by omega) rfl rfl

section

variable (hlen : logBufLen.toNat = 2 ^ k) (chars : List UInt8)
include hlen

theorem cell_ofNat (n : Nat) : cell logBufLen (BitVec.ofNat 32 n) = n % 2 ^ k := by
  have hlt := logBufLen.isLt
  rw [hlen, Nat.pow_lt_pow_iff_right (by decide)] at hlt
  have hmask : (logBufLen - 1).toNat = 2 ^ k - 1 := by
    have := Nat.two_pow_pos k
    bv_omega
  rw [cell, BitVec.toNat_and, hmask, Nat.and_two_pow_sub_one_eq_mod, BitVec.toNat_ofNat,
    Nat.mod_mod_of_dvd _ (Nat.pow_dvd_pow 2 (Nat.le_of_lt hlt))]

/-- The counter runs on, and the buffer holds the last characters. -/
theorem emitted_spec : (emitted logBufLen chars).logEnd = BitVec.ofNat 32 chars.length ∧
    (emitted logBufLen chars).loggedChars = min chars.length (2 ^ k) ∧
    ∀ n, chars.length ≤ n + 2 ^ k → n < chars.length →
      some ((emitted logBufLen chars).logBuf (n % 2 ^ k)) = chars[n]? := by
  induction chars using reverseRecOn with
  | nil => exact ⟨rfl, by simp [emitted], by simp⟩
  | append_singleton chars c ih =>
    obtain ⟨hend, hlogged, hbuf⟩ := ih
    have hstep : emitted logBufLen (chars ++ [c]) =
        emitLogChar logBufLen (emitted logBufLen chars) c := by simp [emitted]
    rw [hstep, length_append, length_singleton]
    refine ⟨?_, ?_, fun n hlo hn => ?_⟩
    · simp [emitLogChar, hend, BitVec.ofNat_add]
    · simp only [emitLogChar, hlogged, hlen]
      split <;> omega
    · simp only [emitLogChar, hend, cell_ofNat hlen]
      obtain rfl | hlt := Nat.eq_or_lt_of_le (Nat.lt_succ_iff.mp hn)
      · simp
      · rw [update_of_ne (cell_ne hlt (by omega)).symm, hbuf n (by omega) hlt,
          getElem?_append_left hlt]

variable (buf : Nat → UInt8) (len : Nat)

/-- The last characters are returned, as long as `log_end` is not close to its end. -/
theorem doSyslog_tail (hroom : chars.length % 2 ^ 32 + 2 ^ k ≤ 2 ^ 32) :
    let r := doSyslog logBufLen (emitted logBufLen chars) buf len
    r.1 = min len (min (emitted logBufLen chars).loggedChars (2 ^ k)) ∧
      ∀ i < r.1, some (r.2 i) = chars[chars.length - r.1 + i]? := by
  obtain ⟨hend, hlogged, hbuf⟩ := emitted_spec hlen chars
  obtain ⟨count, hcount⟩ : ∃ count, count = min (min len (2 ^ k)) (min chars.length (2 ^ k)) :=
    ⟨_, rfl⟩
  have hrun := @copyLoop_eq logBufLen (emitted logBufLen chars)
    (by rwa [hend, hlen, BitVec.toNat_ofNat]) count 0 buf (by omega)
  simp only [doSyslog, hlen, hlogged, ← hcount, hrun, Nat.zero_add, ne_eq, not_true_eq_false,
    if_false]
  refine ⟨by omega, fun i hi => ?_⟩
  have hj : BitVec.ofNat 32 chars.length - BitVec.ofNat 32 (count - i) =
      BitVec.ofNat 32 (chars.length - count + i) := by bv_omega
  rw [if_pos hi, hend, hj, cell_ofNat hlen, hbuf _ (by omega) (by omega)]

/-- There `j + log_buf_len` begins anew from 0, and nothing is returned. -/
theorem doSyslog_nothing (hroom : 2 ^ 32 < chars.length % 2 ^ 32 + 2 ^ k) :
    (doSyslog logBufLen (emitted logBufLen chars) buf len).1 = 0 := by
  have hend := (emitted_spec hlen chars).1
  have hstop : (emitted logBufLen chars).logEnd - 1 - BitVec.ofNat 32 0 + logBufLen <
      (emitted logBufLen chars).logEnd := by
    rw [hend]
    bv_omega
  have hrun (left) : copyLoop logBufLen (emitted logBufLen chars) left 0 buf = (0, buf) := by
    cases left with
    | zero => rfl
    | succ left => rw [copyLoop, if_pos hstop]
  simp [doSyslog, hrun]

end

theorem doSyslog_tail_two :
    some ((doSyslog 4 (emitted 4 [65, 66, 67]) (fun _ => 0) 2).2 0) = some 66 :=
  (@doSyslog_tail 4 2 rfl [65, 66, 67] (fun _ => 0) 2 (by decide)).2 0 (by decide)

theorem doSyslog_wrapped : ∃ chars, (emitted 2 chars).loggedChars = 2 ∧
    (doSyslog 2 (emitted 2 chars) (fun _ => 0) 1).1 = 0 := by
  obtain ⟨n, hn⟩ : ∃ n, n = 2 ^ 32 - 1 := ⟨_, rfl⟩
  refine ⟨replicate n 65, ?_, @doSyslog_nothing 2 1 rfl _ _ _ ?_⟩
  · rw [(@emitted_spec 2 1 rfl _).2.1, length_replicate]
    omega
  · rw [length_replicate]
    omega


/-! ## Console output -/

/-- `ignore_loglevel`, `console_loglevel` and `default_message_loglevel`. -/
structure Levels where
  ignore : Bool
  (console default : Int)

/-- A level tag, `<0>` to `<7>`. -/
abbrev IsTag (a b c : UInt8) : Prop := a = 60 ∧ b ≥ 48 ∧ b ≤ 55 ∧ c = 62

section

variable (len : BitVec 32) (s : Log) (lv : Levels)

/-- `__call_console_drivers`: where the range for `con->write` begins, and its length. -/
def conWrite (start stop : BitVec 32) : Nat × Nat := (cell len start, (stop - start).toNat)

def _callConsoleDrivers (start stop : BitVec 32) (msgLogLevel : Int) : List (Nat × Nat) :=
  if (msgLogLevel < lv.console ∨ lv.ignore) ∧ start ≠ stop then
    if cell len start > cell len stop then
      [conWrite len (start &&& (len - 1)) len, conWrite len 0 (stop &&& (len - 1))]
    else [conWrite len start stop]
  else []

/-- The loops of `call_console_drivers`; `outer` at the head of the outer one. -/
def printLoop (stop : BitVec 32) (outer : Bool) (cur startPrint : BitVec 32) (msgLevel : Int) :
    List (Nat × Nat) × Int :=
  let c := fun i => s.logBuf (cell len i)
  if cur = stop then (_callConsoleDrivers len lv startPrint stop msgLevel, msgLevel)
  else if outer ∧ msgLevel < 0 ∧ stop - cur > 2 ∧ IsTag (c cur) (c (cur + 1)) (c (cur + 2)) then
    printLoop stop false (cur + 3) (cur + 3) ((c (cur + 1)).toNat - 48)
  else if c cur = 10 then
    let level := if msgLevel < 0 then lv.default else msgLevel
    let out := printLoop stop true (cur + 1) (cur + 1) (-1)
    (_callConsoleDrivers len lv startPrint (cur + 1) level ++ out.1, out.2)
  else printLoop stop false (cur + 1) startPrint msgLevel
termination_by (stop - cur).toNat
decreasing_by all_goals bv_omega

/-- `call_console_drivers`: the ranges, and `msg_level`. -/
def callConsoleDrivers (start stop : BitVec 32) (msgLevel : Int) :
    Option (List (Nat × Nat) × Int) :=
  if (start - stop).toInt > 0 then none
  else some (printLoop len s lv stop true start start msgLevel)

/-- The characters from `start` to `stop`. -/
def text (start stop : BitVec 32) : List UInt8 :=
  (List.range (stop - start).toNat).map fun i => s.logBuf (cell len (start + BitVec.ofNat 32 i))

/-- Without the level tags; `front` at the front of a line. -/
def untagged (front : Bool) : List UInt8 → List UInt8
  | a :: b :: c :: l =>
    if front ∧ IsTag a b c then untagged false l else a :: untagged (a = 10) (b :: c :: l)
  | l => l

/-- The ranges are in the buffer and, if no message is left out, hold the text. -/
def Prints (ranges : List (Nat × Nat)) (text : List UInt8) : Prop :=
  (∀ r ∈ ranges, r.1 + r.2 ≤ len.toNat) ∧ (lv.ignore →
    ranges.flatMap (fun r => copyOut s.logBuf r.1 r.2) = text)

end

variable {len : BitVec 32} {s : Log} {lv : Levels} {start cur stop : BitVec 32}

theorem text_self : text len s cur cur = [] := by simp [text]

theorem text_one : text len s cur (cur + 1) = [s.logBuf (cell len cur)] := by
  rw [text, (by bv_omega : (cur + 1 - cur).toNat = 1)]
  simp

section

variable (hcur : cur - start ≤ stop - start)
include hcur

theorem text_append : text len s start cur ++ text len s cur stop = text len s start stop := by
  have hsum : (stop - start).toNat = (cur - start).toNat + (stop - cur).toNat := by bv_omega
  rw [text, text, text, hsum, range_add, map_append, map_map]
  congr 2
  funext i
  have hi : cur + BitVec.ofNat 32 i = start + BitVec.ofNat 32 ((cur - start).toNat + i) := by
    bv_omega
  rw [hi]
  rfl

omit hcur in
theorem text_cons (h : cur ≠ stop) :
    text len s cur stop = s.logBuf (cell len cur) :: text len s (cur + 1) stop := by
  rw [← @text_append len s cur (cur + 1) stop (by bv_omega), text_one, singleton_append]

/-- Where there is no tag the next character belongs to the line. -/
theorem untagged_next {front : Bool} (hne : cur ≠ stop)
    (htag : ¬ (front ∧ stop - cur > 2 ∧ IsTag (s.logBuf (cell len cur))
      (s.logBuf (cell len (cur + 1))) (s.logBuf (cell len (cur + 2))))) :
    text len s start cur ++ untagged front (text len s cur stop) = text len s start (cur + 1) ++
      untagged (s.logBuf (cell len cur) = 10) (text len s (cur + 1) stop) := by
  rw [← @text_append len s start cur (cur + 1) (by bv_omega), text_one, text_cons hne, append_assoc]
  congr 1
  match hrest : text len s (cur + 1) stop with
  | [] | [_] => rfl
  | b :: c :: l =>
    have hmore : (stop - (cur + 1)).toNat = l.length + 2 := by
      have := congrArg length hrest
      rwa [text, length_map, length_range] at this
    have htwo : cur + 1 + 1 = cur + 2 := by bv_omega
    rw [text_cons (by bv_omega), htwo, text_cons (by bv_omega)] at hrest
    cases hrest
    rw [untagged, if_neg fun h => htag ⟨h.1, by bv_omega, h.2⟩]
    rfl

end

section

variable (hlen : len.toNat = 2 ^ k)
include hlen

theorem cell_add (start : BitVec 32) (n : Nat) :
    cell len (start + BitVec.ofNat 32 n) = (start.toNat + n) % len.toNat := by
  have h := cell_ofNat hlen (start.toNat + n)
  rwa [BitVec.ofNat_add, BitVec.ofNat_toNat, BitVec.setWidth_eq, ← hlen] at h

/-- The text is in one piece or two. -/
theorem text_eq (hle : stop - start ≤ len) : text len s start stop =
    ringGet len.toNat s.logBuf start.toNat (stop - start).toNat := by
  have hpos : 0 < len.toNat := hlen ▸ Nat.two_pow_pos k
  refine ext_getElem? fun i => ?_
  rcases Nat.lt_or_ge i (stop - start).toNat with hi | hi
  · rw [getElem?_ringGet hpos hle hi, text, getElem?_map, getElem?_range hi,
      Option.map_some, cell_add hlen]
  · rw [getElem?_eq_none (by simpa [text] using hi), getElem?_eq_none]
    rwa [length_ringGet]

variable (hfit : stop - start < len ∨ stop - start = len ∧ cell len start = 0)
include hfit

theorem line_prints (level : Int) :
    Prints len s lv (_callConsoleDrivers len lv start stop level) (text len s start stop) := by
  have hpos : 0 < len.toNat := hlen ▸ Nat.two_pow_pos k
  have hstart : cell len start = start.toNat % len.toNat := by simpa using cell_add hlen start 0
  have hlt := Nat.mod_lt start.toNat hpos
  rw [text_eq hlen (by bv_omega), ringGet]
  unfold _callConsoleDrivers
  generalize hn : (stop - start).toNat = n
  have hstop : cell len stop = if start.toNat % len.toNat + n < len.toNat then
      start.toNat % len.toNat + n else start.toNat % len.toNat + n - len.toNat := by
    rw [(by bv_omega : stop = start + BitVec.ofNat 32 n), cell_add hlen]
    rcases hfit with h | ⟨h, hzero⟩
    · exact cell_eq hpos (by bv_omega)
    · rw [← hn, h, Nat.add_mod_right, ← hstart, hzero]
      simp
  have hle : n < len.toNat ∨ n = len.toNat ∧ cell len start = 0 := by bv_omega
  rw [← hstart] at hstop hlt ⊢
  split_ifs with hgo hwrap
  · have hfirst : conWrite len (start &&& (len - 1)) len =
        (cell len start, len.toNat - cell len start) := by
      unfold conWrite cell at *
      rw [BitVec.and_assoc, BitVec.and_self, BitVec.toNat_sub_of_le (by bv_omega)]
    have hrest : conWrite len 0 (stop &&& (len - 1)) = (0, cell len stop) := by
      simp [conWrite, cell]
    have hpiece : n - (len.toNat - cell len start) = cell len stop := by grind
    rw [hfirst, hrest, Nat.min_eq_right (by grind), hpiece]
    exact ⟨by simp; omega, by simp⟩
  · have hone : cell len start + n ≤ len.toNat := by grind
    rw [conWrite, hn, Nat.min_eq_left (by omega), Nat.sub_self]
    exact ⟨by simpa using hone, by simp [copyOut]⟩
  · refine ⟨by simp, fun hi => ?_⟩
    have heq : start = stop := by grind
    rw [heq, BitVec.sub_self] at hn
    simp [← hn, copyOut]

theorem printLoop_prints {outer : Bool} {msgLevel : Int} (houter : outer → start = cur)
    (hcur : cur - start ≤ stop - start) :
    Prints len s lv (printLoop len s lv stop outer cur start msgLevel).1
      (text len s start cur ++ untagged (outer ∧ msgLevel < 0) (text len s cur stop)) := by
  fun_induction printLoop len s lv stop outer cur start msgLevel with
  | case1 outer start msgLevel =>
    rw [text_self, untagged, append_nil]
    · exact line_prints hlen hfit msgLevel
    · simp
  | case2 outer cur start msgLevel c hne htag ih =>
    obtain ⟨rfl, hmsg, hmore, htag⟩ := htag
    obtain rfl := houter rfl
    have htwo : start + 1 + 1 = start + 2 := by bv_omega
    have hthree : start + 2 + 1 = start + 3 := by bv_omega
    have h := ih (by bv_omega) (by simp) (by bv_omega)
    rw [text_self] at h ⊢
    rw [text_cons hne, text_cons (by bv_omega), htwo, text_cons (by bv_omega), hthree, untagged,
      if_pos ⟨by simpa using hmsg, htag⟩]
    simpa using h
  | case3 outer cur start msgLevel c hne htag hnl level out ih =>
    have h := ih (by bv_omega) (by simp) (by bv_omega)
    have hline := @line_prints k len s lv start (cur + 1) hlen (by bv_omega) level
    rw [untagged_next hcur hne (by grind), decide_eq_true hnl]
    refine ⟨by grind [Prints], fun hi => ?_⟩
    rw [flatMap_append, hline.2 hi, h.2 hi, text_self]
    rfl
  | case4 outer cur start msgLevel c hne htag hnl ih =>
    have h := ih hfit (by simp) (by bv_omega)
    rw [untagged_next hcur hne (by grind), decide_eq_false hnl]
    simpa using h

end

end LinuxKernel.Kernel.Printk
