/-
  The anti-replay window of IPsec.

  Source: net/xfrm/xfrm_state.c, `xfrm_replay_check`, `xfrm_replay_advance`.

  A packet is checked and, if it passes, recorded.  Sequence numbers are numbers below 2^32,
  and no difference of them wraps.  A shift of a word by 32 or more is undefined in C and has
  no result here.  Statistics and the notification of the key manager are left out.
-/
import LinuxKernel.Foundation.Run

namespace LinuxKernel.Net.XfrmReplay

open Foundation

/-- `struct xfrm_replay_state`, for received packets. -/
structure XfrmReplayState where
  seq : Nat
  bitmap : BitVec 32

/-- `x << n` -/
def shl (x : BitVec 32) (n : Nat) : Option (BitVec 32) := if n < 32 then some (x <<< n) else none

/-- `xfrm_replay_check` with `replay_window` `w`: whether it returns 0. -/
def xfrmReplayCheck (w : Nat) (x : XfrmReplayState) (seq : Nat) : Option Bool :=
  if seq = 0 then some false
  else if seq > x.seq then some true
  else if x.seq - seq ≥ min w 32 then some false
  else (shl 1 (x.seq - seq)).map fun bit => decide (x.bitmap &&& bit = 0)

/-- `xfrm_replay_advance` -/
def xfrmReplayAdvance (w : Nat) (x : XfrmReplayState) (seq : Nat) : Option XfrmReplayState :=
  if seq > x.seq then
    if seq - x.seq < w then (shl x.bitmap (seq - x.seq)).map fun b => ⟨seq, b ||| 1⟩
    else some ⟨seq, 1⟩
  else (shl 1 (x.seq - seq)).map fun bit => { x with bitmap := x.bitmap ||| bit }

/-- A packet comes in; the event is its sequence number, if it is accepted. -/
def step (w : Nat) (x : XfrmReplayState) (seq : Nat) : Option (XfrmReplayState × List Nat) := do
  if ← xfrmReplayCheck w x seq then return (← xfrmReplayAdvance w x seq, [seq])
  else return (x, [])

/-- The packet does not jump ahead by 32 or more within a wider window. -/
def Allowed (w : Nat) (x : XfrmReplayState) (seq : Nat) : Prop :=
  seq < x.seq + 32 ∨ x.seq + w ≤ seq

/-- The packet is new and inside the window. -/
def Fresh (w : Nat) (accepted : List Nat) (x : XfrmReplayState) (seq : Nat) : Prop :=
  seq ≠ 0 ∧ seq ∉ accepted ∧ x.seq < seq + min w 32

/-- `seq` is the highest of the accepted numbers, and the bitmap tells which of those next
below it were accepted. -/
structure Window (w : Nat) (accepted : List Nat) (x : XfrmReplayState) : Prop where
  nodup : accepted.Nodup
  ne_zero : 0 ∉ accepted
  le_seq : ∀ a ∈ accepted, a ≤ x.seq
  seq_mem : x.seq ∈ accepted ∨ accepted = [] ∧ x.seq = 0
  bits : ∀ i < min w 32, x.bitmap.getLsbD i = true ↔ ∃ a ∈ accepted, a + i = x.seq

variable {w seq : Nat} {accepted : List Nat} {x y : XfrmReplayState}

theorem and_bit_eq_zero (b : BitVec 32) {n : Nat} (hn : n < 32) :
    b &&& (1 : BitVec 32) <<< n = 0 ↔ b.getLsbD n = false := by
  rw [show (1 : BitVec 32) <<< n = BitVec.twoPow 32 n from rfl, BitVec.and_twoPow]
  cases hbit : b.getLsbD n with
  | false => simp
  | true =>
    simp only [Bool.true_eq_false, iff_false]
    intro hzero
    have := congrArg (BitVec.getLsbD · n) hzero
    simp [hn] at this

section

variable (h : Window w accepted x)
include h

theorem Window.fresh_of_gt (hgt : x.seq < seq) : Fresh w accepted x seq :=
  ⟨by omega, fun hmem => by have := h.le_seq seq hmem; omega, by omega⟩

/-- A packet passes the check exactly if it is new and inside the window. -/
theorem Window.check (seq : Nat) :
    ∃ ok, xfrmReplayCheck w x seq = some ok ∧ (ok = true ↔ Fresh w accepted x seq) := by
  unfold xfrmReplayCheck
  split
  · next hzero => exact ⟨false, rfl, by simp [Fresh, hzero]⟩
  split
  · next hgt => exact ⟨true, rfl, by simp [h.fresh_of_gt hgt]⟩
  split
  · refine ⟨false, rfl, by simp, fun hf => ?_⟩
    have := hf.2.2
    omega
  next hzero hgt hold =>
  rw [shl, if_pos (by omega)]
  refine ⟨_, rfl, ?_⟩
  rw [decide_eq_true_iff, and_bit_eq_zero _ (by omega), Bool.eq_false_iff, Ne, h.bits _ (by omega)]
  refine ⟨fun hclear => ⟨hzero, fun hmem => hclear ⟨seq, hmem, by omega⟩, by omega⟩, ?_⟩
  rintro ⟨-, hnew, -⟩ ⟨a, ha, heq⟩
  obtain rfl : a = seq := by omega
  exact hnew ha

/-- A number is added; the highest one is `y.seq` then. -/
theorem Window.record (hf : Fresh w accepted x seq) (htop : y.seq = max seq x.seq)
    (hbits : ∀ i < min w 32, y.bitmap.getLsbD i = true ↔
      (∃ a ∈ accepted, a + i = y.seq) ∨ seq + i = y.seq) : Window w (accepted ++ [seq]) y where
  nodup := by
    refine List.nodup_append.mpr ⟨h.nodup, by simp, fun a ha b hb hab => hf.2.1 ?_⟩
    rwa [← List.mem_singleton.mp hb, ← hab]
  ne_zero := by simpa using ⟨h.ne_zero, hf.1.symm⟩
  le_seq := by
    intro a ha
    rcases List.mem_append.mp ha with ha | ha
    · have := h.le_seq a ha
      omega
    · rw [List.mem_singleton.mp ha]
      omega
  seq_mem := by
    have := hf.1
    rcases Nat.lt_or_ge x.seq seq with hlt | hle
    · simp [show y.seq = seq by omega]
    · have hmem := h.seq_mem.resolve_right (by omega)
      simp [show y.seq = x.seq by omega, hmem]
  bits := by
    intro i hi
    rw [hbits i hi]
    simp [or_and_right, exists_or]

/-- An accepted packet is recorded, and the window is moved up to it if it is ahead. -/
theorem Window.advance (hf : Fresh w accepted x seq) (hal : Allowed w x seq) :
    ∃ y, xfrmReplayAdvance w x seq = some y ∧ Window w (accepted ++ [seq]) y := by
  have hwin := hf.2.2
  have hone : ∀ i, (1 : BitVec 32).getLsbD i = true ↔ seq + i = seq := by simp
  unfold xfrmReplayAdvance
  split
  · -- a number accepted before is at least `seq - x.seq` behind the new one
    have hold : ∀ i, (∃ a ∈ accepted, a + i = seq) → seq - x.seq ≤ i := by
      rintro i ⟨a, ha, heq⟩
      have := h.le_seq a ha
      omega
    split
    · have hshift : seq - x.seq < 32 := by rcases hal with hal | hal <;> omega
      rw [shl, if_pos hshift]
      refine ⟨_, rfl, h.record hf (by dsimp only; omega) fun i hi => ?_⟩
      rw [BitVec.getLsbD_or, Bool.or_eq_true, hone, BitVec.getLsbD_shiftLeft]
      refine or_congr_left ?_
      by_cases hback : i < seq - x.seq
      · simpa [hback] using fun a ha heq => absurd (hold i ⟨a, ha, heq⟩) (by omega)
      simp only [show i < 32 by omega, hback, decide_true, decide_false, Bool.not_false,
        Bool.true_and]
      rw [h.bits _ (by omega)]
      exact exists_congr fun a => and_congr_right fun _ => by omega
    · refine ⟨_, rfl, h.record hf (by dsimp only; omega) fun i hi => ?_⟩
      refine (hone i).trans (or_iff_right fun hex => ?_).symm
      have := hold i hex
      omega
  · rw [shl, if_pos (by omega)]
    refine ⟨_, rfl, h.record hf (by dsimp only; omega) fun i hi => ?_⟩
    rw [BitVec.getLsbD_or, Bool.or_eq_true, h.bits i hi]
    refine or_congr_right ?_
    simp
    omega

end

/-- A jump ahead within a window wider than the bitmap needs a shift that is undefined. -/
theorem step_of_not_allowed (hal : ¬ Allowed w x seq) : step w x seq = none := by
  unfold Allowed at hal
  have hadv : xfrmReplayAdvance w x seq = none := by
    rw [xfrmReplayAdvance, if_pos (by omega), if_pos (by omega), shl, if_neg (by omega)]
    rfl
  rw [step, xfrmReplayCheck, if_neg (by omega), if_pos (by omega)]
  simp [hadv]

theorem Window.step (h : Window w accepted x) (hal : Allowed w x seq) : ∃ y new,
    XfrmReplay.step w x seq = some (y, new) ∧ Window w (accepted ++ new) y ∧
    (new = [seq] ∧ Fresh w accepted x seq ∨ new = [] ∧ ¬ Fresh w accepted x seq) := by
  obtain ⟨ok, hcheck, hok⟩ := h.check seq
  cases ok with
  | true =>
    have hf := hok.mp rfl
    obtain ⟨y, hadv, hy⟩ := h.advance hf hal
    exact ⟨y, [seq], by simp [XfrmReplay.step, hcheck, hadv], hy, .inl ⟨rfl, hf⟩⟩
  | false =>
    exact ⟨x, [], by simp [XfrmReplay.step, hcheck], by simpa using h, .inr ⟨rfl, by simpa using hok⟩⟩

/-- For every window `w`, after every sequence of packets none of which jumps ahead by 32 or
more but less than `w`, the state is that of the accepted numbers.  The next packet is
accepted exactly if it is `Fresh`; an undefined shift is met exactly if it makes such a jump. -/
theorem replay_window_exact (h : RunWith (Allowed w) (step w) ⟨0, 0⟩ accepted x) :
    Window w accepted x ∧ ∀ seq,
      (Allowed w x seq → ∃ y new, step w x seq = some (y, new) ∧
        (new = [seq] ∧ Fresh w accepted x seq ∨ new = [] ∧ ¬ Fresh w accepted x seq)) ∧
      (¬ Allowed w x seq → step w x seq = none) := by
  have hwin : Window w accepted x := by
    refine h.invariant ⟨by simp, by simp, by simp, by simp, by simp⟩ ?_
    intro t u evs new seq ht hal hstep
    obtain ⟨y, new', heq, hy, -⟩ := ht.step hal
    rw [heq] at hstep
    cases hstep
    exact hy
  refine ⟨hwin, fun seq => ⟨fun hal => ?_, step_of_not_allowed⟩⟩
  obtain ⟨y, new, heq, -, hnew⟩ := hwin.step hal
  exact ⟨y, new, heq, hnew⟩

/-- With a window of 64, the packet 1. -/
theorem replay_window_exact_one : ∃ x, RunWith (Allowed 64) (step 64) ⟨0, 0⟩ [1] x ∧
    Window 64 [1] x := by
  have hrun : RunWith (Allowed 64) (step 64) ⟨0, 0⟩ [1] ⟨1, 1⟩ :=
    .tail 1 (.refl _) (Or.inl (by decide)) rfl
  exact ⟨_, hrun, (replay_window_exact hrun).1⟩

/-- With a window of 64, the packet 41 after the packet 1 makes `bitmap << 40`. -/
theorem replay_shift_undefined : Run (step 64) ⟨0, 0⟩ [1] ⟨1, 1⟩ ∧
    xfrmReplayCheck 64 ⟨1, 1⟩ 41 = some true ∧ xfrmReplayAdvance 64 ⟨1, 1⟩ 41 = none :=
  ⟨.single 1 rfl, rfl, rfl⟩

end LinuxKernel.Net.XfrmReplay
