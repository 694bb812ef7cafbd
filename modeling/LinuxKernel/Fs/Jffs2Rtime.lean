/-
  The rtime compressor of jffs2.

  Source: fs/jffs2/compr_rtime.c, `jffs2_rtime_compress`, `jffs2_rtime_decompress`.

  Both functions write their output in order, so it is the list of the bytes written so far.
  `pos` and `outpos` are naturals: no buffer reaches 2 GiB.
-/
import Mathlib

namespace LinuxKernel.Fs.Jffs2Rtime

open Function

/-- A position as `short positions[256]` keeps it. -/
def short (n : Nat) : Int := (n + 32768) % 65536 - 32768

theorem short_eq {n : Nat} (h : n ≤ 4096) : short n = n := by
  unfold short
  omega

section Compress

-- The input is memory, readable at any offset: a wrapped position points before the buffer.
variable (dataIn : Int → UInt8) (sourcelen dstlen : BitVec 32)

/-- The bytes from `pos` that repeat those from `backpos`, at most `left` of them. -/
def runFrom : Nat → Nat → Int → Nat
  | 0, _, _ => 0
  | left + 1, pos, backpos =>
    if backpos < pos ∧ pos < sourcelen.toNat ∧ dataIn pos = dataIn backpos then
      runFrom left (pos + 1) (backpos + 1) + 1
    else 0

def compressLoop (positions : UInt8 → Int) (pos : Nat) (out : List UInt8) : Nat × List UInt8 :=
  if pos < sourcelen.toNat ∧ out.length ≤ (dstlen - 2).toNat then
    let value := dataIn pos
    let runlen := runFrom dataIn sourcelen 255 (pos + 1) (positions value)
    compressLoop (update positions value (short (pos + 1))) (pos + 1 + runlen)
      (out ++ [value, .ofNat runlen])
  else (pos, out)
termination_by sourcelen.toNat - pos

/-- What was written to `cpage_out`, with the new `*sourcelen` and `*dstlen` unless it failed. -/
def jffs2RtimeCompress : List UInt8 × Option (Nat × Nat) :=
  let (pos, out) := compressLoop dataIn sourcelen dstlen (fun _ => 0) 0 []
  (out, if out.length ≥ pos then none else some (pos, out.length))

variable {dataIn sourcelen dstlen}

theorem compressLoop_fits (h : 2 ≤ dstlen.toNat) {positions : UInt8 → Int} {pos : Nat}
    {out : List UInt8} (hout : out.length ≤ dstlen.toNat) :
    (compressLoop dataIn sourcelen dstlen positions pos out).2.length ≤ dstlen.toNat := by
  fun_induction compressLoop with
  | case1 positions pos out hc value runlen ih =>
    apply ih
    have hroom := hc.2
    simp only [List.length_append, List.length_cons, List.length_nil]
    bv_omega
  | case2 => exact hout

end Compress

/-- The output byte at `i`, if it has been written. -/
def written (out : List UInt8) (i : Int) : Option UInt8 := if i < 0 then none else out[i.toNat]?

/-- The copy from `backoffs`; `memcpy`, where the ranges are apart, copies the same bytes. -/
def copyOut : Nat → Int → List UInt8 → Option (List UInt8)
  | 0, _, out => some out
  | n + 1, backoffs, out => do copyOut n (backoffs + 1) (out ++ [← written out backoffs])

/-- The loop of the decoder over the rest of its input; `none` is a read behind the input or of an
output byte not yet written. -/
def decompressLoop (destlen : Nat) : List UInt8 → (UInt8 → Int) → List UInt8 → Option (List UInt8)
  | value :: count :: rest, positions, out =>
    if out.length < destlen then do
      let new ← copyOut count.toNat (positions value) (out ++ [value])
      decompressLoop destlen rest (update positions value (short (out.length + 1))) new
    else some out
  | _, _, out => if out.length < destlen then none else some out

/-- The bytes written for `srclen` bytes of input. -/
def jffs2RtimeDecompress (dataIn : List UInt8) (destlen : Nat) : Option (List UInt8) :=
  decompressLoop destlen dataIn (fun _ => 0) []

/-- The first tokens of the input expand to exactly `n` bytes. -/
def Fits : List UInt8 → Nat → Prop
  | _ :: count :: rest, n => n = 0 ∨ count.toNat < n ∧ Fits rest (n - 1 - count.toNat)
  | _, n => n = 0

/-- A copy that starts among the written bytes stays among them. -/
theorem length_copyOut (n : Nat) {backoffs : Int} {out : List UInt8} (h0 : 0 ≤ backoffs)
    (h : backoffs < out.length) :
    ∃ new, copyOut n backoffs out = some new ∧ new.length = out.length + n := by
  induction n generalizing backoffs out with
  | zero => exact ⟨out, rfl, rfl⟩
  | succ n ih =>
    have hread : written out backoffs = some (out.get ⟨backoffs.toNat, by omega⟩) := by
      simp [written, Int.not_lt.mpr h0]
    obtain ⟨new, hnew, hlen⟩ := @ih (backoffs + 1) (out ++ [out.get ⟨backoffs.toNat, by omega⟩])
      (by omega) (by simpa using h)
    refine ⟨new, by simpa [copyOut, hread] using hnew, ?_⟩
    rw [hlen, List.length_append, List.length_singleton, Nat.add_assoc, Nat.add_comm 1]

section Decompress

variable {destlen : Nat} {dataIn out : List UInt8} {positions : UInt8 → Int}

theorem decompressLoop_full (h : destlen ≤ out.length) :
    decompressLoop destlen dataIn positions out = some out := by
  unfold decompressLoop
  split <;> exact if_neg (Nat.not_lt.mpr h)

theorem decompressLoop_iff (hpage : destlen ≤ 4096)
    (hpos : ∀ v, 0 ≤ positions v ∧ positions v ≤ out.length) (hout : out.length ≤ destlen) :
    (∃ new, decompressLoop destlen dataIn positions out = some new ∧ new.length ≤ destlen) ↔
      Fits dataIn (destlen - out.length) := by
  fun_induction decompressLoop with
  | case1 value count rest positions out hlt ih =>
    obtain ⟨new, hnew, hlen⟩ := @length_copyOut count.toNat _ (out ++ [value]) (hpos value).1
      (by simpa using Int.lt_add_one_of_le (hpos value).2)
    simp only [List.length_append, List.length_singleton] at hlen
    rw [hnew, Option.bind_eq_bind, Option.bind_some, Fits]
    by_cases hfit : new.length ≤ destlen
    · rw [ih new (fun v => ?_) hfit, Nat.sub_sub, Nat.sub_sub, ← Nat.add_assoc, ← hlen]
      · grind
      · rw [short_eq (by omega), update_apply]
        grind
    · rw [decompressLoop_full (by omega)]
      grind
  | case2 _ _ _ _ out hfull => grind [Fits]
  | case3 _ _ _ hshort hlt => grind [Fits]
  | case4 => grind [Fits]

-- `*dstlen - 2` wraps for a buffer of no byte, and a token is expanded whole behind the last one.

end Decompress

end LinuxKernel.Fs.Jffs2Rtime
