/-
  The window that TCP offers.

  Source: net/ipv4/tcp_output.c, `tcp_select_window`, `__tcp_select_window`; include/net/tcp.h,
  `tcp_receive_window`.

  Sequence numbers are counted without wrapping around.  A division by zero has no result.  The
  prediction flags and the quick acknowledgments are left out.
-/
import LinuxKernel.Foundation.Run

namespace LinuxKernel.Net.TcpSelectWindow

open Foundation

/-- `struct tcp_sock`, with `rcv_wscale` and `sysctl_tcp_workaround_signed_windows`, which do not
change. -/
structure TcpSock where
  (rcvNxt rcvWup rcvWnd rcvWscale : Nat)
  workaround : Bool

/-- What a call finds: `tcp_space`, `tcp_full_space`, and the fields that change in between. -/
structure Space where
  (freeSpace fullSpace : Int)
  (windowClamp rcvSsthresh rcvMss advmss : Nat)
  memoryPressure : Bool

/-- `tcp_receive_window` -/
def tcpReceiveWindow (tp : TcpSock) : Nat := tp.rcvWup + tp.rcvWnd - tp.rcvNxt

/-- `__tcp_select_window` -/
def rawWindow (tp : TcpSock) (e : Space) : Option Int :=
  let full := min (e.windowClamp : Int) e.fullSpace
  let mss := min (e.rcvMss : Int) full
  let tight := e.freeSpace < full.tdiv 2
  if tight ∧ e.freeSpace < mss then some 0
  else
    let ssthresh : Int :=
      if tight ∧ e.memoryPressure then min e.rcvSsthresh (4 * e.advmss) else e.rcvSsthresh
    -- the comparison is unsigned
    let free := if e.freeSpace < 0 ∨ ssthresh < e.freeSpace then ssthresh else e.freeSpace
    let window : Int := tp.rcvWnd
    if tp.rcvWscale ≠ 0 then
      let scale := 2 ^ tp.rcvWscale
      if free / scale * scale ≠ free then some ((free / scale + 1) * scale) else some free
    else if window ≤ free - mss ∨ free < window then
      if mss = 0 then none else some (free.tdiv mss * mss)
    else if mss = full ∧ window + full.tdiv 2 < free then some free
    else some window

/-- The largest window that is advertised. -/
def TcpSock.limit (tp : TcpSock) : Nat :=
  if tp.rcvWscale = 0 ∧ tp.workaround then 32767 else 65535 * 2 ^ tp.rcvWscale

/-- `tcp_select_window` -/
def tcpSelectWindow (tp : TcpSock) (e : Space) : Option (TcpSock × Nat) := do
  let raw ← rawWindow tp e
  let newWin := max (raw % 2 ^ 32).toNat (tcpReceiveWindow tp)
  let tp := { tp with rcvWnd := newWin, rcvWup := tp.rcvNxt }
  return (tp, min newWin tp.limit / 2 ^ tp.rcvWscale)

inductive Call where
  | receive (n : Nat)
  | select (e : Space)

/-- Bytes are received inside the offered window.  The event of a selection is the right edge that
it advertises. -/
def step (tp : TcpSock) : Call → Option (TcpSock × List Nat)
  | .receive n =>
    if n ≤ tcpReceiveWindow tp then some ({ tp with rcvNxt := tp.rcvNxt + n }, []) else none
  | .select e => do
    let (tp, win) ← tcpSelectWindow tp e
    return (tp, [tp.rcvNxt + win * 2 ^ tp.rcvWscale])

/-- The window is that of an `int`, and its value in the header is exact: it can be scaled, or is
beyond the limit. -/
def Allowed (tp : TcpSock) : Call → Prop
  | .receive _ => True
  | .select e => ∀ tp' ∈ tcpSelectWindow tp e, tp'.1.rcvWnd < 2 ^ 31 ∧
    (tp.limit ≤ tp'.1.rcvWnd ∨ 2 ^ tp.rcvWscale ∣ tp'.1.rcvWnd)

variable {tp tp' : TcpSock} {edges : List Nat}

/-- The edges that were advertised so far are in order, and not beyond what can be advertised. -/
def Kept (edges : List Nat) (tp : TcpSock) : Prop :=
  edges.Pairwise (· ≤ ·) ∧
    ∀ edge ∈ edges, edge ≤ tp.rcvNxt + min (tcpReceiveWindow tp) tp.limit

theorem pow_dvd_limit (tp : TcpSock) : 2 ^ tp.rcvWscale ∣ tp.limit := by
  unfold TcpSock.limit
  split
  · rename_i h
    simp [h.1]
  · exact Nat.dvd_mul_left ..

theorem Kept.select {e : Space} {win : Nat} (h : Kept edges tp) (hal : Allowed tp (.select e))
    (hselect : tcpSelectWindow tp e = some (tp', win)) :
    Kept (edges ++ [tp'.rcvNxt + win * 2 ^ tp'.rcvWscale]) tp' := by
  obtain ⟨-, hdvd⟩ := hal _ hselect
  obtain ⟨raw, -, heq⟩ := Option.bind_eq_some_iff.mp hselect
  cases heq
  dsimp only at hdvd ⊢
  generalize hnew : max (raw % 2 ^ 32).toNat (tcpReceiveWindow tp) = new at *
  have hmin : 2 ^ tp.rcvWscale ∣ min new tp.limit := by
    rcases Nat.le_total tp.limit new with hle | hle
    · rw [Nat.min_eq_right hle]
      exact pow_dvd_limit tp
    · rw [Nat.min_eq_left hle]
      exact hdvd.elim (fun h' => Nat.le_antisymm hle h' ▸ pow_dvd_limit tp) id
  -- the new edge, and the bound of all of them
  have hedge : tp.rcvNxt + min new tp.limit / 2 ^ tp.rcvWscale * 2 ^ tp.rcvWscale =
      tp.rcvNxt + min new tp.limit := by
    rw [Nat.div_mul_cancel hmin]
  have hafter : tcpReceiveWindow { tp with rcvWnd := new, rcvWup := tp.rcvNxt } = new :=
    Nat.add_sub_cancel_left ..
  have hold (edge) (hmem : edge ∈ edges) : edge ≤ tp.rcvNxt + min new tp.limit := by
    have := h.2 edge hmem
    omega
  change Kept (edges ++ [tp.rcvNxt + min new tp.limit / 2 ^ tp.rcvWscale * 2 ^ tp.rcvWscale]) _
  rw [hedge]
  refine ⟨List.pairwise_append.mpr ⟨h.1, List.pairwise_singleton .., by simpa using hold⟩, ?_⟩
  rw [hafter]
  exact List.forall_mem_append.mpr ⟨hold, List.forall_mem_singleton.mpr (Nat.le_refl _)⟩

theorem Kept.step {new : List Nat} {call : Call} (h : Kept edges tp) (hal : Allowed tp call)
    (hstep : TcpSelectWindow.step tp call = some (tp', new)) : Kept (edges ++ new) tp' := by
  cases call with
  | receive n =>
    obtain ⟨hn, heq⟩ := Option.ite_none_right_eq_some.mp hstep
    cases heq
    rw [List.append_nil]
    refine ⟨h.1, fun edge hmem => Nat.le_trans (h.2 edge hmem) ?_⟩
    change _ ≤ tp.rcvNxt + n + min (tp.rcvWup + tp.rcvWnd - (tp.rcvNxt + n)) tp.limit
    unfold tcpReceiveWindow at *
    omega
  | select e =>
    obtain ⟨⟨tp', win⟩, hselect, heq⟩ := Option.bind_eq_some_iff.mp hstep
    cases heq
    exact h.select hal hselect

/-- Space for `n` bytes in a buffer of 10. -/
def space (n : Int) : Space := ⟨n, 10, 131070, 100, 1, 1, false⟩

/-- With a scale of 1. -/
def opened : TcpSock := ⟨0, 0, 0, 1, false⟩

end LinuxKernel.Net.TcpSelectWindow
