/-
  A byte queue with free-running indices.

  Source: kernel/kfifo.c, `kfifo_init`, `__kfifo_put`, `__kfifo_get`.

  One producer and one consumer may use the queue at the same time.  `put` and `get` are
  split where their barriers are: the other side's index is read and the bytes are
  copied, and then the own index is published.
-/
import LinuxKernel.Foundation.RingBuffer
import LinuxKernel.Foundation.Run

namespace LinuxKernel.Kernel.Kfifo

open Foundation List

/-! ## The code -/

section

structure Fifo where
  buffer : Nat → UInt8
  size : Nat
  in_ : Nat
  out : Nat

/-- `kfifo_init` -/
def kfifoInit (buffer : Nat → UInt8) (size : Nat) : Fifo := ⟨buffer, size, 0, 0⟩

/-- `__kfifo_put` before `smp_wmb`: the new contents, and the length that is put -/
def putCopy (fifo : Fifo) (buffer : List UInt8) : Fifo × Nat :=
  let len := min buffer.length ((fifo.size + (2 ^ 32 - fifo.in_) + fifo.out) % 2 ^ 32)
  let l := min len (fifo.size - (fifo.in_ &&& (fifo.size - 1)))
  let contents := copyIn fifo.buffer (fifo.in_ &&& (fifo.size - 1)) (buffer.take l)
  ({ fifo with buffer := copyIn contents 0 ((buffer.drop l).take (len - l)) }, len)

/-- `fifo->in += len;` -/
def putPublish (fifo : Fifo) (len : Nat) : Fifo := { fifo with in_ := (fifo.in_ + len) % 2 ^ 32 }

/-- `__kfifo_put` -/
def kfifoPut (fifo : Fifo) (buffer : List UInt8) : Fifo × Nat :=
  let (fifo, len) := putCopy fifo buffer
  (putPublish fifo len, len)

/-- `__kfifo_get` before the last barrier: the bytes that it copies -/
def getCopy (fifo : Fifo) (len : Nat) : List UInt8 :=
  let len := min len ((fifo.in_ + (2 ^ 32 - fifo.out)) % 2 ^ 32)
  let l := min len (fifo.size - (fifo.out &&& (fifo.size - 1)))
  copyOut fifo.buffer (fifo.out &&& (fifo.size - 1)) l ++ copyOut fifo.buffer 0 (len - l)

/-- `fifo->out += len;` -/
def getPublish (fifo : Fifo) (len : Nat) : Fifo := { fifo with out := (fifo.out + len) % 2 ^ 32 }

/-- `__kfifo_get` -/
def kfifoGet (fifo : Fifo) (len : Nat) : Fifo × List UInt8 :=
  let data := getCopy fifo len
  (getPublish fifo data.length, data)

end

/-! ## One producer and one consumer -/

section

/-- A `put` or a `get` that has copied its bytes and has not published its index yet. -/
structure System where
  fifo : Fifo
  putting : Option (List UInt8)
  getting : Option (List UInt8)

inductive Call where
  | put (buffer : List UInt8)
  | get (len : Nat)
  | putCopy (buffer : List UInt8)
  | putPublish
  | getCopy (len : Nat)
  | getPublish

inductive Event where
  | accepted (data : List UInt8)
  | delivered (data : List UInt8)

/-- Each side does one thing after the other. -/
def step (s : System) : Call → Option (System × List Event)
  | .put buffer =>
    if s.putting.isSome then none
    else
      let (fifo, len) := kfifoPut s.fifo buffer
      some ({ s with fifo := fifo }, [.accepted (buffer.take len)])
  | .get len =>
    if s.getting.isSome then none
    else
      let (fifo, data) := kfifoGet s.fifo len
      some ({ s with fifo := fifo }, [.delivered data])
  | .putCopy buffer =>
    if s.putting.isSome then none
    else
      let (fifo, len) := Kfifo.putCopy s.fifo buffer
      some ({ s with fifo := fifo, putting := some (buffer.take len) }, [])
  | .putPublish =>
    match s.putting with
    | none => none
    | some data =>
      some ({ s with fifo := Kfifo.putPublish s.fifo data.length, putting := none },
        [.accepted data])
  | .getCopy len =>
    if s.getting.isSome then none
    else some ({ s with getting := some (Kfifo.getCopy s.fifo len) }, [])
  | .getPublish =>
    match s.getting with
    | none => none
    | some data =>
      some ({ s with fifo := Kfifo.getPublish s.fifo data.length, getting := none },
        [.delivered data])

/-- The bytes that were accepted, in order. -/
def accepted : List Event → List UInt8
  | [] => []
  | .accepted data :: events => data ++ accepted events
  | .delivered _ :: events => accepted events

/-- The bytes that were delivered, in order. -/
def delivered : List Event → List UInt8
  | [] => []
  | .accepted _ :: events => delivered events
  | .delivered data :: events => data ++ delivered events

theorem accepted_append (events new : List Event) :
    accepted (events ++ new) = accepted events ++ accepted new := by
  induction events with
  | nil => rfl
  | cons event events ih => cases event <;> simp [accepted, ih]

theorem delivered_append (events new : List Event) :
    delivered (events ++ new) = delivered events ++ delivered new := by
  induction events with
  | nil => rfl
  | cons event events ih => cases event <;> simp [delivered, ih]

end

/-! ## The queue in the buffer -/

variable {p : List UInt8}

section

variable {fifo : Fifo} {a d : List UInt8} {k : Nat}

/-- The bytes `a` have been put and `d` have been taken out again. -/
structure Holds (k : Nat) (fifo : Fifo) (a d : List UInt8) : Prop where
  size : fifo.size = 2 ^ k
  in_eq : fifo.in_ = a.length % 2 ^ 32
  out_eq : fifo.out = d.length % 2 ^ 32
  taken : d <+: a
  room : a.length ≤ d.length + 2 ^ k
  cells : ∀ i, d.length ≤ i → i < a.length → a[i]? = some (fifo.buffer (i % 2 ^ k))

/-- The bytes in the queue. -/
theorem Holds.queued (h : Holds k fifo a d) (hk : k ≤ 31) :
    (fifo.in_ + (2 ^ 32 - fifo.out)) % 2 ^ 32 = a.length - d.length := by
  have hpow : 2 ^ k ≤ 2 ^ 31 := Nat.pow_le_pow_right (by omega) hk
  have hle := h.taken.length_le
  have hroom := h.room
  rw [h.in_eq, h.out_eq]
  omega

theorem Holds.space (h : Holds k fifo a d) (hk : k ≤ 31) :
    (fifo.size + (2 ^ 32 - fifo.in_) + fifo.out) % 2 ^ 32 = 2 ^ k - (a.length - d.length) := by
  have hpow : 2 ^ k ≤ 2 ^ 31 := Nat.pow_le_pow_right (by omega) hk
  have hle := h.taken.length_le
  have hroom := h.room
  rw [h.size, h.in_eq, h.out_eq]
  omega

theorem mask_eq (n : Nat) (hk : k ≤ 31) : n % 2 ^ 32 &&& (2 ^ k - 1) = n % 2 ^ k := by
  rw [Nat.and_two_pow_sub_one_eq_mod]
  exact Nat.mod_mod_of_dvd n (Nat.pow_dvd_pow 2 (by omega))

section

variable (h : Holds k fifo a d)
include h

/-- What `put` copies, and where. -/
theorem Holds.putCopy (hk : k ≤ 31) (buffer : List UInt8) : putCopy fifo buffer =
      (⟨ringPut (2 ^ k) fifo.buffer a.length
          (buffer.take (min buffer.length (2 ^ k - (a.length - d.length)))),
        fifo.size, fifo.in_, fifo.out⟩,
      min buffer.length (2 ^ k - (a.length - d.length))) := by
  unfold Kfifo.putCopy
  rw [h.space hk, h.size, h.in_eq, mask_eq _ hk]
  rw [ringPut, length_take, Nat.min_eq_left (Nat.min_le_left _ _), take_take, drop_take,
    Nat.min_eq_left (Nat.min_le_left _ _)]

theorem Holds.getCopy (hk : k ≤ 31) (len : Nat) :
    getCopy fifo len = ringGet (2 ^ k) fifo.buffer d.length (min len (a.length - d.length)) := by
  unfold Kfifo.getCopy
  rw [h.queued hk, h.size, h.out_eq, mask_eq _ hk]
  rfl

/-- Bytes that are in the buffer behind those that have been put. -/
structure Copied (k : Nat) (fifo : Fifo) (a d p : List UInt8) : Prop where
  room : a.length + p.length ≤ d.length + 2 ^ k
  cells : ∀ j, j < p.length → p[j]? = some (fifo.buffer ((a.length + j) % 2 ^ k))

theorem Holds.copied (hp : p.length ≤ 2 ^ k - (a.length - d.length)) :
    Holds k { fifo with buffer := ringPut (2 ^ k) fifo.buffer a.length p } a d ∧
      Copied k { fifo with buffer := ringPut (2 ^ k) fifo.buffer a.length p } a d p := by
  have hpos : 0 < 2 ^ k := Nat.two_pow_pos k
  have hroom := h.room
  refine ⟨⟨h.size, h.in_eq, h.out_eq, h.taken, h.room, fun i hi hia => ?_⟩, by omega, fun j hj => ?_⟩
  · dsimp only
    rw [ringPut_other hpos hia (by omega)]
    exact h.cells i hi hia
  · dsimp only
    rw [ringPut_self hpos (by omega) hj, getElem?_eq_getElem hj]

theorem Holds.published (hp : Copied k fifo a d p) :
    Holds k (putPublish fifo p.length) (a ++ p) d := by
  refine ⟨h.size, ?_, h.out_eq, h.taken.trans (prefix_append a p), ?_, fun i hi hia => ?_⟩
  · rw [length_append, putPublish]
    rw [h.in_eq, Nat.mod_add_mod]
  · rw [length_append]
    exact hp.room
  · by_cases hlt : i < a.length
    · rw [getElem?_append_left hlt]
      exact h.cells i hi hlt
    · rw [length_append] at hia
      rw [getElem?_append_right (by omega), hp.cells _ (by omega),
        show a.length + (i - a.length) = i by omega]
      rfl

/-- What `get` copies are the next bytes of the queue. -/
theorem Holds.ringGet_eq {n : Nat} (hn : n ≤ a.length - d.length) :
    ringGet (2 ^ k) fifo.buffer d.length n = (a.drop d.length).take n := by
  have hroom := h.room
  refine ext_getElem? fun j => ?_
  by_cases hj : j < n
  · rw [getElem?_ringGet (Nat.two_pow_pos k) (by omega) hj, getElem?_take_of_lt hj,
      getElem?_drop, h.cells _ (by omega) (by omega)]
  · rw [getElem?_eq_none (by rw [length_ringGet]; omega),
      getElem?_eq_none (by rw [length_take]; omega)]

theorem Holds.taken_more {c : List UInt8} (hc : d ++ c <+: a) :
    Holds k (getPublish fifo c.length) a (d ++ c) := by
  have hroom := h.room
  refine ⟨h.size, h.in_eq, ?_, hc, ?_, fun i hi hia => ?_⟩
  · rw [length_append, getPublish]
    rw [h.out_eq, Nat.mod_add_mod]
  · rw [length_append]
    omega
  · rw [length_append] at hi
    exact h.cells i (by omega) hia

end

theorem prefix_append_take (h : d <+: a) (n : Nat) : d ++ (a.drop d.length).take n <+: a := by
  obtain ⟨rest, rfl⟩ := h
  rw [drop_left]
  exact (prefix_append_right_inj d).mpr ( take_prefix n rest)

end

/-! ## Runs -/

section

variable {k : Nat} {s s' : System} {a d : List UInt8}

/-- Both sides at any point. -/
structure Consistent (k : Nat) (s : System) (a d : List UInt8) : Prop where
  holds : Holds k s.fifo a d
  putting : ∀ p, s.putting = some p → Copied k s.fifo a d p
  getting : ∀ c, s.getting = some c → d ++ c <+: a

/-- The index that a `put` publishes does not concern a `get` that is under way. -/
theorem Consistent.put_published {fifo : Fifo} (h : Consistent k s a d)
    (hholds : Holds k fifo a d) (hp : Copied k fifo a d p) :
    Consistent k { s with fifo := putPublish fifo p.length, putting := none } (a ++ p) d :=
  ⟨hholds.published hp, (fun _ hq => by cases hq),
    fun c hc => (h.getting c hc).trans (prefix_append a p)⟩

/-- The index that a `get` publishes leaves more room to a `put` that is under way. -/
theorem Consistent.get_published {c : List UInt8} (h : Consistent k s a d) (hc : d ++ c <+: a) :
    Consistent k { s with fifo := getPublish s.fifo c.length, getting := none } a (d ++ c) := by
  refine ⟨h.holds.taken_more hc, fun p hp => ?_, fun _ hq => by cases hq⟩
  have hcopied := h.putting p hp
  have hroom := hcopied.room
  exact ⟨by rw [length_append]; omega, hcopied.cells⟩

/-- What one call does to the bytes put and taken. -/
theorem Consistent.step {call : Call} {new : List Event} (hk : k ≤ 31) (h : Consistent k s a d)
    (hstep : step s call = some (s', new)) :
    Consistent k s' (a ++ accepted new) (d ++ delivered new) := by
  have hput (buffer : List UInt8) :
      (buffer.take (min buffer.length (2 ^ k - (a.length - d.length)))).length ≤
        2 ^ k - (a.length - d.length) := by
    rw [length_take]
    omega
  have hnone {x : Option (List UInt8)} (hx : ¬ x.isSome = true) : x = none := by
    rwa [Option.not_isSome_iff_eq_none] at hx
  cases call with
  | put buffer =>
    simp only [Kfifo.step] at hstep
    split at hstep
    · cases hstep
    rename_i hidle
    have hcopy := h.holds.copied (hput buffer)
    rw [kfifoPut, h.holds.putCopy hk buffer] at hstep
    cases hstep
    have hdone := h.put_published hcopy.1 hcopy.2
    rw [length_take, Nat.min_eq_left (Nat.min_le_left _ _), ← hnone hidle] at hdone
    simpa only [accepted, delivered, append_nil] using hdone
  | get len =>
    simp only [Kfifo.step] at hstep
    split at hstep
    · cases hstep
    rename_i hidle
    have hget := h.holds.getCopy hk len
    rw [h.holds.ringGet_eq (Nat.min_le_right _ _)] at hget
    cases hstep
    have hdone := h.get_published (prefix_append_take h.holds.taken (min len (a.length - d.length)))
    rw [← hget, ← hnone hidle] at hdone
    simpa only [kfifoGet, accepted, delivered, append_nil] using hdone
  | putCopy buffer =>
    simp only [Kfifo.step] at hstep
    split at hstep
    · cases hstep
    have hcopy := h.holds.copied (hput buffer)
    rw [h.holds.putCopy hk buffer] at hstep
    cases hstep
    simp only [accepted, delivered, append_nil]
    exact ⟨hcopy.1, fun p hp => Option.some.inj hp ▸ hcopy.2, h.getting⟩
  | putPublish =>
    simp only [Kfifo.step] at hstep
    cases hp : s.putting with
    | none => simp only [hp] at hstep; cases hstep
    | some p =>
      simp only [hp] at hstep
      cases hstep
      simpa only [accepted, delivered, append_nil] using h.put_published h.holds (h.putting p hp)
  | getCopy len =>
    simp only [Kfifo.step] at hstep
    split at hstep
    · cases hstep
    cases hstep
    simp only [accepted, delivered, append_nil]
    refine ⟨h.holds, h.putting, fun c hc => ?_⟩
    rw [← Option.some.inj hc, h.holds.getCopy hk len, h.holds.ringGet_eq (Nat.min_le_right _ _)]
    exact prefix_append_take h.holds.taken _
  | getPublish =>
    simp only [Kfifo.step] at hstep
    cases hc : s.getting with
    | none => simp only [hc] at hstep; cases hstep
    | some c =>
      simp only [hc] at hstep
      cases hstep
      simpa only [accepted, delivered, append_nil] using h.get_published (h.getting c hc)

theorem run_consistent (hk : k ≤ 31) (buffer : Nat → UInt8) {events : List Event}
    (hrun : Run step ⟨kfifoInit buffer (2 ^ k), none, none⟩ events s) :
    Consistent k s (accepted events) (delivered events) := by
  refine hrun.invariant ?_ ?_
  · refine ⟨⟨rfl, rfl, rfl, prefix_rfl, by simp [accepted], fun i _ hi => ?_⟩,
      (fun _ hp => by cases hp), (fun _ hc => by cases hc)⟩
    simp [accepted] at hi
  · intro s1 s2 evs new call h hstep
    rw [accepted_append, delivered_append]
    exact h.step hk hstep

/-- The fifo is a byte queue of capacity `size`: whatever the two sides do and however long,
what was delivered is a prefix of what was accepted, `put` accepts what there is room for,
and `get` delivers what is queued. -/
theorem kfifo_refines_queue (hk : k ≤ 31) (buffer : Nat → UInt8) {events : List Event}
    (hrun : Run step ⟨kfifoInit buffer (2 ^ k), none, none⟩ events s) :
    delivered events <+: accepted events ∧
      (accepted events).length - (delivered events).length ≤ 2 ^ k ∧
      (∀ data, (kfifoPut s.fifo data).2 = min data.length
          (2 ^ k - ((accepted events).length - (delivered events).length)) ∧
        (putCopy s.fifo data).2 = (kfifoPut s.fifo data).2) ∧
      ∀ len, (kfifoGet s.fifo len).2 = ((accepted events).drop (delivered events).length).take
          (min len ((accepted events).length - (delivered events).length)) ∧
        getCopy s.fifo len = (kfifoGet s.fifo len).2 := by
  have h := (run_consistent hk buffer hrun).holds
  have hroom := h.room
  refine ⟨h.taken, Nat.sub_le_iff_le_add'.mpr hroom, fun data => ⟨?_, rfl⟩, fun len => ⟨?_, rfl⟩⟩
  · rw [kfifoPut, h.putCopy hk data]
  · rw [kfifoGet, h.getCopy hk len, h.ringGet_eq (Nat.min_le_right _ _)]

/-- A queue of two bytes that is filled while a `get` is under way. -/
theorem kfifo_refines_queue_two :
    ∃ s, Run step ⟨kfifoInit (fun _ => 0) (2 ^ 1), none, none⟩
        [.accepted [1, 2], .accepted [], .delivered [1], .accepted [3]] s ∧
      (kfifoPut s.fifo [4]).2 = 0 ∧ (kfifoGet s.fifo 5).2 = [2, 3] := by
  have hrun : Run step ⟨kfifoInit (fun _ => 0) (2 ^ 1), none, none⟩
      [.accepted [1, 2], .accepted [], .delivered [1], .accepted [3]] _ :=
    Run.of_calls [.put [1, 2], .getCopy 1, .put [9], .getPublish, .put [3, 4]] rfl
  obtain ⟨-, -, hput, hget⟩ := kfifo_refines_queue (by decide) _ hrun
  exact ⟨_, hrun, (hput [4]).1, (hget 5).1⟩

end

end LinuxKernel.Kernel.Kfifo
