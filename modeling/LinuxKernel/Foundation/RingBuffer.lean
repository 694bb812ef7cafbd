/-
  A stream kept in a buffer that is used over and over.

  Element `n` of the stream is in cell `n % size`.  A piece of the stream is copied to or
  from the buffer in two parts, the second from the beginning of the buffer on.
-/
import Mathlib

namespace LinuxKernel.Foundation

open List

variable {α : Type} {buffer : Nat → α} {size n i j : Nat} {data : List α}

/-- Copy into the buffer, from cell `off` on. -/
def copyIn (buffer : Nat → α) (off : Nat) (data : List α) (i : Nat) : α :=
  if off ≤ i then (data[i - off]?).getD (buffer i) else buffer i

/-- Copy out of the buffer, from cell `off` on. -/
def copyOut (buffer : Nat → α) (off len : Nat) : List α :=
  (List.range len).map fun i => buffer (off + i)

theorem copyIn_self {off : Nat} (hj : j < data.length) : copyIn buffer off data (off + j) = data[j] := by
  rw [copyIn, if_pos (Nat.le_add_right _ _), Nat.add_sub_cancel_left, getElem?_eq_getElem hj]
  rfl

theorem copyIn_other {off : Nat} (h : i < off ∨ off + data.length ≤ i) :
    copyIn buffer off data i = buffer i := by
  unfold copyIn
  split
  · rw [getElem?_eq_none (by omega)]
    rfl
  · rfl

/-- Put a piece of the stream into the buffer that begins at position `n`. -/
def ringPut (size : Nat) (buffer : Nat → α) (n : Nat) (data : List α) : Nat → α :=
  let l := min data.length (size - n % size)
  copyIn (copyIn buffer (n % size) (data.take l)) 0 (data.drop l)

/-- Get a piece of the stream from the buffer that begins at position `n`. -/
def ringGet (size : Nat) (buffer : Nat → α) (n len : Nat) : List α :=
  let l := min len (size - n % size)
  copyOut buffer (n % size) l ++ copyOut buffer 0 (len - l)

/-- The cell of an element `j` after position `n`: before or behind the end of the buffer. -/
theorem cell_eq (hsize : 0 < size) (hj : j < size) :
    (n + j) % size = if n % size + j < size then n % size + j else n % size + j - size := by
  have hlt := Nat.mod_lt n hsize
  rw [← Nat.mod_add_mod]
  split
  · rename_i h
    exact Nat.mod_eq_of_lt h
  · rw [Nat.mod_eq_sub_mod (by omega), Nat.mod_eq_of_lt (by omega)]

/-- Two positions less than one turn apart have different cells. -/
theorem cell_ne (h : i < n) (h' : n < i + size) : n % size ≠ i % size := by
  intro heq
  have hdvd : size ∣ n - i := (Nat.modEq_iff_dvd' (Nat.le_of_lt h)).mp heq.symm
  have := Nat.le_of_dvd (by omega) hdvd
  omega

theorem ringPut_self (hsize : 0 < size) (hlen : data.length ≤ size) (hj : j < data.length) :
    ringPut size buffer n data ((n + j) % size) = data[j] := by
  have hlt := Nat.mod_lt n hsize
  rw [cell_eq hsize (by omega), ringPut]
  split
  · -- in the first part, and not overwritten by the second
    rw [copyIn_other (by rw [length_drop]; omega), copyIn_self (by rw [length_take]; omega),
      getElem_take]
  · have hback : n % size + j - size = 0 + (j - min data.length (size - n % size)) := by omega
    rw [hback, copyIn_self (by rw [length_drop]; omega), getElem_drop]
    congr 1
    omega

theorem ringPut_other (hsize : 0 < size) (hi : i < n) (hi' : n + data.length ≤ i + size) :
    ringPut size buffer n data (i % size) = buffer (i % size) := by
  have hlt := Nat.mod_lt n hsize
  have hne (j) (hj : j < data.length) : (n + j) % size ≠ i % size := cell_ne (by omega) (by omega)
  rw [ringPut]
  rw [copyIn_other, copyIn_other]
  · rw [length_take]
    by_contra h
    have hcell' := hne (i % size - n % size) (by omega)
    rw [cell_eq hsize (by omega), if_pos (by omega)] at hcell'
    omega
  · rw [length_drop]
    by_contra h
    have hcell' := hne (i % size + size - n % size) (by omega)
    rw [cell_eq hsize (by omega), if_neg (by omega)] at hcell'
    omega

theorem length_ringGet (size : Nat) (buffer : Nat → α) (n len : Nat) :
    (ringGet size buffer n len).length = len := by
  rw [ringGet]
  rw [length_append, copyOut, copyOut, length_map, length_map, length_range, length_range]
  omega

theorem getElem?_ringGet {len : Nat} (hsize : 0 < size) (hlen : len ≤ size) (hj : j < len) :
    (ringGet size buffer n len)[j]? = some (buffer ((n + j) % size)) := by
  have hlt := Nat.mod_lt n hsize
  rw [cell_eq hsize (by omega), ringGet]
  rw [getElem?_append, copyOut, copyOut, length_map, length_range]
  split
  · rename_i h
    rw [getElem?_map, getElem?_range h, if_pos (by omega)]
    rfl
  · rw [getElem?_map, getElem?_range (by omega), if_neg (by omega), Option.map_some]
    congr 2
    omega

end LinuxKernel.Foundation
