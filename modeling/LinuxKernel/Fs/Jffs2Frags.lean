/-
  Lists of fragments as maps from bytes to data nodes.

  `cutTo e` keeps the bytes below `e` and `cutFrom e` those from `e` on.  Writing a
  node puts it between the two, and truncating is `cutTo`.
-/
import LinuxKernel.Fs.Jffs2
import LinuxKernel.Foundation.Intervals

namespace LinuxKernel.Fs.Jffs2

open Foundation List

variable {N : Type} {vs ws : List (NodeFrag N)} {f : NodeFrag N} {x e : Nat} {v : Option N}
  {lo hi : Int} {new : NodeFrag N} {ps rs : List (NodeFrag N)}

namespace NodeFrag

def start (f : NodeFrag N) : Int := f.ofs

def stop (f : NodeFrag N) : Int := f.ofs + f.size

/-- The byte is in the fragment. -/
def Has (f : NodeFrag N) (x : Nat) : Prop := f.ofs ≤ x ∧ x < f.ofs + f.size

end NodeFrag

open NodeFrag

/-- The fragments cover `[lo, hi)`, one after the other, and none is empty. -/
abbrev Covers (lo hi : Int) (vs : List (NodeFrag N)) : Prop := Tiles start stop lo hi vs

/-- The byte belongs to the node, or to a hole. -/
def MapsTo (vs : List (NodeFrag N)) (x : Nat) (v : Option N) : Prop :=
  ∃ f ∈ vs, f.Has x ∧ f.node = v

theorem mapsTo_nil : ¬ MapsTo ([] : List (NodeFrag N)) x v := by
  rintro ⟨f, hf, -⟩
  exact absurd hf not_mem_nil

theorem mapsTo_cons : MapsTo (f :: vs) x v ↔ f.Has x ∧ f.node = v ∨ MapsTo vs x v := by
  simp [MapsTo]

theorem mapsTo_append : MapsTo (vs ++ ws) x v ↔ MapsTo vs x v ∨ MapsTo ws x v := by
  simp only [MapsTo, mem_append, or_and_right, exists_or]

theorem Covers.size_pos (h : Covers lo hi vs) (hf : f ∈ vs) : 0 < f.size := by
  have := (h.ordered.bounds f hf).2.1
  simp only [start, stop] at this
  omega

/-- Exactly the bytes of the range are mapped. -/
theorem Covers.mapsTo_bounds (h : Covers lo hi vs) (hx : MapsTo vs x v) :
    lo ≤ x ∧ (x : Int) < hi := by
  obtain ⟨f, hf, hhas, -⟩ := hx
  obtain ⟨h1, -, h2⟩ := h.ordered.bounds f hf
  simp only [start, stop, Has] at h1 h2 hhas
  omega

/-! ## Cutting -/

/-- The part of a fragment below `e`. -/
def cutFragTo (e : Nat) (f : NodeFrag N) : Option (NodeFrag N) :=
  if f.ofs < e then some { f with size := min f.size (e - f.ofs) } else none

/-- The part of a fragment from `e` on. -/
def cutFragFrom (e : Nat) (f : NodeFrag N) : Option (NodeFrag N) :=
  if e < f.ofs + f.size then
    if f.ofs < e then some { f with size := f.ofs + f.size - e, ofs := e } else some f
  else none

def cutTo (e : Nat) (vs : List (NodeFrag N)) : List (NodeFrag N) := vs.filterMap (cutFragTo e)

def cutFrom (e : Nat) (vs : List (NodeFrag N)) : List (NodeFrag N) := vs.filterMap (cutFragFrom e)

theorem cutTo_append : cutTo e (vs ++ ws) = cutTo e vs ++ cutTo e ws := filterMap_append

theorem cutFrom_append : cutFrom e (vs ++ ws) = cutFrom e vs ++ cutFrom e ws := filterMap_append

theorem cutTo_cons : cutTo e (f :: vs) = (cutFragTo e f).toList ++ cutTo e vs := by
  rw [cutTo, filterMap_cons]
  cases cutFragTo e f <;> rfl

theorem cutFrom_cons : cutFrom e (f :: vs) = (cutFragFrom e f).toList ++ cutFrom e vs := by
  rw [cutFrom, filterMap_cons]
  cases cutFragFrom e f <;> rfl

theorem mapsTo_cutTo : MapsTo (cutTo e vs) x v ↔ x < e ∧ MapsTo vs x v := by
  simp only [MapsTo, cutTo, mem_filterMap, cutFragTo]
  constructor
  · rintro ⟨f, ⟨g, hg, hcut⟩, hhas, hnode⟩
    split at hcut
    · cases hcut
      simp only [Has] at hhas
      exact ⟨by omega, g, hg, by simp only [Has]; omega, hnode⟩
    · cases hcut
  · rintro ⟨hx, f, hf, hhas, hnode⟩
    simp only [Has] at hhas
    refine ⟨_, ⟨f, hf, if_pos (by omega)⟩, ?_, hnode⟩
    simp only [Has]
    omega

theorem mapsTo_cutFrom : MapsTo (cutFrom e vs) x v ↔ e ≤ x ∧ MapsTo vs x v := by
  simp only [MapsTo, cutFrom, mem_filterMap, cutFragFrom]
  constructor
  · rintro ⟨f, ⟨g, hg, hcut⟩, hhas, hnode⟩
    split at hcut
    · split at hcut <;>
      · cases hcut
        simp only [Has] at hhas
        exact ⟨by omega, _, hg, by simp only [Has]; omega, hnode⟩
    · cases hcut
  · rintro ⟨hx, f, hf, hhas, hnode⟩
    simp only [Has] at hhas
    by_cases hlt : f.ofs < e
    · refine ⟨{ f with size := f.ofs + f.size - e, ofs := e }, ⟨f, hf, ?_⟩, ?_, hnode⟩
      · rw [if_pos (by omega), if_pos hlt]
      · simp only [Has]
        omega
    · refine ⟨f, ⟨f, hf, ?_⟩, hhas, hnode⟩
      rw [if_pos (by omega), if_neg hlt]

section

variable (h : Covers lo hi vs)
include h

theorem cutTo_of_stop_le (he : hi ≤ e) : cutTo e vs = vs := by
  refine (filterMap_congr fun f hf => ?_).trans filterMap_some
  obtain ⟨-, h1, h2⟩ := h.ordered.bounds f hf
  simp only [start, stop] at h1 h2
  have hsize : min f.size (e - f.ofs) = f.size := by omega
  rw [cutFragTo, if_pos (by omega), hsize]

theorem cutTo_of_le_start (he : e ≤ lo) : cutTo e vs = [] := by
  rw [cutTo, filterMap_eq_nil_iff]
  intro f hf
  have h1 := (h.ordered.bounds f hf).1
  simp only [start] at h1
  rw [cutFragTo, if_neg (by omega)]

theorem cutFrom_of_stop_le (he : hi ≤ e) : cutFrom e vs = [] := by
  rw [cutFrom, filterMap_eq_nil_iff]
  intro f hf
  obtain ⟨-, -, h2⟩ := h.ordered.bounds f hf
  simp only [stop] at h2
  rw [cutFragFrom, if_neg (by omega)]

theorem cutFrom_of_le_start (he : e ≤ lo) : cutFrom e vs = vs := by
  refine (filterMap_congr fun f hf => ?_).trans filterMap_some
  obtain ⟨h1, h2, -⟩ := h.ordered.bounds f hf
  simp only [start, stop] at h1 h2
  rw [cutFragFrom, if_pos (by omega), if_neg (by omega)]

end

/-- A list, seen from the fragment that contains a byte. -/
theorem Covers.split (h : Covers lo hi (ps ++ f :: rs)) :
    Covers lo f.ofs ps ∧ 0 < f.size ∧ Covers (f.ofs + f.size) hi rs := by
  obtain ⟨mid, h1, h2, h3, h4⟩ := tiles_append.mp h
  simp only [start, stop] at h2 h3 h4
  subst h2
  exact ⟨h1, by omega, h4⟩

theorem Covers.cons (hsize : 0 < f.size) (h : Covers (f.ofs + f.size) hi vs) :
    Covers f.ofs hi (f :: vs) := by
  refine ⟨rfl, ?_, h⟩
  simp only [start, stop]
  omega

theorem covers_cutTo {vs : List (NodeFrag N)} {lo : Int} (h : Covers lo hi vs) (hlo : lo ≤ e) :
    Covers lo (min hi e) (cutTo e vs) := by
  induction vs generalizing lo with
  | nil =>
    have heq : lo = hi := h
    show lo = min hi e
    omega
  | cons f vs ih =>
    obtain ⟨h1, h2, h3⟩ := h
    simp only [start, stop] at h1 h2 h3
    have hle := Ordered.le (Tiles.ordered h3)
    by_cases hstop : f.ofs + f.size ≤ e
    · have hsame : cutFragTo e f = some f := by
        have hsize : min f.size (e - f.ofs) = f.size := by omega
        rw [cutFragTo, if_pos (by omega), hsize]
      rw [cutTo_cons, hsame]
      refine ⟨h1, h2, ih h3 ?_⟩
      show (f.ofs : Int) + f.size ≤ e
      omega
    · have hrest : cutTo e vs = [] := cutTo_of_le_start h3 (by omega)
      rw [cutTo_cons, hrest, cutFragTo]
      by_cases hofs : f.ofs < e
      · rw [if_pos hofs]
        refine ⟨h1, ?_, ?_⟩
        · simp only [start, stop]
          omega
        · show (f.ofs : Int) + ((min f.size (e - f.ofs) : Nat) : Int) = min hi e
          omega
      · rw [if_neg hofs]
        show lo = min hi e
        omega

theorem covers_cutFrom {vs : List (NodeFrag N)} {lo : Int} (h : Covers lo hi vs) (he : e ≤ hi) :
    Covers (max lo e) hi (cutFrom e vs) := by
  induction vs generalizing lo he with
  | nil =>
    have heq : lo = hi := h
    show max lo e = hi
    omega
  | cons f vs ih =>
    obtain ⟨h1, h2, h3⟩ := h
    simp only [start] at h1
    have ih' := ih h3 he
    simp only [stop] at ih'
    rw [cutFrom_cons, cutFragFrom]
    by_cases hstop : e < f.ofs + f.size
    · have hmax : max ((f.ofs : Int) + f.size) e = f.ofs + f.size := by omega
      rw [hmax] at ih'
      rw [if_pos hstop]
      by_cases hofs : f.ofs < e
      · rw [if_pos hofs]
        refine ⟨by simp only [start]; omega, by simp only [start, stop]; omega, ?_⟩
        have hstop' : (e : Int) + ((f.ofs + f.size - e : Nat) : Int) = f.ofs + f.size := by omega
        simp only [stop, hstop']
        exact ih'
      · rw [if_neg hofs]
        exact ⟨by simp only [start]; omega, h2, ih'⟩
    · have hmax : max ((f.ofs : Int) + f.size) e = max lo e := by omega
      rw [hmax] at ih'
      rw [if_neg hstop]
      exact ih'

/-! ## Writing a node -/

/-- The hole in front of a node that starts behind the end. -/
def pad (hi ofs : Nat) : List (NodeFrag N) := if hi < ofs then [⟨none, ofs - hi, hi⟩] else []

/-- The fragments when a new one has been written. -/
def overwrite (hi : Nat) (vs : List (NodeFrag N)) (new : NodeFrag N) : List (NodeFrag N) :=
  cutTo new.ofs vs ++ pad hi new.ofs ++ new :: cutFrom (new.ofs + new.size) vs

theorem covers_overwrite {hi : Nat} (h : Covers 0 hi vs) (hsize : 0 < new.size) :
    Covers 0 (max hi (new.ofs + new.size) : Nat) (overwrite hi vs new) := by
  have hto := covers_cutTo (e := new.ofs) h (Int.natCast_nonneg _)
  have hpad : Covers (min (hi : Int) new.ofs) new.ofs (pad hi new.ofs : List (NodeFrag N)) := by
    unfold pad
    split
    · refine ⟨?_, ?_, ?_⟩ <;> simp only [start, stop, Tiles] <;> omega
    · show min (hi : Int) new.ofs = new.ofs
      omega
  have hfrom : Covers (new.ofs + new.size) (max hi (new.ofs + new.size) : Nat)
      (cutFrom (new.ofs + new.size) vs) := by
    by_cases hle : new.ofs + new.size ≤ hi
    · have := covers_cutFrom (e := new.ofs + new.size) h (by omega)
      have hmax' : max hi (new.ofs + new.size) = hi := by omega
      rw [hmax']
      exact this
    · rw [cutFrom_of_stop_le h (by omega)]
      show (new.ofs : Int) + new.size = _
      omega
  exact tiles_append.mpr ⟨_, tiles_append.mpr ⟨_, hto, hpad⟩, Covers.cons hsize hfrom⟩

/-- Last writer wins. -/
theorem mapsTo_overwrite {hi : Nat} (h : Covers 0 hi vs) : MapsTo (overwrite hi vs new) x v ↔
      if new.ofs ≤ x ∧ x < new.ofs + new.size then v = new.node
      else if hi ≤ x ∧ x < new.ofs then v = none
      else MapsTo vs x v := by
  have hpad : MapsTo (pad hi new.ofs) x v ↔ (hi ≤ x ∧ x < new.ofs) ∧ v = none := by
    unfold pad
    split
    · rw [mapsTo_cons]
      simp only [Has, mapsTo_nil, or_false, eq_comm]
      refine and_congr_left fun _ => ?_
      omega
    · simp only [mapsTo_nil, false_iff]
      omega
  rw [overwrite, mapsTo_append, mapsTo_append, mapsTo_cons, mapsTo_cutTo, mapsTo_cutFrom, hpad]
  simp only [eq_comm]
  split
  · rename_i hin
    constructor
    · rintro ((⟨hlt, -⟩ | ⟨hlt, -⟩) | ⟨-, hv⟩ | ⟨hle, -⟩)
      · omega
      · omega
      · exact hv
      · omega
    · intro hv
      exact .inr (.inl ⟨hin, hv⟩)
  · rename_i hout
    split
    · rename_i hgap
      constructor
      · rintro ((⟨-, hm⟩ | ⟨-, hv⟩) | ⟨hin, -⟩ | ⟨hle, -⟩)
        · have := (h.mapsTo_bounds hm).2
          omega
        · exact hv
        · exact absurd hin hout
        · omega
      · intro hv
        exact .inl (.inr ⟨hgap, hv⟩)
    · rename_i hgap
      constructor
      · rintro ((⟨-, hm⟩ | ⟨hin, -⟩) | ⟨hin, -⟩ | ⟨-, hm⟩)
        · exact hm
        · exact absurd hin hgap
        · exact absurd hin hout
        · exact hm
      · intro hm
        by_cases hx : x < new.ofs
        · exact .inl (.inl ⟨hx, hm⟩)
        · exact .inr (.inr ⟨by omega, hm⟩)

/-- What is in front of a byte, seen from the fragment that contains it. -/
theorem cutTo_split (h : Covers lo hi (ps ++ f :: rs)) (hofs : f.ofs ≤ e)
    (hin : e < f.ofs + f.size) : cutTo e (ps ++ f :: rs) =
      ps ++ if f.ofs < e then [{ f with size := e - f.ofs }] else [] := by
  obtain ⟨hps, hsize, hrs⟩ := h.split
  have hrest := cutTo_of_le_start (e := e) hrs (by omega)
  rw [cutTo_append, cutTo_of_stop_le hps (by omega), cutTo_cons, hrest, cutFragTo]
  by_cases hlt : f.ofs < e
  · have hmin : min f.size (e - f.ofs) = e - f.ofs := by omega
    rw [if_pos hlt, if_pos hlt, hmin]
    rfl
  · rw [if_neg hlt, if_neg hlt]
    rfl

/-- What is written, seen from the fragment in which the new one starts. -/
theorem overwrite_eq {hi : Nat} (h : Covers 0 hi (ps ++ f :: rs)) (hofs : f.ofs ≤ new.ofs)
    (hin : new.ofs < f.ofs + f.size) : overwrite hi (ps ++ f :: rs) new =
      ps ++ (if f.ofs < new.ofs then [{ f with size := new.ofs - f.ofs }] else []) ++
        new :: ((cutFragFrom (new.ofs + new.size) f).toList ++ cutFrom (new.ofs + new.size) rs) := by
  obtain ⟨hps, hsize, hrs⟩ := h.split
  have hle := Ordered.le (Tiles.ordered hrs)
  have hfrom : cutFrom (new.ofs + new.size) (ps ++ f :: rs) =
      (cutFragFrom (new.ofs + new.size) f).toList ++ cutFrom (new.ofs + new.size) rs := by
    rw [cutFrom_append, cutFrom_of_stop_le hps (by omega), nil_append, cutFrom_cons]
  have hpad : (pad hi new.ofs : List (NodeFrag N)) = [] := by rw [pad, if_neg (by omega)]
  rw [overwrite, cutTo_split h hofs hin, hfrom, hpad, append_nil]

/-- Behind the end there is nothing to cut. -/
theorem overwrite_behind {hi : Nat} (h : Covers 0 hi vs) (hofs : hi ≤ new.ofs) :
    overwrite hi vs new = vs ++ pad hi new.ofs ++ [new] := by
  rw [overwrite, cutTo_of_stop_le h (by omega), cutFrom_of_stop_le h (by omega)]

/-! ## Counting -/

variable [DecidableEq N] {n : N}

/-- How many fragments refer to a node. -/
def countOf (n : N) (vs : List (NodeFrag N)) : Nat := vs.countP fun f => decide (f.node = some n)

theorem countOf_nil : countOf n [] = 0 := rfl

theorem countOf_cons : countOf n (f :: vs) = countOf n vs + if f.node = some n then 1 else 0 := by
  simp [countOf, countP_cons]

theorem countOf_append : countOf n (vs ++ ws) = countOf n vs + countOf n ws := countP_append

/-- A node with fragments has bytes. -/
theorem countOf_pos (h : Covers lo hi vs) : 0 < countOf n vs ↔ ∃ x, MapsTo vs x (some n) := by
  rw [countOf, countP_pos_iff]
  constructor
  · rintro ⟨f, hf, hnode⟩
    have hsize := h.size_pos hf
    exact ⟨f.ofs, f, hf, by simp only [Has]; omega, by simpa using hnode⟩
  · rintro ⟨x, f, hf, -, hnode⟩
    exact ⟨f, hf, by simpa using hnode⟩

end LinuxKernel.Fs.Jffs2
