/-
  Adding a fragment to the tree.

  Wherever the new fragment falls, the list of fragments afterwards is the one that
  `overwrite` describes, and the reference counts of the data nodes follow.
-/
import LinuxKernel.Fs.Jffs2Tree

namespace LinuxKernel.Fs.Jffs2

open Foundation Lib.Rbtree NodeFrag Function List Option State

variable {F N : Type} [DecidableEq N] {s : State F N} {l p r : List F}
  {new this : F} {fn : N} {ws : List (NodeFrag N)} {lo hi : Int} {s' : State F N}

/-! ## Swallowing what is covered -/

section

variable [DecidableEq F]

/-- The loop over the fragments that the new one covers. -/
theorem obsoleteLoop_spec : ∀ {r : List F} {s : State F N},
    RbList s.fragtree (p ++ new :: r) → Counts s.dnode (ws ++ r.map s.frag) →
    Covers lo hi (r.map s.frag) →
    ∃ s' r1 r2, obsoleteLoop s new = some (s', r2.head?) ∧ r = r1 ++ r2 ∧
      RbList s'.fragtree (p ++ new :: r2) ∧ s'.frag = s.frag ∧
      Counts s'.dnode (ws ++ r2.map s.frag) ∧ Keeps s s' ∧
      (∀ a ∈ r1, (s.frag a).stop ≤ (s.frag new).stop) ∧
      (∀ a ∈ r2, (s.frag new).stop < (s.frag a).stop) := by
  intro r
  induction r generalizing lo with
  | nil =>
    intro s hl hcounts _
    refine ⟨s, [], [], ?_, rfl, hl, rfl, hcounts, .of_eq rfl rfl, by simp, by simp⟩
    rw [obsoleteLoop]
    simp [hl.next]
  | cons a r ih =>
    intro s hl hcounts hcovers
    have hnew : s.get new = some (s.frag new) := get_of_live (hl.live (by simp))
    have ha : s.get a = some (s.frag a) := get_of_live (hl.live (by simp))
    have hnext : rbNext s.fragtree new = some (some a) := hl.next
    obtain ⟨-, hsize, hrest⟩ := hcovers
    by_cases hend : (s.frag new).ofs + (s.frag new).size ≥ (s.frag a).ofs + (s.frag a).size
    · have hl' : RbList s.fragtree ((p ++ [new]) ++ a :: r) := by simpa using hl
      obtain ⟨h, herase, hlive, hlist⟩ := hl'.erase
      have hout : a ∉ p ++ [new] ++ r := (nodup_middle.mp hl'.nodup).notMem
      have hcounts0 : Counts s.dnode (s.frag a :: (ws ++ r.map s.frag)) := by
        refine hcounts.congr fun n => ?_
        simp only [countOf_append, countOf_cons, map_cons]
        omega
      have hkeeps0 : Keeps s { s with fragtree := h } := .of_eq rfl rfl
      obtain ⟨s1, hobs, htree, hfrag, hcounts1, hkeeps⟩ :=
        obsoleteNodeFrag_spec (s := { s with fragtree := h })
          (by rw [hlive]; exact hl.live (by simp)) hlist hout hcounts0
      have hfrag' : s1.frag = s.frag := hfrag
      rw [← hfrag'] at hrest hcounts1
      obtain ⟨s', r1, r2, hrun, rfl, htree', hfrag'', hcounts', hkeeps', h1, h2⟩ :=
        ih (by simpa using htree) hcounts1 hrest
      rw [hfrag'] at hcounts' h1 h2
      refine ⟨s', a :: r1, r2, ?_, rfl, htree', hfrag''.trans hfrag', hcounts',
        hkeeps0.trans (hkeeps.trans hkeeps'), ?_, h2⟩
      · rw [obsoleteLoop]
        simp only [hnext, bind_eq_bind, bind_some, hnew, ha, if_pos hend, herase, hobs]
        exact hrun
      · intro x hx
        rcases mem_cons.mp hx with rfl | hx
        · simp only [stop]
          omega
        · exact h1 x hx
    · refine ⟨s, [], a :: r, ?_, rfl, hl, rfl, hcounts, .of_eq rfl rfl, by simp, ?_⟩
      · rw [obsoleteLoop]
        simp [hnext, hnew, ha, hend]
      · -- the fragments behind the first one end later still
        intro x hx
        rcases mem_cons.mp hx with rfl | hx
        · simp only [stop]
          omega
        · obtain ⟨h1, h2, -⟩ := Tiles.ordered hrest |>.bounds (s.frag x) (mem_map_of_mem hx)
          simp only [stop] at h1 h2 ⊢
          omega

omit [DecidableEq N] in
theorem map_update {f : F → NodeFrag N} {a : F} (ha : a ∉ l) (v : NodeFrag N) :
    l.map (update f a v) = l.map f :=
  map_congr_left fun _ hx => update_of_ne (ne_of_mem_of_not_mem hx ha) ..

/-- The end of `jffs2_add_frag_to_fragtree`: behind the new fragment, what is left of the
old ones. -/
theorem swallow_spec (hl : RbList s.fragtree (p ++ new :: r))
    (hcounts : Counts s.dnode (ws ++ r.map s.frag)) (hfn : 0 < countOf fn ws)
    (hcovers : Covers lo hi (r.map s.frag)) (hlo : lo ≤ (s.frag new).stop) :
    ∃ s' r', swallow s new fn = some (s', .ok) ∧ RbList s'.fragtree (p ++ new :: r') ∧
      (∀ a ∈ p ++ [new], s'.frag a = s.frag a) ∧
      r'.map s'.frag = cutFrom ((s.frag new).ofs + (s.frag new).size) (r.map s.frag) ∧
      Counts s'.dnode (ws ++ r'.map s'.frag) ∧ Keeps s s' := by
  obtain ⟨s1, r1, r2, hrun, rfl, hl1, hfrag, hcounts1, hkeeps, h1, h2⟩ :=
    obsoleteLoop_spec hl hcounts hcovers
  rw [map_append] at hcovers
  obtain ⟨mid, hc1, hc2⟩ := tiles_append.mp hcovers
  -- the first part is covered
  have hcut1 : cutFrom ((s.frag new).ofs + (s.frag new).size) (r1.map s.frag) = [] := by
    rw [cutFrom, filterMap_eq_nil_iff]
    intro f hf
    obtain ⟨a, ha, rfl⟩ := mem_map.mp hf
    have := h1 a ha
    simp only [stop] at this
    rw [cutFragFrom, if_neg (by omega)]
  have hcut : cutFrom ((s.frag new).ofs + (s.frag new).size) ((r1 ++ r2).map s.frag) =
      cutFrom ((s.frag new).ofs + (s.frag new).size) (r2.map s.frag) := by
    rw [map_append, cutFrom_append, hcut1, nil_append]
  have hnew : s1.get new = some (s.frag new) := by
    rw [← hfrag]
    exact get_of_live (hl1.live (by simp))
  unfold swallow
  simp only [hrun, bind_eq_bind]
  cases r2 with
  | nil =>
    refine ⟨s1, [], by simp, hl1, fun a _ => by rw [hfrag], ?_, hcounts1, hkeeps⟩
    rw [hcut]
    rfl
  | cons a r2 =>
    have ha : s1.get a = some (s.frag a) := by
      rw [← hfrag]
      exact get_of_live (hl1.live (by simp))
    obtain ⟨hstart, hsize, hrest⟩ := hc2
    have hlast := h2 a mem_cons_self
    have hmid : mid ≤ (s.frag new).stop := by
      -- the covered part ends inside the new fragment
      have htile : mid = stopOf NodeFrag.stop lo (r1.map s.frag) := Tiles.stopOf_eq hc1
      rw [htile, stopOf_eq_getLast]
      cases hg : (r1.map s.frag).getLast? with
      | none => exact hlo
      | some f =>
        obtain ⟨b, hb, rfl⟩ := mem_map.mp (mem_of_getLast? hg)
        exact h1 b hb
    simp only [start, stop] at hstart hsize hrest hlast hmid
    have hcutRest : cutFrom ((s.frag new).ofs + (s.frag new).size) (r2.map s.frag) = r2.map s.frag :=
      cutFrom_of_le_start hrest (by omega)
    simp only [head?_cons, hnew, ha, bind_some]
    by_cases hmeet : (s.frag new).ofs + (s.frag new).size = (s.frag a).ofs
    · rw [if_pos hmeet]
      refine ⟨s1, a :: r2, rfl, hl1, fun b _ => by rw [hfrag], ?_, by rw [hfrag]; exact hcounts1,
        hkeeps⟩
      rw [hcut, hfrag, map_cons, cutFrom_cons, hcutRest, cutFragFrom, if_pos (by omega),
        if_neg (by omega)]
      rfl
    rw [if_neg hmeet]
    -- the fragment loses its beginning
    let f' : NodeFrag N := { s.frag a with
      size := ((s.frag a).ofs + (s.frag a).size) - ((s.frag new).ofs + (s.frag new).size)
      ofs := (s.frag new).ofs + (s.frag new).size }
    have hl1' : RbList s1.fragtree ((p ++ [new]) ++ a :: r2) := by simpa using hl1
    have hout : a ∉ p ++ [new] ∧ a ∉ r2 :=
      not_or.mp fun hin => (nodup_middle.mp hl1'.nodup).notMem (mem_append.mpr hin)
    have hmap : (a :: r2).map (update s1.frag a f') = f' :: r2.map s.frag := by
      rw [map_cons, update_self, map_update hout.2, hfrag]
    have hcounts2 : Counts s1.dnode (ws ++ f' :: r2.map s.frag) := by
      refine hcounts1.congr fun n => ?_
      simp only [countOf_append]
      rfl
    obtain ⟨s2, hmark2, hs2⟩ : ∃ s2, (s1.setFrag a f').markIf (s.frag a).node = some s2 ∧
        Marked (s1.setFrag a f') s2 :=
      markIf_spec fun n hn => hcounts2.live_of_mem (f := f') (by simp) hn
    obtain ⟨s3, hmark3, hs3⟩ := markRefNormal_spec (n := fn) (by
      rw [hs2.dnode]
      refine hcounts2.live ?_
      rw [countOf_append]
      omega)
    have hs := hs2.trans hs3
    refine ⟨s3, a :: r2, ?_, ?_, ?_, ?_, ?_, ?_⟩
    · change (s1.setFrag a f').markIf (s.frag a).node >>= _ = _
      simp [hmark2, hmark3]
    · rw [hs.fragtree]
      exact hl1
    · intro b hb
      rw [hs.frag]
      show update s1.frag a f' b = _
      rw [update_of_ne (ne_of_mem_of_not_mem hb hout.1), hfrag]
    · rw [hs.frag]
      show (a :: r2).map (update s1.frag a f') = _
      rw [hmap, hcut, map_cons, cutFrom_cons, hcutRest, cutFragFrom, if_pos (by omega),
        if_pos (by omega)]
      rfl
    · rw [hs.dnode, hs.frag]
      show Counts s1.dnode (ws ++ (a :: r2).map (update s1.frag a f'))
      rw [hmap]
      exact hcounts2
    · have hkeeps' : Keeps s1 (s1.setFrag a f') := .of_eq rfl rfl
      exact hkeeps.trans (hkeeps'.trans hs.keeps)

end

/-! ## Adding a fragment -/

/-- What adding a fragment has to reach: the list with these values. -/
structure Reached (s s' : State F N) (new : F) (vs : List (NodeFrag N)) (l' : List F) : Prop where
  tree : RbList s'.fragtree l'
  vals : l'.map s'.frag = vs
  counts : Counts s'.dnode vs
  keeps : Keeps s s'
  mem : new ∈ l'
  new_eq : s'.frag new = s.frag new

/-- The new fragment is written over the others. -/
abbrev Overwrites (s : State F N) (l : List F) (hi : Nat) (new : F)
    (out : Option (State F N × Result)) : Prop :=
  ∃ s' l', out = some (s', .ok) ∧ Reached s s' new (overwrite hi (l.map s.frag) (s.frag new)) l'

/-- The new fragment is there, with its node, but not in the tree yet. -/
structure Pending (s : State F N) (l : List F) (hi : Nat) (new : F) (fn : N) : Prop where
  tree : RbList s.fragtree l
  covers : Covers 0 hi (l.map s.frag)
  live : s.fragtree.live new = true
  out : new ∉ l
  node : (s.frag new).node = some fn
  size : 0 < (s.frag new).size
  counts : Counts s.dnode (s.frag new :: l.map s.frag)

section

variable {hi : Nat} (h : Pending s l hi new fn)
include h

theorem Pending.fn_live : s.dnode fn ≠ none := h.counts.live_of_mem mem_cons_self h.node

theorem Pending.node_live {a : F} (ha : a ∈ l) : ∀ n, (s.frag a).node = some n → s.dnode n ≠ none :=
  fun _ hn => h.counts.live_of_mem (mem_cons_of_mem _ (mem_map_of_mem ha)) hn

/-- Marks do not matter here. -/
theorem Pending.marked (hs : Marked s s') : Pending s' l hi new fn := by
  obtain ⟨hfragtree, hfrag, hdnode, -⟩ := hs
  exact ⟨by rw [hfragtree]; exact h.tree, by rw [hfrag]; exact h.covers,
    by rw [hfragtree]; exact h.live, h.out, by rw [hfrag]; exact h.node,
    by rw [hfrag]; exact h.size, by rw [hdnode, hfrag]; exact h.counts⟩

/-- A fragment that is not allocated yet is neither in the tree nor the new one. -/
theorem Pending.spare {spare : F}
    (hspare : s.fragtree.live spare = false) : spare ∉ l ∧ spare ≠ new := by
  constructor
  · intro hin
    rw [h.tree.live hin] at hspare
    cases hspare
  · rintro rfl
    rw [h.live] at hspare
    cases hspare

end

/-- What is reached from a marked state is reached from the state before the marks. -/
theorem Overwrites.of_marked {s0 : State F N} {hi : Nat} {out : Option (State F N × Result)}
    (h : Overwrites s l hi new out) (hs : Marked s0 s) : Overwrites s0 l hi new out := by
  obtain ⟨s', l', hrun, h⟩ := h
  rw [hs.frag] at h
  exact ⟨s', l', hrun,
    { h with keeps := hs.keeps.trans h.keeps, new_eq := by rw [h.new_eq, hs.frag] }⟩

/-- `if (this->node) this->node->frags++` -/
theorem moreFrags_spec (node : Option N) (size ofs : Nat) (hcounts : Counts s.dnode ws)
    (hnode : ∀ n, node = some n → 0 < countOf n ws) :
    ∃ s', overlapTail.moreFrags s node = some s' ∧ s'.fragtree = s.fragtree ∧ s'.frag = s.frag ∧
      Counts s'.dnode (⟨node, size, ofs⟩ :: ws) ∧ Keeps s s' := by
  cases node with
  | none =>
    refine ⟨s, rfl, rfl, rfl, hcounts.congr fun n => ?_, .of_eq rfl rfl⟩
    rw [countOf_cons]
    simp
  | some n =>
    have hn := hnode n rfl
    obtain ⟨d, hd⟩ := ne_none_iff_exists'.mp (hcounts.live hn)
    have hcount (m) : countOf m (⟨some n, size, ofs⟩ :: ws) =
          countOf m ws + if n = m then 1 else 0 := by
      rw [countOf_cons]
      simp
    have hfrags := (hcounts.some n d hd).1
    refine ⟨{ s with dnode := update s.dnode n (some { d with frags := d.frags + 1 }) },
      by rw [overlapTail.moreFrags, hd], rfl, rfl, hcounts.update ?_ (by simp) ?_,
      keeps_update (by rw [hd]; simp) rfl (fun _ _ => rfl) (by simp) fun _ hf => hf⟩
    · rintro e ⟨⟩
      rw [hcount n, if_pos rfl]
      exact ⟨by simp only; omega, by omega⟩
    · intro m hm
      rw [hcount m, if_neg (Ne.symm hm), Nat.add_zero]

section

variable {hi : Nat} {spare : F}

/-- The place of the fragment in which the new one starts. -/
structure Overlap (s : State F N) (l p : List F) (this : F) (r : List F) (hi : Nat) (new : F) (fn : N) :
    Prop extends Pending s l hi new fn where
  split : l = p ++ this :: r
  le : (s.frag this).ofs ≤ (s.frag new).ofs
  lt : (s.frag new).ofs < (s.frag this).ofs + (s.frag this).size

section

variable (h : Overlap s l p this r hi new fn)
include h

theorem Overlap.parts : this ∉ p ∧ this ∉ r ∧ new ≠ this := by
  have hnodup := h.tree.nodup
  have hout := h.out
  rw [h.split] at hnodup hout
  rw [nodup_middle, nodup_cons] at hnodup
  simp only [mem_append, mem_cons, not_or] at hnodup hout
  exact ⟨hnodup.1.1, hnodup.1.2, hout.2.1⟩

theorem Overlap.marked (hs : Marked s s') : Overlap s' l p this r hi new fn :=
  ⟨h.toPending.marked hs, h.split, by rw [hs.frag]; exact h.le, by rw [hs.frag]; exact h.lt⟩

theorem Overlap.covers_rest :
    Covers ((s.frag this).ofs + (s.frag this).size) hi (r.map s.frag) := by
  have hcovers := h.covers
  rw [h.split, map_append] at hcovers
  exact hcovers.split.2.2

/-- The fragments behind start behind the beginning of the new one. -/
theorem Overlap.behind {b : F} (hb : b ∈ r) :
    (s.frag this).ofs + (s.frag this).size ≤ (s.frag b).ofs := by
  have := (Tiles.ordered h.covers_rest |>.bounds _ (mem_map_of_mem hb)).1
  simp only [start] at this
  omega

theorem Overlap.overwrite_eq : overwrite hi (l.map s.frag) (s.frag new) =
      p.map s.frag ++ (if (s.frag this).ofs < (s.frag new).ofs then
          [{ s.frag this with size := (s.frag new).ofs - (s.frag this).ofs }] else []) ++
        s.frag new :: ((cutFragFrom ((s.frag new).ofs + (s.frag new).size) (s.frag this)).toList ++
          cutFrom ((s.frag new).ofs + (s.frag new).size) (r.map s.frag)) := by
  have hcovers := h.covers
  rw [h.split, map_append] at hcovers ⊢
  exact Jffs2.overwrite_eq hcovers h.le h.lt

variable [DecidableEq F]

/-- The new fragment is in the tree, and the old one does not reach behind it. -/
theorem Overlap.swallow_reached {s1 : State F N} {q : List F}
    (htree : RbList s1.fragtree (q ++ new :: r))
    (hcounts : Counts s1.dnode ((q.map s1.frag ++ [s.frag new]) ++ r.map s1.frag))
    (hr : r.map s1.frag = r.map s.frag) (hnew : s1.frag new = s.frag new) (hkeeps : Keeps s s1)
    (hcover : (s.frag this).ofs + (s.frag this).size ≤ (s.frag new).ofs + (s.frag new).size)
    (hover : overwrite hi (l.map s.frag) (s.frag new) = q.map s1.frag ++
      s.frag new :: cutFrom ((s.frag new).ofs + (s.frag new).size) (r.map s.frag)) :
    Overwrites s l hi new (swallow s1 new fn) := by
  have hfn : 0 < countOf fn (q.map s1.frag ++ [s.frag new]) :=
    countP_pos_iff.mpr ⟨s.frag new, by simp, by simpa using h.node⟩
  obtain ⟨s2, r', hrun, htree2, hfrag2, hr2, hcounts2, hkeeps2⟩ :=
    swallow_spec htree hcounts hfn (hr ▸ h.covers_rest) (by
      rw [hnew]
      simp only [stop]
      omega)
  have hq : q.map s2.frag = q.map s1.frag := map_congr_left fun a ha => hfrag2 a (by simp [ha])
  have hnew2 : s2.frag new = s.frag new := (hfrag2 new (by simp)).trans hnew
  rw [hnew, hr] at hr2
  have hvals : (q ++ new :: r').map s2.frag = overwrite hi (l.map s.frag) (s.frag new) := by
    rw [hover, map_append, map_cons, hq, hnew2, hr2]
  refine ⟨s2, _, hrun, htree2, hvals, ?_, hkeeps.trans hkeeps2, by simp, hnew2⟩
  rw [← hvals, map_append, map_cons, hq, hnew2]
  simpa using hcounts2

/-- The new fragment splits the old one. -/
theorem splitFrag_spec (hspare : s.fragtree.live spare = false)
    (hlt : (s.frag this).ofs < (s.frag new).ofs)
    (hsplit : (s.frag this).ofs + (s.frag this).size > (s.frag new).ofs + (s.frag new).size) :
    Overwrites s l hi new (do
        let s1 ← overlapTail.moreFrags (newFragment s spare (s.frag this).node
          ((s.frag new).ofs + (s.frag new).size)
          ((s.frag this).ofs + (s.frag this).size - (s.frag new).ofs - (s.frag new).size))
          (s.frag this).node
        let s1 ← fragtreeInsert (s1.setFrag this
          { s.frag this with size := (s.frag new).ofs - (s.frag this).ofs }) new this
        let s1 ← fragtreeInsert s1 spare new
        some (s1, Result.ok)) := by
  obtain ⟨hthisp, hthisr, hne⟩ := h.parts
  obtain ⟨hsparel, hsparenew⟩ := h.toPending.spare hspare
  have hcounts := h.counts
  have htree := h.tree
  rw [h.split] at htree
  rw [h.split, map_append, map_cons] at hcounts
  let f' : NodeFrag N := { s.frag this with size := (s.frag new).ofs - (s.frag this).ofs }
  have hover := h.overwrite_eq
  rw [if_pos hlt] at hover
  let f2 : NodeFrag N := ⟨(s.frag this).node,
    (s.frag this).ofs + (s.frag this).size - (s.frag new).ofs - (s.frag new).size,
    (s.frag new).ofs + (s.frag new).size⟩
  have hsparep : spare ∉ p ∧ spare ≠ this ∧ spare ∉ r := by
    rw [h.split] at hsparel
    simp only [mem_append, mem_cons, not_or] at hsparel
    exact hsparel
  obtain ⟨s3, hmore, hfragtree3, hfrag3, hcounts3, hkeeps3⟩ := moreFrags_spec
    (s := newFragment s spare (s.frag this).node f2.ofs f2.size)
    (s.frag this).node f2.size f2.ofs hcounts
    fun n hn => countP_pos_iff.mpr ⟨s.frag this, by simp, by simpa using hn⟩
  -- the values from here on
  let frag4 := update (update s.frag spare f2) this f'
  have hfrag4 : (s3.setFrag this f').frag = frag4 := by
    rw [State.setFrag, hfrag3]
    rfl
  have hthis4 : frag4 this = f' := update_self ..
  have hnew4 : frag4 new = s.frag new := by
    show update (update s.frag spare f2) this f' new = _
    rw [update_of_ne hne, update_of_ne (Ne.symm hsparenew)]
  have hspare4 : frag4 spare = f2 := by
    show update (update s.frag spare f2) this f' spare = _
    rw [update_of_ne hsparep.2.1, update_self]
  have hold4 {q : List F} (h1 : this ∉ q) (h2 : spare ∉ q) : q.map frag4 = q.map s.frag := by
    rw [map_update h1, map_update h2]
  have hr4 (b) (hb : b ∈ r) : frag4 b = s.frag b := map_inj_left.mp (hold4 hthisr hsparep.2.2) b hb
  have htree3 : RbList s3.fragtree (p ++ this :: r) := by
    rw [hfragtree3]
    exact RbList.setLive htree (h.split ▸ hsparel) true
  have hlive3 : ∀ a, a = new ∨ a = spare → s3.fragtree.live a = true := by
    rw [hfragtree3]
    rintro a (rfl | rfl)
    · show update s.fragtree.live spare true a = true
      rw [update_of_ne (Ne.symm hsparenew)]
      exact h.live
    · exact update_self ..
  obtain ⟨h5, hins5, hlive5, htree5⟩ := fragtreeInsert_spec (s := s3.setFrag this f') new
    htree3 (hlive3 new (.inl rfl)) (h.split ▸ h.out)
    (by
      rw [hfrag4, hthis4, hnew4]
      exact hlt)
    (by
      intro b hb
      rw [hfrag4, hnew4, hr4 b hb]
      have := h.behind hb
      have := h.lt
      omega)
  have htree5' : RbList h5 ((p ++ [this]) ++ new :: r) := by simpa using htree5
  obtain ⟨h6, hins6, -, htree6⟩ := fragtreeInsert_spec
    (s := { s3.setFrag this f' with fragtree := h5 }) spare htree5'
    (by rw [hlive5]; exact hlive3 spare (.inr rfl))
    (by
      simp only [mem_append, mem_cons, not_or]
      exact ⟨⟨hsparep.1, hsparep.2.1, not_mem_nil⟩, hsparenew, hsparep.2.2⟩)
    (by
      rw [hfrag4, hnew4, hspare4]
      show (s.frag new).ofs < (s.frag new).ofs + (s.frag new).size
      have := h.size
      omega)
    (by
      intro b hb
      rw [hfrag4, hspare4, hr4 b hb]
      show (s.frag new).ofs + (s.frag new).size < (s.frag b).ofs
      have := h.behind hb
      omega)
  have hvals : (p ++ [this] ++ new :: spare :: r).map frag4 =
      overwrite hi (l.map s.frag) (s.frag new) := by
    rw [hover, map_append, map_append, map_cons, map_cons, map_cons,
      hold4 hthisp hsparep.1, hold4 hthisr hsparep.2.2, hthis4, hnew4, hspare4,
      cutFrom_of_le_start h.covers_rest (by omega), cutFragFrom, if_pos (by omega),
      if_pos (by omega)]
    have hsize2 : (s.frag this).ofs + (s.frag this).size - (s.frag new).ofs - (s.frag new).size =
        (s.frag this).ofs + (s.frag this).size - ((s.frag new).ofs + (s.frag new).size) := by omega
    simp [f', f2, hsize2]
  refine ⟨{ s3.setFrag this f' with fragtree := h6 }, _, ?_, htree6, ?_, ?_, ?_, by simp, ?_⟩
  · rw [show (s.frag this).ofs + (s.frag this).size - (s.frag new).ofs - (s.frag new).size =
      f2.size from rfl, show (s.frag new).ofs + (s.frag new).size = f2.ofs from rfl]
    simp only [hmore]
    change fragtreeInsert (s3.setFrag this f') new this >>= _ = _
    simp [hins5, hins6]
  · rw [hfrag4]
    exact hvals
  · rw [← hvals, map_append, map_append, map_cons, map_cons, map_cons,
      hold4 hthisp hsparep.1, hold4 hthisr hsparep.2.2, hthis4, hnew4, hspare4]
    refine hcounts3.congr fun n => ?_
    simp only [countOf_append, countOf_cons, countOf_nil, map_nil, f', f2]
    omega
  · have hk2 : Keeps s (newFragment s spare (s.frag this).node f2.ofs f2.size) := .of_eq rfl rfl
    have hk3 : Keeps s3 { s3.setFrag this f' with fragtree := h6 } := .of_eq rfl rfl
    exact hk2.trans (hkeeps3.trans hk3)
  · rw [hfrag4, hnew4]

/-- The new fragment only makes the old one smaller. -/
theorem shrinkFrag_spec (hlt : (s.frag this).ofs < (s.frag new).ofs)
    (hsplit : ¬ (s.frag this).ofs + (s.frag this).size > (s.frag new).ofs + (s.frag new).size) :
    Overwrites s l hi new (do
        let s1 ← fragtreeInsert (s.setFrag this
          { s.frag this with size := (s.frag new).ofs - (s.frag this).ofs }) new this
        swallow s1 new fn) := by
  obtain ⟨hthisp, hthisr, hne⟩ := h.parts
  have hcounts := h.counts
  have htree := h.tree
  rw [h.split] at htree
  rw [h.split, map_append, map_cons] at hcounts
  let f' : NodeFrag N := { s.frag this with size := (s.frag new).ofs - (s.frag this).ofs }
  have hover := h.overwrite_eq
  rw [if_pos hlt] at hover
  let s3 := s.setFrag this f'
  have hthis3 : s3.frag this = f' := update_self ..
  have hnew3 : s3.frag new = s.frag new := update_of_ne hne ..
  have hold3 {q : List F} (hq : this ∉ q) : q.map s3.frag = q.map s.frag := map_update hq f'
  obtain ⟨h4, hins4, -, htree4⟩ := fragtreeInsert_spec (s := s3) new
    htree h.live (h.split ▸ h.out)
    (by
      rw [hthis3, hnew3]
      exact hlt)
    (by
      intro b hb
      rw [hnew3, map_inj_left.mp (hold3 hthisr) b hb]
      have := h.behind hb
      have := h.lt
      omega)
  have hmap : (p ++ [this]).map s3.frag = p.map s.frag ++ [f'] := by
    rw [map_append, hold3 hthisp, map_singleton, hthis3]
  have hcounts4 : Counts s.dnode (((p ++ [this]).map s3.frag ++ [s.frag new]) ++ r.map s3.frag) := by
    rw [hmap, hold3 hthisr]
    refine hcounts.congr fun n => ?_
    simp only [countOf_append, countOf_cons, countOf_nil, f']
    omega
  have hover4 : overwrite hi (l.map s.frag) (s.frag new) = (p ++ [this]).map s3.frag ++
      s.frag new :: cutFrom ((s.frag new).ofs + (s.frag new).size) (r.map s.frag) := by
    rw [hover, hmap, cutFragFrom, if_neg (by omega)]
    simp [f']
  let s4 : State F N := { s3 with fragtree := h4 }
  have htree4' : RbList s4.fragtree ((p ++ [this]) ++ new :: r) := by simpa using htree4
  obtain ⟨s', l', hrun, hreached⟩ := h.swallow_reached htree4' hcounts4 (hold3 hthisr) hnew3
    (.of_eq rfl rfl) (Nat.not_lt.mp hsplit) hover4
  refine ⟨s', l', ?_, hreached⟩
  show (fragtreeInsert s3 new this).bind (swallow · new fn) = _
  rw [hins4]
  exact hrun

/-- A fragment whose start remains valid. -/
theorem overlapTail_spec (hspare : s.fragtree.live spare = false)
    (hlt : (s.frag this).ofs < (s.frag new).ofs) :
    Overwrites s l hi new (overlapTail s new this fn (some spare)) := by
  have hthis : this ∈ l := by rw [h.split]; simp
  have hget : s.get this = some (s.frag this) := get_of_live (h.tree.live hthis)
  obtain ⟨s1, hmark1, hs1⟩ := markRefNormal_spec h.fn_live
  obtain ⟨s2, hmark2, hs2⟩ : ∃ s2, s1.markIf (s.frag this).node = some s2 ∧ Marked s1 s2 :=
    markIf_spec fun n hn => by rw [hs1.dnode]; exact h.node_live hthis n hn
  have hs := hs1.trans hs2
  have h2 := h.marked hs
  unfold overlapTail
  simp only [get_of_live h.live, hget, bind_eq_bind, bind_some, hmark1, hmark2]
  rw [← hs.frag] at hlt ⊢
  by_cases hsplit :
      (s2.frag this).ofs + (s2.frag this).size > (s2.frag new).ofs + (s2.frag new).size
  · rw [if_pos hsplit]
    exact (splitFrag_spec h2 (hs.fragtree ▸ hspare) hlt hsplit).of_marked hs
  · rw [if_neg hsplit]
    exact (shrinkFrag_spec h2 hlt hsplit).of_marked hs

/-- A fragment that starts where the new one does. -/
theorem replaceFrag_spec (heq : (s.frag this).ofs = (s.frag new).ofs) :
    Overwrites s l hi new (replaceFrag s new this fn) := by
  obtain ⟨hthisp, hthisr, hne⟩ := h.parts
  have hthis : s.fragtree.live this = true := h.tree.live (by rw [h.split]; simp)
  have htree := h.tree
  have hout := h.out
  have hcounts := h.counts
  rw [h.split] at htree hout hcounts
  obtain ⟨h1, hrepl, hlive1, htree1⟩ := htree.replace h.live hout
  have hthis1 : h1.live this = true := by rw [hlive1]; exact hthis
  have hout1 : this ∉ p ++ new :: r := by
    simp only [mem_append, mem_cons, not_or]
    exact ⟨hthisp, Ne.symm hne, hthisr⟩
  have hover := h.overwrite_eq
  rw [if_neg (by omega)] at hover
  unfold replaceFrag
  simp only [get_of_live h.live, get_of_live hthis, bind_eq_bind, bind_some, hrepl]
  by_cases hcover : (s.frag new).ofs + (s.frag new).size ≥ (s.frag this).ofs + (s.frag this).size
  · rw [if_pos hcover]
    have hcounts1 : Counts s.dnode
        (s.frag this :: ((p.map s.frag ++ [s.frag new]) ++ r.map s.frag)) := by
      refine hcounts.congr fun n => ?_
      simp only [countOf_append, countOf_cons, countOf_nil, map_append, map_cons]
      omega
    obtain ⟨s2, hobs, htree2, hfrag2, hcounts2, hkeeps2⟩ :=
      obsoleteNodeFrag_spec (s := { s with fragtree := h1 }) hthis1 htree1 hout1 hcounts1
    have hfrag2' : s2.frag = s.frag := hfrag2
    have hk : Keeps s { s with fragtree := h1 } := .of_eq rfl rfl
    obtain ⟨s', l', hrun, hreached⟩ := h.swallow_reached htree2 (by rwa [hfrag2'])
      (by rw [hfrag2']) (by rw [hfrag2']) (hk.trans hkeeps2) hcover (by
        rw [hover, hfrag2', cutFragFrom, if_neg (by omega)]
        simp)
    exact ⟨s', l', by simp [hobs, hrun], hreached⟩
  · -- the old fragment loses its beginning and moves behind the new one
    rw [if_neg hcover]
    let f' : NodeFrag N := { s.frag this with
      ofs := (s.frag this).ofs + (s.frag new).size
      size := (s.frag this).size - (s.frag new).size }
    let s2 : State F N := { s with fragtree := h1 }.setFrag this f'
    have hthis2 : s2.frag this = f' := update_self ..
    have hnew2 : s2.frag new = s.frag new := update_of_ne hne ..
    have hold2 {q : List F} (hq : this ∉ q) : q.map s2.frag = q.map s.frag := map_update hq f'
    have hsize := h.size
    obtain ⟨h3, hins, -, htree3⟩ := fragtreeInsert_spec
      (s := s2) this htree1 hthis1 hout1
      (by
        rw [hnew2, hthis2]
        show (s.frag new).ofs < (s.frag this).ofs + (s.frag new).size
        omega)
      (by
        intro b hb
        rw [hthis2, map_inj_left.mp (hold2 hthisr) b hb]
        show (s.frag this).ofs + (s.frag new).size < (s.frag b).ofs
        have := h.behind hb
        omega)
    have hvals : (p ++ new :: this :: r).map s2.frag = overwrite hi (l.map s.frag) (s.frag new) := by
      rw [hover, map_append, map_cons, map_cons, hold2 hthisp, hold2 hthisr, hnew2, hthis2,
        cutFrom_of_le_start h.covers_rest (by omega), cutFragFrom, if_pos (by omega),
        if_pos (by omega)]
      have hofs' : (s.frag this).ofs + (s.frag new).size = (s.frag new).ofs + (s.frag new).size := by
        omega
      have hsize' : (s.frag this).size - (s.frag new).size =
          (s.frag this).ofs + (s.frag this).size - ((s.frag new).ofs + (s.frag new).size) := by
        omega
      simp [f', hofs', hsize']
    refine ⟨{ s2 with fragtree := h3 }, _, ?_, htree3, hvals, ?_, .of_eq rfl rfl,
      by simp, hnew2⟩
    · rw [hins]
      rfl
    · rw [← hvals, map_append, map_cons, map_cons, hold2 hthisp, hold2 hthisr, hnew2, hthis2]
      refine hcounts.congr fun n => ?_
      simp only [countOf_append, countOf_cons, map_append, map_cons, f']
      omega

end

end

section

variable {hi : Nat} {spare : F}

/-- The marks on the last fragment. -/
theorem markShared_spec (h : Pending s l hi new fn) (ofs : Nat) (hne : hi ≠ 0 → l ≠ []) :
    ∃ s', markShared s l.getLast? hi ofs fn = some s' ∧ Marked s s' := by
  unfold markShared
  split
  · rename_i hshare
    obtain ⟨this, hlast⟩ := getLast?_isSome.mpr (hne hshare.1) |> isSome_iff_exists.mp
    have hthis : this ∈ l := mem_of_getLast? hlast
    obtain ⟨s1, hmark1, hs1⟩ := markIf_spec (h.node_live hthis)
    obtain ⟨s2, hmark2, hs2⟩ := markRefNormal_spec (h.marked hs1).fn_live
    refine ⟨s2, ?_, hs1.trans hs2⟩
    rw [hlast]
    simp [get_of_live (h.tree.live hthis), hmark1, hmark2]
  · exact ⟨s, rfl, .refl s⟩

variable [DecidableEq F]

section

variable (h : Pending s l hi new fn) (hspare : s.fragtree.live spare = false)
include h hspare

/-- `no_overlapping_node` -/
theorem noOverlappingNode_spec (hofs : hi ≤ (s.frag new).ofs) :
    Overwrites s l hi new (noOverlappingNode s new (s.frag new).ofs l.getLast? hi (some spare)) := by
  unfold Overwrites noOverlappingNode
  rw [overwrite_behind h.covers hofs]
  by_cases hgap : hi < (s.frag new).ofs
  · rw [if_pos hgap]
    let hole : NodeFrag N := ⟨none, (s.frag new).ofs - hi, hi⟩
    have hpad : pad hi (s.frag new).ofs = [hole] := if_pos hgap
    obtain ⟨hsparel, hne⟩ := h.spare hspare
    have hsparenew : new ≠ spare := Ne.symm hne
    let frag1 := update s.frag spare hole
    have hnew1 : frag1 new = s.frag new := update_of_ne hsparenew ..
    have hspare1 : frag1 spare = hole := update_self ..
    obtain ⟨h2, hlink2, hlive2, htree2⟩ := linkLast_spec
      (s := newFragment s spare none hi ((s.frag new).ofs - hi)) spare
      (RbList.setLive h.tree hsparel true) (update_self ..) hsparel
    have hnewlive : h2.live new = true := by
      rw [hlive2]
      show update s.fragtree.live spare true new = true
      rw [update_of_ne hsparenew]
      exact h.live
    obtain ⟨h3, hlink3, -, htree3⟩ := linkLast_spec
      (s := { newFragment s spare none hi ((s.frag new).ofs - hi) with fragtree := h2 }) new
      htree2 hnewlive (by
        simp only [mem_append, mem_singleton, not_or]
        exact ⟨h.out, hsparenew⟩)
    have hvals : (l ++ [spare] ++ [new]).map frag1 =
        l.map s.frag ++ pad hi (s.frag new).ofs ++ [s.frag new] := by
      rw [hpad, map_append, map_append, map_update hsparel, map_singleton,
        map_singleton, hspare1, hnew1]
    refine ⟨{ newFragment s spare none hi ((s.frag new).ofs - hi) with fragtree := h3 }, _, ?_,
      htree3, hvals, ?_, .of_eq rfl rfl, by simp, hnew1⟩
    · rw [getLast?_concat] at hlink3
      simp [hlink2, hlink3]
    · refine h.counts.congr fun n => ?_
      simp only [hpad, countOf_append, countOf_cons, countOf_nil]
      simp
  · rw [if_neg hgap]
    obtain ⟨h1, hlink, -, htree⟩ := linkLast_spec new h.tree h.live h.out
    have hpad : (pad hi (s.frag new).ofs : List (NodeFrag N)) = [] := if_neg hgap
    refine ⟨{ s with fragtree := h1 }, _, ?_, htree, ?_, ?_, .of_eq rfl rfl, by simp, rfl⟩
    · simp [hlink]
    · rw [hpad]
      simp
    · refine h.counts.congr fun n => ?_
      simp only [hpad, countOf_append, countOf_cons, countOf_nil]
      omega

/-- `jffs2_add_frag_to_fragtree` -/
theorem addFragToFragtree_spec :
    Overwrites s l hi new (addFragToFragtree s new fn (some spare)) := by
  unfold addFragToFragtree
  simp only [get_of_live h.live, bind_eq_bind, bind_some]
  rcases lookupNodeFrag_spec (s.frag new).ofs h.tree h.covers with
    ⟨p, this, r, hsplit, hlookup, hle, hlt⟩ | ⟨hofs, hlookup⟩
  · have hthis : s.get this = some (s.frag this) := get_of_live (h.tree.live (by rw [hsplit]; simp))
    have hover : Overlap s l p this r hi new fn := ⟨h, hsplit, hle, hlt⟩
    simp only [hlookup, bind_some, hthis]
    rw [if_neg (by omega)]
    by_cases hofs : (s.frag new).ofs > (s.frag this).ofs
    · rw [if_pos hofs]
      exact overlapTail_spec hover hspare hofs
    · rw [if_neg hofs]
      exact replaceFrag_spec hover (by omega)
  · -- the new fragment starts behind the last one
    have hofs' : hi ≤ (s.frag new).ofs := by omega
    have hlast : (hi : Int) = stopOf NodeFrag.stop 0 (l.map s.frag) := Tiles.stopOf_eq h.covers
    have hne : hi ≠ 0 → l ≠ [] := by
      rintro h0 rfl
      have : (hi : Int) = 0 := hlast
      omega
    obtain ⟨s1, hmark, hs1⟩ := markShared_spec h (s.frag new).ofs hne
    obtain ⟨s', l', hrun, hreach⟩ := (noOverlappingNode_spec (h.marked hs1)
      (by rw [hs1.fragtree]; exact hspare) (by rw [hs1.frag]; exact hofs')).of_marked hs1
    rw [hs1.frag] at hrun
    refine ⟨s', l', ?_, hreach⟩
    rw [hlookup]
    cases hl : l.getLast? with
    | none =>
      obtain rfl := getLast?_eq_none_iff.mp hl
      obtain rfl : hi = 0 := by
        have : (hi : Int) = 0 := hlast
        omega
      rw [hl] at hmark hrun
      simp [hmark, hrun]
    | some this =>
      have hthis : s.get this = some (s.frag this) := get_of_live (h.tree.live (mem_of_getLast? hl))
      have hhi : (s.frag this).ofs + (s.frag this).size = hi := by
        rw [stopOf_eq_getLast, getLast?_map, hl] at hlast
        simp only [map_some, getD_some, stop] at hlast
        omega
      rw [hl] at hmark hrun
      simp only [hthis, bind_some, hhi]
      rw [if_pos hofs', hmark, bind_some, hrun]

end

end

end LinuxKernel.Fs.Jffs2
