/-
  The fragment tree is last-writer-wins.

  Adding a node overwrites its bytes and truncating cuts the rest off, in every run,
  with the reference counts of the data nodes kept.
-/
import LinuxKernel.Fs.Jffs2Add

namespace LinuxKernel.Fs.Jffs2

open Foundation Lib.Rbtree NodeFrag Function List Option State

variable {F N : Type} [DecidableEq F] [DecidableEq N] {s s' : State F N} {l p r : List F}
  {new : F} {fn n : N} {ws : List (NodeFrag N)} {hi : Nat}

/-- The tree holds these fragments, they cover `[0, hi)`, and the counters are right. -/
structure Holds (s : State F N) (l : List F) (hi : Nat) : Prop where
  tree : RbList s.fragtree l
  covers : Covers 0 hi (l.map s.frag)
  counts : Counts s.dnode (l.map s.frag)

omit [DecidableEq F] in
theorem Holds.marked (h : Holds s l hi) (hs : Marked s s') : Holds s' l hi :=
  ⟨by rw [hs.fragtree]; exact h.tree, by rw [hs.frag]; exact h.covers,
    by rw [hs.dnode, hs.frag]; exact h.counts⟩

omit [DecidableEq F] in
theorem Holds.node_live (h : Holds s l hi) {a : F} (ha : a ∈ l) :
    ∀ n, (s.frag a).node = some n → s.dnode n ≠ none :=
  fun _ hn => h.counts.live_of_mem (mem_map_of_mem ha) hn

/-- Some byte of the file comes from the node. -/
def HasBytes (vs : List (NodeFrag N)) (n : N) : Prop := ∃ x, MapsTo vs x (some n)

omit [DecidableEq F] in
/-- The nodes that are there are those with bytes. -/
theorem Holds.dnode_eq_none_iff (h : Holds s l hi) :
    s.dnode n = none ↔ ¬ HasBytes (l.map s.frag) n := by
  unfold HasBytes
  rw [← countOf_pos h.covers]
  constructor
  · intro hn
    have := h.counts.none n hn
    omega
  · intro hn
    by_contra hlive
    obtain ⟨d, hd⟩ := ne_none_iff_exists'.mp hlive
    exact hn (h.counts.some n d hd).2

omit [DecidableEq F] in
/-- The last fragment ends where the range does. -/
theorem Holds.last (h : Holds s l hi) {a : F} (ha : l.getLast? = some a) :
    (s.frag a).ofs + (s.frag a).size = hi := by
  have hlast : (hi : Int) = stopOf NodeFrag.stop 0 (l.map s.frag) := Tiles.stopOf_eq h.covers
  rw [stopOf_eq_getLast, getLast?_map, ha] at hlast
  simp only [map_some, getD_some, stop] at hlast
  omega

/-! ## Adding a node -/

section

variable (h : Holds s l hi) (hnew : new ∈ l) (hnode : (s.frag new).node = some fn)
include h hnew hnode

/-- If we don't start at zero there's always a previous. -/
theorem markPrev_spec : ∃ s', markPrev s new fn = some s' ∧ Marked s s' := by
  unfold markPrev
  simp only [get_of_live (h.tree.live hnew), bind_eq_bind, bind_some]
  split
  · rename_i hofs
    obtain ⟨p, r, rfl⟩ := append_of_mem hnew
    obtain ⟨s1, hmark1, hs1⟩ := markRefNormal_spec (h.node_live hnew fn hnode)
    simp only [h.tree.prev, hmark1]
    cases hp : p.getLast? with
    | none =>
      obtain rfl := getLast?_eq_none_iff.mp hp
      have hstart : ((s.frag new).ofs : Int) = 0 := h.covers.1
      refine absurd ?_ hofs
      have : (s.frag new).ofs = 0 := by omega
      rw [this]
      rfl
    | some prev =>
      have hprev : prev ∈ p ++ new :: r := mem_append_left _ (mem_of_getLast? hp)
      have h1 := h.marked hs1
      obtain ⟨s2, hmark2, hs2⟩ := markIf_spec (h1.node_live hprev)
      refine ⟨s2, ?_, hs1.trans hs2⟩
      simp [get_of_live (h1.tree.live hprev), hmark2]
  · exact ⟨s, rfl, .refl s⟩

theorem markNext_spec : ∃ s', markNext s new fn = some s' ∧ Marked s s' := by
  unfold markNext
  simp only [get_of_live (h.tree.live hnew), bind_eq_bind, bind_some]
  split
  · obtain ⟨p, r, rfl⟩ := append_of_mem hnew
    simp only [h.tree.next]
    cases r with
    | nil => exact ⟨s, rfl, .refl s⟩
    | cons next r =>
      have hnext : next ∈ p ++ new :: next :: r := by simp
      obtain ⟨s1, hmark1, hs1⟩ := markRefNormal_spec (h.node_live hnew fn hnode)
      have h1 := h.marked hs1
      obtain ⟨s2, hmark2, hs2⟩ := markIf_spec (h1.node_live hnext)
      refine ⟨s2, ?_, hs1.trans hs2⟩
      simp [hmark1, get_of_live (h1.tree.live hnext), hmark2]
  · exact ⟨s, rfl, .refl s⟩

end

/-- The state in which `jffs2_add_frag_to_fragtree` is called. -/
def pendingState (s : State F N) (fn : N) (ofs size : Nat) (new : F) : State F N :=
  { newFragment s new (some fn) ofs size with
    dnode := Function.update s.dnode fn (some ⟨ofs, size, 1⟩) }

section

variable {size : Nat} (ofs : Nat) (h : Holds s l hi) (hsize : 0 < size)
  (hnew : s.fragtree.live new = false)
include h hsize hnew

theorem pendingState_spec (hfn : s.dnode fn = none) :
    Pending (pendingState s fn ofs size new) l hi new fn ∧
      l.map (pendingState s fn ofs size new).frag = l.map s.frag ∧
      (pendingState s fn ofs size new).frag new = ⟨some fn, size, ofs⟩ := by
  have hout : new ∉ l := by
    intro hin
    rw [h.tree.live hin] at hnew
    cases hnew
  have hfrag : (pendingState s fn ofs size new).frag new = ⟨some fn, size, ofs⟩ := update_self ..
  have hmap : l.map (pendingState s fn ofs size new).frag = l.map s.frag := map_update hout _
  refine ⟨⟨RbList.setLive h.tree hout true, by rw [hmap]; exact h.covers, update_self ..,
    hout, by rw [hfrag], by rw [hfrag]; exact hsize, ?_⟩, hmap, hfrag⟩
  rw [hmap, hfrag]
  have hzero := h.counts.none fn hfn
  refine h.counts.update ?_ (by simp) ?_
  · rintro d ⟨⟩
    rw [countOf_cons, if_pos rfl]
    exact ⟨by simp only; omega, by omega⟩
  · intro m hm
    rw [countOf_cons, if_neg (by simpa using Ne.symm hm), Nat.add_zero]

/-- `jffs2_add_full_dnode_to_inode` -/
theorem addFullDnodeToInode_spec {spare : F} (hspare : s.fragtree.live spare = false)
    (hne : new ≠ spare) (hfn : s.dnode fn = none) :
    ∃ s' l', addFullDnodeToInode s fn ofs size (some new) (some spare) = some (s', .ok) ∧
      Holds s' l' (max hi (ofs + size)) ∧
      l'.map s'.frag = overwrite hi (l.map s.frag) ⟨some fn, size, ofs⟩ ∧
      Keeps (pendingState s fn ofs size new) s' := by
  obtain ⟨hpending, hmap, hfrag⟩ := pendingState_spec ofs h hsize hnew hfn
  have hspare' : (pendingState s fn ofs size new).fragtree.live spare = false := by
    show update s.fragtree.live new true spare = false
    rw [update_of_ne (Ne.symm hne)]
    exact hspare
  obtain ⟨s1, l', hadd, hreach⟩ := addFragToFragtree_spec hpending hspare'
  obtain ⟨htree, hvals, hcounts, hkeeps, hmem, hnew1⟩ := hreach
  rw [hmap, hfrag] at hvals hcounts
  rw [hfrag] at hnew1
  have h1 : Holds s1 l' (max hi (ofs + size)) := by
    refine ⟨htree, ?_, by rw [hvals]; exact hcounts⟩
    rw [hvals]
    have hnew : 0 < (⟨some fn, size, ofs⟩ : NodeFrag N).size := hsize
    exact covers_overwrite h.covers hnew
  have hnode : (s1.frag new).node = some fn := by rw [hnew1]
  obtain ⟨s2, hprev, hs2⟩ := markPrev_spec h1 hmem hnode
  have hs2' := h1.marked hs2
  rw [← hs2.frag] at hnode
  obtain ⟨s3, hnext, hs3⟩ := markNext_spec hs2' hmem hnode
  have hs := hs2.trans hs3
  refine ⟨s3, l', ?_, h1.marked hs, by rw [hs.frag]; exact hvals, hkeeps.trans hs.keeps⟩
  unfold addFullDnodeToInode
  rw [if_neg (by omega)]
  change addFragToFragtree (pendingState s fn ofs size new) new fn (some spare) >>= _ = _
  simp [hadd, hprev, hnext]

end

/-! ## Truncating -/

/-- The loop over the fragments behind the new end. -/
theorem truncateLoop_spec (size : Nat) {r : List F} {s : State F N}
    (hl : RbList s.fragtree (p ++ r)) (hcounts : Counts s.dnode (ws ++ r.map s.frag))
    (hbehind : ∀ a ∈ r, size ≤ (s.frag a).ofs) :
    ∃ s', truncateLoop s size r.head? = some s' ∧ RbList s'.fragtree p ∧ s'.frag = s.frag ∧
      Counts s'.dnode ws ∧ Keeps s s' := by
  induction r generalizing s with
  | nil =>
    refine ⟨s, ?_, by simpa using hl, rfl, by simpa using hcounts, .of_eq rfl rfl⟩
    rw [head?_nil, truncateLoop]
  | cons a r ih =>
    have hlive : s.fragtree.live a = true := hl.live (by simp)
    obtain ⟨h1, herase, hlive1, htree1⟩ := hl.erase
    have hout : a ∉ p ++ r := (nodup_middle.mp hl.nodup).notMem
    have hcounts1 : Counts s.dnode (s.frag a :: (ws ++ r.map s.frag)) := by
      refine hcounts.congr fun n => ?_
      simp only [countOf_append, countOf_cons, map_cons]
      omega
    obtain ⟨s2, hobs, htree2, hfrag2, hcounts2, hkeeps2⟩ :=
      obsoleteNodeFrag_spec (s := { s with fragtree := h1 }) (by rw [← hlive, ← hlive1]) htree1
        hout hcounts1
    have hfrag2' : s2.frag = s.frag := hfrag2
    rw [← hfrag2'] at hcounts2
    obtain ⟨s', hrun, htree', hfrag', hcounts', hkeeps'⟩ := ih htree2 hcounts2 (by
      rw [hfrag2']
      exact fun b hb => hbehind b (mem_cons_of_mem _ hb))
    have hk : Keeps s { s with fragtree := h1 } := .of_eq rfl rfl
    refine ⟨s', ?_, htree', hfrag'.trans hfrag2', hcounts', hk.trans (hkeeps2.trans hkeeps')⟩
    rw [head?_cons, truncateLoop]
    simp [get_of_live hlive, if_pos (hbehind a mem_cons_self), hl.next, herase, hobs, hrun]

omit [DecidableEq F] in
theorem markPristine_spec (size : Nat) (h : Holds s l hi) :
    ∃ s', markPristine s size = some (s', min hi size) ∧ Marked s s' := by
  unfold markPristine
  by_cases hzero : size = 0
  · rw [hzero]
    exact ⟨s, by simp, .refl s⟩
  rw [if_neg hzero]
  simp only [h.tree.last, bind_eq_bind]
  cases hlast : l.getLast? with
  | none =>
    obtain rfl := getLast?_eq_none_iff.mp hlast
    have hhi : (0 : Int) = hi := h.covers
    obtain rfl : hi = 0 := by omega
    exact ⟨s, by simp, .refl s⟩
  | some a =>
    have ha : a ∈ l := mem_of_getLast? hlast
    simp only [get_of_live (h.tree.live ha), bind_some, h.last hlast]
    by_cases hlt : hi < size
    · have hmin : min hi size = hi := by omega
      rw [if_pos hlt, hmin]
      exact ⟨s, rfl, .refl s⟩
    have hmin : min hi size = size := by omega
    rw [if_neg hlt, hmin]
    cases hnode : (s.frag a).node with
    | none => exact ⟨s, rfl, .refl s⟩
    | some n =>
      simp only
      split
      · have hn := h.node_live ha n hnode
        obtain ⟨d, hd⟩ := ne_none_iff_exists'.mp hn
        rw [hd]
        exact ⟨_, rfl, marked_setFlag hn (by simp)⟩
      · exact ⟨s, rfl, .refl s⟩

/-- The two steps that remove what is behind the new end. -/
theorem truncate_spec (size : Nat) (h : Holds s l hi) :
    ∃ frag s1 next s' l', lookupNodeFrag s size = some frag ∧
      truncateFirst s size frag = some (s1, next) ∧ truncateLoop s1 size next = some s' ∧
      RbList s'.fragtree l' ∧ l'.map s'.frag = cutTo size (l.map s.frag) ∧
      Counts s'.dnode (l'.map s'.frag) ∧ Keeps s s' := by
  rcases lookupNodeFrag_spec size h.tree h.covers with
    ⟨p, a, r, rfl, hlookup, hle, hlt⟩ | ⟨hhi, hlookup⟩
  · have hget : s.get a = some (s.frag a) := get_of_live (h.tree.live (by simp))
    have hcovers := h.covers
    have hcounts := h.counts
    rw [map_append, map_cons] at hcovers hcounts
    have hcut := cutTo_split hcovers hle hlt
    have hrest := hcovers.split.2.2
    have hbehind (b) (hb : b ∈ r) : size ≤ (s.frag b).ofs := by
      have := (Tiles.ordered hrest |>.bounds _ (mem_map_of_mem hb)).1
      simp only [start] at this
      omega
    obtain ⟨hap, har⟩ := not_or.mp fun hin : a ∈ p ∨ a ∈ r =>
      (nodup_middle.mp h.tree.nodup).notMem (mem_append.mpr hin)
    by_cases heq : (s.frag a).ofs = size
    · -- the fragment goes with those behind it
      rw [if_neg (by omega), append_nil] at hcut
      have hcounts' : Counts s.dnode (p.map s.frag ++ (a :: r).map s.frag) := hcounts
      obtain ⟨s', hrun, htree, hfrag, hcounts1, hkeeps⟩ := truncateLoop_spec size h.tree
        hcounts' (by
          intro b hb
          rcases mem_cons.mp hb with rfl | hb
          · omega
          · exact hbehind b hb)
      refine ⟨some a, s, some a, s', p, hlookup, ?_, hrun, htree, ?_, ?_, hkeeps⟩
      · simp [truncateFirst, hget, heq]
      · rw [hfrag, map_append, map_cons, hcut]
      · rw [hfrag]
        exact hcounts1
    · -- the fragment gets smaller
      rw [if_pos (by omega)] at hcut
      let f' : NodeFrag N := { s.frag a with size := size - (s.frag a).ofs }
      have hmap {q : List F} (hq : a ∉ q) : q.map (s.setFrag a f').frag = q.map s.frag :=
        map_update hq f'
      have ha' : (s.setFrag a f').frag a = f' := update_self ..
      have htree1 : RbList (s.setFrag a f').fragtree ((p ++ [a]) ++ r) := by
        simpa [State.setFrag] using h.tree
      have hcounts1 : Counts (s.setFrag a f').dnode
          ((p.map s.frag ++ [f']) ++ r.map (s.setFrag a f').frag) := by
        rw [hmap har]
        refine hcounts.congr fun n => ?_
        simp only [countOf_append, countOf_cons, countOf_nil, f']
        omega
      obtain ⟨s', hrun, htree, hfrag, hcounts2, hkeeps⟩ := truncateLoop_spec size htree1
        hcounts1 (by
          intro b hb
          rw [map_inj_left.mp (hmap har) b hb]
          exact hbehind b hb)
      have hvals : (p ++ [a]).map s'.frag = p.map s.frag ++ [f'] := by
        rw [hfrag, map_append, map_singleton, ha', hmap hap]
      have hk : Keeps s (s.setFrag a f') := .of_eq rfl rfl
      refine ⟨some a, s.setFrag a f', r.head?, s', p ++ [a], hlookup, ?_, hrun, htree, ?_, ?_,
        hk.trans hkeeps⟩
      · have hnext : rbNext (s.setFrag a f').fragtree a = some r.head? := h.tree.next
        simp only [truncateFirst, hget, bind_eq_bind, bind_some]
        rw [if_pos heq, if_pos (by omega), hnext]
        rfl
      · rw [hvals, map_append, map_cons, hcut]
      · rw [hvals]
        exact hcounts2
  · -- there is nothing behind the new end
    have hcut : cutTo size (l.map s.frag) = l.map s.frag := cutTo_of_stop_le h.covers hhi
    have hloop : truncateLoop s size none = some s := by rw [truncateLoop]
    refine ⟨l.getLast?, s, none, s, l, hlookup, ?_, hloop, h.tree, hcut.symm, h.counts,
      .of_eq rfl rfl⟩
    cases hlast : l.getLast? with
    | none => rfl
    | some a =>
      have ha : a ∈ l := mem_of_getLast? hlast
      have hend := h.last hlast
      have hsize := h.covers.size_pos (mem_map_of_mem ha)
      obtain ⟨p, rfl⟩ := getLast?_eq_some_iff.mp hlast
      have hnext : rbNext s.fragtree a = some none := h.tree.next
      simp only [truncateFirst, get_of_live (h.tree.live ha), bind_eq_bind, bind_some]
      rw [if_pos (by omega), if_neg (by omega), hnext]
      rfl

/-- `jffs2_truncate_fragtree` -/
theorem truncateFragtree_spec (size : Nat) (h : Holds s l hi) :
    ∃ s' l', truncateFragtree s size = some (s', min hi size) ∧ Holds s' l' (min hi size) ∧
      l'.map s'.frag = cutTo size (l.map s.frag) ∧ Keeps s s' := by
  obtain ⟨frag, s1, next, s2, l', hlookup, hfirst, hloop, htree, hvals, hcounts, hkeeps⟩ :=
    truncate_spec size h
  have h2 : Holds s2 l' (min hi size) := by
    refine ⟨htree, ?_, hcounts⟩
    rw [hvals]
    have := covers_cutTo (e := size) h.covers (Int.natCast_nonneg _)
    rwa [show (min (hi : Int) size) = ((min hi size : Nat) : Int) by omega] at this
  obtain ⟨s3, hmark, hs3⟩ := markPristine_spec size h2
  refine ⟨s3, l', ?_, h2.marked hs3, by rw [hs3.frag]; exact hvals, hkeeps.trans hs3.keeps⟩
  unfold truncateFragtree
  simp [hlookup, hfirst, hloop, hmark]

/-! ## Runs -/

/-- What callers have to see to, with memory for two fragments: a node is not empty,
ends below 2^32, and is new. -/
def Allowed (s : State F N) : Call F N → Prop
  | .add fn ofs size newfrag spare =>
    0 < size ∧ ofs + size < 2 ^ 32 ∧ s.dnode fn = none ∧ s.flag fn ≠ .REF_OBSOLETE ∧
      ∃ new spare', newfrag = some new ∧ spare = some spare' ∧ new ≠ spare' ∧
        s.fragtree.live new = false ∧ s.fragtree.live spare' = false
  | .truncate _ => True

/-- What a call does to the map from bytes to nodes, for a file that ends at `hi`. -/
def Call.Effect (hi : Nat) (vs vs' : List (NodeFrag N)) : Call F N → Prop
  | .add fn ofs size _ _ => ∀ x v, MapsTo vs' x v ↔
      if ofs ≤ x ∧ x < ofs + size then v = some fn
      else if hi ≤ x ∧ x < ofs then v = none
      else MapsTo vs x v
  | .truncate size => ∀ x v, MapsTo vs' x v ↔ x < size ∧ MapsTo vs x v

/-- What a call returns. -/
def Call.result (hi : Nat) : Call F N → Event
  | .add .. => .added .ok
  | .truncate size => .truncated (min hi size)

/-- A node is freed and marked obsolete when its last byte is gone, and not before. -/
def Released (vs vs' : List (NodeFrag N)) (s s' : State F N) : Prop :=
  ∀ n, (HasBytes vs' n → s'.dnode n ≠ none ∧ s'.flag n ≠ .REF_OBSOLETE) ∧
    (HasBytes vs n → ¬ HasBytes vs' n → s'.dnode n = none ∧ s'.flag n = .REF_OBSOLETE) ∧
    (¬ HasBytes vs n → ¬ HasBytes vs' n → s'.dnode n = none ∧ s'.flag n = s.flag n)

/-- What holds between calls. -/
structure Inv (s : State F N) (l : List F) (hi : Nat) : Prop extends Holds s l hi where
  bound : hi < 2 ^ 32
  flag : ∀ n, s.dnode n ≠ none → s.flag n ≠ .REF_OBSOLETE

/-- One call. -/
theorem step_spec (h : Inv s l hi) {call : Call F N} (hcall : Allowed s call) :
    ∃ s' l' hi', step s call = some (s', [call.result hi]) ∧ Inv s' l' hi' ∧
      call.Effect hi (l.map s.frag) (l'.map s'.frag) ∧
      Released (l.map s.frag) (l'.map s'.frag) s s' := by
  cases call with
  | add fn ofs size newfrag spare =>
    obtain ⟨hsize, hbound, hfn, hflagfn, new, spare', rfl, rfl, hne, hnew, hspare⟩ := hcall
    obtain ⟨s', l', hadd, hs', hvals, hkeeps⟩ :=
      addFullDnodeToInode_spec ofs h.toHolds hsize hnew hspare hne hfn
    have heffect : (Call.add fn ofs size (some new) (some spare')).Effect hi (l.map s.frag)
        (l'.map s'.frag) := by
      intro x v
      rw [hvals, mapsTo_overwrite h.covers]
    have hdnode : ∀ {n}, n ≠ fn → (pendingState s fn ofs size new).dnode n = s.dnode n :=
      fun hn => update_of_ne hn ..
    have hdnodefn : (pendingState s fn ofs size new).dnode fn ≠ none := by simp [pendingState]
    have hflag (n) (hn : s'.dnode n ≠ none) : s'.flag n ≠ .REF_OBSOLETE := by
      refine hkeeps.flag n hn ?_
      by_cases hnfn : n = fn
      · rw [hnfn]
        exact hflagfn
      · refine h.flag n fun hnone => hn (hkeeps.freed n ?_).1
        rw [hdnode hnfn]
        exact hnone
    refine ⟨s', l', _, ?_, ⟨hs', by have := h.bound; omega, hflag⟩, heffect, fun n =>
      ⟨fun hbytes => ?_, fun hbytes hbytes' => ?_, fun hbytes hbytes' => ?_⟩⟩
    · simp [step, hadd, Call.result]
    · have hn : s'.dnode n ≠ none := fun heq => hs'.dnode_eq_none_iff.mp heq hbytes
      exact ⟨hn, hflag n hn⟩
    · have hn' := hs'.dnode_eq_none_iff.mpr hbytes'
      refine ⟨hn', hkeeps.marked n ?_ hn'⟩
      by_cases hnfn : n = fn
      · rw [hnfn]
        exact hdnodefn
      · rw [hdnode hnfn]
        exact fun heq => h.dnode_eq_none_iff.mp heq hbytes
    · have hnfn : n ≠ fn := by
        rintro rfl
        refine hbytes' ⟨ofs, (heffect ofs (some n)).mpr ?_⟩
        rw [if_pos (by omega)]
      refine hkeeps.freed n ?_
      rw [hdnode hnfn]
      exact h.dnode_eq_none_iff.mpr hbytes
  | truncate size =>
    obtain ⟨s', l', htruncate, hs', hvals, hkeeps⟩ := truncateFragtree_spec size h.toHolds
    have hflag (n) (hn : s'.dnode n ≠ none) : s'.flag n ≠ .REF_OBSOLETE :=
      hkeeps.flag n hn (h.flag n fun hnone => hn (hkeeps.freed n hnone).1)
    refine ⟨s', l', _, ?_, ⟨hs', by have := h.bound; omega, hflag⟩, ?_, fun n =>
      ⟨fun hbytes => ?_, fun hbytes hbytes' => ?_, fun hbytes _ => ?_⟩⟩
    · simp [step, htruncate, Call.result]
    · intro x v
      rw [hvals, mapsTo_cutTo]
    · have hn : s'.dnode n ≠ none := fun heq => hs'.dnode_eq_none_iff.mp heq hbytes
      exact ⟨hn, hflag n hn⟩
    · have hn' := hs'.dnode_eq_none_iff.mpr hbytes'
      exact ⟨hn', hkeeps.marked n (fun heq => h.dnode_eq_none_iff.mp heq hbytes) hn'⟩
    · exact hkeeps.freed n (h.dnode_eq_none_iff.mpr hbytes)

/-- An inode without data. -/
structure Empty (s : State F N) : Prop where
  fragtree : s.fragtree.slot .root = none
  dnode : ∀ n, s.dnode n = none

omit [DecidableEq F] in
theorem Empty.inv (h : Empty s) : Inv s [] 0 := by
  refine ⟨⟨⟨.nil, ⟨h.fragtree, trivial, nodup_nil⟩, ⟨rfl, 0, .nil⟩, rfl⟩, rfl, ⟨?_, fun _ _ => rfl⟩⟩,
    by decide, fun n hn => absurd (h.dnode n) hn⟩
  intro n d hd
  rw [h.dnode n] at hd
  cases hd

theorem RunWith.inv {s0 : State F N} (h0 : Empty s0) {evs : List Event}
    (hrun : RunWith Allowed step s0 evs s) : ∃ l hi, Inv s l hi := by
  refine hrun.invariant_of_step ⟨[], 0, h0.inv⟩ ?_
  rintro t call ⟨l, hi, hinv⟩ hcall
  obtain ⟨s', l', hi', hstep, hinv', -⟩ := step_spec hinv hcall
  exact ⟨_, hstep, l', hi', hinv'⟩

/-- The fragment tree after any calls: its fragments, in tree order, cover `[0, hi)`
without gap, overlap or empty fragment; each counter is the number of fragments of its
node; and the next call overwrites or cuts off exactly its bytes and releases the nodes
that have none left. -/
theorem fragtree_run {s₀ : State F N} (h₀ : Empty s₀) {evs : List Event}
    (hrun : RunWith Allowed step s₀ evs s) :
    ∃ (l : List F) (hi : Nat), RbList s.fragtree l ∧ (∀ l', RbList s.fragtree l' → l' = l) ∧ hi < 2 ^ 32 ∧
      Covers 0 hi (l.map s.frag) ∧
      (∀ n d, s.dnode n = some d → d.frags = countOf n (l.map s.frag)) ∧
      (∀ n, s.dnode n = none ↔ ¬ HasBytes (l.map s.frag) n) ∧
      ∀ call, Allowed s call →
        ∃ s' l', step s call = some (s', [call.result hi]) ∧ RbList s'.fragtree l' ∧
          call.Effect hi (l.map s.frag) (l'.map s'.frag) ∧
          Released (l.map s.frag) (l'.map s'.frag) s s' := by
  obtain ⟨l, hi, hs⟩ := RunWith.inv h₀ hrun
  refine ⟨l, hi, hs.tree, fun l' hl' => hs.tree.unique hl', hs.bound, hs.covers,
    fun n d hd => (hs.counts.some n d hd).1, fun n => hs.dnode_eq_none_iff, fun call hcall => ?_⟩
  obtain ⟨s', l', hi', hstep, hs', heffect, hreleased⟩ := step_spec hs hcall
  exact ⟨s', l', hstep, hs'.tree, heffect, hreleased⟩

/-- An inode with one node of eight bytes to come, and memory everywhere. -/
def noFrags : State Nat Nat :=
  ⟨⟨fun _ => false, fun _ => none, fun _ => .red, fun _ => none⟩, fun _ => ⟨none, 0, 0⟩,
    fun _ => none, fun _ => .REF_UNCHECKED⟩

/-- Eight bytes are written, and three of them remain. -/
theorem fragtree_run_cut : ∃ s l evs, RunWith Allowed step noFrags evs s ∧ evs.length = 2 ∧
    RbList s.fragtree l ∧ ∀ x v, MapsTo (l.map s.frag) x v ↔ x < 3 ∧ v = some 0 := by
  have hempty : Empty noFrags := ⟨rfl, fun _ => rfl⟩
  let call : Call Nat Nat := .add 0 0 8 (some 0) (some 1)
  have hcall : Allowed noFrags call :=
    ⟨by decide, by decide, rfl, by simp [noFrags], 0, 1, rfl, rfl, by decide, rfl, rfl⟩
  obtain ⟨l, hi, hl, -, -, hcovers, -, -, hnext⟩ := fragtree_run hempty (.refl noFrags)
  obtain ⟨s1, l1, hstep1, hl1, heffect1, -⟩ := hnext call hcall
  have hrun1 := RunWith.tail call (.refl noFrags) hcall hstep1
  obtain ⟨l', hi', hl', hunique, -, -, -, -, hnext'⟩ := fragtree_run hempty hrun1
  obtain ⟨s2, l2, hstep2, hl2, heffect2, -⟩ := hnext' (.truncate 3) trivial
  refine ⟨s2, l2, _, .tail (.truncate 3) hrun1 trivial hstep2, rfl, hl2, fun x v => ?_⟩
  obtain rfl := hunique l1 hl1
  rw [heffect2 x v, heffect1 x v]
  refine and_congr_right fun hx => ?_
  rw [if_pos (by omega)]

end LinuxKernel.Fs.Jffs2
