/-
  What the steps on the fragment tree do.

  Each function of the model is described by the list of fragments before and after
  it, their values, and the reference counts of the data nodes.
-/
import LinuxKernel.Fs.Jffs2Frags

namespace LinuxKernel.Fs.Jffs2

open Foundation Foundation.ColorTree Lib.Rbtree NodeFrag Function List Ctx State

variable {v : Option FullDnode}

section

variable {F N : Type} [DecidableEq N] {s s' s'' : State F N} {n : N}
  {ws ws' : List (NodeFrag N)}

/-! ## Data nodes -/

/-- The counters say how often each node occurs in `ws`, and a node that does not occur
is not there. -/
structure Counts (dnode : N → Option FullDnode) (ws : List (NodeFrag N)) : Prop where
  some : ∀ n d, dnode n = some d → d.frags = countOf n ws ∧ 0 < countOf n ws
  none : ∀ n, dnode n = none → countOf n ws = 0

section

variable {dnode : N → Option FullDnode} (h : Counts dnode ws)
include h

theorem Counts.congr (heq : ∀ n, countOf n ws' = countOf n ws) : Counts dnode ws' := by
  refine ⟨fun n d hd => ?_, fun n hn => ?_⟩
  · rw [heq n]
    exact h.some n d hd
  · rw [heq n]
    exact h.none n hn

theorem Counts.live (hn : 0 < countOf n ws) : dnode n ≠ .none := by
  intro heq
  have := h.none n heq
  omega

theorem Counts.live_of_mem {f : NodeFrag N}
    (hf : f ∈ ws) (hn : f.node = .some n) : dnode n ≠ .none :=
  h.live (countP_pos_iff.mpr ⟨f, hf, by simpa using hn⟩)

/-- One node has a new counter. -/
theorem Counts.update (hsome : ∀ d, v = .some d → d.frags = countOf n ws' ∧ 0 < countOf n ws')
    (hnone : v = .none → countOf n ws' = 0) (hother : ∀ m, m ≠ n → countOf m ws' = countOf m ws) :
    Counts (update dnode n v) ws' := by
  constructor
  · refine (forall_update_iff dnode fun m v => ∀ d, v = .some d →
      d.frags = countOf m ws' ∧ 0 < countOf m ws').mpr ⟨hsome, fun m hmn => ?_⟩
    rw [hother m hmn]
    exact h.some m
  · refine (forall_update_iff dnode fun m v => v = .none → countOf m ws' = 0).mpr
      ⟨hnone, fun m hmn => ?_⟩
    rw [hother m hmn]
    exact h.none m

end

/-- What happens to data nodes: one that is freed is marked obsolete, and no other one. -/
structure Keeps (s s' : State F N) : Prop where
  freed : ∀ n, s.dnode n = none → s'.dnode n = none ∧ s'.flag n = s.flag n
  marked : ∀ n, s.dnode n ≠ none → s'.dnode n = none → s'.flag n = .REF_OBSOLETE
  flag : ∀ n, s'.dnode n ≠ none → s.flag n ≠ .REF_OBSOLETE → s'.flag n ≠ .REF_OBSOLETE

omit [DecidableEq N] in
theorem Keeps.of_eq (hdnode : s'.dnode = s.dnode) (hflag : s'.flag = s.flag) : Keeps s s' := by
  refine ⟨fun n hn => ⟨by rw [hdnode]; exact hn, by rw [hflag]⟩, fun n hn hn' => ?_, fun n _ hf => ?_⟩
  · rw [hdnode] at hn'
    exact absurd hn' hn
  · rw [hflag]
    exact hf

omit [DecidableEq N] in
theorem Keeps.trans (h : Keeps s s') (h' : Keeps s' s'') : Keeps s s'' := by
  refine ⟨fun n hn => ?_, fun n hn hn'' => ?_, fun n hn'' hf => ?_⟩
  · obtain ⟨h1, h2⟩ := h.freed n hn
    obtain ⟨h3, h4⟩ := h'.freed n h1
    exact ⟨h3, h4.trans h2⟩
  · by_cases hn' : s'.dnode n = none
    · rw [(h'.freed n hn').2]
      exact h.marked n hn hn'
    · exact h'.marked n hn' hn''
  · have hn' : s'.dnode n ≠ none := fun heq => hn'' (h'.freed n heq).1
    exact h'.flag n hn'' (h.flag n hn' hf)

/-- Only flags have changed. -/
structure Marked (s s' : State F N) : Prop where
  fragtree : s'.fragtree = s.fragtree
  frag : s'.frag = s.frag
  dnode : s'.dnode = s.dnode
  keeps : Keeps s s'

omit [DecidableEq N] in
theorem Marked.refl (s : State F N) : Marked s s := ⟨rfl, rfl, rfl, .of_eq rfl rfl⟩

omit [DecidableEq N] in
theorem Marked.trans (h : Marked s s') (h' : Marked s' s'') : Marked s s'' :=
  ⟨h'.fragtree.trans h.fragtree, h'.frag.trans h.frag, h'.dnode.trans h.dnode, h.keeps.trans h'.keeps⟩

section

variable (hn : s.dnode n ≠ none)
include hn

/-- One node is freed and marked, or gets a new counter. -/
theorem keeps_update (hdnode : s'.dnode = update s.dnode n v)
    (hflag : ∀ m, m ≠ n → s'.flag m = s.flag m) (hnone : v = none → s'.flag n = .REF_OBSOLETE)
    (hsome : v ≠ none → s.flag n ≠ .REF_OBSOLETE → s'.flag n ≠ .REF_OBSOLETE) : Keeps s s' := by
  refine ⟨fun m hm => ?_, ?_, ?_⟩ <;> rw [hdnode]
  · have hmn : m ≠ n := by
      rintro rfl
      exact hn hm
    rw [update_of_ne hmn]
    exact ⟨hm, hflag m hmn⟩
  · exact (forall_update_iff s.dnode fun m v => s.dnode m ≠ none → v = none →
      s'.flag m = .REF_OBSOLETE).mpr ⟨fun _ => hnone, fun m _ hm hm' => absurd hm' hm⟩
  · refine (forall_update_iff s.dnode fun m v => v ≠ none → s.flag m ≠ .REF_OBSOLETE →
      s'.flag m ≠ .REF_OBSOLETE).mpr ⟨hsome, fun m hmn _ => ?_⟩
    rw [hflag m hmn]
    exact id

/-- A flag other than REF_OBSOLETE, for a node that is there. -/
theorem marked_setFlag {flag : RefFlag} (hflag : flag ≠ .REF_OBSOLETE) :
    Marked s { s with flag := update s.flag n flag } := by
  refine ⟨rfl, rfl, rfl, keeps_update hn (update_eq_self ..).symm
    (fun m hm => update_of_ne hm ..) (fun heq => absurd heq hn) fun _ _ => ?_⟩
  show update s.flag n flag n ≠ _
  rw [update_self]
  exact hflag

theorem markRefNormal_spec : ∃ s', s.markRefNormal n = some s' ∧ Marked s s' := by
  obtain ⟨d, hd⟩ := Option.ne_none_iff_exists'.mp hn
  exact ⟨_, by rw [State.markRefNormal, hd], marked_setFlag hn (by simp)⟩

end

theorem markIf_spec {node : Option N} (hnode : ∀ n, node = some n → s.dnode n ≠ none) :
    ∃ s', s.markIf node = some s' ∧ Marked s s' := by
  cases node with
  | none => exact ⟨s, rfl, .refl s⟩
  | some n => exact markRefNormal_spec (hnode n rfl)

/-! ## Fragments -/

variable {l p r : List F} {a : F}

omit [DecidableEq N] in
theorem get_of_live (h : s.fragtree.live a = true) : s.get a = some (s.frag a) := by
  rw [State.get, if_pos h]

variable [DecidableEq F]

/-- A tree does not change when memory outside it is allocated or freed. -/
theorem RbList.setLive {h : RbHeap F} (hl : RbList h l) (ha : a ∉ l) (b : Bool) :
    RbList { h with live := update h.live a b } l := by
  refine hl.frame (fun x hx => ⟨?_, rfl, rfl, fun _ => rfl⟩) rfl
  have hne : x ≠ a := by
    rintro rfl
    exact ha hx
  exact update_of_ne hne ..

/-- `jffs2_obsolete_node_frag` for a fragment that is no longer in the tree. -/
theorem obsoleteNodeFrag_spec (hlive : s.fragtree.live a = true) (hl : RbList s.fragtree l)
    (ha : a ∉ l) (hcounts : Counts s.dnode (s.frag a :: ws)) :
    ∃ s', obsoleteNodeFrag s a = some s' ∧ RbList s'.fragtree l ∧ s'.frag = s.frag ∧
      Counts s'.dnode ws ∧ Keeps s s' := by
  have htree := RbList.setLive hl ha false
  unfold obsoleteNodeFrag
  simp only [get_of_live hlive, Option.bind_eq_bind, Option.bind_some]
  cases hnode : (s.frag a).node with
  | none =>
    refine ⟨_, rfl, htree, rfl, hcounts.congr fun n => ?_, .of_eq rfl rfl⟩
    rw [countOf_cons, hnode]
    simp
  | some n =>
    have hn : s.dnode n ≠ none := hcounts.live_of_mem mem_cons_self hnode
    obtain ⟨d, hd⟩ := Option.ne_none_iff_exists'.mp hn
    have hcount (m) : countOf m (s.frag a :: ws) = countOf m ws + if n = m then 1 else 0 := by
      rw [countOf_cons, hnode]
      simp
    have hfrags : d.frags = countOf n ws + 1 := by
      have := (hcounts.some n d hd).1
      rw [hcount n, if_pos rfl] at this
      exact this
    -- the counters of the other nodes
    have hother (m) (hm : m ≠ n) : countOf m ws = countOf m (s.frag a :: ws) := by
      rw [hcount m, if_neg (Ne.symm hm), Nat.add_zero]
    simp only [hd, Option.bind_some]
    by_cases hzero : d.frags - 1 = 0
    · rw [if_pos hzero]
      refine ⟨_, rfl, htree, rfl, hcounts.update (by simp) (fun _ => by omega) hother,
        keeps_update hn rfl (fun m hm => update_of_ne hm ..)
          (fun _ => update_self ..) fun h => absurd rfl h⟩
    · rw [if_neg hzero]
      refine ⟨_, rfl, htree, rfl, hcounts.update ?_ (by simp) hother,
        keeps_update hn rfl (fun m hm => update_of_ne hm ..) (by simp) fun _ _ => ?_⟩
      · rintro e ⟨⟩
        exact ⟨by simp only; omega, by omega⟩
      · show update s.flag n .REF_NORMAL n ≠ _
        simp

end

/-! ## Looking up a byte -/

section

variable {F N : Type} {s : State F N} {l p r : List F} {a : F} {hi : Int} {ofs : Nat}

/-- Fragments of a tree that covers a range, in order. -/
abbrev InOrder (s : State F N) (l : List F) : Prop :=
  l.Pairwise fun a b => (s.frag a).stop ≤ (s.frag b).start

theorem Covers.inOrder {lo : Int} (h : Covers lo hi (l.map s.frag)) : InOrder s l :=
  pairwise_map.mp h.ordered.pairwise

/-- The descent of `jffs2_lookup_node_frag`. -/
theorem lookupLoop_spec (offset : Nat) (hsize : ∀ a ∈ l, 0 < (s.frag a).size)
    (horder : InOrder s l) (t : ColorTree F) (ctx : Ctx F) {prev : Option F}
    (hrep : Represents s.fragtree (ctx.fill t)) (hl : (ctx.fill t).toList = l)
    (hbefore : ∀ a ∈ before ctx, (s.frag a).ofs + (s.frag a).size ≤ offset)
    (hafter : ∀ a ∈ Ctx.after ctx, offset < (s.frag a).ofs)
    (hprev : prev = (before ctx).getLast?) :
    (∃ a ∈ l, lookupLoop s offset t.root prev = some (some a) ∧ (s.frag a).Has offset) ∨
      ∃ p r, l = p ++ r ∧ (∀ a ∈ p, (s.frag a).ofs + (s.frag a).size ≤ offset) ∧
        (∀ a ∈ r, offset < (s.frag a).ofs) ∧ lookupLoop s offset t.root prev = some p.getLast? := by
  induction t generalizing ctx prev with
  | nil =>
    right
    refine ⟨before ctx, Ctx.after ctx, ?_, hbefore, hafter, ?_⟩
    · rw [← hl, toList_fill]
      simp
    · rw [hprev, ColorTree.root_nil, lookupLoop]
  | node c tl a tr ihl ihr =>
    have hlist : l = (before ctx ++ tl.toList) ++ a :: (tr.toList ++ Ctx.after ctx) := by
      rw [← hl, toList_fill]
      simp
    have hleft := Represents.rbChild (d := .left) hrep
    have hright := Represents.rbChild_opp (d := .left) hrep
    have hget : s.get a = some (s.frag a) := get_of_live (Represents.live (d := .left) hrep)
    have ha : a ∈ l := by rw [hlist]; simp
    -- what is in front of `a` and behind it
    have hsplit := horder
    rw [hlist] at hsplit
    obtain ⟨-, hrest, hfront⟩ := pairwise_append.mp hsplit
    have hback := (pairwise_cons.mp hrest).1
    have hstep : lookupLoop s offset (ColorTree.node c tl a tr).root prev =
        if (s.frag a).ofs + (s.frag a).size ≤ offset then
          lookupLoop s offset tr.root (closer s prev a (s.frag a).ofs)
        else if (s.frag a).ofs > offset then lookupLoop s offset tl.root prev
        else some (some a) := by
      rw [ColorTree.root_node, lookupLoop]
      simp only [hget, hleft]
      rw [show s.fragtree.rbChild a .right = some tr.root from hright]
      rfl
    by_cases hend : (s.frag a).ofs + (s.frag a).size ≤ offset
    · -- the fragment is the closest smaller one so far
      rw [hstep, if_pos hend]
      have hbefore' : before (⟨.right, c, a, tl⟩ :: ctx) = before ctx ++ (tl.toList ++ [a]) :=
        rfl
      refine ihr (⟨.right, c, a, tl⟩ :: ctx) hrep hl ?_ hafter ?_
      · intro x hx
        rw [hbefore', ← append_assoc] at hx
        rcases mem_append.mp hx with hx | hx
        · have := hfront x hx a mem_cons_self
          simp only [start, stop] at this
          omega
        · obtain rfl : x = a := by simpa using hx
          exact hend
      · have hlast : (before (⟨.right, c, a, tl⟩ :: ctx)).getLast? = some a := by
          rw [hbefore']
          simp
        rw [hlast, hprev]
        cases hp : (before ctx).getLast? with
        | none => rfl
        | some b =>
          have hb : b ∈ before ctx := mem_of_getLast? hp
          have hba := hfront b (mem_append_left _ hb) a mem_cons_self
          have hbsize := hsize b (by rw [hlist]; simp [hb])
          simp only [start, stop] at hba
          rw [closer, if_pos (by omega)]
    · rw [if_neg hend] at hstep
      by_cases hofs : (s.frag a).ofs > offset
      · rw [hstep, if_pos hofs]
        refine ihl (⟨.left, c, a, tr⟩ :: ctx) hrep hl hbefore ?_ hprev
        intro x hx
        have hx' : x ∈ a :: tr.toList ++ Ctx.after ctx := hx
        rcases mem_cons.mp hx' with rfl | hx'
        · exact hofs
        · have := hback x hx'
          simp only [start, stop] at this
          omega
      · left
        refine ⟨a, ha, ?_, ?_⟩
        · rw [hstep, if_neg hofs]
        · simp only [Has]
          omega

/-- `jffs2_lookup_node_frag`: the fragment with the byte, or the last one. -/
theorem lookupNodeFrag_spec (offset : Nat) (hl : RbList s.fragtree l) (hcovers : Covers 0 hi (l.map s.frag)) :
    (∃ p a r, l = p ++ a :: r ∧ lookupNodeFrag s offset = some (some a) ∧ (s.frag a).Has offset) ∨
      hi ≤ offset ∧ lookupNodeFrag s offset = some l.getLast? := by
  have hmem (a) (ha : a ∈ l) : s.frag a ∈ l.map s.frag := mem_map_of_mem ha
  obtain ⟨t, hrep, -, hlist⟩ := hl
  unfold lookupNodeFrag
  rw [hrep.root]
  rcases lookupLoop_spec offset (fun a ha => hcovers.size_pos (hmem a ha))
      hcovers.inOrder t [] hrep hlist (by simp [before]) (by simp [Ctx.after]) rfl
    with ⟨a, ha, hrun, hhas⟩ | ⟨p, r, rfl, hp, hr, hrun⟩
  · left
    obtain ⟨p, r, rfl⟩ := append_of_mem ha
    exact ⟨p, a, r, rfl, hrun, hhas⟩
  right
  have hhi : hi ≤ offset := by
    by_contra hlt
    obtain ⟨f, hf, h1, h2⟩ := Tiles.exists_mem hcovers (i := (offset : Int))
      (Int.natCast_nonneg _) (by omega)
    obtain ⟨a, ha, rfl⟩ := mem_map.mp hf
    simp only [start, stop] at h1 h2
    rcases mem_append.mp ha with ha | ha
    · have := hp a ha
      omega
    · have := hr a ha
      omega
  have hnil : r = [] := by
    cases r with
    | nil => rfl
    | cons a r =>
      have := hr a mem_cons_self
      obtain ⟨-, h1, h2⟩ := hcovers.ordered.bounds (s.frag a) (hmem a (by simp))
      simp only [stop] at h1 h2
      omega
  subst hnil
  rw [append_nil]
  exact ⟨hhi, hrun⟩

/-! ## Inserting behind a fragment -/

/-- Down to the left, past fragments that are all behind the new one. -/
theorem insertLoop_left (t : ColorTree F) (ctx : Ctx F) {x : F}
    (hrep : Represents s.fragtree (ctx.fill t)) (hx : t.root = some x)
    (hofs : ∀ b ∈ t.toList, ofs < (s.frag b).ofs) :
    ∃ (ctx' : Ctx F) (parent : F), insertLoop s ofs x = some (parent, hole ctx') ∧
      top ctx' = some parent ∧ ctx'.fill .nil = ctx.fill t ∧ before ctx' = before ctx ∧
      Ctx.after ctx' = t.toList ++ Ctx.after ctx := by
  induction t generalizing ctx x with
  | nil => simp at hx
  | node c tl a tr ihl _ =>
    obtain rfl : a = x := by simpa using hx
    have hget : s.get a = some (s.frag a) := get_of_live (Represents.live (d := .left) hrep)
    have hleft := Represents.rbChild (d := .left) hrep
    have hlt : ofs < (s.frag a).ofs := hofs a (by simp)
    cases htl : tl.root with
    | none =>
      obtain rfl := root_eq_none_iff.mp htl
      refine ⟨⟨.left, c, a, tr⟩ :: ctx, a, ?_, rfl, rfl, rfl, ?_⟩
      · rw [insertLoop]
        simp [hget, Nat.not_lt_of_lt hlt, hlt, hleft]
      · simp [Ctx.after]
    | some y =>
      obtain ⟨ctx', parent, hrun, htop, hfill, hbefore, hafter⟩ :=
        ihl (⟨.left, c, a, tr⟩ :: ctx) hrep htl fun b hb => hofs b (by simp [hb])
      refine ⟨ctx', parent, ?_, htop, hfill, hbefore, ?_⟩
      · rw [insertLoop]
        simp [hget, Nat.not_lt_of_lt hlt, hlt, hleft, htl, hrun]
      · rw [hafter]
        simp [Ctx.after]

/-- The place directly behind a fragment. -/
theorem insertLoop_spec (hl : RbList s.fragtree (p ++ a :: r)) (ha : (s.frag a).ofs < ofs)
    (hr : ∀ b ∈ r, ofs < (s.frag b).ofs) :
    ∃ (ctx : Ctx F) (parent : F), insertLoop s ofs a = some (parent, hole ctx) ∧
      top ctx = some parent ∧ Represents s.fragtree (ctx.fill .nil) ∧
      (ctx.fill .nil).RedBlack ∧ before ctx = p ++ [a] ∧ Ctx.after ctx = r := by
  obtain ⟨ctx, c, tl, tr, hrep, hrb, rfl, rfl⟩ := hl.focus
  have hget : s.get a = some (s.frag a) := get_of_live (Represents.live (d := .left) hrep)
  have hright : s.fragtree.rbChild a .right = some tr.root :=
    Represents.rbChild_opp (d := .left) hrep
  cases htr : tr.root with
  | none =>
    obtain rfl := root_eq_none_iff.mp htr
    refine ⟨⟨.right, c, a, tl⟩ :: ctx, a, ?_, rfl, hrep, hrb, ?_, ?_⟩
    · rw [insertLoop]
      simp [hget, ha, hright]
    · simp [before]
    · simp [Ctx.after]
  | some y =>
    obtain ⟨ctx', parent, hrun, htop, hfill, hbefore, hafter⟩ :=
      insertLoop_left tr (⟨.right, c, a, tl⟩ :: ctx) hrep htr
        fun b hb => hr b (mem_append_left _ hb)
    refine ⟨ctx', parent, ?_, htop, ?_, ?_, ?_, ?_⟩
    · rw [insertLoop]
      simp [hget, ha, hright, htr, hrun]
    · rw [hfill]
      exact hrep
    · rw [hfill]
      exact hrb
    · rw [hbefore]
      simp [before]
    · rw [hafter]
      simp [Ctx.after]

variable [DecidableEq F]

/-- `jffs2_fragtree_insert` and `rb_insert_color`, directly behind a fragment. -/
theorem fragtreeInsert_spec (new : F) (hl : RbList s.fragtree (p ++ a :: r))
    (hlive : s.fragtree.live new = true) (hnew : new ∉ p ++ a :: r)
    (ha : (s.frag a).ofs < (s.frag new).ofs) (hr : ∀ b ∈ r, (s.frag new).ofs < (s.frag b).ofs) :
    ∃ h, fragtreeInsert s new a = some { s with fragtree := h } ∧ h.live = s.fragtree.live ∧
      RbList h (p ++ a :: new :: r) := by
  obtain ⟨ctx, parent, hrun, htop, hrep, hrb, hbefore, hafter⟩ := insertLoop_spec hl ha hr
  obtain ⟨h1, h, hlink, hcolor, hlive', hlist⟩ := RbList.insert ctx hrep hrb hlive (by
    rw [hbefore, hafter]
    simpa using hnew)
  rw [hbefore, hafter] at hlist
  rw [htop] at hlink
  refine ⟨h, ?_, hlive', by simpa using hlist⟩
  unfold fragtreeInsert linkColor
  simp [get_of_live hlive, hrun, hlink, hcolor]

/-- Behind the last fragment. -/
theorem linkLast_spec (new : F) (hl : RbList s.fragtree l) (hlive : s.fragtree.live new = true)
    (hnew : new ∉ l) :
    ∃ h, linkLast s new l.getLast? = some { s with fragtree := h } ∧ h.live = s.fragtree.live ∧
      RbList h (l ++ [new]) := by
  rcases eq_nil_or_concat' l with rfl | ⟨p, a, rfl⟩
  · obtain ⟨h1, h, hlink, hcolor, hlive', hlist⟩ := hl.insert_root hlive
    exact ⟨h, by simp [linkLast, linkColor, hlink, hcolor], hlive', hlist⟩
  · obtain ⟨h1, h, hlink, hcolor, hlive', hlist⟩ := hl.insert_last hlive hnew
    refine ⟨h, ?_, hlive', by simpa using hlist⟩
    simp [linkLast, linkColor, hlink, hcolor]

end

end LinuxKernel.Fs.Jffs2
