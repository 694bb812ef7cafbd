/-
  Priority-sorted lists.

  Source: lib/plist.c, `plist_add`, `plist_del`; include/linux/plist.h,
  `plist_node_init`, `plist_first`, `plist_node_empty`.

  A `plist_head` has the links of two circular lists, and so has the `plist` of each
  node: `node_list` goes through all nodes, `prio_list` through one node of each
  priority.  The head is not in a node, but the code treats it as the `plist` of one.
-/
import LinuxKernel.Foundation.Loop
import LinuxKernel.Foundation.Run
import LinuxKernel.Lib.ListHead

namespace LinuxKernel.Lib.Plist

open Foundation Lib.ListHead List

variable {α : Type} {a : α}

/-! ## lib/plist.c -/

/-- Where a `struct plist_head` is: the head, or a node's `plist`. -/
inductive Loc (α : Type) where
  | head
  | node (a : α)
  deriving DecidableEq

structure State (α : Type) where
  prioList : Links (Loc α)
  nodeList : Links (Loc α)
  prio : α → Int

section

variable [DecidableEq α]

/-- `plist_node_init` -/
def plistNodeInit (s : State α) (node : α) (prio : Int) : State α where
  prioList := initListHead s.prioList (.node node)
  nodeList := initListHead s.nodeList (.node node)
  prio := Function.update s.prio node prio

/-- `plist_node_empty` -/
def plistNodeEmpty (s : State α) (node : α) : Bool := listEmpty s.nodeList (.node node)

/-- `plist_first`, of the head or of the `plist` of a node. -/
def plistFirst (s : State α) (plist : Loc α) : Loc α := s.nodeList.next plist

/-- Where `plist_add` goes on. -/
inductive Label where
  | ltPrio
  | eqPrio
  deriving DecidableEq

/-- One round of the loop of `plist_add`: the label and `iter` there. -/
def findRound (s : State α) (prio : Int) : Loc α → Option ((Label × Loc α) ⊕ Loc α)
  | .head => some (.inl (.ltPrio, .head))
  | .node iter =>
    if prio < s.prio iter then some (.inl (.ltPrio, .node iter))
    else if prio = s.prio iter then some (.inl (.eqPrio, s.prioList.next (.node iter)))
    else some (.inr (s.prioList.next (.node iter)))

/-- `plist_add` -/
def plistAdd (s : State α) (node : α) : Option (State α) := do
  let (label, iter) ← loop (findRound s (s.prio node)) (s.prioList.next .head)
  let prioList := if label = .ltPrio then listAddTail s.prioList (.node node) iter else s.prioList
  some { s with prioList, nodeList := listAddTail s.nodeList (.node node) iter }

/-- The part of `plist_del` for a node on `prio_list`: the next node takes its place. -/
def promoteNext (s : State α) (node : α) : Links (Loc α) :=
  let next := plistFirst s (.node node)
  listDelInit (listMoveTail s.prioList next (.node node)) (.node node)

/-- `plist_del` -/
def plistDel (s : State α) (node : α) : State α :=
  { s with
    prioList := if !listEmpty s.prioList (.node node) then promoteNext s node else s.prioList
    nodeList := listDelInit s.nodeList (.node node) }

/-! ## Calls -/

inductive Call (α : Type) where
  | init (node : α) (prio : Int)
  | add (node : α)
  | del (node : α)

def step (s : State α) : Call α → Option (State α × List (Call α))
  | .init node prio => some (plistNodeInit s node prio, [.init node prio])
  | .add node => (plistAdd s node).map fun s => (s, [.add node])
  | .del node => some (plistDel s node, [.del node])

/-- Only a node that is not on a list is initialised or added, as the `WARN_ON` in
`plist_add` has it. -/
def Allowed (s : State α) : Call α → Prop
  | .init node _ => plistNodeEmpty s node = true
  | .add node => plistNodeEmpty s node = true
  | .del _ => True

end

/-! ## One list -/

section

variable {links : Links (Loc α)} {l l₁ l₂ : List α} {b : α}

/-- The list goes through the nodes `l`; the links of the other nodes are not in use. -/
structure ListOk (links : Links (Loc α)) (l : List α) : Prop where
  ring : Ring links .head (l.map .node)
  alone : ∀ a, a ∉ l → links.Alone (.node a)

/-- The node behind the nodes `l₁`, or the head. -/
def startOf (l₂ : List α) : Loc α := (l₂.map Loc.node).headD .head

theorem node_mem : Loc.node a ∈ Loc.head :: l.map Loc.node ↔ a ∈ l := by simp

theorem not_mem_middle : b ∉ l₁ ++ a :: l₂ ↔ b ≠ a ∧ b ∉ l₁ ++ l₂ := by
  rw [mem_append, mem_cons, mem_append]
  tauto

namespace ListOk

theorem nodup (hl : ListOk links l) : l.Nodup := List.Nodup.of_map _ (nodup_cons.mp hl.ring.nodup).2

theorem ring_append (hl : ListOk links (l₁ ++ l₂)) :
    Ring links .head (l₁.map .node ++ l₂.map .node) := by
  rw [← map_append]
  exact hl.ring

theorem ring_cons (hl : ListOk links (l₁ ++ a :: l₂)) :
    Ring links .head (l₁.map .node ++ .node a :: l₂.map .node) := hl.ring_append

theorem next_eq (hl : ListOk links (l₁ ++ a :: l₂)) : links.next (.node a) = startOf l₂ :=
  hl.ring_cons.neighbours.2

theorem first_eq (hl : ListOk links l) : links.next .head = startOf l := hl.ring.next.first

variable [DecidableEq α]

/-- A node is on the list exactly when its links are in use. -/
theorem empty_iff (hl : ListOk links l) : listEmpty links (.node a) = true ↔ a ∉ l := by
  constructor
  · intro hempty hmem
    obtain ⟨l₁, l₂, rfl⟩ := append_of_mem hmem
    rw [listEmpty_of_ring hl.ring_cons] at hempty
    cases hempty
  · intro hmem
    exact listEmpty_of_alone (hl.alone a hmem)

theorem add (hl : ListOk links (l₁ ++ l₂)) (hnew : a ∉ l₁ ++ l₂) :
    ListOk (listAddTail links (.node a) (startOf l₂)) (l₁ ++ a :: l₂) := by
  have hnew' : Loc.node a ∉ Loc.head :: (l₁.map Loc.node ++ l₂.map Loc.node) := by
    rwa [← map_append, node_mem]
  obtain ⟨hring, hkept⟩ := listAddTail_ring hl.ring_append hnew'
  refine ⟨by rw [map_append]; exact hring, fun b hb => ?_⟩
  obtain ⟨hba, hbl⟩ := not_mem_middle.mp hb
  refine (hkept (.node b) (fun heq => hba (Loc.node.inj heq)) ?_).alone (hl.alone b hbl)
  rwa [← map_append, node_mem]

section

variable (hl : ListOk links (l₁ ++ a :: l₂))
include hl

theorem del : ListOk (listDelInit links (.node a)) (l₁ ++ l₂) := by
  obtain ⟨hring, halone, hkept⟩ := listDelInit_ring hl.ring_cons
  refine ⟨by rw [map_append]; exact hring, fun b hb => ?_⟩
  by_cases hba : b = a
  · exact hba ▸ halone
  · have hb' := hl.alone b (not_mem_middle.mpr ⟨hba, hb⟩)
    refine (hkept (.node b) (fun heq => hba (Loc.node.inj heq)) ?_).alone hb'
    rwa [← map_append, node_mem]

/-- A node that is not on the list takes the place of `a`. -/
theorem replace (hb : b ∉ l₁ ++ a :: l₂) :
    ListOk (listDelInit (listMoveTail links (.node b) (.node a)) (.node a)) (l₁ ++ b :: l₂) := by
  rw [listMoveTail_alone (hl.alone b hb)]
  have hadd := hl.add hb
  have heq : l₁ ++ b :: a :: l₂ = (l₁ ++ [b]) ++ a :: l₂ := by simp
  rw [heq] at hadd
  have hdel := hadd.del
  rwa [append_assoc] at hdel

/-- The node behind `a`, or the head, takes the place of `a`. -/
theorem replaceByNext :
    ListOk (listDelInit (listMoveTail links (startOf l₂) (.node a)) (.node a)) (l₁ ++ l₂) := by
  obtain ⟨hring, halone, hkept⟩ := replaceByNext_ring hl.ring_cons
  rw [hl.next_eq] at hring halone hkept
  refine ⟨by rw [map_append]; exact hring, fun b hb => ?_⟩
  by_cases hba : b = a
  · exact hba ▸ halone
  have hb' := not_mem_middle.mpr ⟨hba, hb⟩
  refine (hkept (.node b) ?_).alone (hl.alone b hb')
  intro hmem
  refine hb' (node_mem.mp ?_)
  rwa [map_append]

end

end ListOk

end

/-! ## Groups of equal priority -/

section

/-- A node of `prio_list` and the other nodes of its priority. -/
abbrev Group (α : Type) := α × List α

/-- The nodes of `prio_list`. -/
def leaders (gs : List (Group α)) : List α := gs.map Prod.fst

/-- The nodes of `node_list`. -/
def members (gs : List (Group α)) : List α := gs.flatMap fun g => g.1 :: g.2

@[simp] theorem leaders_append (gs gs' : List (Group α)) :
    leaders (gs ++ gs') = leaders gs ++ leaders gs' := map_append

@[simp] theorem leaders_cons (g : Group α) (gs : List (Group α)) :
    leaders (g :: gs) = g.1 :: leaders gs := rfl

@[simp] theorem members_nil : members ([] : List (Group α)) = [] := rfl

@[simp] theorem members_append (gs gs' : List (Group α)) :
    members (gs ++ gs') = members gs ++ members gs' := flatMap_append

@[simp] theorem members_cons (g : Group α) (gs : List (Group α)) :
    members (g :: gs) = g.1 :: (g.2 ++ members gs) := rfl

theorem mem_members {gs : List (Group α)} : a ∈ members gs ↔ ∃ g ∈ gs, a = g.1 ∨ a ∈ g.2 := by
  simp [members]

theorem leaders_sublist (gs : List (Group α)) : (leaders gs).Sublist (members gs) := by
  induction gs with
  | nil => exact List.Sublist.slnil
  | cons g gs ih => exact (ih.trans (sublist_append_right g.2 _)).cons_cons g.1

theorem not_mem_leaders {gs : List (Group α)} (ha : a ∉ members gs) : a ∉ leaders gs :=
  fun hmem => ha ((leaders_sublist gs).subset hmem)

/-- Groups begin at the same place in both lists. -/
theorem startOf_members (gs : List (Group α)) : startOf (members gs) = startOf (leaders gs) := by
  cases gs with
  | nil => rfl
  | cons g gs => rfl

/-- The two lists in memory, by groups. -/
structure Holds (s : State α) (gs : List (Group α)) : Prop where
  prioOk : ListOk s.prioList (leaders gs)
  nodeOk : ListOk s.nodeList (members gs)
  levels : gs.Pairwise fun g g' => s.prio g.1 < s.prio g'.1
  same : ∀ g ∈ gs, ∀ b ∈ g.2, s.prio b = s.prio g.1

variable {s : State α} {gs pre post : List (Group α)} {g : Group α}

theorem Holds.leadersOk (hh : Holds s (pre ++ g :: post)) :
    ListOk s.prioList (leaders pre ++ g.1 :: leaders post) := by
  rw [← leaders_cons, ← leaders_append]
  exact hh.prioOk

theorem Holds.membersOk (hh : Holds s (pre ++ g :: post)) :
    ListOk s.nodeList (members pre ++ g.1 :: (g.2 ++ members post)) := by
  rw [← members_cons, ← members_append]
  exact hh.nodeOk

/-! ## Adding a node -/

/-- How the loop of `plist_add` ends: the groups in front have smaller values, those
behind larger ones. -/
inductive FoundAt (s : State α) (prio : Int) (gs : List (Group α)) : Label × Loc α → Prop
  | lt (pre post : List (Group α)) : gs = pre ++ post → (∀ g ∈ pre, s.prio g.1 < prio) →
      (∀ g ∈ post, prio < s.prio g.1) → FoundAt s prio gs (.ltPrio, startOf (leaders post))
  | eq (pre : List (Group α)) (g : Group α) (post : List (Group α)) : gs = pre ++ g :: post →
      (∀ g ∈ pre, s.prio g.1 < prio) → s.prio g.1 = prio → (∀ g ∈ post, prio < s.prio g.1) →
      FoundAt s prio gs (.eqPrio, startOf (leaders post))

/-- The loop, from the groups `post` on. -/
theorem find_spec (hh : Holds s gs) (prio : Int) (post pre : List (Group α))
    (hgs : gs = pre ++ post) (hpre : ∀ g ∈ pre, s.prio g.1 < prio) :
    ∃ out, loop (findRound s prio) (startOf (leaders post)) = some out ∧ FoundAt s prio gs out := by
  induction post generalizing pre with
  | nil => exact ⟨_, loop_done rfl, .lt pre [] hgs hpre (by simp)⟩
  | cons g post ih =>
    have hlevels := hh.levels
    rw [hgs, pairwise_append, pairwise_cons] at hlevels
    obtain ⟨-, ⟨hpost, -⟩, -⟩ := hlevels
    have hnext := (hgs ▸ hh : Holds s _).leadersOk.next_eq
    by_cases hlt : prio < s.prio g.1
    · refine ⟨(.ltPrio, .node g.1), loop_done (if_pos hlt), .lt pre (g :: post) hgs hpre ?_⟩
      exact forall_mem_cons.mpr ⟨hlt, fun g' hg' => Int.lt_trans hlt (hpost g' hg')⟩
    by_cases heq : prio = s.prio g.1
    · have hround : findRound s prio (.node g.1) =
          some (.inl (.eqPrio, startOf (leaders post))) := by
        rw [findRound, if_neg hlt, if_pos heq, hnext]
      refine ⟨_, loop_done hround, .eq pre g post hgs hpre heq.symm ?_⟩
      intro g' hg'
      rw [heq]
      exact hpost g' hg'
    · have hround : findRound s prio (.node g.1) = some (.inr (startOf (leaders post))) := by
        rw [findRound, if_neg hlt, if_neg heq, hnext]
      have hloop : loop (findRound s prio) (startOf (leaders (g :: post))) =
          loop (findRound s prio) (startOf (leaders post)) := loop_next hround
      rw [hloop]
      refine ih (pre ++ [g]) (by rw [hgs, append_assoc]; rfl) ?_
      exact forall_mem_append.mpr ⟨hpre, by rw [forall_mem_singleton]; omega⟩

/-- Another group of the same priority in the place of a group. -/
theorem levels_replace {g' : Group α}
    (h : (pre ++ g :: post).Pairwise fun g g' => s.prio g.1 < s.prio g'.1)
    (hprio : s.prio g'.1 = s.prio g.1) :
    (pre ++ g' :: post).Pairwise fun g g' => s.prio g.1 < s.prio g'.1 := by
  simp only [pairwise_append, pairwise_cons, forall_mem_cons, hprio] at h ⊢
  exact h

theorem same_replace {g' : Group α} (hsame : ∀ b ∈ g'.2, s.prio b = s.prio g'.1)
    (h : ∀ g1 ∈ pre ++ g :: post, ∀ b ∈ g1.2, s.prio b = s.prio g1.1) :
    ∀ g1 ∈ pre ++ g' :: post, ∀ b ∈ g1.2, s.prio b = s.prio g1.1 := by
  rw [forall_mem_append, forall_mem_cons] at h ⊢
  exact ⟨h.1, hsame, h.2.2⟩

/-- The priorities of the nodes are those of the groups. -/
theorem Holds.prio_of_mem (hh : Holds s gs) (hpre : pre ⊆ gs) {p : Int → Prop}
    (h : ∀ g ∈ pre, p (s.prio g.1)) (ha : a ∈ members pre) : p (s.prio a) := by
  obtain ⟨g, hg, rfl | ha⟩ := mem_members.mp ha
  · exact h g hg
  · rw [hh.same g (hpre hg) a ha]
    exact h g hg

theorem Holds.nodup_parts (hh : Holds s (pre ++ g :: post)) :
    (g.1 :: g.2).Nodup ∧ (∀ b ∈ g.1 :: g.2, b ∉ members pre ∧ b ∉ members post) := by
  have hnodup := hh.nodeOk.nodup
  rw [members_append, members_cons, ← cons_append] at hnodup
  obtain ⟨-, hrest, hpre⟩ := nodup_append.mp hnodup
  obtain ⟨hg, -, hpost⟩ := nodup_append.mp hrest
  exact ⟨hg, fun b hb => ⟨fun hb' => hpre b hb' b (mem_append_left _ hb) rfl,
    fun hb' => hpost b hb b hb' rfl⟩⟩

/-- Only the first node of a group is on `prio_list`. -/
theorem Holds.not_leader (hh : Holds s (pre ++ g :: post)) (ha : a ∈ g.2) :
    a ∉ leaders (pre ++ g :: post) := by
  obtain ⟨hnodup, hparts⟩ := hh.nodup_parts
  obtain ⟨hpre, hpost⟩ := hparts a (mem_cons_of_mem _ ha)
  rw [leaders_append, leaders_cons, mem_append, mem_cons]
  rintro (hmem | rfl | hmem)
  · exact not_mem_leaders hpre hmem
  · exact (nodup_cons.mp hnodup).1 ha
  · exact not_mem_leaders hpost hmem

variable [DecidableEq α]

theorem plistAdd_eq {out : Label × Loc α}
    (h : loop (findRound s (s.prio a)) (s.prioList.next .head) = some out) :
    plistAdd s a = some { s with
      prioList := if out.1 = .ltPrio then listAddTail s.prioList (.node a) out.2 else s.prioList
      nodeList := listAddTail s.nodeList (.node a) out.2 } := by
  rw [plistAdd, h]
  rfl

/-- The node becomes a group of its own. -/
theorem Holds.addGroup (hh : Holds s (pre ++ post)) (hnew : a ∉ members (pre ++ post))
    (hpre : ∀ g ∈ pre, s.prio g.1 < s.prio a) (hpost : ∀ g ∈ post, s.prio a < s.prio g.1) :
    Holds { s with
      prioList := listAddTail s.prioList (.node a) (startOf (leaders post))
      nodeList := listAddTail s.nodeList (.node a) (startOf (leaders post)) }
      (pre ++ (a, []) :: post) where
  prioOk := by
    have hprio := hh.prioOk
    have hlead := not_mem_leaders hnew
    rw [leaders_append] at hprio hlead ⊢
    exact hprio.add hlead
  nodeOk := by
    have hnode := hh.nodeOk
    rw [members_append] at hnode hnew ⊢
    rw [← startOf_members]
    exact hnode.add hnew
  levels := by
    obtain ⟨h1, h2, h3⟩ := pairwise_append.mp hh.levels
    refine pairwise_append.mpr ⟨h1, pairwise_cons.mpr ⟨hpost, h2⟩, fun g hg => ?_⟩
    exact forall_mem_cons.mpr ⟨hpre g hg, h3 g hg⟩
  same := by
    obtain ⟨h1, h2⟩ := forall_mem_append.mp hh.same
    exact forall_mem_append.mpr ⟨h1, forall_mem_cons.mpr ⟨by simp, h2⟩⟩

/-- The node joins the group of its priority. -/
theorem Holds.join (hh : Holds s (pre ++ g :: post)) (hnew : a ∉ members (pre ++ g :: post))
    (hprio : s.prio a = s.prio g.1) :
    Holds { s with nodeList := listAddTail s.nodeList (.node a) (startOf (leaders post)) }
      (pre ++ (g.1, g.2 ++ [a]) :: post) where
  prioOk := by
    rw [leaders_append, leaders_cons]
    exact hh.leadersOk
  nodeOk := by
    have hnode := hh.nodeOk
    have hsplit : members (pre ++ g :: post) = (members pre ++ g.1 :: g.2) ++ members post := by
      simp
    have hsplit' : members (pre ++ (g.1, g.2 ++ [a]) :: post) =
        (members pre ++ g.1 :: g.2) ++ a :: members post := by simp
    rw [hsplit] at hnode hnew
    rw [hsplit', ← startOf_members]
    exact hnode.add hnew
  levels := levels_replace hh.levels rfl
  same := by
    refine same_replace (fun b hb => ?_) hh.same
    rcases mem_append.mp hb with hb | hb
    · exact hh.same g (mem_append_cons_self) b hb
    · rw [mem_singleton.mp hb]
      exact hprio

/-- `plist_add` puts the node behind those of its priority, in front of the rest. -/
theorem plistAdd_spec (hh : Holds s gs) (hnew : a ∉ members gs) :
    ∃ s' gs' l₁ l₂, plistAdd s a = some s' ∧ s'.prio = s.prio ∧ Holds s' gs' ∧
      members gs = l₁ ++ l₂ ∧ members gs' = l₁ ++ a :: l₂ ∧
      (∀ b ∈ l₁, s.prio b ≤ s.prio a) ∧ ∀ b ∈ l₂, s.prio a < s.prio b := by
  obtain ⟨out, hloop, hfound⟩ := find_spec hh (s.prio a) gs [] rfl (by simp)
  rw [← hh.prioOk.first_eq] at hloop
  cases hfound with
  | lt pre post hgs hpre hpost =>
    subst hgs
    refine ⟨_, _, members pre, members post, plistAdd_eq hloop, rfl,
      hh.addGroup hnew hpre hpost, members_append .., by simp, fun b hb => ?_, fun b hb => ?_⟩
    · exact Int.le_of_lt (hh.prio_of_mem (p := (· < s.prio a)) (subset_append_left ..) hpre hb)
    · exact hh.prio_of_mem (subset_append_right ..) hpost hb
  | eq pre g post hgs hpre heq hpost =>
    subst hgs
    refine ⟨_, _, members pre ++ g.1 :: g.2, members post, plistAdd_eq hloop, rfl,
      hh.join hnew heq.symm, by simp, by simp, fun b hb => ?_, fun b hb => ?_⟩
    · have hb' : b ∈ members (pre ++ [g]) := by simpa using hb
      refine hh.prio_of_mem (p := (· ≤ s.prio a)) (by simp) (forall_mem_append.mpr ⟨?_, ?_⟩) hb'
      · exact fun g hg => Int.le_of_lt (hpre g hg)
      · simp [heq]
    · exact hh.prio_of_mem (by simp) hpost hb

/-! ## Removing a node -/

theorem plistDel_prioList_of_not_leader (hh : Holds s gs) (ha : a ∉ leaders gs) :
    (plistDel s a).prioList = s.prioList := by
  unfold plistDel
  rw [hh.prioOk.empty_iff.mpr ha]
  rfl

theorem plistDel_prioList_of_leader (hh : Holds s gs) (ha : a ∈ leaders gs) :
    (plistDel s a).prioList = promoteNext s a := by
  have hempty : listEmpty s.prioList (.node a) = false :=
    Bool.eq_false_iff.mpr fun htrue => hh.prioOk.empty_iff.mp htrue ha
  unfold plistDel
  rw [hempty]
  rfl

/-- A node that is not the first of its group. -/
theorem Holds.delMember {f : α} {l₁ l₂ : List α}
    (hh : Holds s (pre ++ (f, l₁ ++ a :: l₂) :: post)) :
    Holds (plistDel s a) (pre ++ (f, l₁ ++ l₂) :: post) where
  prioOk := by
    rw [plistDel_prioList_of_not_leader hh (hh.not_leader (by simp)), leaders_append, leaders_cons]
    exact hh.leadersOk
  nodeOk := by
    have hnode := hh.nodeOk
    have hsplit : members (pre ++ (f, l₁ ++ a :: l₂) :: post) =
        (members pre ++ f :: l₁) ++ a :: (l₂ ++ members post) := by simp
    have hsplit' : members (pre ++ (f, l₁ ++ l₂) :: post) =
        (members pre ++ f :: l₁) ++ (l₂ ++ members post) := by simp
    rw [hsplit] at hnode
    rw [hsplit']
    exact hnode.del
  levels := levels_replace hh.levels rfl
  same := by
    refine same_replace (fun b hb => ?_) hh.same
    refine hh.same _ (mem_append_cons_self) b ?_
    exact ((sublist_cons_self a l₂).append_left l₁).subset hb

/-- The first node of a group, with others behind it: the next one leads the group. -/
theorem Holds.delLeader {f : α} {l : List α} (hh : Holds s (pre ++ (a, f :: l) :: post)) :
    Holds (plistDel s a) (pre ++ (f, l) :: post) where
  prioOk := by
    have hf := hh.not_leader (a := f) (by simp)
    rw [leaders_append, leaders_cons] at hf
    rw [plistDel_prioList_of_leader hh (by simp), promoteNext, plistFirst, hh.membersOk.next_eq,
      leaders_append, leaders_cons]
    exact hh.leadersOk.replace hf
  nodeOk := by
    rw [members_append, members_cons]
    exact hh.membersOk.del
  levels := by
    refine levels_replace hh.levels ?_
    exact hh.same (a, f :: l) (mem_append_cons_self) f mem_cons_self
  same := by
    have hgroup := hh.same (a, f :: l) (mem_append_cons_self)
    refine same_replace (fun b hb => ?_) hh.same
    exact (hgroup b (mem_cons_of_mem f hb)).trans (hgroup f mem_cons_self).symm

/-- A group of one node goes; the next node is on `prio_list` already, or is the head. -/
theorem Holds.delGroup (hh : Holds s (pre ++ (a, []) :: post)) :
    Holds (plistDel s a) (pre ++ post) where
  prioOk := by
    rw [plistDel_prioList_of_leader hh (by simp), promoteNext, plistFirst, hh.membersOk.next_eq,
      nil_append, startOf_members, leaders_append]
    exact hh.leadersOk.replaceByNext
  nodeOk := by
    rw [members_append]
    exact hh.membersOk.del
  levels := hh.levels.sublist ((sublist_cons_self _ post).append_left pre)
  same g hg := hh.same g (((sublist_cons_self _ post).append_left pre).subset hg)

/-- A node that is not on the list. -/
theorem plistDel_of_not_mem (hh : Holds s gs) (ha : a ∉ members gs) : plistDel s a = s := by
  have hprio := plistDel_prioList_of_not_leader hh (not_mem_leaders ha)
  have hnode : (plistDel s a).nodeList = s.nodeList := listDelInit_alone (hh.nodeOk.alone a ha)
  calc plistDel s a = ⟨(plistDel s a).prioList, (plistDel s a).nodeList, s.prio⟩ := rfl
    _ = s := by rw [hprio, hnode]

theorem erase_middle {l₁ l₂ : List α} (ha : a ∉ l₁) : (l₁ ++ a :: l₂).erase a = l₁ ++ l₂ := by
  rw [erase_append_right _ ha, erase_cons_head]

/-- `plist_del` takes the node off the list. -/
theorem plistDel_spec (hh : Holds s gs) (a : α) :
    ∃ gs', Holds (plistDel s a) gs' ∧ members gs' = (members gs).erase a := by
  by_cases ha : a ∈ members gs
  · obtain ⟨g, hg, hag⟩ := mem_members.mp ha
    obtain ⟨pre, post, rfl⟩ := append_of_mem hg
    obtain ⟨f, fs⟩ := g
    obtain ⟨hnodup, hparts⟩ := hh.nodup_parts
    have hpre : a ∉ members pre := (hparts a (mem_cons.mpr hag)).1
    rcases hag with rfl | hmem
    · cases fs with
      | nil =>
        refine ⟨_, hh.delGroup, ?_⟩
        rw [members_append, members_append, members_cons, erase_middle hpre, nil_append]
      | cons f fs =>
        refine ⟨_, hh.delLeader, ?_⟩
        rw [members_append, members_append, members_cons, members_cons, erase_middle hpre]
        rfl
    · obtain ⟨l₁, l₂, rfl⟩ := append_of_mem hmem
      refine ⟨_, hh.delMember, ?_⟩
      have hfront : a ∉ members pre ++ f :: l₁ := by
        rw [mem_append, mem_cons]
        rintro (hmem | rfl | hmem)
        · exact hpre hmem
        · exact (nodup_cons.mp hnodup).1 (by simp)
        · have hnodup' := (nodup_cons.mp hnodup).2
          exact (nodup_append.mp hnodup').2.2 a hmem a mem_cons_self rfl
      have hsplit : members (pre ++ (f, l₁ ++ a :: l₂) :: post) =
          (members pre ++ f :: l₁) ++ a :: (l₂ ++ members post) := by simp
      rw [hsplit, erase_middle hfront]
      simp
  · exact ⟨gs, by rw [plistDel_of_not_mem hh ha]; exact hh, (erase_of_not_mem ha).symm⟩

end

/-! ## Runs -/

section

variable [DecidableEq α] {s s₀ : State α} {evs : List (Call α)} {b : α} {order : List α}

/-- The nodes that have been added and not removed, in the order in which they came. -/
def present (evs : List (Call α)) : List α :=
  evs.foldl (fun l call => match call with
    | .init _ _ => l
    | .add node => l ++ [node]
    | .del node => l.erase node) []

/-- `a` comes before `b` on the list: it has a smaller value, or the same and was added
earlier. -/
def Before (s : State α) (order : List α) (a b : α) : Prop :=
  s.prio a < s.prio b ∨ s.prio a = s.prio b ∧ [a, b].Sublist order

/-- All nodes have been initialised, and no one is on the list. -/
structure Initial (s : State α) : Prop where
  prio : ∀ x, s.prioList.Alone x
  node : ∀ x, s.nodeList.Alone x

omit [DecidableEq α] in
theorem Initial.holds (h : Initial s) : Holds s [] where
  prioOk := ⟨.single (h.prio .head), fun a _ => h.prio (.node a)⟩
  nodeOk := ⟨.single (h.node .head), fun a _ => h.node (.node a)⟩
  levels := List.Pairwise.nil
  same := by simp

/-- The lists in memory, and how they come from the calls. -/
def Represents (s : State α) (order : List α) : Prop :=
  ∃ gs, Holds s gs ∧ (members gs).Perm order ∧ (members gs).Pairwise (Before s order)

omit [DecidableEq α] in
theorem Before.congr {s' : State α} {order order' : List α} (h : Before s order a b)
    (ha : s'.prio a = s.prio a) (hb : s'.prio b = s.prio b)
    (horder : [a, b].Sublist order → [a, b].Sublist order') : Before s' order' a b := by
  unfold Before at h ⊢
  rw [ha, hb]
  exact h.imp_right fun h => ⟨h.1, horder h.2⟩

section

variable (hr : Represents s order) (hempty : plistNodeEmpty s a = true)
include hr hempty

/-- `plist_node_init` of a node that is not on the list. -/
theorem Represents.init (prio : Int) : Represents (plistNodeInit s a prio) order := by
  obtain ⟨gs, hh, hperm, hsorted⟩ := hr
  have ha := hh.nodeOk.empty_iff.mp hempty
  have hprio (b) (hb : b ∈ members gs) : (plistNodeInit s a prio).prio b = s.prio b := by
    have hne : b ≠ a := fun heq => ha (heq ▸ hb)
    exact Function.update_of_ne hne ..
  have hlead (g) (hg : g ∈ gs) := hprio g.1 (mem_members.mpr ⟨g, hg, .inl rfl⟩)
  have hlists : (plistNodeInit s a prio).prioList = s.prioList ∧
      (plistNodeInit s a prio).nodeList = s.nodeList :=
    ⟨(hh.prioOk.alone a (not_mem_leaders ha)).join_self, (hh.nodeOk.alone a ha).join_self⟩
  refine ⟨gs, ⟨by rw [hlists.1]; exact hh.prioOk, by rw [hlists.2]; exact hh.nodeOk, ?_, ?_⟩,
    hperm, ?_⟩
  · refine hh.levels.imp_of_mem fun {g g'} hg hg' hlt => ?_
    rw [hlead g hg, hlead g' hg']
    exact hlt
  · intro g hg b hb
    rw [hprio b (mem_members.mpr ⟨g, hg, .inr hb⟩), hlead g hg]
    exact hh.same g hg b hb
  · exact hsorted.imp_of_mem fun {b b'} hb hb' h => h.congr (hprio b hb) (hprio b' hb') id

/-- `plist_add` of a node that is not on the list. -/
theorem Represents.add :
    ∃ s', plistAdd s a = some s' ∧ s'.prio = s.prio ∧ Represents s' (order ++ [a]) := by
  obtain ⟨gs, hh, hperm, hsorted⟩ := hr
  have ha := hh.nodeOk.empty_iff.mp hempty
  obtain ⟨s', gs', l₁, l₂, heq, hprio, hh', hsplit, hsplit', hle, hlt⟩ := plistAdd_spec hh ha
  refine ⟨s', heq, hprio, gs', hh', ?_, ?_⟩
  · rw [hsplit']
    rw [hsplit] at hperm
    exact perm_middle.trans ((hperm.cons a).trans (perm_append_singleton a order).symm)
  · have hold : ∀ {b b'}, Before s order b b' → Before s' (order ++ [a]) b b' := fun h =>
      h.congr (congrFun hprio _) (congrFun hprio _) fun h => h.trans (sublist_append_left order [a])
    have hsorted' := hsorted.imp hold
    rw [hsplit, pairwise_append] at hsorted'
    obtain ⟨h1, h2, h3⟩ := hsorted'
    rw [hsplit', pairwise_append, pairwise_cons]
    refine ⟨h1, ⟨fun b hb => .inl ?_, h2⟩, fun b hb b' hb' => ?_⟩
    · rw [hprio]
      exact hlt b hb
    · rcases mem_cons.mp hb' with rfl | hb'
      · -- the new node comes behind those that were there
        have hmem : b ∈ order := hperm.subset (hsplit ▸ mem_append_left l₂ hb)
        have hsub : [b, b'].Sublist (order ++ [b']) :=
          (singleton_sublist.mpr hmem).append (List.Sublist.refl [b'])
        unfold Before
        rw [hprio]
        rcases Int.lt_or_eq_of_le (hle b hb) with h | h
        · exact .inl h
        · exact .inr ⟨h, hsub⟩
      · exact h3 b hb b' hb'

end

/-- `plist_del` of any node. -/
theorem Represents.del (hr : Represents s order) (a : α) :
    Represents (plistDel s a) (order.erase a) := by
  obtain ⟨gs, hh, hperm, hsorted⟩ := hr
  obtain ⟨gs', hh', hmembers⟩ := plistDel_spec hh a
  refine ⟨gs', hh', hmembers ▸ hperm.erase a, ?_⟩
  rw [hmembers]
  have hsub := erase_sublist (a := a) (l := members gs)
  refine (hsorted.sublist hsub).imp_of_mem fun {b b'} hb hb' h => h.congr rfl rfl fun h => ?_
  have hne : ∀ c ∈ (members gs).erase a, a ≠ c := fun c hc heq =>
    (hh.nodeOk.nodup.mem_erase_iff.mp hc).1 heq.symm
  have herase := h.erase a
  rwa [erase_of_not_mem (by simp [hne b hb, hne b' hb'])] at herase

theorem run_represents (hinit : Initial s₀) (hrun : RunWith Allowed step s₀ evs s) :
    Represents s (present evs) := by
  refine hrun.invariant ⟨[], hinit.holds, .refl _, List.Pairwise.nil⟩ ?_
  intro s s' evs new call hr hcall hstep
  rw [present, foldl_append]
  cases call with
  | init node prio =>
    cases hstep
    exact hr.init hcall prio
  | add node =>
    obtain ⟨s1, heq, -, hr'⟩ := hr.add hcall
    rw [step, heq] at hstep
    cases hstep
    exact hr'
  | del node =>
    cases hstep
    exact hr.del node

omit [DecidableEq α] in
/-- Two nodes of a list without duplicates come in one order only. -/
theorem sublist_asymm (hnodup : order.Nodup) (hab : [a, b].Sublist order)
    (hba : [b, a].Sublist order) : False := by
  induction order with
  | nil => cases hab
  | cons x order ih =>
    obtain ⟨hx, hnodup'⟩ := nodup_cons.mp hnodup
    cases hab with
    | cons _ hab =>
      cases hba with
      | cons _ hba => exact ih hnodup' hab hba
      | cons_cons _ hba => exact hx (hab.subset (by simp))
    | cons_cons _ hab =>
      cases hba with
      | cons _ hba | cons_cons _ hba => exact hx (hba.subset (by simp))

omit [DecidableEq α] in
/-- The nodes of `prio_list` are those that come before all others of their priority. -/
theorem mem_leaders_iff {gs : List (Group α)} (hh : Holds s gs) (hperm : (members gs).Perm order)
    (hsorted : (members gs).Pairwise (Before s order)) (ha : a ∈ members gs) :
    a ∈ leaders gs ↔ ∀ b ∈ members gs, s.prio b = s.prio a → b = a ∨ Before s order a b := by
  obtain ⟨⟨f, fs⟩, hg, hag⟩ := mem_members.mp ha
  obtain ⟨pre, post, rfl⟩ := append_of_mem hg
  have hgroup : ((f :: fs) ++ members post).Pairwise (Before s order) := by
    rw [members_append, pairwise_append] at hsorted
    exact hsorted.2.1
  rcases hag with rfl | hmem
  · -- the first node of its group
    refine ⟨fun _ b hb hprio => ?_, fun _ => by simp⟩
    have hlevels := hh.levels
    rw [pairwise_append, pairwise_cons] at hlevels
    obtain ⟨-, ⟨hpost, -⟩, hpre⟩ := hlevels
    obtain ⟨g', hg', hbg'⟩ := mem_members.mp hb
    have hprio' : s.prio g'.1 = s.prio a := by
      rcases hbg' with rfl | hb'
      · exact hprio
      · rw [← hh.same g' hg' b hb', hprio]
    rcases mem_append.mp hg' with hg' | hg'
    · exact absurd hprio' (Int.ne_of_lt (hpre g' hg' _ mem_cons_self))
    rcases mem_cons.mp hg' with rfl | hg'
    · rcases hbg' with rfl | hb'
      · exact .inl rfl
      · exact .inr ((pairwise_cons.mp hgroup).1 b (mem_append_left _ hb'))
    · exact absurd hprio'.symm (Int.ne_of_lt (hpost g' hg'))
  · -- the first node of the group comes before it
    refine ⟨fun hlead => absurd hlead (hh.not_leader hmem), fun hall => ?_⟩
    have hnodup := hh.nodup_parts.1
    have hprio : s.prio a = s.prio f := hh.same (f, fs) hg a hmem
    have hfa : Before s order f a := (pairwise_cons.mp hgroup).1 a (mem_append_left _ hmem)
    have horder : order.Nodup := hperm.nodup_iff.mp hh.nodeOk.nodup
    rcases hall f (mem_members.mpr ⟨(f, fs), hg, .inl rfl⟩) hprio.symm with rfl | haf
    · exact absurd hmem (nodup_cons.mp hnodup).1
    rcases haf with hlt | ⟨-, haf⟩
    · omega
    · rcases hfa with hlt | ⟨-, hfa⟩
      · omega
      · exact (sublist_asymm horder haf hfa).elim

/-- In every state that the calls lead to: `node_list` goes through the nodes that are
present, by ascending priority value and for equal values in the order in which they
were added; `prio_list` goes through the first node of each priority in the same order,
and the other nodes have an empty link there; `plist_first` is the first one of the
smallest value.  Every further call returns. -/
theorem plist_run (hinit : Initial s₀) (hrun : RunWith Allowed step s₀ evs s) :
    (∃ nodes firsts : List α,
      Ring s.nodeList .head (nodes.map .node) ∧ Ring s.prioList .head (firsts.map .node) ∧
      nodes.Perm (present evs) ∧ nodes.Pairwise (Before s (present evs)) ∧
      firsts.Sublist nodes ∧
      (∀ a ∈ nodes, a ∈ firsts ↔
        ∀ b ∈ nodes, s.prio b = s.prio a → b = a ∨ Before s (present evs) a b) ∧
      ∀ a ∈ nodes, a ∉ firsts → listEmpty s.prioList (.node a) = true) ∧
    (present evs ≠ [] → ∃ a ∈ present evs, plistFirst s .head = .node a ∧
      ∀ b ∈ present evs, b = a ∨ Before s (present evs) a b) ∧
    ∀ call, Allowed s call → (step s call).isSome = true := by
  have hr := run_represents hinit hrun
  obtain ⟨gs, hh, hperm, hsorted⟩ := hr
  refine ⟨⟨members gs, leaders gs, hh.nodeOk.ring, hh.prioOk.ring, hperm, hsorted,
    leaders_sublist gs, fun a ha => mem_leaders_iff hh hperm hsorted ha,
    fun a _ ha => hh.prioOk.empty_iff.mpr ha⟩, fun hne => ?_, fun call hcall => ?_⟩
  · have hfirst := hh.nodeOk.first_eq
    cases hnodes : members gs with
    | nil =>
      rw [hnodes] at hperm
      exact absurd hperm.symm.eq_nil hne
    | cons a l =>
      rw [hnodes] at hperm hsorted hfirst
      refine ⟨a, hperm.subset mem_cons_self, hfirst, fun b hb => ?_⟩
      rcases mem_cons.mp (hperm.mem_iff.mpr hb) with rfl | hb'
      · exact .inl rfl
      · exact .inr ((pairwise_cons.mp hsorted).1 b hb')
  · cases call with
    | init node prio => rfl
    | add node =>
      obtain ⟨s', heq, -, -⟩ := Represents.add ⟨gs, hh, hperm, hsorted⟩ hcall
      rw [step, heq]
      rfl
    | del node => rfl

end

theorem step_add [DecidableEq α] {s s' : State α} (h : plistAdd s a = some s') :
    step s (.add a) = some (s', [.add a]) := by
  rw [step, h]
  rfl

/-- Nodes 0 and 1 with the value 5, the others with 3; no one is on the list. -/
def freshNodes : State Nat where
  prioList := ⟨id, id⟩
  nodeList := ⟨id, id⟩
  prio a := if a < 2 then 5 else 3

/-- Two nodes of one priority are added, then a node that goes in front of them; the
first of the two is removed. -/
theorem plist_run_threeNodes : ∃ s,
    RunWith Allowed step freshNodes [.add 0, .add 1, .add 2, .del 0] s ∧
    present [.add 0, .add 1, .add 2, .del 0] = [1, 2] ∧
    ∃ a ∈ [1, 2], plistFirst s .head = .node a ∧ ∀ b ∈ [1, 2], b = a ∨ Before s [1, 2] a b := by
  have hrun0 := RunWith.tail (Call.add 0) (.refl freshNodes)
    (show Allowed freshNodes (.add 0) from rfl) (step_add (plistAdd_eq (loop_of_rounds 1 rfl)))
  have hrun1 := hrun0.tail (Call.add 1) rfl (step_add (plistAdd_eq (loop_of_rounds 1 rfl)))
  have hrun2 := hrun1.tail (Call.add 2) rfl (step_add (plistAdd_eq (loop_of_rounds 1 rfl)))
  have hrun3 := hrun2.tail (Call.del 0) trivial rfl
  have hfresh : Initial freshNodes := ⟨fun _ => ⟨rfl, rfl⟩, fun _ => ⟨rfl, rfl⟩⟩
  exact ⟨_, hrun3, rfl, (plist_run hfresh hrun3).2.1 (by decide)⟩

end LinuxKernel.Lib.Plist
