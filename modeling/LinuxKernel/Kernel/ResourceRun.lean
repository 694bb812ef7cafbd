/-
  The resource tree over any sequence of calls.

  The callers' obligations are those of `Allowed`.  One of them cannot be dropped:
  a resource is released together with its children, and when it is requested
  again with another range, its children come back with it
  (`released_with_children`).
-/
import LinuxKernel.Kernel.ResourceOps

namespace LinuxKernel.Kernel.Resource

open Foundation Heap

section

variable {α : Type} {bits : Nat} {root : α}

/-- A descriptor that may be put into the tree: it is not there yet, and it has no
children. -/
structure Spare (h : Heap α bits) (root new : α) : Prop where
  live : h.live new = true
  notMem : ¬ h.InTree root new
  child : h.slot (.child new) = none

/-- What the callers have to see to.  The resources named as `root` or `parent`
are in the tree, the descriptors handed over are spare, only descriptors outside
the tree are rewritten, and the memory allocator returns unused memory. -/
def Allowed (root : α) (h : Heap α bits) : Call α bits → Prop
  | .declare new => h.live new = false
  | .describe new _ _ _ => ¬ h.InTree root new
  | .request a new => h.InTree root a ∧ Spare h root new
  | .insert a new => h.InTree root a ∧ Spare h root new
  | .allocate a new _ => h.InTree root a ∧ Spare h root new
  | .release old => h.live old = true ∧ ∃ a, h.parent old = some a ∧ h.InTree root a
  | .requestRegion a _ _ mem => h.InTree root a ∧ ∀ res ∈ mem, h.live res = false
  | .releaseRegion a _ _ => h.InTree root a

/-- The tree consists of the root. -/
structure Initial (h : Heap α bits) (root : α) : Prop where
  live : h.live root = true
  child : h.slot (.child root) = none
  ordered : h.start root ≤ h.end_ root

theorem Initial.tree {h : Heap α bits} (hinit : Initial h root) : Tree h root fun _ => [] := by
  have hroot : ∀ a, Reach (fun _ => []) root a → a = root := by
    intro a ha
    induction ha with
    | refl => rfl
    | tail _ hc => simp at hc
  refine ⟨?_, ?_, by simp, ?_, by simp, by simp, ⟨fun _ => 0, by simp⟩⟩
  · intro a ha
    rw [hroot a ha]
    exact hinit.live
  · intro a ha
    rw [hroot a ha]
    exact (chain_nil _).mpr hinit.child
  · intro a ha
    rw [hroot a ha]
    exact hinit.ordered

variable [DecidableEq α]

/-- What a call does to the tree. -/
def Keeps (h : Heap α bits) (root : α) (kids : α → List α) (call : Call α bits) : Prop :=
  ∃ h' outs, step h call = some (h', outs) ∧ (∃ kids', Tree h' root kids') ∧
    ∀ o ∈ outs, o.Failed → Unchanged h h' root kids

theorem step_keeps {h : Heap α bits} {kids : α → List α} (ht : Tree h root kids)
    (call : Call α bits) (hcall : Allowed root h call) : Keeps h root kids call := by
  have hin : ∀ {a}, h.InTree root a → Reach kids root a := ht.inTree_iff.mp
  have hout : ∀ {a}, ¬ h.InTree root a → ¬ Reach kids root a := fun hn ha =>
    hn (ht.inTree_iff.mpr ha)
  -- the call returns `x` and leaves `h'`
  have hkeeps {ρ : Type} {call : Call α bits} {r : Option (Heap α bits × ρ)} {h' : Heap α bits}
      {x : ρ} (out : ρ → Outcome α) (hstep : step h call = r.bind fun x => some (x.1, [out x.2]))
      (hr : r = some (h', x)) (htree : ∃ kids', Tree h' root kids')
      (hfail : (out x).Failed → Unchanged h h' root kids) : Keeps h root kids call :=
    ⟨h', [out x], by rw [hstep, hr]; rfl, htree, fun o ho hf => hfail (List.mem_singleton.mp ho ▸ hf)⟩
  -- the call fails and changes nothing, or succeeds
  have hor {call : Call α bits} {r : Option (Heap α bits × Option Errno)}
      (hstep : step h call = r.bind fun x => some (x.1, [.error x.2])) {e : Errno}
      (hr : r = some (h, some e) ∨ ∃ h' kids', r = some (h', none) ∧ Tree h' root kids') :
      Keeps h root kids call := by
    rcases hr with heq | ⟨h', kids', heq, htree⟩
    · exact hkeeps .error hstep heq ⟨kids, ht⟩ fun _ => .refl h root kids
    · exact hkeeps .error hstep heq ⟨kids', htree⟩ fun hf => absurd rfl hf
  cases call with
  | declare new =>
    have hnew : ¬ Reach kids root new := by
      intro hr
      have hlive := ht.live new hr
      rw [show h.live new = false from hcall] at hlive
      cases hlive
    exact ⟨_, _, rfl, ⟨kids, ht.frame (kzalloc_unchanged hnew)⟩, by simp⟩
  | describe new start end_ flags =>
    have hkeep := (setRange_unchanged (h := h) (hout hcall) start end_).trans
      (setFlags_unchanged (hout hcall) flags)
    exact ⟨_, _, rfl, ⟨kids, ht.frame hkeep⟩, by simp⟩
  | request a new =>
    obtain ⟨ha, hnew⟩ := hcall
    exact hor rfl (requestResource_spec ht (hin ha) (hout hnew.notMem) hnew.live hnew.child)
  | insert a new =>
    obtain ⟨ha, hnew⟩ := hcall
    exact hor rfl (insertResource_spec ht (hin ha) (hout hnew.notMem) hnew.live hnew.child)
  | allocate a new w =>
    obtain ⟨ha, hnew⟩ := hcall
    obtain ⟨h', err, heq, htree, hfail⟩ :=
      allocateResource_spec ht (hin ha) (hout hnew.notMem) hnew.live hnew.child w
    exact hkeeps .error rfl heq htree hfail
  | release old =>
    obtain ⟨hold, a, hparent, ha⟩ := hcall
    exact hor rfl (releaseResource_spec ht (hin ha) hold hparent)
  | requestRegion a start n mem =>
    obtain ⟨h', res, heq, htree, hfail⟩ := requestRegion_spec ht (hin hcall.1) start n hcall.2
    exact hkeeps .region rfl heq htree hfail
  | releaseRegion a start n =>
    rcases releaseRegion_spec ht (hin hcall) start n with heq | ⟨h', kids', heq, htree⟩
    · exact hkeeps .warned rfl heq ⟨kids, ht⟩ fun _ => .refl h root kids
    · exact hkeeps .warned rfl heq ⟨kids', htree⟩ fun hf => nomatch hf

theorem run_tree {h0 h : Heap α bits} {outs : List (Outcome α)} (hinit : Initial h0 root)
    (hrun : RunWith (Allowed root) step h0 outs h) : ∃ kids, Tree h root kids := by
  refine hrun.invariant_of_step ⟨_, hinit.tree⟩ ?_
  rintro h call ⟨kids, ht⟩ hcall
  obtain ⟨h', outs, heq, hkeep, -⟩ := step_keeps ht call hcall
  exact ⟨_, heq, hkeep⟩

/-- In every state that the calls lead to from a single root, the lists of children
are sorted by `start` and disjoint, no range is empty, each lies inside that of the
parent, and the parent pointers agree with the lists.  Every further call that is
allowed runs without a bad access and comes to an end, and when it returns an error
or NULL the tree is exactly as it was. -/
theorem resource_run_contract {h₀ h : Heap α bits} {root : α} {outs : List (Outcome α)}
    (hinit : Initial h₀ root) (hrun : RunWith (Allowed root) step h₀ outs h) :
    ∃ kids, Tree h root kids ∧
      (∀ a, Reach kids root a → (kids a).Pairwise fun b c => h.start b < h.start c) ∧
      ∀ call, Allowed root h call → ∃ h' outs, step h call = some (h', outs) ∧
        (∃ kids', Tree h' root kids') ∧ ∀ o ∈ outs, o.Failed → Unchanged h h' root kids := by
  obtain ⟨kids, ht⟩ := run_tree hinit hrun
  exact ⟨kids, ht, fun a ha => ht.start_sorted ha, fun call hcall => step_keeps ht call hcall⟩

end

/-! ## Runs -/

/-- A root that covers 16 bits of addresses. -/
def ioports : Heap Nat 32 where
  live a := a == 0
  start _ := 0
  end_ _ := 0xffff
  flags _ := 0
  parent _ := none
  slot _ := none

theorem ioports_initial : Initial ioports 0 := ⟨rfl, rfl, by decide⟩

/-- The region 0x60 to 0x6f in the memory at 1. -/
theorem ioports_requestRegion : step ioports (.requestRegion 0 0x60 16 (some 1)) =
      some ((((ioports.kzalloc 1).setRange 1 0x60 0x6f).setFlags 1 IORESOURCE_BUSY).link 0 1
        (.child 0), [.region (some 1)]) := by
  simp only [step, requestRegion]
  rw [regionLoop, requestResource'_empty rfl rfl ⟨by decide, by decide, by decide⟩ rfl]
  rfl

theorem resource_run_contract_region : ∃ h outs,
    RunWith (Allowed 0) step ioports outs h ∧ h.slot (.child 0) = some 1 ∧
    ∃ kids, Tree h 0 kids ∧
      (∀ a, Reach kids 0 a → (kids a).Pairwise fun b c => h.start b < h.start c) ∧
      ∀ call, Allowed 0 h call → ∃ h' outs, step h call = some (h', outs) ∧
        (∃ kids', Tree h' 0 kids') ∧ ∀ o ∈ outs, o.Failed → Unchanged h h' 0 kids := by
  have hallowed : Allowed 0 ioports (.requestRegion 0 0x60 16 (some 1)) := by
    refine ⟨.refl, ?_⟩
    intro res hres
    obtain rfl := Option.mem_some_iff.mp hres
    rfl
  have hrun := RunWith.tail _ (.refl ioports) hallowed ioports_requestRegion
  exact ⟨_, _, hrun, rfl, resource_run_contract ioports_initial hrun⟩

/-- Two descriptors, the second one inside the range of the first. -/
def drivers : Heap Nat 32 :=
  (((((ioports.kzalloc 1).setRange 1 0x100 0x1ff).setFlags 1 0).kzalloc 2).setRange 2 0x180
    0x18f).setFlags 2 0

/-- The second one is requested under the first one. -/
def nested : Heap Nat 32 := (drivers.link 0 1 (.child 0)).link 1 2 (.child 1)

/-- The first one is released. -/
def released : Heap Nat 32 :=
  (nested.setSlot (.child 0) (nested.slot (.sibling 1))).setParent 1 none

/-- It gets another range. -/
def moved : Heap Nat 32 := (released.setRange 1 0x200 0x2ff).setFlags 1 0

/-- A resource that is released together with its child, and requested again with
another range: the child is outside the range of its parent. -/
theorem released_with_children : ∃ outs h,
    Run step ioports outs h ∧ (∀ o ∈ outs, ¬ o.Failed) ∧ ¬ ∃ kids, Tree h 0 kids := by
  have hdrivers : Run step ioports [] drivers := Run.of_calls
    [.declare 1, .describe 1 0x100 0x1ff 0, .declare 2, .describe 2 0x180 0x18f 0] rfl
  have hfirst : step drivers (.request 0 1) =
      some (drivers.link 0 1 (.child 0), [.error none]) := by
    simp only [step]
    rw [requestResource_empty rfl rfl ⟨by decide, by decide, by decide⟩ rfl]
    rfl
  have hsecond : step (drivers.link 0 1 (.child 0)) (.request 1 2) =
      some (nested, [.error none]) := by
    simp only [step]
    rw [requestResource_empty rfl rfl ⟨by decide, by decide, by decide⟩ rfl]
    rfl
  have hrelease : step nested (.release 1) = some (released, [.error none]) := by
    simp only [step]
    rw [releaseResource_first rfl rfl rfl rfl]
    rfl
  have hmoved : Run step released [] moved := .single (.describe 1 0x200 0x2ff 0) rfl
  have hagain : step moved (.request 0 1) = some (moved.link 0 1 (.child 0), [.error none]) := by
    simp only [step]
    rw [requestResource_empty rfl rfl ⟨by decide, by decide, by decide⟩ rfl]
    rfl
  refine ⟨_, _, ((((hdrivers.trans (.single _ hfirst)).trans (.single _ hsecond)).trans
    (.single _ hrelease)).trans hmoved).trans (.single _ hagain), by simp [Outcome.Failed], ?_⟩
  rintro ⟨kids, ht⟩
  have hone : 1 ∈ kids 0 := by
    have hhead := (ht.chain 0 .refl).slot_eq
    exact List.mem_of_head? hhead.symm
  have htwo : 2 ∈ kids 1 := by
    have hhead := (ht.chain 1 (Tree.reach_kid .refl hone)).slot_eq
    exact List.mem_of_head? hhead.symm
  have hinside := (ht.inside 1 (Tree.reach_kid .refl hone) 2 htwo).1
  exact absurd hinside (by decide)

end LinuxKernel.Kernel.Resource
