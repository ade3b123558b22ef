import PacketPlan.Proofs.Plan.Growth

/-! # The leaves of a plan

The leaves of a plan that is derived stand at sites that are distinct and not handled yet. Handling
one of them opens sites that no packet could reach before, since a node is entered on one target
only and through one parent. As long as a leaf hangs below no module, the plan has no module and no
other leaf.
-/
namespace PacketPlan.Plan

section tracked
variable {problem : Problem} {plan after : Plan} {leaf : Leaf} {rest children : List Leaf}
variable {how : Option PlanNodeId}

theorem Handles.not_reaches (h : Handles problem plan after leaf rest children how)
    (hg : problem.graph.IsTree) (tracked : Tracked problem plan) {l : Leaf} (hl : l ∈ children) :
    ¬plan.Reaches problem l.site := by
  intro hreach
  have hleaf : plan.Reaches problem leaf.site :=
    tracked.leaf_reached (h.active ▸ List.mem_cons_self)
  have hnext : l.site ∈ after.nextSites problem.graph leaf.site how := by
    rw [← List.mem_reverse, ← h.sites]
    exact List.mem_map_of_mem hl
  rcases mem_nextSites.mp hnext with ⟨hover, hsite⟩ | ⟨_, hchild, _⟩
  · -- the switch and the controller would both enter the node
    have hswitch : leaf.target = .switch := h.onSwitch (by simp [hover])
    have hfresh : plan.ledger.processed? ⟨leaf.next, .switch⟩ = none := by
      rw [← hswitch]
      exact h.fresh
    have hthere : plan.Reaches problem ⟨leaf.next, .controller⟩ := by
      rw [← show l.site = ⟨leaf.next, .controller⟩ from hsite]
      exact hreach
    have hentered := tracked.enters_of_unhandled hleaf hfresh
    rw [hswitch] at hentered
    have hunique := tracked.enters_unique hg (hg.below_root (hleaf.present hg))
    cases hunique _ _ hentered (tracked.enters_of_unhandled hthere hfresh)
  · -- the node above would be executed, but its leaf is still there
    have hnone : ∀ t, ¬plan.Executes leaf.next t :=
      fun t => tracked.not_executes_of_fresh hg hleaf h.fresh
    rcases tracked.enters hreach with he | ⟨_, he, _⟩
    · exact hnone _ (he.of_child hg hchild)
    · exact hnone _ (he.of_child hg hchild)

theorem nodup_nextSites (hg : problem.graph.IsTree) (s : Site) :
    (plan.nextSites problem.graph s how).Nodup := by
  unfold nextSites
  split
  · exact List.nodup_singleton _
  · rw [List.nodup_reverse]
    cases hn : problem.graph.node? s.node with
    | none => exact List.nodup_nil
    | some node =>
      apply List.Nodup.map _ (hg.nodup_children hn)
      intro c c' he
      exact congrArg Site.node he

end tracked

/-- The leaves of a plan are what is left to do, each of it once. -/
structure Pending (plan : Plan) : Prop where
  fresh : ∀ l ∈ plan.leaves, plan.ledger.processed? l.site = none
  distinct : (plan.leaves.map Leaf.site).Nodup
  top : ∀ l ∈ plan.leaves, l.attach = none → plan.root = none ∧ plan.leaves = [l]

section step
variable {problem : Problem} {plan after : Plan} {leaf : Leaf} {rest children : List Leaf}
variable {how : Option PlanNodeId}

theorem Pending.site_ne (h : plan.Pending) (active : plan.leaves = leaf :: rest) {l : Leaf}
    (hl : l ∈ rest) : l.site ≠ leaf.site := by
  have hdistinct := h.distinct
  rw [active, List.map_cons, List.nodup_cons] at hdistinct
  intro he
  exact hdistinct.1 (he ▸ List.mem_map_of_mem hl)

theorem Handles.fresh_after (h : Handles problem plan after leaf rest children how)
    (hg : problem.graph.IsTree) (tracked : Tracked problem plan) (pending : plan.Pending) :
    ∀ l ∈ after.leaves, after.ledger.processed? l.site = none := by
  intro l hl
  rw [h.leaves_eq] at hl
  rw [h.processed?_eq]
  rcases List.mem_append.mp hl with hl | hl
  · have hnew := h.not_reaches hg tracked hl
    rw [if_neg]
    · cases hsite : plan.ledger.processed? l.site with
      | none => rfl
      | some old => exact absurd (tracked.handled_reached hsite) hnew
    · intro he
      rw [he] at hnew
      exact hnew (tracked.leaf_reached (h.active ▸ List.mem_cons_self))
  · rw [if_neg (pending.site_ne h.active hl)]
    exact pending.fresh l (h.active ▸ List.mem_cons_of_mem leaf hl)

theorem Handles.distinct_after (h : Handles problem plan after leaf rest children how)
    (hg : problem.graph.IsTree) (tracked : Tracked problem plan) (pending : plan.Pending) :
    (after.leaves.map Leaf.site).Nodup := by
  have hdistinct := pending.distinct
  rw [h.active, List.map_cons, List.nodup_cons] at hdistinct
  rw [h.leaves_eq, List.map_append, List.nodup_append]
  refine ⟨?_, hdistinct.2, ?_⟩
  · rw [h.sites, List.nodup_reverse]
    exact nodup_nextSites hg leaf.site
  · intro s hs s' hs' he
    obtain ⟨l, hl, rfl⟩ := List.mem_map.mp hs
    obtain ⟨l', hl', rfl⟩ := List.mem_map.mp hs'
    apply h.not_reaches hg tracked hl
    rw [he]
    exact tracked.leaf_reached (h.active ▸ List.mem_cons_of_mem leaf hl')

/-- A leaf below no module is the active one, and there is no other. -/
theorem Pending.alone (h : plan.Pending) (active : plan.leaves = leaf :: rest) {l : Leaf}
    (hl : l ∈ leaf :: rest) (hnone : l.attach = none) : plan.root = none ∧ rest = [] := by
  obtain ⟨hroot, hone⟩ := h.top l (active ▸ hl) hnone
  rw [active, List.cons.injEq] at hone
  exact ⟨hroot, hone.2⟩

theorem Pending.attached_top (h : plan.Pending) (active : plan.leaves = leaf :: rest) {id : PlanId}
    {bindings : Bindings} {resources : Pipeline} {m : Module} {minted : Option Symbol} :
    ∀ l ∈ (plan.attached id bindings resources leaf rest m children minted).leaves,
      l.attach ≠ none := by
  intro l hl hnone
  rw [attached_leaves] at hl
  rcases List.mem_append.mp hl with hl | hl
  · obtain ⟨below, _, rfl⟩ := List.mem_map.mp hl
    cases hnone
  · rw [(h.alone active (List.mem_cons_of_mem leaf hl) hnone).2] at hl
    cases hl

theorem Pending.moved_top (h : plan.Pending) (active : plan.leaves = leaf :: rest) {moved : Leaf}
    (hroot : after.root = plan.root) (hleaves : after.leaves = moved :: rest)
    (hattach : moved.attach = leaf.attach) :
    ∀ l ∈ after.leaves, l.attach = none → after.root = none ∧ after.leaves = [l] := by
  intro l hl hnone
  rw [hleaves] at hl ⊢
  rw [hroot]
  rcases List.mem_cons.mp hl with rfl | hl
  · obtain ⟨hnoroot, hrest⟩ := h.alone active List.mem_cons_self (hattach ▸ hnone)
    exact ⟨hnoroot, by rw [hrest]⟩
  · rw [(h.alone active (List.mem_cons_of_mem leaf hl) hnone).2] at hl
    cases hl

theorem Pending.top_after (h : plan.Pending) (step : plan.Step problem after) :
    ∀ l ∈ after.leaves, l.attach = none → after.root = none ∧ after.leaves = [l] := by
  cases step with
  | @pass leaf rest t p node n id bindings offer present silent goes follows places bound fresh =>
    have hleaves : (plan.passed id bindings plan.resources leaf rest
        (p.next.leaves leaf p.objects)).leaves = leaf.advance n p.objects :: rest := by
      rw [goes]
      rfl
    exact h.moved_top offer.active rfl hleaves rfl
  | act offer => exact fun l hl hnone => absurd hnone (h.attached_top offer.active l hl)
  | handOver offer => exact fun l hl hnone => absurd hnone (h.attached_top offer.active l hl)
  | revisit offer => exact h.moved_top offer.active rfl rfl rfl

theorem Pending.step (h : plan.Pending) (hg : problem.graph.IsTree) (tracked : Tracked problem plan)
    (step : plan.Step problem after) : after.Pending := by
  have htop := h.top_after step
  rcases handles_of_step hg step with
    ⟨leaf, rest, children, how, handles⟩ | ⟨leaf, rest, id, active, _, _, rfl⟩
  · exact ⟨handles.fresh_after hg tracked h, handles.distinct_after hg tracked h, htop⟩
  · have hsites : (plan.revisited id leaf rest).leaves.map Leaf.site = plan.leaves.map Leaf.site := by
      rw [active]
      rfl
    refine ⟨?_, hsites ▸ h.distinct, htop⟩
    intro l hl
    have hsite : l.site ∈ plan.leaves.map Leaf.site := hsites ▸ List.mem_map_of_mem hl
    obtain ⟨l', hl', he⟩ := List.mem_map.mp hsite
    rw [← he]
    exact h.fresh l' hl'

end step

theorem pending_empty (problem : Problem) (id : PlanId) : (empty problem id).Pending where
  fresh _ _ := rfl
  distinct := List.nodup_singleton _
  top := by
    intro l hl _
    cases List.mem_singleton.mp hl
    exact ⟨rfl, rfl⟩

end PacketPlan.Plan

namespace PacketPlan

theorem Derives.pending {problem : Problem} (wp : problem.WellPosed) {choices : List Choice}
    {plan : Plan} (h : Derives problem choices plan) : plan.Pending := by
  induction h with
  | root id => exact Plan.pending_empty problem id
  | expand before known expanded chosen ih =>
    exact ih.step wp.tree (before.lawful wp).tracked
      (Technique.step_of_expand known expanded (List.mem_of_getElem? chosen))

end PacketPlan
