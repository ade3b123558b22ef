import PacketPlan.Proofs.Plan.Execution
import PacketPlan.Proofs.Proposal.Meaning

/-! # What a step adds to a plan

A step adds one module or none. A module comes with the bindings that it commits and with places for
its demands; without a module nothing is bound and nothing is placed. The module is the first for
its node: a leaf whose site is not handled yet stands at a node that is executed nowhere.
-/
namespace PacketPlan

namespace Plan

def modules (plan : Plan) : List Module := plan.nodes.map PlanNode.module

theorem mem_modules {plan : Plan} {m : Module} :
    m ∈ plan.modules ↔ ∃ i, plan.module? i = some m := by
  rw [modules, List.mem_iff_getElem?]
  simp only [List.getElem?_map, module?, node?]

theorem attached_modules {plan : Plan} {id : PlanId} {bindings : Bindings} {resources : Pipeline}
    {leaf : Leaf} {rest children : List Leaf} {m : Module} {minted : Option Symbol} :
    (plan.attached id bindings resources leaf rest m children minted).modules =
      plan.modules ++ [m] := by
  rw [modules, attached_nodes, List.map_append, map_linked _ _ _ _ fun _ _ => rfl]
  rfl

/-- What a step adds: nothing, or one module with all that it needs. -/
inductive Grows (problem : Problem) (plan after : Plan) : Prop
  | still (modules : after.modules = plan.modules) (bindings : after.bindings = plan.bindings)
      (resources : after.resources = plan.resources)
  | adds {leaf : Leaf} {rest : List Leaf} {node : Node} {a : Action} {p : Proposal}
      {stages : List Nat} (active : plan.leaves = leaf :: rest)
      (present : problem.graph.node? leaf.next = some node)
      (fresh : plan.ledger.processed? leaf.site = none)
      (listed : a.kind ∈ Technique.kinds leaf.target)
      (reaches : ∀ x ∈ a.accesses,
        Setting.Grants ⟨problem.graph, plan.bindings, leaf.target, leaf.next⟩ x)
      (allocates : ∀ {object container r capacity}, a = .allocate object container r capacity →
        Setting.MayAllocate ⟨problem.graph, plan.bindings, leaf.target, leaf.next⟩ node.kind object
          container r)
      (bound : plan.bindings.extend a.commits = .ok after.bindings)
      (places : p.placements = Module.demands problem.graph ⟨leaf.target, leaf.next, a⟩)
      (placed : p.place leaf.passDeps plan.resources = .ok (stages, after.resources))
      (modules : after.modules = plan.modules ++ [⟨leaf.target, leaf.next, a⟩])

theorem Offer.grows {problem : Problem} {plan after : Plan} {leaf : Leaf} {rest : List Leaf}
    {t : Technique} {p : Proposal} {a : Action} {stages : List Nat}
    (offer : Offer problem plan leaf rest t p)
    (acts : p.module? = some ⟨leaf.target, leaf.next, a⟩)
    (fresh : plan.ledger.processed? leaf.site = none)
    (bound : plan.bindings.extend p.commits = .ok after.bindings)
    (placed : p.place leaf.passDeps plan.resources = .ok (stages, after.resources))
    (modules : after.modules = plan.modules ++ [⟨leaf.target, leaf.next, a⟩]) :
    Grows problem plan after := by
  have hne : p ≠ Technique.revisit leaf := by
    rintro rfl
    cases acts
  obtain ⟨ps, hps, hp⟩ := offer.proposed hne
  obtain ⟨_, _, hkind⟩ := (Technique.proposals_steady hps hp).1.module_eq acts
  have hlisted := Technique.kind_mem_of_proposals hps hp
  obtain ⟨node, present, means⟩ := Technique.proposals_meant hps hp
  rw [← offer.target_eq] at means hlisted
  cases means with
  | silent unseen =>
    rw [unseen] at acts
    cases acts
  | acts acts' commits places reaches allocates =>
    rw [acts'] at acts
    cases acts
    rw [commits] at bound
    rw [← hkind] at hlisted
    exact .adds offer.active present fresh hlisted reaches allocates bound places placed modules

theorem grows_of_step {problem : Problem} {plan after : Plan} (h : plan.Step problem after) :
    Grows problem plan after := by
  cases h with
  | @pass leaf rest t p node n id bindings offer present silent goes follows places bound fresh =>
    have hne : p ≠ Technique.revisit leaf := by
      rintro rfl
      cases goes
    obtain ⟨ps, hps, hp⟩ := offer.proposed hne
    obtain ⟨_, _, means⟩ := Technique.proposals_meant hps hp
    cases means with
    | silent _ commits _ =>
      rw [Technique.extend_of_nil commits] at bound
      cases bound
      exact .still rfl rfl rfl
    | acts acts =>
      rw [silent] at acts
      cases acts
  | @act leaf rest t p node a id bindings stages resources offer present acts keeps follows places
      bound placed rooted fresh =>
    exact offer.grows acts fresh (by rw [attached_bindings]; exact bound)
      (by rw [attached_resources]; exact placed) attached_modules
  | @handOver leaf rest t p node id bindings symbol offer present onSwitch acts goes places bound
      rooted fresh =>
    rw [← onSwitch] at acts ⊢
    exact offer.grows acts fresh (by rw [attached_bindings]; exact bound)
      (by rw [attached_resources]; exact Technique.place_of_nil places _ _) attached_modules
  | revisit => exact .still rfl rfl rfl

/-! ## Modules and the sites they handle -/

/-- The site of every module is marked as handled by it. -/
def Recorded (plan : Plan) : Prop :=
  ∀ {i m}, plan.module? i = some m → plan.ledger.processed? ⟨m.node, m.target⟩ = some (some i)

theorem Recorded.attached {plan : Plan} {id : PlanId} {bindings : Bindings} {resources : Pipeline}
    {leaf : Leaf} {rest children : List Leaf} {a : Action} {minted : Option Symbol}
    (h : plan.Recorded) (fresh : plan.ledger.processed? leaf.site = none) :
    (plan.attached id bindings resources leaf rest ⟨leaf.target, leaf.next, a⟩ children
      minted).Recorded := by
  intro i m hm
  rw [Ledger.processed?, attached_processed, OrdMap.get?_insert]
  rcases attached_module?_eq_some hm with hold | ⟨rfl, rfl⟩
  · have hsite := h hold
    rw [if_neg]
    · exact hsite
    · intro he
      rw [he, fresh] at hsite
      cases hsite
  · exact if_pos rfl

theorem Recorded.step {problem : Problem} {plan after : Plan} (h : plan.Recorded)
    (step : plan.Step problem after) : after.Recorded := by
  cases step with
  | @pass leaf rest t p node n id bindings offer present silent goes follows places bound fresh =>
    intro i m hm
    have hsite := h hm
    have hget := plan.ledger.processed.get?_insert leaf.site ⟨m.node, m.target⟩ none
    rw [if_neg] at hget
    · exact hget.trans hsite
    · intro he
      rw [he, fresh] at hsite
      cases hsite
  | act _ _ _ _ _ _ _ _ _ fresh => exact h.attached fresh
  | handOver _ _ onSwitch _ _ _ _ _ fresh =>
    rw [← onSwitch]
    exact h.attached fresh
  | revisit => exact h

theorem Recorded.executes {plan : Plan} (h : plan.Recorded) {m : Module} (hm : m ∈ plan.modules)
    (keeps : m.handsOver? = none) : plan.Executes m.node m.target := by
  obtain ⟨i, hi⟩ := mem_modules.mp hm
  refine executes_iff.mpr ⟨some i, h hi, ?_⟩
  rw [takesOver?_eq, Option.bind_some, hi]
  exact keeps

section tracked
variable {problem : Problem} {plan : Plan}

/-- Packets come to a site from above, or the switch has handed them over there. -/
theorem Tracked.enters_or_handed (h : Tracked problem plan) {n : NodeId} {t : Target}
    (hs : plan.Reaches problem ⟨n, t⟩) :
    plan.Enters problem n t ∨ (t = .controller ∧
      ∃ how, plan.ledger.processed? ⟨n, .switch⟩ = some how ∧
        plan.takesOver? how = some .controller) := by
  generalize hsite : (⟨n, t⟩ : Site) = s at hs
  cases hs with
  | start =>
    cases hsite
    exact .inl (.inl ⟨rfl, rfl⟩)
  | @next p _ how before handled follows =>
    subst hsite
    rcases mem_nextSites.mp follows with ⟨hover, he⟩ | ⟨hkeeps, hc, ht⟩
    · obtain ⟨hswitch, _⟩ := h.not_executes_of_handedOver handled hover
      cases he
      refine .inr ⟨rfl, how, ?_, hover⟩
      rw [← hswitch]
      exact handled
    · refine .inl (.inr ⟨p.node, hc, executes_iff.mpr ⟨how, ?_, hkeeps⟩⟩)
      have htarget : t = p.target := ht
      rw [htarget]
      exact handled

theorem Tracked.enters_of_unhandled (h : Tracked problem plan) {n : NodeId} {t : Target}
    (hs : plan.Reaches problem ⟨n, t⟩) (hswitch : plan.ledger.processed? ⟨n, .switch⟩ = none) :
    plan.Enters problem n t := by
  rcases h.enters_or_handed hs with henter | ⟨_, how, hhow, _⟩
  · exact henter
  · rw [hswitch] at hhow
    cases hhow

theorem Tracked.not_executes_of_fresh (h : Tracked problem plan) (hg : problem.graph.IsTree)
    {n : NodeId} {t t' : Target} (hs : plan.Reaches problem ⟨n, t⟩)
    (fresh : plan.ledger.processed? ⟨n, t⟩ = none) : ¬plan.Executes n t' := by
  intro hx
  have hunique := h.enters_unique hg (hg.below_root (hs.present hg))
  have hsame : ¬plan.Executes n t := by
    rintro ⟨how, hhow, _⟩
    rw [fresh] at hhow
    cases hhow
  have hx' := h.reaches_of_executes hx
  rcases h.enters hs with he | ⟨rfl, he, hnot⟩
  · rcases h.enters_or_handed hx' with he' | ⟨rfl, how, hhow, hover⟩
    · cases hunique t t' he he'
      exact hsame hx
    · -- the node was handed over, so it was entered on the switch, where it is handled
      have hreach := h.handled_reached hhow
      rcases h.enters_or_handed hreach with he' | ⟨hcontroller, _⟩
      · cases hunique t .switch he he'
        rw [fresh] at hhow
        cases hhow
      · cases hcontroller
  · rcases h.enters hx' with he' | ⟨rfl, _, _⟩
    · cases hunique .switch t' he he'
      exact hnot hx
    · exact hsame hx

end tracked

end Plan

open Plan

theorem Derives.recorded {problem : Problem} {choices : List Choice} {plan : Plan}
    (h : Derives problem choices plan) : plan.Recorded := by
  apply h.invariant
  · intro id i m hm
    cases hm
  · exact fun recorded step => recorded.step step

end PacketPlan
