import PacketPlan.Proofs.Pipeline.Repetition
import PacketPlan.Proofs.Plan.Passes
import PacketPlan.Proofs.Plan.Recirculation
import PacketPlan.Proofs.Proposal.Meaning

/-! # What an expansion leaves as it was

An expansion works on the active leaf and on nothing else. The other leaves stay where they are, and
the nodes of the plan stay what they are, but that a new module is listed among the children of its
parent. What was bound, placed, completed or minted before is found again afterwards; an object may
have grown, but in its stage. One site is handled that was not before, and none if the packet is
only sent through the pipeline once more.
-/
namespace PacketPlan

namespace Plan
variable {problem : Problem} {plan child : Plan} {leaf : Leaf} {rest new : List Leaf}

/-- All that the plan has bound, placed, completed and minted is found in the other one. -/
structure Retains (plan child : Plan) : Prop where
  bindings : ∀ {a r}, plan.bindings.get? a = some r → child.bindings.get? a = some r
  placements : ∀ {o placed}, plan.resources.placements.get? o = some placed →
    ∃ footprint, child.resources.placements.get? o = some ⟨placed.stage, footprint⟩ ∧
      footprint.covers placed.footprint = true
  completed : plan.ledger.completed <+: child.ledger.completed
  minted : ∀ {i symbol}, plan.ledger.minted.get? i = some symbol →
    child.ledger.minted.get? i = some symbol

/-- The other plan has one node more, in place of the leaf. The nodes before it are those of the
plan, but that its parent lists it as the last of its children. -/
structure Grafts (plan child : Plan) (leaf : Leaf) : Prop where
  length_eq : child.nodes.length = plan.nodes.length + 1
  old : ∀ {i n}, plan.node? i = some n → child.node? i = some
    (if leaf.attach = some i then { n with children := n.children ++ [plan.nodes.length] } else n)
  added : ∃ a, child.node? plan.nodes.length = some ⟨plan.nodes.length, ⟨leaf.target, leaf.next, a⟩,
    leaf.attach, [], plan.depthBelow leaf.attach⟩
  parent : ∀ {i}, leaf.attach = some i → ∃ n, plan.node? i = some n
  root : child.root = if leaf.attach = none then some plan.nodes.length else plan.root
  top : leaf.attach = none → plan.root = none

/-- The leaf starts a new pass, and nothing else is done. -/
structure Repeats (plan child : Plan) (leaf : Leaf) (new : List Leaf) : Prop where
  leaves : new = [{ leaf with passDeps := ∅, recirculations := leaf.recirculations + 1 }]
  nodes : child.nodes = plan.nodes
  root : child.root = plan.root
  processed : ∀ s, child.ledger.processed? s = plan.ledger.processed? s

/-- The site of the leaf, and no other, is handled for the first time, without a module or by a new
one. The new leaves stand at the sites that come next, in their order, and hang below the module. -/
structure Settles (problem : Problem) (plan child : Plan) (leaf : Leaf) (new : List Leaf) : Prop where
  fresh : plan.ledger.processed? leaf.site = none
  processed : ∀ s ≠ leaf.site, child.ledger.processed? s = plan.ledger.processed? s
  handled : ∃ how, child.ledger.processed? leaf.site = some how ∧
    new.map Leaf.site = (child.nextSites problem.graph leaf.site how).reverse ∧
    ((how = none ∧ child.nodes = plan.nodes ∧ child.root = plan.root ∧
        ∀ l ∈ new, l.attach = leaf.attach) ∨
      (how = some plan.nodes.length ∧ plan.Grafts child leaf ∧
        ∀ l ∈ new, l.attach = some plan.nodes.length))

/-! ## A new module -/

section attached
variable {id : PlanId} {bindings : Bindings} {resources : Pipeline} {children : List Leaf}
variable {m : Module} {minted : Option Symbol}

theorem attached_minted :
    (plan.attached id bindings resources leaf rest m children minted).ledger.minted =
      minted.elim plan.ledger.minted (plan.ledger.minted.insert plan.nodes.length) := by
  cases minted <;> cases children <;> rfl

theorem attached_root :
    (plan.attached id bindings resources leaf rest m children minted).root =
      if leaf.attach = none then some plan.nodes.length else plan.root := by
  cases minted <;> cases hattach : leaf.attach <;> simp [attached, grown, recordSymbol, hattach]

theorem node?_linked (plan : Plan) (added i : PlanNodeId) (parent : Option PlanNodeId)
    {n : PlanNode} (hn : plan.node? i = some n) :
    (plan.linked added parent)[i]? = some
      (if parent = some i then { n with children := n.children ++ [added] } else n) := by
  have hget : plan.nodes[i]? = some n := hn
  cases parent with
  | none => simpa [linked] using hget
  | some parent =>
    simp only [linked, List.getElem?_modify, hget, Option.some.injEq]
    by_cases hi : parent = i
    · simp [hi]
    · simp [hi]

theorem attached_node?_old {i : PlanNodeId} {n : PlanNode} (hn : plan.node? i = some n) :
    (plan.attached id bindings resources leaf rest m children minted).node? i = some
      (if leaf.attach = some i then { n with children := n.children ++ [plan.nodes.length] }
        else n) := by
  have hlt : i < (plan.linked plan.nodes.length leaf.attach).length := by
    rw [length_linked]
    exact (List.getElem?_eq_some_iff.mp hn).1
  rw [node?, attached_nodes, List.getElem?_append_left hlt]
  exact node?_linked plan plan.nodes.length i leaf.attach hn

theorem attached_node?_new :
    (plan.attached id bindings resources leaf rest m children minted).node? plan.nodes.length =
      some ⟨plan.nodes.length, m, leaf.attach, [], plan.depthBelow leaf.attach⟩ := by
  have hlen := length_linked plan plan.nodes.length leaf.attach
  rw [node?, attached_nodes, List.getElem?_append_right (Nat.le_of_eq hlen), hlen, Nat.sub_self]
  rfl

theorem Rooted.grafts_attached (h : plan.Rooted) (active : plan.leaves = leaf :: rest) {a : Action}
    (rooted : ¬(leaf.attach.isNone ∧ plan.root.isSome)) :
    plan.Grafts (plan.attached id bindings resources leaf rest ⟨leaf.target, leaf.next, a⟩ children
      minted) leaf where
  length_eq := length_attached_nodes
  old := attached_node?_old
  added := ⟨a, attached_node?_new⟩
  parent := by
    intro i hi
    have hlt := h.leaves (active ▸ List.mem_cons_self) hi
    exact ⟨_, List.getElem?_eq_getElem hlt⟩
  root := attached_root
  top := by
    intro hattach
    by_contra hroot
    apply rooted
    rw [hattach]
    exact ⟨rfl, Option.isSome_iff_ne_none.mpr hroot⟩

theorem Rooted.settles_attached (h : plan.Rooted) (active : plan.leaves = leaf :: rest) {a : Action}
    (rooted : ¬(leaf.attach.isNone ∧ plan.root.isSome))
    (fresh : plan.ledger.processed? leaf.site = none)
    (sites : children.map Leaf.site = ((plan.attached id bindings resources leaf rest
      ⟨leaf.target, leaf.next, a⟩ children minted).nextSites problem.graph leaf.site
        (some plan.nodes.length)).reverse) :
    plan.Settles problem (plan.attached id bindings resources leaf rest ⟨leaf.target, leaf.next, a⟩
      children minted) leaf (children.map fun l => { l with attach := some plan.nodes.length }) where
  fresh := fresh
  processed := by
    intro s hs
    rw [Ledger.processed?, attached_processed, OrdMap.get?_insert_ne _ hs]
    rfl
  handled := by
    refine ⟨some plan.nodes.length, ?_, ?_, .inr ⟨rfl, h.grafts_attached active rooted, ?_⟩⟩
    · rw [Ledger.processed?, attached_processed, OrdMap.get?_insert_self]
    · rw [← sites, List.map_map]
      rfl
    · intro l hl
      obtain ⟨below, _, rfl⟩ := List.mem_map.mp hl
      rfl

end attached

/-! ## One step -/

theorem Step.replaces {after : Plan} (step : plan.Step problem after) (h : plan.Rooted) :
    ∃ leaf rest new, plan.leaves = leaf :: rest ∧ after.leaves = new ++ rest ∧
      ((plan.Repeats after leaf new ∧
          after.ledger.recirculations = plan.ledger.recirculations + 1) ∨
        (plan.Settles problem after leaf new ∧
          after.ledger.recirculations = plan.ledger.recirculations)) := by
  cases step with
  | @pass leaf rest t p node n id bindings offer present silent goes follows places bound fresh =>
    have hsite := plan.ledger.processed.get?_insert_self leaf.site none
    have hattach : ∀ l ∈ p.next.leaves leaf p.objects, l.attach = leaf.attach :=
      fun l hl => (leaf_of_follows follows hl).1
    refine ⟨leaf, rest, _, offer.active, rfl, .inr ⟨⟨fresh, ?_, none, hsite, ?_, ?_⟩, rfl⟩⟩
    · intro s hs
      exact plan.ledger.processed.get?_insert_ne hs none
    · rw [nextSites_of_keeps present rfl, List.reverse_reverse]
      exact follows_sites follows leaf p.objects
    · exact .inl ⟨rfl, rfl, rfl, hattach⟩
  | @act leaf rest t p node a id bindings stages resources offer present acts keeps follows places
      bound placed rooted fresh =>
    refine ⟨leaf, rest, _, offer.active, attached_leaves, .inr ⟨?_, attached_recirculations⟩⟩
    apply h.settles_attached offer.active rooted fresh
    rw [nextSites_of_keeps present, List.reverse_reverse]
    · exact follows_sites follows leaf p.objects
    · rw [takesOver?_eq, Option.bind_some, attached_module?_new]
      exact Module.handsOver?_eq_none keeps
  | @handOver leaf rest t p node id bindings symbol offer present onSwitch acts goes places bound
      rooted fresh =>
    rw [← onSwitch]
    refine ⟨leaf, rest, _, offer.active, attached_leaves, .inr ⟨?_, attached_recirculations⟩⟩
    apply h.settles_attached offer.active rooted fresh
    rw [nextSites, takesOver?_eq, Option.bind_some, attached_module?_new]
    rfl
  | @revisit leaf rest t id offer onSwitch allowed =>
    exact ⟨leaf, rest, _, offer.active, rfl, .inl ⟨⟨rfl, rfl, rfl, fun s => rfl⟩, rfl⟩⟩

def MintsAtNodes (plan : Plan) : Prop :=
  ∀ {i symbol}, plan.ledger.minted.get? i = some symbol → i < plan.nodes.length

theorem MintsAtNodes.step {after : Plan} (h : plan.MintsAtNodes) (step : plan.Step problem after) :
    after.MintsAtNodes := by
  intro i symbol hi
  cases step with
  | pass | revisit => exact h hi
  | act =>
    rw [attached_minted] at hi
    rw [length_attached_nodes]
    exact Nat.lt_succ_of_lt (h hi)
  | handOver =>
    rw [attached_minted, Option.elim_some, OrdMap.get?_insert] at hi
    rw [length_attached_nodes]
    split at hi
    · rename_i hnew
      rw [hnew]
      exact Nat.lt_succ_self _
    · exact Nat.lt_succ_of_lt (h hi)

theorem MintsAtNodes.retains_attached (h : plan.MintsAtNodes) (hr : plan.resources.Indexed)
    {id : PlanId} {bindings : Bindings} {resources : Pipeline} {children : List Leaf} {m : Module}
    {minted : Option Symbol} (within : plan.bindings.Within bindings)
    (leads : plan.resources.Leads resources) :
    plan.Retains (plan.attached id bindings resources leaf rest m children minted) where
  bindings := by
    rw [attached_bindings]
    intro a r
    exact within a r
  placements := by
    rw [attached_resources]
    intro o placed hplaced
    exact (leads.get?_of_some hr hplaced).2
  completed := by
    rw [attached_completed]
    exact List.prefix_append _ _
  minted := by
    intro i symbol hi
    rw [attached_minted]
    cases minted with
    | none => exact hi
    | some new =>
      -- the node is new, so nothing was noted there before
      have hne : i ≠ plan.nodes.length := Nat.ne_of_lt (h hi)
      rw [Option.elim_some, OrdMap.get?_insert_ne _ hne]
      exact hi

theorem retains_of_same {after : Plan} (within : plan.bindings.Within after.bindings)
    (resources : after.resources = plan.resources)
    (completed : after.ledger.completed = plan.ledger.completed)
    (minted : after.ledger.minted = plan.ledger.minted) : plan.Retains after where
  bindings := within _ _
  placements := by
    intro o placed hplaced
    rw [resources]
    exact ⟨placed.footprint, hplaced, Budget.covers_refl _⟩
  completed := by simp [completed]
  minted := by
    rw [minted]
    exact fun h => h

theorem Step.retains {after : Plan} (step : plan.Step problem after) (h : plan.MintsAtNodes)
    (hr : plan.resources.Indexed) : plan.Retains after := by
  cases step with
  | pass _ _ _ _ _ _ bound => exact retains_of_same (Bindings.extend_within bound).1 rfl rfl rfl
  | act _ _ _ _ _ _ bound placed =>
    exact h.retains_attached hr (Bindings.extend_within bound).1 (placeFrom_leads placed)
  | handOver _ _ _ _ _ _ bound =>
    exact h.retains_attached hr (Bindings.extend_within bound).1 .refl
  | revisit => exact retains_of_same (.refl _) rfl rfl rfl

end Plan

open Plan

theorem Derives.mintsAtNodes {problem : Problem} {choices : List Choice} {plan : Plan}
    (h : Derives problem choices plan) : plan.MintsAtNodes := by
  apply h.invariant
  · intro id i symbol hi
    cases hi
  · exact fun minted step => minted.step step

theorem Derives.rooted {problem : Problem} (wp : problem.WellPosed) {choices : List Choice}
    {plan : Plan} (h : Derives problem choices plan) : plan.Rooted := by
  obtain ⟨_, _, hcounts⟩ := h.counts wp
  exact (hcounts.forward wp).2.rooted

/-- Only techniques that are there to try have candidates, since no leaf stands on a target that is
not enabled. -/
theorem Technique.mem_techniques_of_expand {problem : Problem} {t : Technique} {plan : Plan}
    (stocked : plan.Stocked problem) {supply after : Supply} {e : Expansion}
    (h : t.expand problem plan supply = .ok (e, after)) {c : Candidate} (hc : c ∈ e.candidates) :
    t ∈ problem.techniques := by
  cases hl : plan.leaves with
  | nil =>
    rw [expand, Plan.activeLeaf?, hl] at h
    cases h
    simp at hc
  | cons leaf rest =>
    have hsome : e ≠ {} := by
      rintro rfl
      simp at hc
    obtain ⟨htarget, ps, hps, h⟩ := expand_eq_ok hl h hsome
    obtain ⟨p, hp, _⟩ := mem_realizeAll h hc
    have hp := (List.mem_filter.mp hp).1
    have hkind : t.kind ∈ kinds t.target := by
      by_cases hr : t.kind = .recirculate
      · rw [offers, if_pos hr] at hps
        rw [← htarget, (mem_recirculation hps hp).2.1, hr]
        decide
      · rw [offers, if_neg hr] at hps
        exact kind_mem_of_proposals hps hp
    have henabled := stocked.enabled leaf (hl ▸ List.mem_cons_self)
    rw [htarget] at henabled
    refine List.mem_flatMap.mpr ⟨t.target, (TargetSet.mem_toList ..).mpr henabled, ?_⟩
    rw [Problem.catalog, if_pos henabled]
    exact List.mem_map.mpr ⟨t.kind, hkind, rfl⟩

/-- Whatever technique is applied to a derived plan, each candidate has new leaves in place of the
active one and the other leaves behind them. It has all that was bound, placed, completed and
minted. Another pass changes no more than that; any other technique handles the site of the leaf,
and no other one, and adds at most one node. -/
theorem expansion_is_conservative {kinds : List NodeKind} {root : NodeId} {g : Graph} {c : Config}
    {problem : Problem} {choices : List Choice} {plan : Plan}
    (accepted : Graph.ofKinds kinds root = .ok g) (posed : Problem.ofConfig g c = .ok problem)
    (derived : Derives problem choices plan) {t : Technique} {supply after : Supply} {e : Expansion}
    (expanded : t.expand problem plan supply = .ok (e, after)) {candidate : Candidate}
    (made : candidate ∈ e.candidates) :
    ∃ leaf rest new, plan.leaves = leaf :: rest ∧ candidate.plan.leaves = new ++ rest ∧
      plan.Retains candidate.plan ∧
      (t.kind = .recirculate → plan.Repeats candidate.plan leaf new) ∧
      (t.kind ≠ .recirculate → plan.Settles problem candidate.plan leaf new) := by
  have wp := Problem.wellPosed_of_ofConfig accepted posed
  have known := Technique.mem_techniques_of_expand (derived.stocked wp posed) expanded made
  have hstep := Technique.step_of_expand known expanded made
  have hcount := Technique.recirculations_of_expand known expanded made
  have hretains := hstep.retains derived.mintsAtNodes (derived.lawful wp).placed.indexed
  obtain ⟨leaf, rest, new, active, hleaves, hreplaces⟩ := hstep.replaces (derived.rooted wp)
  refine ⟨leaf, rest, new, active, hleaves, hretains, ?_, ?_⟩
  · intro hk
    rw [if_pos hk] at hcount
    rcases hreplaces with ⟨hrepeats, _⟩ | ⟨_, hsame⟩
    · exact hrepeats
    · omega
  · intro hk
    rw [if_neg hk] at hcount
    rcases hreplaces with ⟨_, hmore⟩ | ⟨hsettles, _⟩
    · omega
    · exact hsettles

def lookupsApart : List NodeKind :=
  let keyed (width : Nat) : OrdMap String Expr :=
    .ofList [("obj", .addr ⟨1⟩), ("key", .term "k" width)]
  [.terminal .drop, .terminal .drop, .terminal .drop,
    .call { function := "map_get", args := keyed 8, next := some 0 },
    .call { function := "map_get", args := keyed 16, next := some 1 },
    .branch (.term "d" 1) 4 2, .branch (.term "c" 1) 3 5,
    .call { function := "map_allocate", args := .ofList [("obj", .addr ⟨1⟩)], next := some 6 }]

/-- The second lookup lets the table grow where it is. The leaf at the other side of the branch, the
path that is complete and all nodes are as before. -/
theorem second_side_is_conservative :
    ∃ g problem plan e after candidate, Graph.ofKinds lookupsApart 7 = .ok g ∧
      Problem.ofConfig g {} = .ok problem ∧
      Derives problem [(⟨.switch, .branch⟩, 0), (⟨.switch, .route⟩, 0),
        (⟨.switch, .tableLookup⟩, 0), (⟨.switch, .branch⟩, 0), (⟨.switch, .allocate⟩, 0)] plan ∧
      (Technique.mk .switch .tableLookup).expand problem plan {} = .ok (e, after) ∧
      e.candidates = [candidate] ∧
      (plan.resources.placements.get? ⟨⟨1⟩, .table⟩).map (·.footprint.xbar) = some 8 ∧
      (candidate.plan.resources.placements.get? ⟨⟨1⟩, .table⟩).map (·.footprint.xbar) = some 16 ∧
      ∃ leaf rest new, plan.leaves = leaf :: rest ∧ rest ≠ [] ∧
        candidate.plan.leaves = new ++ rest ∧ plan.Retains candidate.plan ∧
        plan.Settles problem candidate.plan leaf new := by
  obtain ⟨g, accepted⟩ : ∃ g, Graph.ofKinds lookupsApart 7 = .ok g := ⟨_, rfl⟩
  obtain ⟨problem, posed, plan, derived, others, e, after, expanded, candidate, made, short, long⟩ :
      ∃ problem, Problem.ofConfig g {} = .ok problem ∧ ∃ plan,
        Derives problem [(⟨.switch, .branch⟩, 0), (⟨.switch, .route⟩, 0),
          (⟨.switch, .tableLookup⟩, 0), (⟨.switch, .branch⟩, 0), (⟨.switch, .allocate⟩, 0)] plan ∧
        plan.leaves.length = 2 ∧
        ∃ e after, (Technique.mk .switch .tableLookup).expand problem plan {} = .ok (e, after) ∧
        ∃ candidate, e.candidates = [candidate] ∧
        (plan.resources.placements.get? ⟨⟨1⟩, .table⟩).map (·.footprint.xbar) = some 8 ∧
        (candidate.plan.resources.placements.get? ⟨⟨1⟩, .table⟩).map (·.footprint.xbar) =
          some 16 := by
    cases accepted
    exact ⟨_, rfl, _, derives_of_replay rfl, rfl, _, _, rfl, _, rfl, rfl, rfl⟩
  obtain ⟨leaf, rest, new, active, hleaves, hretains, _, hsettles⟩ :=
    expansion_is_conservative accepted posed derived expanded (made ▸ List.mem_cons_self)
  refine ⟨g, problem, plan, e, after, candidate, accepted, posed, derived, expanded, made, short,
    long, leaf, rest, new, active, ?_, hleaves, hretains, hsettles (by decide)⟩
  rintro rfl
  rw [active] at others
  cases others

end PacketPlan
