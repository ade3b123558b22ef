import PacketPlan.Plan.Verify
import PacketPlan.Proofs.Graph.Tree
import PacketPlan.Proofs.Pipeline.Placement
import PacketPlan.Proofs.Plan.Step

/-! # Handling of leaves

Three of the four things that an expansion can do have the same shape: the active leaf is marked
as handled, and leaves at the sites that come next take its place. `Plan.Handles` is that shape.
The fourth, another pass, only counts.
-/
namespace PacketPlan.Plan

def module? (plan : Plan) (id : PlanNodeId) : Option Module := (plan.node? id).map PlanNode.module

theorem takesOver?_eq (plan : Plan) (how : Option PlanNodeId) :
    plan.takesOver? how = (how.bind plan.module?).bind Module.handsOver? := by
  cases how with
  | none => rfl
  | some id =>
    simp only [takesOver?, module?, Option.bind_some, Option.bind_map]
    rfl

/-- Nothing of a node but the list of its children changes when one more hangs below it. -/
theorem map_linked {β : Type} (plan : Plan) (new : PlanNodeId) (parent : Option PlanNodeId)
    (f : PlanNode → β) (blind : ∀ n children, f { n with children } = f n) :
    (plan.linked new parent).map f = plan.nodes.map f := by
  cases parent with
  | none => rfl
  | some parent =>
    apply List.ext_getElem?
    intro i
    simp only [linked, List.getElem?_map, List.getElem?_modify]
    cases plan.nodes[i]? with
    | none => rfl
    | some n => by_cases h : parent = i <;> simp [h, blind]

theorem linked_module (plan : Plan) (new id : PlanNodeId) (parent : Option PlanNodeId) :
    ((plan.linked new parent)[id]?).map PlanNode.module = plan.module? id := by
  rw [← List.getElem?_map, map_linked _ _ _ _ fun _ _ => rfl, List.getElem?_map, module?, node?]

theorem length_linked (plan : Plan) (new : PlanNodeId) (parent : Option PlanNodeId) :
    (plan.linked new parent).length = plan.nodes.length := by
  simpa using congrArg List.length (map_linked plan new parent PlanNode.id fun _ _ => rfl)

section attached
variable {plan : Plan} {id : PlanId} {bindings : Bindings} {resources : Pipeline} {leaf : Leaf}
variable {rest children : List Leaf} {m : Module} {minted : Option Symbol}

theorem attached_nodes :
    (plan.attached id bindings resources leaf rest m children minted).nodes =
      plan.linked plan.nodes.length leaf.attach ++
        [⟨plan.nodes.length, m, leaf.attach, [], plan.depthBelow leaf.attach⟩] := by
  cases minted <;> rfl

theorem attached_leaves :
    (plan.attached id bindings resources leaf rest m children minted).leaves =
      children.map (fun l => { l with attach := some plan.nodes.length }) ++ rest := by
  cases minted <;> rfl

theorem attached_processed :
    (plan.attached id bindings resources leaf rest m children minted).ledger.processed =
      plan.ledger.processed.insert leaf.site (some plan.nodes.length) := by
  cases minted <;> cases children <;> rfl

theorem attached_completed :
    (plan.attached id bindings resources leaf rest m children minted).ledger.completed =
      plan.ledger.completed ++
        if children.isEmpty then [⟨leaf.branchDepth, leaf.target, leaf.recirculations⟩] else [] := by
  cases minted <;> cases children <;> simp [attached, grown, Ledger.recordCompleted, recordSymbol,
    Ledger.recordSymbol, Ledger.recordModule]

theorem attached_resources :
    (plan.attached id bindings resources leaf rest m children minted).resources = resources := by
  cases minted <;> rfl

theorem attached_bindings :
    (plan.attached id bindings resources leaf rest m children minted).bindings = bindings := by
  cases minted <;> rfl

theorem attached_recirculations :
    (plan.attached id bindings resources leaf rest m children minted).ledger.recirculations =
      plan.ledger.recirculations := by
  cases minted <;> cases children <;> rfl

theorem attached_module?_new :
    (plan.attached id bindings resources leaf rest m children minted).module? plan.nodes.length =
      some m := by
  have hlen := length_linked plan plan.nodes.length leaf.attach
  rw [module?, node?, attached_nodes, List.getElem?_append_right (Nat.le_of_eq hlen), hlen,
    Nat.sub_self]
  rfl

theorem attached_module?_old {i : PlanNodeId} {old : Module} (h : plan.module? i = some old) :
    (plan.attached id bindings resources leaf rest m children minted).module? i = some old := by
  rw [← linked_module plan plan.nodes.length i leaf.attach] at h
  obtain ⟨n, hn, hm⟩ := Option.map_eq_some_iff.mp h
  have hlt := (List.getElem?_eq_some_iff.mp hn).1
  rw [module?, node?, attached_nodes, List.getElem?_append_left hlt, hn]
  exact congrArg some hm

theorem attached_module?_eq_some {i : PlanNodeId} {found : Module}
    (h : (plan.attached id bindings resources leaf rest m children minted).module? i = some found) :
    plan.module? i = some found ∨ (i = plan.nodes.length ∧ found = m) := by
  have hlen := length_linked plan plan.nodes.length leaf.attach
  rw [module?, node?, attached_nodes, List.getElem?_append] at h
  split at h
  · left
    rw [← linked_module plan plan.nodes.length i leaf.attach]
    exact h
  · right
    rename_i hge
    obtain ⟨n, hn, rfl⟩ := Option.map_eq_some_iff.mp h
    obtain ⟨hlt, rfl⟩ := List.getElem?_eq_some_iff.mp hn
    simp only [List.length_singleton] at hlt
    have hi : @Eq Nat i plan.nodes.length := by omega
    exact ⟨hi, by simp⟩

end attached

/-- The active leaf is handled, and leaves at the sites that come next take its place. -/
structure Handles (problem : Problem) (plan after : Plan) (leaf : Leaf) (rest children : List Leaf)
    (how : Option PlanNodeId) : Prop where
  active : plan.leaves = leaf :: rest
  present : leaf.next < problem.graph.size
  fresh : plan.ledger.processed? leaf.site = none
  handled : after.ledger.processed = plan.ledger.processed.insert leaf.site how
  leaves_eq : after.leaves = children ++ rest
  sites : children.map Leaf.site = (after.nextSites problem.graph leaf.site how).reverse
  kept : ∀ {id m}, plan.module? id = some m → after.module? id = some m
  made : ∀ {id}, how = some id → ∃ a, after.module? id = some ⟨leaf.target, leaf.next, a⟩
  onSwitch : after.takesOver? how ≠ none → leaf.target = .switch
  passes : ∀ l ∈ children, l.recirculations = leaf.recirculations
  depths : problem.graph.branchDepth leaf.next = .ok leaf.branchDepth →
    ∀ l ∈ children, problem.graph.branchDepth l.next = .ok l.branchDepth
  completed : after.ledger.completed = plan.ledger.completed ++
    if children.isEmpty then [⟨leaf.branchDepth, leaf.target, leaf.recirculations⟩] else []
  resources : plan.resources.Leads after.resources
  recirculations : after.ledger.recirculations = plan.ledger.recirculations
  quiet : children = [] → after.resources = plan.resources
  ends : children = [] → ∃ node, problem.graph.node? leaf.next = some node ∧ node.kind.isTerminal

/-! ## The leaves that come next -/

theorem follows_sites {next : Continuation} {k : NodeKind} (h : next.Follows k) (leaf : Leaf)
    (placed : List SwitchObject) :
    (next.leaves leaf placed).map Leaf.site = k.children.map fun c => ⟨c, leaf.target⟩ := by
  cases k with
  | call c =>
    cases next with
    | next n =>
      have hn : c.next = some n := h
      simp only [NodeKind.children, hn]
      rfl
    | _ => exact h.elim
  | branch condition t f =>
    cases next with
    | branch t' f' =>
      obtain ⟨rfl, rfl⟩ := h
      rfl
    | _ => exact h.elim
  | terminal route =>
    cases next with
    | stop => rfl
    | _ => exact h.elim

theorem follows_leaf {next : Continuation} {k : NodeKind} (h : next.Follows k) {leaf l : Leaf}
    {placed : List SwitchObject} (hl : l ∈ next.leaves leaf placed) :
    l.recirculations = leaf.recirculations ∧
      l.branchDepth = leaf.branchDepth + if k.isBranch then 1 else 0 := by
  cases k with
  | call c =>
    cases next with
    | next n =>
      cases List.mem_singleton.mp hl
      exact ⟨rfl, rfl⟩
    | _ => exact h.elim
  | branch condition t f =>
    cases next with
    | branch t' f' =>
      rcases List.mem_cons.mp hl with rfl | hl
      · exact ⟨rfl, rfl⟩
      · cases List.mem_singleton.mp hl
        exact ⟨rfl, rfl⟩
    | _ => exact h.elim
  | terminal route =>
    cases next with
    | stop => cases hl
    | _ => exact h.elim

theorem leaf_of_follows {next : Continuation} {k : NodeKind} (h : next.Follows k) {leaf l : Leaf}
    {placed : List SwitchObject} (hl : l ∈ next.leaves leaf placed) :
    l.attach = leaf.attach ∧ l.target = leaf.target ∧ l.recirculations = leaf.recirculations ∧
      ∀ o, o ∈ l.passDeps ↔ o ∈ leaf.passDeps ∨ o ∈ placed := by
  have hnotes : ∀ o, o ∈ leaf.passDeps.insertAll placed ↔ o ∈ leaf.passDeps ∨ o ∈ placed :=
    fun o => (OrdSet.mem_insertAll _ _ _).trans or_comm
  cases next with
  | stop => cases hl
  | next n =>
    cases List.mem_singleton.mp hl
    exact ⟨rfl, rfl, rfl, hnotes⟩
  | branch t f =>
    rcases List.mem_cons.mp hl with rfl | hl
    · exact ⟨rfl, rfl, rfl, hnotes⟩
    · cases List.mem_singleton.mp hl
      exact ⟨rfl, rfl, rfl, hnotes⟩
  | transfer | revisit => cases k <;> exact h.elim

theorem follows_nil {next : Continuation} {k : NodeKind} (h : next.Follows k) {leaf : Leaf}
    {placed : List SwitchObject} (hl : next.leaves leaf placed = []) :
    next = .stop ∧ k.isTerminal := by
  cases next with
  | stop =>
    cases k with
    | terminal => exact ⟨rfl, rfl⟩
    | call | branch => exact h.elim
  | revisit => cases k <;> exact h.elim
  | next | branch | transfer => cases hl

theorem nextSites_of_keeps {plan : Plan} {g : Graph} {site : Site} {how : Option PlanNodeId}
    {node : Node} (hn : g.node? site.node = some node) (h : plan.takesOver? how = none) :
    plan.nextSites g site how = (node.children.map fun c => ⟨c, site.target⟩).reverse := by
  rw [nextSites, h, hn]
  rfl

theorem follows_depth {g : Graph} (hg : g.IsTree) {leaf l : Leaf} {node : Node}
    (hn : g.node? leaf.next = some node) {next : Continuation} (h : next.Follows node.kind)
    {placed : List SwitchObject} (hl : l ∈ next.leaves leaf placed)
    (hd : g.branchDepth leaf.next = .ok leaf.branchDepth) :
    g.branchDepth l.next = .ok l.branchDepth := by
  have hsite : l.site ∈ (next.leaves leaf placed).map Leaf.site := List.mem_map_of_mem hl
  rw [follows_sites h leaf placed] at hsite
  obtain ⟨c, hc, hs⟩ := List.mem_map.mp hsite
  have hnext : c = l.next := congrArg Site.node hs
  rw [(follows_leaf h hl).2, ← hnext]
  exact hg.branchDepth_child hn hc hd

theorem placeFrom_leads {p : Proposal} {deps : ObjectSet} {placed : List SwitchObject}
    {r after : Pipeline} {requests : List (SwitchObject × Demand)} {stages : List Nat}
    (h : p.placeFrom deps placed r requests = .ok (stages, after)) : r.Leads after := by
  induction requests generalizing placed r stages with
  | nil =>
    cases h
    exact .refl
  | cons request requests ih =>
    obtain ⟨⟨stage, next⟩, hplace, h⟩ := bind_eq_ok.mp h
    obtain ⟨⟨others, last⟩, hothers, h⟩ := bind_eq_ok.mp h
    cases h
    have hfirst : r.Leads next := .place .refl hplace
    exact hfirst.trans (ih hothers)

/-! ## Steps as handling -/

theorem handles_attached {problem : Problem} {plan : Plan} {id : PlanId} {bindings : Bindings}
    {resources : Pipeline} {leaf : Leaf} {rest children : List Leaf} {a : Action}
    {minted : Option Symbol} (active : plan.leaves = leaf :: rest)
    (present : leaf.next < problem.graph.size) (fresh : plan.ledger.processed? leaf.site = none)
    (sites : children.map Leaf.site = ((plan.attached id bindings resources leaf rest
      ⟨leaf.target, leaf.next, a⟩ children minted).nextSites problem.graph leaf.site
        (some plan.nodes.length)).reverse)
    (onSwitch : Module.handsOver? ⟨leaf.target, leaf.next, a⟩ ≠ none → leaf.target = .switch)
    (passes : ∀ l ∈ children, l.recirculations = leaf.recirculations)
    (depths : problem.graph.branchDepth leaf.next = .ok leaf.branchDepth →
      ∀ l ∈ children, problem.graph.branchDepth l.next = .ok l.branchDepth)
    (leads : plan.resources.Leads resources) (quiet : children = [] → resources = plan.resources)
    (ends : children = [] →
      ∃ node, problem.graph.node? leaf.next = some node ∧ node.kind.isTerminal) :
    Handles problem plan
      (plan.attached id bindings resources leaf rest ⟨leaf.target, leaf.next, a⟩ children minted)
      leaf rest (children.map fun l => { l with attach := some plan.nodes.length })
      (some plan.nodes.length) where
  active := active
  present := present
  fresh := fresh
  handled := attached_processed
  leaves_eq := attached_leaves
  sites := by
    rw [← sites, List.map_map]
    rfl
  kept := attached_module?_old
  made := by
    rintro i ⟨⟩
    exact ⟨a, attached_module?_new⟩
  onSwitch := by
    rw [takesOver?_eq, Option.bind_some, attached_module?_new]
    exact onSwitch
  passes := by
    intro l hl
    obtain ⟨below, hbelow, rfl⟩ := List.mem_map.mp hl
    exact passes below hbelow
  depths := by
    intro hd l hl
    obtain ⟨below, hbelow, rfl⟩ := List.mem_map.mp hl
    exact depths hd below hbelow
  completed := by rw [attached_completed, List.isEmpty_map]
  resources := by
    rw [attached_resources]
    exact leads
  recirculations := attached_recirculations
  quiet := by
    intro h
    rw [attached_resources]
    exact quiet (List.map_eq_nil_iff.mp h)
  ends h := ends (List.map_eq_nil_iff.mp h)

/-- A step handles the active leaf, or it sends the packet through the pipeline once more. -/
theorem handles_of_step {problem : Problem} (hg : problem.graph.IsTree) {plan after : Plan}
    (h : plan.Step problem after) :
    (∃ leaf rest children how, Handles problem plan after leaf rest children how) ∨
      ∃ leaf rest id, plan.leaves = leaf :: rest ∧ leaf.target = .switch ∧
        leaf.recirculations < problem.platform.maxRecirculations ∧
        after = plan.revisited id leaf rest := by
  cases h with
  | @pass leaf rest t p node n id bindings offer present silent goes follows places bound fresh =>
    refine .inl ⟨leaf, rest, p.next.leaves leaf p.objects, none, ?_⟩
    exact {
      active := offer.active
      present := Graph.IsTree.node_lt present
      fresh := fresh
      handled := rfl
      leaves_eq := rfl
      sites := by
        rw [nextSites_of_keeps present rfl, List.reverse_reverse]
        exact follows_sites follows leaf p.objects
      kept := fun h => h
      made := nofun
      onSwitch := fun h => absurd rfl h
      passes := fun l hl => (follows_leaf follows hl).1
      depths := fun hd l hl => follows_depth hg present follows hl hd
      completed := by
        rw [goes]
        exact (List.append_nil _).symm
      resources := .refl
      recirculations := rfl
      quiet := fun _ => rfl
      ends := by
        rw [goes]
        nofun }
  | @act leaf rest t p node a id bindings stages resources offer present acts keeps follows places
      bound placed rooted fresh =>
    refine .inl ⟨leaf, rest, _, _, handles_attached offer.active (Graph.IsTree.node_lt present)
      fresh ?_ ?_ ?_ ?_ (placeFrom_leads placed) ?_ ?_⟩
    · rw [nextSites_of_keeps present, List.reverse_reverse]
      · exact follows_sites follows leaf p.objects
      · rw [takesOver?_eq, Option.bind_some, attached_module?_new]
        exact Module.handsOver?_eq_none keeps
    · intro h
      exact absurd (Module.handsOver?_eq_none keeps) h
    · exact fun l hl => (follows_leaf follows hl).1
    · exact fun hd l hl => follows_depth hg present follows hl hd
    · intro hnil
      rw [Technique.place_of_nil (places (follows_nil follows hnil).1)] at placed
      cases placed
      rfl
    · intro hnil
      exact ⟨node, present, (follows_nil follows hnil).2⟩
  | @handOver leaf rest t p node id bindings symbol offer present onSwitch acts goes places bound
      rooted fresh =>
    rw [← onSwitch]
    refine .inl ⟨leaf, rest, _, _, handles_attached offer.active (Graph.IsTree.node_lt present)
      fresh ?_ (fun _ => onSwitch) ?_ ?_ .refl (fun _ => rfl) nofun⟩
    · rw [nextSites, takesOver?_eq, Option.bind_some, attached_module?_new]
      rfl
    · intro l hl
      cases List.mem_singleton.mp hl
      rfl
    · intro hd l hl
      cases List.mem_singleton.mp hl
      exact hd
  | @revisit leaf rest t id offer onSwitch allowed =>
    exact .inr ⟨leaf, rest, id, offer.active, onSwitch, allowed, rfl⟩

end PacketPlan.Plan
