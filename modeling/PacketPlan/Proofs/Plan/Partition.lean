import PacketPlan.Proofs.Plan.Execution
import PacketPlan.Proofs.Plan.Recirculation

/-! # What is left to do

A plan goes through the graph in the order of a depth-first visit. What it has executed is the first
part of that visit, and the rest of it are the subtrees at which the leaves stand, one after the
other. A node that is handed over or met in a new pass is not executed yet: the leaf that takes the
place of the active one stands at the same node.

The leaves also know where they are: how many branches are above them, on which target they stand
and what their path has met in the current pass. All of that is placed, so no request of an
expansion is ever behind an object that is not there.
-/
namespace PacketPlan

theorem OrdSet.eq_empty_iff {α : Type} {s : OrdSet α} : s = ∅ ↔ ∀ a, a ∉ s := by
  constructor
  · rintro rfl a
    exact not_mem_empty a
  · intro h
    exact congrArg OrdSet.mk (List.eq_nil_iff_forall_not_mem.mpr h)

/-! ## Executed nodes and open leaves -/

namespace Plan
variable {problem : Problem} {plan after : Plan} {leaf : Leaf} {rest children : List Leaf}
variable {how : Option PlanNodeId}

def executed (plan : Plan) (n : NodeId) : Bool :=
  Target.all.any fun t => (plan.ledger.processed? ⟨n, t⟩).any fun how => !plan.sends how

/-- What the leaves stand for: the subtrees of their nodes, one after the other. -/
def ahead (g : Graph) (plan : Plan) : List NodeId := plan.leaves.flatMap fun l => g.subtree l.next

theorem executed_iff {n : NodeId} : plan.executed n = true ↔ ∃ t, plan.Executes n t := by
  simp only [executed, List.any_eq_true, Option.any_eq_true, Bool.not_eq_true', Executes]
  constructor
  · rintro ⟨t, _, how, hhow, hkeeps⟩
    exact ⟨t, how, hhow, hkeeps⟩
  · rintro ⟨t, how, hhow, hkeeps⟩
    exact ⟨t, by cases t <;> simp [Target.all], how, hhow, hkeeps⟩

theorem ahead_append {g : Graph} (xs ys : List Leaf) (h : plan.leaves = xs ++ ys) :
    plan.ahead g =
      (xs.map Leaf.next).flatMap g.subtree ++ (ys.map Leaf.next).flatMap g.subtree := by
  simp [ahead, h, List.flatMap_append, List.flatMap_map]

/-- A node that is handled and not sent away is the first of those that were ahead. -/
theorem Handles.ahead_of_keeps (h : Handles problem plan after leaf rest children how)
    (hg : problem.graph.IsTree) (keeps : after.takesOver? how = none) :
    plan.ahead problem.graph = leaf.next :: after.ahead problem.graph := by
  obtain ⟨node, present⟩ : ∃ node, problem.graph.node? leaf.next = some node :=
    ⟨_, List.getElem?_eq_getElem h.present⟩
  have hnexts : children.map Leaf.next = node.children := by
    have hsites := h.sites
    rw [nextSites_of_keeps present keeps, List.reverse_reverse] at hsites
    simpa [Function.comp_def, Leaf.site] using congrArg (List.map Site.node) hsites
  rw [ahead_append [leaf] rest h.active, ahead_append children rest h.leaves_eq, hnexts]
  simp [hg.subtree_eq present]

theorem Handles.ahead_of_sends (h : Handles problem plan after leaf rest children how)
    {t : Target} (sends : after.takesOver? how = some t) :
    after.ahead problem.graph = plan.ahead problem.graph := by
  have hnexts : children.map Leaf.next = [leaf.next] := by
    have hsites := h.sites
    rw [nextSites, sends] at hsites
    simpa [Function.comp_def, Leaf.site] using congrArg (List.map Site.node) hsites
  rw [ahead_append [leaf] rest h.active, ahead_append children rest h.leaves_eq, hnexts]
  rfl

/-- What is executed is the first part of the visit, and what lies ahead is the rest of it. -/
def Partitions (g : Graph) (plan : Plan) : Prop :=
  g.visits.filter plan.executed ++ plan.ahead g = g.visits

theorem filter_append_of_done {xs ys : List NodeId} {a : NodeId} {p q : NodeId → Bool}
    (nodup : xs.Nodup) (h : xs.filter p ++ a :: ys = xs)
    (done : ∀ x, q x = true ↔ p x = true ∨ x = a) : xs.filter q ++ ys = xs := by
  have hahead : ∀ x ∈ a :: ys, ¬p x = true := by
    have hfilter := congrArg (List.filter p) h
    rw [List.filter_append, List.filter_filter] at hfilter
    simpa using hfilter
  have hlater : ∀ x ∈ ys, ¬q x = true := by
    intro x hx hq
    rw [← h] at nodup
    rcases (done x).mp hq with hp | rfl
    · exact hahead x (List.mem_cons_of_mem a hx) hp
    · exact (List.nodup_cons.mp (List.nodup_append.mp nodup).2.1).1 hx
  have hfirst : (xs.filter p).filter q = xs.filter p := by
    rw [List.filter_eq_self]
    intro x hx
    exact (done x).mpr (.inl (List.mem_filter.mp hx).2)
  have hself : q a = true := (done a).mpr (.inr rfl)
  calc xs.filter q ++ ys
      = (xs.filter p ++ a :: ys).filter q ++ ys := by rw [h]
    _ = xs.filter p ++ a :: ys := by
        simp [List.filter_append, hfirst, hself, List.filter_eq_nil_iff.mpr hlater]
    _ = xs := h

theorem Handles.partitions (h : Handles problem plan after leaf rest children how)
    (hg : problem.graph.IsTree) (tracked : Tracked problem plan)
    (before : plan.Partitions problem.graph) : after.Partitions problem.graph := by
  cases hover : after.takesOver? how with
  | none =>
    have hnodup : problem.graph.visits.Nodup := hg.visits_perm.nodup_iff.mpr List.nodup_range
    rw [Partitions, h.ahead_of_keeps hg hover] at before
    apply filter_append_of_done hnodup before
    intro n
    rw [executed_iff, executed_iff, h.exists_executes_iff tracked]
    simp [hover]
  | some t =>
    have hsame : after.executed = plan.executed := by
      funext n
      rw [Bool.eq_iff_iff, executed_iff, executed_iff, h.exists_executes_iff tracked]
      simp [hover]
    rw [Partitions, hsame, h.ahead_of_sends hover]
    exact before

theorem Partitions.step (before : plan.Partitions problem.graph) (hg : problem.graph.IsTree)
    (tracked : Tracked problem plan) (step : plan.Step problem after) :
    after.Partitions problem.graph := by
  rcases handles_of_step hg step with
    ⟨leaf, rest, children, how, handles⟩ | ⟨leaf, rest, id, active, _, _, rfl⟩
  · exact handles.partitions hg tracked before
  · -- another pass leaves the ledger as it is and the leaf at its node
    rw [Partitions, ahead, active] at before
    exact before

/-! ## What a leaf has met -/

/-- Away from the switch the order of the pipeline is of no concern. -/
def MeetsOnSwitch (plan : Plan) : Prop :=
  ∀ l ∈ plan.leaves, l.target ≠ .switch → l.passDeps = ∅

theorem MeetsOnSwitch.follows (h : plan.MeetsOnSwitch) (active : plan.leaves = leaf :: rest)
    {next : Continuation} {k : NodeKind} (follows : next.Follows k) {placed : List SwitchObject}
    (places : leaf.target ≠ .switch → placed = []) {l : Leaf} (hl : l ∈ next.leaves leaf placed)
    (off : l.target ≠ .switch) : l.passDeps = ∅ := by
  obtain ⟨_, htarget, _, hnotes⟩ := leaf_of_follows follows hl
  rw [htarget] at off
  have hbefore := OrdSet.eq_empty_iff.mp (h leaf (active ▸ List.mem_cons_self) off)
  rw [OrdSet.eq_empty_iff]
  intro o
  simp [hnotes o, hbefore o, places off]

theorem MeetsOnSwitch.step (h : plan.MeetsOnSwitch) (step : plan.Step problem after) :
    after.MeetsOnSwitch := by
  have hrest : ∀ {leaf : Leaf} {rest : List Leaf}, plan.leaves = leaf :: rest →
      ∀ l ∈ rest, l.target ≠ .switch → l.passDeps = ∅ :=
    fun active l hl => h l (active ▸ List.mem_cons_of_mem _ hl)
  intro l hl off
  cases step with
  | @pass leaf rest t p node n id bindings offer present silent goes follows places bound fresh =>
    rcases List.mem_append.mp hl with hl | hl
    · exact h.follows offer.active follows (fun _ => by simp [Proposal.objects, places]) hl off
    · exact hrest offer.active l hl off
  | @act leaf rest t p node a id bindings stages resources offer present acts keeps follows places
      bound placed rooted fresh =>
    rw [attached_leaves] at hl
    rcases List.mem_append.mp hl with hl | hl
    · obtain ⟨child, hchild, rfl⟩ := List.mem_map.mp hl
      have hacts : p ≠ Technique.revisit leaf := by
        rintro rfl
        cases acts
      obtain ⟨ps, hps, hp⟩ := offer.proposed hacts
      have hobjects : leaf.target ≠ .switch → p.objects = [] := by
        intro hoff
        rw [offer.target_eq] at hoff
        simp [Proposal.objects, Technique.placements_off_switch hoff hps hp]
      exact h.follows (l := child) offer.active follows hobjects hchild off
    · exact hrest offer.active l hl off
  | @handOver leaf rest t p node id bindings symbol offer =>
    rw [attached_leaves] at hl
    rcases List.mem_append.mp hl with hl | hl
    · obtain ⟨child, hchild, rfl⟩ := List.mem_map.mp hl
      rw [List.mem_singleton.mp hchild]
      rfl
    · exact hrest offer.active l hl off
  | revisit offer =>
    rcases List.mem_cons.mp hl with rfl | hl
    · rfl
    · exact hrest offer.active l hl off

end Plan

/-! ## Dependencies that are met -/

theorem Pipeline.place_ne_unmet {p : Pipeline} {o x dep : SwitchObject} {d : Demand}
    {deps : ObjectSet} (met : ∀ y ∈ deps, p.isPlaced y = true) :
    p.place o d deps ≠ .error (.unmetDependency x dep) := by
  intro h
  cases declines_of_locate (place_eq_error_iff.mp h) with
  | unfit _ unfit => simpa using needOf_eq_error unfit
  | unmet listed absent => simp [met _ listed] at absent

namespace Proposal
variable {p : Proposal} {passDeps : ObjectSet} {x dep : SwitchObject}

/-- The objects of a proposal come behind what the path has met and behind one another, and all of
that is placed when their turn comes. -/
theorem placeFrom_ne_unmet {placed : List SwitchObject} {r : Pipeline} (hr : r.Indexed)
    (met : ∀ y ∈ passDeps, r.isPlaced y = true) (hplaced : ∀ y ∈ placed, r.isPlaced y = true)
    (requests : List (SwitchObject × Demand)) :
    p.placeFrom passDeps placed r requests ≠ .error (.unmetDependency x dep) := by
  induction requests generalizing placed r with
  | nil =>
    intro h
    cases h
  | cons request requests ih =>
    intro h
    rcases bind_eq_error.mp h with hplace | ⟨⟨stage, next⟩, hplace, h⟩
    · exact Pipeline.place_ne_unmet (isPlaced_of_mem_dependencies met hplaced) hplace
    · obtain ⟨located, hl, _, rfl⟩ := Pipeline.placeWithin_eq_ok hplace
      have hkept : ∀ {y}, y = request.1 ∨ r.isPlaced y = true → (r.commit request.1 request.2
          (p.dependencies passDeps placed) located).isPlaced y = true :=
        fun hy => (Pipeline.isPlaced_commit hr hl).mpr hy
      rcases bind_eq_error.mp h with hothers | ⟨_, _, h⟩
      · refine ih (Pipeline.commit_indexed hr) (fun y hy => hkept (.inr (met y hy))) ?_ hothers
        intro y hy
        rcases List.mem_append.mp hy with hy | hy
        · exact hkept (.inr (hplaced y hy))
        · exact hkept (.inl (List.mem_singleton.mp hy))
      · cases h

end Proposal

open Plan

theorem Derives.partitions {problem : Problem} (wp : problem.WellPosed) {choices : List Choice}
    {plan : Plan} (h : Derives problem choices plan) : plan.Partitions problem.graph := by
  induction h with
  | root id =>
    have hnone : (Plan.empty problem id).executed = fun _ => false := by
      funext n
      rfl
    rw [Partitions, hnone]
    simp [ahead, Plan.empty, Leaf.root, Graph.visits]
  | expand before known expanded chosen ih =>
    have step := Technique.step_of_expand known expanded (List.mem_of_getElem? chosen)
    exact ih.step wp.tree (before.lawful wp).tracked step

theorem Derives.meetsOnSwitch {problem : Problem} {choices : List Choice} {plan : Plan}
    (h : Derives problem choices plan) : plan.MeetsOnSwitch := by
  apply h.invariant
  · intro id l hl _
    rw [List.mem_singleton.mp hl]
    rfl
  · exact fun meets step => meets.step step

/-- The open leaves of a derived plan divide up what is left of the graph. The nodes that are
executed, listed in the order of a depth-first visit, and behind them the visits of the subtrees at
the leaves, in the order of the leaves, make up the visit of the whole graph. Every leaf has the
branch depth of its node, an enabled target and no more passes than allowed. It has met nothing but
what is placed, and nothing at all away from the switch. So no expansion is refused for a dependency
that is not met. -/
theorem leaves_partition_remaining_graph {kinds : List NodeKind} {root : NodeId} {g : Graph}
    {c : Config} {problem : Problem} {choices : List Choice} {plan : Plan}
    (accepted : Graph.ofKinds kinds root = .ok g) (posed : Problem.ofConfig g c = .ok problem)
    (derived : Derives problem choices plan) :
    Graph.Preorder g.children? [g.root] g.visits ∧
      g.visits.filter plan.executed ++ plan.leaves.flatMap (fun l => g.subtree l.next) = g.visits ∧
      (∀ l ∈ plan.leaves, Graph.Preorder g.children? [l.next] (g.subtree l.next) ∧
        g.branchDepth l.next = .ok l.branchDepth ∧
        problem.platform.enabled.contains l.target = true ∧
        l.recirculations ≤ problem.platform.maxRecirculations ∧
        (∀ o ∈ l.passDeps, plan.resources.isPlaced o = true) ∧
        (l.target ≠ .switch → l.passDeps = ∅)) ∧
      ∀ (t : Technique) supply e after, t.expand problem plan supply = .ok (e, after) →
        ∀ o dep, .unmetDependency o dep ∉ e.pruned := by
  have wp := Problem.wellPosed_of_ofConfig accepted posed
  have lawful := derived.lawful wp
  have stocked := derived.stocked wp posed
  have hgraph : problem.graph = g := by rw [Problem.eq_of_ofConfig posed]
  have hg : g.IsTree := hgraph ▸ wp.tree
  refine ⟨(hg.preorder_at hg.root_lt).1, hgraph ▸ derived.partitions wp, ?_, ?_⟩
  · intro l hl
    have hpresent := (lawful.tracked.leaf_reached hl).present wp.tree
    rw [hgraph] at hpresent
    refine ⟨(hg.preorder_at hpresent).1, ?_, stocked.enabled l hl, lawful.leaf_passes l hl,
      stocked.met l hl, derived.meetsOnSwitch l hl⟩
    rw [← hgraph]
    exact (derived.pathsEnd wp).leaf_depth l hl
  · intro t supply e after expanded o dep hpruned
    cases active : plan.leaves with
    | nil =>
      rw [Technique.expand, Plan.activeLeaf?, active] at expanded
      cases expanded
      simp at hpruned
    | cons leaf rest =>
      obtain ⟨_, ps, _, p, _, hplace⟩ := Technique.refused_of_expand active expanded hpruned
      have hmet := stocked.met leaf (active ▸ List.mem_cons_self)
      exact Proposal.placeFrom_ne_unmet lawful.placed.indexed hmet (by simp) p.placements hplace

def lookupAhead : List NodeKind :=
  [.terminal .drop, .terminal (.forward 1), .call { function := "current_time", next := some 1 },
    .branch (.term "c" 1) 2 0,
    .call { function := "map_get", args := .ofList [("obj", .addr ⟨1⟩), ("key", .term "k" 8)],
            next := some 3 },
    .call { function := "map_allocate", args := .ofList [("obj", .addr ⟨1⟩)], next := some 4 }]

/-- One side of the branch is handed over at its call, which is still to be executed. The other side
is open on the switch, behind the table. -/
theorem handed_over_call_is_ahead :
    ∃ g problem plan, Graph.ofKinds lookupAhead 5 = .ok g ∧ Problem.ofConfig g {} = .ok problem ∧
      Derives problem [(⟨.switch, .sendToController⟩, 0), (⟨.switch, .branch⟩, 0),
        (⟨.switch, .tableLookup⟩, 0), (⟨.switch, .allocate⟩, 0)] plan ∧
      g.visits = [5, 4, 3, 2, 1, 0] ∧
      plan.leaves.map (fun l => (l.next, l.target, l.passDeps)) =
        [(2, .controller, ∅), (0, .switch, .ofList [⟨⟨1⟩, .table⟩])] ∧
      [5, 4, 3, 2, 1, 0].filter plan.executed ++ g.subtree 2 ++ g.subtree 0 = [5, 4, 3, 2, 1, 0] ∧
      plan.resources.isPlaced ⟨⟨1⟩, .table⟩ = true := by
  obtain ⟨g, accepted⟩ : ∃ g, Graph.ofKinds lookupAhead 5 = .ok g := ⟨_, rfl⟩
  obtain ⟨problem, posed, plan, derived, hvisits, hleaves⟩ :
      ∃ problem, Problem.ofConfig g {} = .ok problem ∧ ∃ plan,
        Derives problem [(⟨.switch, .sendToController⟩, 0), (⟨.switch, .branch⟩, 0),
          (⟨.switch, .tableLookup⟩, 0), (⟨.switch, .allocate⟩, 0)] plan ∧
        g.visits = [5, 4, 3, 2, 1, 0] ∧
        plan.leaves.map (fun l => (l.next, l.target, l.passDeps)) =
          [(2, .controller, ∅), (0, .switch, .ofList [⟨⟨1⟩, .table⟩])] := by
    cases accepted
    exact ⟨_, rfl, _, derives_of_replay rfl, rfl, rfl⟩
  obtain ⟨_, hparts, hknown, _⟩ := leaves_partition_remaining_graph accepted posed derived
  refine ⟨g, problem, plan, accepted, posed, derived, hvisits, hleaves, ?_, ?_⟩
  · have hnexts : plan.leaves.map Leaf.next = [2, 0] := by
      simpa [Function.comp_def] using congrArg (List.map (·.1)) hleaves
    rw [← List.flatMap_map, hnexts, hvisits] at hparts
    simpa using hparts
  · have hmem : ((0, .switch, .ofList [⟨⟨1⟩, .table⟩]) : NodeId × Target × ObjectSet) ∈
        plan.leaves.map (fun l => (l.next, l.target, l.passDeps)) := by simp [hleaves]
    obtain ⟨l, hl, hfields⟩ := List.mem_map.mp hmem
    obtain ⟨_, _, _, _, hmet, _⟩ := hknown l hl
    apply hmet
    simp only [Prod.mk.injEq] at hfields
    rw [hfields.2.2]
    decide

end PacketPlan
