import PacketPlan.Search.Run
import PacketPlan.Proofs.Plan.Coverage

/-! # How far a plan can grow

Every step uses up some of what can still follow from the leaves of a plan, so that no derivation is
longer than the bound on the depth of searches.
-/
namespace PacketPlan
open Plan

namespace Plan

/-- A bound on the steps that can follow. -/
def potential (problem : Problem) (plan : Plan) : Nat :=
  (plan.leaves.map fun l => siteWeight problem.graph
    (problem.platform.maxRecirculations - l.recirculations) l.site).sum

theorem Lawful.leaf_present {problem : Problem} {plan : Plan} (h : Lawful problem plan)
    (hg : problem.graph.IsTree) {l : Leaf} (hl : l ∈ plan.leaves) : l.next < problem.graph.size :=
  (h.tracked.leaf_reached hl).present hg

theorem Lawful.potential_pos {problem : Problem} {plan : Plan} (h : Lawful problem plan)
    (hg : problem.graph.IsTree) (hl : plan.leaves ≠ []) : 0 < plan.potential problem := by
  obtain ⟨leaf, rest, hl⟩ := List.exists_cons_of_ne_nil hl
  have hpos := siteWeight_pos hg (problem.platform.maxRecirculations - leaf.recirculations)
    (s := leaf.site) (h.leaf_present hg (hl ▸ List.mem_cons_self))
  simp only [potential, hl, List.map_cons, List.sum_cons]
  omega

theorem Handles.potential_lt {problem : Problem} {plan after : Plan} {leaf : Leaf}
    {rest children : List Leaf} {how : Option PlanNodeId}
    (h : Handles problem plan after leaf rest children how) (hg : problem.graph.IsTree)
    (tracked : Tracked problem plan) : after.potential problem < plan.potential problem := by
  have hchildren : children.map (fun l => siteWeight problem.graph
        (problem.platform.maxRecirculations - l.recirculations) l.site) =
      (after.nextSites problem.graph leaf.site how).reverse.map (siteWeight problem.graph
        (problem.platform.maxRecirculations - leaf.recirculations)) := by
    rw [← h.sites, List.map_map]
    apply List.map_congr_left
    intro l hl
    rw [h.passes l hl]
    rfl
  have hweight := (h.tracked tracked).weight_nextSites hg h.processed?_self
    (problem.platform.maxRecirculations - leaf.recirculations)
  simp only [potential, h.active, h.leaves_eq, List.map_append, List.sum_append, hchildren,
    List.map_cons, List.sum_cons, List.map_reverse, List.sum_reverse]
  omega

theorem potential_revisited_lt {problem : Problem} {plan : Plan} {leaf : Leaf} {rest : List Leaf}
    (active : plan.leaves = leaf :: rest) (onSwitch : leaf.target = .switch)
    (allowed : leaf.recirculations < problem.platform.maxRecirculations)
    (hpos : 0 < problem.graph.weight leaf.next) (id : PlanId) :
    (plan.revisited id leaf rest).potential problem < plan.potential problem := by
  have hless : problem.platform.maxRecirculations - leaf.recirculations =
      (problem.platform.maxRecirculations - (leaf.recirculations + 1)) + 1 := by omega
  simp only [potential, revisited, active, List.map_cons, List.sum_cons, siteWeight, Leaf.site,
    onSwitch, if_true]
  rw [hless, ← Nat.add_assoc, Nat.add_one_mul]
  omega

end Plan

theorem Plan.Step.potential_lt {problem : Problem} {plan after : Plan} (h : plan.Step problem after)
    (hg : problem.graph.IsTree) (lawful : Lawful problem plan) :
    after.potential problem < plan.potential problem := by
  rcases handles_of_step hg h with
    ⟨leaf, rest, children, how, h⟩ | ⟨leaf, rest, id, active, onSwitch, allowed, rfl⟩
  · exact h.potential_lt hg lawful.tracked
  · have hpos := hg.weight_pos (lawful.leaf_present hg (active ▸ List.mem_cons_self))
    exact potential_revisited_lt active onSwitch allowed hpos id

theorem Plan.potential_empty_le {problem : Problem} (hg : problem.graph.IsTree) (id : PlanId) :
    (Plan.empty problem id).potential problem ≤ problem.depthBound := by
  have hfactor : (if problem.platform.initial = .switch then
      2 + problem.platform.maxRecirculations else 1) ≤ 2 + problem.platform.maxRecirculations := by
    split <;> omega
  simp only [potential, Plan.empty, List.map_cons, List.map_nil, List.sum_singleton, siteWeight,
    Leaf.site, Leaf.root, Nat.sub_zero, hg.weight_root, Problem.depthBound]
  exact Nat.mul_le_mul_right _ hfactor

end PacketPlan
