import PacketPlan.Technique.Expand
import PacketPlan.Search.Score

/-! # Heuristics

A heuristic measures plans in its metrics. It may remember something about the finished plans it
was shown, and says when this can change the scores of other plans.
-/
namespace PacketPlan

/-- A way to rank plans that remembers a value of type `μ`. -/
structure Heuristic (μ : Type) where
  name : String
  metrics : List Metric
  start : μ
  evaluate : μ → Problem → Plan → Checked (List Int)
  /-- What is remembered once a finished plan was seen, and whether scores may have changed. -/
  observe : μ → Problem → Plan → Checked (μ × Bool)

def Heuristic.score {μ : Type} (h : Heuristic μ) (memory : μ) (problem : Problem) (plan : Plan) :
    Checked Score := do
  Score.ofValues h.metrics (← h.evaluate memory problem plan)

namespace Plan

/-! ## Looking ahead -/

def firstSpeculation (problem : Problem) (plan : Plan) (node : NodeId) (b : Bindings) :
    List Technique → Checked (Option Speculation)
  | [] => .ok none
  | t :: rest => do
    match ← t.speculate problem plan node b with
    | some speculation => .ok (some speculation)
    | none => plan.firstSpeculation problem node b rest

/-- Follows the first child of each node for so many steps. A node that the switch cannot implement
is tried on the controller; the result is the target at the end, if all nodes can be
implemented. -/
def lookaheadFrom (problem : Problem) (plan : Plan) :
    Nat → Bindings → NodeId → Target → Checked (Option Target)
  | 0, _, _, target => .ok (some target)
  | steps + 1, b, node, target => do
    let techniques := (problem.catalog target).filter fun t => t.kind ≠ .sendToController
    match ← plan.firstSpeculation problem node b techniques with
    | some speculation =>
      let b ← b.extend speculation.delta
      match (← problem.graph.node node).children with
      | [] => .ok (some target)
      | child :: _ => plan.lookaheadFrom problem steps b child target
    | none =>
      if target = .switch ∧ problem.platform.enabled.contains .controller then
        plan.lookaheadFrom problem steps b node .controller
      else .ok none

def lookahead (problem : Problem) (plan : Plan) (leaf : Leaf) : Checked Nat := do
  match ← plan.lookaheadFrom problem problem.search.lookaheadNodes plan.bindings leaf.next
      leaf.target with
  | none => .ok 0
  | some target =>
    CompletedPath.rate ⟨leaf.branchDepth, target, leaf.recirculations⟩
      (problem.platform.capacity target)

def sumLookaheads (problem : Problem) (plan : Plan) (acc : Nat) : List Leaf → Checked Nat
  | [] => .ok acc
  | leaf :: rest => do
    let rate ← plan.lookahead problem leaf
    plan.sumLookaheads problem (← Checked.add acc rate) rest

/-- What the complete paths carry and what the others may carry, in thousandths of millions of
packets per second. -/
def speculativeThroughput (problem : Problem) (plan : Plan) : Checked Nat := do
  let complete ← plan.throughput problem
  let expected ← plan.sumLookaheads problem 0 plan.leaves
  Checked.add complete expected

/-! ## Metrics -/

def progress (plan : Plan) : Int := plan.ledger.processedNodes

def stagesUsed (plan : Plan) : Int := plan.resources.stagesUsed

def recirculations (plan : Plan) : Int := plan.ledger.recirculations

def controllerModules (plan : Plan) : Int := plan.ledger.modulesOn .controller

end Plan

namespace Heuristic

/-- The best throughput of a finished plan so far. -/
abbrev Best := Option Nat

def beats (best : Best) (throughput : Nat) : Bool := best.all fun b => b < throughput

/-- Prefers plans that have come far, with few passes and little work for the controller. -/
def maxProgress : Heuristic Best where
  name := "max-progress"
  metrics := [⟨"progress", .max⟩, ⟨"recirculations", .min⟩, ⟨"controller-modules", .min⟩]
  start := none
  evaluate _ _ plan := .ok [plan.progress, plan.recirculations, plan.controllerModules]
  observe best _ _ := .ok (best, false)

/-- Prefers plans that use few stages, then few passes. -/
def minStages : Heuristic Best where
  name := "min-stages"
  metrics := [⟨"stages", .min⟩, ⟨"recirculations", .min⟩, ⟨"progress", .max⟩]
  start := none
  evaluate _ _ plan := .ok [plan.stagesUsed, plan.recirculations, plan.progress]
  observe best _ _ := .ok (best, false)

/-- Prefers plans that may still beat the best one found, then high throughput. -/
def maxThroughput : Heuristic Best where
  name := "max-throughput"
  metrics := [⟨"beats-best", .max⟩, ⟨"throughput", .max⟩, ⟨"progress", .max⟩]
  start := none
  evaluate best problem plan := do
    let throughput ← plan.speculativeThroughput problem
    .ok [if beats best throughput then 1 else 0, Word.toSigned throughput, plan.progress]
  observe best problem plan := do
    let throughput ← plan.throughput problem
    .ok (if beats best throughput then (some throughput, true) else (best, false))

def all : List (Heuristic Best) := [maxProgress, minStages, maxThroughput]

def ofName? (s : String) : Option (Heuristic Best) := all.find? fun h => h.name = s

def unknownName (s : String) : String :=
  "Unknown heuristic '" ++ s ++ "'. Expected one of max-progress, min-stages, max-throughput."

end Heuristic

end PacketPlan
