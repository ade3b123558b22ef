import PacketPlan.Problem
import PacketPlan.Bindings
import PacketPlan.Module
import PacketPlan.Plan.Leaf
import PacketPlan.Plan.Ledger

/-! # Plans

A plan is a tree of modules together with the leaves at which it goes on. The first leaf is the
active one; what replaces it is put in front of the others, so that a plan grows depth first.
-/
namespace PacketPlan

def planNodeText (id : PlanNodeId) : String := "p" ++ toString id

/-- A module in its place in a plan. The topmost module has depth 1. -/
structure PlanNode where
  id : PlanNodeId
  module : Module
  parent : Option PlanNodeId
  children : List PlanNodeId
  depth : Nat
deriving DecidableEq, Inhabited

structure Plan where
  id : PlanId
  nodes : List PlanNode := []
  root : Option PlanNodeId := none
  leaves : List Leaf
  bindings : Bindings := {}
  resources : Pipeline
  ledger : Ledger := {}
deriving DecidableEq, Inhabited

namespace Plan

def empty (problem : Problem) (id : PlanId) : Plan :=
  { id
    leaves := [.root problem.graph.root problem.platform.initial]
    resources := problem.platform.baseline }

/-- The same plan under another name. -/
def fork (plan : Plan) (id : PlanId) : Plan := { plan with id }

def node? (plan : Plan) (id : PlanNodeId) : Option PlanNode := plan.nodes[id]?

def activeLeaf? (plan : Plan) : Option Leaf := plan.leaves.head?

def isFinished (plan : Plan) : Bool := plan.leaves.isEmpty

def activeLeaf (plan : Plan) : Checked Leaf := plan.activeLeaf?.elim (.error (.noLeaf plan.id)) .ok

def depthBelow (plan : Plan) (parent : Option PlanNodeId) : Nat :=
  ((parent.bind plan.node?).elim 0 (·.depth)) + 1

/-- The nodes once their parent knows of a new one. -/
def linked (plan : Plan) (id : PlanNodeId) : Option PlanNodeId → List PlanNode
  | none => plan.nodes
  | some parent => plan.nodes.modify parent fun n => { n with children := n.children ++ [id] }

def grown (plan : Plan) (leaf : Leaf) (rest : List Leaf) (m : Module) (children : List Leaf)
    (ledger : Ledger) : Plan :=
  let id := plan.nodes.length
  let depth := plan.depthBelow leaf.attach
  let counted := ledger.recordModule leaf.target depth
  { plan with
    nodes := plan.linked id leaf.attach ++ [⟨id, m, leaf.attach, [], depth⟩]
    root := if leaf.attach.isNone then some id else plan.root
    leaves := children.map (fun l => { l with attach := some id }) ++ rest
    ledger :=
      if children.isEmpty then
        counted.recordCompleted ⟨leaf.branchDepth, leaf.target, leaf.recirculations⟩
      else counted }

/-- Puts a module in place of the active leaf and goes on with the children, which hang below the
module. A module without children completes the path. -/
def attach (plan : Plan) (m : Module) (children : List Leaf) : Checked (PlanNodeId × Plan) :=
  match plan.leaves with
  | [] => .error (.noLeaf plan.id)
  | leaf :: rest =>
    if m.node ≠ leaf.next ∨ m.target ≠ leaf.target then
      .error (.misplacedModule m.node m.target leaf.next leaf.target)
    else if leaf.attach.isNone ∧ plan.root.isSome then .error (.secondRoot plan.id)
    else do
      let id := plan.nodes.length
      let ledger ← plan.ledger.markProcessed ⟨leaf.next, leaf.target⟩ (some id)
      .ok (id, plan.grown leaf rest m children ledger)

def skip (plan : Plan) (children : List Leaf) : Checked Plan :=
  match plan.leaves with
  | [] => .error (.noLeaf plan.id)
  | leaf :: rest => do
    let ledger ← plan.ledger.markProcessed ⟨leaf.next, leaf.target⟩ none
    .ok { plan with leaves := children ++ rest, ledger }

/-- Sends the packet through the pipeline once more, back to the node of the active leaf. -/
def recirculate (plan : Plan) : Checked Plan :=
  match plan.leaves with
  | [] => .error (.noLeaf plan.id)
  | leaf :: rest => do
    let again ← leaf.recirculated
    .ok { plan with leaves := again :: rest, ledger := plan.ledger.recordRecirculation }

def recordSymbol (plan : Plan) (id : PlanNodeId) (s : Symbol) : Plan :=
  { plan with ledger := plan.ledger.recordSymbol id s }

def bind (plan : Plan) (a : Addr) (r : Representation) : Checked Plan := do
  .ok { plan with bindings := ← plan.bindings.bind a r }

def sumRates (problem : Problem) (acc : Nat) : List CompletedPath → Checked Nat
  | [] => .ok acc
  | path :: rest => do
    let rate ← path.rate (problem.platform.capacity path.target)
    sumRates problem (← Checked.add acc rate) rest

/-- What the complete paths carry, in thousandths of millions of packets per second. -/
def throughput (problem : Problem) (plan : Plan) : Checked Nat :=
  sumRates problem 0 plan.ledger.completed

end Plan

end PacketPlan
