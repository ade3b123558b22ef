import PacketPlan.Fault

/-! # The ledger of a plan

What a plan has done so far: which nodes it has handled on which target, how many modules each
target runs, which paths are complete and which symbols were minted. A path carries its share of
the traffic, each branch above it halving the share.
-/
namespace PacketPlan

/-- A graph node on a target. Sites are listed by node, then by target. -/
structure Site where
  node : NodeId
  target : Target
deriving DecidableEq, Inhabited

instance : Ranked Site where
  rank s := [(s.node : Int), (s.target.index : Int)]

/-- Thousandths of millions of packets per second along a path that meets the pipeline once more
for every recirculation. -/
def pathRate (capacity recirculations : Nat) : Checked Nat := do
  let rate ← Checked.mul capacity 1000
  .ok (rate / (1 + recirculations))

/-- The share of a rate that is left below so many branches; there are at most 63 halvings. -/
def shareBelow (rate branchDepth : Nat) : Nat := rate >>> min branchDepth 63

structure CompletedPath where
  branchDepth : Nat
  target : Target
  recirculations : Nat
deriving DecidableEq, Inhabited

def CompletedPath.rate (p : CompletedPath) (capacity : Nat) : Checked Nat := do
  let rate ← pathRate capacity p.recirculations
  .ok (shareBelow rate p.branchDepth)

structure Ledger where
  depth : Nat := 0
  processed : OrdMap Site (Option PlanNodeId) := ∅
  modules : OrdMap Target Nat := ∅
  recirculations : Nat := 0
  completed : List CompletedPath := []
  minted : OrdMap PlanNodeId Symbol := ∅
deriving DecidableEq, Inhabited

namespace Ledger

/-- How a site was handled: not yet, as a no-op, or by a node of the plan. -/
def processed? (l : Ledger) (s : Site) : Option (Option PlanNodeId) := l.processed.get? s

/-- Notes that a site is handled, which must be for the first time. -/
def markProcessed (l : Ledger) (s : Site) (how : Option PlanNodeId) : Checked Ledger :=
  match l.processed? s with
  | some previous => .error (.mappedTwice s.node s.target previous)
  | none => .ok { l with processed := l.processed.insert s how }

def modulesOn (l : Ledger) (t : Target) : Nat := (l.modules.get? t).getD 0

def totalModules (l : Ledger) : Nat := l.modules.values.foldr (· + ·) 0

def recordModule (l : Ledger) (t : Target) (depth : Nat) : Ledger :=
  { l with modules := l.modules.insert t (l.modulesOn t + 1), depth := max l.depth depth }

def recordRecirculation (l : Ledger) : Ledger :=
  { l with recirculations := l.recirculations + 1 }

def recordCompleted (l : Ledger) (p : CompletedPath) : Ledger :=
  { l with completed := l.completed ++ [p] }

def recordSymbol (l : Ledger) (id : PlanNodeId) (s : Symbol) : Ledger :=
  { l with minted := l.minted.insert id s }

def processedNodes (l : Ledger) : Nat := (OrdSet.ofList (l.processed.keys.map (·.node))).size

end Ledger

end PacketPlan
