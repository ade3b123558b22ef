import PacketPlan.Fault

/-! # Leaves

A leaf is where a plan goes on: a graph node that is to be mapped next on a target, below some
node of the plan. It carries the switch objects that its path has met in the current pass; what
is placed from there on belongs in a later stage.
-/
namespace PacketPlan

structure Leaf where
  attach : Option PlanNodeId := none
  next : NodeId
  target : Target
  passDeps : ObjectSet := ∅
  recirculations : Nat := 0
  branchDepth : Nat := 0
deriving DecidableEq, Inhabited

namespace Leaf

def recirculationLimit : Nat := 256

def root (next : NodeId) (target : Target) : Leaf := { next, target }

/-- Goes on with another node on the same target, once some objects are placed. -/
def advance (l : Leaf) (next : NodeId) (placed : List SwitchObject) : Leaf :=
  { l with next, passDeps := l.passDeps.insertAll placed }

def branch (l : Leaf) (next : NodeId) (placed : List SwitchObject) : Leaf :=
  { l.advance next placed with branchDepth := l.branchDepth + 1 }

/-- Goes on with another target, where the order of the pipeline is of no concern. -/
def transfer (l : Leaf) (target : Target) (next : NodeId) : Leaf :=
  { l with next, target, passDeps := ∅ }

/-- Meets the same node in a new pass through the pipeline. -/
def recirculated (l : Leaf) : Checked Leaf :=
  if l.recirculations + 1 < recirculationLimit then
    .ok { l with passDeps := ∅, recirculations := l.recirculations + 1 }
  else .error .addOverflow

end Leaf

end PacketPlan
