import PacketPlan.Representation
import PacketPlan.Plan.Defect

/-! # Faults

Conditions that no caller is meant to bring about and that end the work at once: a number out of
range, a node that is missing, a plan put together wrongly.
-/
namespace PacketPlan

abbrev PlanId := Nat
abbrev PlanNodeId := Nat

inductive Fault where
  | addOverflow
  | multiplyOverflow
  | negateOverflow
  | missingNode (id : NodeId)
  | noSuccessor (id : NodeId) (function : String)
  | notCall (id : NodeId) (kind : NodeKind)
  | rebound (addr : Addr) (bound other : Representation)
  | overdrawn (budget need : Budget)
  | noLeaf (plan : PlanId)
  | misplacedModule (node : NodeId) (target : Target) (leafNode : NodeId) (leafTarget : Target)
  | secondRoot (plan : PlanId)
  | mappedTwice (node : NodeId) (target : Target) (previous : Option PlanNodeId)
  | invalidFinish (plan : PlanId) (defect : Defect)
  | noActiveLeaf (plan : PlanId)
  | scoreLength (values metrics : Nat)
  | endless
deriving DecidableEq, Inhabited

namespace Fault

def budgetText (b : Budget) : String :=
  braced "StageBudget" [("sram_bits", toString b.sram), ("tcam_bits", toString b.tcam),
    ("xbar_bits", toString b.xbar), ("logical_ids", toString b.ids)]

def previousText : Option PlanNodeId → String
  | none => "None"
  | some id => enclosed "Some" (enclosed "PlanNodeId" (toString id))

def message : Fault → String
  | addOverflow => "attempt to add with overflow"
  | multiplyOverflow => "attempt to multiply with overflow"
  | negateOverflow => "attempt to negate with overflow"
  | missingNode id => "Node " ++ nodeText id ++ " is not part of the behavior graph"
  | noSuccessor id function =>
    "Behavior graph invariant violated: call " ++ nodeText id ++ " (" ++ function
      ++ ") has no successor"
  | notCall id kind => "Node " ++ nodeText id ++ " is not a call: " ++ kind.describe
  | rebound addr bound other =>
    "Object " ++ addr.text ++ " already implemented as " ++ bound.name ++ ", cannot commit "
      ++ other.name
  | overdrawn budget need =>
    "Stage budget overdrawn: " ++ budgetText budget ++ " < " ++ budgetText need
  | noLeaf plan => "Plan " ++ toString plan ++ " has no leaf to expand"
  | misplacedModule node target leafNode leafTarget =>
    "Module for " ++ nodeText node ++ " on " ++ target.name ++ " attached at leaf "
      ++ nodeText leafNode ++ " on " ++ leafTarget.name
  | secondRoot plan => "Plan " ++ toString plan ++ " already has a root"
  | mappedTwice node target previous =>
    "Node " ++ nodeText node ++ " on " ++ target.name ++ " mapped twice (previously "
      ++ previousText previous ++ ")"
  | invalidFinish plan defect =>
    "Finished plan " ++ toString plan ++ " is invalid: " ++ defect.text
  | noActiveLeaf plan => "Unfinished plan " ++ toString plan ++ " has no active leaf"
  | scoreLength values metrics =>
    "Heuristic produced " ++ toString values ++ " values for " ++ toString metrics ++ " metrics"
  | endless => "the work has no end"

end Fault

/-- Work that may end in a fault. -/
abbrev Checked := Except Fault

namespace Checked

def add (a b : Nat) : Checked Nat := (Word.add? a b).elim (.error .addOverflow) .ok

def mul (a b : Nat) : Checked Nat := (Word.mul? a b).elim (.error .multiplyOverflow) .ok

end Checked

def Expr.width (e : Expr) : Checked Nat := e.width?.elim (.error .addOverflow) .ok

def Budget.debit (b need : Budget) : Checked Budget :=
  if b.covers need then .ok (b - need) else .error (.overdrawn b need)

end PacketPlan
