import PacketPlan.Target
import PacketPlan.Graph.Node
import PacketPlan.Pipeline.Refusal

/-! # Defects of plans

Why a plan is not a complete and lawful implementation of its graph.
-/
namespace PacketPlan

inductive Defect where
  | unfinished (leaves : Nat)
  | uncovered (node : NodeId) (target : Target)
  | extraneous (node : NodeId) (target : Target)
  | placement (refusal : Refusal)
  | recirculationBudget (recirculations limit : Nat)
deriving DecidableEq, Inhabited

def Defect.text : Defect → String
  | unfinished leaves => "Plan still has " ++ toString leaves ++ " unexpanded leaves"
  | uncovered node target =>
    "Node " ++ nodeText node ++ " is reachable on " ++ target.name ++ " but not mapped"
  | extraneous node target =>
    "Node " ++ nodeText node ++ " is mapped on " ++ target.name ++ " but not reachable there"
  | placement refusal => "Pipeline placement no longer holds: " ++ refusal.text
  | recirculationBudget recirculations limit =>
    "A path recirculates " ++ toString recirculations ++ " times (max " ++ toString limit ++ ")"

end PacketPlan
