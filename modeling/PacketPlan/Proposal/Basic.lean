import PacketPlan.Plan.Tree

/-! # Proposals

One way to implement a graph node, before it is applied to any plan: the module, the bindings and
the switch objects it needs, and how the path goes on.
-/
namespace PacketPlan

inductive Continuation where
  | stop
  | next (node : NodeId)
  | branch (onTrue onFalse : NodeId)
  | transfer (target : Target) (node : NodeId)
  | revisit
deriving DecidableEq, Inhabited

def Continuation.leaves (leaf : Leaf) (placed : List SwitchObject) : Continuation → List Leaf
  | stop => []
  | next node => [leaf.advance node placed]
  | branch onTrue onFalse => [leaf.branch onTrue placed, leaf.branch onFalse placed]
  | transfer target node => [leaf.transfer target node]
  | revisit => []

/-- A proposal without a module adds nothing to the plan tree. Objects that are fused belong to one
action that reads and writes them; to have met them earlier in the pass forces no later stage. -/
structure Proposal where
  module? : Option Module
  commits : Delta := []
  placements : List (SwitchObject × Demand) := []
  fused : List SwitchObject := []
  next : Continuation
  params : OrdMap String Int := ∅
deriving DecidableEq, Inhabited

namespace Proposal

/-- What the next object depends on: the objects met in this pass, unless they are fused, and
those that the proposal has placed already. -/
def dependencies (p : Proposal) (passDeps : ObjectSet) (placed : List SwitchObject) : ObjectSet :=
  (passDeps.filter fun o => decide (o ∉ p.fused)).insertAll placed

def objects (p : Proposal) : List SwitchObject := p.placements.map Prod.fst

def probeFrom (p : Proposal) (r : Pipeline) (passDeps : ObjectSet) (seen : List SwitchObject) :
    List (SwitchObject × Demand) → Except Refusal (List Nat)
  | [] => .ok []
  | (o, d) :: rest => do
    let stage ← r.probe o d ((p.dependencies passDeps seen).filter r.isPlaced)
    let stages ← p.probeFrom r passDeps (seen ++ [o]) rest
    .ok (stage :: stages)

/-- The stages that the objects would be given. Nothing is taken, and an object that is not placed
yet is no dependency, so the answer is optimistic if there are several objects. -/
def probe (p : Proposal) (r : Pipeline) (passDeps : ObjectSet) : Except Refusal (List Nat) :=
  p.probeFrom r passDeps [] p.placements

def placeFrom (p : Proposal) (passDeps : ObjectSet) (placed : List SwitchObject) (r : Pipeline) :
    List (SwitchObject × Demand) → Except Refusal (List Nat × Pipeline)
  | [] => .ok ([], r)
  | (o, d) :: rest => do
    let (stage, r) ← r.place o d (p.dependencies passDeps placed)
    let (stages, r) ← p.placeFrom passDeps (placed ++ [o]) r rest
    .ok (stage :: stages, r)

def place (p : Proposal) (passDeps : ObjectSet) (r : Pipeline) :
    Except Refusal (List Nat × Pipeline) :=
  p.placeFrom passDeps [] r p.placements

/-- The parameters, with the stage of the first object if there is one. -/
def paramsAt (p : Proposal) (stages : List Nat) : OrdMap String Int :=
  match stages with
  | [] => p.params
  | stage :: _ => p.params.insert "stage" stage

end Proposal

end PacketPlan
