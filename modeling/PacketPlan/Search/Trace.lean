import PacketPlan.Module
import PacketPlan.Text.Json

/-! # Traces

A record of what a search did, step by step, which can be written as JSON.
-/
namespace PacketPlan

structure TraceCandidate where
  decision : Decision
  plan : PlanId
  finished : Bool
deriving DecidableEq, Inhabited

/-- The plan that a step has extended, its score, and what became of it. -/
structure TraceStep where
  step : Nat
  plan : PlanId
  node : NodeId
  target : Target
  score : List Int
  candidates : List TraceCandidate
  pruned : List String
deriving DecidableEq, Inhabited

structure Trace where
  heuristic : String
  metrics : List String
  steps : List TraceStep := []
deriving DecidableEq, Inhabited

open Text (Json)

def Decision.toJson (d : Decision) : Json :=
  .object
    [("plan", .nat d.plan), ("node", .nat d.node), ("target", .text d.target.name),
      ("kind", .text d.kind.name),
      ("params", .object (d.params.entries.map fun p => (p.1, .int p.2)))]

def TraceCandidate.toJson (c : TraceCandidate) : Json :=
  .object
    [("decision", c.decision.toJson), ("plan", .nat c.plan), ("finished", .bool c.finished)]

def TraceStep.toJson (s : TraceStep) : Json :=
  .object
    [("step", .nat s.step), ("plan", .nat s.plan), ("node", .nat s.node),
      ("target", .text s.target.name), ("score", .list .int s.score),
      ("candidates", .list TraceCandidate.toJson s.candidates),
      ("pruned", .list .text s.pruned)]

def Trace.toJson (t : Trace) : Json :=
  .object
    [("heuristic", .text t.heuristic), ("metrics", .list .text t.metrics),
      ("steps", .list TraceStep.toJson t.steps)]

end PacketPlan
