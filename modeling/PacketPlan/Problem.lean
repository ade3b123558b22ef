import PacketPlan.Graph.Tree
import PacketPlan.Pipeline.Stages

/-! # Planning problems

A graph to be implemented, the targets there are for it and the settings of the search. Nothing
here changes while plans are made.
-/
namespace PacketPlan

structure Platform where
  enabled : TargetSet
  initial : Target
  baseline : Pipeline
  capacities : OrdMap Target Nat
  maxRecirculations : Nat
deriving DecidableEq, Inhabited

namespace Platform

def ofConfig (c : Config) : Except ConfigError Platform :=
  let enabled := TargetSet.ofList c.targets.enabled
  if enabled.contains c.targets.initial then
    .ok
      { enabled
        initial := c.targets.initial
        baseline := .ofConfig c.switch
        capacities := .ofList (enabled.toList.map fun t => (t, c.capacity t))
        maxRecirculations := c.switch.maxRecirculations.toNat }
  else .error (.initialNotEnabled c.targets.initial)

/-- Millions of packets per second; a target that is not enabled has no capacity. -/
def capacity (p : Platform) (t : Target) : Nat := (p.capacities.get? t).getD 0

end Platform

structure Problem where
  graph : Graph
  platform : Platform
  search : SearchConfig
deriving DecidableEq, Inhabited

def Problem.ofConfig (g : Graph) (c : Config) : Except ConfigError Problem := do
  c.validate
  let platform ← Platform.ofConfig c
  .ok { graph := g, platform, search := c.search }

end PacketPlan
