import PacketPlan.Proposal.Pattern

/-! # Techniques

A technique is a kind of module on a target. Each target has a catalogue of them; one that the
catalogue lacks proposes nothing. Another pass through the pipeline depends on the plan and not
only on the node, so as a technique it has no pattern.
-/
namespace PacketPlan

structure Technique where
  target : Target
  kind : Kind
deriving DecidableEq, Inhabited

namespace Technique

def kinds : Target → List Kind
  | .switch =>
    [.ignore, .parseHeader, .branch, .route, .allocate, .tableLookup, .tableLearn, .registerRead,
      .registerWrite, .sketchUpdate, .sketchQuery, .sendToController, .recirculate]
  | .controller | .host =>
    [.ignore, .parseHeader, .branch, .route, .allocate, .mapGet, .mapPut, .mapErase, .vectorRead,
      .vectorWrite, .dchainAllocateIndex, .dchainRejuvenate, .dchainFree, .sketchUpdate,
      .sketchQuery, .expireItems]

def catalog (t : Target) : List Technique := (kinds t).map fun k => ⟨t, k⟩

def text (t : Technique) : String := t.target.name ++ ":" ++ t.kind.name

/-- How a kind is found in the graph, if the target has it. -/
def pattern? (t : Technique) : Option Pattern :=
  let onSwitch (p : Pattern) := if t.target.isSoftware then none else some p
  let inSoftware (p : Pattern) := if t.target.isSoftware then some p else none
  match t.kind with
  | .ignore => some .ignore
  | .parseHeader => some .parseHeader
  | .branch => some .branch
  | .route => some .route
  | .allocate => some .allocate
  | .tableLookup => onSwitch .tableLookup
  | .tableLearn => onSwitch .tableLearn
  | .registerRead => onSwitch .registerRead
  | .registerWrite => onSwitch .registerWrite
  | .sketchUpdate =>
    some (if t.target.isSoftware then .softwareSketchUpdate else .switchSketchUpdate)
  | .sketchQuery => some (if t.target.isSoftware then .softwareSketchQuery else .switchSketchQuery)
  | .sendToController => onSwitch .sendToController
  | .recirculate => none
  | .mapGet => inSoftware .mapGet
  | .mapPut => inSoftware .mapPut
  | .mapErase => inSoftware .mapErase
  | .vectorRead => inSoftware .vectorRead
  | .vectorWrite => inSoftware .vectorWrite
  | .dchainAllocateIndex => inSoftware .dchainAllocateIndex
  | .dchainRejuvenate => inSoftware .dchainRejuvenate
  | .dchainFree => inSoftware .dchainFree
  | .expireItems => inSoftware .expireItems

/-- Exactly the kinds of the catalogue have a pattern, but for another pass. -/
theorem pattern?_isSome (t : Technique) :
    t.pattern?.isSome = decide (t.kind ∈ kinds t.target ∧ t.kind ≠ .recirculate) := by
  rcases t with ⟨target, kind⟩
  cases target <;> cases kind <;> rfl

/-- The ways in which a node can be implemented, as the bindings stand. -/
def proposals (t : Technique) (g : Graph) (b : Bindings) (node : NodeId) :
    Checked (List Proposal) :=
  match t.pattern? with
  | none => .ok []
  | some pattern => do pattern ⟨g, b, t.target, node⟩ (← g.node node).kind

/-- The module that was made for a node, read off bindings that hold what it committed. -/
def reconstruct (t : Technique) (g : Graph) (b : Bindings) (node : NodeId) :
    Checked (Option Module) := do
  let proposals ← t.proposals g b node
  let held := proposals.filter fun p => p.commits.all fun c => b.holds c.1 c.2
  .ok (held.findSome? (·.module?))

end Technique

def Plan.isReconstructible (g : Graph) (plan : Plan) : Checked Bool :=
  plan.nodes.allM fun n => do
    let m ← (Technique.mk n.module.target n.module.kind).reconstruct g plan.bindings n.module.node
    .ok (m = some n.module)

namespace Problem

def catalog (problem : Problem) (t : Target) : List Technique :=
  if problem.platform.enabled.contains t then Technique.catalog t else []

def techniques (problem : Problem) : List Technique :=
  problem.platform.enabled.toList.flatMap problem.catalog

end Problem

end PacketPlan
