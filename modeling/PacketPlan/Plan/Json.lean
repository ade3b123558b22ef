import PacketPlan.Module.Json
import PacketPlan.Plan.Tree

/-! # Plans as JSON

A plan in full, or a summary that names its modules and leaves only.
-/
namespace PacketPlan

open Text (Json)

def Budget.toJson (b : Budget) : Json :=
  .object [("sram_bits", .nat b.sram), ("tcam_bits", .nat b.tcam), ("xbar_bits", .nat b.xbar),
    ("logical_ids", .nat b.ids)]

def SwitchObject.toJson (o : SwitchObject) : Json := .text o.text

def Stage.toJson (s : Stage) : Json :=
  .object [("index", .nat s.index), ("remaining", s.remaining.toJson),
    ("objects", .list SwitchObject.toJson s.objects.elems)]

/-- Stages of which nothing is taken are left out. -/
def Pipeline.toJson (p : Pipeline) : Json :=
  let taken := p.stages.filter fun s => !s.objects.isEmpty || s.remaining ≠ p.capacity
  .object [("stages", .list Stage.toJson taken), ("digests", .nat p.digests),
    ("used", .nat p.stagesUsed), ("placed", .nat p.placedCount)]

def Bindings.toJson (b : Bindings) : Json :=
  .list (fun e => .array [.text e.1.text, .text e.2.name]) b.entries

def nodeJson (id : NodeId) : Json := .text (nodeText id)

def planNodeJson (id : PlanNodeId) : Json := .text (planNodeText id)

def Target.toJson (t : Target) : Json := .text t.name

def Leaf.toJson (l : Leaf) : Json :=
  .object [("attach", .optional planNodeJson l.attach), ("next", nodeJson l.next),
    ("target", l.target.toJson), ("pass_deps", .list SwitchObject.toJson l.passDeps.elems),
    ("recirculations", .nat l.recirculations), ("branch_depth", .nat l.branchDepth)]

def PlanNode.toJson (n : PlanNode) : Json :=
  .object [("id", planNodeJson n.id), ("parent", .optional planNodeJson n.parent),
    ("children", .list planNodeJson n.children), ("depth", .nat n.depth),
    ("kind", .text n.module.kind.name), ("module", n.module.toJson)]

def CompletedPath.toJson (p : CompletedPath) : Json :=
  .array [.nat p.branchDepth, p.target.toJson, .nat p.recirculations]

def Ledger.toJson (l : Ledger) : Json :=
  let processed (e : Site × Option PlanNodeId) : Json :=
    .array [nodeJson e.1.node, e.1.target.toJson, .optional planNodeJson e.2]
  let minted (e : PlanNodeId × Symbol) : Json := .array [planNodeJson e.1, .text e.2.text]
  .object [("depth", .nat l.depth), ("processed", .list processed l.processed.entries),
    ("processed_nodes", .nat l.processedNodes),
    ("modules", .list (fun t => .nat (l.modulesOn t)) Target.all),
    ("total_modules", .nat l.totalModules), ("recirculations", .nat l.recirculations),
    ("completed", .list CompletedPath.toJson l.completed),
    ("minted", .list minted l.minted.entries)]

namespace Plan

def toJson (p : Plan) : Json :=
  .object [("id", .nat p.id), ("root", .optional planNodeJson p.root),
    ("nodes", .list PlanNode.toJson p.nodes), ("leaves", .list Leaf.toJson p.leaves),
    ("context", p.bindings.toJson), ("resources", p.resources.toJson),
    ("finished", .bool p.isFinished), ("meta", p.ledger.toJson)]

def siteText (node : NodeId) (t : Target) : String := nodeText node ++ ":" ++ t.name

def summary (p : Plan) : Json :=
  let moduleText (n : PlanNode) : String :=
    siteText n.module.node n.module.target ++ ":" ++ n.module.kind.name
  .object [("id", .nat p.id), ("modules", .list (fun n => .text (moduleText n)) p.nodes),
    ("leaves", .list (fun l => .text (siteText l.next l.target)) p.leaves),
    ("context", p.bindings.toJson), ("stages", .nat p.resources.stagesUsed)]

end Plan

end PacketPlan
