import PacketPlan.Plan.Tree

/-! # Checking a finished plan

A plan without leaves has to handle exactly the sites that packets can reach: the root on the
initial target, and from every site either the same node on the target that takes over or the
nodes that follow it on the same target. Its placements must hold, and no path may recirculate
more often than allowed.
-/
namespace PacketPlan.Plan

def takesOver? (plan : Plan) (how : Option PlanNodeId) : Option Target :=
  (how.bind plan.node?).bind fun n => n.module.handsOver?

/-- The sites that come next, the last one to be looked at first. -/
def nextSites (graph : Graph) (plan : Plan) (site : Site) (how : Option PlanNodeId) : List Site :=
  match plan.takesOver? how with
  | some target => [⟨site.node, target⟩]
  | none => (((graph.node? site.node).elim [] Node.children).map fun c => ⟨c, site.target⟩).reverse

def walk (graph : Graph) (plan : Plan) :
    Nat → List Site → OrdSet Site → Option (Except Defect (OrdSet Site))
  | _, [], reached => some (.ok reached)
  | 0, _ :: _, _ => none
  | visits + 1, site :: pending, reached =>
    match plan.ledger.processed? site with
    | none => some (.error (.uncovered site.node site.target))
    | some how =>
      plan.walk graph visits (plan.nextSites graph site how ++ pending) (reached.insert site)

/-- A node is met at most on the initial target and once more on the target that takes over. -/
def visitBound (problem : Problem) : Nat := 2 * problem.graph.size

def judge (problem : Problem) (plan : Plan) (reached : OrdSet Site) : Except Defect Unit :=
  match plan.ledger.processed.keys.find? fun s => decide (s ∉ reached) with
  | some s => .error (.extraneous s.node s.target)
  | none =>
    match plan.resources.revalidate with
    | .error refusal => .error (.placement refusal)
    | .ok _ =>
      let limit := problem.platform.maxRecirculations
      match plan.ledger.completed.find? fun p => decide (limit < p.recirculations) with
      | some p => .error (.recirculationBudget p.recirculations limit)
      | none => .ok ()

/-- The first defect of a plan, if it has one. Packets that are handed over for ever between
sites are a fault. -/
def verify (problem : Problem) (plan : Plan) : Checked (Except Defect Unit) :=
  if plan.leaves.isEmpty then
    match plan.walk problem.graph (visitBound problem)
        [⟨problem.graph.root, problem.platform.initial⟩] ∅ with
    | none => .error .endless
    | some (.error defect) => .ok (.error defect)
    | some (.ok reached) => .ok (plan.judge problem reached)
  else .ok (.error (.unfinished plan.leaves.length))

end PacketPlan.Plan
