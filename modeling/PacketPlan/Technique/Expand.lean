import PacketPlan.Technique.Basic

/-! # Applying techniques to plans

Speculation asks whether a node could be implemented and takes nothing. Expansion extends the plan
at its active leaf: one new plan for every proposal that the bindings admit and the pipeline can
place. New plans and new symbols are numbered in the order in which they are made.
-/
namespace PacketPlan

structure Speculation where
  decision : Decision
  delta : Delta
deriving DecidableEq, Inhabited

/-- Where the numbers of new plans and the names of new symbols come from. -/
structure Supply where
  nextPlan : PlanId := 0
  symbols : SymbolSource := {}
deriving DecidableEq, Inhabited

structure Candidate where
  decision : Decision
  plan : Plan
deriving DecidableEq, Inhabited

structure Expansion where
  candidates : List Candidate := []
  pruned : List Refusal := []
deriving DecidableEq, Inhabited

def Expansion.cons (e : Expansion) (made : Except Refusal Candidate) : Expansion :=
  match made with
  | .ok candidate => { e with candidates := candidate :: e.candidates }
  | .error refusal => { e with pruned := refusal :: e.pruned }

namespace Technique

/-- The new bindings are allowed, and a target that takes over is enabled. -/
def admissible (problem : Problem) (b : Bindings) (p : Proposal) : Bool :=
  b.admits p.commits &&
    match p.next with
    | .transfer target _ => problem.platform.enabled.contains target
    | _ => true

def decision (t : Technique) (plan : PlanId) (node : NodeId) (params : OrdMap String Int) :
    Decision :=
  { plan, node, target := t.target, kind := t.kind, params }

/-- The objects met on the way to the node, if the active leaf stands there. -/
def passDepsAt (t : Technique) (plan : Plan) (node : NodeId) : ObjectSet :=
  match plan.activeLeaf? with
  | some leaf => if leaf.next = node ∧ leaf.target = t.target then leaf.passDeps else ∅
  | none => ∅

def speculate (t : Technique) (problem : Problem) (plan : Plan) (node : NodeId) (b : Bindings) :
    Checked (Option Speculation) := do
  let deps := t.passDepsAt plan node
  let proposals ← t.proposals problem.graph b node
  .ok ((proposals.filter (admissible problem b)).findSome? fun p =>
    match p.probe plan.resources deps with
    | .error _ => none
    | .ok stages => some ⟨t.decision plan.id node (p.paramsAt stages), p.commits⟩)

/-- The objects of a proposal cannot be placed now, but perhaps in a new pass. -/
def isBlocked (plan : Plan) (leaf : Leaf) (p : Proposal) : Bool :=
  match p.probe plan.resources leaf.passDeps with
  | .error refusal => refusal.fixedByNewPass
  | .ok _ => false

/-- Whether one of the techniques has a blocked proposal; those after it are not looked at. -/
def anyBlocked (problem : Problem) (plan : Plan) (leaf : Leaf) : List Technique → Checked Bool
  | [] => .ok false
  | t :: rest => do
    let proposals ← t.proposals problem.graph plan.bindings leaf.next
    if proposals.any (isBlocked plan leaf) then .ok true else anyBlocked problem plan leaf rest

def revisit (leaf : Leaf) : Proposal :=
  { module? := none
    next := .revisit
    params := .ofList [("recirculations", (leaf.recirculations + 1 : Nat))] }

/-- Another pass, if the switch may take one and a blocked proposal asks for it. -/
def recirculation (problem : Problem) (plan : Plan) (leaf : Leaf) : Checked (List Proposal) :=
  if leaf.target = .switch ∧ leaf.recirculations < problem.platform.maxRecirculations then do
    let users := (problem.catalog .switch).filter fun t => t.kind.usesPipeline
    let blocked ← anyBlocked problem plan leaf users
    .ok (if blocked then [revisit leaf] else [])
  else .ok []

def offers (t : Technique) (problem : Problem) (plan : Plan) (leaf : Leaf) :
    Checked (List Proposal) :=
  if t.kind = .recirculate then recirculation problem plan leaf
  else t.proposals problem.graph plan.bindings leaf.next

/-- The symbol that tells the packets of a hand-over apart. -/
def handOverSymbol (s : SymbolSource) : Symbol × SymbolSource := s.fresh "cpu_code" 16

def mint (plan : Plan) (id : PlanNodeId) (m : Module) (symbols : SymbolSource) :
    Plan × SymbolSource :=
  match m.handsOver? with
  | none => (plan, symbols)
  | some _ =>
    let (symbol, symbols) := handOverSymbol symbols
    (plan.recordSymbol id symbol, symbols)

def grow (plan : Plan) (leaf : Leaf) (p : Proposal) (symbols : SymbolSource) :
    Checked (Plan × SymbolSource) :=
  let leaves := p.next.leaves leaf p.objects
  match p.module?, p.next with
  | some m, _ => do
    let (id, plan) ← plan.attach m leaves
    .ok (mint plan id m symbols)
  | none, .revisit => do .ok (← plan.recirculate, symbols)
  | none, _ => do .ok (← plan.skip leaves, symbols)

/-- Applies a proposal to a copy of the plan. The copy has its number even if it is refused. -/
def realize (t : Technique) (plan : Plan) (leaf : Leaf) (p : Proposal) (supply : Supply) :
    Checked (Except Refusal Candidate × Supply) := do
  let child := plan.fork supply.nextPlan
  let supply := { supply with nextPlan := supply.nextPlan + 1 }
  let bindings ← child.bindings.extend p.commits
  match p.place leaf.passDeps child.resources with
  | .error refusal => .ok (.error refusal, supply)
  | .ok (stages, resources) =>
    let (child, symbols) ← grow { child with bindings, resources } leaf p supply.symbols
    .ok (.ok ⟨t.decision plan.id leaf.next (p.paramsAt stages), child⟩, { supply with symbols })

def realizeAll (t : Technique) (plan : Plan) (leaf : Leaf) :
    List Proposal → Supply → Checked (Expansion × Supply)
  | [], supply => .ok ({}, supply)
  | p :: rest, supply => do
    let (made, supply) ← t.realize plan leaf p supply
    let (expansion, supply) ← t.realizeAll plan leaf rest supply
    .ok (expansion.cons made, supply)

/-- One new plan for every proposal that can be applied at the active leaf. -/
def expand (t : Technique) (problem : Problem) (plan : Plan) (supply : Supply) :
    Checked (Expansion × Supply) :=
  match plan.activeLeaf? with
  | none => .ok ({}, supply)
  | some leaf =>
    if leaf.target = t.target then do
      let proposals ← t.offers problem plan leaf
      t.realizeAll plan leaf (proposals.filter (admissible problem plan.bindings)) supply
    else .ok ({}, supply)

def expandAll (problem : Problem) (plan : Plan) :
    List Technique → Supply → Checked (Expansion × Supply)
  | [], supply => .ok ({}, supply)
  | t :: rest, supply => do
    let (first, supply) ← t.expand problem plan supply
    let (others, supply) ← expandAll problem plan rest supply
    .ok (⟨first.candidates ++ others.candidates, first.pruned ++ others.pruned⟩, supply)

end Technique

end PacketPlan
