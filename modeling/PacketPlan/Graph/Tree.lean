import PacketPlan.Fault

/-! # Behaviour graphs

The tree of all packet paths. `Graph.ofKinds` takes nodes with arbitrary references and accepts
them only if they form a tree under the given root in which every allocation names an object and
no object is allocated twice. The survey walks depth first, true sides first, and reports the
first reference that is wrong.
-/
namespace PacketPlan

inductive GraphError where
  | missingRoot (root : NodeId)
  | missingChild (parent : Option NodeId) (child : NodeId)
  | secondParent (id : NodeId)
  | unreachable (id root : NodeId)
  | noObject (id : NodeId)
  | allocatedTwice (addr : Addr)
deriving DecidableEq, Inhabited

def GraphError.message (e : GraphError) : String :=
  "Malformed behavior graph: " ++
    match e with
    | missingRoot root => "root " ++ nodeText root ++ " does not exist"
    | missingChild parent child =>
      (parent.map nodeText).getD "root" ++ " points to missing node " ++ nodeText child
    | secondParent id => "node " ++ nodeText id ++ " has more than one parent"
    | unreachable id root =>
      "node " ++ nodeText id ++ " is unreachable from root " ++ nodeText root
    | noObject id => "allocation " ++ nodeText id ++ " has no object address"
    | allocatedTwice addr => "object " ++ addr.text ++ " is allocated twice"

structure Graph where
  nodes : List Node
  root : NodeId
  allocations : OrdMap Addr NodeId
deriving DecidableEq, Inhabited

namespace Graph

/-- The parents of the nodes met so far; the root is met without one. -/
abbrev Parents := OrdMap NodeId (Option NodeId)

/-- Visits the pending nodes and all below them. Each visit meets a new node or ends the survey.
After as many visits as there are nodes all of them are met, and a node that is still pending is
one too many. -/
def survey (kinds : List NodeKind) :
    Nat → List (NodeId × Option NodeId) → Parents → Except GraphError Parents
  | _, [], met => .ok met
  | 0, (id, parent) :: _, _ =>
    .error (if id < kinds.length then .secondParent id else .missingChild parent id)
  | visits + 1, (id, parent) :: pending, met =>
    match kinds[id]? with
    | none => .error (.missingChild parent id)
    | some kind =>
      if met.contains id then .error (.secondParent id)
      else survey kinds visits (kind.children.map (·, some id) ++ pending) (met.insert id parent)

def allocationsFrom (acc : OrdMap Addr NodeId) :
    List Node → Except GraphError (OrdMap Addr NodeId)
  | [] => .ok acc
  | node :: rest =>
    match node.call? with
    | none => allocationsFrom acc rest
    | some call =>
      if call.allocated?.isNone then allocationsFrom acc rest
      else
        match call.object? with
        | none => .error (.noObject node.id)
        | some addr =>
          if acc.contains addr then .error (.allocatedTwice addr)
          else allocationsFrom (acc.insert addr node.id) rest

def ofKinds (kinds : List NodeKind) (root : NodeId) : Except GraphError Graph :=
  if kinds.length ≤ root then .error (.missingRoot root)
  else do
    let met ← survey kinds kinds.length [(root, none)] ∅
    match (List.range kinds.length).find? fun id => !met.contains id with
    | some id => .error (.unreachable id root)
    | none =>
      let nodes := kinds.mapIdx fun id kind => ⟨id, (met.get? id).join, kind⟩
      let allocations ← allocationsFrom ∅ nodes
      .ok { nodes, root, allocations }

def size (g : Graph) : Nat := g.nodes.length

def node? (g : Graph) (id : NodeId) : Option Node := g.nodes[id]?

def node (g : Graph) (id : NodeId) : Checked Node :=
  (g.node? id).elim (.error (.missingNode id)) .ok

def successor (g : Graph) (id : NodeId) : Checked NodeId := do
  let node ← g.node id
  match node.kind with
  | .call c => c.next.elim (.error (.noSuccessor id c.function)) .ok
  | kind => .error (.notCall id kind)

def allocation? (g : Graph) (a : Addr) : Option Call :=
  ((g.allocations.get? a).bind g.node?).bind Node.call?

/-- The branches met on the way up, for at most so many steps. -/
def branchesAbove (g : Graph) : Nat → Option NodeId → Nat
  | 0, _ => 0
  | _, none => 0
  | steps + 1, some id =>
    match g.node? id with
    | none => 0
    | some n => (if n.kind.isBranch then 1 else 0) + g.branchesAbove steps n.parent

def branchDepth (g : Graph) (id : NodeId) : Checked Nat := do
  let node ← g.node id
  .ok (g.branchesAbove g.size node.parent)

end Graph

end PacketPlan
