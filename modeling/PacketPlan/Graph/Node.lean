import PacketPlan.Expr
import PacketPlan.Routine
import PacketPlan.Text.Quoted

/-! # Nodes of a behaviour graph

A packet path is a chain of calls and branches that ends in a route. Nodes are known by their
position in the graph.
-/
namespace PacketPlan

abbrev NodeId := Nat

def nodeText (id : NodeId) : String := "n" ++ toString id

/-- What becomes of a packet at the end of its path. -/
inductive Route where
  | forward (port : Nat)
  | drop
  | broadcast
deriving DecidableEq, Inhabited

/-- A call of a routine, with the symbols it introduces and the node it continues with. -/
structure Call where
  function : String
  args : OrdMap String Expr := ∅
  ret : Option Expr := none
  generated : List Symbol := []
  next : Option NodeId := none
deriving DecidableEq, Inhabited

namespace Call

def arg? (c : Call) (name : String) : Option Expr := c.args.get? name

def object? (c : Call) : Option Addr := (c.arg? Argument.object).bind Expr.address?

/-- A constant argument; the default stands for one that is missing or not constant. -/
def constantOr (c : Call) (name : String) (default : Nat) : Nat :=
  ((c.arg? name).bind Expr.constant?).getD default

def routine? (c : Call) : Option Routine := Routine.ofName? c.function

def allocated? (c : Call) : Option Container := c.routine?.bind Routine.allocated?

end Call

inductive NodeKind where
  | call (c : Call)
  | branch (condition : Expr) (onTrue onFalse : NodeId)
  | terminal (route : Route)
deriving DecidableEq, Inhabited

namespace NodeKind

def call? : NodeKind → Option Call
  | call c => some c
  | _ => none

def isBranch : NodeKind → Bool
  | branch .. => true
  | _ => false

def isTerminal : NodeKind → Bool
  | terminal _ => true
  | _ => false

/-- The nodes that follow; a branch has its true side first. -/
def children : NodeKind → List NodeId
  | call c => c.next.toList
  | branch _ t f => [t, f]
  | terminal _ => []

end NodeKind

structure Node where
  id : NodeId
  parent : Option NodeId
  kind : NodeKind
deriving DecidableEq, Inhabited

namespace Node

def call? (n : Node) : Option Call := n.kind.call?

def isCallTo (n : Node) (function : String) : Bool :=
  n.call?.any fun c => c.function = function

def children (n : Node) : List NodeId := n.kind.children

end Node

/-! ## Full descriptions

Fields in braces, positions and lists in brackets.
-/

def braced (name : String) (fields : List (String × String)) : String :=
  name ++ " \x7b " ++ String.intercalate ", " (fields.map fun f => f.1 ++ ": " ++ f.2) ++ " \x7d"

def enclosed (name part : String) : String := name ++ "(" ++ part ++ ")"

def Symbol.describe (s : Symbol) : String :=
  braced "Symbol" [("name", Text.quoted s.name), ("width", toString s.width)]

namespace Expr

mutual

def describe : Expr → String
  | const v w => braced "Const" [("value", toString v), ("width", toString w)]
  | addr a => enclosed "Addr" (enclosed "Addr" (toString a.value))
  | symbol s => enclosed "Symbol" s.describe
  | concat ps => enclosed "Concat" ("[" ++ String.intercalate ", " (describeAll ps) ++ "]")
  | term t w => braced "Opaque" [("text", Text.quoted t), ("width", toString w)]

def describeAll : List Expr → List String
  | [] => []
  | p :: ps => p.describe :: describeAll ps

end

end Expr

def Route.describe : Route → String
  | forward port => braced "Forward" [("port", toString port)]
  | drop => "Drop"
  | broadcast => "Broadcast"

/-- The description of a node that is not a call; a call is described by its function. -/
def NodeKind.describe : NodeKind → String
  | call c => enclosed "Call" c.function
  | branch condition t f =>
    braced "Branch" [("condition", condition.describe),
      ("on_true", enclosed "NodeId" (toString t)), ("on_false", enclosed "NodeId" (toString f))]
  | terminal route => enclosed "Terminal" route.describe

end PacketPlan
