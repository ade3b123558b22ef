import PacketPlan.Fault

/-! # Modules

A module implements one graph node on one target. The kinds of modules include two that leave no
trace in the plan tree: a call that may be ignored, and another pass through the pipeline.
-/
namespace PacketPlan

inductive Kind where
  | ignore
  | parseHeader
  | branch
  | route
  | allocate
  | tableLookup
  | tableLearn
  | registerRead
  | registerWrite
  | sketchUpdate
  | sketchQuery
  | sendToController
  | recirculate
  | mapGet
  | mapPut
  | mapErase
  | vectorRead
  | vectorWrite
  | dchainAllocateIndex
  | dchainRejuvenate
  | dchainFree
  | expireItems
deriving DecidableEq, Inhabited

namespace Kind

def all : List Kind :=
  [ignore, parseHeader, branch, route, allocate, tableLookup, tableLearn, registerRead,
    registerWrite, sketchUpdate, sketchQuery, sendToController, recirculate, mapGet, mapPut,
    mapErase, vectorRead, vectorWrite, dchainAllocateIndex, dchainRejuvenate, dchainFree,
    expireItems]

def name : Kind → String
  | ignore => "ignore"
  | parseHeader => "parse-header"
  | branch => "if"
  | route => "route"
  | allocate => "allocate"
  | tableLookup => "table-lookup"
  | tableLearn => "table-learn"
  | registerRead => "register-read"
  | registerWrite => "register-write"
  | sketchUpdate => "sketch-update"
  | sketchQuery => "sketch-query"
  | sendToController => "send-to-controller"
  | recirculate => "recirculate"
  | mapGet => "map-get"
  | mapPut => "map-put"
  | mapErase => "map-erase"
  | vectorRead => "vector-read"
  | vectorWrite => "vector-write"
  | dchainAllocateIndex => "dchain-allocate-index"
  | dchainRejuvenate => "dchain-rejuvenate"
  | dchainFree => "dchain-free"
  | expireItems => "expire-items"

def ofName? (s : String) : Option Kind := all.find? fun k => k.name = s

def usesPipeline : Kind → Bool
  | tableLookup | tableLearn | registerRead | registerWrite | sketchUpdate | sketchQuery => true
  | _ => false

/-- Kinds that add nothing to the plan tree. -/
def isSkip : Kind → Bool
  | ignore | recirculate => true
  | _ => false

end Kind

inductive Action where
  | parseHeader (length : Nat) (chunk : Option Expr)
  | branch (condition : Expr)
  | route (route : Route)
  | sendToController
  | allocate (object : Addr) (container : Container) (representation : Representation)
      (capacity : Nat)
  | tableLookup (table : Addr) (keys : List Expr) (value : Option Expr) (hit : Option Symbol)
  | tableLearn (table : Addr) (key value : Expr)
  | registerRead (register : Addr) (index : Expr) (value : Option Expr)
  | registerWrite (register : Addr) (index value : Expr)
  | sketchUpdate (sketch : Addr) (key : Expr) (representation : Representation)
  | sketchQuery (sketch : Addr) (key : Expr) (estimate : Option Expr)
      (representation : Representation)
  | mapGet (map : Addr) (key : Expr) (value : Option Expr) (found : Option Symbol)
      (representation : Representation)
  | mapPut (map : Addr) (key value : Expr) (representation : Representation)
  | mapErase (map : Addr) (key : Expr) (representation : Representation)
  | vectorRead (vector : Addr) (index : Expr) (value : Option Expr)
      (representation : Representation)
  | vectorWrite (vector : Addr) (index value : Expr) (representation : Representation)
  | dchainAllocateIndex (chain : Addr) (index : Option Expr) (outOfSpace : Option Symbol)
  | dchainRejuvenate (chain : Addr) (index : Expr)
  | dchainFree (chain : Addr) (index : Expr)
  | expireItems (map chain : Addr)
deriving DecidableEq, Inhabited

def Action.kind : Action → Kind
  | parseHeader .. => .parseHeader
  | branch .. => .branch
  | route .. => .route
  | sendToController => .sendToController
  | allocate .. => .allocate
  | tableLookup .. => .tableLookup
  | tableLearn .. => .tableLearn
  | registerRead .. => .registerRead
  | registerWrite .. => .registerWrite
  | sketchUpdate .. => .sketchUpdate
  | sketchQuery .. => .sketchQuery
  | mapGet .. => .mapGet
  | mapPut .. => .mapPut
  | mapErase .. => .mapErase
  | vectorRead .. => .vectorRead
  | vectorWrite .. => .vectorWrite
  | dchainAllocateIndex .. => .dchainAllocateIndex
  | dchainRejuvenate .. => .dchainRejuvenate
  | dchainFree .. => .dchainFree
  | expireItems .. => .expireItems

structure Module where
  target : Target
  node : NodeId
  action : Action
deriving DecidableEq, Inhabited

namespace Module

def kind (m : Module) : Kind := m.action.kind

def handsOver? (m : Module) : Option Target :=
  match m.action with
  | .sendToController => some .controller
  | _ => none

end Module

structure Decision where
  plan : PlanId
  node : NodeId
  target : Target
  kind : Kind
  params : OrdMap String Int
deriving DecidableEq, Inhabited

end PacketPlan
