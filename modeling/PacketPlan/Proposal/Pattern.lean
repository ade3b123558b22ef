import PacketPlan.Proposal.Basic

/-! # Patterns

A pattern looks at a graph node, and at the bindings so far, for the ways in which a target could
implement the node. It proposes none if the node has another form or if an object has no
representation that suits.
-/
namespace PacketPlan

/-- A node that is to be implemented on a target, and what has been decided before. -/
structure Setting where
  graph : Graph
  bindings : Bindings
  target : Target
  node : NodeId
deriving DecidableEq, Inhabited

abbrev Pattern := Setting → NodeKind → Checked (List Proposal)

/-- Goes on with a value that is there; without it there is nothing to propose. -/
def given {α : Type} (a : Option α) (f : α → Checked (List Proposal)) : Checked (List Proposal) :=
  match a with
  | none => .ok []
  | some x => f x

def NodeKind.callTo? (k : NodeKind) (r : Routine) : Option Call :=
  k.call?.filter fun c => c.routine? = some r

namespace Setting

def act (s : Setting) (action : Action) (next : Continuation) : Proposal :=
  { module? := some ⟨s.target, s.node, action⟩, next }

def next (s : Setting) : Checked Continuation := do .ok (.next (← s.graph.successor s.node))

/-- The representation of an object, if it is one that the target can work on. -/
def reached? (s : Setting) (c : Container) (a : Addr) : Option Representation :=
  (c.candidates s.target).find? fun r => s.bindings.holds a r

/-- The object that a call works on if it is so represented, with the call that allocates it. -/
def held? (s : Setting) (c : Call) (r : Representation) : Option (Addr × Call) := do
  let a ← c.object?
  if s.bindings.holds a r then
    let allocation ← s.graph.allocation? a
    some (a, allocation)
  else none

def callOn? (s : Setting) (k : NodeKind) (r : Routine) (c : Container) :
    Option (Call × Addr × Representation) := do
  let call ← k.callTo? r
  let a ← call.object?
  let representation ← s.reached? c a
  some (call, a, representation)

end Setting

namespace Pattern

/-! ## On every target -/

def ignore : Pattern := fun s k =>
  given (k.call?.filter fun c => c.routine?.any Routine.isNoOp) fun _ => do
    .ok [{ module? := none, next := ← s.next }]

def parseHeader : Pattern := fun s k =>
  given (k.callTo? .borrowChunk) fun call => do
    let length := call.constantOr Argument.length 0
    let proposal := s.act (.parseHeader length call.ret) (← s.next)
    .ok [{ proposal with params := .ofList [("length", Word.clampSigned length)] }]

def branch : Pattern := fun s k =>
  match k with
  | .branch condition onTrue onFalse => .ok [s.act (.branch condition) (.branch onTrue onFalse)]
  | _ => .ok []

def route : Pattern := fun s k =>
  match k with
  | .terminal route => .ok [s.act (.route route) .stop]
  | _ => .ok []

/-- One proposal for every representation that the target may choose and the bindings allow. -/
def allocate : Pattern := fun s k =>
  given k.call? fun call =>
  given call.allocated? fun container =>
  given call.object? fun object => do
    let capacity := call.constantOr Argument.capacity 0
    let next ← s.next
    let choices := (container.candidates s.target).filter fun r => s.bindings.allows object r
    .ok (choices.map fun r =>
      { s.act (.allocate object container r capacity) next with
        commits := [(object, r)]
        params := .ofList [("capacity", Word.clampSigned capacity)] })

/-! ## On the switch

Objects are reached through the pipeline, so they must have a representation there.
-/

/-- A width that an allocation states, 32 bits if it states none, if a switch field can have it. -/
def fieldWidth? (allocation : Call) (name : String) : Option Nat :=
  let width := allocation.constantOr name 32
  if width < widthLimit then some width else none

def widths : List Expr → Checked (List Nat)
  | [] => .ok []
  | e :: es => do
    let w ← e.width
    let ws ← widths es
    .ok (w :: ws)

def tableLookup : Pattern := fun s k =>
  given (k.callTo? .mapGet) fun call =>
  given (s.held? call .exactMatchTable) fun (table, allocation) =>
  given (call.arg? Argument.key) fun key => do
    let keyWidths ← widths key.parts
    given (fieldWidth? allocation Argument.valueWidth) fun valueWidth => do
      let capacity := allocation.constantOr Argument.capacity 0
      let action := .tableLookup table key.parts (call.arg? Argument.value) call.generated.head?
      .ok [{ s.act action (← s.next) with
        placements := [(⟨table, .table⟩, .table keyWidths valueWidth capacity false)] }]

/-- Tables are written by the controller, which the switch informs by a digest. -/
def tableLearn : Pattern := fun s k =>
  given (k.callTo? .mapPut) fun call =>
  given (s.held? call .exactMatchTable) fun (table, _) =>
  given (call.arg? Argument.key) fun key =>
  given (call.arg? Argument.value) fun value => do
    let bits ← (Expr.concat [key, value]).width
    .ok [{ s.act (.tableLearn table key value) (← s.next) with
      placements := [(⟨table, .digest⟩, .digest bits)] }]

def register (s : Setting) (object : Addr) (allocation : Call) (action : Action) :
    Checked (List Proposal) := do
  let next ← s.next
  given (fieldWidth? allocation Argument.elementWidth) fun width =>
    let cells : SwitchObject := ⟨object, .register⟩
    .ok [{ s.act action next with
      placements := [(cells, .register width (allocation.constantOr Argument.capacity 0))]
      fused := [cells] }]

def registerRead : Pattern := fun s k =>
  given (k.callTo? .vectorBorrow) fun call =>
  given (s.held? call .registerArray) fun (object, allocation) =>
  given (call.arg? Argument.index) fun index =>
    register s object allocation (.registerRead object index (call.arg? Argument.value))

def registerWrite : Pattern := fun s k =>
  given (k.callTo? .vectorReturn) fun call =>
  given (s.held? call .registerArray) fun (object, allocation) =>
  given (call.arg? Argument.index) fun index =>
  given (call.arg? Argument.value) fun value =>
    register s object allocation (.registerWrite object index value)

def sketchCellBits : Nat := 32

/-- A sketch is a hash unit that selects cells in several rows of registers; both are used by one
action. -/
def sketch (s : Setting) (object : Addr) (allocation : Call) (key : Expr) (action : Action) :
    Checked (List Proposal) := do
  let hash : SwitchObject := ⟨object, .hash⟩
  let cells : SwitchObject := ⟨object, .register⟩
  let height := allocation.constantOr Argument.height 1
  let width := allocation.constantOr Argument.width 0
  let next ← s.next
  let inputBits ← key.width
  .ok [{ s.act action next with
    placements :=
      [(hash, .hash inputBits), (cells, .register sketchCellBits (Word.mulSaturating height width))]
    fused := [hash, cells]
    params := .ofList [("height", Word.clampSigned height)] }]

def switchSketchUpdate : Pattern := fun s k =>
  given (k.callTo? .sketchIncrement) fun call =>
  given (s.held? call .countMinSketch) fun (object, allocation) =>
  given (call.arg? Argument.key) fun key =>
    sketch s object allocation key (.sketchUpdate object key .countMinSketch)

def switchSketchQuery : Pattern := fun s k =>
  given (k.callTo? .sketchQuery) fun call =>
  given (s.held? call .countMinSketch) fun (object, allocation) =>
  given (call.arg? Argument.key) fun key =>
    sketch s object allocation key (.sketchQuery object key call.ret .countMinSketch)

/-- The controller goes on at the same node. -/
def sendToController : Pattern := fun s k =>
  if k.isTerminal then .ok []
  else .ok [s.act .sendToController (.transfer .controller s.node)]

/-! ## In software

Objects are used in whatever representation they were given, if the target can reach it.
-/

def calling (action? : Setting → NodeKind → Option Action) : Pattern := fun s k =>
  given (action? s k) fun action => do .ok [s.act action (← s.next)]

def mapGet : Pattern := calling fun s k => do
  let (call, map, r) ← s.callOn? k .mapGet .map
  let key ← call.arg? Argument.key
  some (.mapGet map key (call.arg? Argument.value) call.generated.head? r)

def mapPut : Pattern := calling fun s k => do
  let (call, map, r) ← s.callOn? k .mapPut .map
  let key ← call.arg? Argument.key
  let value ← call.arg? Argument.value
  some (.mapPut map key value r)

def mapErase : Pattern := calling fun s k => do
  let (call, map, r) ← s.callOn? k .mapErase .map
  let key ← call.arg? Argument.key
  some (.mapErase map key r)

def vectorRead : Pattern := calling fun s k => do
  let (call, vector, r) ← s.callOn? k .vectorBorrow .vector
  let index ← call.arg? Argument.index
  some (.vectorRead vector index (call.arg? Argument.value) r)

def vectorWrite : Pattern := calling fun s k => do
  let (call, vector, r) ← s.callOn? k .vectorReturn .vector
  let index ← call.arg? Argument.index
  let value ← call.arg? Argument.value
  some (.vectorWrite vector index value r)

def dchainAllocateIndex : Pattern := calling fun s k => do
  let (call, chain, _) ← s.callOn? k .dchainAllocateIndex .dchain
  some (.dchainAllocateIndex chain (call.arg? Argument.index) call.generated.head?)

def dchainRejuvenate : Pattern := calling fun s k => do
  let (call, chain, _) ← s.callOn? k .dchainRejuvenate .dchain
  let index ← call.arg? Argument.index
  some (.dchainRejuvenate chain index)

def dchainFree : Pattern := calling fun s k => do
  let (call, chain, _) ← s.callOn? k .dchainFree .dchain
  let index ← call.arg? Argument.index
  some (.dchainFree chain index)

def softwareSketchUpdate : Pattern := calling fun s k => do
  let (call, sketch, r) ← s.callOn? k .sketchIncrement .sketch
  let key ← call.arg? Argument.key
  some (.sketchUpdate sketch key r)

def softwareSketchQuery : Pattern := calling fun s k => do
  let (call, sketch, r) ← s.callOn? k .sketchQuery .sketch
  let key ← call.arg? Argument.key
  some (.sketchQuery sketch key call.ret r)

/-- The map and the chain of its indices must both be within reach. -/
def expireItems : Pattern := calling fun s k => do
  let (call, map, _) ← s.callOn? k .expireItems .map
  let chain ← (call.arg? Argument.chain).bind Expr.address?
  let _ ← s.reached? .dchain chain
  some (.expireItems map chain)

end Pattern

end PacketPlan
