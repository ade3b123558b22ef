import PacketPlan.Fault

/-! # Bindings of objects to representations

Every use of an object has to agree with the representation it was given when it was allocated.
An object is bound once; binding it again to the same representation changes nothing, and to
another one is a fault.
-/
namespace PacketPlan

/-- Bindings that a decision would add. -/
abbrev Delta := List (Addr × Representation)

structure Bindings where
  map : OrdMap Addr Representation := ∅
deriving DecidableEq, Inhabited

namespace Bindings

def get? (b : Bindings) (a : Addr) : Option Representation := b.map.get? a

def entries (b : Bindings) : List (Addr × Representation) := b.map.entries

/-- The object is unbound, or bound to just this representation. -/
def allows (b : Bindings) (a : Addr) (r : Representation) : Bool :=
  match b.get? a with
  | none => true
  | some bound => bound = r

def holds (b : Bindings) (a : Addr) (r : Representation) : Bool := b.get? a = some r

def bind (b : Bindings) (a : Addr) (r : Representation) : Checked Bindings :=
  match b.get? a with
  | none => .ok ⟨b.map.insert a r⟩
  | some bound => if bound = r then .ok b else .error (.rebound a bound r)

def admits (b : Bindings) (delta : Delta) : Bool := delta.all fun e => b.allows e.1 e.2

def extend (b : Bindings) : Delta → Checked Bindings
  | [] => .ok b
  | (a, r) :: rest => do (← b.bind a r).extend rest

end Bindings

end PacketPlan
