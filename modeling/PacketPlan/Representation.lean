import PacketPlan.Target
import PacketPlan.Routine

/-! # Representations

Each abstract object gets one concrete representation. Those in switch memory can also be
driven by the controller; those in ordinary memory are out of the switch's reach.
-/
namespace PacketPlan

inductive Representation where
  | exactMatchTable
  | registerArray
  | countMinSketch
  | inMemoryMap
  | inMemoryVector
  | inMemoryDchain
  | inMemorySketch
deriving DecidableEq, Inhabited

namespace Representation

def all : List Representation :=
  [exactMatchTable, registerArray, countMinSketch, inMemoryMap, inMemoryVector, inMemoryDchain,
    inMemorySketch]

def name : Representation → String
  | exactMatchTable => "exact-match-table"
  | registerArray => "register-array"
  | countMinSketch => "count-min-sketch"
  | inMemoryMap => "in-memory-map"
  | inMemoryVector => "in-memory-vector"
  | inMemoryDchain => "in-memory-dchain"
  | inMemorySketch => "in-memory-sketch"

def ofName? (s : String) : Option Representation := all.find? fun r => r.name = s

def container : Representation → Container
  | exactMatchTable | inMemoryMap => .map
  | registerArray | inMemoryVector => .vector
  | countMinSketch | inMemorySketch => .sketch
  | inMemoryDchain => .dchain

def inSwitch : Representation → Bool
  | exactMatchTable | registerArray | countMinSketch => true
  | _ => false

/-- The targets that can work on an object so represented. -/
def accessibleFrom (r : Representation) : TargetSet :=
  if r.inSwitch then .ofList [.switch, .controller] else .ofList [.controller, .host]

end Representation

/-- The representations a target may choose when it allocates, the preferred one first. -/
def Container.candidates : Target → Container → List Representation
  | .switch, .map => [.exactMatchTable]
  | .switch, .vector => [.registerArray]
  | .switch, .sketch => [.countMinSketch]
  | .switch, .dchain => []
  | .controller, .map => [.inMemoryMap, .exactMatchTable]
  | .controller, .vector => [.inMemoryVector, .registerArray]
  | .controller, .sketch => [.inMemorySketch, .countMinSketch]
  | .controller, .dchain => [.inMemoryDchain]
  | .host, .map => [.inMemoryMap]
  | .host, .vector => [.inMemoryVector]
  | .host, .sketch => [.inMemorySketch]
  | .host, .dchain => [.inMemoryDchain]

theorem Container.mem_candidates {t : Target} {c : Container} {r : Representation}
    (h : r ∈ Container.candidates t c) :
    r.container = c ∧ r.accessibleFrom.contains t = true := by
  cases t <;> cases c <;> simp [Container.candidates] at h <;>
    rcases h with rfl | rfl <;> exact ⟨rfl, rfl⟩

end PacketPlan
