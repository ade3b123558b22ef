import PacketPlan.Ordered

/-! # Targets

A packet path runs on the switch pipeline, on the controller beside it, or on a host. Sets of
targets are listed in this order.
-/
namespace PacketPlan

inductive Target where
  | switch
  | controller
  | host
deriving DecidableEq, Inhabited

namespace Target

def all : List Target := [switch, controller, host]

def index : Target → Nat
  | switch => 0
  | controller => 1
  | host => 2

instance : Ranked Target where
  rank t := [(t.index : Int)]

def name : Target → String
  | switch => "switch"
  | controller => "controller"
  | host => "host"

def ofName? (s : String) : Option Target := all.find? fun t => t.name = s

def unknownName : String := "Matching variant not found"

def isSoftware : Target → Bool
  | switch => false
  | _ => true

theorem mem_all (t : Target) : t ∈ all := by cases t <;> decide

theorem ofName?_name (t : Target) : ofName? t.name = some t := by cases t <;> decide

end Target

structure TargetSet where
  hasSwitch : Bool := false
  hasController : Bool := false
  hasHost : Bool := false
deriving DecidableEq, Inhabited

namespace TargetSet

def empty : TargetSet := {}

def contains (s : TargetSet) : Target → Bool
  | .switch => s.hasSwitch
  | .controller => s.hasController
  | .host => s.hasHost

def set (s : TargetSet) (t : Target) (present : Bool) : TargetSet :=
  match t with
  | .switch => { s with hasSwitch := present }
  | .controller => { s with hasController := present }
  | .host => { s with hasHost := present }

def insert (s : TargetSet) (t : Target) : TargetSet := s.set t true

def erase (s : TargetSet) (t : Target) : TargetSet := s.set t false

def ofList (ts : List Target) : TargetSet := ts.foldl insert empty

def full : TargetSet := ofList Target.all

def toList (s : TargetSet) : List Target := Target.all.filter s.contains

def size (s : TargetSet) : Nat := s.toList.length

def isEmpty (s : TargetSet) : Bool := s.toList.isEmpty

/-- The names between braces, such as `{switch,host}`. -/
def text (s : TargetSet) : String :=
  "\x7b" ++ String.intercalate "," (s.toList.map Target.name) ++ "\x7d"

@[simp] theorem contains_set (s : TargetSet) (t u : Target) (b : Bool) :
    (s.set t b).contains u = if u = t then b else s.contains u := by
  cases t <;> cases u <;> rfl

theorem mem_toList (s : TargetSet) (t : Target) : t ∈ s.toList ↔ s.contains t = true := by
  simp [toList, Target.mem_all]

theorem contains_foldl_insert (ts : List Target) (s : TargetSet) (t : Target) :
    (ts.foldl insert s).contains t = (decide (t ∈ ts) || s.contains t) := by
  induction ts generalizing s with
  | nil => simp
  | cons u rest ih =>
    rw [List.foldl_cons, ih, insert, contains_set]
    by_cases h : t = u <;> simp [h]

theorem contains_ofList (ts : List Target) (t : Target) :
    (ofList ts).contains t = decide (t ∈ ts) := by
  rw [ofList, contains_foldl_insert]
  cases t <;> simp [empty, contains]

end TargetSet

end PacketPlan
