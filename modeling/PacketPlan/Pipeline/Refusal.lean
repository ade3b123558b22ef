import PacketPlan.Pipeline.Object

/-! # Refused placements

Why an object cannot be placed. A refusal ends one candidate, not the search; some of them may
be avoided by sending the packet through the pipeline once more.
-/
namespace PacketPlan

/-- What a request asks of an object that is already placed, and that its stage cannot give. -/
inductive Conflict where
  | after (stage : Nat)
  | exactly (stage : Nat)
  | noRoom
deriving DecidableEq, Inhabited

def Conflict.text : Conflict → String
  | after stage => "now needs stage " ++ toString stage ++ " or later"
  | exactly stage => "stage " ++ toString stage ++ " was requested"
  | noRoom => "that stage has no room for it to grow"

inductive Refusal where
  | tooLarge (object : SwitchObject)
  | tooManyKeys (object : SwitchObject) (keys limit : Nat)
  | crossbarExceeded (object : SwitchObject) (needed available : Nat)
  | noStageAvailable (object : SwitchObject) (earliest : Nat)
  | inconsistentPlacement (object : SwitchObject) (stage : Nat) (conflict : Conflict)
  | selfDependency (object : SwitchObject)
  | noDigestSlots (object : SwitchObject)
  | unmetDependency (object dependency : SwitchObject)
deriving DecidableEq, Inhabited

namespace Refusal

def index : Refusal → Fin 8
  | tooLarge .. => 0
  | tooManyKeys .. => 1
  | crossbarExceeded .. => 2
  | noStageAvailable .. => 3
  | inconsistentPlacement .. => 4
  | selfDependency .. => 5
  | noDigestSlots .. => 6
  | unmetDependency .. => 7

def object : Refusal → SwitchObject
  | tooLarge o | tooManyKeys o .. | crossbarExceeded o .. | noStageAvailable o _
  | inconsistentPlacement o .. | selfDependency o | noDigestSlots o | unmetDependency o _ => o

/-- Reasons that may no longer hold in a new pass through the pipeline. -/
def fixedByNewPass : Refusal → Bool
  | selfDependency .. | noStageAvailable .. | inconsistentPlacement .. => true
  | _ => false

def text : Refusal → String
  | tooLarge o => o.text ++ " does not fit in an empty stage"
  | tooManyKeys o keys limit =>
    o.text ++ " matches on " ++ toString keys ++ " keys (max " ++ toString limit ++ ")"
  | crossbarExceeded o needed available =>
    o.text ++ " needs " ++ toString needed ++ " crossbar bits (stage has "
      ++ toString available ++ ")"
  | noStageAvailable o earliest =>
    "No stage from " ++ toString earliest ++ " onwards has room for " ++ o.text
  | inconsistentPlacement o stage conflict =>
    o.text ++ " is placed at stage " ++ toString stage ++ " but " ++ conflict.text
  | selfDependency o => o.text ++ " depends on itself"
  | noDigestSlots o => "No digest slot left for " ++ o.text
  | unmetDependency o d => o.text ++ " depends on " ++ d.text ++ ", which is not placed before it"

end Refusal

end PacketPlan
