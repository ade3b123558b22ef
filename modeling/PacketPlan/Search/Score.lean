import PacketPlan.Fault

/-! # Scores

A plan is measured in several metrics, each to be made large or small. Scores are compared
lexicographically; metrics to be made small enter with the opposite sign, so that greater is
better throughout.
-/
namespace PacketPlan

inductive Objective where
  | max
  | min
deriving DecidableEq, Inhabited

namespace Objective

def name : Objective → String
  | max => "max"
  | min => "min"

/-- The part of a score that a value gives. The least signed word has no opposite. -/
def key : Objective → Int → Checked Int
  | max, v => .ok v
  | min, v => if v = Word.minSigned then .error .negateOverflow else .ok (-v)

end Objective

structure Metric where
  name : String
  objective : Objective
deriving DecidableEq, Inhabited

def Metric.text (m : Metric) : String := m.name ++ ":" ++ m.objective.name

structure Score where
  keys : List Int
deriving DecidableEq, Inhabited

namespace Score

instance : Ranked Score where
  rank s := s.keys

def keysOf : List Metric → List Int → Checked (List Int)
  | m :: ms, v :: vs => do
    let k ← m.objective.key v
    let ks ← keysOf ms vs
    .ok (k :: ks)
  | _, _ => .ok []

def ofValues (metrics : List Metric) (values : List Int) : Checked Score :=
  if metrics.length = values.length then do .ok ⟨← keysOf metrics values⟩
  else .error (.scoreLength values.length metrics.length)

end Score

end PacketPlan
