import PacketPlan.Fault

/-! # Tallies

What a search has done, in numbers, and how often candidates were refused for each reason.
-/
namespace PacketPlan

inductive Counter where
  | steps
  | candidates
  | finishedPlans
  | deadEnds
  | skips
  | droppedSolutions
  | rebuilds
deriving DecidableEq, Inhabited

namespace Counter

def all : List Counter :=
  [steps, candidates, finishedPlans, deadEnds, skips, droppedSolutions, rebuilds]

def index : Counter → Fin 7
  | steps => 0
  | candidates => 1
  | finishedPlans => 2
  | deadEnds => 3
  | skips => 4
  | droppedSolutions => 5
  | rebuilds => 6

def name : Counter → String
  | steps => "steps"
  | candidates => "candidates"
  | finishedPlans => "finished_plans"
  | deadEnds => "dead_ends"
  | skips => "skips"
  | droppedSolutions => "dropped_solutions"
  | rebuilds => "rebuilds"

def ofName? (s : String) : Option Counter := all.find? fun c => c.name = s

end Counter

structure Tally where
  counts : Vector Nat 7 := .replicate 7 0
  failures : Vector Nat 8 := .replicate 8 0
deriving DecidableEq, Inhabited

namespace Tally

def get (t : Tally) (c : Counter) : Nat := t.counts[c.index]

def add (t : Tally) (c : Counter) (amount : Nat) : Checked Tally := do
  .ok { t with counts := t.counts.set c.index (← Checked.add (t.get c) amount) }

def failuresLike (t : Tally) (r : Refusal) : Nat := t.failures[r.index]

def record (t : Tally) (r : Refusal) : Checked Tally := do
  .ok { t with failures := t.failures.set r.index (← Checked.add (t.failuresLike r) 1) }

def recordAll (t : Tally) : List Refusal → Checked Tally
  | [] => .ok t
  | r :: rest => do (← t.record r).recordAll rest

def totalFailures (t : Tally) : Nat := t.failures.toList.foldr (· + ·) 0

def text (t : Tally) : String :=
  String.intercalate " " (Counter.all.map fun c => c.name ++ "=" ++ toString (t.get c))
    ++ " placement_failures=" ++ toString t.totalFailures

end Tally

end PacketPlan
