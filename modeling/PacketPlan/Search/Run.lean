import PacketPlan.Plan.Verify
import PacketPlan.Random.Generator
import PacketPlan.Search.Frontier
import PacketPlan.Search.Heuristic
import PacketPlan.Search.Tally
import PacketPlan.Search.Trace

/-! # Best-first search

The search keeps the plans that have leaves and those that have none. A step takes one of the best
plans with leaves, extends it in every possible way and files the results. When the heuristic has
learned something from a finished plan, all plans are ranked anew before the next step.
-/
namespace PacketPlan

structure Search (μ : Type) (γ : Type := Random.Generator) where
  problem : Problem
  heuristic : Heuristic μ
  memory : μ
  generator : γ
  supply : Supply
  unfinished : Frontier Plan
  finished : Frontier Plan
  tally : Tally
  trace : Option Trace
  steps : Nat

inductive StepOutcome where
  | expanded (plan : PlanId) (candidates finished : Nat)
  | exhausted
deriving DecidableEq, Inhabited

namespace Search
variable {μ γ : Type}

def score (s : Search μ γ) (plan : Plan) : Checked Score :=
  s.heuristic.score s.memory s.problem plan

/-- A search that holds the empty plan. Plans are numbered in a row, from the number of this one. -/
def start [Random.Source γ] (problem : Problem) (heuristic : Heuristic μ) (number : PlanId := 0) :
    Checked (Search μ γ) := do
  let root := Plan.empty problem number
  let score ← heuristic.score heuristic.start problem root
  let trace : Trace := { heuristic := heuristic.name, metrics := heuristic.metrics.map (·.name) }
  .ok {
    problem, heuristic
    memory := heuristic.start
    generator := Random.Source.ofSeed problem.search.seed
    supply := { nextPlan := number + 1 }
    unfinished := (∅ : Frontier Plan).insert score root
    finished := ∅
    tally := {}
    trace := if problem.search.trace then some trace else none
    steps := 0 }

structure Filed where
  admitted : Nat := 0
  changed : Bool := false
deriving DecidableEq, Inhabited

/-- Takes in a plan without leaves, unless one such plan is enough and there is one. -/
def takeIn (s : Search μ γ) (filed : Filed) (plan : Plan) : Checked (Search μ γ × Filed) := do
  if s.problem.search.stopOnFirstSolution && !s.finished.isEmpty then
    .ok ({ s with tally := ← s.tally.add .droppedSolutions 1 }, filed)
  else
    let (memory, changed) ← s.heuristic.observe s.memory s.problem plan
    let tally ← s.tally.add .finishedPlans 1
    let s := { s with memory, tally }
    let score ← s.score plan
    .ok ({ s with finished := s.finished.insert score plan },
      { admitted := filed.admitted + 1, changed := filed.changed || changed })

/-- Files one candidate by whether it has leaves. A plan without leaves must be sound. -/
def file (s : Search μ γ) (filed : Filed) (c : Candidate) : Checked (Search μ γ × Filed) := do
  let tally ← if c.decision.kind.isSkip then s.tally.add .skips 1 else .ok s.tally
  let s := { s with tally }
  if c.plan.isFinished then
    match ← c.plan.verify s.problem with
    | .error defect => .error (.invalidFinish c.plan.id defect)
    | .ok _ => s.takeIn filed c.plan
  else
    let score ← s.score c.plan
    .ok ({ s with unfinished := s.unfinished.insert score c.plan }, filed)

def fileAll (s : Search μ γ) (filed : Filed) : List Candidate → Checked (Search μ γ × Filed)
  | [] => .ok (s, filed)
  | c :: rest => do
    let (s, filed) ← s.file filed c
    s.fileAll filed rest

def count (s : Search μ γ) (e : Expansion) : Checked (Search μ γ) := do
  let tally ← s.tally.recordAll e.pruned
  let tally ← tally.add .candidates e.candidates.length
  let tally ← if e.candidates.isEmpty then tally.add .deadEnds 1 else .ok tally
  .ok { s with tally }

def rescore (s : Search μ γ) : Checked (Search μ γ) := do
  let unfinished ← s.unfinished.rebuild s.score
  let finished ← s.finished.rebuild s.score
  .ok { s with unfinished, finished, tally := ← s.tally.add .rebuilds 1 }

def note (s : Search μ γ) (plan : Plan) (leaf : Leaf) (score : Score) (e : Expansion) :
    Search μ γ :=
  let step : TraceStep :=
    { step := s.steps, plan := plan.id, node := leaf.next, target := leaf.target
      score := score.keys
      candidates := e.candidates.map fun c => ⟨c.decision, c.plan.id, c.plan.isFinished⟩
      pruned := e.pruned.map Refusal.text }
  { s with trace := s.trace.map fun t => { t with steps := t.steps ++ [step] } }

def stepFrom (s : Search μ γ) (score : Score) (plan : Plan) : Checked (StepOutcome × Search μ γ) :=
  match plan.activeLeaf? with
  | none => .error (.noActiveLeaf plan.id)
  | some leaf => do
    let s := { s with steps := s.steps + 1, tally := ← s.tally.add .steps 1 }
    let (expansion, supply) ←
      Technique.expandAll s.problem plan s.problem.techniques s.supply
    let s ← { s with supply }.count expansion
    let (s, filed) ← s.fileAll {} expansion.candidates
    let s := s.note plan leaf score expansion
    let s ← if filed.changed then s.rescore else .ok s
    .ok (.expanded plan.id expansion.candidates.length filed.admitted, s)

/-- Extends one of the best plans that have leaves. -/
def step [Random.Source γ] (s : Search μ γ) : Checked (StepOutcome × Search μ γ) :=
  match s.unfinished.popBest s.problem.search.tieBreak s.generator with
  | none => .ok (.exhausted, s)
  | some (score, plan, unfinished, generator) =>
    { s with unfinished, generator }.stepFrom score plan

/-- A finished plan is enough, or the steps are used up. -/
def mayStop (s : Search μ γ) : Bool :=
  (s.problem.search.stopOnFirstSolution && !s.finished.isEmpty) ||
    s.problem.search.stepBudget.any fun budget => budget ≤ s.steps

/-- Steps until the search may stop or no plan has leaves; the answer is whether the latter holds.
A search that is not over after so many steps is a fault. -/
def runWithin [Random.Source γ] : Nat → Search μ γ → Checked (Bool × Search μ γ)
  | 0, s => if s.mayStop then .ok (false, s) else .error .endless
  | more + 1, s =>
    if s.mayStop then .ok (false, s)
    else do
      match ← s.step with
      | (.exhausted, s) => .ok (true, s)
      | (.expanded .., s) => runWithin more s

end Search

def candidateBound : Nat := 32

/-- A plan is complete after at most so many extensions: a node is handled on at most two targets,
and each path may recirculate as often as allowed. -/
def Problem.depthBound (problem : Problem) : Nat :=
  (2 + problem.platform.maxRecirculations) * problem.graph.size

def Problem.stepBound (problem : Problem) : Nat := Nat.pow candidateBound (problem.depthBound + 1)

structure Outcome where
  problem : Problem
  finished : List Plan
  tally : Tally
  trace : Option Trace
  exhausted : Bool
  steps : Nat
deriving DecidableEq, Inhabited

def Search.run {μ γ : Type} [Random.Source γ] (s : Search μ γ) : Checked Outcome := do
  let (exhausted, s) ← s.runWithin s.problem.stepBound
  .ok {
    problem := s.problem
    finished := s.finished.toList
    tally := s.tally
    trace := s.trace
    exhausted
    steps := s.steps }

inductive SetupError where
  | config (e : ConfigError)
  | unknownHeuristic (name : String)
deriving DecidableEq, Inhabited

def SetupError.message : SetupError → String
  | config e => e.message
  | unknownHeuristic name => Heuristic.unknownName name

def Search.ofConfig (g : Graph) (c : Config) (γ : Type := Random.Generator) [Random.Source γ] :
    Except SetupError (Checked (Search Heuristic.Best γ)) := do
  let problem ← (Problem.ofConfig g c).mapError .config
  match Heuristic.ofName? c.search.heuristic with
  | none => .error (.unknownHeuristic c.search.heuristic)
  | some heuristic => .ok (Search.start problem heuristic)

/-- Finds the plans for a graph that a configuration asks for, the best ones first. -/
def synthesize (g : Graph) (c : Config) (γ : Type := Random.Generator) [Random.Source γ] :
    Except SetupError (Checked Outcome) := do
  let search ← Search.ofConfig g c γ
  .ok (search.bind Search.run)

end PacketPlan
