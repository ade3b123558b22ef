import PacketPlan.Config
import PacketPlan.Pipeline.Refusal

/-! # Placement in the switch pipeline

A packet meets the stages in ascending order, so an object belongs in a later stage than all it
depends on. An object is placed in the earliest such stage that has room for it; one that is
already placed keeps its stage and may only grow there. Accepted requests are recorded, so that
they can be checked again.
-/
namespace PacketPlan

structure Stage where
  index : Nat
  remaining : Budget
  objects : ObjectSet
deriving DecidableEq, Inhabited

structure Placement where
  stage : Nat
  footprint : Budget
deriving DecidableEq, Inhabited

structure Pipeline where
  capacity : Budget
  maxMatchKeys : Nat
  stages : List Stage
  digests : Nat
  placements : OrdMap SwitchObject Placement := ∅
  requests : List (SwitchObject × ObjectSet) := []
deriving DecidableEq, Inhabited

namespace Pipeline

def ofConfig (c : SwitchConfig) : Pipeline :=
  let capacity : Budget :=
    ⟨c.sramBitsPerStage, c.tcamBitsPerStage, c.xbarBitsPerStage, c.logicalIdsPerStage⟩
  { capacity
    maxMatchKeys := c.maxMatchKeys
    stages := (List.range c.stages).map fun index => ⟨index, capacity, ∅⟩
    digests := c.digestSlots }

def stageOf? (p : Pipeline) (o : SwitchObject) : Option Nat := (p.placements.get? o).map (·.stage)

def isPlaced (p : Pipeline) (o : SwitchObject) : Bool := p.placements.contains o

def placedCount (p : Pipeline) : Nat := p.placements.size

/-- Stages up to the last one that holds an object. -/
def stagesUsed (p : Pipeline) : Nat :=
  (p.stages.reverse.dropWhile fun s => s.objects.isEmpty).length

/-- The place found for a request: a stage that holds the object already and what it must give
in addition, or a stage that takes the object in. -/
inductive Located where
  | held (stage : Nat) (growth footprint : Budget)
  | fresh (stage : Nat) (need : Budget)
deriving DecidableEq, Inhabited

def Located.stage : Located → Nat
  | held s .. => s
  | fresh s _ => s

/-- The need of a demand that an empty stage could meet. -/
def needOf (p : Pipeline) (o : SwitchObject) (d : Demand) : Except Refusal Budget :=
  if p.maxMatchKeys < d.matchKeys then .error (.tooManyKeys o d.matchKeys p.maxMatchKeys)
  else
    match d.footprint? with
    | none => .error (.tooLarge o)
    | some need =>
      if p.capacity.xbar < need.xbar then
        .error (.crossbarExceeded o need.xbar p.capacity.xbar)
      else if p.capacity.covers need then .ok need
      else .error (.tooLarge o)

/-- The first stage after the dependencies, with the first of them that forces it. -/
def earliestFrom (p : Pipeline) (o : SwitchObject) (earliest : Nat)
    (binding : Option SwitchObject) :
    List SwitchObject → Except Refusal (Nat × Option SwitchObject)
  | [] => .ok (earliest, binding)
  | dep :: deps =>
    match p.stageOf? dep with
    | none => .error (.unmetDependency o dep)
    | some stage =>
      if earliest < stage + 1 then p.earliestFrom o (stage + 1) (some dep) deps
      else p.earliestFrom o earliest binding deps

/-- What a stage has left; a stage that does not exist has nothing. -/
def remainingAt (p : Pipeline) (stage : Nat) : Budget :=
  (p.stages[stage]?).elim {} (·.remaining)

/-- Whether an object that is placed already can meet a further request in its stage. -/
def locateHeld (p : Pipeline) (o : SwitchObject) (placed : Placement) (need : Budget)
    (earliest : Nat) (requested : Option Nat) : Except Refusal Located :=
  if placed.stage < earliest then
    .error (.inconsistentPlacement o placed.stage (.after earliest))
  else
    match requested.filter (· ≠ placed.stage) with
    | some stage => .error (.inconsistentPlacement o placed.stage (.exactly stage))
    | none =>
      let growth := need - placed.footprint
      if (p.remainingAt placed.stage).covers growth then
        .ok (.held placed.stage growth (max placed.footprint need))
      else .error (.inconsistentPlacement o placed.stage .noRoom)

/-- The stage that takes in a new object: the one requested, or else the earliest with room. -/
def locateFresh (p : Pipeline) (o : SwitchObject) (need : Budget) (earliest : Nat)
    (binding : Option SwitchObject) : Option Nat → Except Refusal Located
  | some stage =>
    if stage < earliest then .error (.unmetDependency o (binding.getD o))
    else
      match p.stages[stage]? with
      | some s =>
        if s.remaining.covers need then .ok (.fresh stage need)
        else .error (.noStageAvailable o stage)
      | none => .error (.noStageAvailable o stage)
  | none =>
    match (p.stages.drop earliest).find? fun s => s.remaining.covers need with
    | some s => .ok (.fresh s.index need)
    | none => .error (.noStageAvailable o earliest)

def locate (p : Pipeline) (o : SwitchObject) (d : Demand) (deps : ObjectSet)
    (requested : Option Nat) : Except Refusal Located :=
  if o ∈ deps then .error (.selfDependency o)
  else do
    let need ← p.needOf o d
    let (earliest, binding) ← p.earliestFrom o 0 none deps.elems
    match p.placements.get? o with
    | some placed => p.locateHeld o placed need earliest requested
    | none =>
      if d.isDigest && p.digests == 0 then .error (.noDigestSlots o)
      else p.locateFresh o need earliest binding requested

def debit (stages : List Stage) (stage : Nat) (amount : Budget) : List Stage :=
  stages.modify stage fun s => { s with remaining := s.remaining - amount }

/-- Notes an accepted request once. -/
def record (p : Pipeline) (o : SwitchObject) (deps : ObjectSet) : Pipeline :=
  if (o, deps) ∈ p.requests then p else { p with requests := p.requests ++ [(o, deps)] }

def commit (p : Pipeline) (o : SwitchObject) (d : Demand) (deps : ObjectSet) :
    Located → Pipeline
  | .held stage growth footprint =>
    let grown :=
      if growth.isZero then p
      else { p with
        stages := debit p.stages stage growth
        placements := p.placements.insert o ⟨stage, footprint⟩ }
    grown.record o deps
  | .fresh stage need =>
    let taken := debit p.stages stage need
    let placed : Pipeline :=
      { p with
        stages := taken.modify stage fun s => { s with objects := s.objects.insert o }
        digests := if d.isDigest then p.digests - 1 else p.digests
        placements := p.placements.insert o ⟨stage, need⟩ }
    placed.record o deps

def placeWithin (p : Pipeline) (o : SwitchObject) (d : Demand) (deps : ObjectSet)
    (requested : Option Nat) : Except Refusal (Nat × Pipeline) := do
  let located ← p.locate o d deps requested
  .ok (located.stage, p.commit o d deps located)

def place (p : Pipeline) (o : SwitchObject) (d : Demand) (deps : ObjectSet) :
    Except Refusal (Nat × Pipeline) :=
  p.placeWithin o d deps none

def placeAt (p : Pipeline) (o : SwitchObject) (d : Demand) (deps : ObjectSet) (stage : Nat) :
    Except Refusal (Nat × Pipeline) :=
  p.placeWithin o d deps (some stage)

def probe (p : Pipeline) (o : SwitchObject) (d : Demand) (deps : ObjectSet) :
    Except Refusal Nat := do
  let located ← p.locate o d deps none
  .ok located.stage

def recheckDeps (p : Pipeline) (o : SwitchObject) (stage : Nat) :
    List SwitchObject → Except Refusal Unit
  | [] => .ok ()
  | dep :: deps =>
    match p.stageOf? dep with
    | none => .error (.unmetDependency o dep)
    | some s =>
      if s < stage then p.recheckDeps o stage deps
      else .error (.inconsistentPlacement o stage (.after (s + 1)))

def recheck (p : Pipeline) : List (SwitchObject × ObjectSet) → Except Refusal Unit
  | [] => .ok ()
  | (o, deps) :: rest =>
    match p.stageOf? o with
    | none => .error (.unmetDependency o o)
    | some stage => do
      p.recheckDeps o stage deps.elems
      p.recheck rest

/-- Whether every recorded request still holds. -/
def revalidate (p : Pipeline) : Except Refusal Unit := p.recheck p.requests

end Pipeline

end PacketPlan
