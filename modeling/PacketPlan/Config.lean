import PacketPlan.Target

/-! # Configurations

Settings of the search, the targets it may use and the limits of the switch. Every setting has
a default. A configuration is sound if some target is enabled, the target that paths start on is
among them, and an enabled switch has a stage.
-/
namespace PacketPlan

/-- How the choice among plans of equal score is made. -/
inductive TieBreak where
  | uniform
  | walk
deriving DecidableEq, Inhabited

namespace TieBreak

def all : List TieBreak := [uniform, walk]

def name : TieBreak → String
  | uniform => "uniform"
  | walk => "walk"

def ofName? (s : String) : Option TieBreak := all.find? fun t => t.name = s

end TieBreak

structure SearchConfig where
  stopOnFirstSolution : Bool := true
  heuristic : String := "max-progress"
  seed : UInt64 := 0
  tieBreak : TieBreak := .uniform
  stepBudget : Option Nat := none
  trace : Bool := false
  lookaheadNodes : Nat := 64
deriving DecidableEq, Inhabited

structure TargetsConfig where
  initial : Target := .switch
  enabled : List Target := [.switch, .controller]
deriving DecidableEq, Inhabited

/-- Limits of the switch. A stage has 80 memory blocks of 1024 rows of 128 bits, and 24 blocks
of 512 rows of 44 bits for ternary matching. -/
structure SwitchConfig where
  stages : Nat := 12
  sramBitsPerStage : Nat := 80 * 1024 * 128
  tcamBitsPerStage : Nat := 24 * 512 * 44
  xbarBitsPerStage : Nat := 1024
  logicalIdsPerStage : Nat := 16
  digestSlots : Nat := 8
  maxMatchKeys : Nat := 8
  maxRecirculations : UInt8 := 1
  capacityMpps : Nat := 3200
deriving DecidableEq, Inhabited

structure SoftwareConfig where
  capacityMpps : Nat := 20
deriving DecidableEq, Inhabited

structure Config where
  search : SearchConfig := {}
  targets : TargetsConfig := {}
  switch : SwitchConfig := {}
  controller : SoftwareConfig := {}
  host : SoftwareConfig := {}
deriving DecidableEq, Inhabited

inductive ConfigError where
  | unreadable
  | malformed
  | noTargetEnabled
  | initialNotEnabled (target : Target)
  | noStages
deriving DecidableEq, Inhabited

def ConfigError.message : ConfigError → String
  | unreadable => "Cannot read configuration file"
  | malformed => "Configuration is not valid TOML"
  | noTargetEnabled => "Configuration error: no target is enabled"
  | initialNotEnabled t => "Configuration error: initial target '" ++ t.name ++ "' is not enabled"
  | noStages => "Configuration error: switch pipeline has no stages"

namespace Config

/-- Packet rate of a target, in millions of packets per second. -/
def capacity (c : Config) : Target → Nat
  | .switch => c.switch.capacityMpps
  | .controller => c.controller.capacityMpps
  | .host => c.host.capacityMpps

/-- The first of the three conditions that fails. -/
def validate (c : Config) : Except ConfigError Unit :=
  if c.targets.enabled.isEmpty then .error .noTargetEnabled
  else if c.targets.initial ∉ c.targets.enabled then .error (.initialNotEnabled c.targets.initial)
  else if .switch ∈ c.targets.enabled ∧ c.switch.stages = 0 then .error .noStages
  else .ok ()

theorem validate_eq_ok_iff (c : Config) : c.validate = .ok () ↔
    c.targets.initial ∈ c.targets.enabled ∧
      (.switch ∈ c.targets.enabled → 0 < c.switch.stages) := by
  unfold validate
  split
  · rename_i h
    simp_all
  · split
    · simp_all
    · split
      · simp_all
      · rename_i hi hs
        simp only [Decidable.not_not] at hi
        simp only [not_and, Nat.ne_zero_iff_zero_lt] at hs
        exact ⟨fun _ => ⟨hi, hs⟩, fun _ => rfl⟩

end Config

end PacketPlan
