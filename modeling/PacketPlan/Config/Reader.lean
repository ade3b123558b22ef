import PacketPlan.Config
import PacketPlan.Toml.Document

/-! # Reading configurations

A configuration is a TOML document with a table for each of its sections. Keys that are not known
are ignored. A section may also be written as an array of its settings in their order, and a choice
as a table whose only key is its name and which holds nothing.
-/
namespace PacketPlan

open Toml (Value)

namespace Config.Field

def boolean? : Value → Option Bool
  | .boolean b => some b
  | _ => none

def string? : Value → Option String
  | .string s => some s
  | _ => none

def natBelow? (limit : Nat) : Value → Option Nat
  | .integer i => if 0 ≤ i ∧ i < limit then some i.toNat else none
  | _ => none

def nat? : Value → Option Nat := natBelow? Word.limit

def seed? (v : Value) : Option UInt64 := (nat? v).map Nat.toUInt64

def octet? (v : Value) : Option UInt8 := (natBelow? 256 v).map Nat.toUInt8

/-- Nothing is said beyond the name of a choice. -/
def isVoid : Value → Bool
  | .array items => items.isEmpty
  | .table _ entries => entries.isEmpty
  | .tables items => items.isEmpty
  | _ => false

def choice? {α : Type} (ofName? : String → Option α) : Value → Option α
  | .string s => ofName? s
  | .table _ [(s, v)] => if isVoid v then ofName? s else none
  | _ => none

def items? : Value → Option (List Value)
  | .array items => some items
  | .tables items => some (items.map (.table .header))
  | _ => none

def target? : Value → Option Target := choice? Target.ofName?

def targets? (v : Value) : Option (List Target) := do (← items? v).mapM target?

/-- What a section says about its settings, in their order. A date says nothing about any. -/
def given? (names : List String) (v : Value) : Option (List (Option Value)) :=
  match v with
  | .table _ entries => some (names.map fun name => Toml.Table.get? entries name)
  | .dateTime _ => some (names.map fun _ => none)
  | v => do
    let items ← items? v
    some ((List.range names.length).map fun i => items[i]?)

def orDefault {α : Type} (default : α) (read? : Value → Option α) : Option Value → Option α
  | none => some default
  | some v => read? v

end Config.Field

open Config.Field

def SearchConfig.ofValue? (v : Value) : Option SearchConfig := do
  let default : SearchConfig := {}
  match ← given? ["stop_on_first_solution", "heuristic", "seed", "tie_break", "step_budget", "trace",
      "lookahead_nodes"] v with
  | [stop, heuristic, seed, tieBreak, budget, trace, lookahead] =>
    some {
      stopOnFirstSolution := ← orDefault default.stopOnFirstSolution boolean? stop
      heuristic := ← orDefault default.heuristic string? heuristic
      seed := ← orDefault default.seed seed? seed
      tieBreak := ← orDefault default.tieBreak (choice? TieBreak.ofName?) tieBreak
      stepBudget := ← orDefault default.stepBudget (fun v => (nat? v).map some) budget
      trace := ← orDefault default.trace boolean? trace
      lookaheadNodes := ← orDefault default.lookaheadNodes nat? lookahead }
  | _ => none

def TargetsConfig.ofValue? (v : Value) : Option TargetsConfig := do
  let default : TargetsConfig := {}
  match ← given? ["initial", "enabled"] v with
  | [initial, enabled] =>
    some {
      initial := ← orDefault default.initial target? initial
      enabled := ← orDefault default.enabled targets? enabled }
  | _ => none

def SwitchConfig.ofValue? (v : Value) : Option SwitchConfig := do
  let default : SwitchConfig := {}
  let limit : Nat := 4294967296
  match ← given? ["stages", "sram_bits_per_stage", "tcam_bits_per_stage", "xbar_bits_per_stage",
      "logical_ids_per_stage", "digest_slots", "max_match_keys", "max_recirculations",
      "capacity_mpps"] v with
  | [stages, sram, tcam, xbar, ids, digests, keys, recirculations, capacity] =>
    some {
      stages := ← orDefault default.stages nat? stages
      sramBitsPerStage := ← orDefault default.sramBitsPerStage nat? sram
      tcamBitsPerStage := ← orDefault default.tcamBitsPerStage nat? tcam
      xbarBitsPerStage := ← orDefault default.xbarBitsPerStage nat? xbar
      logicalIdsPerStage := ← orDefault default.logicalIdsPerStage (natBelow? limit) ids
      digestSlots := ← orDefault default.digestSlots (natBelow? limit) digests
      maxMatchKeys := ← orDefault default.maxMatchKeys nat? keys
      maxRecirculations := ← orDefault default.maxRecirculations octet? recirculations
      capacityMpps := ← orDefault default.capacityMpps nat? capacity }
  | _ => none

def SoftwareConfig.ofValue? (v : Value) : Option SoftwareConfig := do
  let default : SoftwareConfig := {}
  match ← given? ["capacity_mpps"] v with
  | [capacity] => some { capacityMpps := ← orDefault default.capacityMpps nat? capacity }
  | _ => none

namespace Config

def ofValue? (v : Value) : Option Config := do
  match ← given? ["search", "targets", "switch", "controller", "host"] v with
  | [search, targets, switch, controller, host] =>
    some {
      search := ← orDefault {} SearchConfig.ofValue? search
      targets := ← orDefault {} TargetsConfig.ofValue? targets
      switch := ← orDefault {} SwitchConfig.ofValue? switch
      controller := ← orDefault {} SoftwareConfig.ofValue? controller
      host := ← orDefault {} SoftwareConfig.ofValue? host }
  | _ => none

def ofToml (s : String) : Except ConfigError Config :=
  match (Toml.parse s).bind fun entries => ofValue? (.table .header entries) with
  | none => .error .malformed
  | some c => do
    c.validate
    .ok c

/-- The configuration in a file, given what the file holds if it exists. -/
def load (contents : Option ByteArray) : Except ConfigError Config :=
  match contents.bind String.fromUTF8? with
  | none => .error .unreadable
  | some s => ofToml s

end Config

end PacketPlan
