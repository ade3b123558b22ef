import PacketPlan.Expr
import PacketPlan.Word

/-! # Switch objects and what they ask of a stage

An abstract object takes part in the pipeline through one or more switch objects, one for each
role. What an object demands is measured in four dimensions; a demand that is no machine word
has no footprint, since no stage could hold it.
-/
namespace PacketPlan

inductive Role where
  | table
  | register
  | meter
  | hash
  | digest
deriving DecidableEq, Inhabited

namespace Role

def all : List Role := [table, register, meter, hash, digest]

def index : Role → Nat
  | table => 0
  | register => 1
  | meter => 2
  | hash => 3
  | digest => 4

def name : Role → String
  | table => "table"
  | register => "register"
  | meter => "meter"
  | hash => "hash"
  | digest => "digest"

def ofName? (s : String) : Option Role := all.find? fun r => r.name = s

end Role

/-- An abstract object in one of its roles. Objects are listed by address, then by role. -/
structure SwitchObject where
  addr : Addr
  role : Role
deriving DecidableEq, Inhabited

namespace SwitchObject

instance : Ranked SwitchObject where
  rank o := [(o.addr.value : Int), (o.role.index : Int)]

def text (o : SwitchObject) : String := o.role.name ++ "@" ++ o.addr.text

end SwitchObject

abbrev ObjectSet := OrdSet SwitchObject

structure Budget where
  sram : Nat := 0
  tcam : Nat := 0
  xbar : Nat := 0
  ids : Nat := 0
deriving DecidableEq, Inhabited

namespace Budget

def covers (b need : Budget) : Bool :=
  decide (need.sram ≤ b.sram) && decide (need.tcam ≤ b.tcam) &&
    decide (need.xbar ≤ b.xbar) && decide (need.ids ≤ b.ids)

instance : Sub Budget where
  sub a b := ⟨a.sram - b.sram, a.tcam - b.tcam, a.xbar - b.xbar, a.ids - b.ids⟩

instance : Max Budget where
  max a b := ⟨max a.sram b.sram, max a.tcam b.tcam, max a.xbar b.xbar, max a.ids b.ids⟩

def isZero (b : Budget) : Bool := b = {}

theorem covers_iff (b need : Budget) : b.covers need = true ↔
    need.sram ≤ b.sram ∧ need.tcam ≤ b.tcam ∧ need.xbar ≤ b.xbar ∧ need.ids ≤ b.ids := by
  simp [covers, and_assoc]

@[simp] theorem sub_sram (a b : Budget) : (a - b).sram = a.sram - b.sram := rfl
@[simp] theorem sub_tcam (a b : Budget) : (a - b).tcam = a.tcam - b.tcam := rfl
@[simp] theorem sub_xbar (a b : Budget) : (a - b).xbar = a.xbar - b.xbar := rfl
@[simp] theorem sub_ids (a b : Budget) : (a - b).ids = a.ids - b.ids := rfl
@[simp] theorem max_sram (a b : Budget) : (max a b).sram = max a.sram b.sram := rfl
@[simp] theorem max_tcam (a b : Budget) : (max a b).tcam = max a.tcam b.tcam := rfl
@[simp] theorem max_xbar (a b : Budget) : (max a b).xbar = max a.xbar b.xbar := rfl
@[simp] theorem max_ids (a b : Budget) : (max a b).ids = max a.ids b.ids := rfl

end Budget

/-- What a module asks the pipeline to hold. -/
inductive Demand where
  | table (keyWidths : List Nat) (valueWidth capacity : Nat) (ternary : Bool)
  | register (width capacity : Nat)
  | meter (capacity : Nat)
  | hash (inputBits : Nat)
  | digest (bits : Nat)
deriving DecidableEq, Inhabited

namespace Demand

def meterBits : Nat := 128

/-- The amounts taken from a stage, if all of them are machine words. A digest takes a slot of
its own and nothing of the stage. -/
def footprint? : Demand → Option Budget
  | table keyWidths valueWidth capacity true => do
    let keyBits ← Word.sumFrom? 0 keyWidths
    let sram ← Word.mul? capacity valueWidth
    let tcam ← Word.mul? capacity keyBits
    some { sram, tcam, xbar := keyBits, ids := 1 }
  | table keyWidths valueWidth capacity false => do
    let keyBits ← Word.sumFrom? 0 keyWidths
    let rowBits ← Word.add? keyBits valueWidth
    let sram ← Word.mul? capacity rowBits
    some { sram, xbar := keyBits, ids := 1 }
  | register width capacity => do
    let sram ← Word.mul? capacity width
    some { sram, ids := 1 }
  | meter capacity => do
    let sram ← Word.mul? capacity meterBits
    some { sram, ids := 1 }
  | hash inputBits => do
    let xbar ← Word.check? inputBits
    some { xbar }
  | digest _ => some {}

def matchKeys : Demand → Nat
  | table keyWidths .. => keyWidths.length
  | _ => 0

def isDigest : Demand → Bool
  | digest _ => true
  | _ => false

end Demand

end PacketPlan
