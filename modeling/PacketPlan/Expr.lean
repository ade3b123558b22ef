import PacketPlan.Ordered

/-! # Symbolic expressions

Calls and branches carry expressions that are read only for equality, for their width in bits
and for the object address they may denote. A concatenation has a width only while the running
sum of the widths of its parts, taken from the left, stays below `2 ^ 32`.
-/
namespace PacketPlan

/-- Widths in bits are below this limit, `2 ^ 32`. -/
def widthLimit : Nat := 4294967296

structure Addr where
  value : Nat
deriving DecidableEq, Inhabited

namespace Addr

instance : Ranked Addr where
  rank a := [(a.value : Int)]

/-- Lower-case hexadecimal, such as `0x1f`. -/
def text (a : Addr) : String := "0x" ++ String.ofList (Nat.toDigits 16 a.value)

end Addr

structure Symbol where
  name : String
  width : Nat
deriving DecidableEq, Inhabited

def Symbol.text (s : Symbol) : String := s.name ++ ":" ++ toString s.width

inductive Expr where
  | const (value width : Nat)
  | addr (a : Addr)
  | symbol (s : Symbol)
  | concat (parts : List Expr)
  | term (text : String) (width : Nat)
deriving Inhabited

namespace Expr

mutual

def decEq : (a b : Expr) → Decidable (a = b)
  | const v w, const v' w' => decidable_of_iff (v = v' ∧ w = w') (by simp)
  | addr a, addr b => decidable_of_iff (a = b) (by simp)
  | symbol s, symbol t => decidable_of_iff (s = t) (by simp)
  | term t w, term t' w' => decidable_of_iff (t = t' ∧ w = w') (by simp)
  | concat ps, concat qs =>
    match decEqParts ps qs with
    | isTrue h => isTrue (congrArg concat h)
    | isFalse h => isFalse fun e => h (Expr.concat.inj e)
  | const .., addr _ | const .., symbol _ | const .., concat _ | const .., term .. => isFalse nofun
  | addr _, const .. | addr _, symbol _ | addr _, concat _ | addr _, term .. => isFalse nofun
  | symbol _, const .. | symbol _, addr _ | symbol _, concat _ | symbol _, term .. => isFalse nofun
  | term .., const .. | term .., addr _ | term .., symbol _ | term .., concat _ => isFalse nofun
  | concat _, const .. | concat _, addr _ | concat _, symbol _ | concat _, term .. => isFalse nofun

def decEqParts : (ps qs : List Expr) → Decidable (ps = qs)
  | [], [] => isTrue rfl
  | [], _ :: _ => isFalse nofun
  | _ :: _, [] => isFalse nofun
  | p :: ps, q :: qs =>
    match decEq p q with
    | isFalse h => isFalse fun e => h (List.cons.inj e).1
    | isTrue h =>
      match decEqParts ps qs with
      | isFalse h' => isFalse fun e => h' (List.cons.inj e).2
      | isTrue h' => isTrue (by rw [h, h'])

end

instance : DecidableEq Expr := decEq

/-- The object an expression denotes: an address, or a constant of address width. -/
def address? : Expr → Option Addr
  | addr a => some a
  | const v 64 => some ⟨v⟩
  | _ => none

def constant? : Expr → Option Nat
  | const v _ => some v
  | _ => none

mutual

def width? : Expr → Option Nat
  | const _ w => if w < widthLimit then some w else none
  | addr _ => some 64
  | symbol s => if s.width < widthLimit then some s.width else none
  | concat ps => widthFrom? 0 ps
  | term _ w => if w < widthLimit then some w else none

/-- The width of the parts on top of what stands to their left. -/
def widthFrom? (left : Nat) : List Expr → Option Nat
  | [] => some left
  | p :: ps =>
    match p.width? with
    | none => none
    | some w => if left + w < widthLimit then widthFrom? (left + w) ps else none

end

mutual

/-- The parts of a concatenation at every depth, from left to right; any other expression is
its own single part. -/
def parts : Expr → List Expr
  | concat ps => partsAll ps
  | e => [e]

def partsAll : List Expr → List Expr
  | [] => []
  | p :: ps => p.parts ++ partsAll ps

end

end Expr

/-- Where fresh symbols come from: how many were minted so far. -/
structure SymbolSource where
  minted : Nat := 0
deriving DecidableEq, Inhabited

def SymbolSource.fresh (source : SymbolSource) (base : String) (width : Nat) :
    Symbol × SymbolSource :=
  (⟨base ++ "_" ++ toString source.minted, width⟩, ⟨source.minted + 1⟩)

end PacketPlan
