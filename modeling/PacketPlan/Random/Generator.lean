import PacketPlan.Word
import PacketPlan.Random.Block
import PacketPlan.Random.Source

/-! # The random generator

A seed determines the whole stream of draws; the generator holds the key and how many draws were
made. A choice among equals multiplies a draw by the number of them and keeps the high part; a draw
whose low part lies outside the largest zone that treats all alike is replaced by the next one.
-/
namespace PacketPlan.Random

/-- The next state of the sequence that turns a seed into a key. -/
def seedStep (s : UInt64) : UInt64 := s * 6364136223846793005 + 11634580027462260723

def seedWord (s : UInt64) : UInt32 :=
  rotateRight (s >>> 59).toUInt32 (((s >>> 18) ^^^ s) >>> 27).toUInt32

/-- Four words from four successive states, and the last of these states. -/
def seedRow (s : UInt64) : Row × UInt64 :=
  let s1 := seedStep s
  let s2 := seedStep s1
  let s3 := seedStep s2
  let s4 := seedStep s3
  (⟨seedWord s1, seedWord s2, seedWord s3, seedWord s4⟩, s4)

def Key.ofSeed (seed : UInt64) : Key :=
  let (low, s) := seedRow seed
  ⟨low, (seedRow s).1⟩

structure Generator where
  key : Key
  drawn : Nat := 0
deriving DecidableEq, Inhabited

namespace Generator

def ofSeed (seed : UInt64) : Generator := { key := .ofSeed seed }

def range : Nat := Word.limit

/-- The draw at a position of the stream: two words of a block, the low one first. -/
def drawAt (k : Key) (position : Nat) : Nat :=
  let words := (k.block (position / 8).toUInt64).toList
  let word (i : Nat) : Nat := ((words[i]?).getD 0).toNat
  (word (2 * (position % 8)) + word (2 * (position % 8) + 1) <<< 32) % range

def draw (g : Generator) : Nat × Generator :=
  (drawAt g.key g.drawn, { g with drawn := g.drawn + 1 })

def period : Nat := 8 * range

/-- The last low part that is kept in a choice among `n`. -/
def zone (n : Nat) : Nat := n <<< (63 - n.log2) - 1

/-- Draws until one can be kept, at most so many times more. -/
def belowWithin (n : Nat) : Nat → Generator → Nat × Generator
  | 0, g =>
    let (v, g) := g.draw
    (v * n / range, g)
  | more + 1, g =>
    let (v, g) := g.draw
    if v * n % range ≤ zone n then (v * n / range, g) else belowWithin n more g

/-- A number below `n`, all being equally likely. -/
def below (g : Generator) (n : Nat) : Nat × Generator := belowWithin n period g

def coin (g : Generator) : Bool × Generator :=
  let (v, g) := g.draw
  (decide (v < range / 2), g)

theorem drawAt_lt (k : Key) (position : Nat) : drawAt k position < range :=
  Nat.mod_lt _ (by decide)

theorem belowWithin_lt {n : Nat} (h : 0 < n) (more : Nat) (g : Generator) :
    (belowWithin n more g).1 < n := by
  have key : ∀ g : Generator, g.draw.1 * n / range < n := fun g => by
    have hv : g.draw.1 < range := drawAt_lt g.key g.drawn
    exact Nat.div_lt_of_lt_mul (Nat.mul_lt_mul_of_pos_right hv h)
  induction more generalizing g with
  | zero => exact key g
  | succ more ih =>
    simp only [belowWithin]
    split
    · exact key g
    · exact ih _

theorem below_lt {n : Nat} (h : 0 < n) (g : Generator) : (g.below n).1 < n :=
  belowWithin_lt h period g

instance : Source Generator where
  ofSeed := ofSeed
  below := below
  coin := coin
  below_lt := below_lt

end Generator

end PacketPlan.Random
