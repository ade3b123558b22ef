/-! # Blocks of random words

The ChaCha block function with twelve rounds, by which a key and a block number give sixteen
words. The state is kept as four rows of four words, so that a quarter round works on all columns
at once; diagonals become columns when the rows are turned.
-/
namespace PacketPlan.Random

structure Row where
  a : UInt32
  b : UInt32
  c : UInt32
  d : UInt32
deriving DecidableEq, Inhabited

namespace Row

def zip (f : UInt32 → UInt32 → UInt32) (x y : Row) : Row :=
  ⟨f x.a y.a, f x.b y.b, f x.c y.c, f x.d y.d⟩

def map (f : UInt32 → UInt32) (x : Row) : Row := ⟨f x.a, f x.b, f x.c, f x.d⟩

instance : Add Row := ⟨zip (· + ·)⟩
instance : XorOp Row := ⟨zip (· ^^^ ·)⟩

def turn (x : Row) : Row := ⟨x.b, x.c, x.d, x.a⟩

def toList (x : Row) : List UInt32 := [x.a, x.b, x.c, x.d]

end Row

def rotateLeft (n : UInt32) (w : UInt32) : UInt32 := (w <<< n) ||| (w >>> (32 - n))

def rotateRight (n : UInt32) (w : UInt32) : UInt32 := (w >>> n) ||| (w <<< (32 - n))

structure Block where
  r0 : Row
  r1 : Row
  r2 : Row
  r3 : Row
deriving DecidableEq, Inhabited

namespace Block

/-- Adds one row into another and turns the bits of a third. -/
def mix (n : UInt32) (x y z : Row) : Row × Row :=
  let x := x + y
  (x, (z ^^^ x).map (rotateLeft n))

def columns (s : Block) : Block :=
  let (r0, r3) := mix 16 s.r0 s.r1 s.r3
  let (r2, r1) := mix 12 s.r2 r3 s.r1
  let (r0, r3) := mix 8 r0 r1 r3
  let (r2, r1) := mix 7 r2 r3 r1
  ⟨r0, r1, r2, r3⟩

def diagonals (s : Block) : Block :=
  let t := columns ⟨s.r0, s.r1.turn, s.r2.turn.turn, s.r3.turn.turn.turn⟩
  ⟨t.r0, t.r1.turn.turn.turn, t.r2.turn.turn, t.r3.turn⟩

def rounds : Nat → Block → Block
  | 0, s => s
  | n + 1, s => rounds n s.columns.diagonals

def add (s t : Block) : Block := ⟨s.r0 + t.r0, s.r1 + t.r1, s.r2 + t.r2, s.r3 + t.r3⟩

def toList (s : Block) : List UInt32 :=
  s.r0.toList ++ s.r1.toList ++ s.r2.toList ++ s.r3.toList

end Block

structure Key where
  low : Row
  high : Row
deriving DecidableEq, Inhabited

def Key.start (k : Key) (number : UInt64) : Block :=
  ⟨⟨0x61707865, 0x3320646e, 0x79622d32, 0x6b206574⟩, k.low, k.high,
    ⟨number.toUInt32, (number >>> 32).toUInt32, 0, 0⟩⟩

def Key.block (k : Key) (number : UInt64) : Block :=
  let s := k.start number
  (s.rounds 6).add s

end PacketPlan.Random
