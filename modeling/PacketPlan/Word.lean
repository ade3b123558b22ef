/-! # Machine words

Amounts are natural numbers below `2 ^ 64`. Sums and products that leave this range have no
value.
-/
namespace PacketPlan.Word

def limit : Nat := 18446744073709551616

def check? (n : Nat) : Option Nat := if n < limit then some n else none

def add? (a b : Nat) : Option Nat := check? (a + b)

def mul? (a b : Nat) : Option Nat := check? (a * b)

/-- The sum from the left, every partial sum being checked. -/
def sumFrom? (acc : Nat) : List Nat → Option Nat
  | [] => some acc
  | n :: rest => (add? acc n).bind fun s => sumFrom? s rest

def mulSaturating (a b : Nat) : Nat := min (a * b) (limit - 1)

def toSigned (n : Nat) : Int := if n < limit / 2 then n else (n : Int) - limit

def maxSigned : Nat := limit / 2 - 1

def minSigned : Int := -(limit / 2 : Nat)

/-- A word, or the largest signed word in place of a greater one. -/
def clampSigned (n : Nat) : Int := (min n maxSigned : Nat)

theorem check?_eq_some {n m : Nat} : check? n = some m ↔ n = m ∧ m < limit := by
  unfold check?
  split
  · simp only [Option.some.injEq]
    constructor
    · rintro rfl; exact ⟨rfl, ‹_›⟩
    · exact And.left
  · simp only [reduceCtorEq, false_iff, not_and]
    rintro rfl
    assumption

end PacketPlan.Word
