import PacketPlan.Config
import PacketPlan.Random.Source
import PacketPlan.Search.Score

/-! # Frontiers

A multiset of items held under scores. Items of equal score keep the order in which they came; which
of the best ones is taken next is left to chance.
-/
namespace PacketPlan

section
variable {γ : Type} [Random.Source γ]

/-- A position among `more + 1`, found by going on for as long as the coin shows heads. -/
def walkPick : Nat → γ → Nat × γ
  | 0, g => (0, g)
  | more + 1, g =>
    match Random.Source.coin g with
    | (false, g) => (0, g)
    | (true, g) =>
      let (i, g) := walkPick more g
      (i + 1, g)

def TieBreak.pick (t : TieBreak) (n : Nat) (g : γ) : Nat × γ :=
  match t with
  | .uniform => Random.Source.below g n
  | .walk => walkPick (n - 1) g

theorem walkPick_le (more : Nat) (g : γ) : (walkPick more g).1 ≤ more := by
  induction more generalizing g with
  | zero => exact Nat.le_refl 0
  | succ more ih =>
    simp only [walkPick]
    split
    · exact Nat.zero_le _
    · exact Nat.succ_le_succ (ih _)

theorem TieBreak.pick_lt (t : TieBreak) {n : Nat} (h : 0 < n) (g : γ) : (t.pick n g).1 < n := by
  cases t with
  | uniform => exact Random.Source.below_lt h g
  | walk =>
    have := walkPick_le (n - 1) g
    simp only [pick]
    omega

end

structure Frontier (α : Type) where
  buckets : OrdMap Score (List α) := ∅
  size : Nat := 0
deriving DecidableEq

namespace Frontier
variable {α : Type}

instance : EmptyCollection (Frontier α) := ⟨{}⟩
instance : Inhabited (Frontier α) := ⟨∅⟩

def isEmpty (f : Frontier α) : Bool := f.size = 0

def insert (f : Frontier α) (s : Score) (a : α) : Frontier α :=
  { buckets := f.buckets.insert s ((f.buckets.get? s).getD [] ++ [a]), size := f.size + 1 }

/-- The greatest score present and the items under it. -/
def best? (f : Frontier α) : Option (Score × List α) := f.buckets.entries.getLast?

def bestScore? (f : Frontier α) : Option Score := f.best?.map Prod.fst

def dropBest (f : Frontier α) (s : Score) (rest : List α) : Frontier α :=
  let others := f.buckets.entries.dropLast
  { buckets := ⟨if rest.isEmpty then others else others ++ [(s, rest)]⟩, size := f.size - 1 }

/-- Takes the best item that stands at a position among its equals. -/
def takeBest (f : Frontier α) (index : Nat) : Option (Score × α × Frontier α) := do
  let (s, tied) ← f.best?
  let a ← tied[index]?
  some (s, a, f.dropBest s (tied.eraseIdx index))

def popBest {γ : Type} [Random.Source γ] (f : Frontier α) (t : TieBreak) (g : γ) :
    Option (Score × α × Frontier α × γ) := do
  let (_, tied) ← f.best?
  let (index, g) := t.pick tied.length g
  let (s, a, f) ← f.takeBest index
  some (s, a, f, g)

/-- All items, the best ones first. -/
def toList (f : Frontier α) : List α := f.buckets.values.reverse.flatten

def rebuildFrom (score : α → Checked Score) (f : Frontier α) : List α → Checked (Frontier α)
  | [] => .ok f
  | a :: rest => do rebuildFrom score (f.insert (← score a) a) rest

/-- Holds the same items under new scores; the worst ones are looked at first. -/
def rebuild (f : Frontier α) (score : α → Checked Score) : Checked (Frontier α) :=
  rebuildFrom score ∅ f.buckets.values.flatten

end Frontier

end PacketPlan
