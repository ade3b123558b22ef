/-! # Random sources

What a search asks of a generator. The search is the same for every source; its results depend on no
more than that a choice among `n` is one of the `n`.
-/
namespace PacketPlan.Random

/-- A stream of choices that a seed determines. -/
class Source (γ : Type) where
  ofSeed : UInt64 → γ
  /-- A number below `n`. -/
  below : γ → Nat → Nat × γ
  coin : γ → Bool × γ
  below_lt {n : Nat} (h : 0 < n) (g : γ) : (below g n).1 < n

end PacketPlan.Random
