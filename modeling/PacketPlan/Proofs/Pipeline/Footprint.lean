import Mathlib.Algebra.Order.BigOperators.Group.List
import Mathlib.Algebra.Order.Ring.Nat
import PacketPlan.Pipeline.Object

/-! # Footprints are exact

A footprint is computed in machine words, where sums and products may leave the range. It is none
just when one of the exact amounts is no machine word, so that no demand looks smaller than it is.
The first sum is that of the key widths. With fewer than `2 ^ 32` keys it stays within the machine
words all the way, and there is still room for the width of the value.
-/
namespace PacketPlan

namespace Word

theorem check?_eq_none {n : Nat} : check? n = none ↔ limit ≤ n := by
  unfold check?
  split <;> simp only [reduceCtorEq, false_iff, true_iff] <;> omega

/-- It does not matter that every partial sum is checked: the partial sums are no larger than the
whole one. -/
theorem sumFrom?_eq {acc : Nat} (h : acc < limit) (ns : List Nat) :
    sumFrom? acc ns = check? (acc + ns.sum) := by
  induction ns generalizing acc with
  | nil => exact (check?_eq_some.mpr ⟨rfl, h⟩).symm
  | cons n ns ih =>
    rw [sumFrom?, add?, List.sum_cons, ← Nat.add_assoc]
    by_cases hn : acc + n < limit
    · rw [check?_eq_some.mpr ⟨rfl, hn⟩, Option.bind_some, ih hn]
    · have hsum : limit ≤ acc + n + ns.sum := by omega
      rw [check?_eq_none.mpr (Nat.le_of_not_lt hn), check?_eq_none.mpr hsum, Option.bind_none]

end Word

def Budget.InWords (b : Budget) : Prop :=
  b.sram < Word.limit ∧ b.tcam < Word.limit ∧ b.xbar < Word.limit ∧ b.ids < Word.limit

instance : DecidablePred Budget.InWords :=
  fun b => inferInstanceAs (Decidable (b.sram < Word.limit ∧ b.tcam < Word.limit ∧
    b.xbar < Word.limit ∧ b.ids < Word.limit))

namespace Demand

/-- The amounts that are asked of a stage, as numbers of any size. -/
def amounts : Demand → Budget
  | table keyWidths valueWidth capacity true =>
    { sram := capacity * valueWidth, tcam := capacity * keyWidths.sum
      xbar := keyWidths.sum, ids := 1 }
  | table keyWidths valueWidth capacity false =>
    { sram := capacity * (keyWidths.sum + valueWidth), xbar := keyWidths.sum, ids := 1 }
  | register width capacity => { sram := capacity * width, ids := 1 }
  | meter capacity => { sram := capacity * 128, ids := 1 }
  | hash inputBits => { xbar := inputBits }
  | digest _ => {}

def keyWidths : Demand → List Nat
  | table keyWidths .. => keyWidths
  | _ => []

def widths : Demand → List Nat
  | table keyWidths valueWidth .. => valueWidth :: keyWidths
  | register width _ => [width]
  | meter _ => []
  | hash inputBits => [inputBits]
  | digest bits => [bits]

variable {d : Demand} {keyWidths : List Nat} {valueWidth : Nat}

/-- Fewer than `2 ^ 32` key widths leave room for the width of a value in a machine word. -/
theorem sum_keyWidths_add_lt (narrow : ∀ w ∈ valueWidth :: keyWidths, w < widthLimit)
    (few : keyWidths.length < 2 ^ 32) : keyWidths.sum + valueWidth < Word.limit := by
  obtain ⟨hvalue, hkeys⟩ := List.forall_mem_cons.mp narrow
  have hsum : keyWidths.sum ≤ keyWidths.length * (widthLimit - 1) :=
    List.sum_le_card_nsmul keyWidths _ fun w hw => Nat.le_pred_of_lt (hkeys w hw)
  have hcount : keyWidths.length * (widthLimit - 1) ≤ (2 ^ 32 - 1) * (widthLimit - 1) :=
    Nat.mul_le_mul_right _ (Nat.le_pred_of_lt few)
  unfold Word.limit
  unfold widthLimit at hvalue hsum hcount
  omega

theorem sumFrom?_keyWidths (narrow : ∀ w ∈ d.widths, w < widthLimit) (few : d.matchKeys < 2 ^ 32)
    {keys : List Nat} (hkeys : keys <+: d.keyWidths) : Word.sumFrom? 0 keys = some keys.sum := by
  rw [Word.sumFrom?_eq (by decide), Nat.zero_add]
  refine Word.check?_eq_some.mpr ⟨rfl, ?_⟩
  cases d with
  | table keyWidths valueWidth capacity ternary =>
    have hrow := sum_keyWidths_add_lt narrow few
    have hle : keys.sum ≤ keyWidths.sum := hkeys.sublist.sum_le_sum fun _ _ => Nat.zero_le _
    omega
  | register | meter | hash | digest =>
    rw [List.prefix_nil.mp hkeys]
    decide

theorem eq_amounts_of_footprint? {need : Budget} (h : d.footprint? = some need) :
    need = d.amounts ∧ d.amounts.InWords := by
  have hzero : 0 < Word.limit := by decide
  have hone : 1 < Word.limit := by decide
  cases d with
  | table keyWidths valueWidth capacity ternary =>
    cases ternary <;>
      simp only [footprint?, Word.sumFrom?_eq hzero, Nat.zero_add, Word.mul?, Word.add?,
        Option.bind_eq_bind, Option.bind_eq_some_iff, Word.check?_eq_some] at h <;>
      simp only [amounts, Budget.InWords] <;>
      grind
  | register width capacity | meter capacity | hash inputBits | digest bits =>
    simp only [footprint?, Word.mul?, Option.bind_eq_bind, Option.bind_eq_some_iff,
      Word.check?_eq_some, meterBits] at h
    simp only [amounts, Budget.InWords]
    grind

/-- The width of a row is a sum that is checked too. It has a value whatever the capacity is, so
that a table without rows is not refused. -/
theorem footprint?_eq_amounts (narrow : ∀ w ∈ d.widths, w < widthLimit)
    (few : d.matchKeys < 2 ^ 32) (words : d.amounts.InWords) : d.footprint? = some d.amounts := by
  have hcheck : ∀ {n : Nat}, n < Word.limit → Word.check? n = some n :=
    fun h => Word.check?_eq_some.mpr ⟨rfl, h⟩
  obtain ⟨hsram, htcam, hxbar, _⟩ := words
  cases d with
  | table keyWidths valueWidth capacity ternary =>
    have hkeys : Word.sumFrom? 0 keyWidths = some keyWidths.sum :=
      sumFrom?_keyWidths narrow few (List.prefix_refl _)
    cases ternary with
    | true =>
      simp only [amounts] at hsram htcam ⊢
      simp [footprint?, hkeys, Word.mul?, hcheck hsram, hcheck htcam]
    | false =>
      have hrow := sum_keyWidths_add_lt narrow few
      simp only [amounts] at hsram ⊢
      simp [footprint?, hkeys, Word.mul?, Word.add?, hcheck hrow, hcheck hsram]
  | register width capacity | meter capacity =>
    simp only [amounts] at hsram ⊢
    simp [footprint?, Word.mul?, meterBits, hcheck hsram]
  | hash inputBits =>
    simp only [amounts] at hxbar ⊢
    simp [footprint?, hcheck hxbar]
  | digest bits => rfl

end Demand

/-- A demand has a footprint just when all the amounts it asks for, as numbers of any size, are
machine words, and then the footprint is these amounts. The sum of the key widths is a machine word
all the way. -/
theorem footprint_is_exact_or_refused (d : Demand) (narrow : ∀ w ∈ d.widths, w < widthLimit)
    (few : d.matchKeys < 2 ^ 32) :
    (d.footprint?.isSome ↔ d.amounts.InWords) ∧
      (∀ need, d.footprint? = some need → need = d.amounts) ∧
      ∀ keys, keys <+: d.keyWidths → Word.sumFrom? 0 keys = some keys.sum := by
  refine ⟨?_, fun need hneed => (Demand.eq_amounts_of_footprint? hneed).1,
    fun keys => Demand.sumFrom?_keyWidths narrow few⟩
  rw [Option.isSome_iff_exists]
  constructor
  · rintro ⟨need, hneed⟩
    exact (Demand.eq_amounts_of_footprint? hneed).2
  · intro hwords
    exact ⟨d.amounts, Demand.footprint?_eq_amounts narrow few hwords⟩

/-- Rows of 64 bits: the capacity `2 ^ 58` is the first one that is refused. -/
theorem footprint_at_the_limit :
    (Demand.table [16, 16] 32 (2 ^ 58) false).footprint? = none ∧
      (Demand.table [16, 16] 32 (2 ^ 58 - 1) false).footprint? =
        some { sram := 2 ^ 64 - 64, xbar := 32, ids := 1 } := by
  have hexact := fun capacity => footprint_is_exact_or_refused (.table [16, 16] 32 capacity false)
    (by simp [Demand.widths, widthLimit]) (by simp [Demand.matchKeys])
  constructor
  · rw [← Option.not_isSome_iff_eq_none, (hexact _).1]
    decide
  · obtain ⟨need, hneed⟩ := Option.isSome_iff_exists.mp ((hexact (2 ^ 58 - 1)).1.mpr (by decide))
    rw [hneed, (hexact _).2.1 need hneed]
    rfl

end PacketPlan
