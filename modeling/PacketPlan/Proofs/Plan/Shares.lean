import Mathlib.Algebra.BigOperators.Group.List.Basic
import Mathlib.Data.Nat.Cast.Order.Field
import Mathlib.Tactic.Linarith
import Mathlib.Tactic.Positivity
import Mathlib.Tactic.Ring
import PacketPlan.Proofs.Plan.Coverage

/-! # Shares of the traffic

Every branch above a leaf halves its share of the traffic. A branch splits a share between its two
sides and the end of a path hands it on to the path, so the shares of the leaves and of the
completed paths always make up the whole. A path carries at most its share of the highest rate of a
target: sums of rates along the paths, and of rates expected below the leaves, stay below that rate.
-/
namespace PacketPlan

def share (branchDepth : Nat) : ℚ := (1 / 2) ^ branchDepth

theorem share_nonneg (d : Nat) : 0 ≤ share d := by
  unfold share
  positivity

theorem share_succ_add_share_succ (d : Nat) : share (d + 1) + share (d + 1) = share d := by
  unfold share
  rw [pow_succ]
  ring

namespace Plan

def openShare (leaves : List Leaf) : ℚ := (leaves.map fun l => share l.branchDepth).sum

def carriedShare (paths : List CompletedPath) : ℚ := (paths.map fun p => share p.branchDepth).sum

@[simp] theorem openShare_nil : openShare [] = 0 := rfl

@[simp] theorem openShare_cons (l : Leaf) (leaves : List Leaf) :
    openShare (l :: leaves) = share l.branchDepth + openShare leaves := rfl

theorem openShare_append (xs ys : List Leaf) :
    openShare (xs ++ ys) = openShare xs + openShare ys := by
  rw [openShare, List.map_append, List.sum_append]
  rfl

@[simp] theorem carriedShare_nil : carriedShare [] = 0 := rfl

@[simp] theorem carriedShare_cons (p : CompletedPath) (paths : List CompletedPath) :
    carriedShare (p :: paths) = share p.branchDepth + carriedShare paths := rfl

theorem carriedShare_append (xs ys : List CompletedPath) :
    carriedShare (xs ++ ys) = carriedShare xs + carriedShare ys := by
  rw [carriedShare, List.map_append, List.sum_append]
  rfl

theorem openShare_nonneg (leaves : List Leaf) : 0 ≤ openShare leaves := by
  induction leaves with
  | nil => exact le_refl 0
  | cons l leaves ih => exact add_nonneg (share_nonneg _) ih

theorem carriedShare_nonneg (paths : List CompletedPath) : 0 ≤ carriedShare paths := by
  induction paths with
  | nil => exact le_refl 0
  | cons p paths ih => exact add_nonneg (share_nonneg _) ih

theorem openShare_map_attach (leaves : List Leaf) (id : Option PlanNodeId) :
    openShare (leaves.map fun l => { l with attach := id }) = openShare leaves := by
  rw [openShare, List.map_map]
  rfl

/-- What is left open and what is carried make up the whole. -/
def Shared (plan : Plan) : Prop :=
  openShare plan.leaves + carriedShare plan.ledger.completed = 1

/-- The leaves that come next share what the leaf had, or the path takes it. -/
theorem share_of_follows {next : Continuation} {k : NodeKind} (h : next.Follows k) (leaf : Leaf)
    (placed : List SwitchObject) :
    openShare (next.leaves leaf placed) +
      (if (next.leaves leaf placed).isEmpty then share leaf.branchDepth else 0) =
      share leaf.branchDepth := by
  cases next with
  | stop =>
    rw [Continuation.leaves]
    simp
  | next n =>
    rw [Continuation.leaves]
    simp [Leaf.advance]
  | branch t f =>
    rw [Continuation.leaves]
    simp [Leaf.branch, share_succ_add_share_succ]
  | transfer | revisit => cases k <;> exact h.elim

section attached
variable {plan : Plan} {id : PlanId} {bindings : Bindings} {resources : Pipeline} {leaf : Leaf}
variable {rest children : List Leaf} {m : Module} {minted : Option Symbol}

theorem Shared.attached (h : plan.Shared) (active : plan.leaves = leaf :: rest)
    (hshare : openShare children + (if children.isEmpty then share leaf.branchDepth else 0) =
      share leaf.branchDepth) :
    (plan.attached id bindings resources leaf rest m children minted).Shared := by
  unfold Shared at h ⊢
  rw [active, openShare_cons] at h
  rw [attached_leaves, attached_completed, openShare_append, openShare_map_attach,
    carriedShare_append]
  have hpath : carriedShare (if children.isEmpty then
      [⟨leaf.branchDepth, leaf.target, leaf.recirculations⟩] else []) =
      if children.isEmpty then share leaf.branchDepth else 0 := by
    split <;> simp
  rw [hpath]
  linarith

end attached

theorem Shared.step {problem : Problem} {plan after : Plan} (h : plan.Shared)
    (step : plan.Step problem after) : after.Shared := by
  cases step with
  | @pass leaf rest t p node n id bindings offer present silent goes follows places bound fresh =>
    unfold Shared at h ⊢
    rw [offer.active, openShare_cons] at h
    simp only [passed, goes, Continuation.leaves, List.singleton_append, openShare_cons,
      Leaf.advance]
    exact h
  | act offer _ _ _ follows => exact h.attached offer.active (share_of_follows follows _ _)
  | handOver offer =>
    apply h.attached offer.active
    simp [Leaf.transfer]
  | revisit offer =>
    unfold Shared at h ⊢
    rw [offer.active] at h
    exact h

end Plan

open Plan

theorem Derives.shared {problem : Problem} {choices : List Choice} {plan : Plan}
    (h : Derives problem choices plan) : plan.Shared := by
  apply h.invariant
  · intro id
    simp [Shared, Plan.empty, Leaf.root, share]
  · exact fun shared step => shared.step step

/-! ## Rates -/

def Problem.RatesWithin (problem : Problem) (most : Nat) : Prop :=
  ∀ t, problem.platform.capacity t * 1000 ≤ most

theorem Problem.ratesWithin_of_ofConfig {g : Graph} {c : Config} {problem : Problem} {most : Nat}
    (posed : Problem.ofConfig g c = .ok problem)
    (h : ∀ t ∈ c.targets.enabled, c.capacity t * 1000 ≤ most) : problem.RatesWithin most := by
  intro t
  rw [Problem.eq_of_ofConfig posed, Platform.capacity]
  simp only
  cases hget : OrdMap.get? (.ofList ((TargetSet.ofList c.targets.enabled).toList.map fun t =>
      (t, c.capacity t))) t with
  | none => exact (Nat.zero_mul 1000).trans_le (Nat.zero_le most)
  | some capacity =>
    obtain ⟨u, hu, he⟩ := List.mem_map.mp (OrdMap.mem_of_get?_ofList hget)
    cases he
    rw [TargetSet.mem_toList, TargetSet.contains_ofList, decide_eq_true_eq] at hu
    exact h t hu

theorem Checked.add_eq_ok {a b : Nat} (h : a + b < Word.limit) : Checked.add a b = .ok (a + b) := by
  rw [Checked.add, Word.add?, Word.check?_eq_some.mpr ⟨rfl, h⟩]
  rfl

theorem Checked.mul_eq_ok {a b : Nat} (h : a * b < Word.limit) : Checked.mul a b = .ok (a * b) := by
  rw [Checked.mul, Word.mul?, Word.check?_eq_some.mpr ⟨rfl, h⟩]
  rfl

/-- Beyond 63 branches nothing is left of a rate that is a signed word, as its share says. -/
theorem shareBelow_le {rate : Nat} (h : rate < 2 ^ 63) (d : Nat) :
    (shareBelow rate d : ℚ) ≤ rate * share d := by
  rw [shareBelow, Nat.shiftRight_eq_div_pow]
  by_cases hd : d ≤ 63
  · rw [min_eq_left hd, share, one_div, inv_pow, ← div_eq_mul_inv]
    exact_mod_cast Nat.cast_div_le
  · have hnone : rate / 2 ^ min d 63 = 0 := by
      rw [min_eq_right (by omega)]
      exact Nat.div_eq_of_lt h
    rw [hnone, Nat.cast_zero]
    exact mul_nonneg (Nat.cast_nonneg rate) (share_nonneg d)

section rates
variable {problem : Problem} {most : Nat}

theorem CompletedPath.exists_rate (p : CompletedPath) (within : problem.RatesWithin most)
    (hmost : most < 2 ^ 63) :
    ∃ rate, p.rate (problem.platform.capacity p.target) = .ok rate ∧
      (rate : ℚ) ≤ most * share p.branchDepth := by
  have hcapacity := within p.target
  generalize problem.platform.capacity p.target = capacity at hcapacity
  have hmul : Checked.mul capacity 1000 = .ok (capacity * 1000) := by
    apply Checked.mul_eq_ok
    rw [Word.limit]
    omega
  have hle : capacity * 1000 / (1 + p.recirculations) ≤ most :=
    (Nat.div_le_self _ _).trans hcapacity
  refine ⟨shareBelow (capacity * 1000 / (1 + p.recirculations)) p.branchDepth, ?_, ?_⟩
  · rw [CompletedPath.rate, pathRate, hmul]
    rfl
  · apply (shareBelow_le (by omega) p.branchDepth).trans
    exact mul_le_mul_of_nonneg_right (by exact_mod_cast hle) (share_nonneg _)

theorem Checked.exists_add {acc rate : Nat} {shares more : ℚ} (hrate : (rate : ℚ) ≤ shares)
    (hmore : 0 ≤ more) (hlimit : acc + (shares + more) < 2 ^ 64) :
    Checked.add acc rate = .ok (acc + rate) ∧ ((acc + rate : Nat) : ℚ) + more < 2 ^ 64 := by
  have hsum : ((acc + rate : Nat) : ℚ) + more < 2 ^ 64 := by
    push_cast
    linarith
  refine ⟨Checked.add_eq_ok ?_, hsum⟩
  have hlt : ((acc + rate : Nat) : ℚ) < 2 ^ 64 := by linarith
  exact_mod_cast hlt

theorem Plan.exists_sumRates (within : problem.RatesWithin most) (hmost : most < 2 ^ 63) {acc : Nat}
    {paths : List CompletedPath} (hlimit : (acc : ℚ) + most * carriedShare paths < 2 ^ 64) :
    ∃ total, sumRates problem acc paths = .ok total ∧
      (total : ℚ) ≤ acc + most * carriedShare paths := by
  induction paths generalizing acc with
  | nil => exact ⟨acc, rfl, by simp⟩
  | cons p paths ih =>
    obtain ⟨rate, hrate, hle⟩ := p.exists_rate within hmost
    have hmore : 0 ≤ (most : ℚ) * carriedShare paths :=
      mul_nonneg (Nat.cast_nonneg most) (carriedShare_nonneg paths)
    rw [carriedShare_cons, mul_add] at hlimit
    obtain ⟨hadd, hrest⟩ := Checked.exists_add hle hmore hlimit
    obtain ⟨total, htotal, hbound⟩ := ih hrest
    refine ⟨total, ?_, ?_⟩
    · rw [sumRates]
      exact bind_eq_ok.mpr ⟨rate, hrate, bind_eq_ok.mpr ⟨acc + rate, hadd, htotal⟩⟩
    · rw [carriedShare_cons]
      push_cast at hbound
      linarith

theorem Plan.Shared.mul_carriedShare_le {plan : Plan} (h : plan.Shared) (most : Nat) :
    (most : ℚ) * carriedShare plan.ledger.completed ≤ most := by
  have hopen := openShare_nonneg plan.leaves
  unfold Shared at h
  exact mul_le_of_le_one_right (Nat.cast_nonneg most) (by linarith)

/-- The paths that are complete carry at most their share of the highest rate. -/
theorem Plan.Shared.exists_throughput {plan : Plan} (h : plan.Shared)
    (within : problem.RatesWithin most) (hmost : most < 2 ^ 63) :
    ∃ total, plan.throughput problem = .ok total ∧
      (total : ℚ) ≤ most * carriedShare plan.ledger.completed := by
  have hpart := h.mul_carriedShare_le most
  have hcast : (most : ℚ) < 2 ^ 63 := by exact_mod_cast hmost
  have hlimit : ((0 : Nat) : ℚ) + most * carriedShare plan.ledger.completed < 2 ^ 64 := by
    rw [Nat.cast_zero, zero_add]
    linarith
  obtain ⟨total, htotal, hbound⟩ := exists_sumRates within hmost hlimit
  exact ⟨total, htotal, by simpa using hbound⟩

end rates

end PacketPlan
