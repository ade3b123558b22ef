import Mathlib.Data.Finset.Max
import PacketPlan.Proofs.Plan.Lookahead
import PacketPlan.Proofs.Plan.Potential

/-! # Throughput within capacity

The shares of the traffic below the leaves and along the completed paths make up the whole, so what
a plan carries, and what it is expected to carry, is at most what the fastest target does. Rates are
added up without overflow and can be read as signed words. What can fail is not the arithmetic of
rates but a technique on the way ahead: a key and a value may be too wide to be sent in one digest.
-/
namespace PacketPlan

theorem Word.toSigned_of_lt {n : Nat} (h : n < 2 ^ 63) : Word.toSigned n = n := by
  unfold Word.toSigned
  exact if_pos h

theorem Problem.exists_fastest {g : Graph} {c : Config} {problem : Problem}
    (posed : Problem.ofConfig g c = .ok problem) :
    ∃ fastest ∈ c.targets.enabled, ∀ t ∈ c.targets.enabled, c.capacity t ≤ c.capacity fastest := by
  obtain ⟨hvalid, _⟩ := Problem.ofConfig_eq_ok.mp posed
  obtain ⟨hinitial, _⟩ := c.validate_eq_ok_iff.mp hvalid
  have hsome : c.targets.enabled.toFinset.Nonempty :=
    ⟨c.targets.initial, List.mem_toFinset.mpr hinitial⟩
  obtain ⟨fastest, hfastest, hmost⟩ := Finset.exists_max_image _ c.capacity hsome
  exact ⟨fastest, List.mem_toFinset.mp hfastest, fun t ht => hmost t (List.mem_toFinset.mpr ht)⟩

theorem Heuristic.evaluate_maxThroughput {problem : Problem} {plan : Plan} {expected : Nat}
    (h : plan.speculativeThroughput problem = .ok expected) (hlt : expected < 2 ^ 63)
    (best : Best) :
    maxThroughput.evaluate best problem plan =
      .ok [if beats best expected then 1 else 0, expected, plan.progress] := by
  refine bind_eq_ok.mpr ⟨expected, h, ?_⟩
  rw [Word.toSigned_of_lt hlt]

/-- The shares of a derived plan make up the whole. What it carries, and what it is expected to
carry, is at most what the fastest target does, and enters a score as it is. The sums of rates never
fail: what is expected fails just when the look-ahead of a leaf does, and with the fault of the
first that does. A look-ahead in turn has just the faults of the techniques that it asks on its way,
at a node whose call cannot be read. So there is always something to expect where all calls can
be. -/
theorem throughput_within_capacity {kinds : List NodeKind} {root : NodeId} {g : Graph} {c : Config}
    {problem : Problem} {choices : List Choice} {plan : Plan}
    (accepted : Graph.ofKinds kinds root = .ok g) (posed : Problem.ofConfig g c = .ok problem)
    (bounded : ∀ t ∈ c.targets.enabled, c.capacity t * 1000 < 2 ^ 63)
    (derived : Derives problem choices plan) :
    (plan.leaves.map fun l => (1 / 2 : ℚ) ^ l.branchDepth).sum +
        (plan.ledger.completed.map fun p => (1 / 2 : ℚ) ^ p.branchDepth).sum = 1 ∧
      ∃ fastest ∈ c.targets.enabled, (∀ t ∈ c.targets.enabled, c.capacity t ≤ c.capacity fastest) ∧
        (∃ carried, plan.throughput problem = .ok carried ∧ carried ≤ c.capacity fastest * 1000) ∧
        (∀ expected, plan.speculativeThroughput problem = .ok expected →
          expected ≤ c.capacity fastest * 1000 ∧
            ∀ best, Heuristic.maxThroughput.evaluate best problem plan =
              .ok [if Heuristic.beats best expected then 1 else 0, expected, plan.progress]) ∧
        (∀ f, plan.speculativeThroughput problem = .error f ↔
          ∃ before leaf after, plan.leaves = before ++ leaf :: after ∧
            (∀ l ∈ before, ∃ rate, plan.lookahead problem l = .ok rate) ∧
            plan.lookahead problem leaf = .error f) ∧
        (∀ leaf ∈ plan.leaves, ∀ f, plan.lookahead problem leaf = .error f ↔
          ∃ s t, Relation.ReflTransGen (Scout.Goes problem plan) (.ofLeaf problem plan leaf) s ∧
            s.Asks problem plan t ∧ t.proposals g s.bindings s.node = .error f ∧
            g.Trips s.node f) ∧
        (g.Legible → ∃ expected, plan.speculativeThroughput problem = .ok expected) := by
  have wp := Problem.wellPosed_of_ofConfig accepted posed
  have lawful := derived.lawful wp
  have shared := derived.shared
  obtain ⟨fastest, hfastest, hmost⟩ := Problem.exists_fastest posed
  have hlimit := bounded fastest hfastest
  have hwithin : problem.RatesWithin (c.capacity fastest * 1000) :=
    Problem.ratesWithin_of_ofConfig posed fun t ht => Nat.mul_le_mul_right 1000 (hmost t ht)
  have hgraph : problem.graph = g := by rw [Problem.eq_of_ofConfig posed]
  have hpresent : ∀ l ∈ plan.leaves, l.next < problem.graph.size :=
    fun l hl => lawful.leaf_present wp.tree hl
  refine ⟨shared, fastest, hfastest, hmost, ?_, ?_, ?_, ?_, ?_⟩
  · obtain ⟨carried, hcarried, hle⟩ := shared.exists_throughput hwithin hlimit
    exact ⟨carried, hcarried, by exact_mod_cast hle.trans (shared.mul_carriedShare_le _)⟩
  · intro expected hexpected
    have hle := shared.speculativeThroughput_le hwithin hlimit hexpected
    exact ⟨hle, Heuristic.evaluate_maxThroughput hexpected (Nat.lt_of_le_of_lt hle hlimit)⟩
  · intro f
    exact shared.speculativeThroughput_eq_error_iff hwithin hlimit
  · intro leaf hleaf f
    rw [← hgraph]
    exact Plan.lookahead_eq_error_iff wp.tree hwithin hlimit (hpresent leaf hleaf)
  · intro legible
    obtain ⟨expected, hexpected, _⟩ :=
      shared.exists_speculativeThroughput wp.tree (hgraph ▸ legible) hwithin hlimit hpresent
    exact ⟨expected, hexpected⟩

def twoEnds : List NodeKind :=
  [.terminal (.forward 1), .terminal .drop, .branch (.term "c" 1) 0 1]

/-- With one side of the branch complete, half of the capacity is carried and the other half is
expected. -/
theorem half_complete_branch_within_capacity :
    ∃ g problem plan, Graph.ofKinds twoEnds 2 = .ok g ∧ Problem.ofConfig g {} = .ok problem ∧
      Derives problem [(⟨.switch, .route⟩, 0), (⟨.switch, .branch⟩, 0)] plan ∧
      plan.leaves.map Leaf.branchDepth = [1] ∧
      plan.ledger.completed.map CompletedPath.branchDepth = [1] ∧
      plan.throughput problem = .ok 1600000 ∧ plan.speculativeThroughput problem = .ok 3200000 ∧
      (plan.leaves.map fun l => (1 / 2 : ℚ) ^ l.branchDepth).sum +
        (plan.ledger.completed.map fun p => (1 / 2 : ℚ) ^ p.branchDepth).sum = 1 ∧
      ∃ fastest ∈ ({} : Config).targets.enabled, 3200000 ≤ ({} : Config).capacity fastest * 1000 ∧
        Heuristic.maxThroughput.evaluate none problem plan = .ok [1, 3200000, 2] := by
  obtain ⟨g, accepted⟩ : ∃ g, Graph.ofKinds twoEnds 2 = .ok g := ⟨_, rfl⟩
  obtain ⟨problem, posed, plan, derived, hleaves, hcompleted, hcarried, hexpected, hfar⟩ :
      ∃ problem, Problem.ofConfig g {} = .ok problem ∧ ∃ plan,
        Derives problem [(⟨.switch, .route⟩, 0), (⟨.switch, .branch⟩, 0)] plan ∧
        plan.leaves.map Leaf.branchDepth = [1] ∧
        plan.ledger.completed.map CompletedPath.branchDepth = [1] ∧
        plan.throughput problem = .ok 1600000 ∧ plan.speculativeThroughput problem = .ok 3200000 ∧
        plan.progress = 2 := by
    cases accepted
    exact ⟨_, rfl, _, derives_of_replay rfl, rfl, rfl, by decide +kernel, by decide +kernel, rfl⟩
  obtain ⟨hshares, fastest, hfastest, _, _, hahead, _, _, _⟩ :=
    throughput_within_capacity accepted posed (by decide) derived
  obtain ⟨hle, hevaluate⟩ := hahead _ hexpected
  refine ⟨g, problem, plan, accepted, posed, derived, hleaves, hcompleted, hcarried, hexpected,
    hshares, fastest, hfastest, hle, ?_⟩
  rw [hevaluate, hfar]
  rfl

/-- A table that learns a value under a key of all the bits a width can count. -/
def wideLearn : List NodeKind :=
  [.terminal .drop,
    .call {
      function := "map_put"
      args := .ofList
        [("obj", .addr ⟨1⟩), ("key", .term "k" (2 ^ 32 - 1)), ("value", .term "v" 1)]
      next := some 0 },
    .call { function := "map_allocate", args := .ofList [("obj", .addr ⟨1⟩)], next := some 1 }]

/-- The digest of key and value is too wide to be counted, so nothing is expected of the empty plan:
its expected throughput is a sum that overflows, however low the capacities are. -/
theorem wide_digest_overflows_ahead :
    ∃ g problem, Graph.ofKinds wideLearn 2 = .ok g ∧ Problem.ofConfig g {} = .ok problem ∧
      (∀ t ∈ ({} : Config).targets.enabled, ({} : Config).capacity t * 1000 < 2 ^ 63) ∧
      Derives problem [] (.empty problem 0) ∧
      (Plan.empty problem 0).speculativeThroughput problem = .error .addOverflow := by
  exact ⟨_, _, rfl, rfl, by decide, .root 0, rfl⟩

end PacketPlan
