import Mathlib.Logic.Relation
import PacketPlan.Search.Heuristic
import PacketPlan.Proofs.Plan.Coverage
import PacketPlan.Proofs.Plan.Shares
import PacketPlan.Proofs.Proposal.Total

/-! # Looking ahead

A look-ahead is a walk: at each node it asks the techniques one after the other, goes down to the
first child with what the first answer would bind, and goes over to the controller where the switch
has no answer. A proposal binds one object at most, so what it would bind is bound without conflict
once it is admitted. All that can go wrong is that a technique which the walk asks cannot read the
call it is asked about, and then the look-ahead has just this fault. What is expected below the
leaves and what the complete paths carry add up to no more than the highest rate of a target, so
sums of rates never fail: the first look-ahead that does is the fault of the whole.
-/
namespace PacketPlan
open Checked

section first
variable {α : Type} {P Q : α → Prop}

theorem not_exists_first_nil :
    ¬∃ before y after, ([] : List α) = before ++ y :: after ∧ (∀ z ∈ before, P z) ∧ Q y := by
  rintro ⟨before, y, after, hsplit, _⟩
  simp at hsplit

/-- Going through a list up to the first member in question. -/
theorem exists_first_cons_iff {x : α} {xs : List α} :
    (∃ before y after, x :: xs = before ++ y :: after ∧ (∀ z ∈ before, P z) ∧ Q y) ↔
      Q x ∨ P x ∧ ∃ before y after, xs = before ++ y :: after ∧ (∀ z ∈ before, P z) ∧ Q y := by
  constructor
  · rintro ⟨before, y, after, hsplit, hbefore, hy⟩
    cases before with
    | nil =>
      cases hsplit
      exact .inl hy
    | cons z before =>
      cases hsplit
      obtain ⟨hz, hbefore⟩ := List.forall_mem_cons.mp hbefore
      exact .inr ⟨hz, before, y, after, rfl, hbefore, hy⟩
  · rintro (hx | ⟨hx, before, y, after, rfl, hbefore, hy⟩)
    · exact ⟨[], x, xs, rfl, nofun, hx⟩
    · exact ⟨x :: before, y, after, rfl, List.forall_mem_cons.mpr ⟨hx, hbefore⟩, hy⟩

end first

namespace Technique
variable {t : Technique} {problem : Problem} {plan : Plan} {node : NodeId} {b : Bindings}

theorem admits_of_admissible {p : Proposal} (h : admissible problem b p = true) :
    b.admits p.commits = true := by
  unfold admissible at h
  exact (Bool.and_eq_true_iff.mp h).1

theorem extend_proposal {ps : List Proposal} {p : Proposal}
    (hps : t.proposals problem.graph b node = .ok ps) (hp : p ∈ ps)
    (hadm : admissible problem b p = true) : (b.extend p.commits).Succeeds := by
  obtain ⟨_, _, means⟩ := proposals_meant hps hp
  exact Bindings.extend_succeeds_iff.mpr
    ⟨admits_of_admissible hadm, Delta.coherent_of_length_le_one means.length_commits⟩

theorem extend_speculation {speculation : Speculation}
    (h : t.speculate problem plan node b = .ok (some speculation)) :
    (b.extend speculation.delta).Succeeds := by
  obtain ⟨ps, hps, h⟩ := bind_eq_ok.mp h
  obtain ⟨p, hp, hfound⟩ := List.exists_of_findSome?_eq_some (Except.ok.inj h)
  obtain ⟨hp, hadm⟩ := List.mem_filter.mp hp
  split at hfound
  · cases hfound
  · cases hfound
    exact extend_proposal hps hp hadm

theorem speculate_succeeds (legible : problem.graph.Legible) (hnode : node < problem.graph.size) :
    (t.speculate problem plan node b).Succeeds := by
  apply (t.proposals_succeeds legible b hnode).bind
  intro ps _
  exact succeeds_ok _

theorem speculate_eq_error_iff {f : Fault} : t.speculate problem plan node b = .error f ↔
    t.proposals problem.graph b node = .error f := by
  refine bind_eq_error.trans ⟨?_, .inl⟩
  rintro (h | ⟨ps, _, h⟩)
  · exact h
  · cases h

end Technique

namespace Plan
variable {problem : Problem} {plan : Plan} {node : NodeId} {b : Bindings}

/-- The first technique that fails is the fault, if those before it have no answer. -/
theorem firstSpeculation_eq_error_iff {ts : List Technique} {f : Fault} :
    plan.firstSpeculation problem node b ts = .error f ↔
      ∃ before t after, ts = before ++ t :: after ∧
        (∀ u ∈ before, u.speculate problem plan node b = .ok none) ∧
        t.proposals problem.graph b node = .error f := by
  induction ts with
  | nil => exact iff_of_false nofun not_exists_first_nil
  | cons t ts ih =>
    rw [exists_first_cons_iff, ← ih, ← Technique.speculate_eq_error_iff]
    refine bind_eq_error.trans (or_congr_right ⟨?_, fun h => ⟨none, h⟩⟩)
    rintro ⟨found, hfound, h⟩
    cases found with
    | some speculation => cases h
    | none => exact ⟨hfound, h⟩

theorem firstSpeculation_eq_none_iff {ts : List Technique} :
    plan.firstSpeculation problem node b ts = .ok none ↔
      ∀ t ∈ ts, t.speculate problem plan node b = .ok none := by
  induction ts with
  | nil => exact iff_of_true rfl nofun
  | cons t ts ih =>
    rw [List.forall_mem_cons, ← ih]
    refine bind_eq_ok.trans ⟨?_, fun h => ⟨none, h⟩⟩
    rintro ⟨found, hfound, h⟩
    cases found with
    | some speculation => cases h
    | none => exact ⟨hfound, h⟩

theorem mem_of_firstSpeculation {ts : List Technique} {speculation : Speculation}
    (h : plan.firstSpeculation problem node b ts = .ok (some speculation)) :
    ∃ t ∈ ts, t.speculate problem plan node b = .ok (some speculation) := by
  induction ts with
  | nil => cases h
  | cons t ts ih =>
    obtain ⟨found, hfound, h⟩ := bind_eq_ok.mp h
    cases found with
    | some first =>
      cases h
      exact ⟨t, List.mem_cons_self, hfound⟩
    | none =>
      obtain ⟨u, hu, hspeculates⟩ := ih h
      exact ⟨u, List.mem_cons_of_mem t hu, hspeculates⟩

end Plan

/-! ## The walk -/

/-- Where a look-ahead stands: so many steps from its end, with what is bound by then. -/
structure Scout where
  ahead : Nat
  bindings : Bindings
  node : NodeId
  target : Target

namespace Scout
variable {problem : Problem} {plan : Plan} {s s' : Scout} {t : Technique} {f : Fault}

def ofLeaf (problem : Problem) (plan : Plan) (leaf : Leaf) : Scout :=
  ⟨problem.search.lookaheadNodes, plan.bindings, leaf.next, leaf.target⟩

def techniques (problem : Problem) (s : Scout) : List Technique :=
  (problem.catalog s.target).filter fun t => t.kind ≠ .sendToController

def finds (problem : Problem) (plan : Plan) (s : Scout) : Checked (Option Speculation) :=
  plan.firstSpeculation problem s.node s.bindings (s.techniques problem)

def result (problem : Problem) (plan : Plan) (s : Scout) : Checked (Option Target) :=
  plan.lookaheadFrom problem s.ahead s.bindings s.node s.target

/-- A technique is asked once those before it have no answer. -/
def Asks (problem : Problem) (plan : Plan) (s : Scout) (t : Technique) : Prop :=
  s.ahead ≠ 0 ∧ ∃ before after, s.techniques problem = before ++ t :: after ∧
    ∀ u ∈ before, u.speculate problem plan s.node s.bindings = .ok none

def Stops (problem : Problem) (plan : Plan) (s : Scout) : Prop :=
  s.ahead ≠ 0 ∧ s.finds problem plan = .ok none

/-- One step, down to the first child or over to the controller. -/
inductive Goes (problem : Problem) (plan : Plan) : Scout → Scout → Prop
  | down {k : Nat} {b b' : Bindings} {id child : NodeId} {target : Target} {node : Node}
      {others : List NodeId} {speculation : Speculation}
      (found : finds problem plan ⟨k + 1, b, id, target⟩ = .ok (some speculation))
      (bound : b.extend speculation.delta = .ok b')
      (present : problem.graph.node? id = some node) (children : node.children = child :: others) :
      Goes problem plan ⟨k + 1, b, id, target⟩ ⟨k, b', child, target⟩
  | across {k : Nat} {b : Bindings} {id : NodeId}
      (lacking : finds problem plan ⟨k + 1, b, id, .switch⟩ = .ok none)
      (enabled : problem.platform.enabled.contains .controller = true) :
      Goes problem plan ⟨k + 1, b, id, .switch⟩ ⟨k, b, id, .controller⟩

/-- What a look-ahead comes to: it goes one step further, or it is at its end. -/
inductive Comes (problem : Problem) (plan : Plan) (s : Scout) : Checked (Option Target) → Prop
  | done (ahead : s.ahead = 0) : Comes problem plan s (.ok (some s.target))
  | fails {t : Technique} {f : Fault} (asks : s.Asks problem plan t)
      (fault : t.proposals problem.graph s.bindings s.node = .error f) :
      Comes problem plan s (.error f)
  | ends {speculation : Speculation} {node : Node}
      (found : s.finds problem plan = .ok (some speculation))
      (present : problem.graph.node? s.node = some node) (last : node.children = []) :
      Comes problem plan s (.ok (some s.target))
  | stops (stuck : s.Stops problem plan)
      (stays : ¬(s.target = .switch ∧ problem.platform.enabled.contains .controller = true)) :
      Comes problem plan s (.ok none)
  | goes {s' : Scout} (step : s.Goes problem plan s') : Comes problem plan s (s'.result problem plan)

theorem Goes.result_eq (h : s.Goes problem plan s') :
    s.result problem plan = s'.result problem plan := by
  cases h with
  | @down k b b' id child target node others speculation found bound present children =>
    have hfirst : plan.firstSpeculation problem id b
        ((problem.catalog target).filter fun t => t.kind ≠ .sendToController) =
          .ok (some speculation) := found
    simp only [result, Plan.lookaheadFrom, hfirst, bound, Graph.node_eq_ok present, children, bind,
      Except.bind]
  | @across k b id lacking enabled =>
    have hfirst : plan.firstSpeculation problem id b
        ((problem.catalog .switch).filter fun t => t.kind ≠ .sendToController) = .ok none := lacking
    simp only [result, Plan.lookaheadFrom, hfirst, enabled, bind, Except.bind, true_and, if_true]

theorem comes_result (present : s.node < problem.graph.size) :
    s.Comes problem plan (s.result problem plan) := by
  obtain ⟨ahead, b, id, target⟩ := s
  cases ahead with
  | zero => exact .done rfl
  | succ k =>
    cases hfinds : finds problem plan ⟨k + 1, b, id, target⟩ with
    | error f =>
      obtain ⟨before, t, after, hsplit, hnone, hfails⟩ := Plan.firstSpeculation_eq_error_iff.mp hfinds
      have hresult : result problem plan ⟨k + 1, b, id, target⟩ = .error f :=
        bind_eq_error.mpr (.inl hfinds)
      rw [hresult]
      exact .fails ⟨Nat.succ_ne_zero k, before, after, hsplit, hnone⟩ hfails
    | ok found =>
      have hfirst : plan.firstSpeculation problem id b
          ((problem.catalog target).filter fun t => t.kind ≠ .sendToController) = .ok found := hfinds
      cases found with
      | some speculation =>
        obtain ⟨t, _, hspeculates⟩ := Plan.mem_of_firstSpeculation hfinds
        obtain ⟨b', bound⟩ := Technique.extend_speculation hspeculates
        have hn : problem.graph.node? id = some problem.graph.nodes[id] :=
          List.getElem?_eq_getElem present
        cases hchildren : problem.graph.nodes[id].children with
        | nil =>
          have hends : result problem plan ⟨k + 1, b, id, target⟩ = .ok (some target) := by
            simp only [result, Plan.lookaheadFrom, hfirst, bound, Graph.node_eq_ok hn, hchildren,
              bind, Except.bind]
          rw [hends]
          exact .ends hfinds hn hchildren
        | cons child others =>
          have step : Goes problem plan ⟨k + 1, b, id, target⟩ ⟨k, b', child, target⟩ :=
            .down hfinds bound hn hchildren
          rw [step.result_eq]
          exact .goes step
      | none =>
        by_cases hover : target = .switch ∧ problem.platform.enabled.contains .controller = true
        · obtain ⟨rfl, enabled⟩ := hover
          have step : Goes problem plan ⟨k + 1, b, id, .switch⟩ ⟨k, b, id, .controller⟩ :=
            .across hfinds enabled
          rw [step.result_eq]
          exact .goes step
        · have hstops : result problem plan ⟨k + 1, b, id, target⟩ = .ok none := by
            simp only [result, Plan.lookaheadFrom, hfirst, if_neg hover, bind, Except.bind]
          rw [hstops]
          exact .stops ⟨Nat.succ_ne_zero k, hfinds⟩ hover

theorem Goes.present (h : s.Goes problem plan s') (hg : problem.graph.IsTree)
    (present : s.node < problem.graph.size) : s'.node < problem.graph.size := by
  cases h with
  | down _ _ hn children =>
    exact hg.child_lt (Graph.child_iff.mpr ⟨_, hn, children ▸ List.mem_cons_self⟩)
  | across => exact present

theorem Goes.ahead (h : s.Goes problem plan s') : s.ahead = s'.ahead + 1 := by
  cases h <;> rfl

theorem Asks.result_eq (h : s.Asks problem plan t)
    (fault : t.proposals problem.graph s.bindings s.node = .error f) :
    s.result problem plan = .error f := by
  obtain ⟨ahead, b, id, target⟩ := s
  obtain ⟨hahead, before, after, hsplit, hnone⟩ := h
  obtain ⟨k, rfl⟩ := Nat.exists_eq_succ_of_ne_zero hahead
  exact bind_eq_error.mpr
    (.inl (Plan.firstSpeculation_eq_error_iff.mpr ⟨before, t, after, hsplit, hnone, fault⟩))

/-- The steps ahead run out, so what follows from the next step holds all along the walk. -/
theorem walk_induction (problem : Problem) (plan : Plan) {P : Scout → Prop}
    (step : ∀ s, (∀ s', s.Goes problem plan s' → P s') → P s) (s : Scout) : P s := by
  induction hahead : s.ahead generalizing s with
  | zero =>
    refine step s fun s' goes => ?_
    have := goes.ahead
    omega
  | succ k ih =>
    refine step s fun s' goes => ih s' ?_
    have := goes.ahead
    omega

/-- A look-ahead fails just when a technique does that it asks on its way, and that is where a call
cannot be read. -/
theorem result_eq_error_iff (hg : problem.graph.IsTree) (present : s.node < problem.graph.size) :
    s.result problem plan = .error f ↔
      ∃ s' t, Relation.ReflTransGen (Goes problem plan) s s' ∧ s'.Asks problem plan t ∧
        t.proposals problem.graph s'.bindings s'.node = .error f ∧
        problem.graph.Trips s'.node f := by
  constructor
  · induction s using walk_induction problem plan with
    | step s ih =>
      have hcomes : s.Comes problem plan _ := comes_result present
      generalize hresult : s.result problem plan = result at hcomes
      intro h
      cases hcomes with
      | done | ends | stops => cases h
      | @fails t f' asks fault =>
        cases h
        exact ⟨s, t, .refl, asks, fault, (t.proposals_meets s.bindings present).fault fault⟩
      | goes goes =>
        obtain ⟨s', t, walk, found⟩ := ih _ goes (goes.present hg present) h
        exact ⟨s', t, .head goes walk, found⟩
  · rintro ⟨s', t, walk, asks, fault, _⟩
    induction walk using Relation.ReflTransGen.head_induction_on with
    | refl => exact asks.result_eq fault
    | head goes _ ih => rw [goes.result_eq, ih (goes.present hg present)]

end Scout

/-! ## Expected rates -/

namespace Plan
variable {problem : Problem} {plan : Plan} {most : Nat}

theorem lookahead_le (within : problem.RatesWithin most) (hmost : most < 2 ^ 63) {leaf : Leaf}
    {rate : Nat} (h : plan.lookahead problem leaf = .ok rate) :
    (rate : ℚ) ≤ most * share leaf.branchDepth := by
  obtain ⟨found, _, h⟩ := bind_eq_ok.mp h
  cases found with
  | none =>
    cases h
    rw [Nat.cast_zero]
    exact mul_nonneg (Nat.cast_nonneg most) (share_nonneg _)
  | some target =>
    obtain ⟨rate', hrate, hle⟩ :=
      CompletedPath.exists_rate ⟨leaf.branchDepth, target, leaf.recirculations⟩ within hmost
    cases hrate.symm.trans h
    exact hle

/-- The rate itself never fails, so what fails is the walk. -/
theorem lookahead_eq_error_iff (hg : problem.graph.IsTree) (within : problem.RatesWithin most)
    (hmost : most < 2 ^ 63) {leaf : Leaf} (present : leaf.next < problem.graph.size) {f : Fault} :
    plan.lookahead problem leaf = .error f ↔
      ∃ s t, Relation.ReflTransGen (Scout.Goes problem plan) (.ofLeaf problem plan leaf) s ∧
        s.Asks problem plan t ∧ t.proposals problem.graph s.bindings s.node = .error f ∧
        problem.graph.Trips s.node f := by
  rw [← Scout.result_eq_error_iff hg present]
  refine bind_eq_error.trans ⟨?_, .inl⟩
  rintro (h | ⟨found, _, h⟩)
  · exact h
  · cases found with
    | none => cases h
    | some target =>
      obtain ⟨rate, hrate, _⟩ :=
        CompletedPath.exists_rate ⟨leaf.branchDepth, target, leaf.recirculations⟩ within hmost
      cases hrate.symm.trans h

theorem sumLookaheads_le (within : problem.RatesWithin most) (hmost : most < 2 ^ 63)
    {acc total : Nat} {leaves : List Leaf} (h : plan.sumLookaheads problem acc leaves = .ok total) :
    (total : ℚ) ≤ acc + most * openShare leaves := by
  induction leaves generalizing acc with
  | nil =>
    cases h
    simp
  | cons l leaves ih =>
    obtain ⟨rate, hrate, h⟩ := bind_eq_ok.mp h
    obtain ⟨sum, hsum, h⟩ := bind_eq_ok.mp h
    have hle := lookahead_le within hmost hrate
    have hrest := ih h
    rw [Checked.eq_add_of_add hsum] at hrest
    push_cast at hrest
    rw [openShare_cons]
    linarith

theorem sumLookaheads_eq_error_iff (within : problem.RatesWithin most) (hmost : most < 2 ^ 63)
    {acc : Nat} {leaves : List Leaf} {f : Fault}
    (hlimit : (acc : ℚ) + most * openShare leaves < 2 ^ 64) :
    plan.sumLookaheads problem acc leaves = .error f ↔
      ∃ before leaf after, leaves = before ++ leaf :: after ∧
        (∀ l ∈ before, (plan.lookahead problem l).Succeeds) ∧
        plan.lookahead problem leaf = .error f := by
  induction leaves generalizing acc with
  | nil => exact iff_of_false nofun not_exists_first_nil
  | cons l leaves ih =>
    rw [exists_first_cons_iff]
    cases hl : plan.lookahead problem l with
    | error e =>
      have hsum : plan.sumLookaheads problem acc (l :: leaves) = .error e :=
        bind_eq_error.mpr (.inl hl)
      rw [hsum]
      refine ⟨.inl, fun h => h.resolve_right ?_⟩
      rintro ⟨⟨rate, hrate⟩, _⟩
      cases hrate
    | ok rate =>
      have hmore : 0 ≤ (most : ℚ) * openShare leaves :=
        mul_nonneg (Nat.cast_nonneg most) (openShare_nonneg leaves)
      rw [openShare_cons, mul_add] at hlimit
      obtain ⟨hadd, hrest⟩ := Checked.exists_add (lookahead_le within hmost hl) hmore hlimit
      have hsum : plan.sumLookaheads problem acc (l :: leaves) =
          plan.sumLookaheads problem (acc + rate) leaves := by
        rw [sumLookaheads, hl]
        change (Checked.add acc rate >>= _) = _
        rw [hadd]
        rfl
      rw [hsum, ih hrest]
      refine ⟨fun h => .inr ⟨⟨rate, rfl⟩, h⟩, ?_⟩
      rintro (hfails | ⟨_, h⟩)
      · cases hfails
      · exact h

namespace Shared

/-- The look-aheads are no reason for the rates to overflow. -/
theorem openShare_limit (h : plan.Shared) (hmost : most < 2 ^ 63) :
    ((0 : Nat) : ℚ) + most * openShare plan.leaves < 2 ^ 64 := by
  have hcast : (most : ℚ) < 2 ^ 63 := by exact_mod_cast hmost
  have hle : (most : ℚ) * openShare plan.leaves ≤ most := by
    have hcarried := carriedShare_nonneg plan.ledger.completed
    unfold Shared at h
    exact mul_le_of_le_one_right (Nat.cast_nonneg most) (by linarith)
  rw [Nat.cast_zero, zero_add]
  linarith

theorem add_le (h : plan.Shared) {complete expected : Nat}
    (hcomplete : (complete : ℚ) ≤ most * carriedShare plan.ledger.completed)
    (hexpected : (expected : ℚ) ≤ ((0 : Nat) : ℚ) + most * openShare plan.leaves) :
    complete + expected ≤ most := by
  have hopen : (most : ℚ) * openShare plan.leaves +
      most * carriedShare plan.ledger.completed = most := by
    rw [← mul_add, h, mul_one]
  rw [Nat.cast_zero, zero_add] at hexpected
  have hboth : ((complete + expected : Nat) : ℚ) ≤ most := by
    push_cast
    linarith
  exact_mod_cast hboth

theorem speculativeThroughput_le (h : plan.Shared) (within : problem.RatesWithin most)
    (hmost : most < 2 ^ 63) {expected : Nat}
    (hexpected : plan.speculativeThroughput problem = .ok expected) : expected ≤ most := by
  obtain ⟨complete, hcomplete, hexpected⟩ := bind_eq_ok.mp hexpected
  obtain ⟨ahead, hahead, hexpected⟩ := bind_eq_ok.mp hexpected
  obtain ⟨total, htotal, hle⟩ := h.exists_throughput within hmost
  cases htotal.symm.trans hcomplete
  rw [Checked.eq_add_of_add hexpected]
  exact h.add_le hle (sumLookaheads_le within hmost hahead)

theorem speculativeThroughput_eq_error_iff (h : plan.Shared) (within : problem.RatesWithin most)
    (hmost : most < 2 ^ 63) {f : Fault} : plan.speculativeThroughput problem = .error f ↔
      ∃ before leaf after, plan.leaves = before ++ leaf :: after ∧
        (∀ l ∈ before, (plan.lookahead problem l).Succeeds) ∧
        plan.lookahead problem leaf = .error f := by
  obtain ⟨complete, hcomplete, hcarried⟩ := h.exists_throughput within hmost
  rw [← sumLookaheads_eq_error_iff within hmost (h.openShare_limit hmost)]
  refine bind_eq_error.trans ⟨?_, fun hahead => .inr ⟨complete, hcomplete, ?_⟩⟩
  · rintro (hfails | ⟨complete', hcomplete', hfails⟩)
    · cases hcomplete.symm.trans hfails
    · cases hcomplete.symm.trans hcomplete'
      rcases bind_eq_error.mp hfails with hahead | ⟨ahead, hahead, hadd⟩
      · exact hahead
      · have hsum := h.add_le hcarried (sumLookaheads_le within hmost hahead)
        have hfits : Checked.add complete ahead = .ok (complete + ahead) := by
          apply Checked.add_eq_ok
          rw [Word.limit]
          omega
        cases hfits.symm.trans hadd
  · exact bind_eq_error.mpr (.inl hahead)

theorem exists_speculativeThroughput (h : plan.Shared) (hg : problem.graph.IsTree)
    (legible : problem.graph.Legible) (within : problem.RatesWithin most) (hmost : most < 2 ^ 63)
    (present : ∀ l ∈ plan.leaves, l.next < problem.graph.size) :
    ∃ total, plan.speculativeThroughput problem = .ok total ∧ total ≤ most := by
  cases hexpected : plan.speculativeThroughput problem with
  | ok expected => exact ⟨expected, rfl, h.speculativeThroughput_le within hmost hexpected⟩
  | error f =>
    obtain ⟨before, leaf, after, hleaves, _, hfails⟩ :=
      (h.speculativeThroughput_eq_error_iff within hmost).mp hexpected
    have hleaf : leaf.next < problem.graph.size := present leaf (by rw [hleaves]; simp)
    obtain ⟨s, t, _, _, _, trips⟩ := (lookahead_eq_error_iff hg within hmost hleaf).mp hfails
    exact absurd trips legible.not_trips

end Shared

end Plan

end PacketPlan
