import Mathlib.Logic.Relation
import PacketPlan.Proofs.Plan.Recirculation
import PacketPlan.Proofs.Plan.Throughput

/-! # What a plan can still come to

Below a leaf, paths end on its target or, from the switch, on the controller, never with fewer
passes and never with more than the leaf's share of the traffic. This gives every leaf a ceiling. It
is lower if the switch refuses a node below the leaf: the path to this node leaves the switch before
it, at the latest below the branches in between, and only their other sides are free. Where the
controller refuses a node as well, no plan is ever finished. A step never raises what the complete
paths carry and what the leaves are bounded by together.
-/
namespace PacketPlan

theorem shareBelow_succ_add {rate : Nat} (h : rate < 2 ^ 63) (d : Nat) :
    shareBelow rate (d + 1) + shareBelow rate (d + 1) ≤ shareBelow rate d := by
  unfold shareBelow
  by_cases hd : d < 63
  · rw [min_eq_left (by omega), min_eq_left (by omega), Nat.shiftRight_succ]
    omega
  · rw [min_eq_right (by omega), min_eq_right (by omega), Nat.shiftRight_eq_div_pow,
      Nat.div_eq_of_lt h]

theorem shareBelow_mono {rate rate' : Nat} (h : rate ≤ rate') (d : Nat) :
    shareBelow rate d ≤ shareBelow rate' d := by
  unfold shareBelow
  rw [Nat.shiftRight_eq_div_pow, Nat.shiftRight_eq_div_pow]
  exact Nat.div_le_div_right h

/-! ## Ceilings -/

namespace CompletedPath
variable {problem : Problem} {most : Nat}

def carried (problem : Problem) (p : CompletedPath) : Nat :=
  shareBelow (problem.platform.capacity p.target * 1000 / (1 + p.recirculations)) p.branchDepth

theorem rate_eq (p : CompletedPath) (within : problem.RatesWithin most) (hmost : most < 2 ^ 63) :
    p.rate (problem.platform.capacity p.target) = .ok (p.carried problem) := by
  have hmul : Checked.mul (problem.platform.capacity p.target) 1000 =
      .ok (problem.platform.capacity p.target * 1000) := by
    apply Checked.mul_eq_ok
    have := within p.target
    rw [Word.limit]
    omega
  rw [CompletedPath.rate, pathRate, hmul]
  rfl

theorem carried_recirculated (problem : Problem) (t : Target) (depth passes : Nat) :
    carried problem ⟨depth, t, passes + 1⟩ ≤ carried problem ⟨depth, t, passes⟩ := by
  have hpasses : 1 + passes ≤ 1 + (passes + 1) := by omega
  exact shareBelow_mono (Nat.div_le_div_left hpasses (by omega)) _

theorem carried_branch (within : problem.RatesWithin most) (hmost : most < 2 ^ 63) (t : Target)
    (depth passes : Nat) : carried problem ⟨depth + 1, t, passes⟩ +
      carried problem ⟨depth + 1, t, passes⟩ ≤ carried problem ⟨depth, t, passes⟩ := by
  have hlt : problem.platform.capacity t * 1000 / (1 + passes) < 2 ^ 63 :=
    Nat.lt_of_le_of_lt ((Nat.div_le_self _ _).trans (within t)) hmost
  exact shareBelow_succ_add hlt depth

theorem carried_mono {t t' : Target}
    (h : problem.platform.capacity t ≤ problem.platform.capacity t')
    (depth passes : Nat) : carried problem ⟨depth, t, passes⟩ ≤ carried problem ⟨depth, t', passes⟩ :=
  shareBelow_mono (Nat.div_le_div_right (Nat.mul_le_mul_right 1000 h)) _

end CompletedPath

open CompletedPath

/-- The most that the paths below can carry, so deep on a target and after so many passes. -/
def ceilingAt (problem : Problem) (t : Target) (depth passes : Nat) : Nat :=
  max (carried problem ⟨depth, t, passes⟩)
    (if t = .switch then carried problem ⟨depth, .controller, passes⟩ else 0)

/-- The same on the switch, if a path leaves it below so many further branches at the latest. The
other sides of the branches above are free. -/
def ceilingLeaving (problem : Problem) (depth passes : Nat) : Nat → Nat
  | 0 => carried problem ⟨depth, .controller, passes⟩
  | k + 1 => max (carried problem ⟨depth, .controller, passes⟩)
      (ceilingAt problem .switch (depth + 1) passes + ceilingLeaving problem (depth + 1) passes k)

section ceilings
variable {problem : Problem} {most : Nat}

theorem ceilingAt_of_ne {t : Target} (h : t ≠ .switch) (depth passes : Nat) :
    ceilingAt problem t depth passes = carried problem ⟨depth, t, passes⟩ := by
  rw [ceilingAt, if_neg h, Nat.max_zero]

theorem carried_le_ceilingAt (t : Target) (depth passes : Nat) :
    carried problem ⟨depth, t, passes⟩ ≤ ceilingAt problem t depth passes :=
  Nat.le_max_left _ _

theorem ceilingAt_controller_le (depth passes : Nat) :
    ceilingAt problem .controller depth passes ≤ ceilingAt problem .switch depth passes := by
  rw [ceilingAt_of_ne (by decide)]
  exact Nat.le_max_right _ _

theorem ceilingAt_recirculated (t : Target) (depth passes : Nat) :
    ceilingAt problem t depth (passes + 1) ≤ ceilingAt problem t depth passes := by
  refine max_le_max (carried_recirculated ..) ?_
  split
  · exact carried_recirculated ..
  · exact Nat.le_refl 0

theorem ceilingAt_branch (within : problem.RatesWithin most) (hmost : most < 2 ^ 63) (t : Target)
    (depth passes : Nat) : ceilingAt problem t (depth + 1) passes +
      ceilingAt problem t (depth + 1) passes ≤ ceilingAt problem t depth passes := by
  have hown := carried_branch within hmost t depth passes
  have hother := carried_branch within hmost .controller depth passes
  unfold ceilingAt
  split <;> omega

theorem ceilingAt_eq_or_faster (t : Target) (depth passes : Nat) :
    ceilingAt problem t depth passes = carried problem ⟨depth, t, passes⟩ ∨
      t = .switch ∧ problem.platform.capacity .switch < problem.platform.capacity .controller := by
  by_cases ht : t = .switch
  · subst ht
    rcases Nat.lt_or_ge (problem.platform.capacity .switch)
      (problem.platform.capacity .controller) with hfaster | hslower
    · exact .inr ⟨rfl, hfaster⟩
    · left
      rw [ceilingAt, if_pos rfl]
      exact Nat.max_eq_left (carried_mono hslower depth passes)
  · exact .inl (ceilingAt_of_ne ht depth passes)

theorem carried_le_ceilingLeaving (depth passes k : Nat) :
    carried problem ⟨depth, .controller, passes⟩ ≤ ceilingLeaving problem depth passes k := by
  cases k with
  | zero => exact Nat.le_refl _
  | succ k => exact Nat.le_max_left _ _

theorem ceilingLeaving_recirculated (depth passes k : Nat) :
    ceilingLeaving problem depth (passes + 1) k ≤ ceilingLeaving problem depth passes k := by
  induction k generalizing depth with
  | zero => exact carried_recirculated ..
  | succ k ih =>
    exact max_le_max (carried_recirculated ..) (Nat.add_le_add (ceilingAt_recirculated ..) (ih _))

end ceilings

namespace Leaf

def endOn (l : Leaf) (t : Target) : CompletedPath := ⟨l.branchDepth, t, l.recirculations⟩

def ceiling (problem : Problem) (l : Leaf) : Nat :=
  ceilingAt problem l.target l.branchDepth l.recirculations

theorem ceiling_of_switch {problem : Problem} (l : Leaf) (onSwitch : l.target = .switch) :
    l.ceiling problem = ceilingAt problem .switch l.branchDepth l.recirculations := by
  rw [ceiling, onSwitch]

def again (l : Leaf) : Leaf := { l with passDeps := ∅, recirculations := l.recirculations + 1 }

end Leaf

/-! ## Turns -/

/-- From one node down to another, with so many branches on the way. -/
inductive Graph.Descends (g : Graph) : NodeId → Nat → NodeId → Prop
  | refl (n : NodeId) : Descends g n 0 n
  | next {n child m : NodeId} {k : Nat} {node : Node} (present : g.node? n = some node)
      (children : node.children = [child]) (below : Descends g child k m) : Descends g n k m
  | branch {n child m : NodeId} {k : Nat} {node : Node} (present : g.node? n = some node)
      (forks : node.children.length = 2) (side : child ∈ node.children)
      (below : Descends g child k m) : Descends g n (k + 1) m

theorem Graph.Descends.trans {g : Graph} {n m m' : NodeId} {k k' : Nat} (h : g.Descends n k m)
    (h' : g.Descends m k' m') : g.Descends n (k + k') m' := by
  induction h with
  | refl => rwa [Nat.zero_add]
  | next present children _ ih => exact .next present children (ih h')
  | branch present forks side _ ih =>
    rw [Nat.succ_add]
    exact .branch present forks side (ih h')

theorem Graph.Descends.first {g : Graph} {n m : NodeId} {k : Nat} {node : Node}
    (h : g.Descends n k m) (apart : n ≠ m) (present : g.node? n = some node) :
    (∃ child, node.children = [child] ∧ g.Descends child k m) ∨
      ∃ k', k = k' + 1 ∧ node.children.length = 2 ∧
        ∃ child ∈ node.children, g.Descends child k' m := by
  cases h with
  | refl => exact absurd rfl apart
  | next present' children below =>
    cases present.symm.trans present'
    exact .inl ⟨_, children, below⟩
  | branch present' forks side below =>
    cases present.symm.trans present'
    exact .inr ⟨_, rfl, forks, _, side, below⟩

namespace Plan

/-- One candidate of one technique further. -/
def Expands (problem : Problem) (plan after : Plan) : Prop :=
  ∃ t ∈ problem.techniques, ∃ supply e left, t.expand problem plan supply = .ok (e, left) ∧
    ∃ c ∈ e.candidates, c.plan = after

abbrev ComesTo (problem : Problem) : Plan → Plan → Prop := Relation.ReflTransGen (Expands problem)

/-- At the active leaf, the technique proposes what is admitted and can be placed, for the path to
go on on its target. -/
structure Takes (problem : Problem) (plan : Plan) (leaf : Leaf) (t : Technique) (p : Proposal) :
    Prop where
  active : plan.activeLeaf? = some leaf
  known : t ∈ problem.techniques
  target_eq : t.target = leaf.target
  kind_ne : t.kind ≠ .sendToController
  proposed : ∃ ps, t.proposals problem.graph plan.bindings leaf.next = .ok ps ∧ p ∈ ps
  admissible : Technique.admissible problem plan.bindings p = true
  placed : ∃ result, p.place leaf.passDeps plan.resources = .ok result

def MayTake (problem : Problem) (plan : Plan) (n : NodeId) (target : Target) : Prop :=
  ∃ later leaf t p, plan.ComesTo problem later ∧ later.Takes problem leaf t p ∧ leaf.next = n ∧
    leaf.target = target

/-- What a step makes of the active leaf: the leaves that take its place, or the path that ends. -/
inductive Turn (problem : Problem) (plan : Plan) (l : Leaf) : List Leaf → List CompletedPath → Prop
  | stop {t : Technique} {p : Proposal} {node : Node} (takes : plan.Takes problem l t p)
      (present : problem.graph.node? l.next = some node) (children : node.children = []) :
      Turn problem plan l [] [l.endOn l.target]
  | next {t : Technique} {p : Proposal} {node : Node} {n : NodeId} {placed : List SwitchObject}
      {attach : Option PlanNodeId} (takes : plan.Takes problem l t p)
      (present : problem.graph.node? l.next = some node) (children : node.children = [n]) :
      Turn problem plan l [{ l.advance n placed with attach }] []
  | branch {t : Technique} {p : Proposal} {node : Node} {n n' : NodeId} {placed : List SwitchObject}
      {attach : Option PlanNodeId} (takes : plan.Takes problem l t p)
      (present : problem.graph.node? l.next = some node) (children : node.children = [n, n']) :
      Turn problem plan l [{ l.branch n placed with attach }, { l.branch n' placed with attach }] []
  | handOver {attach : Option PlanNodeId} (onSwitch : l.target = .switch)
      (enabled : problem.platform.enabled.contains .controller = true) :
      Turn problem plan l [{ l.transfer .controller l.next with attach }] []
  | revisit (onSwitch : l.target = .switch) : Turn problem plan l [l.again] []

variable {problem : Problem} {plan after : Plan} {l : Leaf}

theorem Offer.takes {rest : List Leaf} {t : Technique} {p : Proposal} {k : NodeKind}
    (offer : Offer problem plan l rest t p) (follows : p.next.Follows k)
    (placed : ∃ result, p.place l.passDeps plan.resources = .ok result) :
    plan.Takes problem l t p := by
  have hp : p ≠ Technique.revisit l := by
    rintro rfl
    cases k <;> exact follows.elim
  obtain ⟨ps, hps, hmem⟩ := offer.proposed hp
  refine ⟨?_, offer.known, offer.target_eq.symm, ?_, ⟨ps, hps, hmem⟩, offer.admissible, placed⟩
  · rw [activeLeaf?, offer.active]
    rfl
  · intro hkind
    rw [(Technique.proposal_of_sendToController hkind hps hmem).2] at follows
    cases k <;> exact follows.elim

theorem turn_of_follows {t : Technique} {p : Proposal} {node : Node}
    (takes : plan.Takes problem l t p) (present : problem.graph.node? l.next = some node)
    (follows : p.next.Follows node.kind) (placed : List SwitchObject)
    (attach : Option PlanNodeId) :
    Turn problem plan l ((p.next.leaves l placed).map fun x => { x with attach })
      (if (p.next.leaves l placed).isEmpty then [l.endOn l.target] else []) := by
  have hchildren : node.children = node.kind.children := rfl
  generalize p.next = next at follows
  cases hk : node.kind with
  | call c =>
    rw [hk] at follows hchildren
    cases next with
    | next n =>
      have hn : c.next = some n := follows
      refine .next takes present ?_
      rw [hchildren, NodeKind.children, hn]
      rfl
    | _ => exact follows.elim
  | branch condition n n' =>
    rw [hk] at follows hchildren
    cases next with
    | branch m m' =>
      obtain ⟨rfl, rfl⟩ := follows
      exact .branch takes present hchildren
    | _ => exact follows.elim
  | terminal route =>
    rw [hk] at follows hchildren
    cases next with
    | stop => exact .stop takes present hchildren
    | _ => exact follows.elim

theorem Step.turns (step : plan.Step problem after) :
    ∃ leaf rest children ended, plan.leaves = leaf :: rest ∧ after.leaves = children ++ rest ∧
      after.ledger.completed = plan.ledger.completed ++ ended ∧
      Turn problem plan leaf children ended := by
  cases step with
  | @pass leaf rest t p node n id bindings offer present silent goes follows places bound fresh =>
    have hplaced := Technique.place_of_nil places leaf.passDeps plan.resources
    have hturn := turn_of_follows (offer.takes follows ⟨_, hplaced⟩) present follows p.objects
      leaf.attach
    rw [goes] at hturn ⊢
    exact ⟨leaf, rest, _, _, offer.active, rfl, (List.append_nil _).symm, hturn⟩
  | @act leaf rest t p node a id bindings stages resources offer present acts keeps follows places
      bound placed =>
    exact ⟨leaf, rest, _, _, offer.active, attached_leaves, attached_completed,
      turn_of_follows (offer.takes follows ⟨_, placed⟩) present follows _ _⟩
  | @handOver leaf rest t p _ _ _ _ offer _ onSwitch _ goes =>
    have hadm := offer.admissible
    rw [Technique.admissible, goes, Bool.and_eq_true] at hadm
    exact ⟨leaf, rest, _, _, offer.active, attached_leaves, attached_completed,
      .handOver onSwitch hadm.2⟩
  | @revisit leaf rest t id offer onSwitch =>
    exact ⟨leaf, rest, [leaf.again], [], offer.active, rfl, (List.append_nil _).symm,
      .revisit onSwitch⟩

/-! ## Runs -/

theorem Expands.derives {choices : List Choice} (h : plan.Expands problem after)
    (derived : Derives problem choices plan) : ∃ choices, Derives problem choices after := by
  obtain ⟨t, known, supply, e, left, expanded, c, hc, rfl⟩ := h
  obtain ⟨i, hi⟩ := List.mem_iff_getElem?.mp hc
  exact ⟨_, .expand derived known expanded hi⟩

theorem Expands.step (h : plan.Expands problem after) : plan.Step problem after := by
  obtain ⟨t, known, supply, e, left, expanded, c, hc, rfl⟩ := h
  exact Technique.step_of_expand known expanded hc

theorem comesTo_of_replay (choices more : List Choice) {final : Plan}
    (hplan : replay problem choices = some plan)
    (hfinal : replay problem (more ++ choices) = some final) : plan.ComesTo problem final := by
  induction more generalizing final with
  | nil =>
    cases hplan.symm.trans hfinal
    exact .refl
  | cons choice more ih =>
    obtain ⟨before, hbefore, hfinal⟩ := Option.bind_eq_some_iff.mp hfinal
    split at hfinal
    · rename_i known
      split at hfinal
      · rename_i e left expanded
        obtain ⟨candidate, chosen, rfl⟩ := Option.map_eq_some_iff.mp hfinal
        exact (ih hbefore).tail
          ⟨choice.1, known, {}, e, left, expanded, candidate, List.mem_of_getElem? chosen, rfl⟩
      · cases hfinal
    · cases hfinal

theorem ComesTo.derives {final : Plan} {choices : List Choice} (h : plan.ComesTo problem final)
    (derived : Derives problem choices plan) : ∃ choices, Derives problem choices final := by
  induction h with
  | refl => exact ⟨choices, derived⟩
  | tail _ last ih =>
    obtain ⟨_, before⟩ := ih
    exact last.derives before

/-- What no plan to come takes is not taken from the next plan on either. -/
theorem Expands.not_mayTake (h : plan.Expands problem after) {n : NodeId} {target : Target}
    (refuses : ¬plan.MayTake problem n target) : ¬after.MayTake problem n target := by
  rintro ⟨later, leaf, t, p, comes, found⟩
  exact refuses ⟨later, leaf, t, p, .head h comes, found⟩

/-- What the paths below a leaf carry at most: the ceiling, and less if the switch refuses a
node. -/
inductive Bounded (problem : Problem) (plan : Plan) (l : Leaf) : Nat → Prop
  | free : Bounded problem plan l (l.ceiling problem)
  | leaving {k : Nat} {m : NodeId} (onSwitch : l.target = .switch)
      (below : problem.graph.Descends l.next k m) (refuses : ¬plan.MayTake problem m .switch) :
      Bounded problem plan l (ceilingLeaving problem l.branchDepth l.recirculations k)

theorem Turn.free {most : Nat} {children : List Leaf} {ended : List CompletedPath}
    (turn : Turn problem plan l children ended) (within : problem.RatesWithin most)
    (hmost : most < 2 ^ 63) : (children.map (Leaf.ceiling problem)).sum +
      (ended.map (carried problem)).sum ≤ l.ceiling problem := by
  cases turn with
  | stop => exact (Nat.zero_add _).trans_le (carried_le_ceilingAt ..)
  | next => exact Nat.le_refl _
  | branch => exact ceilingAt_branch within hmost ..
  | handOver onSwitch =>
    rw [l.ceiling_of_switch onSwitch]
    exact ceilingAt_controller_le ..
  | revisit => exact ceilingAt_recirculated ..

theorem bounded_free (leaves : List Leaf) :
    List.Forall₂ (plan.Bounded problem) leaves (leaves.map (Leaf.ceiling problem)) := by
  induction leaves with
  | nil => exact .nil
  | cons l leaves ih => exact .cons .free ih

theorem Turn.bounded {most n : Nat} {children : List Leaf} {ended : List CompletedPath}
    (turn : Turn problem plan l children ended) (expands : plan.Expands problem after)
    (within : problem.RatesWithin most) (hmost : most < 2 ^ 63) (h : plan.Bounded problem l n) :
    ∃ ns, List.Forall₂ (after.Bounded problem) children ns ∧
      ns.sum + (ended.map (carried problem)).sum ≤ n := by
  cases h with
  | free => exact ⟨_, bounded_free children, turn.free within hmost⟩
  | @leaving k m onSwitch below refuses =>
    have hafter := expands.not_mayTake refuses
    have apart : ∀ {t p}, plan.Takes problem l t p → l.next ≠ m := by
      rintro t p takes rfl
      exact refuses ⟨plan, l, t, p, .refl, takes, rfl, onSwitch⟩
    cases turn with
    | stop takes present children =>
      rcases below.first (apart takes) present with ⟨child, only, _⟩ | ⟨_, _, forks, _⟩
      · cases children.symm.trans only
      · simp [children] at forks
    | next takes present children =>
      rcases below.first (apart takes) present with ⟨child, only, below⟩ | ⟨_, _, forks, _⟩
      · cases children.symm.trans only
        exact ⟨[_], .cons (.leaving onSwitch below hafter) .nil, Nat.le_refl _⟩
      · simp [children] at forks
    | branch takes present children =>
      rcases below.first (apart takes) present with ⟨_, only, _⟩ | ⟨k, rfl, _, child, side, below⟩
      · cases children.symm.trans only
      have hsum : ceilingAt problem l.target (l.branchDepth + 1) l.recirculations +
          ceilingLeaving problem (l.branchDepth + 1) l.recirculations k ≤
          ceilingLeaving problem l.branchDepth l.recirculations (k + 1) := by
        rw [onSwitch]
        exact Nat.le_max_right _ _
      rw [children] at side
      rcases List.mem_cons.mp side with rfl | side
      · refine ⟨[_, _], .cons (.leaving onSwitch below hafter) (.cons .free .nil), ?_⟩
        rw [Nat.add_comm] at hsum
        exact hsum
      · cases List.mem_singleton.mp side
        exact ⟨[_, _], .cons .free (.cons (.leaving onSwitch below hafter) .nil), hsum⟩
    | handOver =>
      have hcontroller : ceilingAt problem .controller l.branchDepth l.recirculations ≤
          ceilingLeaving problem l.branchDepth l.recirculations k := by
        rw [ceilingAt_of_ne (by decide)]
        exact carried_le_ceilingLeaving ..
      exact ⟨[_], .cons .free .nil, hcontroller⟩
    | revisit =>
      exact ⟨[_], .cons (.leaving onSwitch below hafter) .nil, ceilingLeaving_recirculated ..⟩

theorem Bounded.mono {n : Nat} (h : plan.Bounded problem l n)
    (expands : plan.Expands problem after) : after.Bounded problem l n := by
  cases h with
  | free => exact .free
  | leaving onSwitch below refuses => exact .leaving onSwitch below (expands.not_mayTake refuses)

def completed (problem : Problem) (plan : Plan) : Nat :=
  (plan.ledger.completed.map (carried problem)).sum

theorem Expands.bounded {rest : List Leaf} {n : Nat} {ns : List Nat}
    (expands : plan.Expands problem after) (active : plan.leaves = l :: rest)
    (head : ∀ {children ended}, Turn problem plan l children ended →
      ∃ ns, List.Forall₂ (after.Bounded problem) children ns ∧
        ns.sum + (ended.map (carried problem)).sum ≤ n)
    (others : List.Forall₂ (plan.Bounded problem) rest ns) :
    ∃ ns', List.Forall₂ (after.Bounded problem) after.leaves ns' ∧
      after.completed problem + ns'.sum ≤ plan.completed problem + (n + ns.sum) := by
  obtain ⟨leaf, rest', children, ended, active', hleaves, hcompleted, turn⟩ := expands.step.turns
  cases active.symm.trans active'
  obtain ⟨ns', hchildren, hle⟩ := head turn
  refine ⟨ns' ++ ns, ?_, ?_⟩
  · rw [hleaves]
    exact List.rel_append hchildren (others.imp fun _ _ h => h.mono expands)
  · simp only [completed, hcompleted, List.map_append, List.sum_append]
    omega

/-- Once all leaves are bounded, so is what any plan to come carries. -/
theorem ComesTo.bounded {final : Plan} {most : Nat} {ns : List Nat}
    (comes : plan.ComesTo problem final) (within : problem.RatesWithin most) (hmost : most < 2 ^ 63)
    (h : List.Forall₂ (plan.Bounded problem) plan.leaves ns) :
    final.completed problem ≤ plan.completed problem + ns.sum := by
  induction comes using Relation.ReflTransGen.head_induction_on generalizing ns with
  | refl => exact Nat.le_add_right _ _
  | @head plan after expands _ ih =>
    cases hl : plan.leaves with
    | nil =>
      obtain ⟨_, _, _, _, active, _⟩ := expands.step.turns
      cases hl.symm.trans active
    | cons l rest =>
      rw [hl] at h
      cases h with
      | @cons _ n _ ns head others =>
        obtain ⟨ns', hafter, hle⟩ := expands.bounded hl
          (fun turn => turn.bounded expands within hmost head) others
        exact (ih hafter).trans hle

/-! ## Dead ends -/

/-- Below the leaf there is a node that its target refuses; and if this is the switch, then the
controller is not enabled or refuses a node further down. -/
inductive Barred (problem : Problem) (plan : Plan) (l : Leaf) : Prop
  | here {k : Nat} {m : NodeId} (below : problem.graph.Descends l.next k m)
      (refuses : ¬plan.MayTake problem m l.target)
      (stays : ¬(l.target = .switch ∧ problem.platform.enabled.contains .controller = true))
  | beyond {k k' : Nat} {m m' : NodeId} (onSwitch : l.target = .switch)
      (below : problem.graph.Descends l.next k m) (refuses : ¬plan.MayTake problem m .switch)
      (further : problem.graph.Descends m k' m')
      (refuses' : ¬plan.MayTake problem m' .controller)

theorem Barred.mono (h : plan.Barred problem l) (expands : plan.Expands problem after) :
    after.Barred problem l := by
  cases h with
  | here below refuses stays => exact .here below (expands.not_mayTake refuses) stays
  | beyond onSwitch below refuses further refuses' =>
    exact .beyond onSwitch below (expands.not_mayTake refuses) further
      (expands.not_mayTake refuses')

/-- A path that is on its way to a node which is refused does not get past it. -/
theorem Turn.descends {children : List Leaf} {ended : List CompletedPath} {k : Nat} {m : NodeId}
    (turn : Turn problem plan l children ended) (below : problem.graph.Descends l.next k m)
    (refuses : ¬plan.MayTake problem m l.target) :
    (∃ x ∈ children, x.target = l.target ∧ ∃ k, problem.graph.Descends x.next k m) ∨
      (l.target = .switch ∧ problem.platform.enabled.contains .controller = true) ∧
        ∃ x ∈ children, x.target = .controller ∧ x.next = l.next := by
  have apart : ∀ {t p}, plan.Takes problem l t p → l.next ≠ m := by
    rintro t p takes rfl
    exact refuses ⟨plan, l, t, p, .refl, takes, rfl, rfl⟩
  cases turn with
  | stop takes present children =>
    rcases below.first (apart takes) present with ⟨child, only, _⟩ | ⟨_, _, forks, _⟩
    · cases children.symm.trans only
    · simp [children] at forks
  | next takes present children =>
    rcases below.first (apart takes) present with ⟨child, only, below⟩ | ⟨_, _, forks, _⟩
    · cases children.symm.trans only
      exact .inl ⟨_, List.mem_singleton_self _, rfl, k, below⟩
    · simp [children] at forks
  | branch takes present children =>
    rcases below.first (apart takes) present with ⟨_, only, _⟩ | ⟨k', _, _, child, side, below⟩
    · cases children.symm.trans only
    · rw [children] at side
      rcases List.mem_cons.mp side with rfl | side
      · exact .inl ⟨_, List.mem_cons_self, rfl, k', below⟩
      · cases List.mem_singleton.mp side
        exact .inl ⟨_, List.mem_cons_of_mem _ List.mem_cons_self, rfl, k', below⟩
  | handOver onSwitch enabled =>
    exact .inr ⟨⟨onSwitch, enabled⟩, _, List.mem_singleton_self _, rfl, rfl⟩
  | revisit => exact .inl ⟨_, List.mem_singleton_self _, rfl, k, below⟩

theorem Turn.barred {children : List Leaf} {ended : List CompletedPath}
    (turn : Turn problem plan l children ended) (expands : plan.Expands problem after)
    (h : plan.Barred problem l) : ∃ x ∈ children, after.Barred problem x := by
  cases h with
  | here below refuses stays =>
    rcases turn.descends below refuses with ⟨x, hx, htarget, _, below⟩ | ⟨handed, _⟩
    · rw [← htarget] at refuses stays
      exact ⟨x, hx, .here below (expands.not_mayTake refuses) stays⟩
    · exact absurd handed stays
  | beyond onSwitch below refuses further refuses' =>
    rw [← onSwitch] at refuses
    rcases turn.descends below refuses with ⟨x, hx, htarget, _, below⟩ | ⟨_, x, hx, htarget, hnext⟩
    · rw [onSwitch] at refuses htarget
      exact ⟨x, hx, .beyond htarget below (expands.not_mayTake refuses) further
        (expands.not_mayTake refuses')⟩
    · refine ⟨x, hx, .here (hnext ▸ below.trans further) ?_ ?_⟩
      · rw [htarget]
        exact expands.not_mayTake refuses'
      · rintro ⟨hswitch, _⟩
        cases htarget.symm.trans hswitch

theorem ComesTo.not_finished {final : Plan} (comes : plan.ComesTo problem final)
    (hl : l ∈ plan.leaves) (h : plan.Barred problem l) : ¬final.isFinished = true := by
  induction comes using Relation.ReflTransGen.head_induction_on generalizing l with
  | refl =>
    intro finished
    rw [List.isEmpty_iff.mp finished] at hl
    exact absurd hl List.not_mem_nil
  | @head plan after expands _ ih =>
    obtain ⟨leaf, rest, children, ended, active, hleaves, _, turn⟩ := expands.step.turns
    rw [active] at hl
    rcases List.mem_cons.mp hl with rfl | hl
    · obtain ⟨x, hx, hbarred⟩ := turn.barred expands h
      exact ih (hleaves ▸ List.mem_append_left rest hx) hbarred
    · exact ih (hleaves ▸ List.mem_append_right children hl) (h.mono expands)

end Plan

end PacketPlan
