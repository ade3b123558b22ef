import PacketPlan.Proofs.Plan.Leaves
import PacketPlan.Proofs.Plan.Lookahead
import PacketPlan.Proofs.Plan.Passes
import PacketPlan.Proofs.Plan.Potential
import PacketPlan.Proofs.Plan.Recirculation
import PacketPlan.Proofs.Plan.Reservation

/-! # Planning without faults

A fault ends the work at once, so none of them may lie on the way of a search. On a plan that is
derived every technique can be tried, every node can be speculated on and every heuristic can be
asked: the sites of the leaves are fresh and distinct, a proposal binds one object at most, paths
are counted below the limit of passes, and rates stay within their shares.
-/
namespace PacketPlan
open Checked

/-! ## Expansion -/

theorem Ledger.markProcessed_succeeds {l : Ledger} {s : Site} {how : Option PlanNodeId}
    (fresh : l.processed? s = none) : (l.markProcessed s how).Succeeds := by
  unfold Ledger.markProcessed
  rw [fresh]
  exact succeeds_ok _

namespace Plan
variable {problem : Problem} {plan : Plan} {leaf : Leaf} {rest : List Leaf}

theorem Pending.rooted (h : plan.Pending) (active : plan.leaves = leaf :: rest) :
    ¬(leaf.attach.isNone ∧ plan.root.isSome) := by
  rintro ⟨hnone, hsome⟩
  have hattach := Option.isNone_iff_eq_none.mp hnone
  rw [(h.alone active List.mem_cons_self hattach).1] at hsome
  cases hsome

theorem attach_succeeds (active : plan.leaves = leaf :: rest)
    (rooted : ¬(leaf.attach.isNone ∧ plan.root.isSome))
    (fresh : plan.ledger.processed? leaf.site = none) (a : Action) (children : List Leaf) :
    (plan.attach ⟨leaf.target, leaf.next, a⟩ children).Succeeds := by
  unfold attach
  simp only [active, ne_eq, not_true_eq_false, or_self, if_false, if_neg rooted]
  apply (Ledger.markProcessed_succeeds fresh).bind
  intro ledger _
  exact succeeds_ok _

theorem skip_succeeds (active : plan.leaves = leaf :: rest)
    (fresh : plan.ledger.processed? leaf.site = none) (children : List Leaf) :
    (plan.skip children).Succeeds := by
  unfold skip
  simp only [active]
  apply (Ledger.markProcessed_succeeds fresh).bind
  intro ledger _
  exact succeeds_ok _

end Plan

namespace Technique
variable {t : Technique} {problem : Problem} {plan : Plan} {leaf : Leaf} {rest : List Leaf}

theorem anyBlocked_succeeds (legible : problem.graph.Legible)
    (present : leaf.next < problem.graph.size) (ts : List Technique) :
    (anyBlocked problem plan leaf ts).Succeeds := by
  induction ts with
  | nil => exact succeeds_ok _
  | cons t ts ih =>
    apply (t.proposals_succeeds legible plan.bindings present).bind
    intro ps _
    exact succeeds_ite (fun _ => succeeds_ok _) (fun _ => ih)

theorem offers_succeeds (t : Technique) (legible : problem.graph.Legible)
    (present : leaf.next < problem.graph.size) : (t.offers problem plan leaf).Succeeds := by
  apply succeeds_ite
  · intro _
    apply succeeds_ite
    · intro _
      apply (anyBlocked_succeeds legible present _).bind
      intro blocked _
      exact succeeds_ok _
    · exact fun _ => succeeds_ok _
  · exact fun _ => t.proposals_succeeds legible plan.bindings present

theorem grow_succeeds {s : Setting} {k : NodeKind} {p : Proposal}
    (active : plan.leaves = leaf :: rest)
    (pending : plan.Pending) (hs : s.target = leaf.target ∧ s.node = leaf.next) (fits : p.Fits s k)
    (id : PlanId) (bindings : Bindings) (resources : Pipeline) (symbols : SymbolSource) :
    (grow { plan with id, bindings, resources } leaf p symbols).Succeeds := by
  have hactive : Plan.leaves { plan with id, bindings, resources } = leaf :: rest := active
  have hfresh := pending.fresh leaf (active ▸ List.mem_cons_self)
  have hrooted := pending.rooted active
  obtain ⟨htarget, hnode⟩ := hs
  cases fits with
  | pass silent goes =>
    simp only [grow, silent, goes]
    apply (Plan.skip_succeeds hactive hfresh _).bind
    intro next _
    exact succeeds_ok _
  | @act a acts =>
    rw [htarget, hnode] at acts
    simp only [grow, acts]
    apply (Plan.attach_succeeds hactive hrooted hfresh a _).bind
    intro next _
    exact succeeds_ok _
  | handOver onSwitch acts =>
    rw [← onSwitch, htarget, hnode] at acts
    simp only [grow, acts]
    apply (Plan.attach_succeeds hactive hrooted hfresh .sendToController _).bind
    intro next _
    exact succeeds_ok _

/-- Whatever is offered and admissible can be tried, though the pipeline may refuse it. -/
theorem realize_succeeds {ps : List Proposal} {p : Proposal} (active : plan.leaves = leaf :: rest)
    (pending : plan.Pending) (target_eq : leaf.target = t.target)
    (limit : problem.platform.maxRecirculations < Leaf.recirculationLimit)
    (hps : t.offers problem plan leaf = .ok ps) (hp : p ∈ ps)
    (hadm : admissible problem plan.bindings p = true) (supply : Supply) :
    (t.realize plan leaf p supply).Succeeds := by
  rcases Plan.fits_of_offers target_eq hps hp with ⟨rfl, _, hallowed⟩ | ⟨node, _, hfits⟩
  · obtain ⟨c, after, hrealize, _⟩ := realize_revisit (t := t) active
      (Nat.lt_of_le_of_lt hallowed limit) supply
    exact ⟨_, hrealize⟩
  · have hne : p ≠ revisit leaf := by
      rintro rfl
      cases hfits with
      | pass _ goes => cases goes
      | act acts => cases acts
      | handOver _ acts => cases acts
    obtain ⟨qs, hqs, hq⟩ := Plan.proposed_of_offers hps hp hne
    apply (extend_proposal hqs hq hadm).bind
    intro bindings _
    cases hplace : p.place leaf.passDeps plan.resources with
    | error refusal =>
      simp only [Plan.fork, hplace]
      exact succeeds_ok _
    | ok placed =>
      simp only [Plan.fork, hplace]
      apply (grow_succeeds active pending ⟨rfl, rfl⟩ hfits _ bindings placed.2 _).bind
      intro grown _
      exact succeeds_ok _

theorem realizeAll_succeeds {ps : List Proposal}
    (h : ∀ p ∈ ps, ∀ supply, (t.realize plan leaf p supply).Succeeds) (supply : Supply) :
    (t.realizeAll plan leaf ps supply).Succeeds := by
  induction ps generalizing supply with
  | nil => exact succeeds_ok _
  | cons p ps ih =>
    apply (h p List.mem_cons_self supply).bind
    intro made _
    apply (ih (fun q hq => h q (List.mem_cons_of_mem p hq)) made.2).bind
    intro others _
    exact succeeds_ok _

theorem expand_succeeds (t : Technique) (legible : problem.graph.Legible) (pending : plan.Pending)
    (present : ∀ l ∈ plan.leaves, l.next < problem.graph.size)
    (limit : problem.platform.maxRecirculations < Leaf.recirculationLimit) (supply : Supply) :
    (t.expand problem plan supply).Succeeds := by
  unfold expand Plan.activeLeaf?
  cases hl : plan.leaves with
  | nil => exact succeeds_ok _
  | cons leaf rest =>
    apply succeeds_ite
    · intro htarget
      apply (t.offers_succeeds legible (present leaf (hl ▸ List.mem_cons_self))).bind
      intro ps hps
      apply realizeAll_succeeds
      intro p hp
      obtain ⟨hp, hadm⟩ := List.mem_filter.mp hp
      exact realize_succeeds hl pending htarget limit hps hp hadm
    · exact fun _ => succeeds_ok _

end Technique

/-! ## Scores -/

/-- A score is found unless a metric that is to be small has a value below zero. -/
theorem Score.ofValues_succeeds {metrics : List Metric} {values : List Int}
    (hlength : metrics.length = values.length)
    (h : ∀ e ∈ metrics.zip values, e.1.objective = .min → 0 ≤ e.2) :
    (Score.ofValues metrics values).Succeeds := by
  have hkeys : (Score.keysOf metrics values).Succeeds := by
    clear hlength
    induction metrics generalizing values with
    | nil => exact succeeds_ok _
    | cons m ms ih =>
      cases values with
      | nil => exact succeeds_ok _
      | cons v vs =>
        have hkey : (m.objective.key v).Succeeds := by
          have hnonneg := h (m, v) List.mem_cons_self
          cases hobjective : m.objective with
          | max => exact succeeds_ok _
          | min =>
            have hne : v ≠ Word.minSigned := by
              have hv := hnonneg hobjective
              rw [Word.minSigned, Word.limit]
              simp only at hv
              omega
            exact ⟨-v, if_neg hne⟩
        apply hkey.bind
        intro k _
        apply (ih fun e he => h e (List.mem_cons_of_mem _ he)).bind
        intro ks _
        exact succeeds_ok _
  rw [Score.ofValues, if_pos hlength]
  apply hkeys.bind
  intro ks _
  exact succeeds_ok _

theorem Heuristic.score_succeeds {μ : Type} {h : Heuristic μ} {memory : μ} {problem : Problem}
    {plan : Plan} {values : List Int} (hvalues : h.evaluate memory problem plan = .ok values)
    (hlength : h.metrics.length = values.length)
    (hmin : ∀ e ∈ h.metrics.zip values, e.1.objective = .min → 0 ≤ e.2) :
    (h.score memory problem plan).Succeeds := by
  obtain ⟨score, hscore⟩ := Score.ofValues_succeeds hlength hmin
  exact ⟨score, bind_eq_ok.mpr ⟨values, hvalues, hscore⟩⟩

theorem Heuristic.all_succeed {problem : Problem} {plan : Plan}
    (carried : (plan.throughput problem).Succeeds)
    (expected : (plan.speculativeThroughput problem).Succeeds) {h : Heuristic Heuristic.Best}
    (hh : h ∈ Heuristic.all) (best : Heuristic.Best) :
    (h.score best problem plan).Succeeds ∧ (h.observe best problem plan).Succeeds := by
  simp only [all, List.mem_cons, List.not_mem_nil, or_false] at hh
  rcases hh with rfl | rfl | rfl
  · refine ⟨score_succeeds rfl rfl ?_, succeeds_ok _⟩
    simp [maxProgress, Plan.recirculations, Plan.controllerModules]
  · refine ⟨score_succeeds rfl rfl ?_, succeeds_ok _⟩
    simp [minStages, Plan.stagesUsed, Plan.recirculations]
  · constructor
    · obtain ⟨throughput, hthroughput⟩ := expected
      refine score_succeeds (bind_eq_ok.mpr ⟨throughput, hthroughput, rfl⟩) rfl ?_
      simp [maxThroughput]
    · apply carried.bind
      intro throughput _
      exact succeeds_ok _

/-! ## Budgets -/

theorem Pipeline.Leads.balanced {p q : Pipeline} (h : p.Leads q) {c : SwitchConfig}
    {a : Pipeline.Account} (ha : a.pipeline = p) (hb : a.Balanced c) :
    ∃ b : Pipeline.Account, b.pipeline = q ∧ b.Balanced c := by
  induction h with
  | refl => exact ⟨a, ha, hb⟩
  | @place q r o d deps requested stage before accepted ih =>
    obtain ⟨b, hpipeline, hbalanced⟩ := ih
    have hattempt : b.pipeline.attempt { object := o, demand := d, deps, stage? := requested } =
        .ok (stage, r) := by
      rw [Pipeline.attempt_eq, hpipeline]
      exact accepted
    exact ⟨_, rfl, hbalanced.accept hattempt⟩

/-- No fault lies on the way of a search, in whatever order plans are expanded: on every derived
plan every technique can be expanded, every node of the graph can be speculated on under any
bindings, which then take what is found, and every heuristic answers. No request that is granted on
the way overdraws a stage or the slots for digests, and leaves hang below nodes that are there. -/
theorem derived_plans_never_fault {kinds : List NodeKind} {root : NodeId} {g : Graph} {c : Config}
    {problem : Problem} {choices : List Choice} {plan : Plan}
    (accepted : Graph.ofKinds kinds root = .ok g) (legible : g.Legible)
    (posed : Problem.ofConfig g c = .ok problem)
    (bounded : ∀ t ∈ c.targets.enabled, c.capacity t * 1000 < 2 ^ 63)
    (derived : Derives problem choices plan) :
    (∀ (t : Technique) supply, (t.expand problem plan supply).Succeeds) ∧
      (∀ (t : Technique) node b, node < g.size →
        ∃ found, t.speculate problem plan node b = .ok found ∧
          ∀ speculation ∈ found, (b.extend speculation.delta).Succeeds) ∧
      (∀ h ∈ Heuristic.all, ∀ best,
        (h.score best problem plan).Succeeds ∧ (h.observe best problem plan).Succeeds) ∧
      (∀ r, plan.resources.Leads r → ∀ o d deps requested located,
        r.locate o d deps requested = .ok located →
          (∃ s left, r.stages[located.stage]? = some s ∧
            s.remaining.debit located.amount = .ok left) ∧
          (r.commit o d deps located).digests + (if d.isDigest && !r.isPlaced o then 1 else 0) =
            r.digests) ∧
      ∀ l ∈ plan.leaves, ∀ id, l.attach = some id → id < plan.nodes.length := by
  have wp := Problem.wellPosed_of_ofConfig accepted posed
  have lawful := derived.lawful wp
  have pending := derived.pending wp
  have shared := derived.shared
  obtain ⟨_, platform, hplatform, hproblem⟩ := Problem.ofConfig_eq_ok.mp posed
  obtain ⟨_, hbaseline, hlimit⟩ := Platform.ofConfig_eq_ok hplatform
  have hgraph : problem.graph = g := by rw [hproblem]
  have hlegible : problem.graph.Legible := hgraph ▸ legible
  have hpresent : ∀ l ∈ plan.leaves, l.next < problem.graph.size :=
    fun l hl => lawful.leaf_present wp.tree hl
  have hwithin : problem.RatesWithin (2 ^ 63 - 1) := by
    apply Problem.ratesWithin_of_ofConfig posed
    intro t ht
    have hrate := bounded t ht
    omega
  refine ⟨?_, ?_, ?_, ?_, ?_⟩
  · intro t supply
    exact t.expand_succeeds hlegible pending hpresent (hproblem ▸ hlimit) supply
  · intro t node b hnode
    obtain ⟨found, hfound⟩ := Technique.speculate_succeeds (t := t) (b := b) hlegible
      (hgraph ▸ hnode)
    refine ⟨found, hfound, ?_⟩
    rintro speculation rfl
    exact Technique.extend_speculation hfound
  · intro h hh best
    obtain ⟨carried, hcarried, _⟩ := shared.exists_throughput hwithin (by decide)
    obtain ⟨expected, hexpected, _⟩ :=
      shared.exists_speculativeThroughput wp.tree hlegible hwithin (by decide) hpresent
    exact Heuristic.all_succeed ⟨carried, hcarried⟩ ⟨expected, hexpected⟩ hh best
  · intro r leads o d deps requested located hlocated
    obtain ⟨a, hpipeline, hbalanced, _⟩ :=
      derived.reserved.account (c := c.switch) (by rw [hproblem, hbaseline])
    obtain ⟨b, rfl, hb⟩ := leads.balanced hpipeline hbalanced
    obtain ⟨s, left, hs, _, hdebit⟩ := hb.debit_commit hlocated
    exact ⟨⟨s, left.remaining, hs, hdebit⟩, hb.slots_commit hlocated⟩
  · intro l hl id hid
    obtain ⟨_, _, hcounts⟩ := derived.counts wp
    exact (hcounts.forward wp).2.rooted.leaves hl hid

/-- With three stages the sketch has to be handed over. On the plan that does so, whose leaf stands
on the controller below five modules, every technique and every heuristic still answers. -/
theorem handed_over_sketch_never_faults :
    ∃ g problem plan, Graph.ofKinds learnThenSketch 5 = .ok g ∧ g.Legible ∧
      Problem.ofConfig g threeStages = .ok problem ∧
      Derives problem [(⟨.switch, .sendToController⟩, 0), (⟨.switch, .tableLookup⟩, 0),
        (⟨.switch, .tableLearn⟩, 0), (⟨.switch, .allocate⟩, 0), (⟨.switch, .allocate⟩, 0)] plan ∧
      (plan.leaves.map Leaf.site) = [⟨1, .controller⟩] ∧
      (∀ (t : Technique) supply, (t.expand problem plan supply).Succeeds) ∧
      (∀ h ∈ Heuristic.all, (h.score none problem plan).Succeeds) := by
  obtain ⟨g, accepted⟩ : ∃ g, Graph.ofKinds learnThenSketch 5 = .ok g := ⟨_, rfl⟩
  obtain ⟨legible, problem, posed, plan, derived, hleaves⟩ :
      g.Legible ∧ ∃ problem, Problem.ofConfig g threeStages = .ok problem ∧ ∃ plan,
        Derives problem [(⟨.switch, .sendToController⟩, 0), (⟨.switch, .tableLookup⟩, 0),
          (⟨.switch, .tableLearn⟩, 0), (⟨.switch, .allocate⟩, 0), (⟨.switch, .allocate⟩, 0)] plan ∧
        (plan.leaves.map Leaf.site) = [⟨1, .controller⟩] := by
    cases accepted
    exact ⟨by decide +kernel, _, rfl, _, derives_of_replay rfl, rfl⟩
  have bounded : ∀ t ∈ threeStages.targets.enabled, threeStages.capacity t * 1000 < 2 ^ 63 := by
    decide
  obtain ⟨hexpand, _, hscore, _⟩ :=
    derived_plans_never_fault accepted legible posed bounded derived
  exact ⟨g, problem, plan, accepted, legible, posed, derived, hleaves, hexpand,
    fun h hh => (hscore h hh none).1⟩

end PacketPlan
