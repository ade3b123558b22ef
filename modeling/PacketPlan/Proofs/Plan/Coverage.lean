import PacketPlan.Proofs.Plan.Walk

/-! # Coverage

The sites that packets can reach, given how a plan has handled the sites before them, are at all
times the handled ones and those of the leaves. A plan without leaves thus handles exactly what is
reached, and the check of finished plans accepts every one that is derived.
-/
namespace PacketPlan.Plan

/-- Packets come to the site, as far as the plan says what becomes of them. -/
inductive Reaches (problem : Problem) (plan : Plan) : Site → Prop
  | start : Reaches problem plan ⟨problem.graph.root, problem.platform.initial⟩
  | next {s s' : Site} {how : Option PlanNodeId} (before : Reaches problem plan s)
      (handled : plan.ledger.processed? s = some how)
      (follows : s' ∈ plan.nextSites problem.graph s how) : Reaches problem plan s'

structure Tracked (problem : Problem) (plan : Plan) : Prop where
  registered : ∀ {s id}, plan.ledger.processed? s = some (some id) →
    ∃ a, plan.module? id = some ⟨s.target, s.node, a⟩
  onSwitch : ∀ {s how}, plan.ledger.processed? s = some how → plan.takesOver? how ≠ none →
    s.target = .switch
  handled_reached : ∀ {s how}, plan.ledger.processed? s = some how → plan.Reaches problem s
  leaf_reached : ∀ {l}, l ∈ plan.leaves → plan.Reaches problem l.site
  complete : ∀ {s}, plan.Reaches problem s →
    (∃ how, plan.ledger.processed? s = some how) ∨ ∃ l ∈ plan.leaves, l.site = s

section handling
variable {problem : Problem} {plan after : Plan} {leaf : Leaf} {rest children : List Leaf}
variable {how : Option PlanNodeId}

theorem Handles.processed?_eq (h : Handles problem plan after leaf rest children how) (s : Site) :
    after.ledger.processed? s = if s = leaf.site then some how else plan.ledger.processed? s := by
  rw [Ledger.processed?, h.handled, OrdMap.get?_insert]
  rfl

theorem Handles.processed?_self (h : Handles problem plan after leaf rest children how) :
    after.ledger.processed? leaf.site = some how := by
  rw [h.processed?_eq, if_pos rfl]

theorem Handles.processed?_old (h : Handles problem plan after leaf rest children how) {s : Site}
    {old : Option PlanNodeId} (hs : plan.ledger.processed? s = some old) :
    after.ledger.processed? s = some old := by
  rw [h.processed?_eq, if_neg, hs]
  rintro rfl
  rw [h.fresh] at hs
  cases hs

theorem Handles.processed?_cases (h : Handles problem plan after leaf rest children how) {s : Site}
    {found : Option PlanNodeId} (hs : after.ledger.processed? s = some found) :
    (s = leaf.site ∧ found = how) ∨ plan.ledger.processed? s = some found := by
  rw [h.processed?_eq] at hs
  split at hs
  · exact .inl ⟨‹_›, (Option.some.inj hs).symm⟩
  · exact .inr hs

theorem Handles.takesOver?_old (h : Handles problem plan after leaf rest children how)
    (tracked : Tracked problem plan) {s : Site} {old : Option PlanNodeId}
    (hs : plan.ledger.processed? s = some old) : after.takesOver? old = plan.takesOver? old := by
  cases old with
  | none => rfl
  | some id =>
    obtain ⟨a, ha⟩ := tracked.registered hs
    rw [takesOver?_eq, takesOver?_eq, Option.bind_some, Option.bind_some, ha, h.kept ha]

theorem nextSites_congr {g : Graph} {s : Site} (h : after.takesOver? how = plan.takesOver? how) :
    after.nextSites g s how = plan.nextSites g s how := by
  rw [nextSites, nextSites, h]

theorem Handles.reaches (h : Handles problem plan after leaf rest children how)
    (tracked : Tracked problem plan) {s : Site} (hs : plan.Reaches problem s) :
    after.Reaches problem s := by
  induction hs with
  | start => exact .start
  | next _ handled follows ih =>
    refine .next ih (h.processed?_old handled) ?_
    rw [nextSites_congr (h.takesOver?_old tracked handled)]
    exact follows

theorem Handles.known (h : Handles problem plan after leaf rest children how)
    (tracked : Tracked problem plan) {s : Site} (hs : plan.Reaches problem s) :
    (∃ how, after.ledger.processed? s = some how) ∨ ∃ l ∈ after.leaves, l.site = s := by
  rcases tracked.complete hs with ⟨old, hold⟩ | ⟨l, hl, rfl⟩
  · exact .inl ⟨old, h.processed?_old hold⟩
  · rw [h.active] at hl
    rcases List.mem_cons.mp hl with rfl | hl
    · exact .inl ⟨how, h.processed?_self⟩
    · exact .inr ⟨l, h.leaves_eq ▸ List.mem_append_right children hl, rfl⟩

theorem Handles.tracked (h : Handles problem plan after leaf rest children how)
    (tracked : Tracked problem plan) : Tracked problem after where
  registered := by
    intro s id hs
    rcases h.processed?_cases hs with ⟨rfl, he⟩ | hold
    · exact h.made he.symm
    · obtain ⟨a, ha⟩ := tracked.registered hold
      exact ⟨a, h.kept ha⟩
  onSwitch := by
    intro s how' hs hover
    rcases h.processed?_cases hs with ⟨rfl, rfl⟩ | hold
    · exact h.onSwitch hover
    · rw [h.takesOver?_old tracked hold] at hover
      exact tracked.onSwitch hold hover
  handled_reached := by
    intro s how' hs
    apply h.reaches tracked
    rcases h.processed?_cases hs with ⟨rfl, _⟩ | hold
    · exact tracked.leaf_reached (h.active ▸ List.mem_cons_self)
    · exact tracked.handled_reached hold
  leaf_reached := by
    intro l hl
    rw [h.leaves_eq] at hl
    rcases List.mem_append.mp hl with hl | hl
    · have hleaf := h.reaches tracked (tracked.leaf_reached (h.active ▸ List.mem_cons_self))
      refine .next hleaf h.processed?_self ?_
      rw [← List.mem_reverse, ← h.sites]
      exact List.mem_map_of_mem hl
    · exact h.reaches tracked (tracked.leaf_reached (h.active ▸ List.mem_cons_of_mem leaf hl))
  complete := by
    intro s hs
    cases hs with
    | start => exact h.known tracked .start
    | @next s _ how' before handled follows =>
      rcases h.processed?_cases handled with ⟨rfl, rfl⟩ | hold
      · rw [← List.mem_reverse, ← h.sites] at follows
        obtain ⟨l, hl, rfl⟩ := List.mem_map.mp follows
        exact .inr ⟨l, h.leaves_eq ▸ List.mem_append_left rest hl, rfl⟩
      · rw [nextSites_congr (h.takesOver?_old tracked hold)] at follows
        exact h.known tracked (.next (tracked.handled_reached hold) hold follows)

end handling

theorem reaches_revisited {problem : Problem} {plan : Plan} {id : PlanId} {leaf : Leaf}
    {rest : List Leaf} {s : Site} :
    (plan.revisited id leaf rest).Reaches problem s ↔ plan.Reaches problem s := by
  constructor
  · intro h
    induction h with
    | start => exact .start
    | next _ handled follows ih => exact .next ih handled follows
  · intro h
    induction h with
    | start => exact .start
    | next _ handled follows ih => exact .next ih handled follows

theorem Tracked.revisited {problem : Problem} {plan : Plan} {id : PlanId} {leaf : Leaf}
    {rest : List Leaf} (h : Tracked problem plan) (active : plan.leaves = leaf :: rest) :
    Tracked problem (plan.revisited id leaf rest) where
  registered := h.registered
  onSwitch := h.onSwitch
  handled_reached hs := reaches_revisited.mpr (h.handled_reached hs)
  leaf_reached := by
    intro l hl
    apply reaches_revisited.mpr
    rcases List.mem_cons.mp hl with rfl | hl
    · exact h.leaf_reached (l := leaf) (active ▸ List.mem_cons_self)
    · exact h.leaf_reached (active ▸ List.mem_cons_of_mem leaf hl)
  complete := by
    intro s hs
    rcases h.complete (reaches_revisited.mp hs) with hhow | ⟨l, hl, rfl⟩
    · exact .inl hhow
    · rw [active] at hl
      rcases List.mem_cons.mp hl with rfl | hl
      · exact .inr ⟨_, List.mem_cons_self, rfl⟩
      · exact .inr ⟨l, List.mem_cons_of_mem _ hl, rfl⟩

theorem tracked_empty (problem : Problem) (id : PlanId) : Tracked problem (.empty problem id) where
  registered := nofun
  onSwitch := nofun
  handled_reached := nofun
  leaf_reached := by
    intro l hl
    cases List.mem_singleton.mp hl
    exact .start
  complete := by
    intro s hs
    cases hs with
    | start => exact .inr ⟨_, List.mem_singleton.mpr rfl, rfl⟩
    | next _ handled => cases handled

/-- All that the check of a finished plan asks for, of plans that may still have leaves. -/
structure Lawful (problem : Problem) (plan : Plan) : Prop where
  tracked : Tracked problem plan
  leaf_passes : ∀ l ∈ plan.leaves, l.recirculations ≤ problem.platform.maxRecirculations
  path_passes : ∀ p ∈ plan.ledger.completed, p.recirculations ≤ problem.platform.maxRecirculations
  placed : plan.resources.Sound

theorem Handles.lawful {problem : Problem} {plan after : Plan} {leaf : Leaf}
    {rest children : List Leaf} {how : Option PlanNodeId}
    (h : Handles problem plan after leaf rest children how) (lawful : Lawful problem plan) :
    Lawful problem after where
  tracked := h.tracked lawful.tracked
  leaf_passes := by
    intro l hl
    rw [h.leaves_eq] at hl
    rcases List.mem_append.mp hl with hl | hl
    · rw [h.passes l hl]
      exact lawful.leaf_passes leaf (h.active ▸ List.mem_cons_self)
    · exact lawful.leaf_passes l (h.active ▸ List.mem_cons_of_mem leaf hl)
  path_passes := by
    intro p hp
    rw [h.completed] at hp
    rcases List.mem_append.mp hp with hp | hp
    · exact lawful.path_passes p hp
    · split at hp
      · cases List.mem_singleton.mp hp
        exact lawful.leaf_passes leaf (h.active ▸ List.mem_cons_self)
      · cases hp
  placed := h.resources.sound lawful.placed

end PacketPlan.Plan

namespace PacketPlan
open Plan

/-- A problem whose graph is a tree and whose pipeline starts sound. -/
structure Problem.WellPosed (problem : Problem) : Prop where
  tree : problem.graph.IsTree
  baseline : problem.platform.baseline.Sound

theorem Problem.ofConfig_eq_ok {g : Graph} {c : Config} {problem : Problem} :
    Problem.ofConfig g c = .ok problem ↔ c.validate = .ok () ∧
      ∃ platform, Platform.ofConfig c = .ok platform ∧ problem = ⟨g, platform, c.search⟩ := by
  constructor
  · intro h
    obtain ⟨_, hvalid, h⟩ := bind_eq_ok.mp h
    obtain ⟨platform, hplatform, h⟩ := bind_eq_ok.mp h
    exact ⟨hvalid, platform, hplatform, (Except.ok.inj h).symm⟩
  · rintro ⟨hvalid, platform, hplatform, rfl⟩
    exact bind_eq_ok.mpr ⟨(), hvalid, bind_eq_ok.mpr ⟨platform, hplatform, rfl⟩⟩

theorem Problem.eq_of_ofConfig {g : Graph} {c : Config} {problem : Problem}
    (h : Problem.ofConfig g c = .ok problem) : problem =
      { graph := g
        platform :=
          { enabled := .ofList c.targets.enabled
            initial := c.targets.initial
            baseline := .ofConfig c.switch
            capacities := .ofList
              ((TargetSet.ofList c.targets.enabled).toList.map fun t => (t, c.capacity t))
            maxRecirculations := c.switch.maxRecirculations.toNat }
        search := c.search } := by
  obtain ⟨_, platform, hplatform, rfl⟩ := Problem.ofConfig_eq_ok.mp h
  simp only [Platform.ofConfig] at hplatform
  split at hplatform
  · cases hplatform
    rfl
  · cases hplatform

theorem Problem.wellPosed_of_ofConfig {kinds : List NodeKind} {root : NodeId} {g : Graph}
    {c : Config} {problem : Problem} (hg : Graph.ofKinds kinds root = .ok g)
    (hp : Problem.ofConfig g c = .ok problem) : problem.WellPosed := by
  obtain ⟨_, platform, hplatform, rfl⟩ := Problem.ofConfig_eq_ok.mp hp
  refine ⟨Graph.isTree_of_ofKinds hg, ?_⟩
  simp only [Platform.ofConfig] at hplatform
  split at hplatform
  · cases hplatform
    exact Pipeline.sound_ofConfig c.switch
  · cases hplatform

theorem Derives.lawful {problem : Problem} (wp : problem.WellPosed) {choices : List Choice}
    {plan : Plan} (h : Derives problem choices plan) : Lawful problem plan := by
  apply h.invariant
  · intro id
    refine ⟨tracked_empty problem id, ?_, nofun, wp.baseline⟩
    intro l hl
    cases List.mem_singleton.mp hl
    exact Nat.zero_le _
  · intro plan after lawful step
    rcases handles_of_step wp.tree step with
      ⟨leaf, rest, children, how, h⟩ | ⟨leaf, rest, id, active, _, allowed, rfl⟩
    · exact h.lawful lawful
    · refine ⟨lawful.tracked.revisited active, ?_, lawful.path_passes, lawful.placed⟩
      intro l hl
      rcases List.mem_cons.mp hl with rfl | hl
      · exact allowed
      · exact lawful.leaf_passes l (active ▸ List.mem_cons_of_mem leaf hl)

/-! ## The walk over a finished plan -/

namespace Plan
variable {problem : Problem} {plan : Plan}

theorem Reaches.present (hg : problem.graph.IsTree) {s : Site} (h : plan.Reaches problem s) :
    s.node < problem.graph.size := by
  induction h with
  | start => exact hg.root_lt
  | next _ _ follows ih => exact present_of_mem_nextSites hg ih follows

/-- A bound on what can follow from a site, itself included: on the switch, a node may be handed
over once and met anew so many times. -/
def siteWeight (g : Graph) (again : Nat) (s : Site) : Nat :=
  (if s.target = .switch then 2 + again else 1) * g.weight s.node

theorem siteWeight_pos {g : Graph} (hg : g.IsTree) (again : Nat) {s : Site} (hs : s.node < g.size) :
    0 < siteWeight g again s := by
  have hpos := hg.weight_pos hs
  unfold siteWeight
  split
  · exact Nat.mul_pos (by omega) hpos
  · omega

theorem Tracked.weight_nextSites (h : Tracked problem plan) (hg : problem.graph.IsTree) {s : Site}
    {how : Option PlanNodeId} (hs : plan.ledger.processed? s = some how) (again : Nat) :
    ((plan.nextSites problem.graph s how).map (siteWeight problem.graph again)).sum + 1 ≤
      siteWeight problem.graph again s := by
  refine Plan.weight_nextSites hg (fun t => if t = .switch then 2 + again else 1) ?_
    ((h.handled_reached hs).present hg) ?_
  · intro t
    split <;> omega
  · intro hover
    rw [h.onSwitch hs hover, if_pos rfl, if_neg (by decide)]
    omega

theorem Tracked.handled_of_reaches (h : Tracked problem plan) (finished : plan.leaves = [])
    {s : Site} (hs : plan.Reaches problem s) : ∃ how, plan.ledger.processed? s = some how := by
  rcases h.complete hs with hhow | ⟨l, hl, _⟩
  · exact hhow
  · rw [finished] at hl
    cases hl

theorem reaches_iff {s : Site} : plan.Reaches problem s ↔ Relation.ReflTransGen
    (plan.Next problem.graph) ⟨problem.graph.root, problem.platform.initial⟩ s := by
  constructor
  · intro h
    induction h with
    | start => exact .refl
    | next _ handled follows ih => exact ih.tail ⟨_, handled, follows⟩
  · intro h
    induction h with
    | refl => exact .start
    | tail _ hnext ih =>
      obtain ⟨how, handled, follows⟩ := hnext
      exact .next ih handled follows

/-- All that is reached is handled, and only the switch hands packets over. -/
theorem Tracked.clear (h : Tracked problem plan) (hg : problem.graph.IsTree)
    (finished : plan.leaves = []) :
    Clear problem.graph plan ⟨problem.graph.root, problem.platform.initial⟩ := by
  rcases walk_outcome hg plan ⟨problem.graph.root, problem.platform.initial⟩ hg.root_lt with
    hclear | ⟨x, hstops⟩ | ⟨x, _, hback⟩
  · exact hclear
  · obtain ⟨how, hhow⟩ := h.handled_of_reaches finished (reaches_iff.mpr hstops.visited.reaches)
    rw [hstops.unhandled] at hhow
    cases hhow
  · obtain ⟨how, hhow, hover⟩ := hback.handed
    have hswitch := h.onSwitch hhow (by simp [hover])
    rw [hback.target_eq] at hswitch
    cases hswitch

theorem Lawful.verify_eq (h : Lawful problem plan) (hg : problem.graph.IsTree)
    (finished : plan.leaves = []) : plan.verify problem = .ok (.ok ()) := by
  obtain ⟨reached, hreached, hverify⟩ := (h.tracked.clear hg finished).verify_eq hg finished
  have hjudge : plan.judge problem reached = .ok () := by
    refine judge_eq_ok_iff.mpr ⟨?_, h.placed.revalidate, h.path_passes⟩
    intro s how hhow
    exact (hreached s).mpr (reaches_iff.mp (h.tracked.handled_reached hhow))
  rw [hverify, hjudge]

end Plan

end PacketPlan
