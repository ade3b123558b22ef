import Mathlib.Order.Bounds.Defs
import PacketPlan.Proofs.Plan.Coverage

/-! # What the check of a finished plan decides

A plan may also be put together by hand, from any modules and leaves. The check is there for such
plans: it accepts one exactly if the handled sites are the least set that has to be covered, the
placements hold and no path recirculates too often. There is one exception. If the walk comes to a
node that the controller hands over to itself, the check gives no answer, however long it is waited
for.
-/
namespace PacketPlan

theorem Module.handsOver?_eq_some_iff {m : Module} {t : Target} :
    m.handsOver? = some t ↔ m.action = .sendToController ∧ t = .controller := by
  unfold handsOver?
  split
  · rename_i hm
    rw [Option.some.injEq]
    exact ⟨fun h => ⟨hm, h.symm⟩, fun h => h.2.symm⟩
  · rename_i hm
    exact ⟨nofun, fun h => absurd h.1 hm⟩

namespace Plan
variable {problem : Problem} {plan after : Plan} {s : Site} {how : Option PlanNodeId} {R : Set Site}

/-- A plan that is put together by hand. Modules and leaves are any that are not refused, and what
the plan binds and places is not looked at. -/
inductive Built (problem : Problem) : Plan → Prop
  | empty (id : PlanId) : Built problem (.empty problem id)
  | adjust {plan : Plan} (before : Built problem plan) (id : PlanId) (bindings : Bindings)
      (resources : Pipeline) : Built problem { plan with id, bindings, resources }
  | attach {plan after : Plan} {id : PlanNodeId} (before : Built problem plan) (m : Module)
      (children : List Leaf) (made : plan.attach m children = .ok (id, after)) : Built problem after
  | skip {plan after : Plan} (before : Built problem plan) (children : List Leaf)
      (made : plan.skip children = .ok after) : Built problem after
  | recirculate {plan after : Plan} (before : Built problem plan)
      (made : plan.recirculate = .ok after) : Built problem after

/-- Modules that handle sites are nodes of the plan, and made for the site. -/
def Registered (plan : Plan) : Prop :=
  ∀ s id, plan.ledger.processed? s = some (some id) →
    ∃ a, plan.module? id = some ⟨s.target, s.node, a⟩

theorem Registered.attach (h : plan.Registered) {m : Module} {children : List Leaf}
    {id : PlanNodeId} (made : plan.attach m children = .ok (id, after)) : after.Registered := by
  cases hl : plan.leaves with
  | nil =>
    rw [Plan.attach, hl] at made
    cases made
  | cons leaf rest =>
    obtain ⟨⟨hnode, htarget⟩, _, _, _, hafter⟩ := Technique.attach_eq_ok hl made
    have hattached : after =
        plan.attached plan.id plan.bindings plan.resources leaf rest m children none := hafter
    intro s i hs
    rw [hattached, Ledger.processed?, attached_processed, OrdMap.get?_insert] at hs
    rw [hattached]
    split at hs
    · rename_i hsite
      cases hs
      refine ⟨m.action, attached_module?_new.trans ?_⟩
      rw [hsite, Leaf.site, ← hnode, ← htarget]
    · obtain ⟨a, ha⟩ := h s i hs
      exact ⟨a, attached_module?_old ha⟩

theorem Registered.skip (h : plan.Registered) {children : List Leaf}
    (made : plan.skip children = .ok after) : after.Registered := by
  cases hl : plan.leaves with
  | nil =>
    rw [Plan.skip, hl] at made
    cases made
  | cons leaf rest =>
    simp only [Plan.skip, hl] at made
    obtain ⟨ledger, hledger, made⟩ := bind_eq_ok.mp made
    obtain ⟨_, rfl⟩ := Technique.markProcessed_eq_ok hledger
    cases made
    intro s i hs
    rw [Ledger.processed?, OrdMap.get?_insert] at hs
    split at hs
    · cases hs
    · exact h s i hs

theorem Registered.recirculate (h : plan.Registered) (made : plan.recirculate = .ok after) :
    after.Registered := by
  cases hl : plan.leaves with
  | nil =>
    rw [Plan.recirculate, hl] at made
    cases made
  | cons leaf rest =>
    simp only [Plan.recirculate, hl] at made
    obtain ⟨again, _, made⟩ := bind_eq_ok.mp made
    cases made
    exact h

theorem Built.registered (h : Built problem plan) : plan.Registered := by
  induction h with
  | empty => intro s id hs; cases hs
  | adjust _ _ _ _ ih => exact ih
  | attach _ _ _ made ih => exact ih.attach made
  | skip _ _ made ih => exact ih.skip made
  | recirculate _ made ih => exact ih.recirculate made

/-! ## The sites that have to be covered -/

def HandsOverAt (plan : Plan) (s : Site) : Prop :=
  ∃ id m, plan.ledger.processed? s = some (some id) ∧ plan.module? id = some m ∧
    m.action = .sendToController

/-- The set has the site where packets enter and all that follow from its sites: the same node on
the controller where packets are handed over, and the nodes below on the same target elsewhere. -/
structure Covers (problem : Problem) (plan : Plan) (R : Set Site) : Prop where
  start : ⟨problem.graph.root, problem.platform.initial⟩ ∈ R
  handedOver : ∀ {s}, s ∈ R → plan.HandsOverAt s → ⟨s.node, .controller⟩ ∈ R
  follows : ∀ {s c}, s ∈ R → ¬plan.HandsOverAt s → problem.graph.Child s.node c →
    ⟨c, s.target⟩ ∈ R

def handled (plan : Plan) : Set Site := {s | ∃ how, plan.ledger.processed? s = some how}

theorem handsOverAt_iff (hs : plan.ledger.processed? s = some how) :
    plan.HandsOverAt s ↔ plan.takesOver? how = some .controller := by
  rw [takesOver?_eq]
  constructor
  · rintro ⟨id, m, hid, hm, ha⟩
    rw [hs] at hid
    cases hid
    rw [Option.bind_some, hm]
    exact Module.handsOver?_eq_some_iff.mpr ⟨ha, rfl⟩
  · intro hover
    obtain ⟨m, hm, hhands⟩ := Option.bind_eq_some_iff.mp hover
    obtain ⟨id, rfl, hm⟩ := Option.bind_eq_some_iff.mp hm
    exact ⟨id, m, hs, hm, (Module.handsOver?_eq_some_iff.mp hhands).1⟩

theorem not_handsOverAt_iff (hs : plan.ledger.processed? s = some how) :
    ¬plan.HandsOverAt s ↔ plan.takesOver? how = none := by
  rw [handsOverAt_iff hs]
  cases ht : plan.takesOver? how with
  | none => simp
  | some t => simp [takesOver?_eq_some ht]

theorem Covers.of_reaches (h : Covers problem plan R) (hs : plan.Reaches problem s) : s ∈ R := by
  induction hs with
  | start => exact h.start
  | @next s s' how _ hhow follows ih =>
    rcases mem_nextSites.mp follows with ⟨hover, rfl⟩ | ⟨hkeeps, hchild, htarget⟩
    · exact h.handedOver ih ((handsOverAt_iff hhow).mpr hover)
    · have hmem := h.follows ih ((not_handsOverAt_iff hhow).mpr hkeeps) hchild
      rw [← htarget] at hmem
      exact hmem

theorem covers_reached (h : ∀ s, plan.Reaches problem s → s ∈ plan.handled) :
    Covers problem plan {s | plan.Reaches problem s} where
  start := .start
  handedOver := by
    intro s hs hover
    obtain ⟨how, hhow⟩ := h s hs
    exact .next hs hhow (mem_nextSites.mpr (.inl ⟨(handsOverAt_iff hhow).mp hover, rfl⟩))
  follows := by
    intro s c hs hkeeps hchild
    obtain ⟨how, hhow⟩ := h s hs
    have hnone := (not_handsOverAt_iff hhow).mp hkeeps
    exact .next hs hhow (mem_nextSites.mpr (.inr ⟨hnone, hchild, rfl⟩))

/-- A plan covers no more than it has to exactly if it has handled what is reached. -/
theorem isLeast_handled_iff : IsLeast {R | Covers problem plan R} plan.handled ↔
    ∀ s, s ∈ plan.handled ↔ plan.Reaches problem s := by
  constructor
  · rintro ⟨hcovers, hleast⟩
    have hreached : ∀ s, plan.Reaches problem s → s ∈ plan.handled :=
      fun s hs => Covers.of_reaches hcovers hs
    intro s
    exact ⟨fun hs => hleast (covers_reached hreached) hs, hreached s⟩
  · intro h
    have hsame : plan.handled = {s | plan.Reaches problem s} := Set.ext h
    rw [hsame]
    exact ⟨covers_reached fun s hs => (h s).mpr hs, fun R hR s hs => Covers.of_reaches hR hs⟩

theorem Registered.of_handsBack (h : plan.Registered) (back : plan.HandsBack s) :
    ∃ id, plan.ledger.processed? s = some (some id) ∧
      plan.module? id = some ⟨.controller, s.node, .sendToController⟩ := by
  obtain ⟨how, hhow, hover⟩ := back.handed
  obtain ⟨id, m, hid, hm, ha⟩ := (handsOverAt_iff hhow).mpr hover
  obtain ⟨a, hmade⟩ := h s id hid
  rw [hm, Option.some.injEq] at hmade
  subst hmade
  cases ha
  rw [← back.target_eq]
  exact ⟨id, hid, hm⟩

/-! ## Verdicts -/

theorem verify_of_leaves (h : plan.leaves ≠ []) :
    plan.verify problem = .ok (.error (.unfinished plan.leaves.length)) := by
  rw [verify, if_neg]
  rwa [List.isEmpty_iff]

/-- What the check asks of a plan: no leaf is left, the handled sites are those that have to be
covered, the placements hold, and no path takes more passes than allowed. -/
structure Complete (problem : Problem) (plan : Plan) : Prop where
  finished : plan.leaves = []
  covered : IsLeast {R | Covers problem plan R} plan.handled
  placed : plan.resources.revalidate = .ok ()
  passes : ∀ path ∈ plan.ledger.completed, path.recirculations ≤ problem.platform.maxRecirculations

theorem Clear.judge_eq_iff_complete (finished : plan.leaves = [])
    (h : Clear problem.graph plan ⟨problem.graph.root, problem.platform.initial⟩)
    {reached : OrdSet Site} (hreached : ∀ x, x ∈ reached ↔ plan.Reaches problem x) :
    plan.judge problem reached = .ok () ↔ plan.Complete problem := by
  have hhandled : ∀ s, plan.Reaches problem s → s ∈ plan.handled :=
    fun s hs => (h.reaches (reaches_iff.mp hs)).handled
  simp only [judge_eq_ok_iff, hreached]
  constructor
  · rintro ⟨hprocessed, hplaced, hpasses⟩
    refine ⟨finished, isLeast_handled_iff.mpr ?_, hplaced, hpasses⟩
    intro s
    exact ⟨fun ⟨how, hhow⟩ => hprocessed s how hhow, hhandled s⟩
  · rintro ⟨_, hcovered, hplaced, hpasses⟩
    refine ⟨?_, hplaced, hpasses⟩
    intro s how hhow
    exact (isLeast_handled_iff.mp hcovered s).mp ⟨how, hhow⟩

theorem StopsAt.not_complete {x : Site}
    (h : StopsAt problem.graph plan ⟨problem.graph.root, problem.platform.initial⟩ x) :
    ¬plan.Complete problem := by
  intro hcomplete
  have hx := reaches_iff.mpr h.visited.reaches
  obtain ⟨how, hhow⟩ := (isLeast_handled_iff.mp hcomplete.covered x).mpr hx
  rw [h.unhandled] at hhow
  cases hhow

/-- Without a way back, the check answers, and rightly so. -/
theorem verify_eq_of_not_visits (hg : problem.graph.IsTree) (plan : Plan)
    (forward : ∀ x, Visits problem.graph plan ⟨problem.graph.root, problem.platform.initial⟩ x →
      ¬plan.HandsBack x) :
    ∃ verdict, plan.verify problem = .ok verdict ∧ (verdict = .ok () ↔ plan.Complete problem) := by
  by_cases hl : plan.leaves = []
  · rcases walk_outcome hg plan ⟨problem.graph.root, problem.platform.initial⟩ hg.root_lt with
      hclear | ⟨x, hstops⟩ | ⟨x, hvisits, hback⟩
    · obtain ⟨reached, hreached, hverify⟩ := hclear.verify_eq hg hl
      refine ⟨_, hverify, hclear.judge_eq_iff_complete hl ?_⟩
      intro x
      rw [hreached, reaches_iff]
    · exact ⟨_, hstops.verify_eq hg hl, nofun, fun hcomplete => absurd hcomplete hstops.not_complete⟩
    · exact absurd hback (forward x hvisits)
  · exact ⟨_, verify_of_leaves hl, nofun, fun hcomplete => absurd hcomplete.finished hl⟩

/-- The walk over a plan without leaves comes to a node on the controller, which hands it over to
the controller. -/
structure TurnsBack (problem : Problem) (plan : Plan) (n : NodeId) : Prop where
  finished : plan.leaves = []
  visited : Visits problem.graph plan ⟨problem.graph.root, problem.platform.initial⟩ ⟨n, .controller⟩
  mapped : ∃ id, plan.ledger.processed? ⟨n, .controller⟩ = some (some id) ∧
    plan.module? id = some ⟨.controller, n, .sendToController⟩

theorem TurnsBack.handsBack {n : NodeId} (h : plan.TurnsBack problem n) :
    plan.HandsBack ⟨n, .controller⟩ := by
  obtain ⟨id, hid, hm⟩ := h.mapped
  exact ⟨rfl, some id, hid, (handsOverAt_iff hid).mp ⟨id, _, hid, hm, rfl⟩⟩

theorem Registered.turnsBack (h : plan.Registered) (finished : plan.leaves = [])
    (visits : Visits problem.graph plan ⟨problem.graph.root, problem.platform.initial⟩ s)
    (back : plan.HandsBack s) : plan.TurnsBack problem s.node := by
  have hsite : (⟨s.node, .controller⟩ : Site) = s := by rw [← back.target_eq]
  refine ⟨finished, ?_, ?_⟩
  · rw [hsite]
    exact visits
  · rw [hsite]
    exact h.of_handsBack back

end Plan
open Plan

/-- If no module on the controller hands packets over, the check answers, and it accepts exactly the
plans that are complete. -/
theorem verify_decides_coverage {kinds : List NodeKind} {root : NodeId} {g : Graph} {c : Config}
    {problem : Problem} {plan : Plan} (accepted : Graph.ofKinds kinds root = .ok g)
    (posed : Problem.ofConfig g c = .ok problem) (built : Built problem plan)
    (outward : ∀ n ∈ plan.nodes, n.module.action = .sendToController →
      n.module.target ≠ .controller) :
    ∃ verdict, plan.verify problem = .ok verdict ∧ (verdict = .ok () ↔ plan.Complete problem) := by
  apply verify_eq_of_not_visits (Problem.wellPosed_of_ofConfig accepted posed).tree
  intro x _ hback
  obtain ⟨id, _, hm⟩ := built.registered.of_handsBack hback
  obtain ⟨n, hn, hmodule⟩ := Option.map_eq_some_iff.mp hm
  have hmem : n ∈ plan.nodes := List.mem_of_getElem? hn
  exact outward n hmem (by rw [hmodule]) (by rw [hmodule])

def forkedEnds : List NodeKind := [.terminal .drop, .terminal .drop, .branch (.term "c" 1) 0 1]

/-- One side is routed on the switch; the other one is handed over, and left to the controller
without a module. Four sites have to be covered. -/
theorem handed_over_side_is_covered :
    ∃ g problem plan, Graph.ofKinds forkedEnds 2 = .ok g ∧ Problem.ofConfig g {} = .ok problem ∧
      Built problem plan ∧
      (∀ n ∈ plan.nodes, n.module.action = .sendToController → n.module.target ≠ .controller) ∧
      plan.ledger.processed.keys = [⟨0, .switch⟩, ⟨0, .controller⟩, ⟨1, .switch⟩, ⟨2, .switch⟩] ∧
      plan.verify problem = .ok (.ok ()) ∧ plan.Complete problem := by
  obtain ⟨g, accepted⟩ : ∃ g, Graph.ofKinds forkedEnds 2 = .ok g := ⟨_, rfl⟩
  obtain ⟨problem, posed, plan, built, outward, hkeys, hverify⟩ :
      ∃ problem, Problem.ofConfig g {} = .ok problem ∧ ∃ plan, Built problem plan ∧
        (∀ n ∈ plan.nodes, n.module.action = .sendToController →
          n.module.target ≠ .controller) ∧
        plan.ledger.processed.keys =
          [⟨0, .switch⟩, ⟨0, .controller⟩, ⟨1, .switch⟩, ⟨2, .switch⟩] ∧
        plan.verify problem = .ok (.ok ()) := by
    cases accepted
    exact ⟨_, rfl, _, (Built.empty 0)
      |>.attach ⟨.switch, 2, .branch (.term "c" 1)⟩ [.root 0 .switch, .root 1 .switch] rfl
      |>.attach ⟨.switch, 0, .sendToController⟩ [.root 0 .controller] rfl
      |>.skip [] rfl
      |>.attach ⟨.switch, 1, .route .drop⟩ [] rfl, by decide, rfl, rfl⟩
  obtain ⟨verdict, hverdict, hiff⟩ := verify_decides_coverage accepted posed built outward
  rw [hverify] at hverdict
  cases hverdict
  exact ⟨g, problem, plan, accepted, posed, built, outward, hkeys, hverify, hiff.mp rfl⟩

/-- The check answers unless the walk turns back at a node on the controller. Then no number of
visits is enough. -/
theorem verify_answers_unless_turned_back {kinds : List NodeKind} {root : NodeId} {g : Graph}
    {c : Config} {problem : Problem} {plan : Plan} (accepted : Graph.ofKinds kinds root = .ok g)
    (posed : Problem.ofConfig g c = .ok problem) (built : Built problem plan) :
    ((∃ verdict, plan.verify problem = .ok verdict) ↔ ¬∃ n, plan.TurnsBack problem n) ∧
      ((∃ n, plan.TurnsBack problem n) → plan.verify problem = .error .endless ∧
        ∀ visits, plan.walk problem.graph visits
          [⟨problem.graph.root, problem.platform.initial⟩] ∅ = none) := by
  have hg := (Problem.wellPosed_of_ofConfig accepted posed).tree
  have hendless : (∃ n, plan.TurnsBack problem n) → plan.verify problem = .error .endless := by
    rintro ⟨n, hback⟩
    exact hback.visited.verify_eq hg hback.finished hback.handsBack
  refine ⟨⟨?_, ?_⟩, ?_⟩
  · rintro ⟨verdict, hverify⟩ hback
    rw [hendless hback] at hverify
    cases hverify
  · intro hforward
    by_cases hl : plan.leaves = []
    · obtain ⟨verdict, hverify, _⟩ := verify_eq_of_not_visits hg plan fun x hx hback =>
        hforward ⟨x.node, built.registered.turnsBack hl hx hback⟩
      exact ⟨verdict, hverify⟩
    · exact ⟨_, verify_of_leaves hl⟩
  · intro hback
    refine ⟨hendless hback, ?_⟩
    intro visits
    obtain ⟨n, hback⟩ := hback
    exact hback.visited.walk_eq_none hg hg.root_lt hback.handsBack

def controllerOnly : Config := { targets := { initial := .controller, enabled := [.controller] } }

/-- The walk passes the side that is looked at first, which is routed, and turns back at the
other. -/
theorem second_side_turns_back :
    ∃ g problem plan, Graph.ofKinds forkedEnds 2 = .ok g ∧
      Problem.ofConfig g controllerOnly = .ok problem ∧ Built problem plan ∧
      plan.TurnsBack problem 0 ∧ plan.verify problem = .error .endless ∧
      ∀ visits, plan.walk problem.graph visits
        [⟨problem.graph.root, problem.platform.initial⟩] ∅ = none := by
  obtain ⟨g, accepted⟩ : ∃ g, Graph.ofKinds forkedEnds 2 = .ok g := ⟨_, rfl⟩
  obtain ⟨problem, posed, plan, built, back⟩ :
      ∃ problem, Problem.ofConfig g controllerOnly = .ok problem ∧ ∃ plan, Built problem plan ∧
        plan.TurnsBack problem 0 := by
    cases accepted
    refine ⟨_, rfl, _, (Built.empty 0)
      |>.skip [.root 0 .controller, .root 1 .controller] rfl
      |>.attach ⟨.controller, 0, .sendToController⟩ [] rfl
      |>.skip [] rfl, rfl, ?_, 0, rfl, rfl⟩
    refine @Visits.next _ _ _ _ ⟨0, .controller⟩ none [⟨1, .controller⟩] [] .first rfl rfl ?_
    intro b hb
    cases List.mem_singleton.mp hb
    exact .intro rfl nofun
  obtain ⟨_, hendless⟩ := verify_answers_unless_turned_back accepted posed built
  exact ⟨g, problem, plan, accepted, posed, built, back, hendless ⟨0, back⟩⟩

/-- A single node that the controller hands over to itself: the check does not answer. -/
theorem controller_waits_for_itself :
    ∃ g problem plan, Graph.ofKinds [.terminal .drop] 0 = .ok g ∧
      Problem.ofConfig g controllerOnly = .ok problem ∧ Built problem plan ∧
      (¬∃ verdict, plan.verify problem = .ok verdict) ∧
      ∀ visits, plan.walk problem.graph visits
        [⟨problem.graph.root, problem.platform.initial⟩] ∅ = none := by
  obtain ⟨g, accepted⟩ : ∃ g, Graph.ofKinds [.terminal .drop] 0 = .ok g := ⟨_, rfl⟩
  obtain ⟨problem, posed, plan, built, back, endless⟩ :
      ∃ problem, Problem.ofConfig g controllerOnly = .ok problem ∧ ∃ plan, Built problem plan ∧
        plan.HandsBack ⟨problem.graph.root, problem.platform.initial⟩ ∧
        plan.verify problem = .error .endless := by
    cases accepted
    exact ⟨_, rfl, _, (Built.empty 0).attach ⟨.controller, 0, .sendToController⟩ [] rfl,
      ⟨rfl, some 0, rfl, rfl⟩, rfl⟩
  refine ⟨g, problem, plan, accepted, posed, built, ?_, fun visits => back.walk_eq_none⟩
  rintro ⟨verdict, hverify⟩
  rw [endless] at hverify
  cases hverify

end PacketPlan
