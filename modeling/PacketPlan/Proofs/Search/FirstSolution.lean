import Mathlib.Data.Prod.Lex
import PacketPlan.Proofs.Search.Exploration

/-! # The first solution with few stages

No step frees a stage or takes back a pass, and the step that finishes a plan adds neither. As long
as no plan is finished, every derivation goes on from a plan in the frontier. A search that always
extends a plan with the fewest stages, and of these one with the fewest passes, therefore finishes a
best plan first.
-/
namespace PacketPlan

namespace Plan
variable {problem : Problem} {plan after : Plan}

/-- Stages count first, then passes. -/
def cost (plan : Plan) : ℤ ×ₗ ℤ := toLex (plan.stagesUsed, plan.recirculations)

theorem Alike.cost_eq {p q : Plan} (h : p.Alike q) : q.cost = p.cost := by
  rw [h.eq_rename.1]
  rfl

theorem Step.cost_le (h : plan.Step problem after) (hg : problem.graph.IsTree) :
    plan.cost ≤ after.cost := by
  apply Prod.Lex.toLex_mono
  rcases handles_of_step hg h with ⟨leaf, rest, children, how, h⟩ | ⟨leaf, rest, id, _, _, _, rfl⟩
  · have hstages := h.resources.stagesUsed_le
    have hpasses := h.recirculations
    exact ⟨Int.ofNat_le.mpr hstages, Int.ofNat_le.mpr hpasses.ge⟩
  · exact ⟨le_refl _, Int.ofNat_le.mpr (Nat.le_succ _)⟩

theorem Step.cost_eq_of_finished (h : plan.Step problem after) (hg : problem.graph.IsTree)
    (finished : after.leaves = []) : after.cost = plan.cost := by
  rcases handles_of_step hg h with ⟨leaf, rest, children, how, h⟩ | ⟨leaf, rest, id, _, _, _, rfl⟩
  · rw [h.leaves_eq] at finished
    have hsame := h.quiet (List.append_eq_nil_iff.mp finished).1
    simp only [cost, stagesUsed, Plan.recirculations, hsame, h.recirculations]
  · cases finished

structure Cheapest (problem : Problem) (plan : Plan) : Prop where
  derived : ∃ choices, Derives problem choices plan
  finished : plan.leaves = []
  least : ∀ choices other, Derives problem choices other → other.leaves = [] →
    plan.cost ≤ other.cost

end Plan

theorem Derives.cost_le {problem : Problem} (wp : problem.WellPosed) {ds ds' : List Choice}
    {plan above : Plan} (hd : Derives problem ds plan) (ha : Derives problem ds' above)
    (hsuffix : ds' <:+ ds) : above.cost ≤ plan.cost := by
  induction hd with
  | root id =>
    cases List.suffix_nil.mp hsuffix
    exact ((Derives.root id).alike ha).cost_eq.le
  | @expand choices plan t supply after e i c before known expanded chosen ih =>
    rcases List.suffix_cons_iff.mp hsuffix with rfl | hsuffix
    · exact ((Derives.expand before known expanded chosen).alike ha).cost_eq.le
    · have hstep := Technique.step_of_expand known expanded (List.mem_of_getElem? chosen)
      exact (ih hsuffix).trans (hstep.cost_le wp.tree)

/-! ## Scores -/

namespace Heuristic

def StageScore (score : Score) (plan : Plan) : Prop :=
  score.keys = [-plan.stagesUsed, -plan.recirculations, plan.progress]

theorem minStages_respects (problem : Problem) : minStages.Respects problem StageScore where
  score memory plan := by
    have hvalues := Score.ofValues_yields minStages.metrics
      [plan.stagesUsed, plan.recirculations, plan.progress]
    exact hvalues
  observe _ _ := trivial

theorem StageScore.cost_le {score score' : Score} {plan plan' : Plan} (h : StageScore score plan)
    (h' : StageScore score' plan') (hbest : Ranked.before score score' = false) :
    plan.cost ≤ plan'.cost := by
  have hkeys : lexBefore score.keys score'.keys = false := hbest
  rw [h, h'] at hkeys
  simp only [lexBefore, neg_inj] at hkeys
  rw [Plan.cost, Plan.cost, Prod.Lex.toLex_le_toLex]
  dsimp only
  split at hkeys
  · rename_i hstages
    refine .inr ⟨hstages, ?_⟩
    split at hkeys
    · rename_i hpasses
      exact hpasses.le
    · have hless := of_decide_eq_false hkeys
      omega
  · have hless := of_decide_eq_false hkeys
    omega

end Heuristic

/-! ## Searches -/

namespace Search
open Heuristic (StageScore)
variable {μ γ : Type} {problem : Problem} {h : Heuristic μ} {number : PlanId}

/-- As long as no plan was finished, a finished candidate of one of the best plans is cheapest. -/
theorem Explores.cheapest {s : Search μ γ} {r : Record} (he : s.Explores problem r)
    (hs : s.Orderly StageScore problem h) (wp : problem.WellPosed) (hnone : r.closed = [])
    {score : Score} {plan : Plan} (hin : (score, plan) ∈ s.unfinished.scored)
    (best : ∀ x ∈ s.unfinished.scored, Ranked.before score x.1 = false) {e : Expansion}
    {after : Supply}
    (expanded : Technique.expandAll s.problem plan s.problem.techniques s.supply = .ok (e, after))
    {c : Candidate} (hc : c ∈ e.candidates) (finished : c.plan.leaves = []) :
    c.plan.Cheapest problem := by
  have hplan : plan ∈ s.unfinished.toList :=
    Frontier.mem_toList.mpr ⟨score, hin⟩
  obtain ⟨_, choices, hderived⟩ := hs.derived plan hplan
  have hcandidate := hderived.expandAll expanded hc
  have hstep := Technique.step_of_expandAll expanded hc
  rw [hs.problem_eq] at hcandidate hstep
  refine ⟨hcandidate, finished, ?_⟩
  intro ds other hd hleaves
  rcases he.sound.covers hd with hdone | hclosed | ⟨x, hx, hsuffix⟩
  · exact absurd hleaves (he.sound.leaves_of_done hdone hd)
  · rw [hnone] at hclosed
    cases hclosed
  · have hopen : x.2 ∈ s.unfinished.scored.map Prod.snd :=
      s.unfinished.toList_perm.mem_iff.mp (he.opened.mem_iff.mp (List.mem_map_of_mem hx))
    obtain ⟨⟨score', waiting⟩, hwaiting, rfl⟩ := List.mem_map.mp hopen
    calc c.plan.cost = plan.cost := hstep.cost_eq_of_finished wp.tree finished
      _ ≤ x.2.cost := (hs.inOrder.ranks _ hin).cost_le (hs.inOrder.ranks _ hwaiting)
          (best _ hwaiting)
      _ ≤ other.cost := hd.cost_le wp (he.sound.derives x (List.mem_append_left _ hx)) hsuffix

/-- No plan was finished so far, or the only one is cheapest. -/
def FirstCheapest (problem : Problem) (s : Search μ γ) : Prop :=
  (∃ r, s.Explores problem r ∧ r.closed = []) ∨
    ∃ plan, s.finished.toList = [plan] ∧ plan.Cheapest problem

theorem FirstCheapest.step {s s' : Search μ γ} (hf : s.FirstCheapest problem)
    (hs : s.Orderly StageScore problem h) (wp : problem.WellPosed)
    (first : problem.search.stopOnFirstSolution = true) (hgo : s.mayStop = false)
    (hstep : StepsTo StageScore s s') : s'.FirstCheapest problem := by
  have hempty : s.finished.size = 0 := by
    simp only [mayStop, hs.problem_eq, first, Bool.true_and, Bool.or_eq_false_iff,
      Bool.not_eq_false', Frontier.isEmpty, decide_eq_true_eq] at hgo
    exact hgo.1
  have hfinished : s.finished.toList = [] :=
    List.length_eq_zero_iff.mp (hs.inOrder.finished.length_toList.trans hempty)
  rcases hf with ⟨r, he, hnone⟩ | ⟨plan, hone, _⟩
  · cases hstep with
    | @expand score plan left generator e after _ taken best expanded files =>
      have hadmitted : s.admitted (e.candidates.map Candidate.plan) =
          ((e.candidates.map Candidate.plan).filter Plan.isFinished).take 1 := by
        rw [admitted, hs.problem_eq, if_pos first, hempty]
      cases hkept : (e.candidates.map Candidate.plan).filter Plan.isFinished with
      | nil =>
        obtain ⟨ds, rest, news, _, hplans, he'⟩ := he.step hs taken expanded files
          (by rw [hadmitted, hkept, List.take_nil])
        refine .inl ⟨_, he', ?_⟩
        rw [← hplans, List.filter_map] at hkept
        simp only [Record.extend, hnone, List.append_nil]
        exact List.map_eq_nil_iff.mp hkept
      | cons plan' others =>
        have hin : plan' ∈ (e.candidates.map Candidate.plan).filter Plan.isFinished :=
          hkept ▸ List.mem_cons_self
        obtain ⟨hin, hleaves⟩ := List.mem_filter.mp hin
        obtain ⟨c, hc, rfl⟩ := List.mem_map.mp hin
        refine .inr ⟨c.plan, ?_, he.cheapest hs wp hnone (taken.mem_iff.mpr List.mem_cons_self) best
          expanded hc (List.isEmpty_iff.mp hleaves)⟩
        have hfiled : s'.finished.toList.Perm
            (s.admitted (e.candidates.map Candidate.plan) ++ s.finished.toList) :=
            files.finished_perm
        rw [hadmitted, hkept, hfinished] at hfiled
        exact List.perm_singleton.mp hfiled
  · rw [hone] at hfinished
    cases hfinished

theorem first_yields [Random.Source γ] (wp : problem.WellPosed)
    (hh : h.Respects problem StageScore) (first : problem.search.stopOnFirstSolution = true)
    (unbounded : problem.search.stepBudget = none) {ds : List Choice} {plan : Plan}
    (hd : Derives problem ds plan) (hleaves : plan.leaves = []) :
    Checked.Yields ((Search.start (γ := γ) problem h number).bind Search.run) fun outcome =>
      ∃ plan, outcome.finished = [plan] ∧ plan.Cheapest problem := by
  have hrun := outcome_yields (γ := γ) (P := FirstCheapest problem) number wp hh
    (fun _ hopen hnone hsteps => .inl ⟨_, explores_start hopen hnone hsteps, rfl⟩)
    (fun hs hf hgo hstep => hf.step hs wp first hgo hstep)
  apply hrun.mono
  rintro outcome _ ⟨s, ⟨r, he, hnone⟩ | hone, hs, hfinished, _, hend⟩
  · exfalso
    rcases hend with ⟨_, hnil⟩ | ⟨_, hstop⟩
    · -- The frontier is empty, and yet the derivation goes on from it.
      have hopened := he.opened
      rw [hnil] at hopened
      have hclosed := (he.sound.mem_closed_iff (List.map_eq_nil_iff.mp hopened.eq_nil) ds).mpr
        ⟨plan, hd, hleaves⟩
      rw [hnone] at hclosed
      cases hclosed
    · have hsize := hs.inOrder.finished.length_toList
      have hclosed := he.closed
      rw [hnone] at hclosed
      rw [hclosed.symm.eq_nil] at hsize
      simp [mayStop, hs.problem_eq, first, unbounded, Frontier.isEmpty, ← hsize] at hstop
  · rw [hfinished]
    exact hone

end Search

/-- Whatever chance decides, a search for few stages that stops at its first solution always ends,
and if any plan can be finished at all its only solution is one with the fewest stages and, among
these, with the fewest passes. -/
theorem min_stages_first_solution_is_cheapest {kinds : List NodeKind} {root : NodeId} {g : Graph}
    {c : Config} {problem : Problem} {γ : Type} [Random.Source γ]
    (accepted : Graph.ofKinds kinds root = .ok g) (posed : Problem.ofConfig g c = .ok problem)
    (named : c.search.heuristic = "min-stages") (first : c.search.stopOnFirstSolution = true)
    (unbounded : c.search.stepBudget = none) :
    synthesize g c γ ≠ .ok (.error .endless) ∧
      ∀ outcome, synthesize g c γ = .ok (.ok outcome) →
        (∃ choices plan, Derives problem choices plan ∧ plan.leaves = []) →
        ∃ plan, outcome.finished = [plan] ∧ (∃ choices, Derives problem choices plan) ∧
          plan.leaves = [] ∧ ∀ choices other, Derives problem choices other → other.leaves = [] →
            plan.stagesUsed < other.stagesUsed ∨
              plan.stagesUsed = other.stagesUsed ∧ plan.recirculations ≤ other.recirculations := by
  have wp := Problem.wellPosed_of_ofConfig accepted posed
  refine ⟨fun hf => absurd (synthesize_fault posed wp hf) (by simp [Fault.ofSearch]), ?_⟩
  rintro outcome ho ⟨ds, plan, hd, hleaves⟩
  obtain ⟨h, hnamed, hrun⟩ := exists_of_synthesize posed ho
  rw [named] at hnamed
  obtain rfl : Heuristic.minStages = h := Option.some.inj hnamed
  have hh := Heuristic.minStages_respects problem
  obtain ⟨_, platform, _, rfl⟩ := Problem.ofConfig_eq_ok.mp posed
  obtain ⟨best, hone, hbest⟩ := (Search.first_yields wp hh first unbounded hd hleaves).result hrun
  refine ⟨best, hone, hbest.derived, hbest.finished, ?_⟩
  intro choices other hother hfinished
  exact Prod.Lex.toLex_le_toLex.mp (hbest.least choices other hother hfinished)

def singleLookup : List NodeKind :=
  [.terminal .drop,
    .call {
      function := "map_get"
      args := .ofList [("obj", .addr ⟨1⟩), ("key", .term "k" 8)]
      next := some 0 },
    .call {
      function := "map_allocate"
      args := .ofList [("obj", .addr ⟨1⟩), ("capacity", .const 16 32)]
      next := some 1 }]

def switchOnly : Config where
  search := { heuristic := "min-stages" }
  targets := { enabled := [.switch] }

/-- A lookup on the switch takes a stage in every plan. -/
theorem single_lookup_takes_one_stage :
    ∃ g problem outcome, Graph.ofKinds singleLookup 2 = .ok g ∧
      Problem.ofConfig g switchOnly = .ok problem ∧ synthesize g switchOnly = .ok (.ok outcome) ∧
      (∃ choices plan, Derives problem choices plan ∧ plan.leaves = []) ∧
      outcome.finished.map Plan.stagesUsed = [1] ∧
      ∀ choices other, Derives problem choices other → other.leaves = [] → 1 ≤ other.stagesUsed := by
  obtain ⟨g, hg⟩ : ∃ g, Graph.ofKinds singleLookup 2 = .ok g := ⟨_, rfl⟩
  obtain ⟨problem, posed⟩ : ∃ problem, Problem.ofConfig g switchOnly = .ok problem := by
    cases hg
    exact ⟨_, rfl⟩
  have hderivable : ∃ choices plan, Derives problem choices plan ∧ plan.leaves = [] := by
    cases hg
    cases posed
    exact ⟨[(⟨.switch, .route⟩, 0), (⟨.switch, .tableLookup⟩, 0), (⟨.switch, .allocate⟩, 0)], _,
      derives_of_replay rfl, rfl⟩
  obtain ⟨outcome, ho, hstages⟩ := exists_outcome (g := g) (c := switchOnly)
    (p := fun o => o.finished.map Plan.stagesUsed = [1]) (by cases hg; decide +kernel)
  have hstages := of_decide_eq_true hstages
  refine ⟨g, problem, outcome, hg, posed, ho, hderivable, hstages, ?_⟩
  obtain ⟨plan, hone, _, _, hleast⟩ :=
    (min_stages_first_solution_is_cheapest hg posed rfl rfl rfl).2 outcome ho hderivable
  rw [hone] at hstages
  have hplan : plan.stagesUsed = 1 := List.head_eq_of_cons_eq hstages
  intro choices other hother hfinished
  have hless := hleast choices other hother hfinished
  omega

end PacketPlan
