import PacketPlan.Proofs.Search.Run

/-! # Finished plans are sound

Whatever the heuristic and whatever the choices among equals, a search holds derived plans only, and
the check of finished plans accepts all of these that have no leaves. So no search condemns a plan.
-/
namespace PacketPlan

namespace Search
variable {μ γ : Type} [Random.Source γ] {R : Score → Plan → Prop} {problem : Problem}
variable {h : Heuristic μ} {number : PlanId}

/-- The search is met in the course of a search for the problem, at its start or after a step. The
empty plan has the given number. -/
inductive Reached (problem : Problem) (h : Heuristic μ) (number : PlanId) : Search μ γ → Prop
  | start {s : Search μ γ} (started : Search.start problem h number = .ok s) :
      Reached problem h number s
  | step {s s' : Search μ γ} {outcome : StepOutcome} (before : Reached problem h number s)
      (stepped : s.step = .ok (outcome, s')) : Reached problem h number s'

theorem Reached.orderly {s : Search μ γ} (hs : Reached problem h number s) (wp : problem.WellPosed)
    (hh : h.Respects problem R) : s.Orderly R problem h := by
  induction hs with
  | start started => exact ((start_yields hh).result started).1
  | step _ stepped ih =>
    rcases (ih.step_yields wp hh).result stepped with ⟨he, _⟩ | ⟨_, hstep⟩
    · cases he
      exact ih
    · exact hstep.orderly ih

end Search

/-- Every derived plan without leaves passes the check, so that no search reports an invalid one,
whatever heuristic decides on the order in which plans are extended. -/
theorem derived_finished_plan_is_valid {kinds : List NodeKind} {root : NodeId} {g : Graph}
    {c : Config} {problem : Problem} (accepted : Graph.ofKinds kinds root = .ok g)
    (posed : Problem.ofConfig g c = .ok problem) :
    (∀ choices plan, Derives problem choices plan → plan.leaves = [] →
        plan.verify problem = .ok (.ok ())) ∧
      (∀ (μ γ : Type) [Random.Source γ] (h : Heuristic μ), h.Quiet →
        ∀ number (s : Search μ γ), Search.Reached problem h number s →
          ∀ id defect, s.step ≠ .error (.invalidFinish id defect)) ∧
      (∀ h ∈ Heuristic.all, h.Quiet) ∧
      ∀ (γ : Type) [Random.Source γ] id defect,
        synthesize g c γ ≠ .ok (.error (.invalidFinish id defect)) := by
  have wp := Problem.wellPosed_of_ofConfig accepted posed
  refine ⟨?_, ?_, ?_, ?_⟩
  · intro choices plan derived finished
    exact (derived.lawful wp).verify_eq wp.tree finished
  · intro μ γ _ h hq number s hs id defect hstep
    have hh := hq.respects problem
    exact absurd (((hs.orderly wp hh).step_yields wp hh).fault hstep) (by simp [Fault.ofSearch])
  · exact fun h hh => Heuristic.quiet_of_mem_all hh
  · intro γ _ id defect hf
    exact absurd (synthesize_fault posed wp hf) (by simp [Fault.ofSearch])

/-- A path that is handed over at its first node. -/
theorem handed_over_plan_is_valid :
    ∃ g problem plan, Graph.ofKinds
        [.terminal .drop, .call { function := "current_time", next := some 0 }] 1 = .ok g ∧
      Problem.ofConfig g {} = .ok problem ∧
      Derives problem [(⟨.controller, .route⟩, 0), (⟨.controller, .ignore⟩, 0),
        (⟨.switch, .sendToController⟩, 0)] plan ∧
      plan.leaves = [] ∧ plan.verify problem = .ok (.ok ()) := by
  refine ⟨_, _, _, rfl, rfl, derives_of_replay rfl, rfl, ?_⟩
  exact (@derived_finished_plan_is_valid
    [.terminal .drop, .call { function := "current_time", next := some 0 }] 1 _ {} _ rfl rfl).1
    [(⟨.controller, .route⟩, 0), (⟨.controller, .ignore⟩, 0), (⟨.switch, .sendToController⟩, 0)] _
    (derives_of_replay rfl) rfl

end PacketPlan
