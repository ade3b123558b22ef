import Mathlib.Algebra.Group.Action.Defs
import PacketPlan.Proofs.Plan.Potential
import PacketPlan.Proofs.Search.Filing

/-! # Runs of a search

A search for a problem holds derived plans only. Each step takes a plan from the tree of all plans
that can follow from those in the frontier, of which there are fewer than the bound on steps, so
that a run always comes to its end.
-/
namespace PacketPlan

namespace Search
variable {μ γ : Type} {R : Score → Plan → Prop} {problem : Problem} {h : Heuristic μ}
variable {number : PlanId}

structure Orderly (R : Score → Plan → Prop) (problem : Problem) (h : Heuristic μ) (s : Search μ γ) :
    Prop where
  problem_eq : s.problem = problem
  heuristic_eq : s.heuristic = h
  inOrder : s.InOrder R
  derived : s.Derived

theorem start_yields [Random.Source γ] (hh : h.Respects problem R) :
    (Search.start problem h number).Yields fun s : Search μ γ => Orderly R problem h s ∧
      s.unfinished.toList = [.empty problem number] ∧ s.finished.toList = [] ∧ s.steps = 0 := by
  apply (hh.score h.start (.empty problem number)).bind
  intro score _ hscore
  have hone := Frontier.toList_insert_empty score (Plan.empty problem number)
  refine ⟨⟨rfl, rfl, ⟨Frontier.valid_empty.insert _ _, ?_, Frontier.valid_empty⟩, ?_⟩, hone, rfl,
    rfl⟩
  · have hnone : (∅ : Frontier Plan).Ranks R := nofun
    exact hnone.insert Frontier.valid_empty hscore
  · intro plan hplan
    rw [hone] at hplan
    cases List.mem_singleton.mp hplan
    exact ⟨List.cons_ne_nil _ _, [], .root number⟩

theorem StepsTo.orderly {s s' : Search μ γ} (hs : s.Orderly R problem h) (hstep : StepsTo R s s') :
    s'.Orderly R problem h := by
  cases hstep with
  | @expand score plan left generator e after _ taken best expanded files =>
    have hperm := Frontier.toList_of_taken taken
    refine ⟨files.problem_eq.trans hs.problem_eq, files.heuristic_eq.trans hs.heuristic_eq,
      files.inOrder, ?_⟩
    intro plan' hplan'
    rw [files.problem_eq]
    rcases List.mem_append.mp (files.unfinished_perm.mem_iff.mp hplan') with hnew | hold
    · obtain ⟨hnew, hopen⟩ := List.mem_filter.mp hnew
      obtain ⟨c, hc, rfl⟩ := List.mem_map.mp hnew
      obtain ⟨_, choices, hderived⟩ := hs.derived plan (hperm.mem_iff.mpr List.mem_cons_self)
      exact ⟨by simpa [Plan.isFinished] using hopen, hderived.expandAll expanded hc⟩
    · exact hs.derived plan' (hperm.mem_iff.mpr (List.mem_cons_of_mem plan hold))

theorem Orderly.step_yields [Random.Source γ] {s : Search μ γ} (hs : s.Orderly R problem h)
    (wp : problem.WellPosed) (hh : h.Respects problem R) :
    s.step.Yields fun r => (r = (.exhausted, s) ∧ s.unfinished.toList = []) ∨
      ((∃ id n k, r.1 = .expanded id n k) ∧ StepsTo R s r.2) := by
  apply Search.step_yields _ _ hs.inOrder hs.derived
  · rw [hs.problem_eq]
    exact wp
  · rw [hs.problem_eq, hs.heuristic_eq]
    exact hh

/-! ## The steps that can follow -/

/-- The plans with leaves in a tree of so many levels, if each has as many candidates as
possible. -/
def treeSize : Nat → Nat
  | 0 => 0
  | levels + 1 => candidateBound * treeSize levels + 1

theorem treeSize_mono {m n : Nat} (hmn : m ≤ n) : treeSize m ≤ treeSize n := by
  induction n generalizing m with
  | zero =>
    rw [Nat.le_zero.mp hmn]
  | succ n ih =>
    cases m with
    | zero => exact Nat.zero_le _
    | succ m =>
      have hle := Nat.mul_le_mul_left candidateBound (ih (Nat.le_of_succ_le_succ hmn))
      exact Nat.succ_le_succ hle

theorem treeSize_lt_pow (levels : Nat) : treeSize levels < candidateBound ^ levels := by
  induction levels with
  | zero => exact Nat.zero_lt_one
  | succ levels ih =>
    simp only [treeSize, candidateBound, Nat.pow_succ] at ih ⊢
    omega

/-- A bound on the steps of a search from here on. -/
def pendingSteps (s : Search μ γ) : Nat :=
  (s.unfinished.toList.map fun plan => treeSize (plan.potential s.problem)).sum

theorem StepsTo.pendingSteps_lt {s s' : Search μ γ} (wp : problem.WellPosed)
    (hs : s.Orderly R problem h) (hstep : StepsTo R s s') : s'.pendingSteps < s.pendingSteps := by
  cases hstep with
  | @expand score plan left generator e after _ taken best expanded files =>
    have hperm := Frontier.toList_of_taken taken
    obtain ⟨hleaves, choices, hderived⟩ := hs.derived plan (hperm.mem_iff.mpr List.mem_cons_self)
    have wp' : s.problem.WellPosed := hs.problem_eq ▸ wp
    have lawful := hderived.lawful wp'
    have hpos := lawful.potential_pos wp'.tree hleaves
    obtain ⟨levels, hlevels⟩ := Nat.exists_eq_add_one_of_ne_zero (Nat.ne_of_gt hpos)
    -- Each candidate is one level further down, and there are not too many of them.
    have hnew : ∀ n ∈ ((e.candidates.map Candidate.plan).filter fun p => !p.isFinished).map
        (fun plan => treeSize (plan.potential s.problem)), n ≤ treeSize levels := by
      intro n hn
      obtain ⟨p, hp, rfl⟩ := List.mem_map.mp hn
      obtain ⟨c, hc, rfl⟩ := List.mem_map.mp (List.mem_filter.mp hp).1
      have hlt := (Technique.step_of_expandAll expanded hc).potential_lt wp'.tree lawful
      exact treeSize_mono (by omega)
    have hsum := List.sum_le_card_nsmul _ _ hnew
    have hcount := Technique.expandAll_length_le expanded
    have hfilter := List.length_filter_le (fun p => !p.isFinished) (e.candidates.map Candidate.plan)
    rw [List.length_map] at hsum hfilter
    have hmul := Nat.mul_le_mul_right (treeSize levels) (Nat.le_trans hfilter hcount)
    have hbefore := (hperm.map fun plan => treeSize (plan.potential s.problem)).sum_eq
    have hafter := (files.unfinished_perm.map fun plan => treeSize (plan.potential s.problem)).sum_eq
    simp only [pendingSteps, files.problem_eq]
    simp only [List.map_cons, List.sum_cons, List.map_append, List.sum_append] at hbefore hafter
    rw [hbefore, hafter, hlevels, treeSize, candidateBound]
    simp only [smul_eq_mul] at hsum
    omega

theorem Orderly.pendingSteps_lt_stepBound {s : Search μ γ} (hs : s.Orderly R problem h)
    (wp : problem.WellPosed) (hopen : s.unfinished.toList = [.empty problem number]) :
    s.pendingSteps < problem.stepBound := by
  have hle := treeSize_mono (Plan.potential_empty_le wp.tree number)
  have hlt := treeSize_lt_pow problem.depthBound
  have hpow := Nat.pow_le_pow_right (by decide : 0 < candidateBound)
    (Nat.le_succ problem.depthBound)
  simp only [pendingSteps, hopen, hs.problem_eq, List.map_cons, List.map_nil, List.sum_singleton,
    Problem.stepBound]
  exact Nat.lt_of_le_of_lt hle (Nat.lt_of_lt_of_le hlt hpow)

variable [Random.Source γ]

/-- What a run keeps from step to step holds at its end, which it always reaches. -/
theorem Orderly.runWithin_yields {s : Search μ γ} (wp : problem.WellPosed)
    (hh : h.Respects problem R) {P : Search μ γ → Prop}
    (keeps : ∀ {s s' : Search μ γ}, s.Orderly R problem h → P s → s.mayStop = false →
      StepsTo R s s' → P s') (hs : s.Orderly R problem h) (hP : P s) {steps : Nat}
    (enough : s.pendingSteps < steps) :
    (s.runWithin steps).Yields fun r => P r.2 ∧ r.2.Orderly R problem h ∧
      ((r.1 = true ∧ r.2.unfinished.toList = []) ∨ (r.1 = false ∧ r.2.mayStop = true)) := by
  induction steps generalizing s with
  | zero => exact absurd enough (Nat.not_lt_zero _)
  | succ steps ih =>
    refine Checked.yields_ite (fun hstop => ⟨hP, hs, .inr ⟨rfl, hstop⟩⟩) (fun hgo => ?_)
    apply (hs.step_yields wp hh).bind
    rintro ⟨outcome, s'⟩ _ (⟨he, hnil⟩ | ⟨⟨id, n, k, ho⟩, hstep⟩)
    · cases he
      exact ⟨hP, hs, .inl ⟨rfl, hnil⟩⟩
    · dsimp only at ho hstep
      subst ho
      have hfewer := hstep.pendingSteps_lt wp hs
      exact ih (hstep.orderly hs) (keeps hs hP (Bool.not_eq_true _ ▸ hgo) hstep) (by omega)

theorem outcome_yields (number : PlanId) (wp : problem.WellPosed) (hh : h.Respects problem R)
    {P : Search μ γ → Prop}
    (starts : ∀ {s : Search μ γ}, s.Orderly R problem h →
      s.unfinished.toList = [.empty problem number] → s.finished.toList = [] → s.steps = 0 → P s)
    (keeps : ∀ {s s' : Search μ γ}, s.Orderly R problem h → P s → s.mayStop = false →
      StepsTo R s s' → P s') :
    Checked.Yields ((Search.start (γ := γ) problem h number).bind Search.run) fun outcome =>
      ∃ s : Search μ γ, P s ∧ s.Orderly R problem h ∧ outcome.finished = s.finished.toList ∧
        outcome.steps = s.steps ∧
        ((outcome.exhausted = true ∧ s.unfinished.toList = []) ∨
          (outcome.exhausted = false ∧ s.mayStop = true)) := by
  apply (start_yields hh).bind
  rintro s _ ⟨hs, hopen, hnone, hsteps⟩
  have enough := hs.pendingSteps_lt_stepBound wp hopen
  rw [← hs.problem_eq] at enough
  apply (hs.runWithin_yields wp hh keeps (starts hs hopen hnone hsteps) enough).bind
  rintro ⟨exhausted, s'⟩ _ ⟨hP, hs', hend⟩
  exact ⟨s', hP, hs', rfl, rfl, hend⟩

end Search

theorem exists_of_synthesize {g : Graph} {c : Config} {problem : Problem} {result : Checked Outcome}
    {γ : Type} [Random.Source γ] (posed : Problem.ofConfig g c = .ok problem)
    (hs : synthesize g c γ = .ok result) :
    ∃ h, Heuristic.ofName? c.search.heuristic = some h ∧
      (Search.start (γ := γ) problem h).bind Search.run = result := by
  cases named : Heuristic.ofName? c.search.heuristic with
  | none =>
    simp only [synthesize, Search.ofConfig, posed, named] at hs
    cases hs
  | some h =>
    simp only [synthesize, Search.ofConfig, posed, named] at hs
    exact ⟨h, rfl, Except.ok.inj hs⟩

theorem synthesize_fault {g : Graph} {c : Config} {problem : Problem} {γ : Type} [Random.Source γ]
    (posed : Problem.ofConfig g c = .ok problem) (wp : problem.WellPosed) {f : Fault}
    (hf : synthesize g c γ = .ok (.error f)) : f.ofSearch = false := by
  obtain ⟨h, named, hrun⟩ := exists_of_synthesize posed hf
  have hh := (Heuristic.quiet_of_mem_all (List.mem_of_find?_eq_some named)).respects problem
  exact (Search.outcome_yields (P := fun _ : Search Heuristic.Best γ => True) 0 wp hh
    (fun _ _ _ _ => trivial) (fun _ _ _ _ => trivial)).fault hrun

theorem exists_outcome {g : Graph} {c : Config} {p : Outcome → Bool}
    (h : ((synthesize g c).toOption.bind Except.toOption).any p = true) :
    ∃ outcome, synthesize g c = .ok (.ok outcome) ∧ p outcome = true := by
  rcases hs : synthesize g c with _ | _ | outcome
  · simp [hs, Except.toOption] at h
  · simp [hs, Except.toOption] at h
  · exact ⟨outcome, rfl, by simpa [hs, Except.toOption] using h⟩

end PacketPlan
