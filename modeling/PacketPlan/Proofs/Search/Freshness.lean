import PacketPlan.Proofs.Search.Moves

/-! # Scores are never out of date

A heuristic may learn from a finished plan while the candidates of a step are filed, so that those
filed before have scores from before. It then says that scores may have changed, and all plans are
ranked anew before the next step. So between steps every plan is held under the score that it has
now: a step extends one of the best plans, and finished plans come out in the order of their scores.
-/
namespace PacketPlan

/-- An observation that is said to change nothing leaves all scores as they are. -/
def Heuristic.Candid {μ : Type} (h : Heuristic μ) : Prop :=
  ∀ {memory memory' : μ} {problem : Problem} {plan : Plan},
    h.observe memory problem plan = .ok (memory', false) →
      ∀ other, h.score memory' problem other = h.score memory problem other

theorem Heuristic.candid_of_mem_all {h : Heuristic Heuristic.Best} (hh : h ∈ Heuristic.all) :
    h.Candid := by
  -- No heuristic forgets or learns anything unless it says so.
  suffices hsame : ∀ {memory memory' problem plan},
      h.observe memory problem plan = .ok (memory', false) → memory' = memory by
    intro memory memory' problem plan hobserved other
    rw [hsame hobserved]
  intro memory memory' problem plan hobserved
  simp only [Heuristic.all, List.mem_cons, List.not_mem_nil, or_false] at hh
  rcases hh with rfl | rfl | rfl
  · cases hobserved
    rfl
  · cases hobserved
    rfl
  · obtain ⟨throughput, _, hobserved⟩ := bind_eq_ok.mp hobserved
    split at hobserved
    · cases hobserved
    · cases hobserved
      rfl

namespace Search
variable {μ γ : Type} {problem : Problem} {h : Heuristic μ} {number : PlanId}

/-- Every plan is held under the score that it has now. -/
structure Current (s : Search μ γ) : Prop where
  unfinished : s.unfinished.Ranks fun score plan => s.score plan = .ok score
  finished : s.finished.Ranks fun score plan => s.score plan = .ok score

theorem current_of_start [Random.Source γ] {s : Search μ γ}
    (hs : Search.start problem h number = .ok s) : s.Current := by
  obtain ⟨score, hscore, rfl⟩ := start_eq_ok hs
  have hnone : (∅ : Frontier Plan).Ranks fun score plan =>
      h.score h.start problem plan = .ok score := nofun
  exact ⟨hnone.insert Frontier.valid_empty hscore, hnone⟩

/-- Filing a candidate keeps scores up to date for as long as no change is reported. -/
theorem Files.current {s s' : Search μ γ} {filed filed' : Filed} {c : Candidate} {counted : Tally}
    (candid : h.Candid) (hs : s.Regular problem h) (hbefore : filed.changed = true ∨ s.Current)
    (hfiles : Files s filed c counted s' filed') : filed'.changed = true ∨ s'.Current := by
  cases hfiles with
  | keep leaves scored =>
    exact hbefore.imp_right fun hc => ⟨hc.unfinished.insert hs.unfinished scored, hc.finished⟩
  | drop done sound stops enough tallied =>
    exact hbefore.imp_right fun hc => ⟨hc.unfinished, hc.finished⟩
  | @accept memory changed tally score done sound wanted observed tallied scored =>
    simp only [Bool.or_eq_true, or_assoc]
    refine hbefore.imp_right fun hc => ?_
    cases changed with
    | true => exact .inl rfl
    | false =>
      right
      have hsame : ∀ other, s.heuristic.score memory s.problem other = s.score other := by
        intro other
        rw [hs.heuristic_eq] at observed
        rw [Search.score, hs.heuristic_eq]
        exact candid observed other
      have hkept : ∀ {f : Frontier Plan}, (f.Ranks fun score plan => s.score plan = .ok score) →
          f.Ranks fun score plan => s.heuristic.score memory s.problem plan = .ok score :=
        fun hf x hx => (hsame x.2).trans (hf x hx)
      exact ⟨hkept hc.unfinished, (hkept hc.finished).insert hs.finished scored⟩

theorem current_of_rescore {s s' : Search μ γ} (hr : s.rescore = .ok s') : s'.Current := by
  obtain ⟨unfinished, finished, tally, hunfinished, hfinished, _, rfl⟩ := rescore_eq_ok hr
  exact ⟨(Frontier.rebuild_eq_ok hunfinished).2.2, (Frontier.rebuild_eq_ok hfinished).2.2⟩

def Descending (s : Search μ γ) (plans : List Plan) : Prop :=
  plans.Pairwise fun plan next => ∃ score score', s.score plan = .ok score ∧
    s.score next = .ok score' ∧ Ranked.before score score' = false

variable [Random.Source γ]

theorem Current.moves {s s' : Search μ γ} {outcome : StepOutcome} (candid : h.Candid)
    (hs : s.Regular problem h) (hc : s.Current) (hm : Moves s outcome s') : s'.Current := by
  cases hm with
  | @expand score plan left generator leaf tally e supply counted filled after filed popped active
      stepped expanded counts files ranks =>
    obtain ⟨hleft, htaken, _⟩ := Frontier.popBest_eq_some hs.unfinished popped
    obtain ⟨_, _, tally', _, _, _, rfl⟩ := count_eq_ok counts
    have hfilled : filled.Regular problem h ∧ (filed.changed = true ∨ filled.Current) := by
      refine fileAll_induction
        (P := fun _ s filed => s.Regular problem h ∧ (filed.changed = true ∨ s.Current)) ?_ ?_ files
      · exact fun hbefore _ hfiles =>
          ⟨hbefore.1.files hfiles, hfiles.current candid hbefore.1 hbefore.2⟩
      · refine ⟨⟨hs.problem_eq, hs.heuristic_eq, hleft, hs.finished⟩, .inr ⟨?_, hc.finished⟩⟩
        exact fun x hx => hc.unfinished x (htaken.mem_iff.mpr (List.mem_cons_of_mem _ hx))
    split at ranks
    · exact current_of_rescore ranks
    · rename_i hsame
      cases ranks
      obtain ⟨hunfinished, hfinished⟩ := hfilled.2.resolve_left hsame
      exact ⟨hunfinished, hfinished⟩

theorem Reached.current (candid : h.Candid) {s : Search μ γ} (hs : Reached problem h number s) :
    s.Regular problem h ∧ s.Current :=
  hs.invariant current_of_start fun regular current hm => current.moves candid regular hm

def IsBest (s : Search μ γ) (plan : Plan) : Prop :=
  plan ∈ s.unfinished.toList ∧ ∃ score, s.score plan = .ok score ∧
    ∀ other ∈ s.unfinished.toList, ∃ score', s.score other = .ok score' ∧
      Ranked.before score score' = false

theorem Moves.best {s s' : Search μ γ} {outcome : StepOutcome} (hs : s.Regular problem h)
    (hc : s.Current) (hm : Moves s outcome s') :
    ∃ plan e after admitted, s.IsBest plan ∧
      Technique.expandAll problem plan problem.techniques s.supply = .ok (e, after) ∧
      outcome = .expanded plan.id e.candidates.length admitted := by
  cases hm with
  | @expand score plan left generator leaf tally e supply counted filled after filed popped active
      stepped expanded counts files ranks =>
    obtain ⟨_, htaken, hbest⟩ := Frontier.popBest_eq_some hs.unfinished popped
    have hplan : (score, plan) ∈ s.unfinished.scored := htaken.mem_iff.mpr List.mem_cons_self
    rw [hs.problem_eq] at expanded
    refine ⟨plan, e, supply, filed.admitted, ?_, expanded, rfl⟩
    refine ⟨Frontier.mem_toList.mpr ⟨score, hplan⟩, score, hc.unfinished _ hplan, ?_⟩
    intro other hother
    obtain ⟨score', hscore'⟩ := Frontier.mem_toList.mp hother
    exact ⟨score', hc.unfinished _ hscore', hbest _ hscore'⟩

theorem exists_reached_of_run {s : Search μ γ} {outcome : Outcome}
    (hs : Search.start problem h number = .ok s) (hrun : s.run = .ok outcome) :
    ∃ s' : Search μ γ, Reached problem h number s' ∧ outcome.finished = s'.finished.toList := by
  obtain ⟨exhausted, s', hends, rfl⟩ := run_eq_ok hrun
  have hreached := runWithin_induction (P := Reached problem h number)
    (fun hs _ hstep => hs.step hstep) (.start hs) hends
  exact ⟨s', hreached.1, rfl⟩

end Search

/-- Between steps, every plan is held under the score that it has now. So every step extends a plan
whose score is the greatest there is, and an outcome has its plans in the order of their scores. -/
theorem scores_are_current {γ : Type} [Random.Source γ] (problem : Problem) :
    (∀ h ∈ Heuristic.all, ∀ number, ∀ s : Search Heuristic.Best γ, Search.Reached problem h number s →
      (s.unfinished.Ranks fun score plan => s.score plan = .ok score) ∧
      (s.finished.Ranks fun score plan => s.score plan = .ok score) ∧
      s.Descending s.finished.toList ∧
      ∀ outcome s', s.step = .ok (outcome, s') →
        (outcome = .exhausted ∧ s.unfinished.toList = []) ∨
          ∃ plan e after admitted, s.IsBest plan ∧
            Technique.expandAll problem plan problem.techniques s.supply = .ok (e, after) ∧
            outcome = .expanded plan.id e.candidates.length admitted) ∧
      ∀ g c outcome, Problem.ofConfig g c = .ok problem → synthesize g c γ = .ok (.ok outcome) →
        ∃ h ∈ Heuristic.all, ∃ s : Search Heuristic.Best γ, h.name = c.search.heuristic ∧
          Search.Reached problem h 0 s ∧ outcome.finished = s.finished.toList ∧
          s.Descending outcome.finished := by
  have hall : ∀ h ∈ Heuristic.all, ∀ number, ∀ s : Search Heuristic.Best γ,
      Search.Reached problem h number s → s.Regular problem h ∧ s.Current :=
    fun h hh number s hs => hs.current (Heuristic.candid_of_mem_all hh)
  constructor
  · intro h hh number s hs
    obtain ⟨regular, current⟩ := hall h hh number s hs
    refine ⟨current.unfinished, current.finished,
      regular.finished.toList_pairwise current.finished, ?_⟩
    intro outcome s' hstep
    rcases Search.step_eq_ok hstep with ⟨hpop, hexhausted, _⟩ | hm
    · exact .inl ⟨hexhausted, Frontier.popBest_eq_none regular.unfinished hpop⟩
    · exact .inr (hm.best regular current)
  · intro g c outcome posed hs
    obtain ⟨h, named, hrun⟩ := exists_of_synthesize posed hs
    obtain ⟨s, started, hrun⟩ := bind_eq_ok.mp hrun
    obtain ⟨s', hreached, hfinished⟩ := Search.exists_reached_of_run started hrun
    have hh := List.mem_of_find?_eq_some named
    obtain ⟨regular, current⟩ := hall h hh 0 s' hreached
    refine ⟨h, hh, s', by simpa using List.find?_some named, hreached, hfinished, ?_⟩
    rw [hfinished]
    exact regular.finished.toList_pairwise current.finished

def timedDrop : List NodeKind :=
  [.terminal .drop, .call { function := "current_time", next := some 0 }]

def learning : Config where
  search := { stopOnFirstSolution := false, heuristic := "max-throughput" }

/-- The path is on the switch or handed over, and the first of the two plans is learned from. -/
theorem learned_scores_are_current :
    ∃ g problem outcome, Graph.ofKinds timedDrop 1 = .ok g ∧
      Problem.ofConfig g learning = .ok problem ∧ synthesize g learning = .ok (.ok outcome) ∧
      outcome.finished.length = 2 ∧ outcome.tally.get .rebuilds = 1 ∧
      ∃ h ∈ Heuristic.all, ∃ s : Search Heuristic.Best, h.name = "max-throughput" ∧
        Search.Reached problem h 0 s ∧ outcome.finished = s.finished.toList ∧
        s.Descending outcome.finished ∧
        (s.finished.Ranks fun score plan => s.score plan = .ok score) := by
  obtain ⟨g, hg⟩ : ∃ g, Graph.ofKinds timedDrop 1 = .ok g := ⟨_, rfl⟩
  obtain ⟨problem, posed⟩ : ∃ problem, Problem.ofConfig g learning = .ok problem := by
    cases hg
    exact ⟨_, rfl⟩
  obtain ⟨outcome, ho, hcounts⟩ := exists_outcome (g := g) (c := learning)
    (p := fun o => o.finished.length = 2 ∧ o.tally.get .rebuilds = 1) (by cases hg; decide +kernel)
  obtain ⟨hfound, hrebuilds⟩ := of_decide_eq_true hcounts
  obtain ⟨hcurrent, houtcome⟩ := scores_are_current (γ := Random.Generator) problem
  obtain ⟨h, hh, s, hname, hs, hfinished, hdescending⟩ := houtcome g learning outcome posed ho
  exact ⟨g, problem, outcome, hg, posed, ho, hfound, hrebuilds, h, hh, s, hname, hs, hfinished,
    hdescending, (hcurrent h hh 0 s hs).2.1⟩

end PacketPlan
