import PacketPlan.Proofs.Search.Soundness

/-! # What a step that succeeds has done

A heuristic may fail in any way it likes, so nothing can be said of a step that fails. A step that
comes to a result has gone through all its parts: it took a plan, counted and filed the candidates
one after the other, noted itself in the trace and, if the heuristic has learned something, ranked
all plans anew. `Files` and `Moves` say so once, and invariants of a search are read off them.
-/
namespace PacketPlan

namespace Search
variable {μ γ : Type}

/-! ## Filing -/

/-- What became of a candidate, once skips are counted: it has leaves and waits for its turn, or it
has none and is dropped or accepted. -/
inductive Files (s : Search μ γ) (filed : Filed) (c : Candidate) (counted : Tally) :
    Search μ γ → Filed → Prop
  | keep {score : Score} (leaves : c.plan.isFinished = false)
      (scored : s.score c.plan = .ok score) : Files s filed c counted
        { s with tally := counted, unfinished := s.unfinished.insert score c.plan } filed
  | drop {tally : Tally} (done : c.plan.isFinished = true)
      (sound : c.plan.verify s.problem = .ok (.ok ()))
      (stops : s.problem.search.stopOnFirstSolution = true) (enough : 0 < s.finished.size)
      (tallied : counted.add .droppedSolutions 1 = .ok tally) :
      Files s filed c counted { s with tally } filed
  | accept {memory : μ} {changed : Bool} {tally : Tally} {score : Score}
      (done : c.plan.isFinished = true) (sound : c.plan.verify s.problem = .ok (.ok ()))
      (wanted : s.problem.search.stopOnFirstSolution = true → s.finished.size = 0)
      (observed : s.heuristic.observe s.memory s.problem c.plan = .ok (memory, changed))
      (tallied : counted.add .finishedPlans 1 = .ok tally)
      (scored : s.heuristic.score memory s.problem c.plan = .ok score) :
      Files s filed c counted
        { s with memory, tally, finished := s.finished.insert score c.plan }
        { admitted := filed.admitted + 1, changed := filed.changed || changed }

def tallySkip (s : Search μ γ) (c : Candidate) : Checked Tally :=
  if c.decision.kind.isSkip then s.tally.add .skips 1 else .ok s.tally

theorem file_eq_ok {s s' : Search μ γ} {filed filed' : Filed} {c : Candidate}
    (h : s.file filed c = .ok (s', filed')) :
    ∃ counted, s.tallySkip c = .ok counted ∧ Files s filed c counted s' filed' := by
  unfold file at h
  obtain ⟨counted, hcounted, h⟩ := ite_bind_eq_ok.mp h
  refine ⟨counted, hcounted, ?_⟩
  dsimp only at h
  split at h
  · rename_i done
    obtain ⟨verdict, hverdict, h⟩ := bind_eq_ok.mp h
    rcases verdict with defect | ⟨⟨⟩⟩
    · cases h
    · unfold takeIn at h
      dsimp only at h
      split at h
      · rename_i hdrop
        obtain ⟨tally, htally, h⟩ := bind_eq_ok.mp h
        cases h
        simp only [Bool.and_eq_true, Bool.not_eq_true', Frontier.isEmpty,
          decide_eq_false_iff_not] at hdrop
        exact .drop done hverdict hdrop.1 (Nat.pos_of_ne_zero hdrop.2) htally
      · rename_i hkeep
        obtain ⟨⟨memory, changed⟩, hobserved, h⟩ := bind_eq_ok.mp h
        obtain ⟨tally, htally, h⟩ := bind_eq_ok.mp h
        obtain ⟨score, hscore, h⟩ := bind_eq_ok.mp h
        cases h
        refine .accept done hverdict ?_ hobserved htally hscore
        intro hstops
        simpa [hstops, Frontier.isEmpty] using hkeep
  · rename_i leaves
    obtain ⟨score, hscore, h⟩ := bind_eq_ok.mp h
    cases h
    exact .keep (Bool.not_eq_true _ ▸ leaves) hscore

theorem fileAll_induction {P : List Candidate → Search μ γ → Filed → Prop}
    (keeps : ∀ {before s filed c counted s' filed'}, P before s filed →
      s.tallySkip c = .ok counted → Files s filed c counted s' filed' → P (before ++ [c]) s' filed')
    {s s' : Search μ γ} {filed filed' : Filed} {cs : List Candidate} (start : P [] s filed)
    (h : s.fileAll filed cs = .ok (s', filed')) : P cs s' filed' := by
  suffices hall : ∀ before, P before s filed → P (before ++ cs) s' filed' from hall [] start
  clear start
  induction cs generalizing s filed with
  | nil =>
    intro before hbefore
    cases h
    rw [List.append_nil]
    exact hbefore
  | cons c cs ih =>
    intro before hbefore
    obtain ⟨⟨middle, filed''⟩, hfile, h⟩ := bind_eq_ok.mp h
    obtain ⟨counted, hcounted, hfiles⟩ := file_eq_ok hfile
    have hall := ih h (before ++ [c]) (keeps hbefore hcounted hfiles)
    rwa [List.append_assoc] at hall

/-! ## Counting and ranking -/

theorem count_eq_ok {s s' : Search μ γ} {e : Expansion} (h : s.count e = .ok s') :
    ∃ refused made tally, s.tally.recordAll e.pruned = .ok refused ∧
      refused.add .candidates e.candidates.length = .ok made ∧
      (if e.candidates.isEmpty then made.add .deadEnds 1 else .ok made) = .ok tally ∧
      s' = { s with tally } := by
  obtain ⟨refused, hrefused, h⟩ := bind_eq_ok.mp h
  obtain ⟨made, hmade, h⟩ := bind_eq_ok.mp h
  obtain ⟨tally, htally, h⟩ := ite_bind_eq_ok.mp h
  cases h
  exact ⟨refused, made, tally, hrefused, hmade, htally, rfl⟩

theorem rescore_eq_ok {s s' : Search μ γ} (h : s.rescore = .ok s') :
    ∃ unfinished finished tally, s.unfinished.rebuild s.score = .ok unfinished ∧
      s.finished.rebuild s.score = .ok finished ∧ s.tally.add .rebuilds 1 = .ok tally ∧
      s' = { s with unfinished, finished, tally } := by
  obtain ⟨unfinished, hunfinished, h⟩ := bind_eq_ok.mp h
  obtain ⟨finished, hfinished, h⟩ := bind_eq_ok.mp h
  obtain ⟨tally, htally, h⟩ := bind_eq_ok.mp h
  cases h
  exact ⟨unfinished, finished, tally, hunfinished, hfinished, htally, rfl⟩

/-- Ranking anew touches nothing but the frontiers and the tally. -/
theorem eq_of_rescore_ite {s s' : Search μ γ} {changed : Bool}
    (h : (if changed then s.rescore else .ok s) = .ok s') :
    ∃ unfinished finished tally, s' = { s with unfinished, finished, tally } := by
  split at h
  · obtain ⟨unfinished, finished, tally, _, _, _, rfl⟩ := rescore_eq_ok h
    exact ⟨unfinished, finished, tally, rfl⟩
  · cases h
    exact ⟨s.unfinished, s.finished, s.tally, rfl⟩

/-! ## Frontiers in order -/

structure Regular (problem : Problem) (h : Heuristic μ) (s : Search μ γ) : Prop where
  problem_eq : s.problem = problem
  heuristic_eq : s.heuristic = h
  unfinished : s.unfinished.Valid
  finished : s.finished.Valid

variable {problem : Problem} {h : Heuristic μ}

theorem Regular.files {s s' : Search μ γ} {filed filed' : Filed} {c : Candidate} {counted : Tally}
    (hs : s.Regular problem h) (hfiles : Files s filed c counted s' filed') :
    s'.Regular problem h := by
  cases hfiles with
  | keep leaves scored =>
    exact ⟨hs.problem_eq, hs.heuristic_eq, hs.unfinished.insert _ _, hs.finished⟩
  | drop done sound stops enough tallied =>
    exact ⟨hs.problem_eq, hs.heuristic_eq, hs.unfinished, hs.finished⟩
  | accept done sound wanted observed tallied scored =>
    exact ⟨hs.problem_eq, hs.heuristic_eq, hs.unfinished, hs.finished.insert _ _⟩

theorem Regular.fileAll {s s' : Search μ γ} {filed filed' : Filed} {cs : List Candidate}
    (hs : s.Regular problem h) (hf : s.fileAll filed cs = .ok (s', filed')) :
    s'.Regular problem h :=
  fileAll_induction (P := fun _ s _ => s.Regular problem h)
    (fun hbefore _ hfiles => hbefore.files hfiles) hs hf

theorem Regular.rescore {s s' : Search μ γ} (hs : s.Regular problem h) (hr : s.rescore = .ok s') :
    s'.Regular problem h := by
  obtain ⟨unfinished, finished, tally, hunfinished, hfinished, _, rfl⟩ := rescore_eq_ok hr
  exact ⟨hs.problem_eq, hs.heuristic_eq, (Frontier.rebuild_eq_ok hunfinished).1,
    (Frontier.rebuild_eq_ok hfinished).1⟩

/-! ## Steps and runs -/

variable [Random.Source γ] {number : PlanId}

/-- A step that extends a plan, part by part. -/
inductive Moves (s : Search μ γ) : StepOutcome → Search μ γ → Prop
  | expand {score : Score} {plan : Plan} {left : Frontier Plan} {generator : γ}
      {leaf : Leaf} {tally : Tally} {e : Expansion} {supply : Supply}
      {counted filled after : Search μ γ} {filed : Filed}
      (popped : s.unfinished.popBest s.problem.search.tieBreak s.generator =
        some (score, plan, left, generator))
      (active : plan.activeLeaf? = some leaf) (stepped : s.tally.add .steps 1 = .ok tally)
      (expanded : Technique.expandAll s.problem plan s.problem.techniques s.supply = .ok (e, supply))
      (counts : { s with unfinished := left, generator, steps := s.steps + 1, tally, supply }.count e =
        .ok counted)
      (files : counted.fileAll {} e.candidates = .ok (filled, filed))
      (ranks : (if filed.changed then (filled.note plan leaf score e).rescore
        else .ok (filled.note plan leaf score e)) = .ok after) :
      Moves s (.expanded plan.id e.candidates.length filed.admitted) after

theorem step_eq_ok {s s' : Search μ γ} {outcome : StepOutcome} (h : s.step = .ok (outcome, s')) :
    (s.unfinished.popBest s.problem.search.tieBreak s.generator = none ∧ outcome = .exhausted ∧
      s' = s) ∨ Moves s outcome s' := by
  unfold step at h
  split at h
  · rename_i hpop
    cases h
    exact .inl ⟨hpop, rfl, rfl⟩
  · rename_i score plan left generator hpop
    unfold stepFrom at h
    split at h
    · cases h
    · rename_i leaf hleaf
      obtain ⟨tally, htally, h⟩ := bind_eq_ok.mp h
      obtain ⟨⟨e, supply⟩, hexpanded, h⟩ := bind_eq_ok.mp h
      obtain ⟨counted, hcounted, h⟩ := bind_eq_ok.mp h
      obtain ⟨⟨filled, filed⟩, hfiled, h⟩ := bind_eq_ok.mp h
      obtain ⟨after, hafter, h⟩ := ite_bind_eq_ok.mp h
      cases h
      exact .inr (.expand hpop hleaf htally hexpanded hcounted hfiled hafter)

/-- What is kept by every step from where the search may not stop holds at the end of a run. A run
that has exhausted the search ends where nothing is left to extend. -/
theorem runWithin_induction {P : Search μ γ → Prop}
    (keeps : ∀ {s s' : Search μ γ} {outcome : StepOutcome}, P s → s.mayStop = false →
      s.step = .ok (outcome, s') → P s')
    {steps : Nat} {s s' : Search μ γ} {exhausted : Bool} (hs : P s)
    (h : s.runWithin steps = .ok (exhausted, s')) :
    P s' ∧ (exhausted = true →
      s'.unfinished.popBest s'.problem.search.tieBreak s'.generator = none) := by
  induction steps generalizing s with
  | zero =>
    unfold runWithin at h
    split at h
    · cases h
      exact ⟨hs, nofun⟩
    · cases h
  | succ steps ih =>
    unfold runWithin at h
    split at h
    · cases h
      exact ⟨hs, nofun⟩
    · rename_i hgo
      obtain ⟨⟨outcome, middle⟩, hstep, h⟩ := bind_eq_ok.mp h
      have hmiddle := keeps hs (Bool.not_eq_true _ ▸ hgo) hstep
      cases outcome with
      | expanded plan candidates finished => exact ih hmiddle h
      | exhausted =>
        cases h
        rcases step_eq_ok hstep with ⟨hpop, _, rfl⟩ | hmoves
        · exact ⟨hmiddle, fun _ => hpop⟩
        · cases hmoves

theorem run_eq_ok {s : Search μ γ} {outcome : Outcome} (h : s.run = .ok outcome) :
    ∃ exhausted s', s.runWithin s.problem.stepBound = .ok (exhausted, s') ∧
      outcome = ⟨s'.problem, s'.finished.toList, s'.tally, s'.trace, exhausted, s'.steps⟩ := by
  obtain ⟨⟨exhausted, s'⟩, hrun, h⟩ := bind_eq_ok.mp h
  cases h
  exact ⟨exhausted, s', hrun, rfl⟩

theorem start_eq_ok {s : Search μ γ} (hs : Search.start problem h number = .ok s) :
    ∃ score, h.score h.start problem (.empty problem number) = .ok score ∧
      s = { problem, heuristic := h, memory := h.start
            generator := Random.Source.ofSeed problem.search.seed
            supply := { nextPlan := number + 1 }
            unfinished := (∅ : Frontier Plan).insert score (.empty problem number)
            finished := ∅, tally := {}
            trace := if problem.search.trace then
              some { heuristic := h.name, metrics := h.metrics.map (·.name) } else none
            steps := 0 } := by
  obtain ⟨score, hscore, hs⟩ := bind_eq_ok.mp hs
  cases hs
  exact ⟨score, hscore, rfl⟩

theorem Regular.moves {s s' : Search μ γ} {outcome : StepOutcome} (hs : s.Regular problem h)
    (hm : Moves s outcome s') : s'.Regular problem h := by
  cases hm with
  | @expand score plan left generator leaf tally e supply counted filled after filed popped active
      stepped expanded counts files ranks =>
    obtain ⟨hleft, _, _⟩ := Frontier.popBest_eq_some hs.unfinished popped
    obtain ⟨_, _, tally', _, _, _, rfl⟩ := count_eq_ok counts
    have hfilled : filled.Regular problem h := by
      refine Regular.fileAll ?_ files
      exact ⟨hs.problem_eq, hs.heuristic_eq, hleft, hs.finished⟩
    have hnoted : (filled.note plan leaf score e).Regular problem h :=
      ⟨hfilled.problem_eq, hfilled.heuristic_eq, hfilled.unfinished, hfilled.finished⟩
    split at ranks
    · exact hnoted.rescore ranks
    · cases ranks
      exact hnoted

/-- What holds of a search at its start, and is kept whenever a plan is extended, holds of every
search that is met. -/
theorem Reached.invariant {P : Search μ γ → Prop}
    (start : ∀ {s : Search μ γ}, Search.start problem h number = .ok s → P s)
    (moves : ∀ {s s' : Search μ γ} {outcome : StepOutcome}, s.Regular problem h → P s →
      Moves s outcome s' → P s')
    {s : Search μ γ} (hs : Reached problem h number s) : s.Regular problem h ∧ P s := by
  induction hs with
  | start started =>
    obtain ⟨score, _, rfl⟩ := start_eq_ok started
    exact ⟨⟨rfl, rfl, Frontier.valid_empty.insert _ _, Frontier.valid_empty⟩, start started⟩
  | step _ stepped ih =>
    rcases step_eq_ok stepped with ⟨_, _, rfl⟩ | hm
    · exact ih
    · exact ⟨ih.1.moves hm, moves ih.1 ih.2 hm⟩

end Search

end PacketPlan
