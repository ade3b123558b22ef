import Mathlib.Algebra.BigOperators.Group.List.Basic
import PacketPlan.Proofs.Plan.Endings
import PacketPlan.Proofs.Search.Moves

/-! # Accounts of a search

Every plan that a search has made was extended, is waiting in the frontier, is finished or was
dropped, and the counters say how many there are of each. They agree with the trace, step by step.
A search that runs to its end drops nothing, because a candidate without leaves has no rivals.
-/
namespace PacketPlan

/-! ## Tallies -/

namespace Tally

theorem get_of_add {t t' : Tally} {c : Counter} {n : Nat} (h : t.add c n = .ok t') :
    t'.get c = t.get c + n := by
  obtain ⟨m, hm, h⟩ := bind_eq_ok.mp h
  cases h
  rw [← Checked.eq_add_of_add hm]
  exact Vector.getElem_set_self _

theorem get_of_add_of_ne {t t' : Tally} {c d : Counter} {n : Nat} (h : t.add c n = .ok t')
    (hd : d ≠ c) : t'.get d = t.get d := by
  obtain ⟨m, hm, h⟩ := bind_eq_ok.mp h
  cases h
  have hi : c.index.val ≠ d.index.val := by
    cases c <;> cases d <;> first | exact absurd rfl hd | decide
  exact Vector.getElem_set_ne c.index.isLt d.index.isLt hi

theorem totalFailures_of_add {t t' : Tally} {c : Counter} {n : Nat} (h : t.add c n = .ok t') :
    t'.totalFailures = t.totalFailures := by
  obtain ⟨m, _, h⟩ := bind_eq_ok.mp h
  cases h
  rfl

theorem totalFailures_of_record {t t' : Tally} {r : Refusal} (h : t.record r = .ok t') :
    t'.totalFailures = t.totalFailures + 1 := by
  obtain ⟨m, hm, h⟩ := bind_eq_ok.mp h
  cases h
  have hm : m = t.failures.toList[r.index.val] + 1 := Checked.eq_add_of_add hm
  have hsum : ∀ t : Tally, t.totalFailures = t.failures.toList.sum := fun _ => rfl
  have hself := List.sum_set t.failures.toList r.index.val t.failures.toList[r.index.val]
  rw [List.set_getElem_self] at hself
  have hi : r.index.val < t.failures.toList.length := by simp
  rw [hsum, hsum, Vector.toList_set, List.sum_set, hself, if_pos hi, if_pos hi, hm]
  omega

theorem get_of_recordAll {t t' : Tally} {rs : List Refusal} (h : t.recordAll rs = .ok t') :
    (∀ c, t'.get c = t.get c) ∧ t'.totalFailures = t.totalFailures + rs.length := by
  induction rs generalizing t with
  | nil =>
    cases h
    exact ⟨fun _ => rfl, rfl⟩
  | cons r rs ih =>
    obtain ⟨recorded, hrecorded, h⟩ := bind_eq_ok.mp h
    obtain ⟨hget, hfailures⟩ := ih h
    have hone := totalFailures_of_record hrecorded
    have hcounts : ∀ c, recorded.get c = t.get c := by
      obtain ⟨_, _, hr⟩ := bind_eq_ok.mp hrecorded
      cases hr
      exact fun _ => rfl
    refine ⟨fun c => (hget c).trans (hcounts c), ?_⟩
    rw [hfailures, hone, List.length_cons]
    omega

end Tally

namespace Search
variable {μ γ : Type} {problem : Problem} {h : Heuristic μ}

theorem get_of_tallySkip {s : Search μ γ} {c : Candidate} {counted : Tally}
    (hc : s.tallySkip c = .ok counted) :
    counted.get .skips = s.tally.get .skips + [c].countP (fun c => c.decision.kind.isSkip) ∧
      (∀ d, d ≠ .skips → counted.get d = s.tally.get d) ∧
      counted.totalFailures = s.tally.totalFailures := by
  unfold tallySkip at hc
  rw [List.countP_singleton]
  split at hc
  · rename_i hskip
    rw [if_pos hskip]
    exact ⟨Tally.get_of_add hc, fun d hd => Tally.get_of_add_of_ne hc hd,
      Tally.totalFailures_of_add hc⟩
  · rename_i hskip
    cases hc
    rw [if_neg hskip]
    exact ⟨rfl, fun _ _ => rfl, rfl⟩

/-! ## Filing -/

/-- The second search is the first one with these candidates filed, by the counters. -/
structure Fills (s s' : Search μ γ) (cs : List Candidate) : Prop where
  problem_eq : s'.problem = s.problem
  trace_eq : s'.trace = s.trace
  steps_eq : s'.steps = s.steps
  untouched : ∀ c, c ≠ .skips → c ≠ .finishedPlans → c ≠ .droppedSolutions →
    s'.tally.get c = s.tally.get c
  failures : s'.tally.totalFailures = s.tally.totalFailures
  skips : s'.tally.get .skips =
    s.tally.get .skips + cs.countP fun c => c.decision.kind.isSkip
  finished : s'.tally.get .finishedPlans + s'.tally.get .droppedSolutions =
    s.tally.get .finishedPlans + s.tally.get .droppedSolutions + cs.countP fun c => c.plan.isFinished
  waiting : s'.unfinished.size + cs.countP (fun c => c.plan.isFinished) =
    s.unfinished.size + cs.length
  grows : s.finished.size ≤ s'.finished.size
  keeps : 0 < cs.countP (fun c => c.plan.isFinished) → 0 < s'.finished.size
  drops : s.problem.search.stopOnFirstSolution = false →
    s'.tally.get .droppedSolutions = s.tally.get .droppedSolutions

theorem fills_nil (s : Search μ γ) : Fills s s [] where
  problem_eq := rfl
  trace_eq := rfl
  steps_eq := rfl
  untouched _ _ _ _ := rfl
  failures := rfl
  skips := rfl
  finished := rfl
  waiting := rfl
  grows := Nat.le_refl _
  keeps hpos := absurd hpos (Nat.lt_irrefl 0)
  drops _ := rfl

theorem Fills.append {s s' s'' : Search μ γ} {cs ds : List Candidate} (hc : Fills s s' cs)
    (hd : Fills s' s'' ds) : Fills s s'' (cs ++ ds) where
  problem_eq := hd.problem_eq.trans hc.problem_eq
  trace_eq := hd.trace_eq.trans hc.trace_eq
  steps_eq := hd.steps_eq.trans hc.steps_eq
  untouched c h₁ h₂ h₃ := (hd.untouched c h₁ h₂ h₃).trans (hc.untouched c h₁ h₂ h₃)
  failures := hd.failures.trans hc.failures
  skips := by
    rw [hd.skips, hc.skips, List.countP_append]
    omega
  finished := by
    rw [hd.finished, hc.finished, List.countP_append]
    omega
  waiting := by
    have hcs := hc.waiting
    have hds := hd.waiting
    rw [List.countP_append, List.length_append]
    omega
  grows := hc.grows.trans hd.grows
  keeps := by
    intro hpos
    rw [List.countP_append] at hpos
    have hgrows := hd.grows
    rcases Nat.add_pos_iff_pos_or_pos.mp hpos with hcs | hds
    · exact (hc.keeps hcs).trans_le hgrows
    · exact hd.keeps hds
  drops hgo := (hd.drops (hc.problem_eq ▸ hgo)).trans (hc.drops hgo)

theorem fills_of_files {s s' : Search μ γ} {filed filed' : Filed} {c : Candidate} {counted : Tally}
    (hc : s.tallySkip c = .ok counted) (hfiles : Files s filed c counted s' filed') :
    Fills s s' [c] := by
  obtain ⟨hskips, hsame, hfailures⟩ := get_of_tallySkip hc
  have hplans := hsame .finishedPlans (by decide)
  have hdropped := hsame .droppedSolutions (by decide)
  cases hfiles with
  | keep leaves scored =>
    have hnone : [c].countP (fun c => c.plan.isFinished) = 0 := by simp [leaves]
    exact {
      problem_eq := rfl
      trace_eq := rfl
      steps_eq := rfl
      untouched := fun d hd _ _ => hsame d hd
      failures := hfailures
      skips := hskips
      finished := by rw [hplans, hdropped, hnone, Nat.add_zero]
      waiting := by
        rw [hnone]
        rfl
      grows := Nat.le_refl _
      keeps := fun hpos => absurd hpos (by omega)
      drops := fun _ => hdropped }
  | drop done sound stops enough tallied =>
    have hone : [c].countP (fun c => c.plan.isFinished) = 1 := by simp [done]
    exact {
      problem_eq := rfl
      trace_eq := rfl
      steps_eq := rfl
      untouched := by
        intro d hd _ hd'
        rw [Tally.get_of_add_of_ne tallied hd', hsame d hd]
      failures := (Tally.totalFailures_of_add tallied).trans hfailures
      skips := by rw [Tally.get_of_add_of_ne tallied (by decide), hskips]
      finished := by
        rw [Tally.get_of_add_of_ne tallied (by decide), Tally.get_of_add tallied, hplans, hdropped,
          hone]
        rfl
      waiting := by
        rw [hone]
        rfl
      grows := Nat.le_refl _
      keeps := fun _ => enough
      drops := by
        intro hgo
        rw [hgo] at stops
        cases stops }
  | accept done sound wanted observed tallied scored =>
    have hone : [c].countP (fun c => c.plan.isFinished) = 1 := by simp [done]
    have hdropped' := Tally.get_of_add_of_ne (d := .droppedSolutions) tallied (by decide)
    exact {
      problem_eq := rfl
      trace_eq := rfl
      steps_eq := rfl
      untouched := by
        intro d hd hd' _
        rw [Tally.get_of_add_of_ne tallied hd', hsame d hd]
      failures := (Tally.totalFailures_of_add tallied).trans hfailures
      skips := by rw [Tally.get_of_add_of_ne tallied (by decide), hskips]
      finished := by
        rw [Tally.get_of_add tallied, hdropped', hplans, hdropped, hone]
        omega
      waiting := by
        rw [hone]
        rfl
      grows := Nat.le_succ _
      keeps := fun _ => Nat.succ_pos _
      drops := fun _ => hdropped'.trans hdropped }

/-! ## Ranking anew -/

/-- The second search holds the same plans as the first and has the same accounts, but for how often
plans were ranked anew. -/
structure Reranks (s s' : Search μ γ) : Prop where
  problem_eq : s'.problem = s.problem
  trace_eq : s'.trace = s.trace
  steps_eq : s'.steps = s.steps
  untouched : ∀ c, c ≠ .rebuilds → s'.tally.get c = s.tally.get c
  failures : s'.tally.totalFailures = s.tally.totalFailures
  unfinished : s'.unfinished.toList.Perm s.unfinished.toList
  finished : s'.finished.toList.Perm s.finished.toList
  waiting : s'.unfinished.size = s.unfinished.size
  stored : s'.finished.size = s.finished.size

theorem reranks_of_ite {s s' : Search μ γ} {changed : Bool} (hs : s.Regular problem h)
    (hr : (if changed then s.rescore else .ok s) = .ok s') : Reranks s s' := by
  split at hr
  · obtain ⟨unfinished, finished, tally, hunfinished, hfinished, htally, rfl⟩ := rescore_eq_ok hr
    obtain ⟨huvalid, huperm, _⟩ := Frontier.rebuild_eq_ok hunfinished
    obtain ⟨hfvalid, hfperm, _⟩ := Frontier.rebuild_eq_ok hfinished
    refine ⟨rfl, rfl, rfl, ?_, Tally.totalFailures_of_add htally, huperm, hfperm, ?_, ?_⟩
    · exact fun c hc => Tally.get_of_add_of_ne htally hc
    · rw [← huvalid.length_toList, huperm.length_eq, hs.unfinished.length_toList]
    · rw [← hfvalid.length_toList, hfperm.length_eq, hs.finished.length_toList]
  · cases hr
    exact ⟨rfl, rfl, rfl, fun _ _ => rfl, rfl, .refl _, .refl _, rfl, rfl⟩

/-! ## Extensions -/

/-- The stations of a step that extends a plan: the plan was taken, its candidates were filed, and
once the step was noted all plans may have been ranked anew. -/
structure Passage [Random.Source γ] (problem : Problem) (h : Heuristic μ) (s s' : Search μ γ)
    (plan : Plan) (leaf : Leaf) (score : Score) (e : Expansion) (took filled : Search μ γ)
    (filed : Filed) : Prop where
  active : plan.activeLeaf? = some leaf
  popped : ∃ left generator, s.unfinished.popBest problem.search.tieBreak s.generator =
    some (score, plan, left, generator)
  regular : took.Regular problem h
  taken : s.unfinished.toList.Perm (plan :: took.unfinished.toList)
  finished_eq : took.finished = s.finished
  memory_eq : took.memory = s.memory
  trace_eq : took.trace = s.trace
  steps_eq : took.steps = s.steps + 1
  expanded : Technique.expandAll problem plan problem.techniques s.supply = .ok (e, took.supply)
  files : took.fileAll {} e.candidates = .ok (filled, filed)
  reranks : Reranks (filled.note plan leaf score e) s'
  keeps : s'.memory = filled.memory ∧ s'.supply = filled.supply

theorem Moves.passage [Random.Source γ] {s s' : Search μ γ} {outcome : StepOutcome}
    (hs : s.Regular problem h) (hm : Moves s outcome s') :
    ∃ plan leaf score e took filled filed,
      Passage problem h s s' plan leaf score e took filled filed := by
  cases hm with
  | @expand score plan left generator leaf tally e supply counted filled after filed popped active
      stepped expanded counts files ranks =>
    obtain ⟨hleft, htaken, _⟩ := Frontier.popBest_eq_some hs.unfinished popped
    obtain ⟨_, _, tally', _, _, _, rfl⟩ := count_eq_ok counts
    have htook : Regular problem h { s with
        unfinished := left, generator, steps := s.steps + 1, tally := tally', supply } :=
      ⟨hs.problem_eq, hs.heuristic_eq, hleft, hs.finished⟩
    have hfilled := htook.fileAll files
    have hnoted : (filled.note plan leaf score e).Regular problem h :=
      ⟨hfilled.problem_eq, hfilled.heuristic_eq, hfilled.unfinished, hfilled.finished⟩
    rw [hs.problem_eq] at expanded popped
    exact ⟨plan, leaf, score, e, _, filled, filed, {
      active
      popped := ⟨left, generator, popped⟩
      taken := Frontier.toList_of_taken htaken
      regular := htook
      finished_eq := rfl
      memory_eq := rfl
      trace_eq := rfl
      steps_eq := rfl
      expanded
      files
      reranks := reranks_of_ite hnoted ranks
      keeps := by
        obtain ⟨_, _, _, rfl⟩ := eq_of_rescore_ite ranks
        exact ⟨rfl, rfl⟩ }⟩

theorem get_of_count {s s' : Search μ γ} {e : Expansion} (hc : s.count e = .ok s') :
    ∃ tally, s' = { s with tally } ∧
      tally.get .candidates = s.tally.get .candidates + e.candidates.length ∧
      tally.get .deadEnds = s.tally.get .deadEnds + (if e.candidates.isEmpty then 1 else 0) ∧
      (∀ c, c ≠ .candidates → c ≠ .deadEnds → tally.get c = s.tally.get c) ∧
      tally.totalFailures = s.tally.totalFailures + e.pruned.length := by
  obtain ⟨refused, made, tally, hrefused, hmade, htally, rfl⟩ := count_eq_ok hc
  obtain ⟨hget, hfailures⟩ := Tally.get_of_recordAll hrefused
  have hcandidates := Tally.get_of_add hmade
  have hdead := Tally.get_of_add_of_ne (d := .deadEnds) hmade (by decide)
  have hfailures' := Tally.totalFailures_of_add hmade
  rw [hget] at hcandidates hdead
  rw [hfailures] at hfailures'
  refine ⟨tally, rfl, ?_⟩
  split at htally
  · rename_i hempty
    have hcandidates' := Tally.get_of_add_of_ne (d := .candidates) htally (by decide)
    have hdead' := Tally.get_of_add htally
    refine ⟨hcandidates'.trans hcandidates, by rw [hdead', hdead, if_pos hempty], ?_,
      (Tally.totalFailures_of_add htally).trans hfailures'⟩
    intro c hc hc'
    rw [Tally.get_of_add_of_ne htally hc', Tally.get_of_add_of_ne hmade hc, hget]
  · rename_i hsome
    cases htally
    refine ⟨hcandidates, by rw [hdead, if_neg hsome, Nat.add_zero], ?_, hfailures'⟩
    intro c hc _
    rw [Tally.get_of_add_of_ne hmade hc, hget]

/-- What one more extension adds to the accounts of a search. -/
structure Adds (s s' : Search μ γ) (e : Expansion) : Prop where
  problem_eq : s'.problem = s.problem
  steps_eq : s'.steps = s.steps + 1
  trace_eq : ∃ step : TraceStep,
    step.candidates = e.candidates.map (fun c => ⟨c.decision, c.plan.id, c.plan.isFinished⟩) ∧
    step.pruned = e.pruned.map Refusal.text ∧
    s'.trace = s.trace.map fun t => { t with steps := t.steps ++ [step] }
  steps : s'.tally.get .steps = s.tally.get .steps + 1
  candidates : s'.tally.get .candidates = s.tally.get .candidates + e.candidates.length
  deadEnds : s'.tally.get .deadEnds =
    s.tally.get .deadEnds + if e.candidates.isEmpty then 1 else 0
  skips : s'.tally.get .skips =
    s.tally.get .skips + e.candidates.countP fun c => c.decision.kind.isSkip
  finished : s'.tally.get .finishedPlans + s'.tally.get .droppedSolutions =
    s.tally.get .finishedPlans + s.tally.get .droppedSolutions +
      e.candidates.countP fun c => c.plan.isFinished
  failures : s'.tally.totalFailures = s.tally.totalFailures + e.pruned.length
  waiting : s'.unfinished.size + 1 + e.candidates.countP (fun c => c.plan.isFinished) =
    s.unfinished.size + e.candidates.length
  keeps : 0 < e.candidates.countP (fun c => c.plan.isFinished) → 0 < s'.finished.size
  drops : s.problem.search.stopOnFirstSolution = false →
    s'.tally.get .droppedSolutions = s.tally.get .droppedSolutions

theorem Moves.adds [Random.Source γ] {s s' : Search μ γ} {outcome : StepOutcome}
    (hs : s.Regular problem h) (hm : Moves s outcome s') :
    ∃ plan e after, Technique.expandAll problem plan problem.techniques s.supply = .ok (e, after) ∧
      Adds s s' e := by
  cases hm with
  | @expand score plan left generator leaf tally e supply counted filled after filed popped active
      stepped expanded counts files ranks =>
    rw [hs.problem_eq] at expanded
    refine ⟨plan, e, supply, expanded, ?_⟩
    obtain ⟨hleft, htaken, _⟩ := Frontier.popBest_eq_some hs.unfinished popped
    have hsize : s.unfinished.size = left.size + 1 := by
      rw [hs.unfinished.counted, htaken.length_eq, List.length_cons, hleft.counted]
    obtain ⟨tally', rfl, hcandidates, hdead, hsame, hfailures⟩ := get_of_count counts
    have hfilled : filled.Regular problem h := by
      refine Regular.fileAll ?_ files
      exact ⟨hs.problem_eq, hs.heuristic_eq, hleft, hs.finished⟩
    have fills := fileAll_induction (P := fun before s' _ => Fills _ s' before)
      (fun hbefore hc hfiles => hbefore.append (fills_of_files hc hfiles)) (fills_nil _) files
    have hnoted : (filled.note plan leaf score e).Regular problem h :=
      ⟨hfilled.problem_eq, hfilled.heuristic_eq, hfilled.unfinished, hfilled.finished⟩
    have reranks := reranks_of_ite hnoted ranks
    have hlast : ∀ c, c ≠ .rebuilds → s'.tally.get c = filled.tally.get c := reranks.untouched
    -- Taking the plan counts the step alone.
    have hstep : ∀ c, c ≠ .steps → tally.get c = s.tally.get c :=
      fun c hc => Tally.get_of_add_of_ne stepped hc
    exact {
      problem_eq := reranks.problem_eq.trans fills.problem_eq
      steps_eq := reranks.steps_eq.trans fills.steps_eq
      trace_eq := by
        refine ⟨_, ?_, ?_, reranks.trace_eq.trans (congrArg (Option.map _) fills.trace_eq)⟩
        · rfl
        · rfl
      steps := by
        rw [hlast _ (by decide), fills.untouched _ (by decide) (by decide) (by decide),
          hsame _ (by decide) (by decide), Tally.get_of_add stepped]
      candidates := by
        rw [hlast _ (by decide), fills.untouched _ (by decide) (by decide) (by decide), hcandidates,
          hstep _ (by decide)]
      deadEnds := by
        rw [hlast _ (by decide), fills.untouched _ (by decide) (by decide) (by decide), hdead,
          hstep _ (by decide)]
      skips := by
        rw [hlast _ (by decide), fills.skips, hsame _ (by decide) (by decide), hstep _ (by decide)]
      finished := by
        rw [hlast _ (by decide), hlast _ (by decide), fills.finished, hsame _ (by decide) (by decide),
          hsame _ (by decide) (by decide), hstep _ (by decide), hstep _ (by decide)]
      failures := by
        rw [reranks.failures, ← Tally.totalFailures_of_add stepped]
        exact fills.failures.trans hfailures
      waiting := by
        have hwaiting : filled.unfinished.size + _ = left.size + _ := fills.waiting
        have hreranked : s'.unfinished.size = filled.unfinished.size := reranks.waiting
        omega
      keeps := by
        intro hpos
        rw [reranks.stored]
        exact fills.keeps hpos
      drops := by
        intro hgo
        rw [hlast _ (by decide), fills.drops hgo, hsame _ (by decide) (by decide),
          hstep _ (by decide)] }

/-! ## What is kept -/

/-- Plans with leaves wait, sound plans without leaves are stored, as many as are counted. -/
structure Sifted (s : Search μ γ) : Prop where
  leaves : ∀ plan ∈ s.unfinished.toList, plan.leaves ≠ []
  sound : ∀ plan ∈ s.finished.toList, plan.leaves = [] ∧ plan.verify s.problem = .ok (.ok ())
  stored : s.finished.size = s.tally.get .finishedPlans
  enough : s.problem.search.stopOnFirstSolution = true → s.finished.size ≤ 1

theorem Sifted.files {s s' : Search μ γ} {filed filed' : Filed} {c : Candidate} {counted : Tally}
    (hs : s.Regular problem h) (hsift : s.Sifted) (hc : s.tallySkip c = .ok counted)
    (hfiles : Files s filed c counted s' filed') : s'.Sifted := by
  have hplans := (get_of_tallySkip hc).2.1 .finishedPlans (by decide)
  have hstored : s.finished.size = counted.get .finishedPlans := hsift.stored.trans hplans.symm
  cases hfiles with
  | keep leaves scored =>
    refine ⟨?_, hsift.sound, hstored, hsift.enough⟩
    intro plan hplan
    have hplan := (Frontier.toList_insert hs.unfinished _ _).mem_iff.mp hplan
    rcases List.mem_cons.mp hplan with rfl | hold
    · simpa [Plan.isFinished] using leaves
    · exact hsift.leaves plan hold
  | drop done sound stops enough tallied =>
    refine ⟨hsift.leaves, hsift.sound, ?_, hsift.enough⟩
    rw [Tally.get_of_add_of_ne tallied (by decide)]
    exact hstored
  | accept done sound wanted observed tallied scored =>
    refine ⟨hsift.leaves, ?_, ?_, ?_⟩
    · intro plan hplan
      have hplan := (Frontier.toList_insert hs.finished _ _).mem_iff.mp hplan
      rcases List.mem_cons.mp hplan with rfl | hold
      · exact ⟨List.isEmpty_iff.mp done, sound⟩
      · exact hsift.sound plan hold
    · rw [Tally.get_of_add tallied, ← hstored]
      rfl
    · intro hstop
      exact Nat.succ_le_succ (Nat.le_of_eq (wanted hstop))

theorem Sifted.moves [Random.Source γ] {s s' : Search μ γ} {outcome : StepOutcome}
    (hs : s.Regular problem h) (hsift : s.Sifted) (hm : Moves s outcome s') : s'.Sifted := by
  cases hm with
  | @expand score plan left generator leaf tally e supply counted filled after filed popped active
      stepped expanded counts files ranks =>
    obtain ⟨hleft, htaken, _⟩ := Frontier.popBest_eq_some hs.unfinished popped
    have hperm := Frontier.toList_of_taken htaken
    obtain ⟨tally', rfl, _, _, hsame, _⟩ := get_of_count counts
    have hfilled : filled.Regular problem h ∧ filled.Sifted := by
      refine fileAll_induction (P := fun _ s _ => s.Regular problem h ∧ s.Sifted) ?_ ?_ files
      · exact fun hbefore hc hfiles => ⟨hbefore.1.files hfiles, hbefore.2.files hbefore.1 hc hfiles⟩
      · refine ⟨⟨hs.problem_eq, hs.heuristic_eq, hleft, hs.finished⟩, ?_, hsift.sound, ?_,
          hsift.enough⟩
        · exact fun p hp => hsift.leaves p (hperm.mem_iff.mpr (List.mem_cons_of_mem plan hp))
        · rw [hsame _ (by decide) (by decide), Tally.get_of_add_of_ne stepped (by decide)]
          exact hsift.stored
    have hnoted : (filled.note plan leaf score e).Regular problem h :=
      ⟨hfilled.1.problem_eq, hfilled.1.heuristic_eq, hfilled.1.unfinished, hfilled.1.finished⟩
    have reranks := reranks_of_ite hnoted ranks
    refine ⟨?_, ?_, ?_, ?_⟩
    · exact fun p hp => hfilled.2.leaves p (reranks.unfinished.mem_iff.mp hp)
    · rw [reranks.problem_eq]
      exact fun p hp => hfilled.2.sound p (reranks.finished.mem_iff.mp hp)
    · rw [reranks.stored, reranks.untouched _ (by decide)]
      exact hfilled.2.stored
    · rw [reranks.problem_eq, reranks.stored]
      exact hfilled.2.enough

end Search

/-! ## Traces -/

structure Trace.Explains (t : Trace) (tally : Tally) : Prop where
  steps : tally.get .steps = t.steps.length
  candidates : tally.get .candidates = (t.steps.flatMap TraceStep.candidates).length
  deadEnds : tally.get .deadEnds = t.steps.countP fun step => step.candidates.isEmpty
  skips : tally.get .skips = (t.steps.flatMap TraceStep.candidates).countP fun c =>
    c.decision.kind = .ignore ∨ c.decision.kind = .recirculate
  finished : tally.get .finishedPlans + tally.get .droppedSolutions =
    (t.steps.flatMap TraceStep.candidates).countP TraceCandidate.finished
  failures : tally.totalFailures = (t.steps.flatMap TraceStep.pruned).length

theorem Kind.isSkip_eq (k : Kind) : k.isSkip = decide (k = .ignore ∨ k = .recirculate) := by
  cases k <;> rfl

namespace Search
variable {μ γ : Type} {problem : Problem} {h : Heuristic μ} {number : PlanId}

theorem Adds.explains {s s' : Search μ γ} {e : Expansion} (ha : Adds s s' e) {t : Trace}
    (ht : t.Explains s.tally) {step : TraceStep}
    (hcandidates : step.candidates =
      e.candidates.map fun c => ⟨c.decision, c.plan.id, c.plan.isFinished⟩)
    (hpruned : step.pruned = e.pruned.map Refusal.text) :
    Trace.Explains { t with steps := t.steps ++ [step] } s'.tally where
  steps := by
    rw [ha.steps, ht.steps, List.length_append]
    rfl
  candidates := by
    simp [ha.candidates, ht.candidates, hcandidates]
  deadEnds := by
    simp [ha.deadEnds, ht.deadEnds, hcandidates, List.countP_append, List.countP_singleton]
  skips := by
    simp [ha.skips, ht.skips, hcandidates, List.countP_append, List.countP_map, Function.comp_def,
      Kind.isSkip_eq]
  finished := by
    simp [ha.finished, ht.finished, hcandidates, List.countP_append, List.countP_map,
      Function.comp_def]
  failures := by
    simp [ha.failures, ht.failures, hpruned]

/-! ## Whole searches -/

/-- The empty plan and all candidates were extended, wait, are finished or were dropped. -/
structure Balanced (s : Search μ γ) : Prop where
  steps : s.tally.get .steps = s.steps
  plans : s.unfinished.size + s.tally.get .steps + s.tally.get .finishedPlans +
    s.tally.get .droppedSolutions = 1 + s.tally.get .candidates
  traced : s.trace.isSome = s.problem.search.trace
  explained : ∀ t ∈ s.trace, t.Explains s.tally

theorem Adds.balanced {s s' : Search μ γ} {e : Expansion} (ha : Adds s s' e) (hb : s.Balanced) :
    s'.Balanced := by
  obtain ⟨step, hcandidates, hpruned, htrace⟩ := ha.trace_eq
  refine ⟨?_, ?_, ?_, ?_⟩
  · rw [ha.steps, ha.steps_eq, hb.steps]
  · have hplans := hb.plans
    have hsteps := ha.steps
    have hmade := ha.candidates
    have hfinished := ha.finished
    have hwaiting := ha.waiting
    omega
  · rw [htrace, Option.isSome_map, ha.problem_eq, hb.traced]
  · intro t ht
    rw [htrace] at ht
    obtain ⟨before, hbefore, rfl⟩ := Option.map_eq_some_iff.mp ht
    exact ha.explains (hb.explained before hbefore) hcandidates hpruned

def WithinBudget (s : Search μ γ) : Prop := ∀ budget ∈ s.problem.search.stepBudget, s.steps ≤ budget

variable [Random.Source γ]

theorem balanced_of_start {s : Search μ γ} (hs : Search.start problem h number = .ok s) :
    s.Sifted ∧ s.Balanced := by
  obtain ⟨score, _, rfl⟩ := start_eq_ok hs
  have hone := Frontier.toList_insert_empty score (Plan.empty problem number)
  refine ⟨⟨?_, nofun, rfl, fun _ => Nat.zero_le 1⟩, rfl, rfl, ?_, ?_⟩
  · intro plan hplan
    rw [hone] at hplan
    cases List.mem_singleton.mp hplan
    exact List.cons_ne_nil _ _
  · cases problem.search.trace <;> rfl
  · intro t ht
    dsimp only at ht
    split at ht
    · cases ht
      exact ⟨rfl, rfl, rfl, rfl, rfl, rfl⟩
    · cases ht

theorem Reached.balanced {s : Search μ γ} (hs : Reached problem h number s) :
    s.Regular problem h ∧ s.Sifted ∧ s.Balanced := by
  refine hs.invariant (P := fun s => s.Sifted ∧ s.Balanced) balanced_of_start ?_
  intro s s' outcome regular hbefore hm
  obtain ⟨_, _, _, _, ha⟩ := hm.adds regular
  exact ⟨hbefore.1.moves regular hm, ha.balanced hbefore.2⟩

/-- A step from where a run may not stop drops nothing: no plan is finished yet and one candidate at
most will be, or all of them are kept. -/
theorem Moves.drops_none {s s' : Search μ γ} {outcome : StepOutcome} (hs : s.Regular problem h)
    (hsift : s.Sifted) (hgo : s.mayStop = false) (hm : Moves s outcome s')
    (hnone : s.tally.get .droppedSolutions = 0) : s'.tally.get .droppedSolutions = 0 := by
  obtain ⟨plan, e, after, expanded, ha⟩ := hm.adds hs
  cases hstop : s.problem.search.stopOnFirstSolution with
  | false => exact (ha.drops hstop).trans hnone
  | true =>
    have hempty : s.finished.size = 0 := by
      simp only [mayStop, hstop, Bool.true_and, Bool.or_eq_false_iff, Bool.not_eq_false',
        Frontier.isEmpty, decide_eq_true_eq] at hgo
      exact hgo.1
    have hcount := Technique.countP_finished_le_one expanded
    have hfinished := ha.finished
    have hstored := hsift.stored
    have hstored' := (hsift.moves hs hm).stored
    have hkeeps := ha.keeps
    omega

theorem Moves.withinBudget {s s' : Search μ γ} {outcome : StepOutcome} (hs : s.Regular problem h)
    (hgo : s.mayStop = false) (hm : Moves s outcome s') : s'.WithinBudget := by
  obtain ⟨_, _, _, _, ha⟩ := hm.adds hs
  intro budget hbudget
  rw [ha.problem_eq] at hbudget
  have hleft : ¬budget ≤ s.steps := by
    simp only [mayStop, Bool.or_eq_false_iff] at hgo
    simpa [Option.mem_def.mp hbudget] using hgo.2
  rw [ha.steps_eq]
  omega

theorem exists_end_of_run {s : Search μ γ} {outcome : Outcome}
    (hs : Search.start problem h number = .ok s) (hrun : s.run = .ok outcome) :
    ∃ s' : Search μ γ, Reached problem h number s' ∧ s'.tally.get .droppedSolutions = 0 ∧
      s'.WithinBudget ∧
      outcome = ⟨s'.problem, s'.finished.toList, s'.tally, s'.trace, outcome.exhausted, s'.steps⟩ ∧
      (outcome.exhausted = true → s'.unfinished.toList = []) := by
  obtain ⟨exhausted, s', hends, rfl⟩ := run_eq_ok hrun
  have hkept := runWithin_induction (P := fun s => Reached problem h number s ∧
    s.tally.get .droppedSolutions = 0 ∧ s.WithinBudget) ?_ ?_ hends
  · obtain ⟨⟨hreached, hdropped, hbudget⟩, hpop⟩ := hkept
    refine ⟨s', hreached, hdropped, hbudget, rfl, ?_⟩
    intro hexhausted
    exact Frontier.popBest_eq_none hreached.balanced.1.unfinished (hpop hexhausted)
  · rintro s s' outcome ⟨hreached, hdropped, hbudget⟩ hgo hstep
    obtain ⟨regular, hsift, _⟩ := hreached.balanced
    refine ⟨hreached.step hstep, ?_⟩
    rcases step_eq_ok hstep with ⟨_, _, rfl⟩ | hm
    · exact ⟨hdropped, hbudget⟩
    · exact ⟨hm.drops_none regular hsift hgo hdropped, hm.withinBudget regular hgo⟩
  · obtain ⟨score, _, rfl⟩ := start_eq_ok hs
    exact ⟨.start hs, rfl, fun _ _ => Nat.zero_le _⟩

end Search

/-- Between steps the plans, the counters and the trace of a search agree, whatever heuristic ranks
the plans, whatever source decides among equals and whatever number the empty plan has. A run from
the start drops no plan, keeps within its budget of steps, and says that it has exhausted the search
only if no plan is left to extend. -/
theorem search_accounts_agree {μ γ : Type} [Random.Source γ] (problem : Problem) (h : Heuristic μ)
    (number : PlanId) :
    (∀ s : Search μ γ, Search.Reached problem h number s →
      (∀ plan ∈ s.unfinished.toList, plan.leaves ≠ []) ∧
      (∀ plan ∈ s.finished.toList, plan.leaves = [] ∧ plan.verify problem = .ok (.ok ())) ∧
      s.unfinished.size = s.unfinished.toList.length ∧
      s.finished.size = s.finished.toList.length ∧
      s.tally.get .steps = s.steps ∧
      s.finished.size = s.tally.get .finishedPlans ∧
      s.unfinished.size + s.tally.get .steps + s.tally.get .finishedPlans +
        s.tally.get .droppedSolutions = 1 + s.tally.get .candidates ∧
      (problem.search.stopOnFirstSolution = true → s.finished.size ≤ 1) ∧
      s.trace.isSome = problem.search.trace ∧ ∀ t ∈ s.trace, t.Explains s.tally) ∧
    ∀ (s : Search μ γ) outcome, Search.start problem h number = .ok s → s.run = .ok outcome →
      outcome.tally.get .droppedSolutions = 0 ∧
      (∀ budget ∈ problem.search.stepBudget, outcome.steps ≤ budget) ∧
      ∃ s' : Search μ γ, Search.Reached problem h number s' ∧ outcome =
          ⟨problem, s'.finished.toList, s'.tally, s'.trace, outcome.exhausted, s'.steps⟩ ∧
        (outcome.exhausted = true → s'.unfinished.toList = []) := by
  constructor
  · intro s hs
    obtain ⟨⟨rfl, _, hunfinished, hfinished⟩, hsift, hb⟩ := hs.balanced
    exact ⟨hsift.leaves, hsift.sound, hunfinished.length_toList.symm, hfinished.length_toList.symm,
      hb.steps, hsift.stored, hb.plans, hsift.enough, hb.traced, hb.explained⟩
  · intro s outcome hs hrun
    obtain ⟨s', hreached, hdropped, hbudget, houtcome, hexhausted⟩ := Search.exists_end_of_run hs hrun
    obtain ⟨rfl, _, _, _⟩ := hreached.balanced.1
    refine ⟨?_, ?_, s', hreached, houtcome, hexhausted⟩
    · rw [houtcome]
      exact hdropped
    · rw [houtcome]
      exact hbudget

def timedLookup : List NodeKind :=
  [.terminal .drop,
    .call {
      function := "map_get"
      args := .ofList [("obj", .addr ⟨1⟩), ("key", .term "k" 8)]
      next := some 0 },
    .call { function := "current_time", next := some 1 },
    .call {
      function := "map_allocate"
      args := .ofList [("obj", .addr ⟨1⟩), ("capacity", .const 16 32)]
      next := some 2 }]

def starved : Config where
  search := { trace := true }
  switch := { sramBitsPerStage := 0 }

/-- The lookup is refused on the switch and handed over. -/
theorem starved_lookup_accounts_agree :
    ∃ g problem h outcome, ∃ s : Search Heuristic.Best, Graph.ofKinds timedLookup 3 = .ok g ∧
      Problem.ofConfig g starved = .ok problem ∧ h ∈ Heuristic.all ∧
      Search.start problem h = .ok s ∧ s.run = .ok outcome ∧
      outcome.tally.get .candidates = 9 ∧ outcome.tally.totalFailures = 1 ∧
      outcome.tally.get .droppedSolutions = 0 ∧
      ∃ t, outcome.trace = some t ∧ t.Explains outcome.tally := by
  obtain ⟨g, hg⟩ : ∃ g, Graph.ofKinds timedLookup 3 = .ok g := ⟨_, rfl⟩
  obtain ⟨problem, posed⟩ : ∃ problem, Problem.ofConfig g starved = .ok problem := by
    cases hg
    exact ⟨_, rfl⟩
  obtain ⟨outcome, ho, hcounts⟩ := exists_outcome (g := g) (c := starved)
    (p := fun o => o.tally.get .candidates = 9 ∧ o.tally.totalFailures = 1 ∧ o.trace.isSome)
    (by cases hg; decide +kernel)
  obtain ⟨hcandidates, hfailures, htrace⟩ := of_decide_eq_true hcounts
  obtain ⟨h, named, hrun⟩ := exists_of_synthesize posed ho
  obtain ⟨s, hs, hrun⟩ := bind_eq_ok.mp hrun
  obtain ⟨t, ht⟩ := Option.isSome_iff_exists.mp htrace
  obtain ⟨hmet, hend⟩ := search_accounts_agree (γ := Random.Generator) problem h 0
  obtain ⟨hdropped, _, s', hreached, houtcome, _⟩ := hend s outcome hs hrun
  obtain ⟨_, _, _, _, _, _, _, _, _, hexplained⟩ := hmet s' hreached
  refine ⟨g, problem, h, outcome, s, hg, posed, List.mem_of_find?_eq_some named, hs, hrun,
    hcandidates, hfailures, hdropped, t, ht, ?_⟩
  rw [houtcome] at ht ⊢
  exact hexplained t ht

end PacketPlan
