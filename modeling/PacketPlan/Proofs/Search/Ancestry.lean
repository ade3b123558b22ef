import PacketPlan.Proofs.Plan.Numbering
import PacketPlan.Proofs.Search.Accounting

/-! # Traces as search trees

The plans with leaves that a search has made are those it has extended and those that wait, each of
them once. A trace therefore shows a tree: its first step extends the empty plan, every later step
extends a plan that exactly one earlier step has made, and numbers grow from a plan to what was made
from it.
-/
namespace PacketPlan

/-! ## Search trees -/

theorem index_eq_of_nodup_map {α β : Type} {f : α → β} {xs : List α} (h : (xs.map f).Nodup)
    {i j : Nat} {a b : α} (ha : xs[i]? = some a) (hb : xs[j]? = some b) (heq : f a = f b) :
    i = j := by
  have hi : i < (xs.map f).length := by
    simpa using (List.getElem?_eq_some_iff.mp ha).1
  apply (List.getElem?_inj hi h).mp
  rw [List.getElem?_map, List.getElem?_map, ha, hb, Option.map_some, Option.map_some, heq]

namespace TraceStep

def made (steps : List TraceStep) : List PlanId :=
  (steps.flatMap TraceStep.candidates).map TraceCandidate.plan

def kept (steps : List TraceStep) : List PlanId :=
  ((steps.flatMap TraceStep.candidates).filter fun c => !c.finished).map TraceCandidate.plan

def candidateAt? (steps : List TraceStep) (i k : Nat) : Option TraceCandidate :=
  steps[i]?.bind fun step => step.candidates[k]?

structure Extends (step : TraceStep) (plan : Plan) : Prop where
  plan_eq : step.plan = plan.id
  leaf : ∃ leaf, plan.activeLeaf? = some leaf ∧ step.node = leaf.next ∧ step.target = leaf.target

/-- The candidates are numbered after the plan of the step and were decided for it, at its node and
on its target. -/
structure Owns (step : TraceStep) : Prop where
  later : ∀ c ∈ step.candidates, step.plan < c.plan
  plan_eq : ∀ c ∈ step.candidates, c.decision.plan = step.plan
  node_eq : ∀ c ∈ step.candidates, c.decision.node = step.node
  target_eq : ∀ c ∈ step.candidates, c.decision.target = step.target

theorem made_append (xs ys : List TraceStep) : made (xs ++ ys) = made xs ++ made ys := by
  simp [made]

theorem kept_append (xs ys : List TraceStep) : kept (xs ++ ys) = kept xs ++ kept ys := by
  simp [kept]

theorem made_cons (step : TraceStep) (steps : List TraceStep) :
    made (step :: steps) = step.candidates.map TraceCandidate.plan ++ made steps := by
  simp [made]

theorem kept_sublist_made (steps : List TraceStep) : (kept steps).Sublist (made steps) :=
  List.filter_sublist.map TraceCandidate.plan

theorem mem_made_of_candidateAt? {steps : List TraceStep} {i k : Nat} {c : TraceCandidate}
    (h : candidateAt? steps i k = some c) : c.plan ∈ made steps := by
  obtain ⟨step, hstep, hc⟩ := Option.bind_eq_some_iff.mp h
  exact List.mem_map_of_mem
    (List.mem_flatMap.mpr ⟨step, List.mem_of_getElem? hstep, List.mem_of_getElem? hc⟩)

/-- Where no number is given out twice, a number has one place. -/
theorem candidateAt?_injective {steps : List TraceStep} (distinct : (made steps).Nodup)
    {i k i' k' : Nat} {c c' : TraceCandidate} (hc : candidateAt? steps i k = some c)
    (hc' : candidateAt? steps i' k' = some c') (heq : c.plan = c'.plan) : i = i' ∧ k = k' := by
  induction steps generalizing i i' with
  | nil => simp [candidateAt?] at hc
  | cons step steps ih =>
    rw [made_cons] at distinct
    obtain ⟨hfirst, hrest, hapart⟩ := List.nodup_append.mp distinct
    have hmem : ∀ {k : Nat} {c : TraceCandidate}, step.candidates[k]? = some c →
        c.plan ∈ step.candidates.map TraceCandidate.plan :=
      fun h => List.mem_map_of_mem (List.mem_of_getElem? h)
    cases i with
    | zero =>
      have hc : step.candidates[k]? = some c := hc
      cases i' with
      | zero =>
        have hc' : step.candidates[k']? = some c' := hc'
        exact ⟨rfl, index_eq_of_nodup_map hfirst hc hc' heq⟩
      | succ i' => exact absurd heq (hapart _ (hmem hc) _ (mem_made_of_candidateAt? hc'))
    | succ i =>
      cases i' with
      | zero => exact absurd heq.symm (hapart _ (hmem hc') _ (mem_made_of_candidateAt? hc))
      | succ i' =>
        obtain ⟨rfl, rfl⟩ := ih hrest hc hc'
        exact ⟨rfl, rfl⟩

theorem exists_candidateAt?_of_mem_kept {steps : List TraceStep} {j : Nat} {id : PlanId}
    (h : id ∈ kept (steps.take j)) :
    ∃ i k c, i < j ∧ candidateAt? steps i k = some c ∧ c.plan = id ∧ c.finished = false := by
  obtain ⟨c, hc, rfl⟩ := List.mem_map.mp h
  obtain ⟨hc, hopen⟩ := List.mem_filter.mp hc
  obtain ⟨step, hstep, hc⟩ := List.mem_flatMap.mp hc
  obtain ⟨i, hi⟩ := List.getElem?_of_mem hstep
  obtain ⟨k, hk⟩ := List.getElem?_of_mem hc
  rw [List.getElem?_take] at hi
  split at hi
  · rename_i hij
    refine ⟨i, k, c, hij, ?_, rfl, by simpa using hopen⟩
    rw [candidateAt?, hi]
    exact hk
  · cases hi

end TraceStep

/-- A trace that shows how all its plans came from the root. -/
structure Trace.IsSearchTree (t : Trace) (root : Plan) : Prop where
  numbered : t.steps.map TraceStep.step = List.range' 1 t.steps.length
  rooted : ∀ step ∈ t.steps[0]?, step.Extends root
  descends : ∀ j step, 0 < j → t.steps[j]? = some step →
    ∃ i k c, i < j ∧ TraceStep.candidateAt? t.steps i k = some c ∧ c.plan = step.plan ∧
      c.finished = false ∧
      ∀ i' k' c', TraceStep.candidateAt? t.steps i' k' = some c' → c'.plan = step.plan →
        i' = i ∧ k' = k
  once : (t.steps.map TraceStep.plan).Nodup
  distinct : (TraceStep.made t.steps).Nodup
  owned : ∀ step ∈ t.steps, step.Owns

namespace Search
variable {μ γ : Type} {problem : Problem} {h : Heuristic μ} {number : PlanId} {root : Plan}

/-! ## What a step records -/

structure Queues (s s' : Search μ γ) (cs : List Candidate) : Prop where
  supply_eq : s'.supply = s.supply
  trace_eq : s'.trace = s.trace
  steps_eq : s'.steps = s.steps
  unfinished : s'.unfinished.toList.Perm
    (s.unfinished.toList ++ (cs.filter fun c => !c.plan.isFinished).map Candidate.plan)

theorem queues_nil (s : Search μ γ) : Queues s s [] :=
  ⟨rfl, rfl, rfl, by simp⟩

theorem Queues.files {s s' s'' : Search μ γ} {cs : List Candidate} {filed filed' : Filed}
    {c : Candidate} {counted : Tally} (hq : Queues s s' cs) (regular : s'.Regular problem h)
    (hfiles : Files s' filed c counted s'' filed') : Queues s s'' (cs ++ [c]) := by
  cases hfiles with
  | keep leaves scored =>
    refine ⟨hq.supply_eq, hq.trace_eq, hq.steps_eq, ?_⟩
    refine (Frontier.toList_insert regular.unfinished _ c.plan).trans ?_
    refine (hq.unfinished.cons c.plan).trans ?_
    have hlast := List.perm_append_singleton c.plan
      (s.unfinished.toList ++ (cs.filter fun c => !c.plan.isFinished).map Candidate.plan)
    simpa [leaves] using hlast.symm
  | drop done sound stops enough tallied =>
    exact ⟨hq.supply_eq, hq.trace_eq, hq.steps_eq, by simpa [done] using hq.unfinished⟩
  | accept done sound wanted observed tallied scored =>
    exact ⟨hq.supply_eq, hq.trace_eq, hq.steps_eq, by simpa [done] using hq.unfinished⟩

theorem Regular.queues {s s' : Search μ γ} {filed filed' : Filed} {cs : List Candidate}
    (hs : s.Regular problem h) (hf : s.fileAll filed cs = .ok (s', filed')) :
    s'.Regular problem h ∧ Queues s s' cs :=
  fileAll_induction (P := fun before s' _ => s'.Regular problem h ∧ Queues s s' before)
    (fun hbefore _ hfiles => ⟨hbefore.1.files hfiles, hbefore.2.files hbefore.1 hfiles⟩)
    ⟨hs, queues_nil s⟩ hf

theorem Passage.supply_eq [Random.Source γ] {s s' took filled : Search μ γ} {plan : Plan}
    {leaf : Leaf} {score : Score} {e : Expansion} {filed : Filed}
    (hp : Passage problem h s s' plan leaf score e took filled filed) : s'.supply = took.supply :=
  hp.keeps.2.trans (hp.regular.queues hp.files).2.supply_eq

structure Notes (s s' : Search μ γ) (plan : Plan) (e : Expansion) (step : TraceStep) : Prop where
  taken : plan ∈ s.unfinished.toList
  extended : step.Extends plan
  numbered : step.step = s.steps + 1
  candidates : step.candidates =
    e.candidates.map fun c => ⟨c.decision, c.plan.id, c.plan.isFinished⟩
  ascends : Ascends s.supply.nextPlan s'.supply.nextPlan (e.candidates.map fun c => c.plan.id)
  decided : ∀ c ∈ step.candidates,
    c.decision.plan = step.plan ∧ c.decision.node = step.node ∧ c.decision.target = step.target
  unfinished : (plan :: s'.unfinished.toList).Perm
    (s.unfinished.toList ++ (e.candidates.filter fun c => !c.plan.isFinished).map Candidate.plan)
  steps_eq : s'.steps = s.steps + 1
  trace_eq : s'.trace = s.trace.map fun t => { t with steps := t.steps ++ [step] }

theorem Moves.notes [Random.Source γ] {s s' : Search μ γ} {outcome : StepOutcome}
    (hs : s.Regular problem h) (hm : Moves s outcome s') : ∃ plan e step, Notes s s' plan e step := by
  obtain ⟨plan, leaf, score, e, took, filled, filed, hp⟩ := hm.passage hs
  obtain ⟨_, hq⟩ := hp.regular.queues hp.files
  have hnumbered := Technique.numbered_of_expandAll hp.active hp.expanded
  have hsteps : filled.steps = s.steps + 1 := hq.steps_eq.trans hp.steps_eq
  refine ⟨plan, e, ⟨filled.steps, plan.id, leaf.next, leaf.target, score.keys,
    e.candidates.map fun c => ⟨c.decision, c.plan.id, c.plan.isFinished⟩,
    e.pruned.map Refusal.text⟩, ?_⟩
  exact {
    taken := hp.taken.mem_iff.mpr List.mem_cons_self
    extended := ⟨rfl, leaf, hp.active, rfl, rfl⟩
    numbered := hsteps
    candidates := rfl
    ascends := hp.supply_eq ▸ hnumbered.ascends
    decided := by
      intro c hc
      obtain ⟨candidate, hcandidate, rfl⟩ := List.mem_map.mp hc
      obtain ⟨hplan, hnode, htarget⟩ := hnumbered.decided candidate hcandidate
      exact ⟨hplan, hnode, htarget⟩
    unfinished := by
      have hqueued := (hp.reranks.unfinished.trans hq.unfinished).cons plan
      exact hqueued.trans (hp.taken.symm.append_right _)
    steps_eq := hp.reranks.steps_eq.trans hsteps
    trace_eq := by
      rw [← hp.trace_eq, ← hq.trace_eq]
      exact hp.reranks.trace_eq }

/-! ## What the trace has recorded -/

/-- The steps account for every plan with leaves: the root and those that were made are those that
were extended and those that wait. -/
structure Recorded (s : Search μ γ) (root : Plan) (steps : List TraceStep) : Prop where
  numbered : steps.map TraceStep.step = List.range' 1 s.steps
  ascends : Ascends (root.id + 1) s.supply.nextPlan (TraceStep.made steps)
  accounted : (root.id :: TraceStep.kept steps).Perm
    (steps.map TraceStep.plan ++ s.unfinished.toList.map Plan.id)
  rooted : steps = [] → s.unfinished.toList = [root]
  extended : ∀ step ∈ steps[0]?, step.Extends root
  earlier : ∀ j step, steps[j]? = some step → step.plan ∈ root.id :: TraceStep.kept (steps.take j)
  owned : ∀ step ∈ steps, step.Owns

theorem Recorded.length_eq {s : Search μ γ} {steps : List TraceStep} (hr : s.Recorded root steps) :
    steps.length = s.steps := by
  have hlength := congrArg List.length hr.numbered
  simpa using hlength

theorem Recorded.nodup_made {s : Search μ γ} {steps : List TraceStep}
    (hr : s.Recorded root steps) : (root.id :: TraceStep.made steps).Nodup := by
  refine List.nodup_cons.mpr ⟨?_, hr.ascends.ascending.imp Nat.ne_of_lt⟩
  intro hmade
  exact Nat.not_succ_le_self _ (hr.ascends.within _ hmade).1

theorem Recorded.nodup_extended {s : Search μ γ} {steps : List TraceStep}
    (hr : s.Recorded root steps) : (steps.map TraceStep.plan).Nodup := by
  have hkept := hr.nodup_made.sublist ((TraceStep.kept_sublist_made steps).cons_cons root.id)
  exact (List.nodup_append.mp (hr.accounted.nodup_iff.mp hkept)).1

theorem Recorded.lt_next {s : Search μ γ} {steps : List TraceStep} (hr : s.Recorded root steps)
    {plan : Plan} (hp : plan ∈ s.unfinished.toList) :
    plan.id ∈ root.id :: TraceStep.kept steps ∧ plan.id < s.supply.nextPlan := by
  have hmem : plan.id ∈ root.id :: TraceStep.kept steps :=
    hr.accounted.mem_iff.mpr (List.mem_append_right _ (List.mem_map_of_mem hp))
  refine ⟨hmem, ?_⟩
  rcases List.mem_cons.mp hmem with hroot | hkept
  · rw [hroot]
    exact hr.ascends.le
  · exact (hr.ascends.within _ ((TraceStep.kept_sublist_made steps).subset hkept)).2

theorem recorded_nil [Random.Source γ] {s : Search μ γ}
    (hs : Search.start problem h number = .ok s) : s.Recorded (.empty problem number) [] := by
  obtain ⟨score, _, rfl⟩ := start_eq_ok hs
  have hone := Frontier.toList_insert_empty score (Plan.empty problem number)
  exact {
    numbered := rfl
    ascends := ascends_nil (Nat.le_refl _)
    accounted := by
      rw [hone]
      exact .refl _
    rooted := fun _ => hone
    extended := by simp
    earlier := by simp
    owned := by simp }

theorem Recorded.notes {s s' : Search μ γ} {plan : Plan} {e : Expansion} {step : TraceStep}
    {steps : List TraceStep} (hr : s.Recorded root steps) (hn : Notes s s' plan e step) :
    s'.Recorded root (steps ++ [step]) := by
  have hmade : TraceStep.made [step] = e.candidates.map fun c => c.plan.id := by
    simp [TraceStep.made, hn.candidates, Function.comp_def]
  have hkept : TraceStep.kept [step] =
      ((e.candidates.filter fun c => !c.plan.isFinished).map Candidate.plan).map Plan.id := by
    simp [TraceStep.kept, hn.candidates, List.filter_map, Function.comp_def]
  obtain ⟨hplan, hnext⟩ := hr.lt_next hn.taken
  rw [← hn.extended.plan_eq] at hplan hnext
  exact {
    numbered := by
      rw [List.map_append, hr.numbered, hn.steps_eq, List.range'_concat]
      simp [hn.numbered, Nat.add_comm]
    ascends := by
      rw [TraceStep.made_append, hmade]
      exact hr.ascends.append hn.ascends
    accounted := by
      have hbefore := hr.accounted.append_right (TraceStep.kept [step])
      have hmoved := (hn.unfinished.map Plan.id).append_left (steps.map TraceStep.plan)
      rw [List.map_append, ← hkept, ← List.append_assoc] at hmoved
      rw [TraceStep.kept_append]
      refine (hbefore.trans hmoved.symm).trans (List.Perm.of_eq ?_)
      simp [hn.extended.plan_eq]
    rooted := fun hnil => absurd hnil (by simp)
    extended := by
      intro first hfirst
      cases steps with
      | nil =>
        cases hfirst
        have hroot := hn.taken
        rw [hr.rooted rfl, List.mem_singleton] at hroot
        exact hroot ▸ hn.extended
      | cons _ _ => exact hr.extended first hfirst
    earlier := by
      intro j other hj
      by_cases hlt : j < steps.length
      · rw [List.getElem?_append_left hlt] at hj
        rw [List.take_append_of_le_length hlt.le]
        exact hr.earlier j other hj
      · rw [List.getElem?_append_right (Nat.le_of_not_lt hlt)] at hj
        cases List.mem_singleton.mp (List.mem_of_getElem? hj)
        rw [List.take_append, List.take_of_length_le (Nat.le_of_not_lt hlt), TraceStep.kept_append,
          ← List.cons_append]
        exact List.mem_append_left _ hplan
    owned := by
      intro other hother
      rcases List.mem_append.mp hother with hother | hother
      · exact hr.owned other hother
      · cases List.mem_singleton.mp hother
        refine ⟨?_, fun c hc => (hn.decided c hc).1, fun c hc => (hn.decided c hc).2.1,
          fun c hc => (hn.decided c hc).2.2⟩
        intro c hc
        have hid : c.plan ∈ TraceStep.made [step] := by
          simpa [TraceStep.made] using ⟨c, hc, rfl⟩
        rw [hmade] at hid
        exact hnext.trans_le (hn.ascends.within _ hid).1 }

theorem Recorded.isSearchTree {s : Search μ γ} {t : Trace} (hr : s.Recorded root t.steps) :
    t.IsSearchTree root where
  numbered := by
    rw [hr.length_eq]
    exact hr.numbered
  rooted := hr.extended
  descends := by
    intro j step hj hstep
    have hmade := (List.nodup_cons.mp hr.nodup_made).2
    -- The root belongs to the first step, so that a later one has another number.
    have hother : step.plan ≠ root.id := by
      intro hsame
      obtain ⟨first, hfirst⟩ : ∃ first, t.steps[0]? = some first :=
        ⟨_, List.getElem?_eq_getElem (Nat.zero_lt_of_lt (List.getElem?_eq_some_iff.mp hstep).1)⟩
      have hroot : first.plan = root.id := (hr.extended first hfirst).plan_eq
      have hindex := index_eq_of_nodup_map hr.nodup_extended hfirst hstep (hroot.trans hsame.symm)
      omega
    have hkept := (List.mem_cons.mp (hr.earlier j step hstep)).resolve_left hother
    obtain ⟨i, k, c, hij, hc, hplan, hopen⟩ := TraceStep.exists_candidateAt?_of_mem_kept hkept
    refine ⟨i, k, c, hij, hc, hplan, hopen, ?_⟩
    intro i' k' c' hc' hplan'
    exact TraceStep.candidateAt?_injective hmade hc' hc (hplan'.trans hplan.symm)
  once := hr.nodup_extended
  distinct := (List.nodup_cons.mp hr.nodup_made).2
  owned := hr.owned

theorem Reached.recorded [Random.Source γ] {s : Search μ γ} (hs : Reached problem h number s)
    (traced : problem.search.trace = true) :
    ∃ t, s.trace = some t ∧ s.Recorded (.empty problem number) t.steps := by
  refine (hs.invariant (P := fun s => ∃ t, s.trace = some t ∧
    s.Recorded (.empty problem number) t.steps) ?_ ?_).2
  · intro s hstart
    have hr := recorded_nil hstart
    obtain ⟨score, _, rfl⟩ := start_eq_ok hstart
    exact ⟨_, if_pos traced, hr⟩
  · rintro s s' outcome regular ⟨t, ht, hr⟩ hm
    obtain ⟨plan, e, step, hn⟩ := hm.notes regular
    refine ⟨{ t with steps := t.steps ++ [step] }, ?_, hr.notes hn⟩
    rw [hn.trace_eq, ht]
    rfl

end Search

/-- The trace of a search is a tree, whatever heuristic ranks the plans and whatever number the
empty plan has, after every step and at the end of a run: the steps are numbered one by one and
start with the empty plan, every later step extends a plan with leaves that exactly one candidate of
an earlier step has brought, no plan is extended twice, and the candidates have numbers of their
own, above that of the plan that their decisions name. -/
theorem trace_is_search_tree {μ γ : Type} [Random.Source γ] (problem : Problem) (h : Heuristic μ)
    (number : PlanId) (traced : problem.search.trace = true) :
    (∀ s : Search μ γ, Search.Reached problem h number s →
      ∃ t, s.trace = some t ∧ t.steps.length = s.steps ∧ t.IsSearchTree (.empty problem number)) ∧
    ∀ (s : Search μ γ) outcome, Search.start problem h number = .ok s → s.run = .ok outcome →
      ∃ t, outcome.trace = some t ∧ t.steps.length = outcome.steps ∧
        t.IsSearchTree (.empty problem number) := by
  have hreached : ∀ s : Search μ γ, Search.Reached problem h number s →
      ∃ t, s.trace = some t ∧ t.steps.length = s.steps ∧ t.IsSearchTree (.empty problem number) := by
    intro s hs
    obtain ⟨t, ht, hr⟩ := hs.recorded traced
    exact ⟨t, ht, hr.length_eq, hr.isSearchTree⟩
  refine ⟨hreached, ?_⟩
  intro s outcome hs hrun
  obtain ⟨s', hs', _, _, houtcome, _⟩ := Search.exists_end_of_run hs hrun
  rw [houtcome]
  exact hreached s' hs'

/-- Number 7 is used up by a lookup that the switch has no memory for. -/
theorem starved_lookup_traced_as_tree :
    ∃ g problem h outcome t, ∃ s : Search Heuristic.Best, Graph.ofKinds timedLookup 3 = .ok g ∧
      Problem.ofConfig g starved = .ok problem ∧ h ∈ Heuristic.all ∧
      Search.start problem h = .ok s ∧ s.run = .ok outcome ∧ outcome.trace = some t ∧
      t.steps.map TraceStep.plan = [0, 2, 1, 5, 8, 9] ∧
      TraceStep.made t.steps = [1, 2, 3, 4, 5, 6, 8, 9, 10] ∧
      t.IsSearchTree (.empty problem 0) := by
  obtain ⟨g, hg⟩ : ∃ g, Graph.ofKinds timedLookup 3 = .ok g := ⟨_, rfl⟩
  obtain ⟨problem, posed⟩ : ∃ problem, Problem.ofConfig g starved = .ok problem := by
    cases hg
    exact ⟨_, rfl⟩
  have traced : problem.search.trace = true := by
    rw [Problem.eq_of_ofConfig posed]
    rfl
  obtain ⟨outcome, ho, hsteps⟩ := exists_outcome (g := g) (c := starved)
    (p := fun o => o.trace.any fun t => t.steps.map TraceStep.plan = [0, 2, 1, 5, 8, 9] ∧
      TraceStep.made t.steps = [1, 2, 3, 4, 5, 6, 8, 9, 10])
    (by cases hg; decide +kernel)
  obtain ⟨h, named, hrun⟩ := exists_of_synthesize posed ho
  obtain ⟨s, hs, hrun⟩ := bind_eq_ok.mp hrun
  obtain ⟨t, ht, _, htree⟩ := (trace_is_search_tree problem h 0 traced).2 s outcome hs hrun
  rw [ht] at hsteps
  obtain ⟨hplans, hmade⟩ := of_decide_eq_true hsteps
  exact ⟨g, problem, h, outcome, t, s, hg, posed, List.mem_of_find?_eq_some named, hs, hrun, ht,
    hplans, hmade, htree⟩

end PacketPlan
