import PacketPlan.Search.Run
import PacketPlan.Proofs.Plan.Coverage
import PacketPlan.Proofs.Plan.Expansion
import PacketPlan.Proofs.Search.Frontier

/-! # One step of a search

A step takes one of the best plans out of the frontier and files every candidate of its expansion:
those with leaves go back to the frontier and the others are kept, or dropped if one is enough and
there is one. Whatever else a step does changes neither.
-/
namespace PacketPlan
open Checked

/-! ## Heuristics -/

/-- The scores satisfy the relation, and no fault of the heuristic is one of a search. -/
structure Heuristic.Respects {μ : Type} (h : Heuristic μ) (problem : Problem)
    (R : Score → Plan → Prop) : Prop where
  score : ∀ memory plan, (h.score memory problem plan).Yields fun s => R s plan
  observe : ∀ memory plan, (h.observe memory problem plan).Yields fun _ => True

def Objective.signed : Objective → Int → Int
  | max, v => v
  | min, v => -v

theorem Objective.key_yields (o : Objective) (v : Int) : (o.key v).Yields (· = o.signed v) := by
  cases o with
  | max => exact (rfl : v = v)
  | min => exact yields_ite (fun _ => rfl) (fun _ => (rfl : -v = -v))

theorem Score.keysOf_yields (ms : List Metric) (vs : List Int) :
    (keysOf ms vs).Yields (· = List.zipWith (fun m v => m.objective.signed v) ms vs) := by
  fun_induction keysOf ms vs with
  | case1 m ms v vs ih =>
    apply (m.objective.key_yields v).bind
    rintro k _ rfl
    apply ih.bind
    rintro ks _ rfl
    exact (rfl : _ :: _ = _)
  | case2 ms vs hnone =>
    rw [List.zipWith_eq_nil_iff.mpr]
    · exact (rfl : [] = [])
    · cases ms with
      | nil => exact .inl rfl
      | cons m ms =>
        cases vs with
        | nil => exact .inr rfl
        | cons v vs => exact (hnone m ms v vs rfl rfl).elim

theorem Score.ofValues_yields (ms : List Metric) (vs : List Int) :
    (ofValues ms vs).Yields
      fun s => s.keys = List.zipWith (fun m v => m.objective.signed v) ms vs := by
  refine yields_ite (fun _ => ?_) (fun _ => rfl)
  apply (keysOf_yields ms vs).bind
  rintro ks _ rfl
  exact (rfl : (Score.mk _).keys = _)

/-- Neither evaluating a plan nor observing one raises a fault of a search. -/
def Heuristic.Quiet {μ : Type} (h : Heuristic μ) : Prop :=
  ∀ memory problem plan, ((h.evaluate memory problem plan).Yields fun _ => True) ∧
    (h.observe memory problem plan).Yields fun _ => True

theorem Heuristic.Quiet.respects {μ : Type} {h : Heuristic μ} (hq : h.Quiet) (problem : Problem) :
    h.Respects problem fun _ _ => True where
  score memory plan := by
    apply (hq memory problem plan).1.bind
    intro values _ _
    exact (Score.ofValues_yields h.metrics values).mono fun _ _ _ => trivial
  observe memory plan := (hq memory problem plan).2

theorem pathRate_yields (path : CompletedPath) (capacity : Nat) :
    (path.rate capacity).Yields fun _ => True := by
  have hrate : (pathRate capacity path.recirculations).Yields fun _ => True := by
    apply (mul_yields capacity 1000).bind
    intro _ _ _
    trivial
  apply hrate.bind
  intro _ _ _
  trivial

namespace Plan

theorem sumRates_yields (problem : Problem) (acc : Nat) (paths : List CompletedPath) :
    (sumRates problem acc paths).Yields fun _ => True := by
  induction paths generalizing acc with
  | nil => trivial
  | cons path paths ih =>
    apply (pathRate_yields path _).bind
    intro rate _ _
    apply (add_yields acc rate).bind
    intro total _ _
    exact ih total

theorem firstSpeculation_yields (problem : Problem) (plan : Plan) (node : NodeId) (b : Bindings)
    (ts : List Technique) : (plan.firstSpeculation problem node b ts).Yields fun _ => True := by
  induction ts with
  | nil => trivial
  | cons t ts ih =>
    have hspec : (t.speculate problem plan node b).Yields fun _ => True := by
      apply (t.proposals_yields problem.graph b node).bind
      intro _ _ _
      trivial
    apply hspec.bind
    intro speculation _ _
    cases speculation with
    | none => exact ih
    | some speculation => trivial

theorem lookaheadFrom_yields (problem : Problem) (plan : Plan) (steps : Nat) (b : Bindings)
    (node : NodeId) (target : Target) :
    (plan.lookaheadFrom problem steps b node target).Yields fun _ => True := by
  induction steps generalizing b node target with
  | zero => trivial
  | succ steps ih =>
    apply (plan.firstSpeculation_yields problem node b _).bind
    intro speculation _ _
    cases speculation with
    | none => exact yields_ite (fun _ => ih b node .controller) (fun _ => trivial)
    | some speculation =>
      apply (Bindings.extend_yields b speculation.delta).bind
      intro b' _ _
      have hnode : (problem.graph.node node).Yields fun _ => True :=
        yields_elim rfl fun _ _ => trivial
      apply hnode.bind
      intro n _ _
      cases n.children with
      | nil => trivial
      | cons child _ => exact ih b' child target

theorem sumLookaheads_yields (problem : Problem) (plan : Plan) (acc : Nat) (leaves : List Leaf) :
    (plan.sumLookaheads problem acc leaves).Yields fun _ => True := by
  induction leaves generalizing acc with
  | nil => trivial
  | cons leaf leaves ih =>
    have hahead : (plan.lookahead problem leaf).Yields fun _ => True := by
      apply (plan.lookaheadFrom_yields problem _ _ _ _).bind
      intro target _ _
      cases target with
      | none => trivial
      | some target => exact pathRate_yields _ _
    apply hahead.bind
    intro rate _ _
    apply (add_yields acc rate).bind
    intro total _ _
    exact ih total

end Plan

theorem Heuristic.quiet_of_mem_all {h : Heuristic Heuristic.Best} (hh : h ∈ Heuristic.all) :
    h.Quiet := by
  intro memory problem plan
  simp only [Heuristic.all, List.mem_cons, List.not_mem_nil, or_false] at hh
  rcases hh with rfl | rfl | rfl
  · exact ⟨trivial, trivial⟩
  · exact ⟨trivial, trivial⟩
  · constructor
    · have hspec : (plan.speculativeThroughput problem).Yields fun _ => True := by
        apply (Plan.sumRates_yields problem 0 _).bind
        intro complete _ _
        apply (plan.sumLookaheads_yields problem 0 _).bind
        intro expected _ _
        exact add_yields complete expected
      apply hspec.bind
      intro _ _ _
      trivial
    · apply (Plan.sumRates_yields problem 0 plan.ledger.completed).bind
      intro _ _ _
      trivial

/-! ## Tallies -/

theorem Tally.add_yields (t : Tally) (c : Counter) (amount : Nat) :
    (t.add c amount).Yields fun _ => True := by
  apply (Checked.add_yields _ _).bind
  intro _ _ _
  trivial

theorem Tally.recordAll_yields (t : Tally) (rs : List Refusal) :
    (t.recordAll rs).Yields fun _ => True := by
  induction rs generalizing t with
  | nil => trivial
  | cons r rs ih =>
    have hone : (t.record r).Yields fun _ => True := by
      apply (Checked.add_yields _ _).bind
      intro _ _ _
      trivial
    apply hone.bind
    intro t' _ _
    exact ih t'

namespace Search
variable {μ γ : Type} {R : Score → Plan → Prop}

/-- Both frontiers are in order, and the scores of plans with leaves satisfy the relation. -/
structure InOrder (R : Score → Plan → Prop) (s : Search μ γ) : Prop where
  unfinished : s.unfinished.Valid
  ranks : s.unfinished.Ranks R
  finished : s.finished.Valid

/-- The plans without leaves that are kept; one is enough if the search is to stop then. -/
def admitted (s : Search μ γ) (plans : List Plan) : List Plan :=
  if s.problem.search.stopOnFirstSolution then
    (plans.filter Plan.isFinished).take (1 - s.finished.size)
  else plans.filter Plan.isFinished

/-- The second search is the first one with these plans filed, and in order. -/
structure TakesIn (R : Score → Plan → Prop) (s s' : Search μ γ) (plans : List Plan) : Prop where
  problem_eq : s'.problem = s.problem
  heuristic_eq : s'.heuristic = s.heuristic
  steps_eq : s'.steps = s.steps
  inOrder : s'.InOrder R
  unfinished_perm : s'.unfinished.toList.Perm
    (plans.filter (fun p => !p.isFinished) ++ s.unfinished.toList)
  finished_perm : s'.finished.toList.Perm (s.admitted plans ++ s.finished.toList)

theorem TakesIn.size_eq {s s' : Search μ γ} {plans : List Plan} (h : TakesIn R s s' plans)
    (hs : s.InOrder R) : s'.finished.size = (s.admitted plans).length + s.finished.size := by
  rw [← h.inOrder.finished.length_toList, ← hs.finished.length_toList, h.finished_perm.length_eq,
    List.length_append]

theorem admitted_append {s s' : Search μ γ} {plans : List Plan} (h : TakesIn R s s' plans)
    (hs : s.InOrder R) (others : List Plan) :
    s.admitted (plans ++ others) = s.admitted plans ++ s'.admitted others := by
  have hsize := h.size_eq hs
  unfold admitted at hsize ⊢
  rw [h.problem_eq, List.filter_append]
  split
  · rename_i hstop
    rw [if_pos hstop, List.length_take] at hsize
    rw [List.take_append, hsize]
    congr 2
    omega
  · rfl

theorem TakesIn.append {s s' s'' : Search μ γ} {plans others : List Plan} (h : TakesIn R s s' plans)
    (hs : s.InOrder R) (h' : TakesIn R s' s'' others) : TakesIn R s s'' (plans ++ others) where
  problem_eq := h'.problem_eq.trans h.problem_eq
  heuristic_eq := h'.heuristic_eq.trans h.heuristic_eq
  steps_eq := h'.steps_eq.trans h.steps_eq
  inOrder := h'.inOrder
  unfinished_perm := by
    rw [List.filter_append, List.append_assoc]
    refine (h'.unfinished_perm.trans (h.unfinished_perm.append_left _)).trans ?_
    exact List.perm_append_comm_assoc ..
  finished_perm := by
    rw [admitted_append h hs, List.append_assoc]
    refine (h'.finished_perm.trans (h.finished_perm.append_left _)).trans ?_
    exact List.perm_append_comm_assoc ..

theorem takesIn_nil {s s' : Search μ γ} (hp : s'.problem = s.problem)
    (hh : s'.heuristic = s.heuristic) (hsteps : s'.steps = s.steps) (hs' : s'.InOrder R)
    (hu : s'.unfinished.toList.Perm s.unfinished.toList)
    (hf : s'.finished.toList.Perm s.finished.toList) : TakesIn R s s' [] where
  problem_eq := hp
  heuristic_eq := hh
  steps_eq := hsteps
  inOrder := hs'
  unfinished_perm := hu
  finished_perm := by
    have hnone : s.admitted [] = [] := by
      unfold admitted
      split
      · exact List.take_nil
      · rfl
    rw [hnone]
    exact hf

/-! ## Filing -/

theorem takeIn_yields {s : Search μ γ} (hh : s.heuristic.Respects s.problem R) (hs : s.InOrder R)
    (filed : Filed) {plan : Plan} (hplan : plan.isFinished = true) :
    (s.takeIn filed plan).Yields fun r => TakesIn R s r.1 [plan] := by
  have hopen : [plan].filter (fun p => !p.isFinished) = [] := by simp [hplan]
  have hdone : [plan].filter Plan.isFinished = [plan] := by simp [hplan]
  unfold takeIn
  refine yields_ite (fun hdrop => ?_) (fun hkeep => ?_)
  · apply (s.tally.add_yields _ _).bind
    intro tally _ _
    simp only [Bool.and_eq_true, Bool.not_eq_true', Frontier.isEmpty,
      decide_eq_false_iff_not] at hdrop
    have hnone : s.admitted [plan] = [] := by
      have hzero : 1 - s.finished.size = 0 := by omega
      rw [admitted, if_pos hdrop.1, hzero]
      rfl
    refine ⟨rfl, rfl, rfl, ⟨hs.unfinished, hs.ranks, hs.finished⟩, ?_, ?_⟩
    · rw [hopen]
      exact .refl _
    · rw [hnone]
      exact .refl _
  · apply (hh.observe _ _).bind
    rintro ⟨memory, changed⟩ _ _
    apply (s.tally.add_yields _ _).bind
    intro tally _ _
    apply (hh.score _ _).bind
    intro score _ _
    have hone : s.admitted [plan] = [plan] := by
      unfold admitted
      rw [hdone]
      split
      · rename_i hstop
        have hempty : s.finished.size = 0 := by
          simpa [hstop, Frontier.isEmpty] using hkeep
        rw [hempty]
        rfl
      · rfl
    refine ⟨rfl, rfl, rfl, ⟨hs.unfinished, hs.ranks, hs.finished.insert _ _⟩, ?_, ?_⟩
    · rw [hopen]
      exact .refl _
    · rw [hone]
      exact Frontier.toList_insert hs.finished _ _

theorem TakesIn.of_tally {s s' : Search μ γ} {tally : Tally} {plans : List Plan}
    (h : TakesIn R { s with tally } s' plans) : TakesIn R s s' plans :=
  ⟨h.problem_eq, h.heuristic_eq, h.steps_eq, h.inOrder, h.unfinished_perm, h.finished_perm⟩

theorem fileCounted_yields {s : Search μ γ} (hh : s.heuristic.Respects s.problem R)
    (hs : s.InOrder R) (filed : Filed) {c : Candidate}
    (hc : c.plan.isFinished = true → c.plan.verify s.problem = .ok (.ok ())) :
    Yields
      (if c.plan.isFinished then do
        match ← c.plan.verify s.problem with
        | .error defect => .error (.invalidFinish c.plan.id defect)
        | .ok _ => s.takeIn filed c.plan
      else do
        let score ← s.score c.plan
        .ok ({ s with unfinished := s.unfinished.insert score c.plan }, filed))
      fun r => TakesIn R s r.1 [c.plan] := by
  refine yields_ite (fun hfinished => ?_) (fun hopen => ?_)
  · rw [hc hfinished]
    exact takeIn_yields hh hs filed hfinished
  · apply (hh.score _ _).bind
    intro score _ hscore
    have hopen' : [c.plan].filter (fun p => !p.isFinished) = [c.plan] := by simp [hopen]
    have hdone : s.admitted [c.plan] = [] := by simp [admitted, hopen]
    refine ⟨rfl, rfl, rfl, ⟨hs.unfinished.insert _ _, hs.ranks.insert hs.unfinished hscore,
      hs.finished⟩, ?_, ?_⟩
    · rw [hopen']
      exact Frontier.toList_insert hs.unfinished _ _
    · rw [hdone]
      exact .refl _

theorem file_yields {s : Search μ γ} (hh : s.heuristic.Respects s.problem R) (hs : s.InOrder R)
    (filed : Filed) {c : Candidate}
    (hc : c.plan.isFinished = true → c.plan.verify s.problem = .ok (.ok ())) :
    (s.file filed c).Yields fun r => TakesIn R s r.1 [c.plan] := by
  have hcounted : ∀ tally : Tally, InOrder R { s with tally } :=
    fun _ => ⟨hs.unfinished, hs.ranks, hs.finished⟩
  refine yields_ite (fun _ => ?_) (fun _ => ?_)
  · apply (s.tally.add_yields _ _).bind
    intro tally _ _
    apply (fileCounted_yields (s := { s with tally }) hh (hcounted tally) filed hc).mono
    exact fun _ _ h => h.of_tally
  · exact fileCounted_yields hh hs filed hc

theorem fileAll_yields {s : Search μ γ} (hh : s.heuristic.Respects s.problem R) (hs : s.InOrder R)
    (filed : Filed) {cs : List Candidate}
    (hcs : ∀ c ∈ cs, c.plan.isFinished = true → c.plan.verify s.problem = .ok (.ok ())) :
    (s.fileAll filed cs).Yields fun r => TakesIn R s r.1 (cs.map Candidate.plan) := by
  induction cs generalizing s filed with
  | nil => exact takesIn_nil rfl rfl rfl hs (.refl _) (.refl _)
  | cons c cs ih =>
    apply (file_yields hh hs filed (hcs c List.mem_cons_self)).bind
    rintro ⟨s', filed'⟩ _ hfirst
    have hh' : s'.heuristic.Respects s'.problem R := by
      rw [hfirst.heuristic_eq, hfirst.problem_eq]
      exact hh
    have hcs' : ∀ c ∈ cs, c.plan.isFinished = true → c.plan.verify s'.problem = .ok (.ok ()) := by
      rw [hfirst.problem_eq]
      exact fun d hd => hcs d (List.mem_cons_of_mem c hd)
    apply (ih hh' hfirst.inOrder filed' hcs').mono
    intro r _ hothers
    exact hfirst.append hs hothers

theorem rescore_yields {s : Search μ γ} (hh : s.heuristic.Respects s.problem R) :
    s.rescore.Yields fun s' => TakesIn R s s' [] := by
  apply (Frontier.rebuild_yields (hh.score s.memory) s.unfinished).bind
  rintro unfinished _ ⟨huvalid, huranks, huperm⟩
  apply (Frontier.rebuild_yields (hh.score s.memory) s.finished).bind
  rintro finished _ ⟨hfvalid, _, hfperm⟩
  apply (s.tally.add_yields _ _).bind
  intro tally _ _
  exact takesIn_nil rfl rfl rfl ⟨huvalid, huranks, hfvalid⟩ huperm hfperm

theorem count_yields (s : Search μ γ) (e : Expansion) :
    (s.count e).Yields fun s' => ∃ tally, s' = { s with tally } := by
  apply (s.tally.recordAll_yields e.pruned).bind
  intro refused _ _
  apply (refused.add_yields _ _).bind
  intro counted _ _
  refine yields_ite (fun _ => ?_) (fun _ => ?_)
  · apply (counted.add_yields _ _).bind
    intro tally _ _
    exact ⟨tally, rfl⟩
  · exact ⟨counted, rfl⟩

/-! ## Steps -/

/-- What a step does that is not the last: one of the best plans is taken and its candidates are
filed. -/
inductive StepsTo (R : Score → Plan → Prop) (s : Search μ γ) : Search μ γ → Prop
  | expand {score : Score} {plan : Plan} {left : Frontier Plan} {generator : γ}
      {e : Expansion} {after : Supply} {s' : Search μ γ}
      (taken : s.unfinished.scored.Perm ((score, plan) :: left.scored))
      (best : ∀ x ∈ s.unfinished.scored, Ranked.before score x.1 = false)
      (expanded : Technique.expandAll s.problem plan s.problem.techniques s.supply = .ok (e, after))
      (files : TakesIn R { s with unfinished := left, generator, steps := s.steps + 1 } s'
        (e.candidates.map Candidate.plan)) : StepsTo R s s'

def Derived (s : Search μ γ) : Prop :=
  ∀ plan ∈ s.unfinished.toList, plan.leaves ≠ [] ∧ ∃ choices, Derives s.problem choices plan

theorem stepFrom_yields {s : Search μ γ} (wp : s.problem.WellPosed)
    (hh : s.heuristic.Respects s.problem R) (hs : s.InOrder R) (score : Score) {plan : Plan}
    {choices : List Choice} (derived : Derives s.problem choices plan) :
    (s.stepFrom score plan).Yields fun r => (∃ id n k, r.1 = .expanded id n k) ∧
      ∃ e after, Technique.expandAll s.problem plan s.problem.techniques s.supply = .ok (e, after) ∧
        TakesIn R { s with steps := s.steps + 1 } r.2 (e.candidates.map Candidate.plan) := by
  unfold stepFrom
  split
  · rfl
  · rename_i leaf _
    apply (s.tally.add_yields _ _).bind
    intro tally _ _
    apply (Technique.expandAll_yields _ _ _ _).bind
    rintro ⟨e, supply⟩ he _
    apply (count_yields _ e).bind
    rintro _ _ ⟨counted, rfl⟩
    have hcs : ∀ c ∈ e.candidates, c.plan.isFinished = true →
        c.plan.verify s.problem = .ok (.ok ()) := by
      intro c hc hfinished
      obtain ⟨_, hderived⟩ := derived.expandAll he hc
      exact (hderived.lawful wp).verify_eq wp.tree (List.isEmpty_iff.mp hfinished)
    have hfiled := fileAll_yields (s := { s with steps := s.steps + 1, supply, tally := counted }) hh
      ⟨hs.unfinished, hs.ranks, hs.finished⟩ {} hcs
    apply hfiled.bind
    rintro ⟨s', filed⟩ _ hfiles
    have hstep : TakesIn R { s with steps := s.steps + 1 } s' (e.candidates.map Candidate.plan) :=
      ⟨hfiles.problem_eq, hfiles.heuristic_eq, hfiles.steps_eq, hfiles.inOrder,
        hfiles.unfinished_perm, hfiles.finished_perm⟩
    have hnoted : TakesIn R { s with steps := s.steps + 1 } (s'.note plan leaf score e)
        (e.candidates.map Candidate.plan) :=
      ⟨hstep.problem_eq, hstep.heuristic_eq, hstep.steps_eq, ⟨hstep.inOrder.unfinished,
        hstep.inOrder.ranks, hstep.inOrder.finished⟩, hstep.unfinished_perm, hstep.finished_perm⟩
    refine yields_ite (fun _ => ?_) (fun _ => ?_)
    · have hh' : (s'.note plan leaf score e).heuristic.Respects
          (s'.note plan leaf score e).problem R := by
        rw [hnoted.heuristic_eq, hnoted.problem_eq]
        exact hh
      apply (rescore_yields hh').bind
      intro s'' _ hrescored
      have hall := hnoted.append ⟨hs.unfinished, hs.ranks, hs.finished⟩ hrescored
      rw [List.append_nil] at hall
      exact ⟨⟨_, _, _, rfl⟩, e, supply, he, hall⟩
    · exact ⟨⟨_, _, _, rfl⟩, e, supply, he, hnoted⟩

/-- A step ends the search if no plan has leaves, and else extends one of the best plans. -/
theorem step_yields [Random.Source γ] {s : Search μ γ} (wp : s.problem.WellPosed)
    (hh : s.heuristic.Respects s.problem R) (hs : s.InOrder R) (derived : s.Derived) :
    s.step.Yields fun r => (r = (.exhausted, s) ∧ s.unfinished.toList = []) ∨
      ((∃ id n k, r.1 = .expanded id n k) ∧ StepsTo R s r.2) := by
  unfold step
  split
  · rename_i hpop
    exact .inl ⟨rfl, Frontier.popBest_eq_none hs.unfinished hpop⟩
  · rename_i score plan left generator hpop
    obtain ⟨hvalid, htaken, hbest⟩ := Frontier.popBest_eq_some hs.unfinished hpop
    have hin : (score, plan) ∈ s.unfinished.scored := htaken.mem_iff.mpr List.mem_cons_self
    have hplan : plan ∈ s.unfinished.toList :=
      Frontier.mem_toList.mpr ⟨score, hin⟩
    obtain ⟨_, choices, hderived⟩ := derived plan hplan
    have hranks : left.Ranks R :=
      fun x hx => hs.ranks x (htaken.mem_iff.mpr (List.mem_cons_of_mem _ hx))
    have hstep := stepFrom_yields (s := { s with unfinished := left, generator }) wp hh
      ⟨hvalid, hranks, hs.finished⟩ score hderived
    apply hstep.mono
    rintro r _ ⟨hexpanded, e, after, he, hfiles⟩
    exact .inr ⟨hexpanded, .expand htaken hbest he hfiles⟩

end Search

end PacketPlan
