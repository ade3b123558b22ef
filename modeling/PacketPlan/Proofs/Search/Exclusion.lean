import Mathlib.Data.List.Nodup
import PacketPlan.Proofs.Search.Ranking
import PacketPlan.Proofs.Search.Speculation

/-! # How many ways a plan goes on

A node has one handler on its target, so of all the techniques that keep the packet one at most has
candidates. Another pass is no rival to it: it is offered if a probe is refused, and then placement
is refused as well. What remains is the hand-over on the switch, and in software the choice between
two representations. So a plan has two candidates at most, and at the end of a path just one.
-/
namespace PacketPlan
open Checked

namespace Technique
variable {t u : Technique} {problem : Problem} {plan : Plan} {leaf : Leaf} {rest : List Leaf}
  {node : Node} {supply after : Supply} {e : Expansion}

def Applies (problem : Problem) (plan : Plan) (t : Technique) : Prop :=
  ∃ supply after e, t.expand problem plan supply = .ok (e, after) ∧ e.candidates ≠ []

theorem Offers.applies {label : Choice} {c : Candidate} (h : Offers problem plan label c) :
    label.1.Applies problem plan := by
  obtain ⟨supply, after, e, expanded, chosen⟩ := h
  exact ⟨supply, after, e, expanded, List.ne_nil_of_mem (List.mem_of_getElem? chosen)⟩

theorem Applies.offer (h : t.Applies problem plan) (active : plan.leaves = leaf :: rest) :
    t.target = leaf.target ∧ ∃ ps, t.offers problem plan leaf = .ok ps ∧
      ∃ p ∈ ps, ∃ stages r, p.place leaf.passDeps plan.resources = .ok (stages, r) := by
  obtain ⟨supply, after, e, expanded, some⟩ := h
  have hsome : e ≠ {} := by
    rintro rfl
    exact some rfl
  obtain ⟨htarget, ps, hps, realized⟩ := expand_eq_ok active expanded hsome
  obtain ⟨c, hc⟩ := List.exists_mem_of_ne_nil _ some
  obtain ⟨p, hp, _, _, hrealize⟩ := mem_realizeAll realized hc
  obtain ⟨_, stages, r, _, _, placed, _⟩ := realize_eq_ok hrealize
  exact ⟨htarget.symm, ps, hps, p, (List.mem_filter.mp hp).1, stages, r, placed⟩

theorem Applies.proposed (h : t.Applies problem plan) (active : plan.leaves = leaf :: rest)
    (kind_ne : t.kind ≠ .recirculate) :
    ∃ ps, t.proposals problem.graph plan.bindings leaf.next = .ok ps ∧
      ∃ p ∈ ps, ∃ stages r, p.place leaf.passDeps plan.resources = .ok (stages, r) := by
  obtain ⟨_, ps, hps, hplaced⟩ := h.offer active
  rw [offers, if_neg kind_ne] at hps
  exact ⟨ps, hps, hplaced⟩

/-! ## One technique keeps the packet -/

theorem Applies.handler?_eq (h : t.Applies problem plan) (active : plan.leaves = leaf :: rest)
    (present : problem.graph.node? leaf.next = some node) (keeps : t.kind ≠ .sendToController)
    (kind_ne : t.kind ≠ .recirculate) : node.kind.handler? leaf.target = some t.kind := by
  obtain ⟨ps, hps, p, hp, _⟩ := h.proposed active kind_ne
  rw [← (h.offer active).1]
  exact handler?_of_proposals present hps hp keeps

theorem exists_blocked {ts : List Technique} (h : anyBlocked problem plan leaf ts = .ok true) :
    ∃ u ∈ ts, ∃ qs, u.proposals problem.graph plan.bindings leaf.next = .ok qs ∧
      ∃ q ∈ qs, ∃ refusal, q.probe plan.resources leaf.passDeps = .error refusal := by
  induction ts with
  | nil => cases h
  | cons t ts ih =>
    obtain ⟨ps, hps, h⟩ := bind_eq_ok.mp h
    split at h
    · rename_i hany
      obtain ⟨p, hp, hblocked⟩ := List.any_eq_true.mp hany
      refine ⟨t, List.mem_cons_self, ps, hps, p, hp, ?_⟩
      unfold isBlocked at hblocked
      split at hblocked
      · rename_i refusal hprobe
        exact ⟨refusal, hprobe⟩
      · cases hblocked
    · obtain ⟨u, hu, hblocked⟩ := ih h
      exact ⟨u, List.mem_cons_of_mem t hu, hblocked⟩

theorem Applies.blocked (h : t.Applies problem plan) (active : plan.leaves = leaf :: rest)
    (again : t.kind = .recirculate) :
    leaf.target = .switch ∧ ∃ u : Technique, u.target = .switch ∧ u.kind.usesPipeline = true ∧
      ∃ qs, u.proposals problem.graph plan.bindings leaf.next = .ok qs ∧
        ∃ q ∈ qs, ∃ refusal, q.probe plan.resources leaf.passDeps = .error refusal := by
  obtain ⟨_, ps, hps, p, hp, _⟩ := h.offer active
  rw [offers, if_pos again, recirculation] at hps
  split at hps
  · rename_i hallowed
    obtain ⟨blocked, hblocked, hps⟩ := bind_eq_ok.mp hps
    cases blocked with
    | false =>
      cases hps
      exact absurd hp List.not_mem_nil
    | true =>
      obtain ⟨u, hu, hrefused⟩ := exists_blocked hblocked
      obtain ⟨hu, huses⟩ := List.mem_filter.mp hu
      exact ⟨hallowed.1, u, Problem.target_of_mem_catalog hu, huses, hrefused⟩
  · cases hps
    exact absurd hp List.not_mem_nil

theorem probe_nil {p : Proposal} (places : p.placements = []) (r : Pipeline) (deps : ObjectSet) :
    p.probe r deps = .ok [] := by
  rw [Proposal.probe_of_nil places, place_of_nil places]
  rfl

/-- Where another pass is offered, what handles the node is refused. -/
theorem Applies.not_again (stocked : plan.Stocked problem) (hr : plan.resources.Indexed)
    (active : plan.leaves = leaf :: rest) (present : problem.graph.node? leaf.next = some node)
    (ht : t.Applies problem plan) (again : t.kind = .recirculate) (hu : u.Applies problem plan)
    (keeps : u.kind ≠ .sendToController) : u.kind = .recirculate := by
  by_contra kind_ne
  obtain ⟨onSwitch, v, hv, huses, qs, hqs, q, hq, refusal, refused⟩ := ht.blocked active again
  have hsent : v.kind ≠ .sendToController := by
    intro hkind
    rw [hkind] at huses
    cases huses
  -- the refused proposal is one of the technique that has the candidate
  have hsame : v = u := by
    have hkind := hu.handler?_eq active present keeps kind_ne
    rw [onSwitch, ← hv, handler?_of_proposals present hqs hq hsent] at hkind
    refine eq_of_kind ?_ (Option.some.inj hkind)
    rw [hv, (hu.offer active).1, onSwitch]
  subst hsame
  obtain ⟨ps, hps, p, hp, stages, r, placed⟩ := hu.proposed active kind_ne
  rw [hqs] at hps
  cases hps
  have hplaces : q.placements ≠ [] := by
    intro hnil
    rw [probe_nil hnil] at refused
    cases refused
  rw [proposals_alone hqs hq (commits_of_places hqs hq hplaces)] at hp
  cases List.mem_singleton.mp hp
  obtain ⟨foreseen, hprobe, _⟩ := stocked.foreseen_of_place hr (active ▸ List.mem_cons_self) rfl
    (proposals_steady hqs hq).1 placed
  rw [refused] at hprobe
  cases hprobe

theorem Applies.unique (stocked : plan.Stocked problem) (hr : plan.resources.Indexed)
    (active : plan.leaves = leaf :: rest) (present : problem.graph.node? leaf.next = some node)
    (ht : t.Applies problem plan) (hu : u.Applies problem plan) (htk : t.kind ≠ .sendToController)
    (huk : u.kind ≠ .sendToController) : t = u := by
  apply eq_of_kind ((ht.offer active).1.trans (hu.offer active).1.symm)
  by_cases hagain : t.kind = .recirculate
  · rw [hagain, ht.not_again stocked hr active present hagain hu huk]
  · have hother : u.kind ≠ .recirculate := fun h =>
      hagain (hu.not_again stocked hr active present h ht htk)
    have hhandler := ht.handler?_eq active present htk hagain
    rw [hu.handler?_eq active present huk hother] at hhandler
    exact (Option.some.inj hhandler).symm

/-! ## Two candidates at most -/

theorem length_offers {ps : List Proposal} (ht : t.target ≠ .controller)
    (h : t.offers problem plan leaf = .ok ps) : ps.length ≤ 1 := by
  unfold offers at h
  split at h
  · unfold recirculation at h
    split at h
    · obtain ⟨blocked, _, h⟩ := bind_eq_ok.mp h
      cases h
      cases blocked <;> simp
    · cases h
      exact Nat.zero_le 1
  · exact length_proposals ht h

theorem Applies.onSwitch (h : t.Applies problem plan) (active : plan.leaves = leaf :: rest)
    (sends : t.kind = .sendToController) : t.target = .switch := by
  have kind_ne : t.kind ≠ .recirculate := by
    rw [sends]
    exact Kind.noConfusion
  obtain ⟨ps, hps, p, hp, _⟩ := h.proposed active kind_ne
  have hmem := kind_mem_of_proposals hps hp
  rw [sends] at hmem
  cases htarget : t.target with
  | switch => rfl
  | controller | host =>
    rw [htarget] at hmem
    exact absurd hmem (by decide)

theorem exists_two_labels (stocked : plan.Stocked problem) (hr : plan.resources.Indexed)
    (active : plan.leaves = leaf :: rest) (present : problem.graph.node? leaf.next = some node) :
    ∃ first second : Choice, ∀ label c, Offers problem plan label c →
      label = first ∨ label = second := by
  obtain ⟨main, hmain⟩ : ∃ main, ∀ t, Applies problem plan t → t.kind ≠ .sendToController →
      t = main := by
    by_cases hsome : ∃ t, Applies problem plan t ∧ t.kind ≠ .sendToController
    · obtain ⟨main, happlies, hkeeps⟩ := hsome
      exact ⟨main, fun t ht htk => ht.unique stocked hr active present happlies htk hkeeps⟩
    · exact ⟨default, fun t ht htk => absurd ⟨t, ht, htk⟩ hsome⟩
  by_cases onSwitch : leaf.target = .switch
  · refine ⟨(main, 0), (⟨.switch, .sendToController⟩, 0), ?_⟩
    rintro ⟨t, i⟩ c hoffers
    obtain ⟨htarget, ps, hps, hi⟩ := hoffers.lt_length active
    have ht : t.target = .switch := htarget.symm.trans onSwitch
    have hone := length_offers (by rw [ht]; decide) hps
    have hzero : i = 0 := by
      simp only at hi
      omega
    rw [hzero]
    by_cases hsends : t.kind = .sendToController
    · right
      rw [eq_of_kind (u := ⟨.switch, .sendToController⟩) ht hsends]
    · left
      rw [hmain t hoffers.applies hsends]
  · refine ⟨(main, 0), (main, 1), ?_⟩
    rintro ⟨t, i⟩ c hoffers
    obtain ⟨htarget, ps, hps, hi⟩ := hoffers.lt_length active
    have htwo := (t.offers_yields problem plan leaf).result hps
    have hkeeps : t.kind ≠ .sendToController := fun hsends =>
      onSwitch (htarget.trans (hoffers.applies.onSwitch active hsends))
    rw [hmain t hoffers.applies hkeeps]
    have hindex : i = 0 ∨ i = 1 := by
      simp only at hi
      omega
    exact hindex.imp (fun h => by rw [h]) fun h => by rw [h]

theorem length_candidates_le_two (stocked : plan.Stocked problem) (hr : plan.resources.Indexed)
    (active : plan.leaves = leaf :: rest) (present : problem.graph.node? leaf.next = some node)
    (h : expandAll problem plan problem.techniques supply = .ok (e, after)) :
    e.candidates.length ≤ 2 := by
  obtain ⟨first, second, hall⟩ := exists_two_labels stocked hr active present
  refine (length_candidates_le h ?_ : _ ≤ [first, second].length)
  intro label c hoffers
  simpa using hall label c hoffers

/-! ## The end of a path -/

section terminal
variable {r : Route}

theorem expand_other (active : plan.leaves = leaf :: rest)
    (present : problem.graph.node? leaf.next = some node) (ends : node.kind = .terminal r)
    (hne : t ≠ ⟨leaf.target, .route⟩) (supply : Supply) :
    t.expand problem plan supply = .ok ({}, supply) := by
  simp only [expand, Plan.activeLeaf?, active, List.head?_cons]
  split
  · rename_i htarget
    have hkind : t.kind ≠ .route := fun hkind => hne (eq_of_kind htarget.symm hkind)
    rw [offers_terminal t present ends, if_neg hkind]
    rfl
  · rfl

theorem expand_route (pending : plan.Pending)
    (limit : problem.platform.maxRecirculations < Leaf.recirculationLimit)
    (active : plan.leaves = leaf :: rest) (present : problem.graph.node? leaf.next = some node)
    (ends : node.kind = .terminal r) (supply : Supply) :
    ∃ c after, (Technique.mk leaf.target .route).expand problem plan supply =
      .ok ({ candidates := [c] }, after) ∧ c.decision.kind = .route := by
  have hoffers : (Technique.mk leaf.target .route).offers problem plan leaf = .ok [Setting.act
      ⟨problem.graph, plan.bindings, leaf.target, leaf.next⟩ (.route r) .stop] :=
    offers_terminal _ present ends
  obtain ⟨⟨made, after⟩, hmade⟩ :=
    realize_succeeds active pending rfl limit hoffers List.mem_cons_self rfl supply
  cases made with
  | error refusal => cases refused_of_realize hmade
  | ok c =>
    obtain ⟨_, _, _, _, _, _, _, hdecision⟩ := realize_eq_ok hmade
    refine ⟨c, after, ?_, ?_⟩
    · simp only [expand, Plan.activeLeaf?, active, List.head?_cons, if_true, hoffers]
      exact bind_eq_ok.mpr ⟨_, rfl, bind_eq_ok.mpr ⟨_, hmade, rfl⟩⟩
    · rw [hdecision]
      rfl

theorem expandAll_others (active : plan.leaves = leaf :: rest)
    (present : problem.graph.node? leaf.next = some node) (ends : node.kind = .terminal r)
    {ts : List Technique} (hts : ⟨leaf.target, .route⟩ ∉ ts) (supply : Supply) :
    expandAll problem plan ts supply = .ok ({}, supply) := by
  induction ts with
  | nil => rfl
  | cons t ts ih =>
    obtain ⟨hne, hts⟩ := not_or.mp (mt List.mem_cons.mpr hts)
    have hnone := expand_other active present ends (Ne.symm hne) supply
    exact bind_eq_ok.mpr ⟨({}, supply), hnone, bind_eq_ok.mpr ⟨({}, supply), ih hts, rfl⟩⟩

theorem expandAll_terminal (pending : plan.Pending)
    (limit : problem.platform.maxRecirculations < Leaf.recirculationLimit)
    (active : plan.leaves = leaf :: rest) (present : problem.graph.node? leaf.next = some node)
    (ends : node.kind = .terminal r) {ts : List Technique} (nodup : ts.Nodup)
    (hts : ⟨leaf.target, .route⟩ ∈ ts) (supply : Supply) :
    ∃ c after, expandAll problem plan ts supply = .ok ({ candidates := [c] }, after) ∧
      c.decision.kind = .route := by
  induction ts with
  | nil => exact absurd hts List.not_mem_nil
  | cons t ts ih =>
    obtain ⟨hnew, nodup⟩ := List.nodup_cons.mp nodup
    by_cases ht : t = ⟨leaf.target, .route⟩
    · subst ht
      obtain ⟨c, after, hroute, hkind⟩ := expand_route pending limit active present ends supply
      have hothers := expandAll_others active present ends hnew after
      exact ⟨c, after, bind_eq_ok.mpr ⟨_, hroute, bind_eq_ok.mpr ⟨_, hothers, rfl⟩⟩, hkind⟩
    · have hnone := expand_other active present ends ht supply
      obtain ⟨c, after, hroute, hkind⟩ := ih nodup (List.mem_of_ne_of_mem (Ne.symm ht) hts)
      exact ⟨c, after, bind_eq_ok.mpr ⟨_, hnone, bind_eq_ok.mpr ⟨_, hroute, rfl⟩⟩, hkind⟩

end terminal

theorem route_mem_techniques (stocked : plan.Stocked problem) (hleaf : leaf ∈ plan.leaves) :
    ⟨leaf.target, .route⟩ ∈ problem.techniques := by
  have henabled := stocked.enabled leaf hleaf
  refine List.mem_flatMap.mpr ⟨leaf.target, ?_, ?_⟩
  · exact (TargetSet.mem_toList ..).mpr henabled
  · rw [Problem.catalog, if_pos henabled]
    refine List.mem_map.mpr ⟨.route, ?_, rfl⟩
    cases leaf.target <;> decide

theorem route_of_finished (known : t ∈ problem.techniques)
    (h : t.expand problem plan supply = .ok (e, after)) {c : Candidate} (hc : c ∈ e.candidates)
    (finished : c.plan.isFinished = true) : t.kind = .route := by
  obtain ⟨leaf, rest, node, r, active, present, ends⟩ :=
    (step_of_expand known h hc).terminal_of_finished (List.isEmpty_iff.mp finished)
  obtain ⟨i, hi, rfl⟩ := List.getElem_of_mem hc
  have hoffers : Offers problem plan (t, i) e.candidates[i] :=
    ⟨supply, after, e, h, List.getElem?_eq_getElem hi⟩
  have hlabel := hoffers.eq_of_terminal active present ends
  cases hlabel
  rfl

end Technique

theorem Search.admitted_le {μ γ : Type} {s s' : Search μ γ} {filed : Filed} {cs : List Candidate}
    (h : s.fileAll {} cs = .ok (s', filed)) :
    filed.admitted ≤ cs.countP fun c => c.plan.isFinished := by
  apply fileAll_induction (P := fun before _ filed =>
    filed.admitted ≤ before.countP fun c => c.plan.isFinished) ?_ (Nat.le_refl 0) h
  intro before s filed c counted s' filed' hbefore _ hfiles
  rw [List.countP_append]
  cases hfiles with
  | keep | drop => exact Nat.le_add_right_of_le hbefore
  | accept done =>
    rw [List.countP_singleton, if_pos done]
    exact Nat.succ_le_succ hbefore

/-- A step of a search makes two candidates at most and accepts one plan at most. -/
theorem Search.Reached.step_bound {μ γ : Type} [Random.Source γ] {h : Heuristic μ} {g : Graph}
    {c : Config} {problem : Problem} {number : PlanId} {s s' : Search μ γ} {id : PlanId}
    {made finished : Nat} (reached : Search.Reached problem h number s) (wp : problem.WellPosed)
    (posed : Problem.ofConfig g c = .ok problem)
    (stepped : s.step = .ok (.expanded id made finished, s')) : made ≤ 2 ∧ finished ≤ 1 := by
  have regular := (reached.invariant (P := fun _ => True) (fun _ => trivial) fun _ _ _ => trivial).1
  rcases Search.step_eq_ok stepped with ⟨_, hnone, _⟩ | moves
  · cases hnone
  · cases moves with
    | @expand score plan left generator leaf tally e supply counted filled after filed popped active
        stepped expanded counts files ranks =>
      have hplan : s.Holds plan := by
        obtain ⟨_, hperm, _⟩ := Frontier.popBest_eq_some regular.unfinished popped
        exact .inl (Frontier.mem_toList.mpr ⟨score, hperm.mem_iff.mpr List.mem_cons_self⟩)
      obtain ⟨choices, derived⟩ := reached.derives hplan
      have lawful := derived.lawful wp
      obtain ⟨rest, active⟩ := List.head?_eq_some_iff.mp active
      have hleaf : leaf ∈ plan.leaves := active ▸ List.mem_cons_self
      rw [regular.problem_eq] at expanded
      refine ⟨?_, ?_⟩
      · exact Technique.length_candidates_le_two (derived.stocked wp posed) lawful.placed.indexed
          active (List.getElem?_eq_getElem (lawful.leaf_present wp.tree hleaf)) expanded
      · exact Nat.le_trans (Search.admitted_le files) (Technique.countP_finished_le_one expanded)

/-- Of the techniques that neither hand over nor ask for another pass, at most one has candidates
for a derived plan. Another pass is offered only if no technique of the pipeline has a candidate.
All techniques together have two candidates at most, and at the end of a path one, which routes.
Only routing finishes a plan, so a step of a search, whatever its heuristic, accepts one plan at
most. -/
theorem expansion_choices_are_exclusive {kinds : List NodeKind} {root : NodeId} {g : Graph}
    {c : Config} {problem : Problem} {choices : List Choice} {plan : Plan} {leaf : Leaf}
    {rest : List Leaf} (accepted : Graph.ofKinds kinds root = .ok g)
    (posed : Problem.ofConfig g c = .ok problem) (derived : Derives problem choices plan)
    (active : plan.leaves = leaf :: rest) :
    (∀ t u : Technique, t.Applies problem plan → u.Applies problem plan →
      t.kind ≠ .sendToController → t.kind ≠ .recirculate → u.kind ≠ .sendToController →
      u.kind ≠ .recirculate → t = u) ∧
    (∀ t u : Technique, t.kind = .recirculate → t.Applies problem plan →
      u.kind.usesPipeline = true → ¬u.Applies problem plan) ∧
    (∀ supply after e, Technique.expandAll problem plan problem.techniques supply = .ok (e, after) →
      e.candidates.length ≤ 2 ∧ e.candidates.countP (fun made => made.plan.isFinished) ≤ 1) ∧
    (∀ node route, problem.graph.node? leaf.next = some node → node.kind = .terminal route →
      ∀ supply, ∃ made after, Technique.expandAll problem plan problem.techniques supply =
        .ok ({ candidates := [made] }, after) ∧ made.decision.kind = .route) ∧
    (∀ t ∈ problem.techniques, ∀ supply after e, t.expand problem plan supply = .ok (e, after) →
      ∀ made ∈ e.candidates, made.plan.isFinished = true → t.kind = .route) ∧
    (∀ {μ γ : Type} [Random.Source γ] (h : Heuristic μ) number (s s' : Search μ γ) id made finished,
      Search.Reached problem h number s → s.step = .ok (.expanded id made finished, s') →
      made ≤ 2 ∧ finished ≤ 1) := by
  have wp := Problem.wellPosed_of_ofConfig accepted posed
  have stocked := derived.stocked wp posed
  have hr := (derived.lawful wp).placed.indexed
  have hleaf : leaf ∈ plan.leaves := active ▸ List.mem_cons_self
  obtain ⟨node, present⟩ : ∃ node, problem.graph.node? leaf.next = some node :=
    ⟨_, List.getElem?_eq_getElem ((derived.lawful wp).leaf_present wp.tree hleaf)⟩
  refine ⟨?_, ?_, ?_, ?_, ?_, ?_⟩
  · intro t u ht hu htk _ huk _
    exact ht.unique stocked hr active present hu htk huk
  · intro t u again ht huses hu
    have hkeeps : u.kind ≠ .sendToController := by
      intro hkind
      rw [hkind] at huses
      cases huses
    rw [ht.not_again stocked hr active present again hu hkeeps] at huses
    cases huses
  · intro supply after e expanded
    exact ⟨Technique.length_candidates_le_two stocked hr active present expanded,
      Technique.countP_finished_le_one expanded⟩
  · intro node route present ends
    exact Technique.expandAll_terminal (derived.pending wp) (Problem.maxRecirculations_lt posed)
      active present ends problem.nodup_techniques (Technique.route_mem_techniques stocked hleaf)
  · intro t known supply after e expanded made hmade finished
    exact Technique.route_of_finished known expanded hmade finished
  · intro μ γ _ h number s s' id made finished reached stepped
    exact reached.step_bound wp posed stepped

/-- The second of two lookups cannot be placed in the pass of the first one. What is left is to hand
the packet over or to take another pass, whatever numbers and symbols are handed out. -/
theorem second_lookup_has_two_choices :
    ∃ g problem plan leaf e after, Graph.ofKinds lookupTwice 3 = .ok g ∧
      Problem.ofConfig g {} = .ok problem ∧
      Derives problem [(⟨.switch, .tableLookup⟩, 0), (⟨.switch, .allocate⟩, 0)] plan ∧
      plan.leaves = [leaf] ∧
      Technique.expandAll problem plan problem.techniques {} = .ok (e, after) ∧
      e.candidates.map (fun made => made.decision.kind) = [.sendToController, .recirculate] ∧
      ¬(Technique.mk .switch .tableLookup).Applies problem plan ∧
      ∀ supply after e, Technique.expandAll problem plan problem.techniques supply = .ok (e, after) →
        e.candidates.length ≤ 2 := by
  obtain ⟨g, accepted⟩ : ∃ g, Graph.ofKinds lookupTwice 3 = .ok g := ⟨_, rfl⟩
  obtain ⟨problem, posed, plan, derived, leaf, active, e, after, expanded, made, again⟩ :
      ∃ problem, Problem.ofConfig g {} = .ok problem ∧ ∃ plan,
        Derives problem [(⟨.switch, .tableLookup⟩, 0), (⟨.switch, .allocate⟩, 0)] plan ∧
        ∃ leaf, plan.leaves = [leaf] ∧ ∃ e after,
        Technique.expandAll problem plan problem.techniques {} = .ok (e, after) ∧
        e.candidates.map (fun made => made.decision.kind) = [.sendToController, .recirculate] ∧
        (Technique.mk .switch .recirculate).Applies problem plan := by
    cases accepted
    exact ⟨_, rfl, _, derives_of_replay rfl, _, rfl, _, _, rfl, rfl, {}, _, _, rfl,
      List.cons_ne_nil _ _⟩
  obtain ⟨_, hpass, hbound, _⟩ := expansion_choices_are_exclusive accepted posed derived active
  exact ⟨g, problem, plan, leaf, e, after, accepted, posed, derived, active, expanded, made,
    hpass _ _ rfl again rfl, fun supply after e h => (hbound supply after e h).1⟩

end PacketPlan
