import PacketPlan.Proofs.Plan.Consistency
import PacketPlan.Proofs.Search.Ancestry
import PacketPlan.Proofs.Search.Exclusion

/-! # Planning for the host alone

The host has one representation for every data structure, asks nothing of the pipeline and hands
nothing over, so there is one way to go on with a plan or none. A search with no other target
therefore holds one plan at a time and takes it through the graph in the order of a depth-first
visit. It ends with this plan if the host can implement every call under the bindings that the
allocations met before it have made, on the way or in a branch that was visited earlier.
-/
namespace PacketPlan
open Checked

/-! ## What the host binds -/

namespace Graph

/-- What the host binds at a node: the object that is allocated there, if there is one. -/
def hostCommits (g : Graph) (id : NodeId) : Delta :=
  match (g.node? id).bind fun node => node.kind.call? with
  | none => []
  | some call =>
    match call.allocated?, call.object? with
    | some container, some object => (container.candidates .host).map fun r => (object, r)
    | _, _ => []

def hostBindings (g : Graph) (ids : List NodeId) : Bindings := ⟨.ofList (ids.flatMap g.hostCommits)⟩

/-- As the bindings stand, some technique of the host proposes to implement the node. -/
def HostMatches (g : Graph) (b : Bindings) (id : NodeId) : Prop :=
  ∃ t ∈ Technique.catalog .host, ∃ ps, t.proposals g b id = .ok ps ∧ ps ≠ []

end Graph

theorem NodeKind.allocated?_of_handler {t : Target} {k : NodeKind} {kind : Kind} {call : Call}
    (hk : k.handler? t = some kind) (hkind : kind ≠ .allocate) (hcall : k.call? = some call) :
    call.allocated? = none := by
  cases hr : call.routine? with
  | none => simp [Call.allocated?, hr]
  | some r =>
    rw [NodeKind.handler?_of_routine t hcall hr] at hk
    cases r with
    | allocate c => exact absurd (Option.some.inj hk).symm hkind
    | _ => simp [Call.allocated?, hr, Routine.allocated?]

namespace Technique
variable {t : Technique} {g : Graph} {b : Bindings} {id : NodeId} {ps : List Proposal}
  {p : Proposal}

theorem keeps_on_host (ht : t.target = .host) (h : t.proposals g b id = .ok ps) (hp : p ∈ ps) :
    t.kind ≠ .sendToController ∧ t.kind ≠ .recirculate := by
  have hmem := kind_mem_of_proposals h hp
  rw [ht] at hmem
  constructor
  · intro hkind
    rw [hkind] at hmem
    exact absurd hmem (by decide)
  · intro hkind
    rw [hkind] at hmem
    exact absurd hmem (by decide)

theorem commits_on_host (ht : t.target = .host) (h : t.proposals g b id = .ok ps) (hp : p ∈ ps) :
    p.commits = g.hostCommits id ∧ b.admits p.commits = true := by
  obtain ⟨node, hnode, means⟩ := proposals_meant h hp
  by_cases hkind : t.kind = .allocate
  · rcases t with ⟨target, kind⟩
    cases ht
    cases hkind
    obtain ⟨found, hfound, h⟩ := bind_eq_ok.mp h
    rw [Graph.node, hnode] at hfound
    cases hfound
    obtain ⟨call, hcall, h⟩ := given_eq_ok h hp
    obtain ⟨container, hcontainer, h⟩ := given_eq_ok h hp
    obtain ⟨object, hobject, h⟩ := given_eq_ok h hp
    obtain ⟨next, _, h⟩ := bind_eq_ok.mp h
    cases h
    obtain ⟨r, hr, rfl⟩ := List.mem_map.mp hp
    obtain ⟨hr, hallows⟩ := List.mem_filter.mp hr
    have hone : container.candidates .host = [r] := by
      cases container <;> simpa [Container.candidates, eq_comm] using hr
    constructor
    · simp [Graph.hostCommits, hnode, hcall, hcontainer, hobject, hone]
    · simpa [Bindings.admits] using hallows
  · have hnil : p.commits = [] := by
      cases means with
      | silent _ commits => exact commits
      | @acts a acts commits =>
        have hsame : a.kind = t.kind := ((proposals_steady h hp).1.module_eq acts).2.2
        rw [commits, Action.commits_eq_nil (hsame ▸ hkind)]
    have hhandler := handler?_of_proposals hnode h hp (keeps_on_host ht h hp).1
    rw [hnil]
    refine ⟨?_, rfl⟩
    cases hcall : node.kind.call? with
    | none => simp [Graph.hostCommits, hnode, hcall]
    | some call =>
      have hnone := NodeKind.allocated?_of_handler hhandler hkind hcall
      simp [Graph.hostCommits, hnode, hcall, hnone]

theorem admissible_on_host {problem : Problem} (ht : t.target = .host)
    (h : t.proposals g b id = .ok ps) (hp : p ∈ ps) : admissible problem b p = true := by
  have hnext : ∀ target n, p.next ≠ .transfer target n := by
    intro target n hgoes
    rcases (t.proposals_yields g b id).result h with rfl | ⟨node, _, hfit⟩
    · exact absurd hp List.not_mem_nil
    · cases hfit.2 p hp with
      | pass _ goes =>
        rw [goes] at hgoes
        cases hgoes
      | act _ _ follows =>
        rw [hgoes] at follows
        cases hk : node.kind <;> simp [hk, Continuation.Follows] at follows
      | handOver onSwitch => simp [ht] at onSwitch
  rw [admissible, (commits_on_host ht h hp).2, Bool.true_and]
  split
  · rename_i target n hgoes
    exact absurd hgoes (hnext target n)
  · rfl

/-! ## One way at most -/

section expansion
variable {problem : Problem} {plan : Plan} {leaf : Leaf} {rest : List Leaf} {supply after : Supply}
  {e : Expansion}

theorem candidates_on_host (active : plan.leaves = leaf :: rest) (onHost : leaf.target = .host)
    (ht : t.target = .host) (hps : t.proposals problem.graph plan.bindings leaf.next = .ok ps)
    (hp : p ∈ ps) (h : t.expand problem plan supply = .ok (e, after)) : e.candidates ≠ [] := by
  rw [expand_active active (ht.trans onHost.symm) (keeps_on_host ht hps hp).2] at h
  obtain ⟨found, hfound, h⟩ := bind_eq_ok.mp h
  cases hps.symm.trans hfound
  have hadmitted : p ∈ ps.filter (admissible problem plan.bindings) :=
    List.mem_filter.mpr ⟨hp, admissible_on_host ht hps hp⟩
  have hplaces : p.placements = [] := placements_off_switch (by simp [ht]) hps hp
  exact candidates_ne_nil h hadmitted (place_of_nil hplaces _ _)

theorem exists_label_on_host (stocked : plan.Stocked problem) (hr : plan.resources.Indexed)
    (active : plan.leaves = leaf :: rest) (onHost : leaf.target = .host) {node : Node}
    (present : problem.graph.node? leaf.next = some node) :
    ∃ one : Choice, ∀ label c, Offers problem plan label c → label = one := by
  have hkeeps : ∀ t, Applies problem plan t → t.kind ≠ .sendToController := by
    intro t ht hsends
    have onSwitch := (ht.offer active).1.symm.trans (ht.onSwitch active hsends)
    simp [onHost] at onSwitch
  by_cases hsome : ∃ t, Applies problem plan t
  · obtain ⟨main, hmain⟩ := hsome
    refine ⟨(main, 0), ?_⟩
    rintro ⟨t, i⟩ c hoffers
    obtain ⟨_, ps, hps, hlt⟩ := hoffers.lt_length active
    have ht : t.Applies problem plan := hoffers.applies
    have htarget : t.target = .host := (ht.offer active).1.trans onHost
    have hone := length_offers (by simp [htarget]) hps
    have hzero : i = 0 := by
      simp only at hlt
      omega
    rw [hzero, ht.unique stocked hr active present hmain (hkeeps t ht) (hkeeps main hmain)]
  · exact ⟨default, fun label c hoffers => absurd ⟨_, hoffers.applies⟩ hsome⟩

theorem candidates_ne_nil_iff_hostMatches (active : plan.leaves = leaf :: rest)
    (onHost : leaf.target = .host) (enabled : problem.platform.enabled.contains .host = true)
    (h : expandAll problem plan problem.techniques supply = .ok (e, after)) :
    e.candidates ≠ [] ↔ problem.graph.HostMatches plan.bindings leaf.next := by
  constructor
  · intro hsome
    obtain ⟨c, hc⟩ := List.exists_mem_of_ne_nil e.candidates hsome
    obtain ⟨⟨t, i⟩, _, hoffers⟩ := exists_label h hc
    have happlies : t.Applies problem plan := hoffers.applies
    have ht := (happlies.offer active).1.trans onHost
    have kind_ne : t.kind ≠ .recirculate := by
      intro again
      have onSwitch := (happlies.blocked active again).1
      simp [onHost] at onSwitch
    obtain ⟨ps, hps, p, hp, _⟩ := happlies.proposed active kind_ne
    refine ⟨t, List.mem_map.mpr ⟨t.kind, ?_, eq_of_kind ht.symm rfl⟩, ps, hps,
      List.ne_nil_of_mem hp⟩
    exact ht ▸ kind_mem_of_proposals hps hp
  · rintro ⟨t, ht, ps, hps, hsome⟩
    obtain ⟨p, hp⟩ := List.exists_mem_of_ne_nil ps hsome
    have known : t ∈ problem.techniques := by
      refine List.mem_flatMap.mpr ⟨.host, (TargetSet.mem_toList ..).mpr enabled, ?_⟩
      rwa [Problem.catalog, if_pos enabled]
    obtain ⟨labels, hl⟩ := exists_labels h
    obtain ⟨supply', after', e', expanded, hall⟩ := hl.complete t known
    have hmade := candidates_on_host active onHost (target_of_mem_catalog ht) hps hp expanded
    have hlabel := hall 0 (List.length_pos_iff.mpr hmade)
    rw [← List.length_pos_iff, ← hl.offered.length_eq]
    exact List.length_pos_of_mem hlabel

end expansion

end Technique

/-! ## How far a plan has come -/

/-- The plan has handled the first nodes of the visit, on the host and nowhere else, and its leaves
stand where the visit goes on. -/
structure Plan.HasVisited (g : Graph) (plan : Plan) (n : Nat) : Prop where
  onHost : ∀ l ∈ plan.leaves, l.target = .host
  ahead : Graph.Preorder g.children? (plan.leaves.map Leaf.next) (g.visits.drop n)
  within : n ≤ g.size
  bindings_eq : plan.bindings = g.hostBindings (g.visits.take n)
  handled : ∀ s, (plan.ledger.processed? s).isSome = true ↔
    s.target = .host ∧ s.node ∈ g.visits.take n

namespace Plan
variable {problem : Problem} {plan after : Plan} {leaf : Leaf} {rest : List Leaf} {n : Nat}

theorem hasVisited_empty (hg : problem.graph.IsTree) (initial : problem.platform.initial = .host)
    (id : PlanId) : (empty problem id).HasVisited problem.graph 0 where
  onHost := by
    intro l hl
    rw [List.mem_singleton.mp hl]
    exact initial
  ahead := (hg.preorder_at hg.root_lt).1
  within := Nat.zero_le _
  bindings_eq := rfl
  handled s := by
    have hnone : (empty problem id).ledger.processed? s = none := rfl
    simp [hnone]

theorem Offer.commits_on_host {t : Technique} {p : Proposal} {b : Bindings}
    (h : Offer problem plan leaf rest t p) (hne : p ≠ Technique.revisit leaf)
    (onHost : leaf.target = .host) (bound : plan.bindings.extend p.commits = .ok b) :
    plan.bindings.extend (problem.graph.hostCommits leaf.next) = .ok b := by
  obtain ⟨ps, hps, hp⟩ := h.proposed hne
  rwa [← (Technique.commits_on_host (h.target_eq ▸ onHost) hps hp).1]

theorem Step.bindings_on_host (step : plan.Step problem after) (active : plan.leaves = leaf :: rest)
    (onHost : leaf.target = .host) :
    plan.bindings.extend (problem.graph.hostCommits leaf.next) = .ok after.bindings := by
  cases step with
  | @pass found _ t p node n id bindings offer present silent goes follows places bound fresh =>
    cases active.symm.trans offer.active
    refine offer.commits_on_host ?_ onHost bound
    rintro rfl
    cases goes
  | @act found _ t p node a id bindings stages resources offer present acts keeps follows places
      bound placed rooted fresh =>
    cases active.symm.trans offer.active
    rw [attached_bindings]
    refine offer.commits_on_host ?_ onHost bound
    rintro rfl
    cases acts
  | handOver offer _ onSwitch | revisit offer onSwitch =>
    cases active.symm.trans offer.active
    simp [onHost] at onSwitch

namespace HasVisited

theorem next (h : plan.HasVisited problem.graph n) (active : plan.leaves = leaf :: rest) :
    problem.graph.visits[n]? = some leaf.next ∧ Graph.Preorder problem.graph.children?
      (problem.graph.childrenOf leaf.next ++ rest.map Leaf.next)
      (problem.graph.visits.drop (n + 1)) := by
  have ahead := h.ahead
  rw [active, List.map_cons] at ahead
  generalize hdrop : problem.graph.visits.drop n = order at ahead
  cases ahead with
  | @visit _ children _ order hchildren hrest =>
    constructor
    · have hhead : (problem.graph.visits.drop n)[0]? = some leaf.next := by simp [hdrop]
      simpa using hhead
    · have hlater : problem.graph.visits.drop (n + 1) = order := by
        simpa using congrArg List.tail hdrop
      rwa [hlater, Graph.children?_eq_some hchildren]

theorem sites (h : plan.HasVisited problem.graph n) {children : List Leaf}
    {how : Option PlanNodeId} (handles : Handles problem plan after leaf rest children how) :
    children.map Leaf.site = (problem.graph.childrenOf leaf.next).map fun c => ⟨c, .host⟩ := by
  have onHost : leaf.target = .host := h.onHost leaf (handles.active ▸ List.mem_cons_self)
  have hkeeps : after.takesOver? how = none := by
    by_contra hover
    have onSwitch := handles.onSwitch hover
    simp [onHost] at onSwitch
  obtain ⟨node, present⟩ : ∃ node, problem.graph.node? leaf.next = some node :=
    ⟨_, List.getElem?_eq_getElem handles.present⟩
  rw [handles.sites, nextSites_of_keeps present hkeeps, List.reverse_reverse,
    Graph.childrenOf_eq present, Leaf.site, onHost]

theorem step (h : plan.HasVisited problem.graph n) (hg : problem.graph.IsTree)
    (step : plan.Step problem after) : after.HasVisited problem.graph (n + 1) := by
  rcases handles_of_step hg step with
    ⟨leaf, rest, children, how, handles⟩ | ⟨leaf, rest, id, active, onSwitch, _⟩
  · obtain ⟨hnext, hahead⟩ := h.next handles.active
    have onHost : leaf.target = .host := h.onHost leaf (handles.active ▸ List.mem_cons_self)
    have hsites := h.sites handles
    have htake : problem.graph.visits.take (n + 1) = problem.graph.visits.take n ++ [leaf.next] := by
      simp [List.take_add_one, hnext]
    exact {
      onHost := by
        intro l hl
        rw [handles.leaves_eq] at hl
        rcases List.mem_append.mp hl with hl | hl
        · have hsite : l.site ∈ children.map Leaf.site := List.mem_map_of_mem hl
          rw [hsites] at hsite
          obtain ⟨c, _, hc⟩ := List.mem_map.mp hsite
          exact (congrArg Site.target hc).symm
        · exact h.onHost l (handles.active ▸ List.mem_cons_of_mem leaf hl)
      ahead := by
        have hnexts : children.map Leaf.next = problem.graph.childrenOf leaf.next := by
          simpa [Function.comp_def, Leaf.site] using congrArg (List.map Site.node) hsites
        rwa [handles.leaves_eq, List.map_append, hnexts]
      within := by
        have hlt := (List.getElem?_eq_some_iff.mp hnext).1
        rwa [hg.length_visits] at hlt
      bindings_eq := by
        have hbound := step.bindings_on_host handles.active onHost
        rw [h.bindings_eq] at hbound
        rw [Bindings.extend_ofList hbound, htake]
        simp [Graph.hostBindings]
      handled := by
        intro s
        rw [handles.processed?_eq, htake, List.mem_append, List.mem_singleton]
        by_cases hs : s = leaf.site
        · simp [hs, Leaf.site, onHost]
        · rw [if_neg hs, h.handled s]
          refine and_congr_right fun htarget => (or_iff_left ?_).symm
          intro hnode
          exact hs (by rw [Leaf.site, onHost, ← htarget, ← hnode]) }
  · have onHost := h.onHost leaf (active ▸ List.mem_cons_self)
    simp [onSwitch] at onHost

theorem all (h : plan.HasVisited problem.graph n) (hg : problem.graph.IsTree)
    (finished : plan.isFinished = true) : n = problem.graph.size := by
  have ahead := h.ahead
  rw [List.isEmpty_iff.mp finished, List.map_nil] at ahead
  generalize hdrop : problem.graph.visits.drop n = order at ahead
  cases ahead
  rw [List.drop_eq_nil_iff, hg.length_visits] at hdrop
  exact Nat.le_antisymm h.within hdrop

end HasVisited

end Plan

/-! ## The search -/

structure Problem.HostOnly (problem : Problem) : Prop where
  wellPosed : problem.WellPosed
  posed : ∃ g c, Problem.ofConfig g c = .ok problem
  only : ∀ t, problem.platform.enabled.contains t = true → t = .host

theorem Problem.HostOnly.initial {problem : Problem} (host : problem.HostOnly) :
    problem.platform.initial = .host := by
  obtain ⟨_, _, posed⟩ := host.posed
  obtain ⟨_, platform, hplatform, rfl⟩ := Problem.ofConfig_eq_ok.mp posed
  exact host.only _ (Platform.ofConfig_eq_ok hplatform).1

/-- The host can implement the first nodes of the visit, each under the bindings made before it. -/
def Graph.HostMatchesUpTo (g : Graph) (n : Nat) : Prop :=
  ∀ i < n, ∀ id, g.visits[i]? = some id → g.HostMatches (g.hostBindings (g.visits.take i)) id

/-- The host can implement every call, under the bindings that are made before it in the visit. -/
def Graph.HostMatchesCalls (g : Graph) : Prop :=
  ∀ i id node call, g.visits[i]? = some id → g.node? id = some node → node.kind = .call call →
    g.HostMatches (g.hostBindings (g.visits.take i)) id

/-- Branches and ends of paths can always be implemented on the host. -/
theorem Graph.hostMatches_of_not_call {g : Graph} {id : NodeId} {node : Node}
    (present : g.node? id = some node) (other : ∀ call, node.kind ≠ .call call) (b : Bindings) :
    g.HostMatches b id := by
  cases hk : node.kind with
  | call call => exact absurd hk (other call)
  | branch condition onTrue onFalse =>
    refine ⟨⟨.host, .branch⟩, by decide,
      [Setting.act ⟨g, b, .host, id⟩ (.branch condition) (.branch onTrue onFalse)], ?_, by simp⟩
    refine bind_eq_ok.mpr ⟨node, Graph.node_eq_ok present, ?_⟩
    rw [hk]
    rfl
  | terminal r =>
    refine ⟨⟨.host, .route⟩, by decide, [Setting.act ⟨g, b, .host, id⟩ (.route r) .stop], ?_, by simp⟩
    refine bind_eq_ok.mpr ⟨node, Graph.node_eq_ok present, ?_⟩
    rw [hk]
    rfl

theorem Graph.IsTree.hostMatchesCalls_iff {g : Graph} (hg : g.IsTree) :
    g.HostMatchesCalls ↔ g.HostMatchesUpTo g.size := by
  constructor
  · intro hcalls i _ id met
    have hid := hg.visits_perm.mem_iff.mp (List.mem_of_getElem? met)
    obtain ⟨node, present⟩ : ∃ node, g.node? id = some node :=
      ⟨_, List.getElem?_eq_getElem (List.mem_range.mp hid)⟩
    by_cases hcall : ∃ call, node.kind = .call call
    · obtain ⟨call, hcall⟩ := hcall
      exact hcalls i id node call met present hcall
    · exact hostMatches_of_not_call present (not_exists.mp hcall) _
  · intro hall i id node call met _ _
    have hi := (List.getElem?_eq_some_iff.mp met).1
    exact hall i (hg.length_visits ▸ hi) id met

namespace Search
variable {μ γ : Type} {problem : Problem} {h : Heuristic μ} {number : PlanId}

/-- What the search holds is one plan on its way or one that is finished, or it holds nothing
because the host had nothing to propose for a node of the visit. -/
inductive Visiting (g : Graph) (s : Search μ γ) : Prop
  | going {plan : Plan} (waits : s.unfinished.toList = [plan]) (unsolved : s.finished.toList = [])
      (leaves : plan.isFinished = false) (visited : plan.HasVisited g s.steps)
      (matched : g.HostMatchesUpTo s.steps)
  | stuck {i : Nat} {id : NodeId} (idle : s.unfinished.toList = [])
      (unsolved : s.finished.toList = []) (met : g.visits[i]? = some id)
      (unmatched : ¬g.HostMatches (g.hostBindings (g.visits.take i)) id)
  | done {plan : Plan} (idle : s.unfinished.toList = []) (found : s.finished.toList = [plan])
      (visited : plan.HasVisited g s.steps) (all : s.steps = g.size)
      (matched : g.HostMatchesUpTo s.steps)

theorem Visiting.of_mem {g : Graph} {s : Search μ γ} (hv : s.Visiting g) {plan : Plan}
    (hplan : plan ∈ s.unfinished.toList) :
    s.unfinished.toList = [plan] ∧ s.finished.toList = [] ∧ plan.isFinished = false ∧
      plan.HasVisited g s.steps ∧ g.HostMatchesUpTo s.steps := by
  cases hv with
  | going waits unsolved leaves visited matched =>
    rw [waits] at hplan
    cases List.mem_singleton.mp hplan
    exact ⟨waits, unsolved, leaves, visited, matched⟩
  | stuck idle | done idle =>
    rw [idle] at hplan
    exact absurd hplan List.not_mem_nil

theorem Regular.file_one {s s' : Search μ γ} {filed filed' : Filed} {c : Candidate}
    (hs : s.Regular problem h) (idle : s.unfinished.toList = []) (none : s.finished.toList = [])
    (hf : s.fileAll filed [c] = .ok (s', filed')) :
    if c.plan.isFinished then s'.unfinished.toList = [] ∧ s'.finished.toList = [c.plan]
    else s'.unfinished.toList = [c.plan] ∧ s'.finished.toList = [] := by
  obtain ⟨⟨middle, filed''⟩, hfile, hf⟩ := bind_eq_ok.mp hf
  cases hf
  obtain ⟨counted, _, hfiles⟩ := file_eq_ok hfile
  cases hfiles with
  | @keep score leaves =>
    have hone := Frontier.toList_insert hs.unfinished score c.plan
    rw [idle, List.perm_singleton] at hone
    simpa [leaves, none] using hone
  | drop done sound stops enough =>
    have hempty := hs.finished.length_toList
    simp only [none, List.length_nil] at hempty
    omega
  | @accept memory changed tally score done =>
    have hone := Frontier.toList_insert hs.finished score c.plan
    rw [none, List.perm_singleton] at hone
    simpa [done, idle] using hone

theorem Visiting.finished {g : Graph} {s : Search μ γ} (hv : s.Visiting g) (hg : g.IsTree)
    (last : s.unfinished.toList = [] ∨ s.finished.toList ≠ []) :
    (s.finished.toList = [] ∧ ¬g.HostMatchesCalls) ∨
      ∃ plan, s.finished.toList = [plan] ∧ g.HostMatchesCalls ∧ s.steps = g.size ∧
        ∀ site, (plan.ledger.processed? site).isSome = true ↔
          site.target = .host ∧ site.node < g.size := by
  rw [hg.hostMatchesCalls_iff]
  cases hv with
  | going waits unsolved => simp [waits, unsolved] at last
  | @stuck i id _ unsolved met unmatched =>
    refine .inl ⟨unsolved, fun hall => unmatched ?_⟩
    have hi := (List.getElem?_eq_some_iff.mp met).1
    exact hall i (hg.length_visits ▸ hi) id met
  | @done plan _ found visited all matched =>
    refine .inr ⟨plan, found, all ▸ matched, all, fun site => ?_⟩
    rw [visited.handled site, all, ← hg.length_visits, List.take_length, hg.visits_perm.mem_iff,
      List.mem_range, hg.length_visits]

variable [Random.Source γ]

/-- The plan that waits has no candidate if the host has nothing to propose, and else one that is a
node further. -/
theorem Visiting.expansion {s : Search μ γ} (hv : s.Visiting problem.graph)
    (reached : Reached problem h number s) (host : problem.HostOnly) {plan : Plan} {leaf : Leaf}
    (hplan : plan ∈ s.unfinished.toList) (active : plan.activeLeaf? = some leaf)
    {supply after : Supply} {e : Expansion}
    (expanded : Technique.expandAll problem plan problem.techniques supply = .ok (e, after)) :
    problem.graph.visits[s.steps]? = some leaf.next ∧
      ((e.candidates = [] ∧ ¬problem.graph.HostMatches plan.bindings leaf.next) ∨
        ∃ c, e.candidates = [c] ∧ problem.graph.HostMatches plan.bindings leaf.next ∧
          c.plan.HasVisited problem.graph (s.steps + 1)) := by
  obtain ⟨_, _, _, visited, _⟩ := hv.of_mem hplan
  obtain ⟨choices, derived⟩ := reached.derives (.inl hplan)
  obtain ⟨_, _, posed⟩ := host.posed
  have stocked := derived.stocked host.wellPosed posed
  have lawful := derived.lawful host.wellPosed
  obtain ⟨rest, active⟩ := List.head?_eq_some_iff.mp active
  have hleaf : leaf ∈ plan.leaves := active ▸ List.mem_cons_self
  have onHost := visited.onHost leaf hleaf
  have hmatches := Technique.candidates_ne_nil_iff_hostMatches active onHost
    (onHost ▸ stocked.enabled leaf hleaf) expanded
  obtain ⟨one, hlabels⟩ := Technique.exists_label_on_host stocked lawful.placed.indexed active
    onHost (List.getElem?_eq_getElem (lawful.leaf_present host.wellPosed.tree hleaf))
  have hone : e.candidates.length ≤ [one].length :=
    Technique.length_candidates_le expanded fun label c hoffers => by simp [hlabels label c hoffers]
  refine ⟨(visited.next active).1, ?_⟩
  rcases hcandidates : e.candidates with _ | ⟨c, _ | ⟨c', others⟩⟩
  · left
    exact ⟨rfl, fun hmatched => hmatches.mpr hmatched hcandidates⟩
  · right
    have hc : c ∈ e.candidates := by simp [hcandidates]
    refine ⟨c, rfl, hmatches.mp (List.ne_nil_of_mem hc), ?_⟩
    exact visited.step host.wellPosed.tree (Technique.step_of_expandAll expanded hc)
  · simp [hcandidates] at hone

theorem Visiting.moves {s s' : Search μ γ} {outcome : StepOutcome} (hv : s.Visiting problem.graph)
    (reached : Reached problem h number s) (host : problem.HostOnly) (hm : Moves s outcome s') :
    s'.Visiting problem.graph := by
  obtain ⟨plan, leaf, score, e, took, filled, filed, hp⟩ := hm.passage reached.balanced.1
  have hplan : plan ∈ s.unfinished.toList := hp.taken.mem_iff.mpr List.mem_cons_self
  obtain ⟨waits, unsolved, _, visited, matched⟩ := hv.of_mem hplan
  obtain ⟨hnext, hexpansion⟩ := hv.expansion reached host hplan hp.active hp.expanded
  have idle : took.unfinished.toList = [] := by
    have htaken := hp.taken.length_eq
    rw [waits] at htaken
    simpa using htaken
  have none : took.finished.toList = [] := by rw [hp.finished_eq, unsolved]
  have hunfinished : s'.unfinished.toList.Perm filled.unfinished.toList := hp.reranks.unfinished
  have hfinished : s'.finished.toList.Perm filled.finished.toList := hp.reranks.finished
  rw [visited.bindings_eq] at hexpansion
  have files := hp.files
  rcases hexpansion with ⟨hnil, unmatched⟩ | ⟨c, hone, hmatched, further⟩
  · rw [hnil] at files
    cases files
    rw [idle] at hunfinished
    rw [none] at hfinished
    exact .stuck hunfinished.eq_nil hfinished.eq_nil hnext unmatched
  · rw [hone] at files
    have hfiled := hp.regular.file_one idle none files
    have hsteps : s'.steps = s.steps + 1 := by
      have hq := (hp.regular.queues files).2.steps_eq
      rw [hp.reranks.steps_eq, ← hp.steps_eq, ← hq]
      rfl
    have hmatches : problem.graph.HostMatchesUpTo s'.steps := by
      intro i hi id hid
      rw [hsteps] at hi
      rcases Nat.lt_succ_iff_lt_or_eq.mp hi with hi | rfl
      · exact matched i hi id hid
      · rw [hnext] at hid
        cases hid
        exact hmatched
    rw [← hsteps] at further
    split at hfiled
    · rename_i done
      rw [hfiled.1] at hunfinished
      rw [hfiled.2, List.perm_singleton] at hfinished
      exact .done hunfinished.eq_nil hfinished further (further.all host.wellPosed.tree done)
        hmatches
    · rename_i leaves
      rw [hfiled.1, List.perm_singleton] at hunfinished
      rw [hfiled.2] at hfinished
      exact .going hunfinished hfinished.eq_nil (by simpa using leaves) further hmatches

theorem Reached.visiting {s : Search μ γ} (reached : Reached problem h number s)
    (host : problem.HostOnly) : s.Visiting problem.graph := by
  induction reached with
  | start started =>
    obtain ⟨score, _, rfl⟩ := start_eq_ok started
    exact .going rfl rfl rfl (Plan.hasVisited_empty host.wellPosed.tree host.initial number)
      fun i hi => absurd hi (Nat.not_lt_zero i)
  | step before stepped ih =>
    rcases step_eq_ok stepped with ⟨_, _, rfl⟩ | hm
    · exact ih
    · exact ih.moves before host hm

theorem Reached.trace_visits {s : Search μ γ} (reached : Reached problem h number s)
    (host : problem.HostOnly) :
    ∀ t ∈ s.trace, t.steps.map TraceStep.node = problem.graph.visits.take s.steps := by
  induction reached with
  | start started =>
    obtain ⟨score, _, rfl⟩ := start_eq_ok started
    intro t ht
    dsimp only at ht
    split at ht
    · cases ht
      rfl
    · cases ht
  | @step s s' outcome before stepped ih =>
    rcases step_eq_ok stepped with ⟨_, _, rfl⟩ | hm
    · exact ih
    · obtain ⟨plan, e, step, notes⟩ := hm.notes before.balanced.1
      obtain ⟨_, _, _, visited, _⟩ := (before.visiting host).of_mem notes.taken
      obtain ⟨leaf, active, hnode, _⟩ := notes.extended.leaf
      obtain ⟨rest, active⟩ := List.head?_eq_some_iff.mp active
      intro t ht
      rw [notes.trace_eq] at ht
      obtain ⟨earlier, hearlier, rfl⟩ := Option.map_eq_some_iff.mp ht
      rw [notes.steps_eq, List.take_add_one, (visited.next active).1, ← ih earlier hearlier]
      simp [hnode]

theorem mayStop_of_runWithin {steps : Nat} {s s' : Search μ γ}
    (hrun : s.runWithin steps = .ok (false, s')) : s'.mayStop = true := by
  induction steps generalizing s with
  | zero =>
    unfold runWithin at hrun
    split at hrun
    · rename_i hstop
      cases hrun
      exact hstop
    · cases hrun
  | succ steps ih =>
    unfold runWithin at hrun
    split at hrun
    · rename_i hstop
      cases hrun
      exact hstop
    · obtain ⟨⟨outcome, middle⟩, _, hrun⟩ := bind_eq_ok.mp hrun
      cases outcome with
      | exhausted => cases hrun
      | expanded => exact ih hrun

/-- A run without a budget of steps leaves no plan waiting, unless a first solution is enough. -/
theorem exists_last {s : Search μ γ} {outcome : Outcome}
    (unbounded : problem.search.stepBudget = none)
    (started : Search.start problem h number = .ok s) (hrun : s.run = .ok outcome) :
    ∃ s' : Search μ γ, Reached problem h number s' ∧ outcome.finished = s'.finished.toList ∧
      outcome.trace = s'.trace ∧ outcome.steps = s'.steps ∧
      (s'.unfinished.toList = [] ∨ s'.finished.toList ≠ []) := by
  obtain ⟨exhausted, s', hends, rfl⟩ := run_eq_ok hrun
  obtain ⟨reached, hpop⟩ := runWithin_induction (P := Reached problem h number)
    (fun before _ stepped => before.step stepped) (.start started) hends
  have regular := reached.balanced.1
  refine ⟨s', reached, rfl, rfl, rfl, ?_⟩
  cases exhausted with
  | true => exact .inl (Frontier.popBest_eq_none regular.unfinished (hpop rfl))
  | false =>
    right
    have hstop := mayStop_of_runWithin hends
    simp only [mayStop, regular.problem_eq, unbounded, Option.any_none, Bool.or_false,
      Bool.and_eq_true, Frontier.isEmpty] at hstop
    intro hnil
    have hsize := regular.finished.length_toList
    simp [hnil] at hsize
    simp [← hsize] at hstop

theorem Reached.mem_of_popBest {s : Search μ γ} (reached : Reached problem h number s)
    {score : Score} {plan : Plan} {left : Frontier Plan} {generator : γ}
    (popped : s.unfinished.popBest problem.search.tieBreak s.generator =
      some (score, plan, left, generator)) : plan ∈ s.unfinished.toList := by
  obtain ⟨_, hperm, _⟩ := Frontier.popBest_eq_some reached.balanced.1.unfinished popped
  exact Frontier.mem_toList.mpr ⟨score, hperm.mem_iff.mpr List.mem_cons_self⟩

theorem Reached.made_le_one {s s' : Search μ γ} {id : PlanId} {made finished : Nat}
    (reached : Reached problem h number s) (host : problem.HostOnly)
    (stepped : s.step = .ok (.expanded id made finished, s')) : made ≤ 1 := by
  rcases step_eq_ok stepped with ⟨_, hnone, _⟩ | hm
  · cases hnone
  · cases hm with
    | @expand score plan left generator leaf tally e supply counted filled after filed popped active
        _ expanded =>
      rw [reached.balanced.1.problem_eq] at popped expanded
      have hplan := reached.mem_of_popBest popped
      obtain ⟨_, ⟨hnil, _⟩ | ⟨c, hone, _⟩⟩ :=
        (reached.visiting host).expansion reached host hplan active expanded
      · simp [hnil]
      · simp [hone]

theorem Reached.next_visit {s : Search μ γ} (reached : Reached problem h number s)
    (host : problem.HostOnly) {plan : Plan} (hplan : plan ∈ s.unfinished.toList) :
    ∃ leaf, plan.activeLeaf? = some leaf ∧ leaf.target = .host ∧
      problem.graph.visits[s.steps]? = some leaf.next := by
  obtain ⟨_, _, leaves, visited, _⟩ := (reached.visiting host).of_mem hplan
  cases hleaves : plan.leaves with
  | nil => simp [Plan.isFinished, hleaves] at leaves
  | cons leaf rest =>
    refine ⟨leaf, by simp [Plan.activeLeaf?, hleaves], ?_, (visited.next hleaves).1⟩
    exact visited.onHost leaf (hleaves ▸ List.mem_cons_self)

end Search

/-- Where the host is the only target, a search is one depth-first visit, whatever heuristic ranks
the plans and however ties are broken. Every step makes one candidate at most and extends a plan at
the node that comes next in the visit. A run without a budget of steps finds one plan at most; it
finds one if and only if the host can implement each call under the bindings of the allocations that
are visited before it. Then it took a step for every node, and the plan handles every node on the
host and nothing elsewhere. -/
theorem host_only_search_is_one_visit {kinds : List NodeKind} {root : NodeId} {g : Graph}
    {c : Config} {problem : Problem} {μ γ : Type} [Random.Source γ] {h : Heuristic μ}
    {number : PlanId} {outcome : Outcome}
    (accepted : Graph.ofKinds kinds root = .ok g) (posed : Problem.ofConfig g c = .ok problem)
    (only : ∀ t ∈ c.targets.enabled, t = .host) (unbounded : c.search.stepBudget = none)
    (ran : (Search.start (γ := γ) problem h number).bind Search.run = .ok outcome) :
    (∀ s : Search μ γ, Search.Reached problem h number s →
      (∀ s' id made finished, s.step = .ok (.expanded id made finished, s') → made ≤ 1) ∧
      (∀ score plan left generator, s.unfinished.popBest problem.search.tieBreak s.generator =
          some (score, plan, left, generator) →
        ∃ leaf, plan.activeLeaf? = some leaf ∧ leaf.target = .host ∧
          g.visits[s.steps]? = some leaf.next)) ∧
    (∀ t ∈ outcome.trace, t.steps.map TraceStep.node = g.visits.take outcome.steps) ∧
    outcome.finished.length ≤ 1 ∧
    (outcome.finished.length = 1 ↔ g.HostMatchesCalls) ∧
    (∀ plan ∈ outcome.finished, outcome.steps = g.size ∧
      ∀ site, (plan.ledger.processed? site).isSome = true ↔
        site.target = .host ∧ site.node < g.size) := by
  have hproblem := Problem.eq_of_ofConfig posed
  have hgraph : problem.graph = g := by rw [hproblem]
  subst hgraph
  have host : problem.HostOnly :=
    { wellPosed := Problem.wellPosed_of_ofConfig accepted posed
      posed := ⟨_, _, posed⟩
      only := by
        intro t ht
        rw [hproblem, TargetSet.contains_ofList] at ht
        exact only t (of_decide_eq_true ht) }
  obtain ⟨start, started, hrun⟩ := bind_eq_ok.mp ran
  have hbudget : problem.search.stepBudget = none := by rw [hproblem, unbounded]
  obtain ⟨s, reached, hfinished, htrace, hsteps, last⟩ := Search.exists_last hbudget started hrun
  refine ⟨?_, ?_, ?_⟩
  · intro s reached
    refine ⟨fun s' id made finished stepped => reached.made_le_one host stepped, ?_⟩
    intro score plan left generator popped
    exact reached.next_visit host (reached.mem_of_popBest popped)
  · rw [htrace, hsteps]
    exact reached.trace_visits host
  · rw [hfinished, hsteps]
    rcases (reached.visiting host).finished host.wellPosed.tree last with
      ⟨hnil, unmatched⟩ | ⟨plan, hone, matched, all, handled⟩
    · simp [hnil, unmatched]
    · simp [hone, matched, all, handled]

/-- One side of a branch allocates a map, and the other looks a key up in it. -/
def allocateAside (onTrue onFalse : NodeId) : List NodeKind :=
  [.terminal .drop,
    .call {
      function := "map_get"
      args := .ofList [("obj", .addr ⟨1⟩), ("key", .term "k" 8)]
      next := some 0 },
    .terminal .drop,
    .call { function := "map_allocate", args := .ofList [("obj", .addr ⟨1⟩)], next := some 2 },
    .branch (.term "c" 1) onTrue onFalse]

def hostAlone : Config where
  targets := { initial := .host, enabled := [.host] }
  search := { trace := true }

/-- A lookup on the false side finds the map that is allocated on the true side. The other way round
the lookup comes first in the visit, and no plan is found. -/
theorem lookup_finds_allocation_aside :
    (∃ g problem h outcome t, Graph.ofKinds (allocateAside 3 1) 4 = .ok g ∧
      Problem.ofConfig g hostAlone = .ok problem ∧ h ∈ Heuristic.all ∧
      (Search.start (γ := Random.Generator) problem h).bind Search.run = .ok outcome ∧
      outcome.trace = some t ∧ t.steps.map TraceStep.node = [4, 3, 2, 1, 0] ∧
      outcome.finished.length = 1 ∧ outcome.steps = 5 ∧ g.HostMatchesCalls) ∧
    ∃ g problem h outcome, Graph.ofKinds (allocateAside 1 3) 4 = .ok g ∧
      Problem.ofConfig g hostAlone = .ok problem ∧ h ∈ Heuristic.all ∧
      (Search.start (γ := Random.Generator) problem h).bind Search.run = .ok outcome ∧
      outcome.finished = [] ∧ ¬g.HostMatchesCalls := by
  constructor
  · obtain ⟨g, hg⟩ : ∃ g, Graph.ofKinds (allocateAside 3 1) 4 = .ok g := ⟨_, rfl⟩
    obtain ⟨problem, posed⟩ : ∃ problem, Problem.ofConfig g hostAlone = .ok problem := by
      cases hg
      exact ⟨_, rfl⟩
    have hvisits : g.visits = [4, 3, 2, 1, 0] ∧ g.size = 5 := by
      cases hg
      decide
    obtain ⟨outcome, ho, hfound⟩ := exists_outcome (g := g) (c := hostAlone)
      (p := fun o => o.finished.length = 1 ∧ o.trace.isSome) (by cases hg; decide +kernel)
    obtain ⟨hone, htraced⟩ := of_decide_eq_true hfound
    obtain ⟨t, ht⟩ := Option.isSome_iff_exists.mp htraced
    obtain ⟨h, named, ran⟩ := exists_of_synthesize posed ho
    obtain ⟨_, htrace, _, hiff, hall⟩ := host_only_search_is_one_visit hg posed (by decide) rfl ran
    obtain ⟨plan, hplan⟩ := List.length_eq_one_iff.mp hone
    have hsteps := (hall plan (by simp [hplan])).1
    have hnodes := htrace t ht
    rw [hsteps, hvisits.1, hvisits.2] at hnodes
    exact ⟨g, problem, h, outcome, t, hg, posed, List.mem_of_find?_eq_some named, ran, ht, hnodes,
      hone, hsteps.trans hvisits.2, hiff.mp hone⟩
  · obtain ⟨g, hg⟩ : ∃ g, Graph.ofKinds (allocateAside 1 3) 4 = .ok g := ⟨_, rfl⟩
    obtain ⟨problem, posed⟩ : ∃ problem, Problem.ofConfig g hostAlone = .ok problem := by
      cases hg
      exact ⟨_, rfl⟩
    obtain ⟨outcome, ho, hnone⟩ := exists_outcome (g := g) (c := hostAlone)
      (p := fun o => o.finished = []) (by cases hg; decide +kernel)
    have hnil := of_decide_eq_true hnone
    obtain ⟨h, named, ran⟩ := exists_of_synthesize posed ho
    obtain ⟨_, _, _, hiff, _⟩ := host_only_search_is_one_visit hg posed (by decide) rfl ran
    refine ⟨g, problem, h, outcome, hg, posed, List.mem_of_find?_eq_some named, ran, hnil, ?_⟩
    intro hcalls
    simpa [hnil] using hiff.mpr hcalls

end PacketPlan
