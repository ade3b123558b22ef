import PacketPlan.Proofs.Plan.Partition
import PacketPlan.Proofs.Plan.Reservation
import PacketPlan.Proofs.Search.Ceiling
import PacketPlan.Proofs.Search.Speculation

/-! # How a plan is misjudged

A look-ahead is meant to say what the paths below a leaf can carry at most. It does unless one of
four things is the case. It stops on the switch at the active leaf and does not think of another
pass. It stops on the switch below a branch and does not think of the other side. It ends on the
switch and does not think of a controller that is faster. Or it stops at a node which a plan to come
takes with other bindings than the look-ahead has made. That a plan to come takes it with the same
bindings is ruled out, as what can be placed there could have been placed before.
-/
namespace PacketPlan
open CompletedPath

/-! ## Room in earlier plans -/

namespace Plan
variable {problem : Problem} {plan after later : Plan} {l leaf : Leaf} {t : Technique}
  {p : Proposal}

theorem Step.leads (step : plan.Step problem after) : plan.resources.Leads after.resources := by
  cases step with
  | pass | revisit => exact .refl
  | handOver =>
    rw [attached_resources]
    exact .refl
  | act _ _ _ _ _ _ _ placed =>
    rw [attached_resources]
    exact placeFrom_leads placed

theorem Step.easier (step : plan.Step problem after) (hr : plan.resources.Indexed)
    {x : SwitchObject} {e : Demand} (alike : e.isDigest = decide (x.role = .digest)) :
    plan.resources.Easier after.resources x e := by
  cases step with
  | pass | revisit => exact .refl hr x e
  | handOver =>
    rw [attached_resources]
    exact .refl hr x e
  | @act leaf rest t p _ _ _ _ _ _ offer _ acts _ _ _ _ placed =>
    rw [attached_resources]
    have hp : p ≠ Technique.revisit leaf := by
      rintro rfl
      cases acts
    obtain ⟨ps, hps, hmem⟩ := offer.proposed hp
    have asks := (Technique.proposals_steady hps hmem).1
    refine ((Pipeline.serves_of_placeFrom placed).easier hr ?_).2
    rintro y hy rfl
    rw [alike, asks.alike y hy]

theorem ComesTo.lighter (comes : plan.ComesTo problem later) (hr : plan.resources.Indexed) :
    later.resources.Indexed ∧ plan.resources.Lighter later.resources := by
  induction comes with
  | refl => exact ⟨hr, .refl _⟩
  | tail _ last ih =>
    obtain ⟨hindexed, lighter⟩ := last.step.leads.lighter ih.1
    exact ⟨hindexed, ih.2.trans lighter⟩

theorem ComesTo.easier (comes : plan.ComesTo problem later) (hr : plan.resources.Indexed)
    {x : SwitchObject} {e : Demand} (alike : e.isDigest = decide (x.role = .digest)) :
    plan.resources.Easier later.resources x e := by
  induction comes with
  | refl => exact .refl hr x e
  | tail before last ih =>
    obtain ⟨hindexed, lighter⟩ := ComesTo.lighter before hr
    exact ih.trans (last.step.easier hindexed alike) lighter

/-- What a plan to come can place passes the probe of a pass of its own, already in this plan. -/
theorem Takes.probe (takes : later.Takes problem leaf t p) (comes : plan.ComesTo problem later)
    (hr : plan.resources.Indexed) (stocked : later.Stocked problem) :
    ∃ stages, p.probe plan.resources ∅ = .ok stages := by
  obtain ⟨ps, hps, hmem⟩ := takes.proposed
  obtain ⟨⟨stages, resources⟩, placed⟩ := takes.placed
  have asks := (Technique.proposals_steady hps hmem).1
  have hleaf : leaf ∈ later.leaves := List.mem_of_mem_head? takes.active
  obtain ⟨hindexed, lighter⟩ := comes.lighter hr
  obtain ⟨foreseen, hforeseen, _⟩ := stocked.foreseen_of_place hindexed hleaf rfl asks placed
  refine Proposal.probeFrom_of_easier (fun y hy => absurd hy (OrdSet.not_mem_empty y)) ?_ ?_
    ⟨foreseen, hforeseen⟩
  · intro y hy
    obtain ⟨stage, hstage⟩ := Pipeline.isPlaced_iff.mp hy
    exact Pipeline.isPlaced_iff.mpr ⟨stage, lighter.stays hstage⟩
  · intro x hx
    exact comes.easier hr (asks.alike x hx)

end Plan

theorem Problem.mem_catalog {problem : Problem} {t : Technique} (h : t ∈ problem.techniques) :
    t ∈ problem.catalog t.target := by
  obtain ⟨target, _, ht⟩ := List.mem_flatMap.mp h
  rwa [Problem.target_of_mem_catalog ht]

/-! ## Walks -/

theorem NodeKind.length_children_le (k : NodeKind) : k.children.length ≤ 2 := by
  cases k with
  | call c => cases hnext : c.next <;> simp [NodeKind.children, hnext]
  | branch | terminal => simp [NodeKind.children]

theorem Graph.Descends.mem_subtree {g : Graph} (hg : g.IsTree) {n m : NodeId} {k : Nat}
    (h : g.Descends n k m) (present : n < g.size) : m ∈ g.subtree n := by
  induction h with
  | refl =>
    rw [hg.subtree_eq (List.getElem?_eq_getElem present)]
    exact List.mem_cons_self
  | next hn children _ ih =>
    have hchild := Graph.child_iff.mpr ⟨_, hn, children ▸ List.mem_cons_self⟩
    rw [hg.subtree_eq hn, children]
    exact List.mem_cons_of_mem _
      (List.mem_flatMap.mpr ⟨_, List.mem_cons_self, ih (hg.child_lt hchild)⟩)
  | branch hn _ side _ ih =>
    have hchild := Graph.child_iff.mpr ⟨_, hn, side⟩
    rw [hg.subtree_eq hn]
    exact List.mem_cons_of_mem _ (List.mem_flatMap.mpr ⟨_, side, ih (hg.child_lt hchild)⟩)

namespace Scout
variable {problem : Problem} {plan : Plan} {s s' : Scout} {t : Technique} {p : Proposal}

theorem Goes.target (h : s.Goes problem plan s') :
    s'.target = s.target ∨ s.target = .switch ∧ s'.target = .controller := by
  cases h with
  | down => exact .inl rfl
  | across => exact .inr ⟨rfl, rfl⟩

theorem Goes.stops (h : s.Goes problem plan s') (changed : s'.target ≠ s.target) :
    s.Stops problem plan := by
  cases h with
  | down => exact absurd rfl changed
  | across lacking => exact ⟨Nat.succ_ne_zero _, lacking⟩

theorem Goes.child (h : s.Goes problem plan s') (same : s'.target = s.target) :
    problem.graph.Child s.node s'.node := by
  cases h with
  | down _ _ present children =>
    exact Graph.child_iff.mpr ⟨_, present, children ▸ List.mem_cons_self⟩
  | across => cases same

theorem descends_of_walk (walk : Relation.ReflTransGen (Goes problem plan) s s') :
    ∃ k, problem.graph.Descends s.node k s'.node := by
  induction walk using Relation.ReflTransGen.head_induction_on with
  | refl => exact ⟨0, .refl _⟩
  | head goes _ ih =>
    obtain ⟨k, below⟩ := ih
    cases goes with
    | across => exact ⟨k, below⟩
    | @down _ _ _ id child _ node others _ _ _ present children =>
      have hlength : (child :: others).length ≤ 2 := children ▸ node.kind.length_children_le
      cases others with
      | nil => exact ⟨k, .next present children below⟩
      | cons other others =>
        have hnone : others = [] := by
          cases others with
          | nil => rfl
          | cons => simp at hlength
        refine ⟨k + 1, .branch present ?_ (children ▸ List.mem_cons_self) below⟩
        rw [children, hnone]
        rfl

/-- A look-ahead ends on its target, unless it stops on the switch and goes over. -/
theorem result_some (hg : problem.graph.IsTree) (present : s.node < problem.graph.size)
    {found : Target} (h : s.result problem plan = .ok (some found)) :
    found = s.target ∨ s.target = .switch ∧ found = .controller ∧
      ∃ s', Relation.ReflTransGen (Goes problem plan) s s' ∧ s'.target = .switch ∧
        s'.Stops problem plan := by
  induction s using walk_induction problem plan with
  | step s ih =>
    have hcomes : s.Comes problem plan _ := comes_result present
    generalize hresult : s.result problem plan = result at hcomes
    rw [hresult] at h
    cases hcomes with
    | fails | stops => cases h
    | done | ends =>
      cases h
      exact .inl rfl
    | @goes s' goes =>
      rcases goes.target with hsame | ⟨hswitch, hover⟩
      · rcases ih s' goes (goes.present hg present) h with
          hfound | ⟨hswitch, hfound, last, walk, hlast⟩
        · exact .inl (hfound.trans hsame)
        · exact .inr ⟨hsame ▸ hswitch, hfound, last, .head goes walk, hlast⟩
      · rcases ih s' goes (goes.present hg present) h with hfound | ⟨hagain, _⟩
        · have hne : s'.target ≠ s.target := by rw [hover, hswitch]; decide
          exact .inr ⟨hswitch, hfound.trans hover, s, .refl, hswitch, goes.stops hne⟩
        · rw [hover] at hagain
          cases hagain

/-- A look-ahead without a result stops on its target with nowhere to go, or on the switch and then
on the controller. -/
theorem result_none (hg : problem.graph.IsTree) (present : s.node < problem.graph.size)
    (h : s.result problem plan = .ok none) :
    ∃ s', Relation.ReflTransGen (Goes problem plan) s s' ∧ s'.Stops problem plan ∧
      s'.target = s.target ∧
      (¬(s.target = .switch ∧ problem.platform.enabled.contains .controller = true) ∨
        s.target = .switch ∧ ∃ s'', Relation.ReflTransGen (Goes problem plan) s' s'' ∧
          s''.target = .controller ∧ s''.Stops problem plan) := by
  induction s using walk_induction problem plan with
  | step s ih =>
    have hcomes : s.Comes problem plan _ := comes_result present
    generalize hresult : s.result problem plan = result at hcomes
    rw [hresult] at h
    cases hcomes with
    | fails | done | ends => cases h
    | stops stuck stays => exact ⟨s, .refl, stuck, rfl, .inl stays⟩
    | @goes s' goes =>
      obtain ⟨last, walk, stuck, htarget, hends⟩ := ih s' goes (goes.present hg present) h
      rcases goes.target with hsame | ⟨hswitch, hover⟩
      · rw [hsame] at htarget hends
        exact ⟨last, .head goes walk, stuck, htarget, hends⟩
      · have hne : s'.target ≠ s.target := by rw [hover, hswitch]; decide
        exact ⟨s, .refl, goes.stops hne, rfl,
          .inr ⟨hswitch, last, .head goes walk, htarget.trans hover, stuck⟩⟩

theorem Stops.refused (h : s.Stops problem plan) (known : t ∈ problem.techniques)
    (target_eq : t.target = s.target) (kind_ne : t.kind ≠ .sendToController) {ps : List Proposal}
    (hps : t.proposals problem.graph s.bindings s.node = .ok ps) (hp : p ∈ ps)
    (hadm : Technique.admissible problem s.bindings p = true) :
    ∃ refusal, p.probe plan.resources (t.passDepsAt plan s.node) = .error refusal := by
  have hasked : t ∈ s.techniques problem := by
    refine List.mem_filter.mpr ⟨target_eq ▸ Problem.mem_catalog known, ?_⟩
    exact decide_eq_true kind_ne
  have hnone := Plan.firstSpeculation_eq_none_iff.mp h.2 t hasked
  obtain ⟨qs, hqs, hnone⟩ := bind_eq_ok.mp hnone
  cases hps.symm.trans hqs
  have hfound := List.findSome?_eq_none_iff.mp (Except.ok.inj hnone) p
    (List.mem_filter.mpr ⟨hp, hadm⟩)
  split at hfound
  · rename_i refusal hrefusal
    exact ⟨refusal, hrefusal⟩
  · cases hfound

/-- The active leaf does not stand there. -/
def Apart (plan : Plan) (s : Scout) : Prop :=
  ∀ leaf, plan.activeLeaf? = some leaf → ¬(leaf.next = s.node ∧ leaf.target = s.target)

theorem Apart.passDepsAt (h : s.Apart plan) (target_eq : t.target = s.target) :
    t.passDepsAt plan s.node = ∅ := by
  unfold Technique.passDepsAt
  cases hactive : plan.activeLeaf? with
  | none => rfl
  | some leaf =>
    rw [target_eq]
    exact if_neg (h leaf hactive)

theorem target_of_walk (walk : Relation.ReflTransGen (Goes problem plan) s s')
    (onController : s.target = .controller) : s'.target = .controller := by
  induction walk with
  | refl => exact onController
  | tail _ goes ih =>
    rcases goes.target with hsame | ⟨_, hover⟩
    · exact hsame.trans ih
    · exact hover

end Scout

section derived
variable {g : Graph} {c : Config} {problem : Problem} {choices : List Choice} {plan : Plan}
  {l : Leaf}

theorem Derives.nodup_ahead (wp : problem.WellPosed) (derived : Derives problem choices plan) :
    (plan.ahead problem.graph).Nodup := by
  have hvisits : problem.graph.visits.Nodup := wp.tree.visits_perm.nodup_iff.mpr List.nodup_range
  rw [← derived.partitions wp] at hvisits
  exact (List.nodup_append.mp hvisits).2.1

/-- A look-ahead comes to where the active leaf stands only if it starts there. -/
theorem Derives.apart (wp : problem.WellPosed) (derived : Derives problem choices plan)
    (hl : l ∈ plan.leaves) {s : Scout}
    (walk : Relation.ReflTransGen (Scout.Goes problem plan) (.ofLeaf problem plan l) s)
    (start : s = .ofLeaf problem plan l → plan.activeLeaf? ≠ some l) : s.Apart plan := by
  rintro leaf hactive ⟨hnext, htarget⟩
  have present : ∀ x ∈ plan.leaves, x.next < problem.graph.size :=
    fun x hx => (derived.lawful wp).leaf_present wp.tree hx
  obtain ⟨rest, active⟩ := List.head?_eq_some_iff.mp hactive
  have hnodup := derived.nodup_ahead wp
  rw [Plan.ahead, active, List.flatMap_cons, List.nodup_append] at hnodup
  obtain ⟨hown, _, hothers⟩ := hnodup
  have hself : leaf.next ∈ problem.graph.subtree leaf.next :=
    (Graph.Descends.refl leaf.next).mem_subtree wp.tree (present leaf (active ▸ List.mem_cons_self))
  rw [active] at hl
  rcases List.mem_cons.mp hl with rfl | hrest
  · rcases Relation.ReflTransGen.cases_head walk with hstart | ⟨first, goes, walk⟩
    · exact start hstart.symm hactive
    · rcases goes.target with hsame | ⟨hswitch, hover⟩
      · obtain ⟨node, hn, hchild⟩ := Graph.child_iff.mp (goes.child hsame)
        obtain ⟨k, below⟩ := Scout.descends_of_walk walk
        have hfar := below.mem_subtree wp.tree (wp.tree.child_lt (goes.child hsame))
        have hn : problem.graph.node? l.next = some node := hn
        rw [wp.tree.subtree_eq hn] at hown
        refine (List.nodup_cons.mp hown).1 (List.mem_flatMap.mpr ⟨first.node, hchild, ?_⟩)
        exact hnext.symm ▸ hfar
      · have hlast := Scout.target_of_walk walk hover
        rw [hlast] at htarget
        have hswitch : l.target = .switch := hswitch
        cases htarget.symm.trans hswitch
  · obtain ⟨k, below⟩ := Scout.descends_of_walk walk
    have hfar := below.mem_subtree wp.tree (present l (active ▸ hl))
    exact hothers leaf.next hself s.node (List.mem_flatMap.mpr ⟨l, hrest, hfar⟩) hnext

/-- The ways in which more can come of a leaf than its look-ahead says, and how much at most. -/
inductive Plan.Misjudges (problem : Problem) (plan : Plan) (l : Leaf) : Nat → Prop
  /-- No technique of the switch takes the node in this pass, but there may be another one. -/
  | again {after : Plan} {rest : List Leaf} (active : plan.leaves = l :: rest)
      (stops : (Scout.ofLeaf problem plan l).Stops problem plan)
      (expands : plan.Expands problem after) (another : after.leaves = l.again :: rest) :
      Misjudges problem plan l
        (max ((l.endOn .controller).carried problem) (l.again.ceiling problem))
  /-- The path leaves the switch below a branch, whose other side may stay there. -/
  | beside {s : Scout} {k : Nat}
      (walk : Relation.ReflTransGen (Scout.Goes problem plan) (.ofLeaf problem plan l) s)
      (onSwitch : s.target = .switch) (stops : s.Stops problem plan)
      (below : problem.graph.Descends l.next (k + 1) s.node)
      (ends : plan.lookahead problem l = .ok ((l.endOn .controller).carried problem)) :
      Misjudges problem plan l (ceilingLeaving problem l.branchDepth l.recirculations (k + 1))
  /-- The path ends on the switch, but the controller is faster. -/
  | faster (onSwitch : l.target = .switch)
      (slower : problem.platform.capacity .switch < problem.platform.capacity .controller)
      (ends : plan.lookahead problem l = .ok ((l.endOn .switch).carried problem)) :
      Misjudges problem plan l (l.ceiling problem)
  /-- No technique takes the node as things are bound on the way ahead, but in a plan to come one
  does, by a proposal that is not made under these bindings or not admitted. -/
  | rebound {s : Scout} {later : Plan} {leaf : Leaf} {t : Technique} {p : Proposal}
      (walk : Relation.ReflTransGen (Scout.Goes problem plan) (.ofLeaf problem plan l) s)
      (stops : s.Stops problem plan) (comes : plan.ComesTo problem later)
      (takes : later.Takes problem leaf t p) (next_eq : leaf.next = s.node)
      (target_eq : leaf.target = s.target)
      (unseen : ∀ ps, t.proposals problem.graph s.bindings s.node = .ok ps → p ∈ ps →
        Technique.admissible problem s.bindings p = false) :
      Misjudges problem plan l (l.ceiling problem)

/-- If a plan to come takes the node where a look-ahead stops, then under other bindings. -/
theorem Derives.rebound (wp : problem.WellPosed) (posed : Problem.ofConfig g c = .ok problem)
    (derived : Derives problem choices plan) {s : Scout}
    (walk : Relation.ReflTransGen (Scout.Goes problem plan) (.ofLeaf problem plan l) s)
    (stops : s.Stops problem plan) (apart : s.Apart plan)
    (taken : plan.MayTake problem s.node s.target) :
    plan.Misjudges problem l (l.ceiling problem) := by
  obtain ⟨later, leaf, t, p, comes, takes, next_eq, target_eq⟩ := taken
  refine .rebound walk stops comes takes next_eq target_eq ?_
  intro ps hps hp
  by_contra hadm
  have ht : t.target = s.target := takes.target_eq.trans target_eq
  obtain ⟨refusal, refused⟩ := stops.refused takes.known ht takes.kind_ne hps hp
    (Bool.eq_true_of_not_eq_false hadm)
  obtain ⟨_, derivedToo⟩ := comes.derives derived
  obtain ⟨stages, granted⟩ := takes.probe comes (derived.lawful wp).placed.indexed
    (derivedToo.stocked wp posed)
  rw [apart.passDepsAt ht, granted] at refused
  cases refused

theorem Derives.not_takes (wp : problem.WellPosed) (posed : Problem.ofConfig g c = .ok problem)
    (derived : Derives problem choices plan)
    (stops : (Scout.ofLeaf problem plan l).Stops problem plan) (t : Technique) (p : Proposal) :
    ¬plan.Takes problem l t p := by
  intro takes
  obtain ⟨rest, active⟩ := List.head?_eq_some_iff.mp takes.active
  obtain ⟨ps, hps, hp⟩ := takes.proposed
  obtain ⟨⟨stages, resources⟩, placed⟩ := takes.placed
  obtain ⟨refusal, refused⟩ := stops.refused takes.known takes.target_eq takes.kind_ne hps hp
    takes.admissible
  obtain ⟨foreseen, granted, _⟩ := (derived.stocked wp posed).foreseen_of_place
    (derived.lawful wp).placed.indexed (active ▸ List.mem_cons_self) rfl
    (Technique.proposals_steady hps hp).1 placed
  have hdeps := Technique.passDepsAt_active active takes.target_eq
  have hrefused : p.probe plan.resources l.passDeps = .error refusal := hdeps ▸ refused
  cases granted.symm.trans hrefused

theorem Plan.ComesTo.processed?_of_some {later : Plan} (hg : problem.graph.IsTree)
    (comes : plan.ComesTo problem later) {site : Site} {how : Option PlanNodeId}
    (h : plan.ledger.processed? site = some how) : later.ledger.processed? site = some how := by
  induction comes with
  | refl => exact h
  | tail _ last ih =>
    rcases handles_of_step hg last.step with
      ⟨_, _, _, _, handles⟩ | ⟨_, _, _, _, _, _, rfl⟩
    · exact handles.processed?_old ih
    · exact ih

/-- If such a node is taken in a plan to come, there is another pass first. -/
theorem Derives.again (wp : problem.WellPosed) (derived : Derives problem choices plan)
    {rest : List Leaf} (active : plan.leaves = l :: rest)
    (stuck : ∀ t p, ¬plan.Takes problem l t p) (taken : plan.MayTake problem l.next l.target) :
    ∃ after, plan.Expands problem after ∧ after.leaves = l.again :: rest := by
  obtain ⟨later, leaf, t, p, comes, takes, next_eq, target_eq⟩ := taken
  rcases Relation.ReflTransGen.cases_head comes with rfl | ⟨after, expands, comes⟩
  · have hactive : plan.activeLeaf? = some l := List.head?_eq_some_iff.mpr ⟨rest, active⟩
    cases hactive.symm.trans takes.active
    exact absurd takes (stuck t p)
  · rcases Plan.handles_of_step wp.tree expands.step with
      ⟨leaf', rest', children, how, handles⟩ | ⟨leaf', rest', id, active', _, _, rfl⟩
    · -- the node is handled, and no leaf stands at a node that is handled on its target
      cases active.symm.trans handles.active
      obtain ⟨_, derivedAfter⟩ := expands.derives derived
      obtain ⟨_, derivedLater⟩ := Plan.ComesTo.derives comes derivedAfter
      have hfresh := (derivedLater.pending wp).fresh leaf (List.mem_of_mem_head? takes.active)
      have hsite : leaf.site = l.site := by rw [Leaf.site, Leaf.site, next_eq, target_eq]
      rw [hsite, Plan.ComesTo.processed?_of_some wp.tree comes handles.processed?_self] at hfresh
      cases hfresh
    · cases active.symm.trans active'
      exact ⟨_, expands, rfl⟩

end derived

/-! ## Judgements -/

namespace Plan
variable {problem : Problem} {plan after : Plan} {l : Leaf} {most : Nat}

/-- Unless a node where it stops is taken later, the look-ahead of a leaf bounds what comes of it,
or it is misjudged, or nothing comes of it at all. -/
theorem judged (hg : problem.graph.IsTree) (within : problem.RatesWithin most)
    (hmost : most < 2 ^ 63) (present : l.next < problem.graph.size) {rate : Nat}
    (hrate : plan.lookahead problem l = .ok rate)
    (settled : ∀ s, Relation.ReflTransGen (Scout.Goes problem plan) (.ofLeaf problem plan l) s →
      s.Stops problem plan → plan.MayTake problem s.node s.target →
      plan.Misjudges problem l (l.ceiling problem)) :
    (∃ n, (plan.lookahead problem l = .ok n ∨ plan.Misjudges problem l n) ∧
      plan.Bounded problem l n) ∨ plan.Barred problem l := by
  by_cases hmisjudged : plan.Misjudges problem l (l.ceiling problem)
  · exact .inl ⟨_, .inr hmisjudged, .free⟩
  have refuses : ∀ s, Relation.ReflTransGen (Scout.Goes problem plan) (.ofLeaf problem plan l) s →
      s.Stops problem plan → ¬plan.MayTake problem s.node s.target :=
    fun s walk stops taken => hmisjudged (settled s walk stops taken)
  obtain ⟨found, hfound, hends⟩ := bind_eq_ok.mp hrate
  cases found with
  | none =>
    right
    obtain ⟨s, walk, stops, htarget, hstays | ⟨onSwitch, s', walk', onController, stops'⟩⟩ :=
      Scout.result_none (s := .ofLeaf problem plan l) hg present hfound
    · obtain ⟨k, below⟩ := Scout.descends_of_walk walk
      have hrefused := refuses s walk stops
      rw [htarget] at hrefused
      exact .here below hrefused hstays
    · obtain ⟨k, below⟩ := Scout.descends_of_walk walk
      obtain ⟨k', further⟩ := Scout.descends_of_walk walk'
      have hswitch := refuses s walk stops
      have hcontroller := refuses s' (walk.trans walk') stops'
      rw [htarget, onSwitch] at hswitch
      rw [onController] at hcontroller
      exact .beyond onSwitch below hswitch further hcontroller
  | some target =>
    left
    have hcarried : plan.lookahead problem l = .ok ((l.endOn target).carried problem) := by
      rw [hrate, ← hends]
      exact (l.endOn target).rate_eq within hmost
    rcases Scout.result_some (s := .ofLeaf problem plan l) hg present hfound with
      rfl | ⟨onSwitch, rfl, s, walk, hswitch, stops⟩
    · rcases @ceilingAt_eq_or_faster problem l.target l.branchDepth l.recirculations with
        hceiling | ⟨onSwitch, slower⟩
      · refine ⟨l.ceiling problem, .inl ?_, .free⟩
        rw [Leaf.ceiling, hceiling]
        exact hcarried
      · refine ⟨l.ceiling problem, .inr (.faster onSwitch slower ?_), .free⟩
        rw [← onSwitch]
        exact hcarried
    · obtain ⟨k, below⟩ := Scout.descends_of_walk walk
      have hbounded : plan.Bounded problem l
          (ceilingLeaving problem l.branchDepth l.recirculations k) :=
        .leaving onSwitch below (hswitch ▸ refuses s walk stops)
      cases k with
      | zero => exact ⟨_, .inl hcarried, hbounded⟩
      | succ k => exact ⟨_, .inr (.beside walk hswitch stops below hcarried), hbounded⟩

theorem Turn.again {children : List Leaf} {ended : List CompletedPath}
    (turn : Turn problem plan l children ended) (stuck : ∀ t p, ¬plan.Takes problem l t p) :
    ∃ ns, List.Forall₂ (after.Bounded problem) children ns ∧
      ns.sum + (ended.map (carried problem)).sum ≤
        max ((l.endOn .controller).carried problem) (l.again.ceiling problem) := by
  cases turn with
  | stop takes | next takes | branch takes => exact absurd takes (stuck _ _)
  | handOver =>
    have hcontroller : ceilingAt problem .controller l.branchDepth l.recirculations = _ :=
      ceilingAt_of_ne (by decide) _ _
    exact ⟨[_], .cons .free .nil, hcontroller.trans_le (Nat.le_max_left _ _)⟩
  | revisit => exact ⟨[_], .cons .free .nil, Nat.le_max_right _ _⟩

/-! ## What is carried and what is expected -/

theorem eq_of_sumRates (within : problem.RatesWithin most) (hmost : most < 2 ^ 63) {acc total : Nat}
    {paths : List CompletedPath} (h : sumRates problem acc paths = .ok total) :
    total = acc + (paths.map (carried problem)).sum := by
  induction paths generalizing acc with
  | nil =>
    cases h
    rfl
  | cons p paths ih =>
    obtain ⟨rate, hrate, h⟩ := bind_eq_ok.mp h
    rw [p.rate_eq within hmost] at hrate
    cases hrate
    obtain ⟨sum, hsum, h⟩ := bind_eq_ok.mp h
    rw [ih h, Checked.eq_add_of_add hsum, List.map_cons, List.sum_cons, Nat.add_assoc]

theorem throughput_eq (within : problem.RatesWithin most) (hmost : most < 2 ^ 63)
    (shared : plan.Shared) : plan.throughput problem = .ok (plan.completed problem) := by
  obtain ⟨total, htotal, _⟩ := shared.exists_throughput within hmost
  rw [htotal, eq_of_sumRates within hmost htotal, Nat.zero_add]
  rfl

abbrev Foresees (problem : Problem) (plan : Plan) : List Leaf → List Nat → Prop :=
  List.Forall₂ fun l rate => plan.lookahead problem l = .ok rate

theorem foresees_of_sumLookaheads {acc total : Nat} {leaves : List Leaf}
    (h : plan.sumLookaheads problem acc leaves = .ok total) :
    ∃ ahead, plan.Foresees problem leaves ahead ∧ total = acc + ahead.sum := by
  induction leaves generalizing acc with
  | nil =>
    cases h
    exact ⟨[], .nil, rfl⟩
  | cons l leaves ih =>
    obtain ⟨rate, hrate, h⟩ := bind_eq_ok.mp h
    obtain ⟨sum, hsum, h⟩ := bind_eq_ok.mp h
    obtain ⟨ahead, hahead, rfl⟩ := ih h
    refine ⟨rate :: ahead, .cons hrate hahead, ?_⟩
    rw [Checked.eq_add_of_add hsum, List.sum_cons, Nat.add_assoc]

theorem Foresees.exists_rate {leaves : List Leaf} {ahead : List Nat}
    (h : plan.Foresees problem leaves ahead) :
    ∀ l ∈ leaves, ∃ rate, plan.lookahead problem l = .ok rate := by
  induction h with
  | nil => exact nofun
  | cons hrate _ ih => exact List.forall_mem_cons.mpr ⟨⟨_, hrate⟩, ih⟩

theorem eq_of_speculativeThroughput {expected : Nat} (within : problem.RatesWithin most)
    (hmost : most < 2 ^ 63) (h : plan.speculativeThroughput problem = .ok expected) :
    ∃ ahead, plan.Foresees problem plan.leaves ahead ∧
      expected = plan.completed problem + ahead.sum := by
  obtain ⟨complete, hcomplete, h⟩ := bind_eq_ok.mp h
  obtain ⟨total, htotal, h⟩ := bind_eq_ok.mp h
  obtain ⟨ahead, hahead, rfl⟩ := foresees_of_sumLookaheads htotal
  refine ⟨ahead, hahead, ?_⟩
  rw [Checked.eq_add_of_add h, eq_of_sumRates within hmost hcomplete, Nat.zero_add, Nat.zero_add]
  rfl

end Plan

theorem Heuristic.le_of_evaluate {problem : Problem} {plan : Plan} {b : Nat} {others : List Int}
    (h : maxThroughput.evaluate (some b) problem plan = .ok (0 :: others)) :
    ∃ expected, plan.speculativeThroughput problem = .ok expected ∧ expected ≤ b := by
  obtain ⟨expected, hexpected, h⟩ := bind_eq_ok.mp h
  refine ⟨expected, hexpected, ?_⟩
  have hbeats := (List.cons.inj (Except.ok.inj h)).1
  split at hbeats
  · cases hbeats
  · rename_i hnot
    simpa [beats] using hnot

theorem exists_forall₂ {α β : Type} {R : α → β → Prop} {xs : List α} (h : ∀ x ∈ xs, ∃ y, R x y) :
    ∃ ys, List.Forall₂ R xs ys := by
  induction xs with
  | nil => exact ⟨[], .nil⟩
  | cons x xs ih =>
    obtain ⟨y, hy⟩ := h x List.mem_cons_self
    obtain ⟨ys, hys⟩ := ih fun x' hx' => h x' (List.mem_cons_of_mem x hx')
    exact ⟨y :: ys, .cons hy hys⟩

theorem sum_le_of_forall₂ {α : Type} {R S : α → Nat → Prop} {xs : List α} {ns ms : List Nat}
    (h : List.Forall₂ R xs ns) (h' : List.Forall₂ S xs ms)
    (hle : ∀ x ∈ xs, ∀ n m, R x n → S x m → n ≤ m) : ns.sum ≤ ms.sum := by
  induction h generalizing ms with
  | nil =>
    cases h'
    exact Nat.le_refl _
  | @cons x n xs ns hn _ ih =>
    cases h' with
    | cons hm hms =>
      rw [List.sum_cons, List.sum_cons]
      exact Nat.add_le_add (hle x List.mem_cons_self _ _ hn hm)
        (ih hms fun x' hx' => hle x' (List.mem_cons_of_mem x hx'))

section judgement
variable {g : Graph} {c : Config} {problem : Problem} {most : Nat} {choices : List Choice}
  {plan final : Plan}

/-- A leaf is bounded by its judgement, unless the look-ahead stops at the active leaf and the node
there is taken later. -/
theorem Derives.exists_bound (wp : problem.WellPosed) (posed : Problem.ofConfig g c = .ok problem)
    (within : problem.RatesWithin most) (hmost : most < 2 ^ 63)
    (derived : Derives problem choices plan) {l : Leaf} (hl : l ∈ plan.leaves)
    (foreseen : ∃ rate, plan.lookahead problem l = .ok rate) (comes : plan.ComesTo problem final)
    (finished : final.isFinished = true)
    (start : plan.activeLeaf? = some l → (Scout.ofLeaf problem plan l).Stops problem plan →
      ¬plan.MayTake problem l.next l.target) :
    ∃ n, (plan.lookahead problem l = .ok n ∨ plan.Misjudges problem l n) ∧
      plan.Bounded problem l n := by
  obtain ⟨rate, hrate⟩ := foreseen
  have present := (derived.lawful wp).leaf_present wp.tree hl
  refine (Plan.judged wp.tree within hmost present hrate ?_).resolve_right ?_
  · intro s walk stops taken
    refine derived.rebound wp posed walk stops (derived.apart wp hl walk ?_) taken
    rintro rfl hactive
    exact start hactive stops taken
  · intro barred
    exact comes.not_finished hl barred finished

/-- What the leaves are judged to carry bounds what every finished plan to come carries. -/
theorem Derives.exists_judgement (wp : problem.WellPosed)
    (posed : Problem.ofConfig g c = .ok problem) (within : problem.RatesWithin most)
    (hmost : most < 2 ^ 63) (derived : Derives problem choices plan)
    (foreseen : ∀ l ∈ plan.leaves, ∃ rate, plan.lookahead problem l = .ok rate)
    (comes : plan.ComesTo problem final) (finished : final.isFinished = true) :
    ∃ ns, List.Forall₂ (fun l n => plan.lookahead problem l = .ok n ∨ plan.Misjudges problem l n)
        plan.leaves ns ∧ final.completed problem ≤ plan.completed problem + ns.sum := by
  have hjudged := fun l (hl : l ∈ plan.leaves) =>
    derived.exists_bound wp posed within hmost hl (foreseen l hl) comes finished
  cases active : plan.leaves with
  | nil => exact ⟨[], .nil, comes.bounded within hmost (active ▸ .nil)⟩
  | cons l rest =>
    have hactive : plan.activeLeaf? = some l := List.head?_eq_some_iff.mpr ⟨rest, active⟩
    obtain ⟨ns, hns⟩ := exists_forall₂ fun x (hx : x ∈ rest) =>
      hjudged x (active ▸ List.mem_cons_of_mem l hx) fun hhead => by
        cases hactive.symm.trans hhead
        exact absurd rfl ((derived.pending wp).site_ne active hx)
    -- Only at the active leaf does the look-ahead heed what was met in the pass. If it stops there,
    -- another pass may come first, so the first step is taken apart.
    by_cases hagain : (Scout.ofLeaf problem plan l).Stops problem plan ∧
        ∃ after, plan.Expands problem after ∧ after.leaves = l.again :: rest
    · obtain ⟨stops, after, expands, another⟩ := hagain
      refine ⟨_ :: ns, .cons (.inr (.again active stops expands another))
        (hns.imp fun _ _ h => h.1), ?_⟩
      rcases Relation.ReflTransGen.cases_head comes with rfl | ⟨first, expands, comes⟩
      · cases active.symm.trans (List.isEmpty_iff.mp finished)
      · obtain ⟨ns', hbounded, hle⟩ := expands.bounded active
          (fun turn => turn.again (derived.not_takes wp posed stops)) (hns.imp fun _ _ h => h.2)
        exact (Plan.ComesTo.bounded comes within hmost hbounded).trans hle
    · obtain ⟨n, hn, hbounded⟩ := hjudged l (active ▸ List.mem_cons_self) fun _ stops taken =>
        hagain ⟨stops, derived.again wp active (derived.not_takes wp posed stops) taken⟩
      refine ⟨n :: ns, .cons hn (hns.imp fun _ _ h => h.1), ?_⟩
      exact comes.bounded within hmost (active ▸ .cons hbounded (hns.imp fun _ _ h => h.2))

end judgement

/-- A plan that is ranked behind the best one, with `b`, beats it only if a look-ahead misjudges a
leaf: what the finished plans to come carry is bounded by the complete paths and, leaf by leaf, by
the look-ahead or by what the leaf can come to where it is misjudged. -/
theorem ranked_behind_stays_behind_unless_misjudged {kinds : List NodeKind} {root : NodeId}
    {g : Graph} {c : Config} {problem : Problem} {choices : List Choice} {plan final : Plan}
    {b : Nat} {others : List Int} (accepted : Graph.ofKinds kinds root = .ok g)
    (posed : Problem.ofConfig g c = .ok problem)
    (bounded : ∀ t ∈ c.targets.enabled, c.capacity t * 1000 < 2 ^ 63)
    (derived : Derives problem choices plan)
    (behind : Heuristic.maxThroughput.evaluate (some b) problem plan = .ok (0 :: others))
    (comes : plan.ComesTo problem final) (finished : final.isFinished = true) :
    ∃ carried most, final.throughput problem = .ok carried ∧
      List.Forall₂ (fun l n => plan.lookahead problem l = .ok n ∨ plan.Misjudges problem l n)
        plan.leaves most ∧
      carried ≤ (plan.ledger.completed.map (CompletedPath.carried problem)).sum + most.sum ∧
      (b < carried → ∃ l ∈ plan.leaves, ∃ rate n, plan.lookahead problem l = .ok rate ∧
        plan.Misjudges problem l n ∧ rate < n) := by
  have wp := Problem.wellPosed_of_ofConfig accepted posed
  obtain ⟨fastest, hfastest, hmost⟩ := Problem.exists_fastest posed
  have hlimit := bounded fastest hfastest
  have within : problem.RatesWithin (c.capacity fastest * 1000) :=
    Problem.ratesWithin_of_ofConfig posed fun t ht => Nat.mul_le_mul_right 1000 (hmost t ht)
  obtain ⟨expected, hexpected, hle⟩ := Heuristic.le_of_evaluate behind
  obtain ⟨ahead, hahead, rfl⟩ := Plan.eq_of_speculativeThroughput within hlimit hexpected
  obtain ⟨_, derivedToo⟩ := comes.derives derived
  obtain ⟨most, hjudged, hbound⟩ := derived.exists_judgement wp posed within hlimit
    hahead.exists_rate comes finished
  refine ⟨final.completed problem, most, Plan.throughput_eq within hlimit derivedToo.shared,
    hjudged, hbound, ?_⟩
  intro hbeats
  by_contra hnone
  have hsum : most.sum ≤ ahead.sum := by
    apply sum_le_of_forall₂ hjudged hahead
    intro l hl n rate hn hrate
    rcases hn with hn | hn
    · cases hn.symm.trans hrate
      exact Nat.le_refl _
    · by_contra hlt
      exact hnone ⟨l, hl, rate, n, hrate, hn, by omega⟩
  omega

/-- One side of a branch allocates an object that the switch cannot hold. -/
def chainOnOneSide : List NodeKind :=
  [.terminal .drop,
    .call { function := "dchain_allocate", args := .ofList [("obj", .addr ⟨1⟩)], next := some 0 },
    .terminal .drop, .branch (.term "c" 1) 1 2]

/-- The look-ahead from the root sees this side only and expects no more than the controller does,
as in the best plan so far. Yet the other side can stay on the switch. -/
theorem other_side_is_misjudged :
    ∃ g problem best final l rate n, Graph.ofKinds chainOnOneSide 3 = .ok g ∧
      Problem.ofConfig g {} = .ok problem ∧
      Derives problem [(⟨.controller, .route⟩, 0), (⟨.controller, .route⟩, 0),
        (⟨.controller, .allocate⟩, 0), (⟨.controller, .branch⟩, 0),
        (⟨.switch, .sendToController⟩, 0)] best ∧
      best.isFinished = true ∧
      Heuristic.maxThroughput.observe none problem best = .ok (some 20000, true) ∧
      Heuristic.maxThroughput.evaluate (some 20000) problem (.empty problem 0) =
        .ok [0, 20000, 0] ∧
      (Plan.empty problem 0).ComesTo problem final ∧ final.isFinished = true ∧
      final.throughput problem = .ok 1610000 ∧ l ∈ (Plan.empty problem 0).leaves ∧
      (Plan.empty problem 0).lookahead problem l = .ok rate ∧
      (Plan.empty problem 0).Misjudges problem l n ∧ rate < n := by
  obtain ⟨g, accepted⟩ : ∃ g, Graph.ofKinds chainOnOneSide 3 = .ok g := ⟨_, rfl⟩
  obtain ⟨problem, posed, best, derived, complete, observed, behind, final, comes, finished,
      hcarried⟩ :
      ∃ problem, Problem.ofConfig g {} = .ok problem ∧ ∃ best,
        Derives problem [(⟨.controller, .route⟩, 0), (⟨.controller, .route⟩, 0),
          (⟨.controller, .allocate⟩, 0), (⟨.controller, .branch⟩, 0),
          (⟨.switch, .sendToController⟩, 0)] best ∧
        best.isFinished = true ∧
        Heuristic.maxThroughput.observe none problem best = .ok (some 20000, true) ∧
        Heuristic.maxThroughput.evaluate (some 20000) problem (.empty problem 0) =
          .ok [0, 20000, 0] ∧ ∃ final,
        (Plan.empty problem 0).ComesTo problem final ∧ final.isFinished = true ∧
        final.throughput problem = .ok 1610000 := by
    cases accepted
    exact ⟨_, rfl, _, derives_of_replay rfl, rfl, by decide +kernel, by decide +kernel, _,
      Plan.comesTo_of_replay [] [(⟨.switch, .route⟩, 0), (⟨.controller, .route⟩, 0),
        (⟨.controller, .allocate⟩, 0), (⟨.switch, .sendToController⟩, 0), (⟨.switch, .branch⟩, 0)]
        rfl rfl, rfl, by decide +kernel⟩
  obtain ⟨carried, most, hfound, _, _, hmisjudged⟩ := ranked_behind_stays_behind_unless_misjudged
    accepted posed (by decide) (.root 0) behind comes finished
  cases hcarried.symm.trans hfound
  obtain ⟨l, hl, rate, n, hrate, hn, hlt⟩ := hmisjudged (by decide)
  exact ⟨g, problem, best, final, l, rate, n, accepted, posed, derived, complete, observed, behind,
    comes, finished, hcarried, hl, hrate, hn, hlt⟩

/-- The second lookup of a table needs another pass. The look-ahead takes none into account and sees
the path end on the controller, as in the best plan so far, but on the switch it carries far
more. -/
theorem another_pass_beats_the_estimate :
    ∃ g problem best plan final, Graph.ofKinds lookupTwice 3 = .ok g ∧
      Problem.ofConfig g {} = .ok problem ∧
      (∀ t ∈ ({} : Config).targets.enabled, ({} : Config).capacity t * 1000 < 2 ^ 63) ∧
      Derives problem [(⟨.controller, .route⟩, 0), (⟨.controller, .mapGet⟩, 0),
        (⟨.switch, .sendToController⟩, 0), (⟨.switch, .tableLookup⟩, 0),
        (⟨.switch, .allocate⟩, 0)] best ∧
      best.isFinished = true ∧
      Heuristic.maxThroughput.observe none problem best = .ok (some 20000, true) ∧
      Derives problem [(⟨.switch, .tableLookup⟩, 0), (⟨.switch, .allocate⟩, 0)] plan ∧
      Heuristic.maxThroughput.evaluate (some 20000) problem plan = .ok [0, 20000, 2] ∧
      plan.ComesTo problem final ∧ final.isFinished = true ∧
      final.throughput problem = .ok 1600000 := by
  exact ⟨_, _, _, _, _, rfl, rfl, by decide, derives_of_replay rfl, rfl, by decide +kernel,
    derives_of_replay rfl, by decide +kernel,
    Plan.comesTo_of_replay [(⟨.switch, .tableLookup⟩, 0), (⟨.switch, .allocate⟩, 0)]
      [(⟨.switch, .route⟩, 0), (⟨.switch, .tableLookup⟩, 0), (⟨.switch, .recirculate⟩, 0)] rfl rfl,
    rfl, by decide +kernel⟩

end PacketPlan
