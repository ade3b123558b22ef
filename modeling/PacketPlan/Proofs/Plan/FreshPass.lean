import PacketPlan.Proofs.Plan.Passes
import PacketPlan.Proofs.Plan.Reservation
import PacketPlan.Proofs.Search.Exclusion

/-! # What a new pass can mend

Another pass is offered when the one proposal that the pipeline has for a node is refused in certain
ways. The new pass starts with nothing met, so no object is refused any more for what came before it
in the pass. What remains is whether each object of the proposal has room on its own, in the stage
that holds it or else in any stage. Where an object has none, the new pass is of no use, but it is
offered all the same.
-/
namespace PacketPlan

namespace Pipeline
variable {p : Pipeline} {o : SwitchObject} {d : Demand} {deps : ObjectSet}

/-- Whether there is room for an object, wherever the others are. -/
def takes (p : Pipeline) (o : SwitchObject) (d : Demand) : Bool :=
  match p.needOf o d with
  | .error _ => false
  | .ok need =>
    match p.placements.get? o with
    | some placed => (p.remainingAt placed.stage).covers (need - placed.footprint)
    | none => p.stages.any fun s => s.remaining.covers need

theorem takes_held_iff {placed : Placement} (hplaced : p.placements.get? o = some placed) :
    p.takes o d = true ↔ ∃ need, p.needOf o d = .ok need ∧
      (p.remainingAt placed.stage).covers (need - placed.footprint) = true := by
  unfold takes
  cases p.needOf o d <;> simp [hplaced]

theorem takes_new_iff (new : p.placements.get? o = none) :
    p.takes o d = true ↔ ∃ need, p.needOf o d = .ok need ∧ (p.roomFrom 0 need).Nonempty := by
  unfold takes
  cases p.needOf o d with
  | error refusal => simp
  | ok need =>
    simp only [new, List.any_eq_true, Except.ok.injEq, exists_eq_left', List.mem_iff_getElem?]
    constructor
    · rintro ⟨s, ⟨i, hi⟩, hcovers⟩
      exact ⟨i, Nat.zero_le i, s, hi, hcovers⟩
    · rintro ⟨i, _, s, hi, hcovers⟩
      exact ⟨s, ⟨i, hi⟩, hcovers⟩

/-- If its dependencies are ahead of it, room is all that an object needs. -/
theorem locate_iff_takes (hp : p.Indexed) (ahead : ∀ dep ∈ deps, p.Ahead dep o)
    (slots : p.placements.get? o = none → d.isDigest = true → 0 < p.digests) :
    (∃ located, p.locate o d deps none = .ok located) ↔ p.takes o d = true := by
  have apart : o ∉ deps := fun h => not_ahead_self (ahead o h)
  cases hplaced : p.placements.get? o with
  | some placed =>
    have hstage : p.stageOf? o = some placed.stage := by rw [stageOf?, hplaced]; rfl
    have hdeps : ∀ dep ∈ deps, ∃ s, p.stageOf? dep = some s ∧ s < placed.stage := by
      intro dep hdep
      obtain ⟨s, s', hs, hs', hlt⟩ := ahead dep hdep
      cases hstage.symm.trans hs'
      exact ⟨s, hs, hlt⟩
    rw [takes_held_iff hplaced]
    simp only [locate_held_iff hplaced]
    constructor
    · rintro ⟨located, _, _, _, need, hneed, hcovers, _⟩
      exact ⟨need, hneed, hcovers⟩
    · rintro ⟨need, hneed, hcovers⟩
      exact ⟨_, apart, hdeps, rfl, need, hneed, hcovers, rfl⟩
  | none =>
    have hnone : ∀ dep, dep ∉ deps := by
      intro dep hdep
      obtain ⟨_, s, _, hs, _⟩ := ahead dep hdep
      rw [stageOf?, hplaced] at hs
      cases hs
    have hbehind : p.behind deps = 0 :=
      Nat.le_zero.mp (behind_le_iff.mpr fun dep hdep => absurd hdep (hnone dep))
    rw [takes_new_iff hplaced]
    constructor
    · rintro ⟨located, h⟩
      obtain ⟨_, _, _, need, hneed, hleast⟩ := (locate_new_iff hp hplaced).mp ⟨located, h, rfl⟩
      rw [hbehind] at hleast
      exact ⟨need, hneed, located.stage, hleast.1⟩
    · rintro ⟨need, hneed, hroom⟩
      classical
      have hleast : IsLeast (p.roomFrom (p.behind deps) need) (Nat.find hroom) := by
        rw [hbehind]
        exact ⟨Nat.find_spec hroom, fun i hi => Nat.find_min' hroom hi⟩
      obtain ⟨located, h, _⟩ := (locate_new_iff hp hplaced).mpr
        ⟨apart, fun dep hdep => absurd hdep (hnone dep), slots hplaced, need, hneed, hleast⟩
      exact ⟨located, h⟩

/-- A new digest that finds no stage would have had a slot. -/
theorem digests_pos_of_full {refusal : Refusal} (h : p.locate o d deps none = .error refusal)
    (fixable : refusal.fixedByNewPass = true) (apart : o ∉ deps)
    (new : p.placements.get? o = none) (digest : d.isDigest = true) : 0 < p.digests := by
  by_contra htaken
  have hzero : p.digests = 0 := by omega
  unfold locate at h
  rw [if_neg apart, new, digest, hzero] at h
  cases hneed : p.needOf o d with
  | error other =>
    rw [hneed] at h
    cases h
    rw [needOf_refusal hneed] at fixable
    cases fixable
  | ok need =>
    rw [hneed] at h
    cases hearliest : p.earliestFrom o 0 none deps.elems with
    | error other =>
      rw [hearliest] at h
      cases h
      obtain ⟨_, _, _, rfl⟩ := earliestFrom_error hearliest
      cases fixable
    | ok found =>
      rw [hearliest] at h
      cases h
      cases fixable

end Pipeline

namespace Proposal
variable {p : Proposal} {r : Pipeline}

theorem probeFrom_iff_takes (hr : r.Indexed) {seen : List SwitchObject}
    {requests : List (SwitchObject × Demand)}
    (behind : ∀ a ∈ seen, ∀ x ∈ requests, r.isPlaced a = true → r.Ahead a x.1)
    (ordered : (requests.map Prod.fst).Pairwise fun a b => r.isPlaced a = true → r.Ahead a b)
    (slots : ∀ x ∈ requests, r.placements.get? x.1 = none → x.2.isDigest = true → 0 < r.digests) :
    (∃ stages, p.probeFrom r ∅ seen requests = .ok stages) ↔
      ∀ x ∈ requests, r.takes x.1 x.2 = true := by
  induction requests generalizing seen with
  | nil => exact iff_of_true ⟨[], rfl⟩ nofun
  | cons request requests ih =>
    obtain ⟨hfirst, hrest⟩ := List.pairwise_cons.mp ordered
    have hahead : ∀ dep ∈ (p.dependencies ∅ seen).filter r.isPlaced, r.Ahead dep request.1 := by
      intro dep hdep
      obtain ⟨hdep, hplaced⟩ := (OrdSet.mem_filter ..).mp hdep
      rcases mem_dependencies.mp hdep with hseen | ⟨hmet, _⟩
      · exact behind dep hseen request List.mem_cons_self hplaced
      · exact absurd hmet (OrdSet.not_mem_empty dep)
    have hbehind : ∀ a ∈ seen ++ [request.1], ∀ x ∈ requests, r.isPlaced a = true →
        r.Ahead a x.1 := by
      intro a ha x hx
      rcases List.mem_append.mp ha with ha | ha
      · exact behind a ha x (List.mem_cons_of_mem request hx)
      · cases List.mem_singleton.mp ha
        exact hfirst x.1 (List.mem_map_of_mem hx)
    rw [probeFrom_cons_iff, Pipeline.locate_iff_takes hr hahead (slots request List.mem_cons_self),
      ih hbehind hrest fun x hx => slots x (List.mem_cons_of_mem request hx), List.forall_mem_cons]

/-- In a new pass only the objects of the proposal itself can be in each other's way. If those that
are placed stand in order, all that a probe asks for is room for each. -/
theorem probe_iff_takes (hr : r.Indexed)
    (ordered : p.objects.Pairwise fun a b => r.isPlaced a = true → r.Ahead a b)
    (slots : ∀ x ∈ p.placements, r.placements.get? x.1 = none → x.2.isDigest = true → 0 < r.digests) :
    (∃ stages, p.probe r ∅ = .ok stages) ↔ ∀ x ∈ p.placements, r.takes x.1 x.2 = true :=
  probeFrom_iff_takes hr nofun ordered slots

end Proposal

/-! ## Sketches that are placed -/

theorem Module.objects_of_hash {m : Module} {addr : Addr} (h : ⟨addr, .hash⟩ ∈ m.objects) :
    m.objects = [⟨addr, .hash⟩, ⟨addr, .register⟩] := by
  unfold Module.objects at h ⊢
  split at h
  · rename_i hswitch
    rw [if_pos hswitch]
    cases haction : m.action <;> simp_all [Action.objects]
  · cases h

theorem Derives.sketch_ahead {g : Graph} {c : Config} {problem : Problem} (wp : problem.WellPosed)
    (posed : Problem.ofConfig g c = .ok problem) {choices : List Choice} {plan : Plan}
    (h : Derives problem choices plan) {addr : Addr}
    (hhash : plan.resources.isPlaced ⟨addr, .hash⟩ = true) :
    plan.resources.Ahead ⟨addr, .hash⟩ ⟨addr, .register⟩ := by
  obtain ⟨_, platform, hplatform, hproblem⟩ := Problem.ofConfig_eq_ok.mp posed
  have hbaseline : problem.platform.baseline = .ofConfig c.switch := by
    rw [hproblem]
    exact (Platform.ofConfig_eq_ok hplatform).2.1
  obtain ⟨m, hm, hmem⟩ := (h.reserved.isPlaced_iff hbaseline _).mp hhash
  obtain ⟨j, hj⟩ := Plan.mem_modules.mp hm
  obtain ⟨_, _, counts⟩ := h.counts wp
  have hpairs := (counts.forward wp).2.within hj
  rw [Module.objects_of_hash hmem] at hpairs
  exact (List.pairwise_cons.mp hpairs).1 _ (List.mem_singleton.mpr rfl)

/-! ## Where another pass is offered -/

namespace Plan
variable {problem : Problem} {plan : Plan} {leaf : Leaf} {rest : List Leaf} {t u : Technique}
  {p q : Proposal}

def Drafts (problem : Problem) (plan : Plan) (leaf : Leaf) (t : Technique) (p : Proposal) : Prop :=
  t ∈ problem.catalog .switch ∧ t.kind.usesPipeline = true ∧
    ∃ ps, t.proposals problem.graph plan.bindings leaf.next = .ok ps ∧ p ∈ ps

theorem Drafts.unique (h : plan.Drafts problem leaf t p) (asks : p.placements ≠ [])
    (h' : plan.Drafts problem leaf u q) : u = t ∧ q = p := by
  obtain ⟨hcatalog, huses, ps, hps, hp⟩ := h
  obtain ⟨hcatalog', huses', qs, hqs, hq⟩ := h'
  have ht := Problem.target_of_mem_catalog hcatalog
  have hu := Problem.target_of_mem_catalog hcatalog'
  by_cases hut : u = t
  · subst hut
    cases hps.symm.trans hqs
    have hcommits := Technique.commits_of_places hps hp asks
    rw [Technique.proposals_alone hps hp hcommits] at hq
    exact ⟨rfl, List.mem_singleton.mp hq⟩
  · rw [Technique.proposals_of_other ht hu huses huses' hut hps hp] at hqs
    cases hqs
    exact absurd hq List.not_mem_nil

theorem exists_blocked_draft (stocked : plan.Stocked problem) (active : plan.leaves = leaf :: rest)
    (applies : (Technique.mk .switch .recirculate).Applies problem plan) :
    leaf.target = .switch ∧ ∃ t p, plan.Drafts problem leaf t p ∧ p.placements ≠ [] ∧
      ∃ refusal, p.probe plan.resources leaf.passDeps = .error refusal ∧
        refusal.fixedByNewPass = true := by
  obtain ⟨onSwitch, t, ht, huses, ps, hps, p, hp, refusal, refused⟩ := applies.blocked active rfl
  have henabled := onSwitch ▸ stocked.enabled leaf (active ▸ List.mem_cons_self)
  have huser := (Technique.mem_users henabled).mpr ⟨ht, huses⟩
  have hdraft : plan.Drafts problem leaf t p := ⟨(List.mem_filter.mp huser).1, huses, ps, hps, hp⟩
  have asks : p.placements ≠ [] := by
    intro hnone
    rw [Technique.probe_nil hnone] at refused
    cases refused
  have hblocked : Technique.anyBlocked problem plan leaf
      ((problem.catalog .switch).filter fun t => t.kind.usesPipeline) =
      .ok (ps.any (Technique.isBlocked plan leaf)) := by
    rw [Technique.anyBlocked_eq ht huses hps hp fun u hu => (Technique.mem_users henabled).mp hu,
      decide_eq_true huser, Bool.true_and]
  obtain ⟨_, passes, hpasses, pass, hpass, _⟩ := applies.offer active
  obtain ⟨_, _, allowed⟩ := mem_recirculation hpasses hpass
  have hoffered := (Technique.recirculation_eq onSwitch allowed hblocked).symm.trans hpasses
  have hany : ps.any (Technique.isBlocked plan leaf) = true := by
    by_contra hnone
    rw [if_neg hnone] at hoffered
    cases hoffered
    exact absurd hpass List.not_mem_nil
  obtain ⟨q, hq, hisBlocked⟩ := List.any_eq_true.mp hany
  obtain ⟨_, rfl⟩ := hdraft.unique asks ⟨hdraft.1, huses, ps, hps, hq⟩
  rw [Technique.isBlocked, refused] at hisBlocked
  exact ⟨onSwitch, t, q, hdraft, asks, refusal, refused, hisBlocked⟩

theorem Drafts.probe_iff_takes {g : Graph} {c : Config} {choices : List Choice} {refusal : Refusal}
    (h : plan.Drafts problem leaf t p) (wp : problem.WellPosed)
    (posed : Problem.ofConfig g c = .ok problem) (derived : Derives problem choices plan)
    (hleaf : leaf ∈ plan.leaves) (refused : p.probe plan.resources leaf.passDeps = .error refusal)
    (fixable : refusal.fixedByNewPass = true) :
    (∃ stages, p.probe plan.resources ∅ = .ok stages) ↔
      ∀ x ∈ p.placements, plan.resources.takes x.1 x.2 = true := by
  obtain ⟨_, _, ps, hps, hp⟩ := h
  have hr := (derived.lawful wp).placed.indexed
  have hmet := (derived.stocked wp posed).met leaf hleaf
  cases (Technique.proposals_steady hps hp).1 with
  | silent _ places | nothing _ _ _ places =>
    rw [Technique.probe_nil places] at refused
    cases refused
  | @object _ o d _ _ _ _ places =>
    apply Proposal.probe_iff_takes hr
    · rw [Proposal.objects, places]
      exact List.pairwise_singleton _ _
    · intro x hx new digest
      rw [places, List.mem_singleton] at hx
      subst hx
      -- what was met is placed, so a new object is refused for want of a stage
      have apart : o ∉ p.dependencies leaf.passDeps [] := by
        intro hdep
        rcases Proposal.mem_dependencies.mp hdep with hdep | ⟨hdep, _⟩
        · exact absurd hdep List.not_mem_nil
        · have hplaced := hmet o hdep
          rw [Pipeline.isPlaced_eq_false_iff.mpr new] at hplaced
          cases hplaced
      rw [Proposal.probe, places, Proposal.probeFrom_cons hmet (by simp)] at refused
      cases hl : plan.resources.locate o d (p.dependencies leaf.passDeps []) none with
      | ok located =>
        rw [hl] at refused
        cases refused
      | error other =>
        rw [hl] at refused
        cases refused
        exact Pipeline.digests_pos_of_full hl fixable apart new digest
  | @sketch _ addr _ _ _ _ _ _ _ places =>
    apply Proposal.probe_iff_takes hr
    · rw [Proposal.objects, places]
      exact List.pairwise_pair.mpr fun hhash => derived.sketch_ahead wp posed hhash
    · intro x hx _ digest
      rw [places, List.mem_cons, List.mem_singleton] at hx
      rcases hx with rfl | rfl <;> cases digest

end Plan

/-- Where another pass is offered, the pipeline has one proposal for the node, which is refused in
this pass as depending on itself, or for its stage, or for want of a later one. In the new pass it
is granted if there is room for its objects, and only then. -/
theorem offered_pass_mends_all_but_room {kinds : List NodeKind} {root : NodeId} {g : Graph}
    {c : Config} {problem : Problem} {choices : List Choice} {plan : Plan} {supply after : Supply}
    {e : Expansion} {candidate : Candidate} (accepted : Graph.ofKinds kinds root = .ok g)
    (posed : Problem.ofConfig g c = .ok problem) (derived : Derives problem choices plan)
    (expanded : (Technique.mk .switch .recirculate).expand problem plan supply = .ok (e, after))
    (offered : candidate ∈ e.candidates) :
    ∃ leaf rest t p refusal, plan.leaves = leaf :: rest ∧ leaf.target = .switch ∧
      plan.Drafts problem leaf t p ∧ (∀ u q, plan.Drafts problem leaf u q → u = t ∧ q = p) ∧
      p.probe plan.resources leaf.passDeps = .error refusal ∧ refusal.fixedByNewPass = true ∧
      ((∃ stages, p.probe plan.resources ∅ = .ok stages) ↔
        ∀ x ∈ p.placements, plan.resources.takes x.1 x.2 = true) := by
  have wp := Problem.wellPosed_of_ofConfig accepted posed
  cases active : plan.leaves with
  | nil =>
    rw [Technique.expand, Plan.activeLeaf?, active] at expanded
    cases expanded
    exact absurd offered List.not_mem_nil
  | cons leaf rest =>
    have applies : (Technique.mk .switch .recirculate).Applies problem plan :=
      ⟨supply, after, e, expanded, List.ne_nil_of_mem offered⟩
    obtain ⟨onSwitch, t, p, draft, asks, refusal, refused, fixable⟩ :=
      Plan.exists_blocked_draft (derived.stocked wp posed) active applies
    have hleaf : leaf ∈ plan.leaves := active ▸ List.mem_cons_self
    exact ⟨leaf, rest, t, p, refusal, rfl, onSwitch, draft, fun u q => draft.unique asks, refused,
      fixable, draft.probe_iff_takes wp posed derived hleaf refused fixable⟩

/-- The second lookup of a table is refused in the pass of the first one. There is room for it, so
it passes a probe without what was met. -/
theorem second_lookup_passes_when_met_anew :
    ∃ g problem plan leaf t p refusal e after candidate, Graph.ofKinds lookupTwice 3 = .ok g ∧
      Problem.ofConfig g {} = .ok problem ∧
      Derives problem [(⟨.switch, .tableLookup⟩, 0), (⟨.switch, .allocate⟩, 0)] plan ∧
      (Technique.mk .switch .recirculate).expand problem plan {} = .ok (e, after) ∧
      candidate ∈ e.candidates ∧ plan.leaves = [leaf] ∧ plan.Drafts problem leaf t p ∧
      p.probe plan.resources leaf.passDeps = .error refusal ∧
      ∃ stages, p.probe plan.resources ∅ = .ok stages := by
  obtain ⟨g, accepted⟩ : ∃ g, Graph.ofKinds lookupTwice 3 = .ok g := ⟨_, rfl⟩
  obtain ⟨problem, posed, plan, derived, leaf, hleaf, e, after, candidate, expanded, offered, t, p,
      draft, hroom⟩ :
      ∃ problem, Problem.ofConfig g {} = .ok problem ∧ ∃ plan,
        Derives problem [(⟨.switch, .tableLookup⟩, 0), (⟨.switch, .allocate⟩, 0)] plan ∧
        ∃ leaf, plan.leaves = [leaf] ∧ ∃ e after candidate,
          (Technique.mk .switch .recirculate).expand problem plan {} = .ok (e, after) ∧
          candidate ∈ e.candidates ∧ ∃ t p, plan.Drafts problem leaf t p ∧
            ∀ x ∈ p.placements, plan.resources.takes x.1 x.2 = true := by
    cases accepted
    exact ⟨_, rfl, _, derives_of_replay rfl, _, rfl, _, _, _, rfl, List.mem_cons_self,
      ⟨.switch, .tableLookup⟩, _, ⟨by decide, rfl, _, rfl, List.mem_cons_self⟩,
      List.forall_mem_singleton.mpr rfl⟩
  obtain ⟨leaf', rest, u, q, refusal, active, _, draft', hunique, refused, _, hiff⟩ :=
    offered_pass_mends_all_but_room accepted posed derived expanded offered
  cases hleaf.symm.trans active
  obtain ⟨rfl, rfl⟩ := hunique t p draft
  exact ⟨g, problem, plan, leaf, t, p, refusal, e, after, candidate, accepted, posed, derived,
    expanded, offered, hleaf, draft, refused, hiff.mpr hroom⟩

def lookupBoth : List NodeKind :=
  let keyed (addr : Addr) : OrdMap String Expr :=
    .ofList [("obj", .addr addr), ("key", .term "k" 8)]
  [.terminal .drop,
    .call { function := "map_get", args := keyed ⟨2⟩, next := some 0 },
    .call { function := "map_get", args := keyed ⟨1⟩, next := some 1 },
    .call { function := "map_allocate", args := .ofList [("obj", .addr ⟨2⟩)], next := some 2 },
    .call { function := "map_allocate", args := .ofList [("obj", .addr ⟨1⟩)], next := some 3 }]

/-- The only stage takes one table. For the other there is none, in this pass or in any other, but
another pass is offered. -/
theorem pass_offered_without_room :
    ∃ g problem plan leaf candidate after, Graph.ofKinds lookupBoth 4 = .ok g ∧
      Problem.ofConfig g { switch := { stages := 1, logicalIdsPerStage := 1 } } = .ok problem ∧
      Derives problem [(⟨.switch, .tableLookup⟩, 0), (⟨.switch, .allocate⟩, 0),
        (⟨.switch, .allocate⟩, 0)] plan ∧
      plan.leaves = [leaf] ∧
      (Technique.mk .switch .recirculate).expand problem plan {} =
        .ok ({ candidates := [candidate] }, after) ∧
      ∀ t p, plan.Drafts problem leaf t p →
        p.probe plan.resources leaf.passDeps = .error (.noStageAvailable ⟨⟨2⟩, .table⟩ 1) ∧
        p.probe plan.resources ∅ = .error (.noStageAvailable ⟨⟨2⟩, .table⟩ 0) := by
  obtain ⟨g, accepted⟩ : ∃ g, Graph.ofKinds lookupBoth 4 = .ok g := ⟨_, rfl⟩
  obtain ⟨problem, posed, plan, derived, leaf, hleaf, candidate, after, expanded, p, draft, asks,
      refused, lacks⟩ :
      ∃ problem, Problem.ofConfig g { switch := { stages := 1, logicalIdsPerStage := 1 } } =
        .ok problem ∧ ∃ plan,
        Derives problem [(⟨.switch, .tableLookup⟩, 0), (⟨.switch, .allocate⟩, 0),
          (⟨.switch, .allocate⟩, 0)] plan ∧
        ∃ leaf, plan.leaves = [leaf] ∧ ∃ candidate after,
          (Technique.mk .switch .recirculate).expand problem plan {} =
            .ok ({ candidates := [candidate] }, after) ∧
          ∃ p, plan.Drafts problem leaf ⟨.switch, .tableLookup⟩ p ∧ p.placements ≠ [] ∧
            p.probe plan.resources leaf.passDeps = .error (.noStageAvailable ⟨⟨2⟩, .table⟩ 1) ∧
            p.probe plan.resources ∅ = .error (.noStageAvailable ⟨⟨2⟩, .table⟩ 0) := by
    cases accepted
    exact ⟨_, rfl, _, derives_of_replay rfl, _, rfl, _, _, rfl, _,
      ⟨by decide, rfl, _, rfl, List.mem_cons_self⟩, List.cons_ne_nil _ _, rfl, rfl⟩
  refine ⟨g, problem, plan, leaf, candidate, after, accepted, posed, derived, hleaf, expanded, ?_⟩
  intro t q h
  obtain ⟨_, rfl⟩ := draft.unique asks h
  exact ⟨refused, lacks⟩

end PacketPlan
