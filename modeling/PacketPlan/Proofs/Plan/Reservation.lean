import Mathlib.Data.List.Dedup
import PacketPlan.Proofs.Pipeline.Load
import PacketPlan.Proofs.Plan.Growth

/-! # A plan reserves what its modules need

The pipeline of a plan is the empty one after the demands of the plan's modules were served, in the
order of the modules, and nothing else. Conservation then says what is placed, how much each object
holds and how many slots for digests are taken. A candidate that is refused midway is served in a
pipeline of its own, which no other plan has seen.
-/
namespace PacketPlan

namespace Pipeline

/-- The second pipeline comes of the first by placing these objects one after the other, each behind
what it depends on. -/
inductive Serves : Pipeline → List (SwitchObject × Demand) → Pipeline → Prop
  | nil {p : Pipeline} : Serves p [] p
  | cons {p q r : Pipeline} {o : SwitchObject} {d : Demand} {deps : ObjectSet} {stage : Nat}
      {ds : List (SwitchObject × Demand)} (accepted : p.place o d deps = .ok (stage, q))
      (rest : Serves q ds r) : Serves p ((o, d) :: ds) r

theorem Serves.append {p q r : Pipeline} {ds ds' : List (SwitchObject × Demand)}
    (h : p.Serves ds q) (h' : q.Serves ds' r) : p.Serves (ds ++ ds') r := by
  induction h with
  | nil => exact h'
  | cons accepted _ ih => exact .cons accepted (ih h')

theorem serves_of_placeFrom {p : Proposal} {deps : ObjectSet} {placed : List SwitchObject}
    {r after : Pipeline} {ds : List (SwitchObject × Demand)} {stages : List Nat}
    (h : p.placeFrom deps placed r ds = .ok (stages, after)) : r.Serves ds after := by
  induction ds generalizing placed r stages with
  | nil =>
    cases h
    exact .nil
  | cons d ds ih =>
    obtain ⟨⟨stage, next⟩, hplace, h⟩ := bind_eq_ok.mp h
    obtain ⟨⟨others, last⟩, hothers, h⟩ := bind_eq_ok.mp h
    cases h
    exact .cons hplace (ih hothers)

/-- Demands that are served make nothing easier for others, if all agree on what is a digest. -/
theorem Serves.easier {p q : Pipeline} {ds : List (SwitchObject × Demand)} (h : p.Serves ds q)
    (hp : p.Indexed) {x : SwitchObject} {e : Demand}
    (alike : ∀ y ∈ ds, x = y.1 → e.isDigest = y.2.isDigest) : p.Lighter q ∧ p.Easier q x e := by
  induction h with
  | nil => exact ⟨.refl _, .refl hp x e⟩
  | cons accepted _ ih =>
    obtain ⟨located, hl, _, rfl⟩ := placeWithin_eq_ok accepted
    obtain ⟨hfirst, hothers⟩ := List.forall_mem_cons.mp alike
    have lighter := lighter_commit hp hl
    obtain ⟨hlighter, heasier⟩ := ih (commit_indexed hp) hothers
    exact ⟨lighter.trans hlighter, (easier_commit hp hl hfirst).trans heasier lighter⟩

/-- What an account has accepted, without the dependencies. -/
def Account.served (a : Account) : List (SwitchObject × Demand) :=
  a.accepted.map fun r => (r.object, r.demand)

theorem Serves.balanced {c : SwitchConfig} {p q : Pipeline} {ds : List (SwitchObject × Demand)}
    (h : p.Serves ds q) {a : Account} (ha : a.pipeline = p) (hb : a.Balanced c) :
    ∃ b : Account, b.pipeline = q ∧ b.Balanced c ∧ b.served = a.served ++ ds := by
  induction h generalizing a with
  | nil => exact ⟨a, ha, hb, (List.append_nil _).symm⟩
  | @cons p q r o d deps stage ds accepted rest ih =>
    have hattempt : a.pipeline.attempt { object := o, demand := d, deps } = .ok (stage, q) := by
      rw [ha]
      exact accepted
    obtain ⟨b, hpipeline, hbalanced, hserved⟩ := ih rfl (hb.accept hattempt)
    refine ⟨b, hpipeline, hbalanced, ?_⟩
    rw [hserved, Account.accept, Account.served, List.map_append, List.append_assoc]
    rfl

end Pipeline

def demandsFor (o : SwitchObject) (ds : List (SwitchObject × Demand)) : List Demand :=
  (ds.filter fun e => e.1 = o).map Prod.snd

theorem mem_demandsFor {o : SwitchObject} {d : Demand} {ds : List (SwitchObject × Demand)} :
    d ∈ demandsFor o ds ↔ (o, d) ∈ ds := by
  simp only [demandsFor, List.mem_map, List.mem_filter, decide_eq_true_eq]
  constructor
  · rintro ⟨⟨o', d'⟩, ⟨hmem, rfl⟩, rfl⟩
    exact hmem
  · intro hmem
    exact ⟨(o, d), ⟨hmem, rfl⟩, rfl⟩

theorem demandsFor_eq_nil {o : SwitchObject} {ds : List (SwitchObject × Demand)} :
    demandsFor o ds = [] ↔ o ∉ ds.map Prod.fst := by
  constructor
  · intro hnil ho
    obtain ⟨⟨o', d⟩, hmem, rfl⟩ := List.mem_map.mp ho
    have hd := mem_demandsFor.mpr hmem
    rw [hnil] at hd
    cases hd
  · intro ho
    rw [List.eq_nil_iff_forall_not_mem]
    intro d hd
    exact ho (List.mem_map_of_mem (mem_demandsFor.mp hd))

theorem Pipeline.Account.demandsOn_eq (a : Account) (o : SwitchObject) :
    a.demandsOn o = demandsFor o a.served := by
  unfold demandsOn demandsFor served
  rw [List.filter_map, List.map_map]
  rfl

def Module.learned? (m : Module) : Option Addr :=
  match m.action with
  | .tableLearn table _ _ => some table
  | _ => none

theorem Module.mem_objects_digest {m : Module} {table : Addr}
    (listed : m.kind ∈ Technique.kinds m.target) :
    ⟨table, .digest⟩ ∈ m.objects ↔ m.learned? = some table := by
  rcases m with ⟨target, node, action⟩
  cases action with
  | tableLearn learned key value =>
    have hswitch : target = .switch := by
      cases target with
      | switch => rfl
      | controller | host => simp [Module.kind, Action.kind, Technique.kinds] at listed
    simp [Module.objects, Action.objects, Module.learned?, hswitch, eq_comm]
  | _ =>
    simp only [Module.learned?, Module.objects, Action.objects, reduceCtorEq, iff_false]
    split <;> simp

namespace Plan

def demands (g : Graph) (plan : Plan) : List (SwitchObject × Demand) :=
  plan.modules.flatMap (Module.demands g)

theorem mem_map_fst_demands {g : Graph} {plan : Plan} {o : SwitchObject} :
    o ∈ (plan.demands g).map Prod.fst ↔ ∃ m ∈ plan.modules, o ∈ m.objects := by
  rw [demands, List.map_flatMap, List.mem_flatMap]
  simp only [Module.map_fst_demands]

theorem isDigest_of_mem_demands {g : Graph} {plan : Plan} {e : SwitchObject × Demand}
    (h : e ∈ plan.demands g) : e.2.isDigest = decide (e.1.role = .digest) := by
  obtain ⟨m, _, hm⟩ := List.mem_flatMap.mp h
  exact Module.isDigest_of_mem_demands hm

theorem Grows.serves {problem : Problem} {plan after : Plan} (h : Grows problem plan after) :
    ∃ new, after.modules = plan.modules ++ new ∧ (∀ m ∈ new, m.kind ∈ Technique.kinds m.target) ∧
      plan.resources.Serves (new.flatMap (Module.demands problem.graph)) after.resources := by
  cases h with
  | still modules _ resources =>
    refine ⟨[], by rw [modules, List.append_nil], nofun, ?_⟩
    rw [resources]
    exact .nil
  | @adds leaf rest node a p stages _ _ _ listed _ _ _ places placed modules =>
    refine ⟨[⟨leaf.target, leaf.next, a⟩], modules, ?_, ?_⟩
    · intro m hm
      cases List.mem_singleton.mp hm
      exact listed
    · rw [List.flatMap_singleton, ← places]
      exact Pipeline.serves_of_placeFrom placed

/-- The pipeline of the plan has served the demands of the plan's modules, which are all of a kind
that their target knows. -/
structure Reserved (problem : Problem) (plan : Plan) : Prop where
  serves : problem.platform.baseline.Serves (plan.demands problem.graph) plan.resources
  listed : ∀ m ∈ plan.modules, m.kind ∈ Technique.kinds m.target

theorem Reserved.grows {problem : Problem} {plan after : Plan} (h : Reserved problem plan)
    (grows : Grows problem plan after) : Reserved problem after := by
  obtain ⟨new, hmodules, hlisted, hserves⟩ := grows.serves
  constructor
  · rw [demands, hmodules, List.flatMap_append]
    exact h.serves.append hserves
  · intro m hm
    rw [hmodules] at hm
    rcases List.mem_append.mp hm with hm | hm
    · exact h.listed m hm
    · exact hlisted m hm

end Plan

open Plan

theorem Derives.reserved {problem : Problem} {choices : List Choice} {plan : Plan}
    (h : Derives problem choices plan) : Reserved problem plan := by
  apply h.invariant
  · exact fun id => ⟨.nil, nofun⟩
  · exact fun reserved step => reserved.grows (grows_of_step step)

section reserved
variable {problem : Problem} {plan : Plan} {c : SwitchConfig}

theorem Plan.Reserved.account (h : Reserved problem plan)
    (baseline : problem.platform.baseline = .ofConfig c) :
    ∃ a : Pipeline.Account, a.pipeline = plan.resources ∧ a.Balanced c ∧
      a.served = plan.demands problem.graph := by
  have hserves := h.serves
  rw [baseline] at hserves
  exact hserves.balanced (a := ⟨.ofConfig c, []⟩) rfl (Pipeline.Account.balanced_empty c)

theorem Plan.Reserved.isPlaced_iff (h : Reserved problem plan)
    (baseline : problem.platform.baseline = .ofConfig c) (o : SwitchObject) :
    plan.resources.isPlaced o = true ↔ ∃ m ∈ plan.modules, o ∈ m.objects := by
  obtain ⟨a, hpipeline, hbalanced, hserved⟩ := h.account baseline
  have hdemanded := hbalanced.demanded o
  rw [Pipeline.Account.demandsOn_eq, hserved, hpipeline, demandsFor_eq_nil, mem_map_fst_demands]
    at hdemanded
  rw [Pipeline.isPlaced, OrdMap.contains, Option.isSome_iff_ne_none, Ne, ← hdemanded, not_not]

/-- An object holds the most that its modules ask for in each dimension. -/
theorem Plan.Reserved.footprint (h : Reserved problem plan)
    (baseline : problem.platform.baseline = .ofConfig c) {o : SwitchObject} {placed : Placement}
    (hplaced : plan.resources.placements.get? o = some placed) :
    (∀ d ∈ demandsFor o (plan.demands problem.graph), d.footprint?.isSome) ∧
      placed.footprint = ((demandsFor o (plan.demands problem.graph)).filterMap
        Demand.footprint?).foldl max {} := by
  obtain ⟨a, hpipeline, hbalanced, hserved⟩ := h.account baseline
  constructor
  · intro d hd
    rw [mem_demandsFor, ← hserved] at hd
    obtain ⟨r, hr, he⟩ := List.mem_map.mp hd
    cases he
    exact hbalanced.measured r hr
  · rw [← hpipeline] at hplaced
    rw [hbalanced.peaks o placed hplaced, Pipeline.Account.peak, Pipeline.Account.demandsOn_eq,
      hserved]

theorem Plan.Reserved.openedByDigest_iff {a : Pipeline.Account} {o : SwitchObject}
    (hbalanced : a.Balanced c) (hserved : a.served = plan.demands problem.graph)
    (ho : o ∈ a.pipeline.placements.keys) :
    a.openedByDigest o = true ↔ decide (o.role = .digest) = true := by
  obtain ⟨placed, hplaced⟩ := OrdMap.exists_get?_of_mem_keys ho
  cases hd : a.demandsOn o with
  | nil =>
    rw [(hbalanced.demanded o).mp hd] at hplaced
    cases hplaced
  | cons d ds =>
    have hmem : d ∈ a.demandsOn o := by
      rw [hd]
      exact List.mem_cons_self
    rw [Pipeline.Account.demandsOn_eq, mem_demandsFor, hserved] at hmem
    rw [Pipeline.Account.openedByDigest, hd, ← isDigest_of_mem_demands hmem]
    rfl

theorem Plan.Reserved.digests (h : Reserved problem plan)
    (baseline : problem.platform.baseline = .ofConfig c) :
    plan.resources.digests + (plan.modules.filterMap Module.learned?).dedup.length =
      c.digestSlots := by
  obtain ⟨a, hpipeline, hbalanced, hserved⟩ := h.account baseline
  have hcount := List.countP_congr fun o ho =>
    Plan.Reserved.openedByDigest_iff (o := o) hbalanced hserved ho
  have hslots := hbalanced.digests
  rw [hcount, List.countP_eq_length_filter, hpipeline] at hslots
  have hnodup : plan.resources.placements.keys.Nodup := by
    rw [← hpipeline]
    exact hbalanced.ascending.nodup_keys
  -- the digests that are placed are those of the learned tables, each once
  have htables : ((plan.resources.placements.keys.filter fun o => decide (o.role = .digest)).map
      SwitchObject.addr).Perm (plan.modules.filterMap Module.learned?).dedup := by
    rw [List.perm_ext_iff_of_nodup _ (List.nodup_dedup _)]
    · intro table
      have hplaced := h.isPlaced_iff baseline ⟨table, .digest⟩
      rw [Pipeline.isPlaced, ← OrdMap.mem_keys_iff] at hplaced
      rw [List.mem_dedup, List.mem_filterMap, List.mem_map]
      constructor
      · rintro ⟨⟨addr, role⟩, ho, rfl⟩
        obtain ⟨ho, hrole⟩ := List.mem_filter.mp ho
        cases of_decide_eq_true hrole
        obtain ⟨m, hm, hobject⟩ := hplaced.mp ho
        exact ⟨m, hm, (Module.mem_objects_digest (h.listed m hm)).mp hobject⟩
      · rintro ⟨m, hm, hlearned⟩
        have hobject := (Module.mem_objects_digest (h.listed m hm)).mpr hlearned
        exact ⟨⟨table, .digest⟩, List.mem_filter.mpr ⟨hplaced.mpr ⟨m, hm, hobject⟩, rfl⟩, rfl⟩
    · refine (hnodup.filter _).map_on ?_
      rintro ⟨addr, role⟩ ho ⟨addr', role'⟩ ho' rfl
      cases of_decide_eq_true (List.mem_filter.mp ho).2
      cases of_decide_eq_true (List.mem_filter.mp ho').2
      rfl
  rw [← htables.length_eq, List.length_map]
  exact hslots

end reserved

/-- The pipeline of a derived plan has served the demands of the plan's modules, in their order, and
nothing else. So the objects that are placed are those that some module meets, each holds the most
that its modules ask for in each dimension, and a slot for digests is taken for each table that is
learned. A candidate of the plan adds the demands of its own new module to the pipeline of the plan,
whatever has become of the other candidates. -/
theorem plan_reserves_what_modules_need {g : Graph} {c : Config} {problem : Problem}
    {choices : List Choice} {plan : Plan} (posed : Problem.ofConfig g c = .ok problem)
    (derived : Derives problem choices plan) :
    (Pipeline.ofConfig c.switch).Serves (plan.demands g) plan.resources ∧
      (∀ o, plan.resources.isPlaced o = true ↔ ∃ n ∈ plan.nodes, o ∈ n.module.objects) ∧
      (∀ o placed, plan.resources.placements.get? o = some placed →
        (∀ d ∈ demandsFor o (plan.demands g), d.footprint?.isSome) ∧
        placed.footprint =
          ((demandsFor o (plan.demands g)).filterMap Demand.footprint?).foldl max {}) ∧
      plan.resources.digests + (plan.nodes.filterMap fun n => n.module.learned?).dedup.length =
        c.switch.digestSlots ∧
      ∀ t ∈ problem.techniques, ∀ supply e after, t.expand problem plan supply = .ok (e, after) →
        ∀ candidate ∈ e.candidates, ∃ new, candidate.plan.modules = plan.modules ++ new ∧
          plan.resources.Serves (new.flatMap (Module.demands g)) candidate.plan.resources := by
  have hproblem := Problem.eq_of_ofConfig posed
  have hgraph : problem.graph = g := by rw [hproblem]
  have baseline : problem.platform.baseline = .ofConfig c.switch := by rw [hproblem]
  have reserved := derived.reserved
  refine ⟨?_, ?_, ?_, ?_, ?_⟩
  · have hserves := reserved.serves
    rw [baseline, hgraph] at hserves
    exact hserves
  · intro o
    rw [reserved.isPlaced_iff baseline o, Plan.modules]
    simp only [List.mem_map, exists_exists_and_eq_and]
  · intro o placed hplaced
    have hfootprint := reserved.footprint baseline hplaced
    rw [hgraph] at hfootprint
    exact hfootprint
  · have hdigests := reserved.digests baseline
    rw [Plan.modules, List.filterMap_map] at hdigests
    exact hdigests
  · intro t known supply e after expanded candidate hcandidate
    have hstep := Technique.step_of_expand known expanded hcandidate
    obtain ⟨new, hmodules, _, hserves⟩ := (grows_of_step hstep).serves
    rw [hgraph] at hserves
    exact ⟨new, hmodules, hserves⟩

def learnThenSketch : List NodeKind :=
  let keyed (addr : Addr) : OrdMap String Expr :=
    .ofList [("obj", .addr addr), ("key", .term "k" 8), ("value", .term "v" 16)]
  [.terminal .drop,
    .call { function := "cms_increment", args := keyed ⟨2⟩, next := some 0 },
    .call { function := "map_get", args := keyed ⟨1⟩, next := some 1 },
    .call { function := "map_put", args := keyed ⟨1⟩, next := some 2 },
    .call { function := "cms_allocate", args := .ofList [("obj", .addr ⟨2⟩)], next := some 3 },
    .call { function := "map_allocate", args := .ofList [("obj", .addr ⟨1⟩)], next := some 4 }]

def threeStages : Config where
  switch := { stages := 3 }

/-- On three stages the digest and the table leave one for the sketch. Its hash unit takes it and
its registers are refused, but the plan that is handed over instead has placed neither. -/
theorem refused_sketch_leaves_no_trace :
    ∃ g problem before plan after, Graph.ofKinds learnThenSketch 5 = .ok g ∧
      Problem.ofConfig g threeStages = .ok problem ∧
      Derives problem [(⟨.switch, .tableLookup⟩, 0), (⟨.switch, .tableLearn⟩, 0),
        (⟨.switch, .allocate⟩, 0), (⟨.switch, .allocate⟩, 0)] before ∧
      (Technique.mk .switch .sketchUpdate).expand problem before {} =
        .ok ({ pruned := [.noStageAvailable ⟨⟨2⟩, .register⟩ 3] }, after) ∧
      Derives problem [(⟨.switch, .sendToController⟩, 0), (⟨.switch, .tableLookup⟩, 0),
        (⟨.switch, .tableLearn⟩, 0), (⟨.switch, .allocate⟩, 0), (⟨.switch, .allocate⟩, 0)] plan ∧
      plan.resources.isPlaced ⟨⟨2⟩, .hash⟩ = false ∧ plan.resources.digests + 1 = 8 := by
  obtain ⟨g, accepted⟩ : ∃ g, Graph.ofKinds learnThenSketch 5 = .ok g := ⟨_, rfl⟩
  obtain ⟨problem, posed, before, after, plan, hbefore, refused, derived, hobjects, hlearned⟩ :
      ∃ problem, Problem.ofConfig g threeStages = .ok problem ∧ ∃ before after plan,
        Derives problem [(⟨.switch, .tableLookup⟩, 0), (⟨.switch, .tableLearn⟩, 0),
          (⟨.switch, .allocate⟩, 0), (⟨.switch, .allocate⟩, 0)] before ∧
        (Technique.mk .switch .sketchUpdate).expand problem before {} =
          .ok ({ pruned := [.noStageAvailable ⟨⟨2⟩, .register⟩ 3] }, after) ∧
        Derives problem [(⟨.switch, .sendToController⟩, 0), (⟨.switch, .tableLookup⟩, 0),
          (⟨.switch, .tableLearn⟩, 0), (⟨.switch, .allocate⟩, 0), (⟨.switch, .allocate⟩, 0)] plan ∧
        (plan.nodes.flatMap fun n => n.module.objects) = [⟨⟨1⟩, .digest⟩, ⟨⟨1⟩, .table⟩] ∧
        (plan.nodes.filterMap fun n => n.module.learned?) = [⟨1⟩] := by
    cases accepted
    exact ⟨_, rfl, _, _, _, derives_of_replay rfl, rfl, derives_of_replay rfl, rfl, rfl⟩
  obtain ⟨_, hplaced, _, hdigests, _⟩ := plan_reserves_what_modules_need posed derived
  rw [hlearned] at hdigests
  refine ⟨g, problem, before, plan, after, accepted, posed, hbefore, refused, derived, ?_, hdigests⟩
  rw [Bool.eq_false_iff, Ne, hplaced, ← List.mem_flatMap, hobjects]
  decide

end PacketPlan
