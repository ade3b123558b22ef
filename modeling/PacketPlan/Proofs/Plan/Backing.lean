import PacketPlan.Proofs.Plan.Consistency
import PacketPlan.Proofs.Plan.Reservation

/-! # What backs an object in switch memory

The pipeline holds the data of an object in switch memory exactly if the switch itself works on the
data somewhere in the plan. Nothing is placed for what the controller does, and a switch that learns
an entry sends a digest and leaves the table alone. So a finished plan may have bound an object to a
table that is nowhere in the pipeline.
-/
namespace PacketPlan

/-- The objects of the pipeline that hold the data, by their roles. -/
def Representation.backing : Representation → List Role
  | exactMatchTable => [.table]
  | registerArray => [.register]
  | countMinSketch => [.hash, .register]
  | inMemoryMap | inMemoryVector | inMemoryDchain | inMemorySketch => []

theorem Representation.ne_digest_of_mem_backing {r : Representation} {role : Role}
    (h : role ∈ r.backing) : role ≠ .digest := by
  rintro rfl
  cases r <;> simp [backing] at h

theorem Representation.target_of_inSwitch {r : Representation} {t : Target}
    (resident : r.inSwitch = true) (h : r.accessibleFrom.contains t = true) :
    t = .switch ∨ t = .controller := by
  rw [accessibleFrom, if_pos resident] at h
  revert h
  cases t <;> decide

/-- The module works on the data of the object in the switch. One that learns an entry does not: the
entry is installed from outside. -/
structure Module.Drives (m : Module) (object : Addr) : Prop where
  onSwitch : m.target = .switch
  direct : m.kind ≠ .tableLearn
  accesses : ∃ x ∈ m.action.accesses, x.object = object

def Plan.Drives (plan : Plan) (object : Addr) : Prop := ∃ n ∈ plan.nodes, n.module.Drives object

def Plan.Backs (plan : Plan) (object : Addr) (r : Representation) : Prop :=
  ∀ role ∈ r.backing, plan.resources.isPlaced ⟨object, role⟩ = true

namespace Module

theorem mem_objects_of_access {m : Module} (listed : m.kind ∈ Technique.kinds m.target)
    (onSwitch : m.target = .switch) (direct : m.kind ≠ .tableLearn) {x : Access}
    (hx : x ∈ m.action.accesses) {r : Representation} (hr : r ∈ x.container.candidates .switch)
    {role : Role} (hrole : role ∈ r.backing) : ⟨x.object, role⟩ ∈ m.objects := by
  rcases m with ⟨target, node, action⟩
  cases onSwitch
  rw [Module.objects, if_pos rfl]
  cases action with
  | tableLookup | registerRead | registerWrite | sketchUpdate | sketchQuery =>
    cases List.mem_singleton.mp hx
    cases List.mem_singleton.mp hr
    simpa [Action.objects, Representation.backing] using hrole
  | tableLearn => exact absurd rfl direct
  | parseHeader | branch | route | sendToController | allocate => cases hx
  | _ => simp [Module.kind, Action.kind, Technique.kinds] at listed

/-- What is in the pipeline for a module, a digest apart, is what the module works on. -/
theorem drives_of_mem_objects {m : Module} {object : Addr} {role : Role}
    (h : ⟨object, role⟩ ∈ m.objects) (hrole : role ≠ .digest) : m.Drives object := by
  rcases m with ⟨target, node, action⟩
  unfold Module.objects at h
  split at h
  · rename_i onSwitch
    cases action with
    | tableLookup | registerRead | registerWrite =>
      cases List.mem_singleton.mp h
      exact ⟨onSwitch, by simp [Module.kind, Action.kind], _, List.mem_singleton_self _, rfl⟩
    | sketchUpdate | sketchQuery =>
      simp only [Action.objects, List.mem_cons, List.not_mem_nil, or_false,
        SwitchObject.mk.injEq] at h
      have hobject := h.elim And.left And.left
      exact ⟨onSwitch, by simp [Module.kind, Action.kind], _, List.mem_singleton_self _,
        hobject.symm⟩
    | tableLearn =>
      cases List.mem_singleton.mp h
      exact absurd rfl hrole
    | _ => cases h
  · cases h

theorem learned?_of_access {m : Module} (hlearns : m.kind = .tableLearn) {x : Access}
    (hx : x ∈ m.action.accesses) : m.learned? = some x.object := by
  rcases m with ⟨target, node, action⟩
  cases action with
  | tableLearn =>
    cases List.mem_singleton.mp hx
    rfl
  | _ => cases hlearns

end Module

open Plan

theorem Plan.Agreed.isPlaced_iff_drives {problem : Problem} {plan : Plan} {c : SwitchConfig}
    (agreed : Agreed problem plan) (reserved : Reserved problem plan)
    (baseline : problem.platform.baseline = .ofConfig c) {object : Addr} {r : Representation}
    (bound : plan.bindings.get? object = some r) {role : Role} (hrole : role ∈ r.backing) :
    plan.resources.isPlaced ⟨object, role⟩ = true ↔ plan.Drives object := by
  rw [reserved.isPlaced_iff baseline]
  constructor
  · rintro ⟨m, hm, hobject⟩
    obtain ⟨n, hn, rfl⟩ := List.mem_map.mp hm
    exact ⟨n, hn, Module.drives_of_mem_objects hobject
      (Representation.ne_digest_of_mem_backing hrole)⟩
  · rintro ⟨n, hn, onSwitch, direct, x, hx, rfl⟩
    have hm : n.module ∈ plan.modules := List.mem_map_of_mem hn
    refine ⟨n.module, hm, ?_⟩
    obtain ⟨r', hr', hcandidate, _⟩ := agreed.reached n.module hm x hx
    cases bound.symm.trans hr'
    rw [onSwitch] at hcandidate
    exact Module.mem_objects_of_access (reserved.listed _ hm) onSwitch direct hx hcandidate hrole

/-- In a derived plan, a module that works on an object in switch memory is on the switch or on the
controller. If it is on the switch and does more than to learn an entry, all that holds the data is
in the pipeline. If it learns an entry, a digest is. In any case each part that holds the data is
placed exactly if some module on the switch works on the data. -/
theorem switch_memory_backed_iff_driven {kinds : List NodeKind} {root : NodeId} {g : Graph}
    {c : Config} {problem : Problem} {choices : List Choice} {plan : Plan}
    (accepted : Graph.ofKinds kinds root = .ok g) (posed : Problem.ofConfig g c = .ok problem)
    (derived : Derives problem choices plan) :
    ∀ n ∈ plan.nodes, ∀ x ∈ n.module.action.accesses, ∀ r,
      plan.bindings.get? x.object = some r → r.inSwitch = true →
      (n.module.target = .switch ∨ n.module.target = .controller) ∧
        (n.module.target = .switch → n.module.kind ≠ .tableLearn → plan.Backs x.object r) ∧
        (n.module.kind = .tableLearn → plan.resources.isPlaced ⟨x.object, .digest⟩ = true) ∧
        ∀ role ∈ r.backing,
          plan.resources.isPlaced ⟨x.object, role⟩ = true ↔ plan.Drives x.object := by
  have wp := Problem.wellPosed_of_ofConfig accepted posed
  have hproblem := Problem.eq_of_ofConfig posed
  have hgraph : problem.graph = g := by rw [hproblem]
  have baseline : problem.platform.baseline = .ofConfig c.switch := by rw [hproblem]
  have agreed := derived.agreed (hgraph ▸ accepted) wp
  have reserved := derived.reserved
  intro n hn x hx r bound resident
  have hm : n.module ∈ plan.modules := List.mem_map_of_mem hn
  have hiff : ∀ role ∈ r.backing,
      plan.resources.isPlaced ⟨x.object, role⟩ = true ↔ plan.Drives x.object :=
    fun role hrole => agreed.isPlaced_iff_drives reserved baseline bound hrole
  refine ⟨?_, ?_, ?_, hiff⟩
  · obtain ⟨r', hr', hcandidate, _⟩ := agreed.reached n.module hm x hx
    cases bound.symm.trans hr'
    exact Representation.target_of_inSwitch resident (Container.mem_candidates hcandidate).2
  · intro onSwitch direct role hrole
    exact (hiff role hrole).mpr ⟨n, hn, onSwitch, direct, x, hx, rfl⟩
  · intro hlearns
    rw [reserved.isPlaced_iff baseline]
    refine ⟨n.module, hm, (Module.mem_objects_digest (reserved.listed _ hm)).mpr ?_⟩
    exact Module.learned?_of_access hlearns hx

/-- The switch looks a table up before the controller does, so that it is there for both. -/
theorem handed_over_table_is_backed :
    ∃ g problem plan n, Graph.ofKinds lookupTwice 3 = .ok g ∧
      Problem.ofConfig g {} = .ok problem ∧
      Derives problem [(⟨.controller, .route⟩, 0), (⟨.controller, .mapGet⟩, 0),
        (⟨.switch, .sendToController⟩, 0), (⟨.switch, .tableLookup⟩, 0),
        (⟨.switch, .allocate⟩, 0)] plan ∧
      plan.leaves = [] ∧ plan.nodes[3]? = some n ∧ n.module.target = .controller ∧
      n.module.action.accesses = [⟨⟨1⟩, .map, some .exactMatchTable⟩] ∧
      plan.resources.isPlaced ⟨⟨1⟩, .table⟩ = true := by
  obtain ⟨g, accepted⟩ : ∃ g, Graph.ofKinds lookupTwice 3 = .ok g := ⟨_, rfl⟩
  obtain ⟨problem, posed, plan, derived, finished, n, hn, onController, haccesses, bound, driven⟩ :
      ∃ problem, Problem.ofConfig g {} = .ok problem ∧ ∃ plan,
        Derives problem [(⟨.controller, .route⟩, 0), (⟨.controller, .mapGet⟩, 0),
          (⟨.switch, .sendToController⟩, 0), (⟨.switch, .tableLookup⟩, 0),
          (⟨.switch, .allocate⟩, 0)] plan ∧ plan.leaves = [] ∧ ∃ n, plan.nodes[3]? = some n ∧
        n.module.target = .controller ∧
        n.module.action.accesses = [⟨⟨1⟩, .map, some .exactMatchTable⟩] ∧
        plan.bindings.get? ⟨1⟩ = some .exactMatchTable ∧ plan.Drives ⟨1⟩ := by
    cases accepted
    refine ⟨_, rfl, _, derives_of_replay rfl, rfl, _, rfl, rfl, rfl, rfl, _,
      List.mem_of_getElem? (i := 1) rfl, rfl, ?_, _, List.mem_singleton_self _, rfl⟩
    exact nofun
  have hx : ⟨⟨1⟩, .map, some .exactMatchTable⟩ ∈ n.module.action.accesses := by
    rw [haccesses]
    exact List.mem_singleton_self _
  obtain ⟨_, _, _, hiff⟩ := switch_memory_backed_iff_driven accepted posed derived n
    (List.mem_of_getElem? hn) _ hx .exactMatchTable bound rfl
  exact ⟨g, problem, plan, n, accepted, posed, derived, finished, hn, onController, haccesses,
    (hiff .table (List.mem_singleton_self _)).mpr driven⟩

def learnOnly : List NodeKind :=
  [.terminal .drop,
    .call {
      function := "map_put"
      args := .ofList [("obj", .addr ⟨1⟩), ("key", .term "k" 8), ("value", .term "v" 16)]
      next := some 0 },
    .call {
      function := "map_allocate"
      args := .ofList [("obj", .addr ⟨1⟩), ("capacity", .const 16 32)]
      next := some 1 }]

/-- The switch learns an entry of a table that has no place in the pipeline, or the controller binds
the map to a table in the switch and writes to it there. Both plans pass the check. -/
theorem unbacked_tables_pass_the_check :
    ∃ g problem learned written, Graph.ofKinds learnOnly 2 = .ok g ∧
      Problem.ofConfig g {} = .ok problem ∧
      (Derives problem [(⟨.switch, .route⟩, 0), (⟨.switch, .tableLearn⟩, 0),
          (⟨.switch, .allocate⟩, 0)] learned ∧
        learned.leaves = [] ∧ learned.verify problem = .ok (.ok ()) ∧
        learned.bindings.get? ⟨1⟩ = some .exactMatchTable ∧
        (∃ n ∈ learned.nodes, n.module.target = .switch ∧
          ∃ x ∈ n.module.action.accesses, x.object = ⟨1⟩) ∧
        ¬learned.Backs ⟨1⟩ .exactMatchTable) ∧
      Derives problem [(⟨.controller, .route⟩, 0), (⟨.controller, .mapPut⟩, 0),
          (⟨.controller, .allocate⟩, 1), (⟨.switch, .sendToController⟩, 0)] written ∧
        written.leaves = [] ∧ written.verify problem = .ok (.ok ()) ∧
        written.bindings.get? ⟨1⟩ = some .exactMatchTable ∧
        (∃ n ∈ written.nodes, n.module.target = .controller ∧
          ∃ x ∈ n.module.action.accesses, x.object = ⟨1⟩) ∧
        ¬written.Backs ⟨1⟩ .exactMatchTable := by
  have hmissing : ∀ plan : Plan, plan.resources.isPlaced ⟨⟨1⟩, .table⟩ = false →
      ¬plan.Backs ⟨1⟩ .exactMatchTable := by
    intro plan habsent hbacked
    rw [hbacked .table (List.mem_singleton_self _)] at habsent
    cases habsent
  refine ⟨_, _, _, _, rfl, rfl, ⟨derives_of_replay rfl, rfl, ?_, rfl, ?_, hmissing _ rfl⟩,
    derives_of_replay rfl, rfl, ?_, rfl, ?_, hmissing _ rfl⟩
  · decide +kernel
  · exact ⟨_, List.mem_of_getElem? (i := 1) rfl, rfl, _, List.mem_singleton_self _, rfl⟩
  · decide +kernel
  · exact ⟨_, List.mem_of_getElem? (i := 2) rfl, rfl, _, List.mem_singleton_self _, rfl⟩

end PacketPlan
