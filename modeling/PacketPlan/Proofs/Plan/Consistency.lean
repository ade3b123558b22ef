import PacketPlan.Proofs.Graph.Allocation
import PacketPlan.Proofs.Plan.Growth
import PacketPlan.Proofs.Plan.Recirculation

/-! # Representations agree

What is bound in a plan is what its modules allocate, each object by one module and as the data
structure that the graph allocates. A module that works on an object was chosen for the
representation that was bound, which no later choice on any path or target can change.
-/
namespace PacketPlan

theorem Bindings.extend_unbound {b b' : Bindings} {a : Addr} {r : Representation}
    (hnone : b.get? a = none) (h : b.extend [(a, r)] = .ok b') : b' = ⟨b.map.insert a r⟩ := by
  obtain ⟨middle, hmiddle, h⟩ := bind_eq_ok.mp h
  cases h
  simp only [Bindings.bind, hnone] at hmiddle
  cases hmiddle
  rfl

theorem Action.mem_commits {a : Action} {object : Addr} {r : Representation}
    (h : (object, r) ∈ a.commits) :
    ∃ container capacity, a = .allocate object container r capacity := by
  rcases a.commits_cases with hnil | ⟨o, container, r', capacity, rfl⟩
  · rw [hnil] at h
    cases h
  · cases List.mem_singleton.mp h
    exact ⟨container, capacity, rfl⟩

namespace Plan

/-- The bindings of a plan, its modules and the graph agree on all objects. -/
structure Agreed (problem : Problem) (plan : Plan) : Prop where
  ascending : OrdMap.Ascending plan.bindings.entries
  entries : plan.bindings.entries.Perm (plan.modules.flatMap fun m => m.action.commits)
  allocated : ∀ m ∈ plan.modules, ∀ {object container r capacity},
    m.action = .allocate object container r capacity →
    ∃ node, problem.graph.node? m.node = some node ∧
      Setting.MayAllocate ⟨problem.graph, {}, m.target, m.node⟩ node.kind object container r
  reached : ∀ m ∈ plan.modules, ∀ x ∈ m.action.accesses,
    Setting.Grants ⟨problem.graph, plan.bindings, m.target, m.node⟩ x

section step
variable {kinds : List NodeKind} {root : NodeId} {problem : Problem} {plan after : Plan}

/-- An object that is about to be allocated is not bound: else its allocation would have been
executed, while a leaf stands at it that is not handled. -/
theorem Agreed.unbound (h : Agreed problem plan)
    (accepted : Graph.ofKinds kinds root = .ok problem.graph) (tracked : Tracked problem plan)
    (recorded : plan.Recorded) {leaf : Leaf} (hleaf : leaf ∈ plan.leaves)
    (fresh : plan.ledger.processed? leaf.site = none) {node : Node}
    (present : problem.graph.node? leaf.next = some node) {object : Addr}
    (allocates : node.Allocates object) : plan.bindings.get? object = none := by
  cases hbound : plan.bindings.get? object with
  | none => rfl
  | some r =>
    have hentry : (object, r) ∈ plan.bindings.entries := OrdMap.mem_of_findEntry hbound
    obtain ⟨m, hm, hcommits⟩ := List.mem_flatMap.mp (h.entries.mem_iff.mp hentry)
    obtain ⟨container, capacity, haction⟩ := Action.mem_commits hcommits
    obtain ⟨node', hnode', ⟨call, hcall, hkind, hobject⟩, _⟩ := h.allocated m hm haction
    have hallocates' : node'.Allocates object := ⟨call, hcall, by rw [hkind]; rfl, hobject⟩
    have hsame := Graph.allocates_unique accepted hnode' present hallocates' allocates
    have hkeeps : m.handsOver? = none := by rw [Module.handsOver?, haction]
    have hexecutes := recorded.executes hm hkeeps
    rw [hsame] at hexecutes
    exact absurd hexecutes (tracked.not_executes_of_fresh (Graph.isTree_of_ofKinds accepted)
      (tracked.leaf_reached hleaf) fresh)

theorem Agreed.bound (h : Agreed problem plan)
    (accepted : Graph.ofKinds kinds root = .ok problem.graph) (tracked : Tracked problem plan)
    (recorded : plan.Recorded) {leaf : Leaf} (hleaf : leaf ∈ plan.leaves)
    (fresh : plan.ledger.processed? leaf.site = none) {node : Node}
    (present : problem.graph.node? leaf.next = some node) {a : Action}
    (allocates : ∀ {object container r capacity}, a = .allocate object container r capacity →
      node.Allocates object) {b : Bindings} (bound : plan.bindings.extend a.commits = .ok b) :
    OrdMap.Ascending b.entries ∧ b.entries.Perm (plan.bindings.entries ++ a.commits) := by
  rcases a.commits_cases with hnil | ⟨object, container, r, capacity, rfl⟩
  · rw [hnil] at bound ⊢
    cases bound
    rw [List.append_nil]
    exact ⟨h.ascending, .refl _⟩
  · have hnone := h.unbound accepted tracked recorded hleaf fresh present (allocates rfl)
    have hnew : (OrdMap.insertEntry object r plan.bindings.entries).Perm
        ((object, r) :: plan.bindings.entries) := OrdMap.insertEntry_perm_of_none hnone
    rw [Bindings.extend_unbound hnone bound]
    exact ⟨h.ascending.insertEntry object r, hnew.trans (List.perm_append_singleton _ _).symm⟩

theorem Agreed.grows (h : Agreed problem plan)
    (accepted : Graph.ofKinds kinds root = .ok problem.graph) (tracked : Tracked problem plan)
    (recorded : plan.Recorded) (grows : Grows problem plan after) : Agreed problem after := by
  cases grows with
  | still modules bindings _ =>
    refine ⟨?_, ?_, ?_, ?_⟩
    · rw [bindings]
      exact h.ascending
    · rw [bindings, modules]
      exact h.entries
    · rw [modules]
      exact h.allocated
    · rw [modules, bindings]
      exact h.reached
  | @adds leaf rest node a p stages active present fresh _ reaches allocates bound _ _ modules =>
    have hallocates : ∀ {object container r capacity},
        a = .allocate object container r capacity → node.Allocates object := by
      intro object container r capacity ha
      obtain ⟨call, hcall, hkind, hobject⟩ := (allocates ha).call
      exact ⟨call, hcall, by rw [hkind]; rfl, hobject⟩
    obtain ⟨hascending, hentries⟩ := h.bound accepted tracked recorded
      (active ▸ List.mem_cons_self) fresh present hallocates bound
    have hwithin := (Bindings.extend_within bound).1
    refine ⟨hascending, ?_, ?_, ?_⟩
    · rw [modules, List.flatMap_append, List.flatMap_singleton]
      exact hentries.trans (h.entries.append_right a.commits)
    · intro m hm object container r capacity haction
      rw [modules] at hm
      rcases List.mem_append.mp hm with hm | hm
      · exact h.allocated m hm haction
      · cases List.mem_singleton.mp hm
        obtain ⟨hcall, hcandidate⟩ := allocates haction
        exact ⟨node, present, hcall, hcandidate⟩
    · intro m hm x hx
      rw [modules] at hm
      have hgrants : Setting.Grants ⟨problem.graph, plan.bindings, m.target, m.node⟩ x := by
        rcases List.mem_append.mp hm with hm | hm
        · exact h.reached m hm x hx
        · cases List.mem_singleton.mp hm
          exact reaches x hx
      obtain ⟨r, hr, hcandidate, hown⟩ := hgrants
      exact ⟨r, hwithin _ r hr, hcandidate, hown⟩

end step

end Plan

open Plan

theorem Derives.agreed {kinds : List NodeKind} {root : NodeId} {problem : Problem}
    (accepted : Graph.ofKinds kinds root = .ok problem.graph) (wp : problem.WellPosed)
    {choices : List Choice} {plan : Plan} (h : Derives problem choices plan) :
    Agreed problem plan := by
  induction h with
  | root id => exact ⟨.nil, .nil, nofun, nofun⟩
  | expand before known expanded chosen ih =>
    have hstep := Technique.step_of_expand known expanded (List.mem_of_getElem? chosen)
    exact ih.grows accepted (before.lawful wp).tracked before.recorded (grows_of_step hstep)

/-- The bindings of a derived plan are the pairs that its modules allocate, one module for each
object, and each pair has the data structure that the graph allocates for the object. A module that
works on an object finds it bound to a representation of the right data structure that its target
can reach, and names no other. -/
theorem representations_agree {kinds : List NodeKind} {root : NodeId} {g : Graph} {c : Config}
    {problem : Problem} {choices : List Choice} {plan : Plan}
    (accepted : Graph.ofKinds kinds root = .ok g) (posed : Problem.ofConfig g c = .ok problem)
    (derived : Derives problem choices plan) :
    plan.bindings.entries.Perm (plan.nodes.flatMap fun n => n.module.action.commits) ∧
      (plan.bindings.entries.map Prod.fst).Nodup ∧
      (∀ o r, plan.bindings.get? o = some r ↔ (o, r) ∈ plan.bindings.entries) ∧
      (∀ n ∈ plan.nodes, ∀ o container r capacity,
        n.module.action = .allocate o container r capacity →
        r.container = container ∧
          ∃ call, g.allocation? o = some call ∧ call.allocated? = some container) ∧
      ∀ n ∈ plan.nodes, ∀ x ∈ n.module.action.accesses,
        ∃ r, plan.bindings.get? x.object = some r ∧ r.container = x.container ∧
          r.accessibleFrom.contains n.module.target = true ∧
          ∀ own, x.representation = some own → own = r := by
  have wp := Problem.wellPosed_of_ofConfig accepted posed
  have hgraph : problem.graph = g := by rw [Problem.eq_of_ofConfig posed]
  have agreed := derived.agreed (hgraph ▸ accepted) wp
  have hmodule : ∀ n ∈ plan.nodes, n.module ∈ plan.modules := fun n hn => List.mem_map_of_mem hn
  refine ⟨?_, agreed.ascending.nodup_keys, ?_, ?_, ?_⟩
  · have hentries := agreed.entries
    rw [Plan.modules, List.flatMap_map] at hentries
    exact hentries
  · exact fun o r => agreed.ascending.findEntry_eq_some_iff
  · intro n hn o container r capacity haction
    obtain ⟨node, hnode, ⟨call, hcall, hkind, hobject⟩, hcandidate⟩ :=
      agreed.allocated _ (hmodule n hn) haction
    refine ⟨(Container.mem_candidates hcandidate).1, call, ?_, hkind⟩
    rw [hgraph] at hnode
    exact Graph.allocation?_eq_some accepted hnode hcall (by rw [hkind]; rfl) hobject
  · intro n hn x hx
    obtain ⟨r, hr, hcandidate, hown⟩ := agreed.reached _ (hmodule n hn) x hx
    obtain ⟨hcontainer, haccess⟩ := Container.mem_candidates hcandidate
    exact ⟨r, hr, hcontainer, haccess, hown⟩

/-- A map that the switch allocates as a table and looks up, and that the controller then looks up
after a hand-over. -/
theorem table_agrees_across_hand_over :
    ∃ g problem plan n, Graph.ofKinds lookupTwice 3 = .ok g ∧
      Problem.ofConfig g {} = .ok problem ∧
      Derives problem [(⟨.controller, .mapGet⟩, 0), (⟨.switch, .sendToController⟩, 0),
        (⟨.switch, .tableLookup⟩, 0), (⟨.switch, .allocate⟩, 0)] plan ∧
      plan.bindings.entries = [(⟨1⟩, .exactMatchTable)] ∧ plan.nodes[3]? = some n ∧
      n.module.target = .controller ∧
      n.module.action.accesses = [⟨⟨1⟩, .map, some .exactMatchTable⟩] ∧
      ∃ r, plan.bindings.get? ⟨1⟩ = some r ∧ r.container = .map ∧
        r.accessibleFrom.contains n.module.target = true ∧
        ∀ own, some .exactMatchTable = some own → own = r := by
  refine ⟨_, _, _, _, rfl, rfl, derives_of_replay rfl, rfl, rfl, rfl, rfl, ?_⟩
  have h := @representations_agree lookupTwice 3 _ {} _ [(⟨.controller, .mapGet⟩, 0),
    (⟨.switch, .sendToController⟩, 0), (⟨.switch, .tableLookup⟩, 0), (⟨.switch, .allocate⟩, 0)] _ rfl
    rfl (derives_of_replay rfl)
  obtain ⟨_, _, _, _, hreached⟩ := h
  exact hreached _ (List.mem_of_getElem? (i := 3) rfl) ⟨⟨1⟩, .map, some .exactMatchTable⟩
    (List.mem_singleton.mpr rfl)

end PacketPlan
