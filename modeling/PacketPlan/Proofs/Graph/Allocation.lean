import PacketPlan.Proofs.Graph.Tree

/-! # Every object is allocated once

The allocations of an accepted graph are listed by object, so the call that allocates an object is
found under its address, and no other call allocates it.
-/
namespace PacketPlan

def Node.Allocates (n : Node) (a : Addr) : Prop :=
  ∃ call, n.call? = some call ∧ call.allocated?.isSome ∧ call.object? = some a

theorem Node.Allocates.unique {n : Node} {a b : Addr} (ha : n.Allocates a) (hb : n.Allocates b) :
    a = b := by
  obtain ⟨call, hcall, _, ha⟩ := ha
  obtain ⟨call', hcall', _, hb⟩ := hb
  rw [hcall] at hcall'
  cases hcall'
  rw [ha] at hb
  exact Option.some.inj hb

namespace Graph

theorem allocationsFrom_spec {acc found : OrdMap Addr NodeId} {nodes : List Node}
    (h : allocationsFrom acc nodes = .ok found) (a : Addr) (id : NodeId) :
    found.get? a = some id ↔ acc.get? a = some id ∨ ∃ n ∈ nodes, n.Allocates a ∧ n.id = id := by
  induction nodes generalizing acc with
  | nil =>
    cases h
    simp
  | cons n nodes ih =>
    -- a node that allocates nothing changes nothing
    have hpass : (∀ b, ¬n.Allocates b) → allocationsFrom acc nodes = .ok found →
        (found.get? a = some id ↔
          acc.get? a = some id ∨ ∃ x ∈ n :: nodes, x.Allocates a ∧ x.id = id) := by
      intro hnot hrest
      rw [ih hrest, List.exists_mem_cons_iff]
      have hn := hnot a
      tauto
    unfold allocationsFrom at h
    cases hcall : n.call? with
    | none =>
      simp only [hcall] at h
      refine hpass ?_ h
      rintro b ⟨call, hc, _⟩
      rw [hcall] at hc
      cases hc
    | some call =>
      simp only [hcall] at h
      split at h
      · rename_i hkind
        refine hpass ?_ h
        rintro b ⟨call', hc, hsome, _⟩
        rw [hcall] at hc
        cases hc
        rw [Option.isNone_iff_eq_none] at hkind
        rw [hkind] at hsome
        cases hsome
      · rename_i hkind
        cases hobject : call.object? with
        | none =>
          simp only [hobject] at h
          cases h
        | some addr =>
          simp only [hobject] at h
          split at h
          · cases h
          · rename_i hnew
            have hnone : acc.get? addr = none := by simpa [OrdMap.contains] using hnew
            have hself : n.Allocates addr :=
              ⟨call, hcall, Option.isSome_iff_ne_none.mpr (by simpa using hkind), hobject⟩
            rw [ih h, OrdMap.get?_insert, List.exists_mem_cons_iff]
            by_cases ha : a = addr
            · subst ha
              simp [hnone, hself]
            · have hn : ¬n.Allocates a := fun hn => ha (hn.unique hself)
              simp [ha, hn]

theorem allocations_eq {kinds : List NodeKind} {root : NodeId} {g : Graph}
    (h : ofKinds kinds root = .ok g) : allocationsFrom ∅ g.nodes = .ok g.allocations := by
  unfold ofKinds at h
  split at h
  · cases h
  · obtain ⟨met, _, h⟩ := bind_eq_ok.mp h
    split at h
    · cases h
    · obtain ⟨allocations, hallocations, h⟩ := bind_eq_ok.mp h
      cases h
      exact hallocations

theorem id_of_node? {kinds : List NodeKind} {root : NodeId} {g : Graph}
    (h : ofKinds kinds root = .ok g) {id : NodeId} {node : Node} (hn : g.node? id = some node) :
    node.id = id := by
  obtain ⟨met, _, _, _, hnodes⟩ := nodes_of_ofKinds h
  rw [node?, hnodes, List.getElem?_mapIdx] at hn
  obtain ⟨kind, _, rfl⟩ := Option.map_eq_some_iff.mp hn
  rfl

/-- An accepted graph lists the calls that allocate, each under its object. -/
theorem allocations_get?_eq_some {kinds : List NodeKind} {root : NodeId} {g : Graph}
    (h : ofKinds kinds root = .ok g) {a : Addr} {id : NodeId} :
    g.allocations.get? a = some id ↔ ∃ node, g.node? id = some node ∧ node.Allocates a := by
  rw [allocationsFrom_spec (allocations_eq h) a id]
  constructor
  · rintro (hnone | ⟨node, hnode, ha, rfl⟩)
    · cases hnone
    · obtain ⟨i, hi⟩ := List.mem_iff_getElem?.mp hnode
      have hid := id_of_node? h hi
      exact ⟨node, by rw [hid]; exact hi, ha⟩
  · rintro ⟨node, hnode, ha⟩
    exact .inr ⟨node, List.mem_of_getElem? hnode, ha, id_of_node? h hnode⟩

theorem allocates_unique {kinds : List NodeKind} {root : NodeId} {g : Graph}
    (h : ofKinds kinds root = .ok g) {a : Addr} {id id' : NodeId} {node node' : Node}
    (hn : g.node? id = some node) (hn' : g.node? id' = some node') (ha : node.Allocates a)
    (ha' : node'.Allocates a) : id = id' := by
  have hid := (allocations_get?_eq_some h).mpr ⟨node, hn, ha⟩
  have hid' := (allocations_get?_eq_some h).mpr ⟨node', hn', ha'⟩
  rw [hid] at hid'
  exact Option.some.inj hid'

theorem allocation?_eq_some {kinds : List NodeKind} {root : NodeId} {g : Graph}
    (h : ofKinds kinds root = .ok g) {a : Addr} {id : NodeId} {node : Node} {call : Call}
    (hn : g.node? id = some node) (hcall : node.call? = some call)
    (hkind : call.allocated?.isSome) (hobject : call.object? = some a) :
    g.allocation? a = some call := by
  have hid := (allocations_get?_eq_some h).mpr ⟨node, hn, call, hcall, hkind, hobject⟩
  rw [allocation?, hid, Option.bind_some, hn, Option.bind_some, hcall]

end Graph

end PacketPlan
