import Mathlib.Algebra.Order.BigOperators.Group.List
import Mathlib.Algebra.Order.Ring.Nat
import Mathlib.Data.List.Perm.Basic
import Mathlib.Logic.Relation
import PacketPlan.Graph.Tree
import PacketPlan.Proofs.Checked

/-! # Accepted graphs are trees

The survey visits a graph depth first. What it meets is listed by the relation `Preorder`, which
knows nothing of parents and of bounds on visits. A graph that is accepted has a preorder from its
root in which every node occurs once. Subtrees then have sizes that add up, every node lies below
the root, and the branches above a node can be counted along its path.
-/
namespace PacketPlan.Graph

def childrenOf (g : Graph) (id : NodeId) : List NodeId := (g.node? id).elim [] Node.children

def Child (g : Graph) (p c : NodeId) : Prop := c ∈ g.childrenOf p

/-- The second node is the first one or lies below it. -/
abbrev Below (g : Graph) : NodeId → NodeId → Prop := Relation.ReflTransGen g.Child

/-- The order in which a depth-first visit of the pending nodes meets them and all below them. -/
inductive Preorder (children? : NodeId → Option (List NodeId)) : List NodeId → List NodeId → Prop
  | done : Preorder children? [] []
  | visit {id : NodeId} {children pending order : List NodeId}
      (present : children? id = some children)
      (rest : Preorder children? (children ++ pending) order) :
      Preorder children? (id :: pending) (id :: order)

namespace Preorder
variable {children? : NodeId → Option (List NodeId)} {pending order : List NodeId}

theorem append_inv {a b order : List NodeId} (h : Preorder children? (a ++ b) order) :
    ∃ first second, order = first ++ second ∧ Preorder children? a first ∧
      Preorder children? b second := by
  generalize hp : a ++ b = pending at h
  induction h generalizing a with
  | done =>
    obtain ⟨rfl, rfl⟩ := List.append_eq_nil_iff.mp hp
    exact ⟨[], [], rfl, done, done⟩
  | @visit id children pending order hc hr ih =>
    cases a with
    | nil =>
      have hb : b = id :: pending := hp
      subst hb
      exact ⟨[], id :: order, rfl, done, visit hc hr⟩
    | cons x a =>
      obtain ⟨rfl, rfl⟩ := List.cons.inj hp
      obtain ⟨first, second, rfl, hfirst, hsecond⟩ := ih (a := children ++ a) (by simp)
      exact ⟨x :: first, second, rfl, visit hc hfirst, hsecond⟩

theorem sublist_of_mem (h : Preorder children? pending order) {id : NodeId} (hid : id ∈ order) :
    ∃ below, Preorder children? [id] below ∧ below.Sublist order := by
  induction h with
  | done => simp at hid
  | @visit x children pending order hc hr ih =>
    by_cases hx : id = x
    · subst hx
      obtain ⟨first, second, he, hfirst, _⟩ := append_inv (a := [id]) (visit hc hr)
      exact ⟨first, hfirst, he ▸ List.sublist_append_left first second⟩
    · obtain ⟨below, hb, hs⟩ := ih ((List.mem_cons.mp hid).resolve_left hx)
      exact ⟨below, hb, hs.cons x⟩

theorem present_of_mem (h : Preorder children? pending order) {id : NodeId} (hid : id ∈ order) :
    ∃ children, children? id = some children := by
  obtain ⟨below, hb, _⟩ := h.sublist_of_mem hid
  cases hb with
  | visit hc _ => exact ⟨_, hc⟩

theorem pending_sublist (h : Preorder children? pending order) : pending.Sublist order := by
  induction h with
  | done => exact .refl []
  | visit _ _ ih => exact (List.sublist_append_right _ _ |>.trans ih).cons_cons _

end Preorder

def visitFrom (g : Graph) : Nat → List NodeId → List NodeId
  | 0, _ => []
  | _, [] => []
  | visits + 1, id :: pending => id :: g.visitFrom visits (g.childrenOf id ++ pending)

/-- A node and all below it, in the order of a depth-first visit. -/
def subtree (g : Graph) (id : NodeId) : List NodeId := g.visitFrom g.size [id]

/-- All nodes in the order of a depth-first visit, the true side of a branch before the false
side. -/
def visits (g : Graph) : List NodeId := g.subtree g.root

def weight (g : Graph) (id : NodeId) : Nat := (g.subtree id).length

def children? (g : Graph) (id : NodeId) : Option (List NodeId) := (g.node? id).map Node.children

theorem childrenOf_eq {g : Graph} {id : NodeId} {node : Node} (h : g.node? id = some node) :
    g.childrenOf id = node.children := by
  simp [childrenOf, h]

theorem child_iff {g : Graph} {p c : NodeId} :
    g.Child p c ↔ ∃ node, g.node? p = some node ∧ c ∈ node.children := by
  unfold Child childrenOf
  cases g.node? p with
  | none => simp
  | some node => simp

theorem children?_eq_some {g : Graph} {id : NodeId} {children : List NodeId}
    (h : g.children? id = some children) : g.childrenOf id = children := by
  obtain ⟨node, hn, rfl⟩ := Option.map_eq_some_iff.mp h
  exact childrenOf_eq hn

theorem Preorder.visitFrom_eq {g : Graph} {pending order : List NodeId}
    (h : Preorder g.children? pending order) {visits : Nat} (hv : order.length ≤ visits) :
    g.visitFrom visits pending = order := by
  induction h generalizing visits with
  | done => cases visits <;> rfl
  | visit hc hr ih =>
    cases visits with
    | zero => simp at hv
    | succ visits =>
      rw [visitFrom, children?_eq_some hc, ih (by simpa using hv)]

theorem Preorder.exists_below {g : Graph} {pending order : List NodeId}
    (h : Preorder g.children? pending order) {id : NodeId} (hid : id ∈ order) :
    ∃ p ∈ pending, g.Below p id := by
  induction h with
  | done => simp at hid
  | @visit x children pending order hc hr ih =>
    rcases List.mem_cons.mp hid with rfl | hid
    · exact ⟨id, List.mem_cons_self, .refl⟩
    · obtain ⟨p, hp, hb⟩ := ih hid
      rcases List.mem_append.mp hp with hp | hp
      · have hx : g.Child x p := by rw [Child, children?_eq_some hc]; exact hp
        exact ⟨x, List.mem_cons_self, .head hx hb⟩
      · exact ⟨p, List.mem_cons_of_mem x hp, hb⟩

/-- The nodes form a tree: parents and children agree, and a visit from the root meets every node
exactly once. -/
structure IsTree (g : Graph) : Prop where
  root_top : ∃ node, g.node? g.root = some node ∧ node.parent = none
  parent_eq {p c : NodeId} : g.Child p c → ∃ node, g.node? c = some node ∧ node.parent = some p
  preorder : ∃ order, Preorder g.children? [g.root] order ∧ order.Perm (List.range g.size)

/-! ## The survey -/

def childrenIn (kinds : List NodeKind) (id : NodeId) : Option (List NodeId) :=
  (kinds[id]?).map NodeKind.children

/-- What a successful survey has met, node by node. -/
structure Surveyed (kinds : List NodeKind) (pending : List (NodeId × Option NodeId))
    (met after : Parents) (order : List NodeId) : Prop where
  preorder : Preorder (childrenIn kinds) (pending.map Prod.fst) order
  nodup : order.Nodup
  fresh : ∀ id ∈ order, met.get? id = none
  kept : ∀ id, id ∉ order → after.get? id = met.get? id
  pending_met : ∀ e ∈ pending, after.get? e.1 = some e.2
  children_met : ∀ id ∈ order, ∀ children, childrenIn kinds id = some children →
    ∀ c ∈ children, after.get? c = some (some id)

theorem surveyed_nil (kinds : List NodeKind) (met : Parents) : Surveyed kinds [] met met [] :=
  ⟨.done, List.nodup_nil, nofun, fun _ _ => rfl, nofun, nofun⟩

theorem Surveyed.visit {kinds : List NodeKind} {id : NodeId} {parent : Option NodeId}
    {kind : NodeKind} {pending : List (NodeId × Option NodeId)} {met after : Parents}
    {order : List NodeId} (hk : kinds[id]? = some kind) (hnone : met.get? id = none)
    (hs : Surveyed kinds (kind.children.map (fun c => (c, some id)) ++ pending)
      (met.insert id parent) after order) :
    Surveyed kinds ((id, parent) :: pending) met after (id :: order) := by
  have hnot : id ∉ order := by
    intro hid
    have hfresh := hs.fresh id hid
    rw [OrdMap.get?_insert_self] at hfresh
    cases hfresh
  have hch : childrenIn kinds id = some kind.children := by simp [childrenIn, hk]
  refine ⟨?_, List.nodup_cons.mpr ⟨hnot, hs.nodup⟩, ?_, ?_, ?_, ?_⟩
  · refine .visit hch ?_
    simpa [List.map_map, Function.comp_def] using hs.preorder
  · intro x hx
    rcases List.mem_cons.mp hx with rfl | hx
    · exact hnone
    · have hne : x ≠ id := fun he => hnot (he ▸ hx)
      rw [← OrdMap.get?_insert_ne met hne parent]
      exact hs.fresh x hx
  · intro x hx
    obtain ⟨hne, hx⟩ := not_or.mp (mt List.mem_cons.mpr hx)
    rw [hs.kept x hx, OrdMap.get?_insert_ne met hne]
  · intro e he
    rcases List.mem_cons.mp he with rfl | he
    · rw [hs.kept id hnot, OrdMap.get?_insert_self]
    · exact hs.pending_met e (List.mem_append_right _ he)
  · intro x hx children hxc c hc
    rcases List.mem_cons.mp hx with rfl | hx
    · rw [hch] at hxc
      cases hxc
      exact hs.pending_met (c, some x) (List.mem_append_left _ (List.mem_map.mpr ⟨c, hc, rfl⟩))
    · exact hs.children_met x hx children hxc c hc

theorem surveyed_of_survey {kinds : List NodeKind} {visits : Nat}
    {pending : List (NodeId × Option NodeId)} {met after : Parents}
    (h : survey kinds visits pending met = .ok after) :
    ∃ order, Surveyed kinds pending met after order := by
  induction visits generalizing pending met with
  | zero =>
    cases pending with
    | nil =>
      cases h
      exact ⟨[], surveyed_nil kinds _⟩
    | cons e pending => cases h
  | succ visits ih =>
    rcases pending with _ | ⟨⟨id, parent⟩, pending⟩
    · cases h
      exact ⟨[], surveyed_nil kinds _⟩
    · simp only [survey] at h
      cases hk : kinds[id]? with
      | none => simp [hk] at h
      | some kind =>
        simp only [hk] at h
        split at h
        · cases h
        · rename_i hmet
          have hnone : met.get? id = none := by simpa [OrdMap.contains] using hmet
          obtain ⟨order, hs⟩ := ih h
          exact ⟨id :: order, hs.visit hk hnone⟩

theorem Surveyed.mem_of_met {kinds : List NodeKind} {pending : List (NodeId × Option NodeId)}
    {after : Parents} {order : List NodeId} (hs : Surveyed kinds pending ∅ after order)
    {id : NodeId} (hid : after.contains id = true) : id ∈ order := by
  by_contra hn
  simp only [OrdMap.contains, hs.kept id hn] at hid
  cases hid

theorem Surveyed.lt_length {kinds : List NodeKind} {pending : List (NodeId × Option NodeId)}
    {met after : Parents} {order : List NodeId} (hs : Surveyed kinds pending met after order)
    {id : NodeId} (hid : id ∈ order) : id < kinds.length := by
  obtain ⟨children, hc⟩ := hs.preorder.present_of_mem hid
  obtain ⟨kind, hk, _⟩ := Option.map_eq_some_iff.mp hc
  exact (List.getElem?_eq_some_iff.mp hk).1

theorem nodes_of_ofKinds {kinds : List NodeKind} {root : NodeId} {g : Graph}
    (h : ofKinds kinds root = .ok g) :
    ∃ met, survey kinds kinds.length [(root, none)] ∅ = .ok met ∧
      (∀ id < kinds.length, met.contains id = true) ∧ g.root = root ∧
      g.nodes = kinds.mapIdx fun id kind => ⟨id, (met.get? id).join, kind⟩ := by
  unfold ofKinds at h
  split at h
  · cases h
  · obtain ⟨met, hmet, h⟩ := bind_eq_ok.mp h
    refine ⟨met, hmet, ?_⟩
    split at h
    · cases h
    · rename_i hfind
      obtain ⟨allocations, _, h⟩ := bind_eq_ok.mp h
      cases h
      refine ⟨?_, rfl, rfl⟩
      intro id hid
      have := List.find?_eq_none.mp hfind id (List.mem_range.mpr hid)
      simpa using this

theorem isTree_of_ofKinds {kinds : List NodeKind} {root : NodeId} {g : Graph}
    (h : ofKinds kinds root = .ok g) : g.IsTree := by
  obtain ⟨met, hsurvey, hall, hroot, hnodes⟩ := nodes_of_ofKinds h
  obtain ⟨order, hs⟩ := surveyed_of_survey hsurvey
  have hnode : ∀ id, g.node? id = (kinds[id]?).map fun kind => ⟨id, (met.get? id).join, kind⟩ := by
    intro id
    rw [node?, hnodes, List.getElem?_mapIdx]
  have hchildren : g.children? = childrenIn kinds := by
    funext id
    rw [children?, hnode id, childrenIn, Option.map_map]
    rfl
  have hsize : g.size = kinds.length := by rw [size, hnodes, List.length_mapIdx]
  -- A node that the survey has met has the parent it was met from.
  have hmet : ∀ {id p}, met.get? id = some p → ∃ node, g.node? id = some node ∧ node.parent = p := by
    intro id p hp
    have hid := hs.lt_length (hs.mem_of_met (by rw [OrdMap.contains, hp]; rfl))
    refine ⟨_, by rw [hnode, List.getElem?_eq_getElem hid]; rfl, ?_⟩
    simp only [hp]
    rfl
  constructor
  · rw [hroot]
    exact hmet (hs.pending_met (root, none) List.mem_cons_self)
  · intro p c hpc
    obtain ⟨node, hn, hc⟩ := child_iff.mp hpc
    have hpk : childrenIn kinds p = some node.children := by
      rw [← hchildren, children?, hn]
      rfl
    obtain ⟨kind, hk, _⟩ := Option.map_eq_some_iff.mp hpk
    have hp := hs.mem_of_met (hall p (List.getElem?_eq_some_iff.mp hk).1)
    exact hmet (hs.children_met p hp node.children hpk c hc)
  · refine ⟨order, ?_, ?_⟩
    · rw [hchildren, hroot]
      exact hs.preorder
    · rw [hsize, List.perm_ext_iff_of_nodup hs.nodup List.nodup_range]
      intro id
      rw [List.mem_range]
      exact ⟨hs.lt_length, fun hid => hs.mem_of_met (hall id hid)⟩

/-! ## Sizes of subtrees -/

namespace IsTree
variable {g : Graph}

theorem node_lt {id : NodeId} {node : Node} (hn : g.node? id = some node) : id < g.size :=
  (List.getElem?_eq_some_iff.mp hn).1

theorem preorder_at (h : g.IsTree) {id : NodeId} (hid : id < g.size) :
    Preorder g.children? [id] (g.subtree id) ∧ g.weight id ≤ g.size := by
  obtain ⟨order, horder, hperm⟩ := h.preorder
  obtain ⟨below, hb, hs⟩ := horder.sublist_of_mem (hperm.mem_iff.mpr (List.mem_range.mpr hid))
  have hle : below.length ≤ g.size := by
    have := hperm.length_eq
    rw [List.length_range] at this
    exact this ▸ hs.length_le
  have he : g.subtree id = below := hb.visitFrom_eq hle
  rw [weight, he]
  exact ⟨hb, hle⟩

theorem root_lt (h : g.IsTree) : g.root < g.size := by
  obtain ⟨node, hn, _⟩ := h.root_top
  exact node_lt hn

theorem child_lt (h : g.IsTree) {p c : NodeId} (hpc : g.Child p c) : c < g.size := by
  obtain ⟨node, hn, _⟩ := h.parent_eq hpc
  exact node_lt hn

theorem visits_perm (h : g.IsTree) : g.visits.Perm (List.range g.size) := by
  obtain ⟨order, horder, hperm⟩ := h.preorder
  have hlength : order.length = g.size := by simpa using hperm.length_eq
  have hvisits : g.visits = order := horder.visitFrom_eq hlength.le
  rwa [hvisits]

theorem length_visits (h : g.IsTree) : g.visits.length = g.size := by
  simpa using h.visits_perm.length_eq

theorem weight_root (h : g.IsTree) : g.weight g.root = g.size := h.length_visits

/-- A visit of some nodes goes through their subtrees one after the other. -/
theorem preorder_eq (h : g.IsTree) {pending order : List NodeId}
    (hp : ∀ id ∈ pending, id < g.size) (ho : Preorder g.children? pending order) :
    order = pending.flatMap g.subtree := by
  induction pending generalizing order with
  | nil =>
    cases ho
    rfl
  | cons id pending ih =>
    obtain ⟨first, second, rfl, hfirst, hsecond⟩ := ho.append_inv (a := [id])
    obtain ⟨hsub, hle⟩ := h.preorder_at (hp id List.mem_cons_self)
    have hsame : first = g.subtree id := by
      -- one order of visits is unique: both are what the function computes
      have hmax : first.length ≤ max first.length g.size := Nat.le_max_left _ _
      have hmax' : (g.subtree id).length ≤ max first.length g.size :=
        hle.trans (Nat.le_max_right _ _)
      rw [← hfirst.visitFrom_eq hmax, ← hsub.visitFrom_eq hmax']
    rw [hsame, ih (fun x hx => hp x (List.mem_cons_of_mem id hx)) hsecond, List.flatMap_cons]

theorem subtree_eq (h : g.IsTree) {id : NodeId} {node : Node} (hn : g.node? id = some node) :
    g.subtree id = id :: node.children.flatMap g.subtree := by
  obtain ⟨hsub, _⟩ := h.preorder_at (node_lt hn)
  generalize g.subtree id = order at hsub
  cases hsub with
  | @visit _ children _ order hc hr =>
    have he : children = node.children := by
      rw [← children?_eq_some hc, childrenOf_eq hn]
    rw [List.append_nil, he] at hr
    have hlt : ∀ c ∈ node.children, c < g.size :=
      fun c hc => h.child_lt (child_iff.mpr ⟨node, hn, hc⟩)
    rw [← h.preorder_eq hlt hr]

theorem weight_eq (h : g.IsTree) {id : NodeId} {node : Node} (hn : g.node? id = some node) :
    g.weight id = (node.children.map g.weight).sum + 1 := by
  rw [weight, h.subtree_eq hn, List.length_cons, List.length_flatMap]
  rfl

theorem weight_pos (h : g.IsTree) {id : NodeId} (hid : id < g.size) : 0 < g.weight id := by
  obtain ⟨node, hn⟩ : ∃ node, g.node? id = some node := ⟨_, List.getElem?_eq_getElem hid⟩
  rw [h.weight_eq hn]
  exact Nat.succ_pos _

theorem weight_child_lt (h : g.IsTree) {p c : NodeId} (hpc : g.Child p c) :
    g.weight c < g.weight p := by
  obtain ⟨node, hn, hc⟩ := child_iff.mp hpc
  rw [h.weight_eq hn]
  have hle := List.single_le_sum (fun _ _ => Nat.zero_le _) _
    (List.mem_map_of_mem (f := g.weight) hc)
  exact Nat.lt_succ_of_le hle

theorem below_root (h : g.IsTree) {id : NodeId} (hid : id < g.size) : g.Below g.root id := by
  obtain ⟨order, horder, hperm⟩ := h.preorder
  have hm := hperm.mem_iff.mpr (List.mem_range.mpr hid)
  obtain ⟨p, hp, hb⟩ := horder.exists_below hm
  rw [List.mem_singleton.mp hp] at hb
  exact hb

theorem child_unique (h : g.IsTree) {p q c : NodeId} (hp : g.Child p c) (hq : g.Child q c) :
    p = q := by
  obtain ⟨n, hn, hnp⟩ := h.parent_eq hp
  obtain ⟨m, hm, hmq⟩ := h.parent_eq hq
  rw [hn] at hm
  cases hm
  rw [hnp] at hmq
  exact Option.some.inj hmq

theorem nodup_children (h : g.IsTree) {id : NodeId} {node : Node} (hn : g.node? id = some node) :
    node.children.Nodup := by
  obtain ⟨order, horder, hperm⟩ := h.preorder
  have hid : id ∈ order := hperm.mem_iff.mpr (List.mem_range.mpr (node_lt hn))
  have hnodup : order.Nodup := hperm.nodup_iff.mpr List.nodup_range
  obtain ⟨below, hbelow, hsub⟩ := horder.sublist_of_mem hid
  cases hbelow with
  | @visit _ children _ rest hc hrest =>
    have he : children = node.children := by rw [← children?_eq_some hc, childrenOf_eq hn]
    rw [List.append_nil, he] at hrest
    have hall := (hrest.pending_sublist.cons id).trans hsub
    exact hall.nodup hnodup

theorem not_child_root (h : g.IsTree) (p : NodeId) : ¬g.Child p g.root := by
  intro hp
  obtain ⟨n, hn, hnone⟩ := h.root_top
  obtain ⟨m, hm, hsome⟩ := h.parent_eq hp
  rw [hn] at hm
  cases hm
  rw [hnone] at hsome
  cases hsome

/-! ## Branches above a node -/

/-- The way up from a node is no longer than what its weight leaves of the graph. -/
theorem branchesAbove_eq (h : g.IsTree) {id : NodeId} (hb : g.Below g.root id) {node : Node}
    (hn : g.node? id = some node) (steps : Nat) (hs : g.size ≤ steps + g.weight id) :
    g.branchesAbove steps node.parent = g.branchesAbove g.size node.parent := by
  induction hb generalizing node steps with
  | refl =>
    obtain ⟨n, hr, hp⟩ := h.root_top
    rw [hn] at hr
    cases hr
    rw [hp]
    cases steps <;> cases g.size <;> rfl
  | @tail p c _ hpc ih =>
    obtain ⟨m, hm, hmp⟩ := h.parent_eq hpc
    rw [hn] at hm
    cases hm
    obtain ⟨above, ha, _⟩ := child_iff.mp hpc
    have hw := h.weight_child_lt hpc
    have hle := (h.preorder_at (node_lt ha)).2
    obtain ⟨steps, rfl⟩ : ∃ k, steps = k + 1 := ⟨steps - 1, by omega⟩
    obtain ⟨size, hsize⟩ : ∃ k, g.size = k + 1 := ⟨g.size - 1, by omega⟩
    have hup := ih ha steps (by omega)
    have hup' := ih ha size (by omega)
    rw [hmp, hsize]
    simp only [branchesAbove, ha, hup, hup']

theorem branchDepth_eq {id : NodeId} {node : Node} (hn : g.node? id = some node) :
    g.branchDepth id = .ok (g.branchesAbove g.size node.parent) := by
  unfold branchDepth Graph.node
  rw [hn]
  rfl

theorem branchDepth_root (h : g.IsTree) : g.branchDepth g.root = .ok 0 := by
  obtain ⟨node, hn, hp⟩ := h.root_top
  rw [branchDepth_eq hn, hp]
  cases g.size <;> rfl

/-- A branch adds one to the depth of what follows it, and nothing else does. -/
theorem branchDepth_child (h : g.IsTree) {p c d : Nat} {node : Node} (hn : g.node? p = some node)
    (hc : c ∈ node.children) (hd : g.branchDepth p = .ok d) :
    g.branchDepth c = .ok (d + if node.kind.isBranch then 1 else 0) := by
  have hpc : g.Child p c := child_iff.mpr ⟨node, hn, hc⟩
  obtain ⟨m, hm, hmp⟩ := h.parent_eq hpc
  have hw := h.weight_child_lt hpc
  have hle := (h.preorder_at (node_lt hn)).2
  obtain ⟨size, hsize⟩ : ∃ k, g.size = k + 1 := ⟨g.size - 1, by omega⟩
  have hup := h.branchesAbove_eq (h.below_root (node_lt hn)) hn size (by omega)
  rw [branchDepth_eq hn] at hd
  have hd : g.branchesAbove g.size node.parent = d := Except.ok.inj hd
  rw [branchDepth_eq hm, hmp, hsize]
  simp only [branchesAbove, hn, hup, hd]
  rw [Nat.add_comm]

end IsTree

end PacketPlan.Graph
