import Mathlib.Data.List.Flatten
import Mathlib.Data.List.Nodup
import Mathlib.Data.List.Perm.Subperm
import PacketPlan.Proofs.Graph.Allocation

/-! # Exactly the trees are accepted

Nodes form a tree if the root and all references together name every node once and every node can be
reached. The survey then never meets a node twice: what it has met and what is pending are the root
and the references of what it has met, a part of that list. Conversely an accepted graph has a
preorder, which is the root and the references of all nodes in another order.
-/
namespace PacketPlan

namespace NodeKind

theorem call?_eq_some {k : NodeKind} {c : Call} : k.call? = some c ↔ k = .call c := by
  cases k with
  | call => simp [call?]
  | branch | terminal => simp [call?]

def isAllocation (k : NodeKind) : Bool := k.call?.any fun c => c.allocated?.isSome

def allocates? (k : NodeKind) : Option Addr :=
  if k.isAllocation then k.call?.bind Call.object? else none

end NodeKind

namespace Graph

def references (kinds : List NodeKind) : List NodeId := kinds.flatMap NodeKind.children

def RefersTo (kinds : List NodeKind) (p c : NodeId) : Prop :=
  ∃ kind, kinds[p]? = some kind ∧ c ∈ kind.children

/-- The nodes are a tree under the root, whatever order they are listed in. -/
structure FormsTree (kinds : List NodeKind) (root : NodeId) : Prop where
  root_present : root < kinds.length
  present : ∀ c ∈ references kinds, c < kinds.length
  root_free : root ∉ references kinds
  once : ∀ id < kinds.length, id ≠ root → (references kinds).count id = 1
  reached : ∀ id < kinds.length, Relation.ReflTransGen (RefersTo kinds) root id

/-- Every call that allocates names its object, and no two of them name the same one. -/
structure AllocatesOnce (kinds : List NodeKind) : Prop where
  named : ∀ kind ∈ kinds, kind.isAllocation = true → kind.allocates?.isSome
  distinct : (kinds.filterMap NodeKind.allocates?).Nodup

/-! ## References -/

def referencesAt (kinds : List NodeKind) (id : NodeId) : List NodeId :=
  (childrenIn kinds id).getD []

theorem refersTo_iff {kinds : List NodeKind} {p c : NodeId} :
    RefersTo kinds p c ↔ c ∈ referencesAt kinds p := by
  unfold RefersTo referencesAt childrenIn
  cases kinds[p]? <;> simp

theorem flatMap_referencesAt (kinds : List NodeKind) :
    (List.range kinds.length).flatMap (referencesAt kinds) = references kinds := by
  have hmap : (List.range kinds.length).map (referencesAt kinds) = kinds.map NodeKind.children := by
    apply List.ext_getElem
    · simp
    · intro i hi hi'
      have hk : i < kinds.length := by simpa using hi
      simp [referencesAt, childrenIn, List.getElem?_eq_getElem hk]
  rw [references, List.flatMap_def, List.flatMap_def, hmap]

theorem FormsTree.perm {kinds : List NodeKind} {root : NodeId} (h : FormsTree kinds root) :
    (root :: references kinds).Perm (List.range kinds.length) := by
  have hnodup : (root :: references kinds).Nodup := by
    refine List.nodup_cons.mpr ⟨h.root_free, List.nodup_iff_count_le_one.mpr ?_⟩
    intro id
    by_cases hid : id ∈ references kinds
    · have hne : id ≠ root := fun he => h.root_free (he ▸ hid)
      exact (h.once id (h.present id hid) hne).le
    · rw [List.count_eq_zero.mpr hid]
      exact Nat.zero_le 1
  rw [List.perm_ext_iff_of_nodup hnodup List.nodup_range]
  intro id
  rw [List.mem_cons, List.mem_range]
  constructor
  · rintro (rfl | hid)
    · exact h.root_present
    · exact h.present id hid
  · intro hid
    refine or_iff_not_imp_left.mpr fun hne => List.count_pos_iff.mp ?_
    rw [h.once id hid hne]
    exact Nat.zero_lt_one

theorem formsTree_of_perm {kinds : List NodeKind} {root : NodeId}
    (h : (root :: references kinds).Perm (List.range kinds.length))
    (reached : ∀ id < kinds.length, Relation.ReflTransGen (RefersTo kinds) root id) :
    FormsTree kinds root := by
  have hmem : ∀ id ∈ root :: references kinds, id < kinds.length :=
    fun id hid => List.mem_range.mp (h.mem_iff.mp hid)
  have hnodup : (root :: references kinds).Nodup := h.nodup_iff.mpr List.nodup_range
  refine ⟨hmem root List.mem_cons_self, fun c hc => hmem c (List.mem_cons_of_mem root hc),
    (List.nodup_cons.mp hnodup).1, ?_, reached⟩
  intro id hid hne
  have hin : id ∈ root :: references kinds := h.mem_iff.mpr (List.mem_range.mpr hid)
  have hcount := List.count_eq_one_of_mem hnodup hin
  rwa [List.count_cons_of_ne hne.symm] at hcount

/-- What is met is what was pending and the references of what is met. -/
theorem Preorder.perm {children? : NodeId → Option (List NodeId)} {pending order : List NodeId}
    (h : Preorder children? pending order) :
    order.Perm (pending ++ order.flatMap fun id => (children? id).getD []) := by
  induction h with
  | done => exact .refl _
  | @visit id children pending order hc hr ih =>
    rw [List.flatMap_cons, hc, Option.getD_some, List.cons_append]
    refine (ih.trans ?_).cons id
    rw [← List.append_assoc]
    exact List.perm_append_comm.append_right _

/-! ## The survey of a tree -/

/-- What the survey has met so far, in some order. -/
structure Met (kinds : List NodeKind) (seen : List NodeId) (met : Parents) : Prop where
  met_iff : ∀ id, met.contains id = true ↔ id ∈ seen
  nodup : seen.Nodup
  present : ∀ id ∈ seen, id < kinds.length

theorem met_empty (kinds : List NodeKind) : Met kinds [] ∅ where
  met_iff id := by
    have hnone : (∅ : Parents).contains id = false := rfl
    simp [hnone]
  nodup := List.nodup_nil
  present := nofun

section met
variable {kinds : List NodeKind} {seen : List NodeId} {met : Parents}

theorem Met.visit (h : Met kinds seen met) {id : NodeId} (hid : id < kinds.length)
    (hnew : ¬met.contains id = true) (parent : Option NodeId) :
    Met kinds (id :: seen) (met.insert id parent) where
  met_iff x := by
    rw [OrdMap.contains, OrdMap.get?_insert, List.mem_cons, ← h.met_iff]
    split
    · simp [*]
    · simp [*, OrdMap.contains]
  nodup := List.nodup_cons.mpr ⟨fun hmem => hnew ((h.met_iff id).mpr hmem), h.nodup⟩
  present x hx := by
    rcases List.mem_cons.mp hx with rfl | hx
    · exact hid
    · exact h.present x hx

theorem Met.subperm (h : Met kinds seen met) : seen.Subperm (List.range kinds.length) :=
  List.subperm_of_subset h.nodup fun id hid => List.mem_range.mpr (h.present id hid)

theorem Met.all (h : Met kinds seen met) (hlen : seen.length = kinds.length) {id : NodeId}
    (hid : id < kinds.length) : met.contains id = true := by
  have hperm := h.subperm.perm_of_length_le (by rw [List.length_range, hlen])
  exact (h.met_iff id).mpr (hperm.mem_iff.mpr (List.mem_range.mpr hid))

/-- The bound on visits is not what ends a survey: with more of them it ends in the same way. -/
theorem survey_add (h : Met kinds seen met) {visits : Nat}
    (hv : visits + seen.length = kinds.length) (pending : List (NodeId × Option NodeId))
    (more : Nat) : survey kinds (visits + more) pending met = survey kinds visits pending met := by
  induction visits generalizing seen met pending with
  | zero =>
    rcases more with _ | more
    · rfl
    rcases pending with _ | ⟨⟨id, parent⟩, pending⟩
    · rfl
    -- All nodes are met, so the next one is met again or does not exist.
    rw [Nat.zero_add] at hv ⊢
    simp only [survey]
    by_cases hid : id < kinds.length
    · rw [List.getElem?_eq_getElem hid, if_pos hid]
      exact if_pos (h.all hv hid)
    · rw [List.getElem?_eq_none (Nat.le_of_not_lt hid), if_neg hid]
  | succ visits ih =>
    rcases pending with _ | ⟨⟨id, parent⟩, pending⟩
    · rw [Nat.add_right_comm]
      rfl
    rw [Nat.add_right_comm]
    simp only [survey]
    cases hk : kinds[id]? with
    | none => rfl
    | some kind =>
      dsimp only
      split
      · rfl
      · rename_i hnew
        have hid := (List.getElem?_eq_some_iff.mp hk).1
        exact ih (h.visit hid hnew parent) (by rw [List.length_cons]; omega) _

end met

/-- What is met and what is pending are the root and the references of what is met. -/
def Accounted (kinds : List NodeKind) (root : NodeId) (seen pending : List NodeId) : Prop :=
  (seen ++ pending).Perm (root :: seen.flatMap (referencesAt kinds))

theorem Accounted.visit {kinds : List NodeKind} {root id : NodeId} {seen pending : List NodeId}
    (h : Accounted kinds root seen (id :: pending)) :
    Accounted kinds root (id :: seen) (referencesAt kinds id ++ pending) := by
  unfold Accounted at h ⊢
  rw [List.flatMap_cons]
  have hmoved : (id :: seen ++ (referencesAt kinds id ++ pending)).Perm
      (referencesAt kinds id ++ (id :: seen ++ pending)) := by
    rw [← List.append_assoc, ← List.append_assoc]
    exact List.perm_append_comm.append_right pending
  have hbefore : (id :: seen ++ pending).Perm (root :: seen.flatMap (referencesAt kinds)) :=
    List.perm_middle.symm.trans h
  exact (hmoved.trans (hbefore.append_left _)).trans List.perm_middle

section survey
variable {kinds : List NodeKind} {root : NodeId} {seen pending : List NodeId} {met : Parents}

theorem Accounted.subperm (h : Accounted kinds root seen pending) (tree : FormsTree kinds root)
    (hm : Met kinds seen met) : (seen ++ pending).Subperm (List.range kinds.length) := by
  obtain ⟨part, hpart, hsub⟩ := hm.subperm
  have hrefs : (seen.flatMap (referencesAt kinds)).Subperm (references kinds) := by
    rw [← flatMap_referencesAt]
    exact ⟨_, hpart.flatMap_right _, hsub.flatMap _⟩
  have hall := (List.subperm_cons root).mpr hrefs
  exact (List.Perm.subperm h).trans (hall.trans tree.perm.subperm)

theorem survey_succeeds (tree : FormsTree kinds root) {visits : Nat}
    {pending : List (NodeId × Option NodeId)} (hm : Met kinds seen met)
    (ha : Accounted kinds root seen (pending.map Prod.fst))
    (hv : visits + seen.length = kinds.length) :
    ∃ after all, survey kinds visits pending met = .ok after ∧ Met kinds all after ∧
      Accounted kinds root all [] := by
  induction visits generalizing seen pending met with
  | zero =>
    rcases pending with _ | ⟨e, pending⟩
    · exact ⟨met, seen, rfl, hm, ha⟩
    · have hle := (ha.subperm tree hm).length_le
      simp only [List.length_append, List.length_map, List.length_cons, List.length_range] at hle
      omega
  | succ visits ih =>
    rcases pending with _ | ⟨⟨id, parent⟩, pending⟩
    · exact ⟨met, seen, rfl, hm, ha⟩
    · have hsub := ha.subperm tree hm
      have hid : id < kinds.length := List.mem_range.mp (hsub.subset (by simp))
      have hnew : ¬met.contains id = true := by
        obtain ⟨l, hl, hs⟩ := hsub
        have hnodup := hl.nodup_iff.mp (hs.nodup List.nodup_range)
        intro hmet
        exact (List.nodup_append.mp hnodup).2.2 id ((hm.met_iff id).mp hmet) id (by simp) rfl
      have hrefs : kinds[id].children = referencesAt kinds id := by
        simp [referencesAt, childrenIn, List.getElem?_eq_getElem hid]
      simp only [survey, List.getElem?_eq_getElem hid, if_neg hnew, hrefs]
      refine ih (hm.visit hid hnew parent) ?_ (by rw [List.length_cons]; omega)
      have hnext := ha.visit
      simpa [List.map_map, Function.comp_def] using hnext

theorem FormsTree.survey (tree : FormsTree kinds root) :
    ∃ after, Graph.survey kinds kinds.length [(root, none)] ∅ = .ok after ∧
      ∀ id < kinds.length, after.contains id = true := by
  have hstart : Accounted kinds root []
      (([(root, none)] : List (NodeId × Option NodeId)).map Prod.fst) := .refl _
  obtain ⟨after, all, hsurvey, hm, ha⟩ :=
    survey_succeeds tree (met_empty kinds) hstart (Nat.add_zero _)
  refine ⟨after, hsurvey, ?_⟩
  have hclosed : ∀ id, id ∈ all ↔ id = root ∨ ∃ p ∈ all, id ∈ referencesAt kinds p := by
    intro id
    have hmem := ha.mem_iff (a := id)
    rwa [List.append_nil, List.mem_cons, List.mem_flatMap] at hmem
  intro id hid
  rw [hm.met_iff]
  induction tree.reached id hid with
  | refl => exact (hclosed root).mpr (.inl rfl)
  | @tail p c _ hpc ih =>
    have hp : p < kinds.length := by
      obtain ⟨kind, hk, _⟩ := hpc
      exact (List.getElem?_eq_some_iff.mp hk).1
    exact (hclosed c).mpr (.inr ⟨p, ih hp, refersTo_iff.mp hpc⟩)

end survey

/-! ## Allocations -/

theorem allocationsFrom_cons (acc : OrdMap Addr NodeId) (n : Node) (nodes : List Node) :
    allocationsFrom acc (n :: nodes) =
      if n.kind.isAllocation then
        match n.kind.allocates? with
        | none => .error (.noObject n.id)
        | some a =>
          if acc.contains a then .error (.allocatedTwice a)
          else allocationsFrom (acc.insert a n.id) nodes
      else allocationsFrom acc nodes := by
  conv_lhs => unfold allocationsFrom
  unfold Node.call? NodeKind.allocates? NodeKind.isAllocation
  cases n.kind.call? with
  | none => rfl
  | some call =>
    cases hallocated : call.allocated? with
    | none => simp [hallocated]
    | some container => cases hobject : call.object? <;> simp [hallocated, hobject]

/-- Allocations are listed unless one names no object, or an object that is listed already. -/
theorem allocationsFrom_succeeds_iff {acc : OrdMap Addr NodeId} {nodes : List Node} :
    (∃ found, allocationsFrom acc nodes = .ok found) ↔
      (∀ n ∈ nodes, n.kind.isAllocation = true → n.kind.allocates?.isSome) ∧
      (nodes.filterMap fun n => n.kind.allocates?).Nodup ∧
      ∀ a ∈ nodes.filterMap fun n => n.kind.allocates?, acc.get? a = none := by
  induction nodes generalizing acc with
  | nil => simp [allocationsFrom]
  | cons n nodes ih =>
    rw [allocationsFrom_cons]
    cases hkind : n.kind.isAllocation with
    | false =>
      have hnone : n.kind.allocates? = none := by simp [NodeKind.allocates?, hkind]
      simp [ih, hnone, hkind]
    | true =>
      cases ha : n.kind.allocates? with
      | none => simp [hkind, ha]
      | some a =>
        simp only [List.filterMap_cons, ha, List.forall_mem_cons, List.nodup_cons, if_true]
        split
        · rename_i hold
          have hget : acc.get? a ≠ none := Option.isSome_iff_ne_none.mp hold
          simp [hget]
        · rename_i hnew
          have hget : acc.get? a = none := by simpa [OrdMap.contains] using hnew
          rw [ih]
          simp only [OrdMap.get?_insert]
          constructor
          · rintro ⟨hnamed, hnodup, hfresh⟩
            have hnot : a ∉ nodes.filterMap fun n => n.kind.allocates? := by
              intro hmem
              simpa using hfresh a hmem
            refine ⟨⟨fun _ => rfl, hnamed⟩, ⟨hnot, hnodup⟩, hget, ?_⟩
            intro b hb
            have hne : b ≠ a := fun he => hnot (he ▸ hb)
            have hold := hfresh b hb
            rwa [if_neg hne] at hold
          · rintro ⟨⟨_, hnamed⟩, ⟨hnot, hnodup⟩, _, hfresh⟩
            refine ⟨hnamed, hnodup, ?_⟩
            intro b hb
            have hne : b ≠ a := fun he => hnot (he ▸ hb)
            rw [if_neg hne]
            exact hfresh b hb

/-! ## Acceptance -/

section accepted
variable {kinds : List NodeKind} {root : NodeId} {g : Graph}

theorem map_kind_mapIdx (kinds : List NodeKind) (met : Parents) :
    (kinds.mapIdx fun id kind => (⟨id, (met.get? id).join, kind⟩ : Node)).map Node.kind = kinds := by
  apply List.ext_getElem?
  intro id
  rw [List.getElem?_map, List.getElem?_mapIdx, Option.map_map]
  exact Option.map_id'

theorem kinds_of_ofKinds (h : ofKinds kinds root = .ok g) : g.nodes.map Node.kind = kinds := by
  obtain ⟨met, _, _, _, hnodes⟩ := nodes_of_ofKinds h
  rw [hnodes]
  exact map_kind_mapIdx kinds met

theorem children?_of_ofKinds (h : ofKinds kinds root = .ok g) : g.children? = childrenIn kinds := by
  funext id
  rw [childrenIn, ← kinds_of_ofKinds h, List.getElem?_map, Option.map_map]
  rfl

theorem size_of_ofKinds (h : ofKinds kinds root = .ok g) : g.size = kinds.length := by
  rw [← kinds_of_ofKinds h, List.length_map]
  rfl

theorem formsTree_of_ofKinds (h : ofKinds kinds root = .ok g) : FormsTree kinds root := by
  have tree := isTree_of_ofKinds h
  obtain ⟨_, _, _, hroot, _⟩ := nodes_of_ofKinds h
  have hsize := size_of_ofKinds h
  obtain ⟨order, horder, hperm⟩ := tree.preorder
  rw [children?_of_ofKinds h, hroot] at horder
  rw [hsize] at hperm
  apply formsTree_of_perm
  · have hrefs := hperm.flatMap_right (referencesAt kinds)
    rw [flatMap_referencesAt] at hrefs
    exact (hrefs.symm.cons root).trans (horder.perm.symm.trans hperm)
  · intro id hid
    have hbelow := tree.below_root (hsize ▸ hid)
    rw [hroot] at hbelow
    have hchild : g.Child ≤ RefersTo kinds := by
      intro p c hpc
      obtain ⟨node, hnode, hc⟩ := child_iff.mp hpc
      refine ⟨node.kind, ?_, hc⟩
      rw [← kinds_of_ofKinds h, List.getElem?_map]
      exact congrArg (Option.map Node.kind) hnode
    exact Relation.ReflTransGen.mono hchild _ _ hbelow

theorem allocationsFrom_nodes {nodes : List Node} (hnodes : nodes.map Node.kind = kinds) :
    (∃ found, allocationsFrom ∅ nodes = .ok found) ↔ AllocatesOnce kinds := by
  rw [allocationsFrom_succeeds_iff, ← hnodes]
  constructor
  · rintro ⟨hnamed, hnodup, _⟩
    refine ⟨?_, by rw [List.filterMap_map]; exact hnodup⟩
    intro kind hkind
    obtain ⟨n, hn, rfl⟩ := List.mem_map.mp hkind
    exact hnamed n hn
  · rintro ⟨hnamed, hnodup⟩
    rw [List.filterMap_map] at hnodup
    exact ⟨fun n hn => hnamed n.kind (List.mem_map_of_mem hn), hnodup, fun _ _ => rfl⟩

theorem ofKinds_succeeds (tree : FormsTree kinds root) (once : AllocatesOnce kinds) :
    ∃ g, ofKinds kinds root = .ok g := by
  obtain ⟨met, hsurvey, hall⟩ := tree.survey
  have hfind : (List.range kinds.length).find? (fun id => !met.contains id) = none := by
    rw [List.find?_eq_none]
    intro id hid
    simp [hall id (List.mem_range.mp hid)]
  obtain ⟨allocations, hallocations⟩ := (allocationsFrom_nodes (map_kind_mapIdx kinds met)).mpr once
  refine ⟨⟨kinds.mapIdx fun id kind => ⟨id, (met.get? id).join, kind⟩, root, allocations⟩, ?_⟩
  unfold ofKinds
  rw [if_neg (Nat.not_le.mpr tree.root_present)]
  refine bind_eq_ok.mpr ⟨met, hsurvey, ?_⟩
  simp only [hfind]
  exact bind_eq_ok.mpr ⟨allocations, hallocations, rfl⟩

end accepted

/-! ## The way up -/

/-- The nodes above a node, from its parent up to one that has none. -/
inductive Lineage (g : Graph) : NodeId → List NodeId → Prop
  | top {id : NodeId} {node : Node} (present : g.node? id = some node)
      (parentless : node.parent = none) : Lineage g id []
  | up {id p : NodeId} {node : Node} {above : List NodeId} (present : g.node? id = some node)
      (parent : node.parent = some p) (rest : Lineage g p above) : Lineage g id (p :: above)

def isBranchAt (g : Graph) (id : NodeId) : Bool := (g.node? id).any fun n => n.kind.isBranch

namespace IsTree
variable {g : Graph}

theorem parent_iff (h : g.IsTree) {id p : NodeId} {node : Node} (hn : g.node? id = some node) :
    node.parent = some p ↔ g.Child p id := by
  constructor
  · intro hp
    rcases (h.below_root (node_lt hn)).cases_tail with hroot | ⟨q, _, hq⟩
    · obtain ⟨top, htop, hnone⟩ := h.root_top
      rw [← hroot, hn] at htop
      cases htop
      rw [hp] at hnone
      cases hnone
    · obtain ⟨node', hn', hparent⟩ := h.parent_eq hq
      rw [hn] at hn'
      cases hn'
      rw [hp] at hparent
      cases hparent
      exact hq
  · intro hp
    obtain ⟨node', hn', hparent⟩ := h.parent_eq hp
    rw [hn] at hn'
    cases hn'
    exact hparent

theorem parent_eq_none_iff (h : g.IsTree) {id : NodeId} {node : Node}
    (hn : g.node? id = some node) :
    node.parent = none ↔ id = g.root := by
  constructor
  · intro hnone
    rcases (h.below_root (node_lt hn)).cases_tail with hroot | ⟨q, _, hq⟩
    · exact hroot
    · rw [(h.parent_iff hn).mpr hq] at hnone
      cases hnone
  · rintro rfl
    obtain ⟨top, htop, hnone⟩ := h.root_top
    rw [hn] at htop
    cases htop
    exact hnone

theorem weight_lt_of_above (h : g.IsTree) {p id : NodeId} (hp : Relation.TransGen g.Child p id) :
    g.weight id < g.weight p := by
  induction hp with
  | single hc => exact h.weight_child_lt hc
  | tail _ hc ih => exact (h.weight_child_lt hc).trans ih

/-- The way up from a node goes through all nodes above it, each once, to the root, and its branches
are the depth of the node. -/
theorem exists_lineage (h : g.IsTree) {id : NodeId} (hid : id < g.size) :
    ∃ above, g.Lineage id above ∧ (id :: above).getLast? = some g.root ∧ above.Nodup ∧
      (∀ p, p ∈ above ↔ Relation.TransGen g.Child p id) ∧
      g.branchDepth id = .ok (above.countP g.isBranchAt) := by
  induction h.below_root hid with
  | refl =>
    obtain ⟨node, hn, hnone⟩ := h.root_top
    refine ⟨[], .top hn hnone, rfl, List.nodup_nil, ?_, h.branchDepth_root⟩
    intro p
    refine iff_of_false List.not_mem_nil fun hp => ?_
    obtain ⟨q, _, hq⟩ := Relation.TransGen.tail'_iff.mp hp
    exact h.not_child_root q hq
  | @tail p c hbelow hpc ih =>
    obtain ⟨node, hn, hc⟩ := child_iff.mp hpc
    obtain ⟨child, hchild, hparent⟩ := h.parent_eq hpc
    obtain ⟨above, hlineage, hlast, hnodup, hmem, hdepth⟩ := ih (node_lt hn)
    refine ⟨p :: above, .up hchild hparent hlineage, ?_, ?_, ?_, ?_⟩
    · rw [List.getLast?_cons_cons]
      exact hlast
    · refine List.nodup_cons.mpr ⟨fun hp => ?_, hnodup⟩
      exact absurd (h.weight_lt_of_above ((hmem p).mp hp)) (Nat.lt_irrefl _)
    · intro q
      rw [List.mem_cons, hmem]
      constructor
      · rintro (rfl | hq)
        · exact .single hpc
        · exact hq.tail hpc
      · intro hq
        cases hq with
        | single hqc => exact .inl (h.child_unique hqc hpc)
        | @tail r _ hqr hrc =>
          rw [← h.child_unique hrc hpc]
          exact .inr hqr
    · rw [h.branchDepth_child hn hc hdepth, List.countP_cons, isBranchAt, hn]
      rfl

end IsTree

theorem allocation?_eq_some_iff {kinds : List NodeKind} {root : NodeId} {g : Graph}
    (h : ofKinds kinds root = .ok g) {a : Addr} {call : Call} :
    g.allocation? a = some call ↔
      .call call ∈ kinds ∧ call.allocated?.isSome ∧ call.object? = some a := by
  constructor
  · intro hcall
    obtain ⟨node, hnode, hcall⟩ := Option.bind_eq_some_iff.mp hcall
    obtain ⟨id, hid, hnode⟩ := Option.bind_eq_some_iff.mp hnode
    obtain ⟨node', hnode', call', hcall', hallocates⟩ := (allocations_get?_eq_some h).mp hid
    rw [hnode] at hnode'
    cases hnode'
    rw [hcall] at hcall'
    cases hcall'
    refine ⟨?_, hallocates⟩
    rw [← kinds_of_ofKinds h, ← NodeKind.call?_eq_some.mp hcall]
    exact List.mem_map_of_mem (List.mem_of_getElem? hnode)
  · rintro ⟨hmem, hkind, hobject⟩
    rw [← kinds_of_ofKinds h] at hmem
    obtain ⟨node, hnode, hcall⟩ := List.mem_map.mp hmem
    obtain ⟨id, hid⟩ := List.mem_iff_getElem?.mp hnode
    exact allocation?_eq_some h hid (NodeKind.call?_eq_some.mpr hcall) hkind hobject

/-- Whatever references there are, the survey ends, and just those nodes are accepted that form a
tree in which no object is allocated twice. In the graph that comes of them, the parent of a node is
the node that refers to it, the way up from every node ends at the root and passes the branches
above the node, and the allocation of an object is the call that allocates it. -/
theorem accepts_exactly_trees (kinds : List NodeKind) (root : NodeId) :
    (∀ more, survey kinds (kinds.length + more) [(root, none)] ∅ =
        survey kinds kinds.length [(root, none)] ∅) ∧
      ((∃ g, ofKinds kinds root = .ok g) ↔ FormsTree kinds root ∧ AllocatesOnce kinds) ∧
      ∀ g, ofKinds kinds root = .ok g →
        g.root = root ∧ g.nodes.map Node.kind = kinds ∧
        (∀ id node, g.node? id = some node →
          node.id = id ∧ (∀ p, node.parent = some p ↔ g.Child p id) ∧
          (node.parent = none ↔ id = root) ∧
          ∃ above, g.Lineage id above ∧ (id :: above).getLast? = some root ∧ above.Nodup ∧
            (∀ p, p ∈ above ↔ Relation.TransGen g.Child p id) ∧
            g.branchDepth id = .ok (above.countP g.isBranchAt) ∧
            ∀ more, g.branchesAbove (g.size + more) node.parent = above.countP g.isBranchAt) ∧
        ∀ a call, g.allocation? a = some call ↔
          .call call ∈ kinds ∧ call.allocated?.isSome ∧ call.object? = some a := by
  refine ⟨survey_add (met_empty kinds) (Nat.add_zero _) _, ⟨?_, ?_⟩, ?_⟩
  · rintro ⟨g, h⟩
    exact ⟨formsTree_of_ofKinds h,
      (allocationsFrom_nodes (kinds_of_ofKinds h)).mp ⟨_, allocations_eq h⟩⟩
  · exact fun ⟨tree, once⟩ => ofKinds_succeeds tree once
  · intro g h
    have tree := isTree_of_ofKinds h
    obtain ⟨_, _, _, rfl, _⟩ := nodes_of_ofKinds h
    refine ⟨rfl, kinds_of_ofKinds h, ?_, fun a call => allocation?_eq_some_iff h⟩
    intro id node hnode
    have hid := IsTree.node_lt hnode
    obtain ⟨above, hlineage, hlast, hnodup, hmem, hdepth⟩ := tree.exists_lineage hid
    refine ⟨id_of_node? h hnode, fun p => tree.parent_iff hnode, tree.parent_eq_none_iff hnode,
      above, hlineage, hlast, hnodup, hmem, hdepth, ?_⟩
    intro more
    rw [tree.branchesAbove_eq (tree.below_root hid) hnode (g.size + more) (by omega)]
    rw [IsTree.branchDepth_eq hnode] at hdepth
    exact Except.ok.inj hdepth

/-- A branch below an allocation, with references in both directions. -/
def scatteredBranch : List NodeKind :=
  [.call { function := "map_allocate", args := .ofList [("obj", .addr ⟨1⟩)], next := some 2 },
    .terminal .drop,
    .branch (.term "c" 1) 3 1,
    .call { function := "current_time", next := some 4 },
    .terminal (.forward 1)]

theorem scattered_branch_is_tree :
    ∃ g node above, ofKinds scatteredBranch 0 = .ok g ∧ FormsTree scatteredBranch 0 ∧
      AllocatesOnce scatteredBranch ∧ g.node? 4 = some node ∧ g.Child 3 4 ∧
      g.Lineage 4 above ∧ (4 :: above).getLast? = some 0 ∧
      g.branchDepth 4 = .ok 1 ∧ above.countP g.isBranchAt = 1 ∧
      ∃ call, g.allocation? ⟨1⟩ = some call ∧ call.function = "map_allocate" := by
  obtain ⟨_, haccepts, hgraph⟩ := accepts_exactly_trees scatteredBranch 0
  obtain ⟨g, node, h, hnode, hparent, hdepth, call, hcall, hname⟩ : ∃ g node,
      ofKinds scatteredBranch 0 = .ok g ∧ g.node? 4 = some node ∧ node.parent = some 3 ∧
      g.branchDepth 4 = .ok 1 ∧
      ∃ call, g.allocation? ⟨1⟩ = some call ∧ call.function = "map_allocate" :=
    ⟨_, _, rfl, rfl, rfl, rfl, _, rfl, rfl⟩
  obtain ⟨tree, once⟩ := haccepts.mp ⟨g, h⟩
  obtain ⟨_, _, hnodes, _⟩ := hgraph g h
  obtain ⟨_, hchild, _, above, hlineage, hlast, _, _, hbranches, _⟩ := hnodes 4 node hnode
  have hcount : above.countP g.isBranchAt = 1 := by
    rw [hbranches] at hdepth
    exact Except.ok.inj hdepth
  exact ⟨g, node, above, h, tree, once, hnode, (hchild 3).mp hparent, hlineage, hlast, hdepth,
    hcount, call, hcall, hname⟩

end Graph

end PacketPlan
