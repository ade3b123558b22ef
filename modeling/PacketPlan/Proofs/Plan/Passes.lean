import Mathlib.Logic.Relation
import PacketPlan.Proofs.Plan.Coverage
import PacketPlan.Proofs.Proposal.Steady

/-! # A packet never goes back in the pipeline

Within one pass a packet meets the stages in ascending order. So whatever a module has placed must
be ahead of all that a module below it places in the same pass, unless both belong to one action.
Leaves carry the objects that were met in the pass; the invariant says that this is all that
matters.

Passes are counted along a derivation: each choice of another pass adds one for the active leaf, and
a module that replaces a leaf has behind it as many passes as the leaf had.
-/
namespace PacketPlan

/-! ## The order of stages -/

namespace Pipeline
variable {p q : Pipeline} {a b : SwitchObject}

/-- Both objects are placed, and a packet meets the first one in an earlier stage. -/
def Ahead (p : Pipeline) (a b : SwitchObject) : Prop :=
  ∃ s s', p.stageOf? a = some s ∧ p.stageOf? b = some s' ∧ s < s'

theorem not_ahead_self : ¬p.Ahead a a := by
  rintro ⟨s, s', hs, hs', hlt⟩
  rw [hs] at hs'
  cases hs'
  exact Nat.lt_irrefl s hlt

theorem Keeps.ahead {deps : ObjectSet} (h : p.Keeps b deps) (ha : a ∈ deps) : p.Ahead a b := by
  obtain ⟨stage, hb, hdeps⟩ := h
  obtain ⟨s, hs, hlt⟩ := hdeps a ha
  exact ⟨s, stage, hs, hb, hlt⟩

theorem Leads.ahead (h : Leads p q) (hp : p.Indexed) (hab : p.Ahead a b) : q.Ahead a b := by
  obtain ⟨s, s', hs, hs', hlt⟩ := hab
  exact ⟨s, s', (h.stageOf?_of_some hp hs).2, (h.stageOf?_of_some hp hs').2, hlt⟩

end Pipeline

namespace Proposal

/-- What is placed stands behind all that was met in the pass and is not fused, and one object
behind the other. -/
theorem placeFrom_ahead {p : Proposal} {passDeps : ObjectSet} {placed : List SwitchObject}
    {r after : Pipeline} {requests : List (SwitchObject × Demand)} {stages : List Nat}
    (hr : r.Indexed) (h : p.placeFrom passDeps placed r requests = .ok (stages, after)) :
    (∀ o ∈ requests.map Prod.fst, ∀ x ∈ p.dependencies passDeps placed, after.Ahead x o) ∧
      (requests.map Prod.fst).Pairwise after.Ahead := by
  induction requests generalizing placed r stages with
  | nil => exact ⟨nofun, .nil⟩
  | cons request requests ih =>
    obtain ⟨⟨stage, next⟩, hplace, h⟩ := bind_eq_ok.mp h
    obtain ⟨⟨others, last⟩, hothers, h⟩ := bind_eq_ok.mp h
    cases h
    obtain ⟨located, hl, _, rfl⟩ := Pipeline.placeWithin_eq_ok hplace
    have hindexed :
        (r.commit request.1 request.2 (p.dependencies passDeps placed) located).Indexed :=
      Pipeline.commit_indexed hr
    obtain ⟨hbehind, hpairs⟩ := ih hindexed hothers
    have hfirst : ∀ x ∈ p.dependencies passDeps placed, after.Ahead x request.1 := by
      intro x hx
      exact (Plan.placeFrom_leads hothers).ahead hindexed
        ((Pipeline.keeps_of_locate hr hl).ahead hx)
    have hrest : ∀ o ∈ requests.map Prod.fst, ∀ x,
        x = request.1 ∨ x ∈ p.dependencies passDeps placed →
        after.Ahead x o := by
      intro o ho x hx
      apply hbehind o ho x
      rw [mem_dependencies, List.mem_append, List.mem_singleton]
      rcases hx with rfl | hx
      · exact .inl (.inr rfl)
      · rcases mem_dependencies.mp hx with hx | hx
        · exact .inl (.inl hx)
        · exact .inr hx
    constructor
    · intro o ho x hx
      rcases List.mem_cons.mp ho with rfl | ho
      · exact hfirst x hx
      · exact hrest o ho x (.inr hx)
    · refine List.Pairwise.cons ?_ hpairs
      intro o ho
      exact hrest o ho request.1 (.inl rfl)

end Proposal

/-! ## The tree of a plan -/

namespace Plan
variable {plan : Plan}

def parent? (plan : Plan) (id : PlanNodeId) : Option PlanNodeId :=
  (plan.node? id).bind PlanNode.parent

def Above (plan : Plan) : PlanNodeId → PlanNodeId → Prop :=
  Relation.TransGen fun i j => plan.parent? j = some i

def OnWay (plan : Plan) (i : PlanNodeId) (leaf : Leaf) : Prop :=
  ∃ k, leaf.attach = some k ∧ (i = k ∨ plan.Above i k)

structure Rooted (plan : Plan) : Prop where
  parents : ∀ {j i}, plan.parent? j = some i → i < plan.nodes.length
  leaves : ∀ {l k}, l ∈ plan.leaves → l.attach = some k → k < plan.nodes.length

theorem Above.lt {i j : PlanNodeId} (h : plan.Above i j) : j < plan.nodes.length := by
  obtain ⟨k, _, hk⟩ := Relation.TransGen.tail'_iff.mp h
  obtain ⟨n, hn, _⟩ := Option.bind_eq_some_iff.mp hk
  exact (List.getElem?_eq_some_iff.mp hn).1

theorem Rooted.lt_of_above (h : plan.Rooted) {i j : PlanNodeId} (hij : plan.Above i j) :
    i < plan.nodes.length := by
  obtain ⟨k, hk, _⟩ := Relation.TransGen.head'_iff.mp hij
  exact h.parents hk

theorem Rooted.lt_of_onWay (h : plan.Rooted) {l : Leaf} (hl : l ∈ plan.leaves) {i : PlanNodeId}
    (hi : plan.OnWay i l) : i < plan.nodes.length := by
  obtain ⟨k, hk, rfl | hi⟩ := hi
  · exact h.leaves hl hk
  · exact h.lt_of_above hi

section attached
variable {id : PlanId} {bindings : Bindings} {resources : Pipeline} {leaf : Leaf}
variable {rest children : List Leaf} {m : Module} {minted : Option Symbol}

theorem linked_parent (plan : Plan) (new i : PlanNodeId) (parent : Option PlanNodeId) :
    ((plan.linked new parent)[i]?).bind PlanNode.parent = plan.parent? i := by
  have h := congrArg (fun xs => xs[i]?) (map_linked plan new parent PlanNode.parent fun _ _ => rfl)
  simp only [List.getElem?_map] at h
  simpa only [Option.bind_map, Function.comp_def, parent?, node?] using
    congrArg (Option.bind · fun above => above) h

theorem attached_parent? {j : PlanNodeId} :
    (plan.attached id bindings resources leaf rest m children minted).parent? j =
      if j = plan.nodes.length then leaf.attach else plan.parent? j := by
  have hlen := length_linked plan plan.nodes.length leaf.attach
  rw [parent?, node?, attached_nodes, List.getElem?_append, hlen,
    ← linked_parent plan plan.nodes.length j leaf.attach]
  by_cases hlt : j < plan.nodes.length
  · rw [if_pos hlt, if_neg (Nat.ne_of_lt hlt)]
  · rw [if_neg hlt]
    by_cases hj : j = plan.nodes.length
    · subst hj
      simp
    · have hnone : (plan.linked plan.nodes.length leaf.attach)[j]? = none :=
        List.getElem?_eq_none (by rw [hlen]; exact Nat.le_of_not_lt hlt)
      have hgt : plan.nodes.length < j := Nat.lt_of_le_of_ne (Nat.le_of_not_lt hlt) (Ne.symm hj)
      rw [if_neg hj, hnone, List.getElem?_eq_none]
      exact Nat.sub_pos_of_lt hgt

theorem length_attached_nodes :
    (plan.attached id bindings resources leaf rest m children minted).nodes.length =
      plan.nodes.length + 1 := by
  rw [attached_nodes, List.length_append, length_linked]
  rfl

theorem attached_module?_of_lt {i : PlanNodeId} (hi : i < plan.nodes.length) {found : Module}
    (h : (plan.attached id bindings resources leaf rest m children minted).module? i = some found) :
    plan.module? i = some found := by
  rcases attached_module?_eq_some h with h | ⟨rfl, _⟩
  · exact h
  · exact absurd hi (Nat.lt_irrefl _)

theorem Rooted.attached (h : plan.Rooted) (active : plan.leaves = leaf :: rest) :
    (plan.attached id bindings resources leaf rest m children minted).Rooted where
  parents := by
    intro j i hj
    rw [length_attached_nodes]
    rw [attached_parent?] at hj
    split at hj
    · exact Nat.lt_succ_of_lt (h.leaves (active ▸ List.mem_cons_self) hj)
    · exact Nat.lt_succ_of_lt (h.parents hj)
  leaves := by
    intro l k hl hk
    rw [length_attached_nodes]
    rw [attached_leaves] at hl
    rcases List.mem_append.mp hl with hl | hl
    · obtain ⟨child, _, rfl⟩ := List.mem_map.mp hl
      cases hk
      exact Nat.lt_succ_self _
    · exact Nat.lt_succ_of_lt (h.leaves (active ▸ List.mem_cons_of_mem leaf hl) hk)

/-- Above an old node stands what stood there before, and above the new one what was on the way to
the leaf that it replaces. -/
theorem Rooted.above_attached (h : plan.Rooted) (hl : leaf ∈ plan.leaves) {i j : PlanNodeId}
    (hij : (plan.attached id bindings resources leaf rest m children minted).Above i j) :
    plan.Above i j ∨ (j = plan.nodes.length ∧ plan.OnWay i leaf) := by
  induction hij with
  | @single j hij =>
    rw [attached_parent?] at hij
    split at hij
    · rename_i hj
      exact .inr ⟨hj, i, hij, .inl rfl⟩
    · exact .inl (.single hij)
  | @tail k j _ hkj ih =>
    rw [attached_parent?] at hkj
    split at hkj
    · rename_i hj
      rcases ih with habove | ⟨hk, _⟩
      · exact .inr ⟨hj, k, hkj, .inr habove⟩
      · exact absurd hk (Nat.ne_of_lt (h.leaves hl hkj))
    · rcases ih with habove | ⟨hk, _⟩
      · exact .inl (habove.tail hkj)
      · exact absurd hk (Nat.ne_of_lt (h.parents hkj))

theorem Rooted.onWay_attached (h : plan.Rooted) (hleaf : leaf ∈ plan.leaves) {l : Leaf}
    (hl : l ∈ plan.leaves) {i : PlanNodeId}
    (hi : (plan.attached id bindings resources leaf rest m children minted).OnWay i l) :
    plan.OnWay i l := by
  obtain ⟨k, hk, rfl | hi⟩ := hi
  · exact ⟨i, hk, .inl rfl⟩
  · rcases h.above_attached hleaf hi with hi | ⟨rfl, _⟩
    · exact ⟨k, hk, .inr hi⟩
    · exact absurd (h.leaves hl hk) (Nat.lt_irrefl _)

theorem Rooted.onWay_attached_new (h : plan.Rooted) (hleaf : leaf ∈ plan.leaves) {l : Leaf}
    (hl : l.attach = some plan.nodes.length) {i : PlanNodeId}
    (hi : (plan.attached id bindings resources leaf rest m children minted).OnWay i l) :
    i = plan.nodes.length ∨ plan.OnWay i leaf := by
  obtain ⟨k, hk, hi⟩ := hi
  rw [hl] at hk
  cases hk
  rcases hi with rfl | hi
  · exact .inl rfl
  · rcases h.above_attached hleaf hi with hi | ⟨_, hi⟩
    · exact absurd hi.lt (Nat.lt_irrefl _)
    · exact .inr hi

end attached

/-! ## The invariant -/

/-- So many passes lie behind each node of the plan. What a leaf on the switch has met in its pass
is noted there, and within a pass the stages ascend. -/
structure Forward (plan : Plan) (behind : List Nat) : Prop where
  rooted : plan.Rooted
  length_eq : behind.length = plan.nodes.length
  earlier : ∀ l ∈ plan.leaves, ∀ {i n}, plan.OnWay i l → behind[i]? = some n → n ≤ l.recirculations
  met : ∀ l ∈ plan.leaves, l.target = .switch → ∀ {i m}, plan.OnWay i l →
    behind[i]? = some l.recirculations → plan.module? i = some m → ∀ o ∈ m.objects, o ∈ l.passDeps
  ordered : ∀ {i j A B}, plan.Above i j → behind[i]? = behind[j]? → plan.module? i = some A →
    plan.module? j = some B → ∀ a ∈ A.objects, ∀ b ∈ B.objects, a ∉ B.fused → plan.resources.Ahead a b
  within : ∀ {j m}, plan.module? j = some m → m.objects.Pairwise plan.resources.Ahead

theorem forward_empty (problem : Problem) (id : PlanId) : (empty problem id).Forward [] where
  rooted := by
    constructor
    · intro j i hj
      simp [parent?, node?, empty] at hj
    · intro l k hl hk
      cases List.mem_singleton.mp hl
      cases hk
  length_eq := rfl
  earlier := by simp
  met := by simp
  ordered h := absurd h.lt (Nat.not_lt_zero _)
  within := by simp [module?, node?, empty]

/-- The leaf takes the place of another one on the same path. It has noted as much, unless it starts
a new pass. -/
structure StandsFor (leaf l : Leaf) : Prop where
  attach_eq : l.attach = leaf.attach
  target_eq : l.target = leaf.target
  later : leaf.recirculations ≤ l.recirculations
  notes : l.recirculations = leaf.recirculations → ∀ o ∈ leaf.passDeps, o ∈ l.passDeps

theorem Forward.moved {behind : List Nat} (h : plan.Forward behind) {after : Plan} {leaf l : Leaf}
    {rest : List Leaf} (active : plan.leaves = leaf :: rest) (moved : StandsFor leaf l)
    (leaves_eq : after.leaves = l :: rest) (nodes_eq : after.nodes = plan.nodes)
    (resources_eq : after.resources = plan.resources) : after.Forward behind := by
  have hparent : after.parent? = plan.parent? := by
    funext i
    rw [parent?, node?, nodes_eq]
    rfl
  have hmodule : after.module? = plan.module? := by
    funext i
    rw [module?, node?, nodes_eq]
    rfl
  have habove : after.Above = plan.Above := by rw [Above, hparent, Above]
  have honWay : ∀ {i x}, after.OnWay i x ↔ plan.OnWay i x := by
    intro i x
    rw [OnWay, habove, OnWay]
  have hsame : ∀ {i}, plan.OnWay i l → plan.OnWay i leaf := by
    rintro i ⟨k, hk, hi⟩
    exact ⟨k, moved.attach_eq ▸ hk, hi⟩
  have hleaf : leaf ∈ plan.leaves := active ▸ List.mem_cons_self
  have hrest : ∀ {x}, x ∈ rest → x ∈ plan.leaves := fun hx => active ▸ List.mem_cons_of_mem leaf hx
  exact {
    rooted := by
      constructor
      · rw [hparent, nodes_eq]
        exact h.rooted.parents
      · rw [leaves_eq, nodes_eq]
        intro x k hx hk
        rcases List.mem_cons.mp hx with rfl | hx
        · exact h.rooted.leaves hleaf (moved.attach_eq ▸ hk)
        · exact h.rooted.leaves (hrest hx) hk
    length_eq := by
      rw [nodes_eq]
      exact h.length_eq
    earlier := by
      rw [leaves_eq]
      intro x hx i n hi hn
      rcases List.mem_cons.mp hx with rfl | hx
      · exact (h.earlier leaf hleaf (hsame (honWay.mp hi)) hn).trans moved.later
      · exact h.earlier x (hrest hx) (honWay.mp hi) hn
    met := by
      rw [leaves_eq, hmodule]
      intro x hx ht i m hi hn hm o ho
      rcases List.mem_cons.mp hx with rfl | hx
      · have hway := hsame (honWay.mp hi)
        have hle := h.earlier leaf hleaf hway hn
        have hpass : x.recirculations = leaf.recirculations := Nat.le_antisymm hle moved.later
        have hswitch : leaf.target = .switch := moved.target_eq ▸ ht
        exact moved.notes hpass o (h.met leaf hleaf hswitch hway (hpass ▸ hn) hm o ho)
      · exact h.met x (hrest hx) ht (honWay.mp hi) hn hm o ho
    ordered := by
      rw [hmodule, habove, resources_eq]
      exact h.ordered
    within := by
      rw [hmodule, resources_eq]
      exact h.within }

/-- The module stands behind what the leaf has met, and the leaves below it have met its objects
besides. -/
structure Continues (leaf : Leaf) (m : Module) (children : List Leaf) (resources : Pipeline) :
    Prop where
  onTarget : m.target = leaf.target
  behind : ∀ x ∈ leaf.passDeps, x ∉ m.fused → ∀ o ∈ m.objects, resources.Ahead x o
  within : m.objects.Pairwise resources.Ahead
  passes : ∀ l ∈ children, l.recirculations = leaf.recirculations
  notes : ∀ l ∈ children, l.target = .switch →
    leaf.target = .switch ∧ ∀ o, o ∈ leaf.passDeps ∨ o ∈ m.objects → o ∈ l.passDeps

namespace Forward
variable {behind : List Nat} {id : PlanId} {bindings : Bindings} {resources : Pipeline}
  {leaf : Leaf} {rest children : List Leaf} {m : Module} {minted : Option Symbol}

theorem getElem?_new (h : plan.Forward behind) (n : Nat) :
    (behind ++ [n])[plan.nodes.length]? = some n := by
  rw [← h.length_eq]
  exact List.getElem?_concat_length

theorem getElem?_old (h : plan.Forward behind) (n : Nat) {i : PlanNodeId}
    (hi : i < plan.nodes.length) : (behind ++ [n])[i]? = behind[i]? :=
  List.getElem?_append_left (h.length_eq ▸ hi)

theorem earlier_attached (h : plan.Forward behind) (active : plan.leaves = leaf :: rest)
    (continues : Continues leaf m children resources) {l : Leaf}
    (hl : l ∈ (plan.attached id bindings resources leaf rest m children minted).leaves)
    {i : PlanNodeId} {n : Nat}
    (hi : (plan.attached id bindings resources leaf rest m children minted).OnWay i l)
    (hn : (behind ++ [leaf.recirculations])[i]? = some n) : n ≤ l.recirculations := by
  have hleaf : leaf ∈ plan.leaves := active ▸ List.mem_cons_self
  rw [attached_leaves] at hl
  rcases List.mem_append.mp hl with hl | hl
  · obtain ⟨child, hchild, rfl⟩ := List.mem_map.mp hl
    change n ≤ child.recirculations
    rw [continues.passes child hchild]
    rcases h.rooted.onWay_attached_new hleaf rfl hi with rfl | hi
    · rw [h.getElem?_new] at hn
      cases hn
      exact Nat.le_refl _
    · rw [h.getElem?_old _ (h.rooted.lt_of_onWay hleaf hi)] at hn
      exact h.earlier leaf hleaf hi hn
  · have hrest : l ∈ plan.leaves := active ▸ List.mem_cons_of_mem leaf hl
    have hi := h.rooted.onWay_attached hleaf hrest hi
    rw [h.getElem?_old _ (h.rooted.lt_of_onWay hrest hi)] at hn
    exact h.earlier l hrest hi hn

theorem met_attached (h : plan.Forward behind) (active : plan.leaves = leaf :: rest)
    (continues : Continues leaf m children resources) {l : Leaf}
    (hl : l ∈ (plan.attached id bindings resources leaf rest m children minted).leaves)
    (onSwitch : l.target = .switch) {i : PlanNodeId} {found : Module}
    (hi : (plan.attached id bindings resources leaf rest m children minted).OnWay i l)
    (hn : (behind ++ [leaf.recirculations])[i]? = some l.recirculations)
    (hfound : (plan.attached id bindings resources leaf rest m children minted).module? i =
      some found) {o : SwitchObject} (ho : o ∈ found.objects) : o ∈ l.passDeps := by
  have hleaf : leaf ∈ plan.leaves := active ▸ List.mem_cons_self
  rw [attached_leaves] at hl
  rcases List.mem_append.mp hl with hl | hl
  · obtain ⟨child, hchild, rfl⟩ := List.mem_map.mp hl
    change (behind ++ [leaf.recirculations])[i]? = some child.recirculations at hn
    rw [continues.passes child hchild] at hn
    obtain ⟨hswitch, hnotes⟩ := continues.notes child hchild onSwitch
    apply hnotes
    rcases h.rooted.onWay_attached_new hleaf rfl hi with rfl | hi
    · rw [attached_module?_new] at hfound
      cases hfound
      exact .inr ho
    · have hlt := h.rooted.lt_of_onWay hleaf hi
      rw [h.getElem?_old _ hlt] at hn
      exact .inl (h.met leaf hleaf hswitch hi hn (attached_module?_of_lt hlt hfound) o ho)
  · have hrest : l ∈ plan.leaves := active ▸ List.mem_cons_of_mem leaf hl
    have hi := h.rooted.onWay_attached hleaf hrest hi
    have hlt := h.rooted.lt_of_onWay hrest hi
    rw [h.getElem?_old _ hlt] at hn
    exact h.met l hrest onSwitch hi hn (attached_module?_of_lt hlt hfound) o ho

theorem ordered_attached (h : plan.Forward behind) (active : plan.leaves = leaf :: rest)
    (hr : plan.resources.Indexed) (leads : plan.resources.Leads resources)
    (continues : Continues leaf m children resources) {i j : PlanNodeId} {A B : Module}
    (hij : (plan.attached id bindings resources leaf rest m children minted).Above i j)
    (hn : (behind ++ [leaf.recirculations])[i]? = (behind ++ [leaf.recirculations])[j]?)
    (hA : (plan.attached id bindings resources leaf rest m children minted).module? i = some A)
    (hB : (plan.attached id bindings resources leaf rest m children minted).module? j = some B)
    {a b : SwitchObject} (ha : a ∈ A.objects) (hb : b ∈ B.objects) (hfused : a ∉ B.fused) :
    resources.Ahead a b := by
  have hleaf : leaf ∈ plan.leaves := active ▸ List.mem_cons_self
  rcases h.rooted.above_attached hleaf hij with hij | ⟨rfl, hi⟩
  · have hi := h.rooted.lt_of_above hij
    have hj := hij.lt
    rw [h.getElem?_old _ hi, h.getElem?_old _ hj] at hn
    have hA := attached_module?_of_lt hi hA
    have hB := attached_module?_of_lt hj hB
    exact leads.ahead hr (h.ordered hij hn hA hB a ha b hb hfused)
  · have hlt := h.rooted.lt_of_onWay hleaf hi
    rw [attached_module?_new] at hB
    cases hB
    rw [h.getElem?_new, h.getElem?_old _ hlt] at hn
    have hswitch : leaf.target = .switch := by
      by_contra hne
      rw [Module.objects, if_neg (continues.onTarget ▸ hne)] at hb
      cases hb
    have hmet := h.met leaf hleaf hswitch hi hn (attached_module?_of_lt hlt hA) a ha
    exact continues.behind a hmet hfused b hb

theorem attached (h : plan.Forward behind) (active : plan.leaves = leaf :: rest)
    (hr : plan.resources.Indexed) (leads : plan.resources.Leads resources)
    (continues : Continues leaf m children resources) :
    (plan.attached id bindings resources leaf rest m children minted).Forward
      (behind ++ [leaf.recirculations]) where
  rooted := h.rooted.attached active
  length_eq := by
    rw [length_attached_nodes, List.length_append, h.length_eq]
    rfl
  earlier _ hl {_ _} hi hn := h.earlier_attached active continues hl hi hn
  met _ hl onSwitch {_ _} hi hn hfound _ ho :=
    h.met_attached active continues hl onSwitch hi hn hfound ho
  ordered hij hn hA hB _ ha _ hb hfused := by
    rw [attached_resources]
    exact h.ordered_attached active hr leads continues hij hn hA hB ha hb hfused
  within := by
    rw [attached_resources]
    intro j found hfound
    rcases attached_module?_eq_some hfound with hfound | ⟨_, rfl⟩
    · exact (h.within hfound).imp fun hab => leads.ahead hr hab
    · exact continues.within

end Forward

/-! ## One step -/

theorem Offer.continues {problem : Problem} {leaf : Leaf} {rest : List Leaf} {t : Technique}
    {p : Proposal} {k : NodeKind} {a : Action} {stages : List Nat} {resources : Pipeline}
    (hr : plan.resources.Indexed) (offer : Offer problem plan leaf rest t p)
    (acts : p.module? = some ⟨leaf.target, leaf.next, a⟩) (follows : p.next.Follows k)
    (placed : p.place leaf.passDeps plan.resources = .ok (stages, resources)) :
    Continues leaf ⟨leaf.target, leaf.next, a⟩ (p.next.leaves leaf p.objects) resources := by
  have hacts : p ≠ Technique.revisit leaf := by
    rintro rfl
    cases acts
  obtain ⟨ps, hps, hp⟩ := offer.proposed hacts
  obtain ⟨hobjects, hfused⟩ := (Technique.proposals_steady hps hp).1.placed acts
  obtain ⟨hbehind, hpairs⟩ := Proposal.placeFrom_ahead hr placed
  change ∀ o ∈ p.objects, _ at hbehind
  change p.objects.Pairwise _ at hpairs
  rw [hobjects] at hbehind hpairs
  exact {
    onTarget := rfl
    behind := by
      intro x hx hx' o ho
      exact hbehind o ho x (Proposal.mem_dependencies.mpr (.inr ⟨hx, hfused ▸ hx'⟩))
    within := hpairs
    passes := fun l hl => (leaf_of_follows follows hl).2.2.1
    notes := by
      intro l hl ht
      obtain ⟨_, htarget, _, hnotes⟩ := leaf_of_follows follows hl
      refine ⟨htarget ▸ ht, ?_⟩
      rw [← hobjects]
      exact fun o => (hnotes o).mpr }

/-- A step replaces the active leaf by leaves that are as many passes further as the ledger has
counted, and gives its own passes to the node that it adds. -/
theorem Forward.step {problem : Problem} {after : Plan} {behind : List Nat}
    (h : plan.Forward behind) (hr : plan.resources.Indexed) (step : plan.Step problem after) :
    ∃ leaf rest children, plan.leaves = leaf :: rest ∧ after.leaves = children ++ rest ∧
      (∀ l ∈ children, l.recirculations + plan.ledger.recirculations =
        leaf.recirculations + after.ledger.recirculations) ∧
      after.Forward (behind ++
        List.replicate (after.nodes.length - plan.nodes.length) leaf.recirculations) := by
  cases step with
  | @pass leaf rest t p node n id bindings offer present silent goes follows =>
    refine ⟨leaf, rest, p.next.leaves leaf p.objects, offer.active, rfl, ?_, ?_⟩
    · intro l hl
      rw [(leaf_of_follows follows hl).2.2.1]
      rfl
    · change (plan.passed id bindings plan.resources leaf rest _).Forward
        (behind ++ List.replicate (plan.nodes.length - plan.nodes.length) leaf.recirculations)
      rw [Nat.sub_self, List.replicate_zero, List.append_nil, goes]
      refine h.moved offer.active ?_ rfl rfl rfl
      exact ⟨rfl, rfl, Nat.le_refl _, fun _ o ho => (OrdSet.mem_insertAll _ _ _).mpr (.inr ho)⟩
  | @act leaf rest t p node a id bindings stages resources offer present acts keeps follows _ bound
      placed =>
    refine ⟨leaf, rest, _, offer.active, attached_leaves, ?_, ?_⟩
    · intro l hl
      obtain ⟨child, hchild, rfl⟩ := List.mem_map.mp hl
      rw [attached_recirculations]
      exact congrArg (· + _) (leaf_of_follows follows hchild).2.2.1
    · rw [length_attached_nodes, Nat.add_sub_cancel_left]
      exact h.attached offer.active hr (placeFrom_leads placed)
        (offer.continues hr acts follows placed)
  | @handOver leaf rest t p node id bindings symbol offer present onSwitch =>
    refine ⟨leaf, rest, _, offer.active, attached_leaves, ?_, ?_⟩
    · intro l hl
      cases List.mem_singleton.mp hl
      rw [attached_recirculations]
      rfl
    · rw [length_attached_nodes, Nat.add_sub_cancel_left]
      refine h.attached offer.active hr .refl ⟨onSwitch.symm, nofun, .nil, ?_, ?_⟩
      · intro l hl
        cases List.mem_singleton.mp hl
        rfl
      · intro l hl ht
        cases List.mem_singleton.mp hl
        cases ht
  | @revisit leaf rest t id offer onSwitch =>
    refine ⟨leaf, rest, [_], offer.active, rfl, ?_, ?_⟩
    · intro l hl
      cases List.mem_singleton.mp hl
      change leaf.recirculations + 1 + plan.ledger.recirculations =
        leaf.recirculations + (plan.ledger.recirculations + 1)
      omega
    · change (plan.revisited id leaf rest).Forward
        (behind ++ List.replicate (plan.nodes.length - plan.nodes.length) leaf.recirculations)
      rw [Nat.sub_self, List.replicate_zero, List.append_nil]
      refine h.moved offer.active ?_ rfl rfl rfl
      refine ⟨rfl, rfl, Nat.le_succ _, ?_⟩
      intro he
      exact absurd he (Nat.succ_ne_self _)

end Plan

/-! ## Whole derivations -/

namespace Technique

theorem kind_eq_recirculate_iff {problem : Problem} {plan : Plan} {leaf : Leaf} {rest : List Leaf}
    {t : Technique} {p : Proposal} (h : Plan.Offer problem plan leaf rest t p) :
    t.kind = .recirculate ↔ p.module? = none ∧ p.next = .revisit := by
  obtain ⟨ps, hps, hp⟩ := h.offered
  constructor
  · intro hk
    rw [offers, if_pos hk] at hps
    obtain ⟨rfl, _⟩ := Plan.mem_recirculation hps hp
    exact ⟨rfl, rfl⟩
  · rintro ⟨hsilent, hrevisit⟩
    by_contra hk
    rw [offers, if_neg hk] at hps
    rcases (t.proposals_yields problem.graph plan.bindings leaf.next).result hps with
      rfl | ⟨node, _, _, hfit⟩
    · simp at hp
    · cases hfit p hp with
      | pass _ goes => simp [goes] at hrevisit
      | act acts => simp [acts] at hsilent
      | handOver _ acts => simp [acts] at hsilent

theorem grow_recirculations {plan child : Plan} {leaf : Leaf} {p : Proposal}
    {symbols symbols' : SymbolSource} (h : grow plan leaf p symbols = .ok (child, symbols')) :
    child.ledger.recirculations = plan.ledger.recirculations +
      if p.module? = none ∧ p.next = .revisit then 1 else 0 := by
  cases grows_of_grow h with
  | attach acts mints =>
    rw [if_neg (by simp [acts])]
    unfold mint at mints
    split at mints <;> cases mints <;> cases p.next.leaves leaf p.objects <;> rfl
  | revisit silent goes =>
    rw [if_pos ⟨silent, goes⟩]
    rfl
  | skip silent goes =>
    rw [if_neg fun hp => goes hp.2]
    rfl

theorem recirculations_of_expand {problem : Problem} {t : Technique} {plan : Plan}
    {supply after : Supply} {e : Expansion} (known : t ∈ problem.techniques)
    (h : t.expand problem plan supply = .ok (e, after)) {c : Candidate} (hc : c ∈ e.candidates) :
    c.plan.ledger.recirculations =
      plan.ledger.recirculations + if t.kind = .recirculate then 1 else 0 := by
  obtain ⟨leaf, rest, p, first, second, offer, hr⟩ := offer_of_expand known h hc
  obtain ⟨bindings, stages, resources, symbols, _, _, hgrow, _⟩ := realize_eq_ok hr
  have hcount := grow_recirculations hgrow
  rw [if_congr (kind_eq_recirculate_iff offer) rfl rfl]
  exact hcount

end Technique

/-- A derivation together with the number of passes that lie behind each leaf and behind each node
of the plan. -/
inductive Counts (problem : Problem) : List Choice → Plan → List Nat → List Nat → Prop
  | root (id : PlanId) : Counts problem [] (.empty problem id) [0] []
  | expand {choices : List Choice} {plan : Plan} {passes : Nat} {others behind : List Nat}
      {t : Technique} {supply after : Supply} {expansion : Expansion} {i : Nat}
      {candidate : Candidate} (before : Counts problem choices plan (passes :: others) behind)
      (known : t ∈ problem.techniques)
      (expanded : t.expand problem plan supply = .ok (expansion, after))
      (chosen : expansion.candidates[i]? = some candidate) :
      Counts problem ((t, i) :: choices) candidate.plan
        (List.replicate (candidate.plan.leaves.length - others.length)
          (if t.kind = .recirculate then passes + 1 else passes) ++ others)
        (behind ++ List.replicate (candidate.plan.nodes.length - plan.nodes.length) passes)

namespace Counts
variable {problem : Problem} {choices : List Choice} {plan : Plan} {left behind : List Nat}

theorem derives (h : Counts problem choices plan left behind) : Derives problem choices plan := by
  induction h with
  | root id => exact .root id
  | expand _ known expanded chosen ih => exact .expand ih known expanded chosen

theorem forward (wp : problem.WellPosed) (h : Counts problem choices plan left behind) :
    left = plan.leaves.map (·.recirculations) ∧ plan.Forward behind := by
  induction h with
  | root id => exact ⟨rfl, Plan.forward_empty problem id⟩
  | @expand choices plan passes others behind t supply after expansion i candidate before known
      expanded chosen ih =>
    obtain ⟨hleft, hforward⟩ := ih
    have hc := List.mem_of_getElem? chosen
    have hstep := Technique.step_of_expand known expanded hc
    have hcount := Technique.recirculations_of_expand known expanded hc
    have hr := (before.derives.lawful wp).placed.indexed
    obtain ⟨leaf, rest, children, active, hleaves, hpasses, hnext⟩ := hforward.step hr hstep
    rw [active, List.map_cons] at hleft
    obtain ⟨rfl, rfl⟩ := List.cons.inj hleft
    refine ⟨?_, hnext⟩
    rw [hleaves, List.map_append, List.length_append, List.length_map, Nat.add_sub_cancel]
    congr 1
    symm
    rw [List.map_eq_replicate_iff]
    intro l hl
    have hl := hpasses l hl
    split at hcount
    · rename_i hk
      rw [if_pos hk]
      omega
    · rename_i hk
      rw [if_neg hk]
      omega

end Counts

/-- Makes the choices as `Plan.replay` does, and counts the passes. -/
def Plan.replayCounted (problem : Problem) : List Choice → Option (Plan × List Nat × List Nat)
  | [] => some (.empty problem 0, [0], [])
  | (t, i) :: choices =>
    match replayCounted problem choices with
    | some (plan, passes :: others, behind) =>
      if t ∈ problem.techniques then
        match t.expand problem plan {} with
        | .ok (expansion, _) => expansion.candidates[i]?.map fun c =>
          (c.plan, List.replicate (c.plan.leaves.length - others.length)
              (if t.kind = .recirculate then passes + 1 else passes) ++ others,
            behind ++ List.replicate (c.plan.nodes.length - plan.nodes.length) passes)
        | .error _ => none
      else none
    | _ => none

theorem counts_of_replay {problem : Problem} {choices : List Choice} {plan : Plan}
    {left behind : List Nat} (h : Plan.replayCounted problem choices = some (plan, left, behind)) :
    Counts problem choices plan left behind := by
  induction choices generalizing plan left behind with
  | nil =>
    cases h
    exact .root 0
  | cons choice choices ih =>
    simp only [Plan.replayCounted] at h
    split at h
    · rename_i hbefore
      split at h
      · rename_i known
        split at h
        · rename_i expanded
          obtain ⟨candidate, chosen, h⟩ := Option.map_eq_some_iff.mp h
          cases h
          exact .expand (ih hbefore) known expanded chosen
        · cases h
      · cases h
    · cases h

theorem Derives.counts {problem : Problem} (wp : problem.WellPosed) {choices : List Choice}
    {plan : Plan} (h : Derives problem choices plan) :
    ∃ left behind, Counts problem choices plan left behind := by
  induction h with
  | root id => exact ⟨_, _, .root id⟩
  | @expand choices plan t supply after expansion i candidate before known expanded chosen ih =>
    obtain ⟨left, behind, hcounts⟩ := ih
    obtain ⟨hleft, _⟩ := hcounts.forward wp
    have hc := List.mem_of_getElem? chosen
    obtain ⟨leaf, rest, _, _, _, offer, _⟩ := Technique.offer_of_expand known expanded hc
    rw [offer.active, List.map_cons] at hleft
    subst hleft
    exact ⟨_, _, .expand hcounts known expanded chosen⟩

/-- Along a path of a derived plan, and within one pass, the stages ascend: what a module places is
ahead of all that a module below it places, unless the lower module fuses it. The hash unit of a
sketch is ahead of its registers. So no table and no digest is met twice in one pass. -/
theorem stages_ascend_within_a_pass {kinds : List NodeKind} {root : NodeId} {g : Graph} {c : Config}
    {problem : Problem} {choices : List Choice} {plan : Plan}
    (accepted : Graph.ofKinds kinds root = .ok g) (posed : Problem.ofConfig g c = .ok problem)
    (derived : Derives problem choices plan) :
    (∃ left behind, Counts problem choices plan left behind) ∧
      ∀ left behind, Counts problem choices plan left behind →
        behind.length = plan.nodes.length ∧
        (∀ i j A B, plan.Above i j → behind[i]? = behind[j]? → plan.module? i = some A →
          plan.module? j = some B →
          (∀ a ∈ A.objects, ∀ b ∈ B.objects, a ∉ B.fused → plan.resources.Ahead a b) ∧
            ∀ o ∈ A.objects, o ∈ B.objects → o.role ≠ .table ∧ o.role ≠ .digest) ∧
        ∀ j m, plan.module? j = some m → ∀ addr, ⟨addr, .hash⟩ ∈ m.objects →
          plan.resources.Ahead ⟨addr, .hash⟩ ⟨addr, .register⟩ := by
  have wp := Problem.wellPosed_of_ofConfig accepted posed
  refine ⟨derived.counts wp, ?_⟩
  intro left behind hcounts
  obtain ⟨_, h⟩ := hcounts.forward wp
  refine ⟨h.length_eq, ?_, ?_⟩
  · intro i j A B hij hpass hA hB
    have hordered := h.ordered hij hpass hA hB
    refine ⟨hordered, ?_⟩
    intro o ho ho'
    have hfused : o ∈ B.fused := by
      by_contra hne
      exact Pipeline.not_ahead_self (hordered o ho o ho' hne)
    exact Module.role_of_mem_fused hfused
  · intro j m hm addr hmem
    have hwithin := h.within hm
    rw [Module.objects_of_mem_hash hmem, List.pairwise_pair] at hwithin
    exact hwithin

def repeatedLookup : List NodeKind :=
  let keyed (addr : Addr) : OrdMap String Expr :=
    .ofList [("obj", .addr addr), ("key", .term "k" 8)]
  [.terminal .drop,
    .call { function := "map_get", args := keyed ⟨1⟩, next := some 0 },
    .call { function := "cms_increment", args := keyed ⟨2⟩, next := some 1 },
    .call { function := "map_get", args := keyed ⟨1⟩, next := some 2 },
    .call { function := "cms_allocate", args := .ofList [("obj", .addr ⟨2⟩)], next := some 3 },
    .call { function := "map_allocate", args := .ofList [("obj", .addr ⟨1⟩)], next := some 4 }]

/-- The sketch is behind the table; the second lookup has to wait for a second pass. -/
theorem repeated_lookup_ascends :
    ∃ g problem plan left, Graph.ofKinds repeatedLookup 5 = .ok g ∧
      Problem.ofConfig g {} = .ok problem ∧
      Counts problem [(⟨.switch, .tableLookup⟩, 0), (⟨.switch, .recirculate⟩, 0),
        (⟨.switch, .sketchUpdate⟩, 0), (⟨.switch, .tableLookup⟩, 0), (⟨.switch, .allocate⟩, 0),
        (⟨.switch, .allocate⟩, 0)] plan left [0, 0, 0, 0, 1] ∧
      plan.resources.Ahead ⟨⟨1⟩, .table⟩ ⟨⟨2⟩, .hash⟩ ∧
      plan.resources.Ahead ⟨⟨2⟩, .hash⟩ ⟨⟨2⟩, .register⟩ := by
  refine ⟨_, _, _, _, rfl, rfl, counts_of_replay rfl, ?_⟩
  have h := (@stages_ascend_within_a_pass repeatedLookup 5 _ {} _
    [(⟨.switch, .tableLookup⟩, 0), (⟨.switch, .recirculate⟩, 0), (⟨.switch, .sketchUpdate⟩, 0),
      (⟨.switch, .tableLookup⟩, 0), (⟨.switch, .allocate⟩, 0), (⟨.switch, .allocate⟩, 0)] _ rfl rfl
    (derives_of_replay rfl)).2 _ _ (counts_of_replay rfl)
  constructor
  · exact (h.2.1 2 3 _ _ (.single rfl) rfl rfl rfl).1 _ (by decide) _ (by decide) (by decide)
  · exact h.2.2 3 _ rfl ⟨2⟩ (by decide)

end PacketPlan
