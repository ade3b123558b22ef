import PacketPlan.Proofs.Plan.Extension
import PacketPlan.Proofs.Plan.Growth

/-! # The tree of a plan and its ledger

The nodes of a plan are numbered in the order in which they were added, and know their parents and
their children. The ledger counts modules, keeps the greatest depth and notes which node handles a
site and which nodes have minted a symbol. All of this is written at different places, and agrees:
the nodes form one tree below the first of them, and the ledger says of them what they are.

A leaf that hangs below no node takes the topmost module, and there must be no other one yet. So
what is attached without a parent is attached to a plan without nodes, however many sites were
passed over before.
-/
namespace PacketPlan

instance : LawfulRanked Target where
  rank_injective {a b} h := by
    cases a <;> cases b <;> simp [Ranked.rank, Target.index] at h ⊢

namespace Ledger

theorem totalModules_insert {l : Ledger} (asc : OrdMap.Ascending l.modules.entries) (t : Target) :
    ((l.modules.insert t (l.modulesOn t + 1)).values).sum = l.totalModules + 1 := by
  have hold : l.totalModules = (l.modules.entries.map Prod.snd).sum := rfl
  change ((OrdMap.insertEntry t (l.modulesOn t + 1) l.modules.entries).map Prod.snd).sum = _
  rw [hold, modulesOn]
  cases hcount : l.modules.get? t with
  | none =>
    have hperm := OrdMap.insertEntry_perm_of_none (v := 0 + 1) hcount
    rw [Option.getD_none, (hperm.map Prod.snd).sum_nat]
    simp [Nat.add_comm]
  | some count =>
    obtain ⟨rest, hbefore, hafter⟩ := asc.exists_perm_insertEntry hcount (count + 1)
    rw [Option.getD_some, (hafter.map Prod.snd).sum_nat, (hbefore.map Prod.snd).sum_nat]
    simp only [List.map_cons, List.sum_cons]
    omega

end Ledger

namespace Plan
variable {problem : Problem} {plan child : Plan} {leaf : Leaf}

/-- The nodes form a tree below the first of them. Parents come before their children, and list each
of them once and nothing else. -/
structure Threaded (plan : Plan) : Prop where
  numbered : ∀ {i n}, plan.node? i = some n → n.id = i
  root : plan.root = if plan.nodes = [] then none else some 0
  top : ∀ {i n}, plan.node? i = some n → (n.parent = none ↔ i = 0)
  shallow : ∀ {n}, plan.node? 0 = some n → n.depth = 1
  below : ∀ {i n j}, plan.node? i = some n → n.parent = some j →
    ∃ above, plan.node? j = some above ∧ j < i ∧ above.children.count i = 1 ∧
      n.depth = above.depth + 1
  listed : ∀ {j above i}, plan.node? j = some above → i ∈ above.children →
    ∃ n, plan.node? i = some n ∧ n.parent = some j

/-- The ledger counts the modules, in all and on each target, and keeps the greatest depth. -/
structure Tallied (plan : Plan) : Prop where
  ascending : OrdMap.Ascending plan.ledger.modules.entries
  depth : plan.ledger.depth = (plan.nodes.map PlanNode.depth).foldl max 0
  modulesOn : ∀ t, plan.ledger.modulesOn t = plan.modules.countP (·.target = t)
  totalModules : plan.ledger.totalModules = plan.nodes.length

/-- Symbols are minted where a packet is handed over, and only there. -/
def MintsHandovers (plan : Plan) : Prop :=
  ∀ i, plan.ledger.minted.contains i = true ↔
    ∃ m, plan.module? i = some m ∧ m.action = .sendToController

/-! ## The tree -/

theorem lt_of_node? {i : PlanNodeId} {n : PlanNode} (h : plan.node? i = some n) :
    i < plan.nodes.length :=
  (List.getElem?_eq_some_iff.mp h).1

/-- What a module in place of the leaf adds to the children of a node. -/
def adopted (plan : Plan) (leaf : Leaf) (i : PlanNodeId) : List PlanNodeId :=
  if leaf.attach = some i then [plan.nodes.length] else []

theorem Grafts.node?_old (g : plan.Grafts child leaf) {i : PlanNodeId} {n : PlanNode}
    (h : plan.node? i = some n) :
    child.node? i = some { n with children := n.children ++ plan.adopted leaf i } := by
  rw [g.old h, adopted]
  split <;> simp

/-- A node of the grown plan was there before, perhaps with fewer children, or it is the new one. -/
theorem Grafts.node?_cases (g : plan.Grafts child leaf) {i : PlanNodeId} {n : PlanNode}
    (h : child.node? i = some n) :
    (∃ old, plan.node? i = some old ∧
        n = { old with children := old.children ++ plan.adopted leaf i }) ∨
      i = plan.nodes.length ∧ ∃ a, n = ⟨plan.nodes.length, ⟨leaf.target, leaf.next, a⟩,
        leaf.attach, [], plan.depthBelow leaf.attach⟩ := by
  have hlt := lt_of_node? h
  rw [g.length_eq] at hlt
  rcases Nat.lt_succ_iff_lt_or_eq.mp hlt with hi | hi
  · left
    have hold : plan.node? i = some (plan.nodes.get ⟨i, hi⟩) := List.getElem?_eq_getElem hi
    rw [g.node?_old hold, Option.some.injEq] at h
    exact ⟨_, hold, h.symm⟩
  · right
    obtain ⟨a, ha⟩ := g.added
    rw [hi, ha, Option.some.injEq] at h
    exact ⟨hi, a, h.symm⟩

theorem Threaded.of_same (h : plan.Threaded) (nodes : child.nodes = plan.nodes)
    (root : child.root = plan.root) : child.Threaded := by
  have hnode : child.node? = plan.node? := by
    funext i
    rw [node?, nodes, node?]
  constructor
  · rw [hnode]
    exact h.numbered
  · rw [root, nodes]
    exact h.root
  · rw [hnode]
    exact h.top
  · rw [hnode]
    exact h.shallow
  · rw [hnode]
    exact h.below
  · rw [hnode]
    exact h.listed

theorem Threaded.attach_eq_none_iff (h : plan.Threaded) (g : plan.Grafts child leaf) :
    leaf.attach = none ↔ plan.nodes = [] := by
  constructor
  · intro hattach
    have hroot := g.top hattach
    rw [h.root] at hroot
    by_contra hnodes
    simp [hnodes] at hroot
  · intro hnodes
    cases hattach : leaf.attach with
    | none => rfl
    | some i =>
      obtain ⟨n, hn⟩ := g.parent hattach
      simp [node?, hnodes] at hn

theorem Threaded.count_length (h : plan.Threaded) {j : PlanNodeId} {above : PlanNode}
    (hj : plan.node? j = some above) : above.children.count plan.nodes.length = 0 := by
  rw [List.count_eq_zero]
  intro hmem
  obtain ⟨n, hn, _⟩ := h.listed hj hmem
  exact absurd (lt_of_node? hn) (Nat.lt_irrefl _)

theorem Threaded.grafts (h : plan.Threaded) (g : plan.Grafts child leaf) : child.Threaded where
  numbered := by
    intro i n hi
    obtain ⟨old, hold, rfl⟩ | ⟨rfl, a, rfl⟩ := g.node?_cases hi
    · simpa using h.numbered hold
    · rfl
  root := by
    have hnodes : child.nodes ≠ [] := by
      intro hnil
      simpa [hnil] using g.length_eq
    rw [g.root, if_neg hnodes, h.root]
    by_cases hnone : plan.nodes = []
    · simp [hnone, (h.attach_eq_none_iff g).mpr hnone]
    · simp [hnone, (h.attach_eq_none_iff g).not.mpr hnone]
  top := by
    intro i n hi
    obtain ⟨old, hold, rfl⟩ | ⟨rfl, a, rfl⟩ := g.node?_cases hi
    · simpa using h.top hold
    · exact (h.attach_eq_none_iff g).trans List.length_eq_zero_iff.symm
  shallow := by
    intro n hn
    obtain ⟨old, hold, rfl⟩ | ⟨hzero, a, rfl⟩ := g.node?_cases hn
    · simpa using h.shallow hold
    · have hattach := (h.attach_eq_none_iff g).mpr (List.length_eq_zero_iff.mp hzero.symm)
      simp [depthBelow, hattach]
  below := by
    intro i n j hi hparent
    obtain ⟨old, hold, rfl⟩ | ⟨rfl, a, rfl⟩ := g.node?_cases hi
    · obtain ⟨above, habove, hlt, hcount, hdepth⟩ := h.below hold hparent
      refine ⟨_, g.node?_old habove, hlt, ?_, hdepth⟩
      have hne : plan.nodes.length ≠ i := Nat.ne_of_gt (lt_of_node? hold)
      rw [List.count_append, hcount, adopted]
      split <;> simp [hne]
    · obtain ⟨above, habove⟩ := g.parent hparent
      refine ⟨_, g.node?_old habove, lt_of_node? habove, ?_, ?_⟩
      · rw [List.count_append, h.count_length habove, adopted, if_pos hparent]
        simp
      · have hattach : leaf.attach = some j := hparent
        simp [depthBelow, hattach, habove]
  listed := by
    intro j above i hj hi
    obtain ⟨old, hold, rfl⟩ | ⟨rfl, a, rfl⟩ := g.node?_cases hj
    · rcases List.mem_append.mp hi with hi | hi
      · obtain ⟨n, hn, hparent⟩ := h.listed hold hi
        exact ⟨_, g.node?_old hn, hparent⟩
      · obtain ⟨a, ha⟩ := g.added
        unfold adopted at hi
        split at hi
        · rename_i hattach
          rw [List.mem_singleton.mp hi]
          exact ⟨_, ha, hattach⟩
        · simp at hi
    · simp at hi

theorem Threaded.step (h : plan.Threaded) (rooted : plan.Rooted) (step : plan.Step problem child) :
    child.Threaded := by
  obtain ⟨leaf, rest, new, _, _, hreplaces⟩ := step.replaces rooted
  rcases hreplaces with ⟨hrepeats, _⟩ | ⟨hsettles, _⟩
  · exact h.of_same hrepeats.nodes hrepeats.root
  · obtain ⟨how, _, _, ⟨_, hnodes, hroot, _⟩ | ⟨_, hgrafts, _⟩⟩ := hsettles.handled
    · exact h.of_same hnodes hroot
    · exact h.grafts hgrafts

/-! ## The ledger -/

section attached
variable {id : PlanId} {bindings : Bindings} {resources : Pipeline} {rest children : List Leaf}
variable {m : Module} {minted : Option Symbol}

theorem attached_depth :
    (plan.attached id bindings resources leaf rest m children minted).ledger.depth =
      max plan.ledger.depth (plan.depthBelow leaf.attach) := by
  cases minted <;> cases children <;> rfl

theorem attached_counts :
    (plan.attached id bindings resources leaf rest m children minted).ledger.modules =
      plan.ledger.modules.insert leaf.target (plan.ledger.modulesOn leaf.target + 1) := by
  cases minted <;> cases children <;> rfl

theorem Tallied.attached (h : plan.Tallied) (hm : m.target = leaf.target) :
    (plan.attached id bindings resources leaf rest m children minted).Tallied where
  ascending := by
    rw [attached_counts]
    exact h.ascending.insertEntry _ _
  depth := by
    rw [attached_depth, attached_nodes, List.map_append, map_linked _ _ _ _ fun _ _ => rfl, h.depth]
    simp
  modulesOn := by
    intro t
    rw [Ledger.modulesOn, attached_counts, attached_modules, OrdMap.get?_insert, List.countP_append,
      ← h.modulesOn, List.countP_singleton, hm]
    by_cases ht : t = leaf.target
    · simp [ht]
    · simp [ht, Ne.symm ht, Ledger.modulesOn]
  totalModules := by
    rw [length_attached_nodes, ← h.totalModules, ← Ledger.totalModules_insert h.ascending]
    rw [Ledger.totalModules, attached_counts]
    rfl

theorem MintsHandovers.attached (h : plan.MintsHandovers)
    (mints : m.action = .sendToController ↔ minted.isSome) :
    (plan.attached id bindings resources leaf rest m children minted).MintsHandovers := by
  intro i
  have hmodule : (∃ m', (plan.attached id bindings resources leaf rest m children minted).module? i
      = some m' ∧ m'.action = .sendToController) ↔
      plan.ledger.minted.contains i = true ∨ i = plan.nodes.length ∧ minted.isSome := by
    rw [h i]
    constructor
    · rintro ⟨m', hm', haction⟩
      rcases attached_module?_eq_some hm' with hold | ⟨hi, rfl⟩
      · exact .inl ⟨m', hold, haction⟩
      · exact .inr ⟨hi, mints.mp haction⟩
    · rintro (⟨m', hold, haction⟩ | ⟨rfl, hminted⟩)
      · exact ⟨m', attached_module?_old hold, haction⟩
      · exact ⟨m, attached_module?_new, mints.mpr hminted⟩
  rw [hmodule, attached_minted]
  cases minted with
  | none => simp
  | some symbol =>
    rw [Option.elim_some, OrdMap.contains, OrdMap.get?_insert]
    by_cases hi : i = plan.nodes.length
    · simp [hi]
    · simp [hi, OrdMap.contains]

end attached

theorem Tallied.step (h : plan.Tallied) (step : plan.Step problem child) : child.Tallied := by
  cases step with
  | pass | revisit => exact ⟨h.ascending, h.depth, h.modulesOn, h.totalModules⟩
  | act => exact h.attached rfl
  | handOver _ _ onSwitch => exact h.attached onSwitch.symm

theorem MintsHandovers.step (h : plan.MintsHandovers) (step : plan.Step problem child) :
    child.MintsHandovers := by
  cases step with
  | pass | revisit => exact h
  | act _ _ _ keeps => exact h.attached (by simp [keeps])
  | handOver => exact h.attached (by simp)

end Plan

open Plan

theorem Derives.threaded {problem : Problem} (wp : problem.WellPosed) {choices : List Choice}
    {plan : Plan} (h : Derives problem choices plan) : plan.Threaded := by
  induction h with
  | root id => constructor <;> simp [Plan.empty, node?]
  | expand before known expanded chosen ih =>
    have step := Technique.step_of_expand known expanded (List.mem_of_getElem? chosen)
    exact ih.step (before.rooted wp) step

theorem Derives.tallied {problem : Problem} {choices : List Choice} {plan : Plan}
    (h : Derives problem choices plan) : plan.Tallied := by
  apply h.invariant
  · intro id
    exact ⟨.nil, rfl, fun _ => rfl, rfl⟩
  · exact fun tallied step => tallied.step step

theorem Derives.mintsHandovers {problem : Problem} {choices : List Choice} {plan : Plan}
    (h : Derives problem choices plan) : plan.MintsHandovers := by
  apply h.invariant
  · intro id i
    constructor
    · intro hi
      cases hi
    · rintro ⟨m, hm, _⟩
      simp [Plan.empty, module?, node?] at hm
  · exact fun mints step => mints.step step

/-- In every derived plan the nodes form one tree below the first of them, the ledger counts modules
and depth as they are, a site is noted as handled by a node just when the module there is for that
site, and a symbol is noted for a node just when the module there hands packets over. -/
theorem ledger_agrees_with_tree {kinds : List NodeKind} {root : NodeId} {g : Graph} {c : Config}
    {problem : Problem} {choices : List Choice} {plan : Plan}
    (accepted : Graph.ofKinds kinds root = .ok g) (posed : Problem.ofConfig g c = .ok problem)
    (derived : Derives problem choices plan) :
    plan.Threaded ∧ plan.Tallied ∧
      (∀ s i, plan.ledger.processed? s = some (some i) ↔
        ∃ n, plan.node? i = some n ∧ n.module.node = s.node ∧ n.module.target = s.target) ∧
      ∀ i, plan.ledger.minted.contains i = true ↔
        ∃ n, plan.node? i = some n ∧ n.module.action = .sendToController := by
  have wp := Problem.wellPosed_of_ofConfig accepted posed
  refine ⟨derived.threaded wp, derived.tallied, ?_, ?_⟩
  · intro s i
    constructor
    · intro hs
      obtain ⟨a, ha⟩ := (derived.lawful wp).tracked.registered hs
      obtain ⟨n, hn, hmodule⟩ := Option.map_eq_some_iff.mp ha
      exact ⟨n, hn, by simp [hmodule]⟩
    · rintro ⟨n, hn, hnode, htarget⟩
      have hsite := derived.recorded (Option.map_eq_some_iff.mpr ⟨n, hn, rfl⟩)
      rw [hnode, htarget] at hsite
      exact hsite
  · intro i
    rw [derived.mintsHandovers i]
    simp only [module?, Option.map_eq_some_iff]
    constructor
    · rintro ⟨m, ⟨n, hn, rfl⟩, haction⟩
      exact ⟨n, hn, haction⟩
    · rintro ⟨n, hn, haction⟩
      exact ⟨n.module, ⟨n, hn, rfl⟩, haction⟩

def timedTwice : List NodeKind :=
  [.terminal (.forward 1), .terminal .drop, .call { function := "current_time", next := some 1 },
    .branch (.term "c" 1) 0 2, .call { function := "current_time", next := some 3 }]

/-- The first call is passed over, so the branch is on top. One side of it ends on the switch, and
the other one is handed over, so that the second call is passed over on the controller. -/
theorem handed_over_side_is_booked :
    ∃ g problem plan, Graph.ofKinds timedTwice 4 = .ok g ∧ Problem.ofConfig g {} = .ok problem ∧
      Derives problem [(⟨.controller, .route⟩, 0), (⟨.controller, .ignore⟩, 0),
        (⟨.switch, .sendToController⟩, 0), (⟨.switch, .route⟩, 0), (⟨.switch, .branch⟩, 0),
        (⟨.switch, .ignore⟩, 0)] plan ∧
      plan.nodes.map (fun n => (n.parent, n.children, n.depth)) =
        [(none, [1, 2], 1), (some 0, [], 2), (some 0, [3], 2), (some 2, [], 3)] ∧
      plan.Threaded ∧ plan.ledger.depth = 3 ∧ plan.ledger.totalModules = 4 ∧
      plan.ledger.processed? ⟨4, .switch⟩ = some none ∧
      (∃ n, plan.node? 3 = some n ∧ n.module.node = 1 ∧ n.module.target = .controller) ∧
      ∃ n, plan.node? 2 = some n ∧ n.module.action = .sendToController := by
  obtain ⟨g, accepted⟩ : ∃ g, Graph.ofKinds timedTwice 4 = .ok g := ⟨_, rfl⟩
  obtain ⟨problem, posed, plan, derived, hnodes, hpassed, hended, hminted⟩ :
      ∃ problem, Problem.ofConfig g {} = .ok problem ∧ ∃ plan,
        Derives problem [(⟨.controller, .route⟩, 0), (⟨.controller, .ignore⟩, 0),
          (⟨.switch, .sendToController⟩, 0), (⟨.switch, .route⟩, 0), (⟨.switch, .branch⟩, 0),
          (⟨.switch, .ignore⟩, 0)] plan ∧
        plan.nodes.map (fun n => (n.parent, n.children, n.depth)) =
          [(none, [1, 2], 1), (some 0, [], 2), (some 0, [3], 2), (some 2, [], 3)] ∧
        plan.ledger.processed? ⟨4, .switch⟩ = some none ∧
        plan.ledger.processed? ⟨1, .controller⟩ = some (some 3) ∧
        plan.ledger.minted.keys = [2] := by
    cases accepted
    exact ⟨_, rfl, _, derives_of_replay rfl, rfl, rfl, rfl, rfl⟩
  obtain ⟨threaded, tallied, hsites, hmints⟩ := ledger_agrees_with_tree accepted posed derived
  have hdepths : plan.nodes.map PlanNode.depth = [1, 2, 2, 3] := by
    simpa [Function.comp_def] using congrArg (List.map (·.2.2)) hnodes
  have hnoted : plan.ledger.minted.contains 2 = true := by
    rw [← OrdMap.mem_keys_iff, hminted]
    simp
  have hcount : plan.nodes.length = 4 := by simpa using congrArg List.length hnodes
  refine ⟨g, problem, plan, accepted, posed, derived, hnodes, threaded, ?_, ?_, hpassed,
    (hsites _ _).mp hended, (hmints _).mp hnoted⟩
  · rw [tallied.depth, hdepths]
    rfl
  · rw [tallied.totalModules, hcount]

end PacketPlan
