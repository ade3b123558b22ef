import Mathlib.Data.List.Forall2
import Mathlib.Data.List.Nodup
import PacketPlan.Proofs.Plan.Coverage

/-! # Where nodes are executed

Every node of the graph is executed on one target. A node whose packets the switch hands over is
executed on the controller instead, and with it all that lies below; a path that has left the switch
never comes back. The paths that a finished plan completes are those to the ends of the graph.
-/
namespace PacketPlan

def Graph.Ends (g : Graph) (n : NodeId) : Prop :=
  ∃ node, g.node? n = some node ∧ node.kind.isTerminal

namespace Plan

def sends (plan : Plan) (how : Option PlanNodeId) : Bool :=
  (how.bind plan.module?).any fun m => m.kind = .sendToController

/-- The node is handled on the target, and not by sending the packet away. -/
def Executes (plan : Plan) (n : NodeId) (t : Target) : Prop :=
  ∃ how, plan.ledger.processed? ⟨n, t⟩ = some how ∧ plan.sends how = false

theorem sends_eq (plan : Plan) (how : Option PlanNodeId) :
    plan.sends how = (plan.takesOver? how).isSome := by
  rw [takesOver?_eq, sends]
  cases how.bind plan.module? with
  | none => rfl
  | some m =>
    rcases m with ⟨target, node, action⟩
    cases action <;> rfl

theorem executes_iff {plan : Plan} {n : NodeId} {t : Target} :
    plan.Executes n t ↔ ∃ how, plan.ledger.processed? ⟨n, t⟩ = some how ∧
      plan.takesOver? how = none := by
  simp only [Executes, sends_eq, Option.isSome_eq_false_iff, Option.isNone_iff_eq_none]

/-! ## The target on which a node is met first -/

/-- Packets come to the node on the target from above, or start there. -/
def Enters (problem : Problem) (plan : Plan) (n : NodeId) (t : Target) : Prop :=
  (n = problem.graph.root ∧ t = problem.platform.initial) ∨
    ∃ p, problem.graph.Child p n ∧ plan.Executes p t

section tracked
variable {problem : Problem} {plan : Plan}

theorem Tracked.not_executes_of_handedOver (h : Tracked problem plan) {s : Site}
    {how : Option PlanNodeId} (hs : plan.ledger.processed? s = some how)
    (hover : plan.takesOver? how = some .controller) :
    s.target = .switch ∧ ¬plan.Executes s.node .switch := by
  have hswitch := h.onSwitch hs (by simp [hover])
  refine ⟨hswitch, ?_⟩
  intro hx
  obtain ⟨how', hhow', hkeeps⟩ := executes_iff.mp hx
  rw [← hswitch] at hhow'
  have he : some how = some how' := hs.symm.trans hhow'
  cases he
  rw [hover] at hkeeps
  cases hkeeps

theorem Tracked.enters_or_reaches (h : Tracked problem plan) {s : Site}
    (hs : plan.Reaches problem s) :
    plan.Enters problem s.node s.target ∨ (s.target = .controller ∧
      plan.Reaches problem ⟨s.node, .switch⟩ ∧ ¬plan.Executes s.node .switch) := by
  cases hs with
  | start => exact .inl (.inl ⟨rfl, rfl⟩)
  | @next p _ how before handled follows =>
    rcases mem_nextSites.mp follows with ⟨hover, rfl⟩ | ⟨hkeeps, hc, ht⟩
    · obtain ⟨hswitch, hnot⟩ := h.not_executes_of_handedOver handled hover
      refine .inr ⟨rfl, ?_, hnot⟩
      rw [← hswitch]
      exact before
    · refine .inl (.inr ⟨p.node, hc, executes_iff.mpr ⟨how, ?_, hkeeps⟩⟩)
      rw [ht]
      exact handled

/-- A site is entered, or the switch has handed it over after it was entered there. -/
theorem Tracked.enters (h : Tracked problem plan) {n : NodeId} {t : Target}
    (hs : plan.Reaches problem ⟨n, t⟩) :
    plan.Enters problem n t ∨
      (t = .controller ∧ plan.Enters problem n .switch ∧ ¬plan.Executes n .switch) := by
  rcases h.enters_or_reaches hs with henter | ⟨ht, hreach, hnot⟩
  · exact .inl henter
  · rcases h.enters_or_reaches hreach with henter | ⟨ht', _⟩
    · exact .inr ⟨ht, henter, hnot⟩
    · cases ht'

theorem Tracked.reaches_of_executes (h : Tracked problem plan) {n : NodeId} {t : Target}
    (hx : plan.Executes n t) : plan.Reaches problem ⟨n, t⟩ := by
  obtain ⟨how, hhow, _⟩ := hx
  exact h.handled_reached hhow

theorem Tracked.executes_unique_of_enters (h : Tracked problem plan) {n : NodeId}
    (hn : ∀ t t', plan.Enters problem n t → plan.Enters problem n t' → t = t') {t t' : Target}
    (ht : plan.Executes n t) (ht' : plan.Executes n t') : t = t' := by
  rcases h.enters (h.reaches_of_executes ht) with he | ⟨rfl, he, hnot⟩
  · rcases h.enters (h.reaches_of_executes ht') with he' | ⟨rfl, he', hnot⟩
    · exact hn t t' he he'
    · cases hn t .switch he he'
      exact absurd ht hnot
  · rcases h.enters (h.reaches_of_executes ht') with he' | ⟨rfl, _, _⟩
    · cases hn .switch t' he he'
      exact absurd ht' hnot
    · rfl

theorem Enters.of_child (hg : problem.graph.IsTree) {p c : NodeId} {t : Target}
    (he : plan.Enters problem c t) (hpc : problem.graph.Child p c) : plan.Executes p t := by
  rcases he with ⟨rfl, _⟩ | ⟨q, hq, hx⟩
  · exact absurd hpc (hg.not_child_root p)
  · rw [hg.child_unique hpc hq]
    exact hx

theorem Tracked.enters_unique (h : Tracked problem plan) (hg : problem.graph.IsTree) {n : NodeId}
    (hn : problem.graph.Below problem.graph.root n) :
    ∀ t t', plan.Enters problem n t → plan.Enters problem n t' → t = t' := by
  induction hn with
  | refl =>
    rintro t t' (⟨_, rfl⟩ | ⟨p, hp, _⟩) (⟨_, rfl⟩ | ⟨p', hp', _⟩)
    · rfl
    · exact absurd hp' (hg.not_child_root p')
    · exact absurd hp (hg.not_child_root p)
    · exact absurd hp (hg.not_child_root p)
  | @tail q c _ hqc ih =>
    intro t t' he he'
    exact h.executes_unique_of_enters ih (he.of_child hg hqc) (he'.of_child hg hqc)

theorem Tracked.executes_unique (h : Tracked problem plan) (hg : problem.graph.IsTree) {n : NodeId}
    {t t' : Target} (ht : plan.Executes n t) (ht' : plan.Executes n t') : t = t' := by
  have hlt := (h.reaches_of_executes ht).present hg
  exact h.executes_unique_of_enters (h.enters_unique hg (hg.below_root hlt)) ht ht'

/-! ## Finished plans -/

theorem Tracked.executes_of_reaches (h : Tracked problem plan) (finished : plan.leaves = [])
    {n : NodeId} {t : Target} (hs : plan.Reaches problem ⟨n, t⟩) (ht : t ≠ .switch) :
    plan.Executes n t := by
  obtain ⟨how, hhow⟩ := h.handled_of_reaches finished hs
  refine executes_iff.mpr ⟨how, hhow, ?_⟩
  cases hover : plan.takesOver? how with
  | none => rfl
  | some t' => exact absurd (h.onSwitch hhow (by simp [hover])) ht

theorem Tracked.executes_or_sends (h : Tracked problem plan) (finished : plan.leaves = [])
    {n : NodeId} {t : Target} {how : Option PlanNodeId}
    (hs : plan.ledger.processed? ⟨n, t⟩ = some how) :
    plan.Executes n t ∨
      (t = .switch ∧ plan.sends how = true ∧ plan.Executes n .controller) := by
  cases hover : plan.takesOver? how with
  | none => exact .inl (executes_iff.mpr ⟨how, hs, hover⟩)
  | some t' =>
    cases takesOver?_eq_some hover
    refine .inr ⟨h.onSwitch hs (by simp [hover]), by rw [sends_eq, hover]; rfl, ?_⟩
    have hnext : plan.Reaches problem ⟨n, .controller⟩ :=
      .next (h.handled_reached hs) hs (mem_nextSites.mpr (.inl ⟨hover, rfl⟩))
    exact h.executes_of_reaches finished hnext (by decide)

theorem Tracked.reaches_child (h : Tracked problem plan) {p c : NodeId} {t : Target}
    (hx : plan.Executes p t) (hpc : problem.graph.Child p c) : plan.Reaches problem ⟨c, t⟩ := by
  obtain ⟨how, hhow, hkeeps⟩ := executes_iff.mp hx
  exact .next (h.handled_reached hhow) hhow (mem_nextSites.mpr (.inr ⟨hkeeps, hpc, rfl⟩))

theorem Tracked.exists_executes_of_reaches (h : Tracked problem plan) (finished : plan.leaves = [])
    {n : NodeId} {t : Target} (hs : plan.Reaches problem ⟨n, t⟩) : ∃ t, plan.Executes n t := by
  obtain ⟨how, hhow⟩ := h.handled_of_reaches finished hs
  rcases h.executes_or_sends finished hhow with hx | ⟨_, _, hx⟩
  · exact ⟨t, hx⟩
  · exact ⟨.controller, hx⟩

theorem Tracked.exists_executes (h : Tracked problem plan) (finished : plan.leaves = [])
    {n : NodeId} (hn : problem.graph.Below problem.graph.root n) : ∃ t, plan.Executes n t := by
  induction hn with
  | refl => exact h.exists_executes_of_reaches finished .start
  | tail _ hc ih =>
    obtain ⟨t, hx⟩ := ih
    exact h.exists_executes_of_reaches finished (h.reaches_child hx hc)

/-- What has left the switch stays where it is. -/
theorem Tracked.executes_below (h : Tracked problem plan) (finished : plan.leaves = [])
    {n m : NodeId} {t : Target} (hx : plan.Executes n t) (ht : t ≠ .switch)
    (hm : problem.graph.Below n m) : plan.Executes m t := by
  induction hm with
  | refl => exact hx
  | tail _ hc ih => exact h.executes_of_reaches finished (h.reaches_child ih hc) ht

/-! ## Completed paths -/

/-- The completed paths are those to the ends of the graph that are executed so far. -/
structure PathsEnd (problem : Problem) (plan : Plan) : Prop where
  leaf_depth : ∀ l ∈ plan.leaves, problem.graph.branchDepth l.next = .ok l.branchDepth
  ends : ∃ ends : List NodeId, ends.Nodup ∧
    (∀ n, n ∈ ends ↔ problem.graph.Ends n ∧ ∃ t, plan.Executes n t) ∧
    List.Forall₂ (fun n (p : CompletedPath) => plan.Executes n p.target ∧
      problem.graph.branchDepth n = .ok p.branchDepth) ends plan.ledger.completed

end tracked

section handling
variable {problem : Problem} {plan after : Plan} {leaf : Leaf} {rest children : List Leaf}
variable {how : Option PlanNodeId}

theorem Handles.executes (h : Handles problem plan after leaf rest children how)
    (tracked : Tracked problem plan) {n : NodeId} {t : Target} (hx : plan.Executes n t) :
    after.Executes n t := by
  obtain ⟨old, hold, hkeeps⟩ := executes_iff.mp hx
  refine executes_iff.mpr ⟨old, h.processed?_old hold, ?_⟩
  rw [h.takesOver?_old tracked hold]
  exact hkeeps

theorem Handles.exists_executes_iff (h : Handles problem plan after leaf rest children how)
    (tracked : Tracked problem plan) {n : NodeId} :
    (∃ t, after.Executes n t) ↔
      (∃ t, plan.Executes n t) ∨ (n = leaf.next ∧ after.takesOver? how = none) := by
  constructor
  · rintro ⟨t, hx⟩
    obtain ⟨how', hhow', hkeeps⟩ := executes_iff.mp hx
    rcases h.processed?_cases hhow' with ⟨he, rfl⟩ | hold
    · exact .inr ⟨congrArg Site.node he, hkeeps⟩
    · rw [h.takesOver?_old tracked hold] at hkeeps
      exact .inl ⟨t, executes_iff.mpr ⟨how', hold, hkeeps⟩⟩
  · rintro (⟨t, hx⟩ | ⟨rfl, hkeeps⟩)
    · exact ⟨t, h.executes tracked hx⟩
    · exact ⟨leaf.target, executes_iff.mpr ⟨how, h.processed?_self, hkeeps⟩⟩

/-- The node of a leaf is executed nowhere as long as the leaf is there. -/
theorem Handles.not_executes (h : Handles problem plan after leaf rest children how)
    (hg : problem.graph.IsTree) (tracked : Tracked problem plan)
    (hself : after.Executes leaf.next leaf.target) {t : Target} : ¬plan.Executes leaf.next t := by
  intro hx
  have ht := (h.tracked tracked).executes_unique hg (h.executes tracked hx) hself
  subst ht
  obtain ⟨old, hold, _⟩ := hx
  have hfresh := h.fresh
  rw [Leaf.site, hold] at hfresh
  cases hfresh

theorem Handles.children_eq_nil_iff (h : Handles problem plan after leaf rest children how) :
    children = [] ↔ problem.graph.Ends leaf.next ∧ after.takesOver? how = none := by
  constructor
  · intro hnil
    have hsites := h.sites
    rw [hnil] at hsites
    refine ⟨h.ends hnil, ?_⟩
    cases hover : after.takesOver? how with
    | none => rfl
    | some t => simp [nextSites, hover] at hsites
  · rintro ⟨⟨node, hn, hend⟩, hkeeps⟩
    have hsites := h.sites
    rw [nextSites_of_keeps hn hkeeps] at hsites
    have hnone : node.children = [] := by
      unfold Node.children
      cases hk : node.kind with
      | terminal => rfl
      | call | branch => simp [hk, NodeKind.isTerminal] at hend
    simpa [hnone] using hsites

theorem Handles.pathsEnd (h : Handles problem plan after leaf rest children how)
    (hg : problem.graph.IsTree) (tracked : Tracked problem plan) (paths : PathsEnd problem plan) :
    PathsEnd problem after := by
  constructor
  · intro l hl
    rw [h.leaves_eq] at hl
    rcases List.mem_append.mp hl with hl | hl
    · exact h.depths (paths.leaf_depth leaf (h.active ▸ List.mem_cons_self)) l hl
    · exact paths.leaf_depth l (h.active ▸ List.mem_cons_of_mem leaf hl)
  · obtain ⟨ends, hnodup, hmem, hpaths⟩ := paths.ends
    have hpaths' : List.Forall₂ (fun n (p : CompletedPath) => after.Executes n p.target ∧
        problem.graph.branchDepth n = .ok p.branchDepth) ends plan.ledger.completed :=
      hpaths.imp fun n p hp => ⟨h.executes tracked hp.1, hp.2⟩
    rw [h.completed]
    by_cases hnil : children = []
    · obtain ⟨hend, hkeeps⟩ := h.children_eq_nil_iff.mp hnil
      have hself : after.Executes leaf.next leaf.target :=
        executes_iff.mpr ⟨how, h.processed?_self, hkeeps⟩
      have hnew : leaf.next ∉ ends := by
        intro hin
        obtain ⟨_, t, hx⟩ := (hmem leaf.next).mp hin
        exact h.not_executes hg tracked hself hx
      refine ⟨ends ++ [leaf.next], ?_, ?_, ?_⟩
      · refine List.nodup_append.mpr ⟨hnodup, List.nodup_singleton _, ?_⟩
        intro n hn n' hn' he
        cases List.mem_singleton.mp hn'
        exact hnew (he ▸ hn)
      · intro n
        rw [List.mem_append, List.mem_singleton, hmem, h.exists_executes_iff tracked]
        constructor
        · rintro (⟨hn, hx⟩ | rfl)
          · exact ⟨hn, .inl hx⟩
          · exact ⟨hend, .inr ⟨rfl, hkeeps⟩⟩
        · rintro ⟨hn, hx | ⟨rfl, _⟩⟩
          · exact .inl ⟨hn, hx⟩
          · exact .inr rfl
      · rw [hnil, List.isEmpty_nil, if_pos rfl]
        have hleaf := paths.leaf_depth leaf (h.active ▸ List.mem_cons_self)
        exact List.rel_append hpaths' (.cons ⟨hself, hleaf⟩ .nil)
    · refine ⟨ends, hnodup, ?_, ?_⟩
      · intro n
        rw [hmem, h.exists_executes_iff tracked]
        constructor
        · exact fun ⟨hn, hx⟩ => ⟨hn, .inl hx⟩
        · rintro ⟨hn, hx | ⟨rfl, hkeeps⟩⟩
          · exact ⟨hn, hx⟩
          · exact absurd (h.children_eq_nil_iff.mpr ⟨hn, hkeeps⟩) hnil
      · rw [if_neg (by simpa using hnil), List.append_nil]
        exact hpaths'

end handling

end Plan

open Plan

theorem Derives.pathsEnd {problem : Problem} (wp : problem.WellPosed) {choices : List Choice}
    {plan : Plan} (h : Derives problem choices plan) : PathsEnd problem plan := by
  have both : Tracked problem plan ∧ PathsEnd problem plan := by
    apply h.invariant
    · intro id
      refine ⟨tracked_empty problem id, ⟨?_, [], List.nodup_nil, ?_, .nil⟩⟩
      · intro l hl
        cases List.mem_singleton.mp hl
        exact wp.tree.branchDepth_root
      · intro n
        refine ⟨nofun, ?_⟩
        rintro ⟨_, t, how, hhow, _⟩
        cases hhow
    · intro plan after ⟨tracked, paths⟩ step
      rcases handles_of_step wp.tree step with
        ⟨leaf, rest, children, how, h⟩ | ⟨leaf, rest, id, active, _, _, rfl⟩
      · exact ⟨h.tracked tracked, h.pathsEnd wp.tree tracked paths⟩
      · refine ⟨tracked.revisited active, ⟨?_, paths.ends⟩⟩
        intro l hl
        rcases List.mem_cons.mp hl with rfl | hl
        · exact paths.leaf_depth leaf (active ▸ List.mem_cons_self)
        · exact paths.leaf_depth l (active ▸ List.mem_cons_of_mem leaf hl)
  exact both.2

/-- A finished plan executes every node on exactly one target. What it handles besides is handed
over by the switch and executed on the controller; all below a node that is not on the switch is
executed beside it; and it completes one path for each end of the graph. -/
theorem finished_executes_once {kinds : List NodeKind} {root : NodeId} {g : Graph} {c : Config}
    {problem : Problem} {choices : List Choice} {plan : Plan}
    (accepted : Graph.ofKinds kinds root = .ok g) (posed : Problem.ofConfig g c = .ok problem)
    (derived : Derives problem choices plan) (finished : plan.leaves = []) :
    (∀ n < g.size, ∃! t, plan.Executes n t) ∧
      (∀ n t how, plan.ledger.processed? ⟨n, t⟩ = some how → n < g.size ∧ (plan.Executes n t ∨
        (t = .switch ∧ plan.sends how = true ∧ plan.Executes n .controller))) ∧
      (∀ n t, plan.Executes n t → t ≠ .switch → ∀ m, g.Below n m → plan.Executes m t) ∧
      ∃ ends : List NodeId, ends.Nodup ∧ (∀ n, n ∈ ends ↔ g.Ends n) ∧
        List.Forall₂ (fun n (p : CompletedPath) => plan.Executes n p.target ∧
          g.branchDepth n = .ok p.branchDepth) ends plan.ledger.completed := by
  have wp := Problem.wellPosed_of_ofConfig accepted posed
  obtain ⟨_, platform, _, rfl⟩ := Problem.ofConfig_eq_ok.mp posed
  have hg := wp.tree
  have tracked := (derived.lawful wp).tracked
  refine ⟨?_, ?_, ?_, ?_⟩
  · intro n hn
    obtain ⟨t, ht⟩ := tracked.exists_executes finished (hg.below_root hn)
    exact ⟨t, ht, fun t' ht' => tracked.executes_unique hg ht' ht⟩
  · intro n t how hhow
    exact ⟨(tracked.handled_reached hhow).present hg, tracked.executes_or_sends finished hhow⟩
  · intro n t hx ht m hm
    exact tracked.executes_below finished hx ht hm
  · obtain ⟨ends, hnodup, hmem, hpaths⟩ := (derived.pathsEnd wp).ends
    refine ⟨ends, hnodup, ?_, hpaths⟩
    intro n
    rw [hmem, and_iff_left_iff_imp]
    rintro ⟨node, hn, _⟩
    exact tracked.exists_executes finished (hg.below_root (Graph.IsTree.node_lt hn))

/-- A branch with one side on the switch and the other one handed over at its first node. -/
theorem split_branch_executes_once :
    ∃ g problem plan, Graph.ofKinds [.terminal (.forward 1), .terminal .drop,
        .call { function := "current_time", next := some 1 }, .branch (.term "c" 1) 0 2] 3 = .ok g ∧
      Problem.ofConfig g {} = .ok problem ∧
      Derives problem [(⟨.controller, .route⟩, 0), (⟨.controller, .ignore⟩, 0),
        (⟨.switch, .sendToController⟩, 0), (⟨.switch, .route⟩, 0), (⟨.switch, .branch⟩, 0)] plan ∧
      plan.leaves = [] ∧ plan.Executes 0 .switch ∧ plan.Executes 2 .controller ∧
      (∀ n < g.size, ∃! t, plan.Executes n t) := by
  refine ⟨_, _, _, rfl, rfl, derives_of_replay rfl, rfl, ?_, ?_, ?_⟩
  · exact ⟨_, rfl, rfl⟩
  · exact ⟨_, rfl, rfl⟩
  · exact (@finished_executes_once [.terminal (.forward 1), .terminal .drop,
      .call { function := "current_time", next := some 1 }, .branch (.term "c" 1) 0 2] 3 _ {} _
      [(⟨.controller, .route⟩, 0), (⟨.controller, .ignore⟩, 0), (⟨.switch, .sendToController⟩, 0),
        (⟨.switch, .route⟩, 0), (⟨.switch, .branch⟩, 0)] _ rfl rfl (derives_of_replay rfl) rfl).1

end PacketPlan
