import PacketPlan.Proofs.Plan.Expansion
import PacketPlan.Proofs.Plan.Handling
import PacketPlan.Proofs.Proposal.Total

/-! # The last extension of a plan

At the end of a path there is only one thing to do, and only one technique of the target does it:
nothing is looked up or handed over there, and no pass can be asked for. So a candidate that has no
leaves left is the only candidate of its plan.
-/
namespace PacketPlan

namespace Technique

theorem pattern_terminal {t : Technique} {pattern : Pattern} (hp : t.pattern? = some pattern)
    (hk : t.kind ≠ .route) (s : Setting) (r : Route) : pattern s (.terminal r) = .ok [] := by
  rcases t with ⟨target, kind⟩
  cases kind with
  | route => exact absurd rfl hk
  | recirculate => cases hp
  | _ => cases target <;> cases hp <;> rfl

variable {problem : Problem} {plan : Plan} {leaf : Leaf} {node : Node} {r : Route}

theorem proposals_terminal {t : Technique} {b : Bindings}
    (present : problem.graph.node? leaf.next = some node) (ends : node.kind = .terminal r)
    (hk : t.kind ≠ .route) : t.proposals problem.graph b leaf.next = .ok [] := by
  unfold proposals
  cases hpattern : t.pattern? with
  | none => rfl
  | some pattern =>
    refine bind_eq_ok.mpr ⟨node, Graph.node_eq_ok present, ?_⟩
    rw [ends]
    exact pattern_terminal hpattern hk _ r

theorem anyBlocked_terminal {ts : List Technique}
    (present : problem.graph.node? leaf.next = some node) (ends : node.kind = .terminal r)
    (hts : ∀ t ∈ ts, t.kind ≠ .route) : anyBlocked problem plan leaf ts = .ok false := by
  induction ts with
  | nil => rfl
  | cons t ts ih =>
    have hnone := proposals_terminal (b := plan.bindings) present ends (hts t List.mem_cons_self)
    exact bind_eq_ok.mpr ⟨[], hnone, ih fun u hu => hts u (List.mem_cons_of_mem t hu)⟩

theorem offers_terminal (t : Technique) (present : problem.graph.node? leaf.next = some node)
    (ends : node.kind = .terminal r) :
    t.offers problem plan leaf = .ok (if t.kind = .route then
      [Setting.act ⟨problem.graph, plan.bindings, t.target, leaf.next⟩ (.route r) .stop] else []) := by
  by_cases hk : t.kind = .route
  · simp only [offers, proposals, pattern?, hk, if_true]
    refine bind_eq_ok.mpr ⟨node, Graph.node_eq_ok present, ?_⟩
    rw [ends]
    rfl
  · rw [if_neg hk]
    unfold offers recirculation
    split
    · split
      · refine bind_eq_ok.mpr ⟨false, anyBlocked_terminal present ends ?_, rfl⟩
        intro t ht hroute
        have huses := (List.mem_filter.mp ht).2
        rw [hroute] at huses
        cases huses
      · rfl
    · exact proposals_terminal present ends hk

theorem Offers.lt_length {rest : List Leaf} (active : plan.leaves = leaf :: rest) {label : Choice}
    {c : Candidate} (h : Offers problem plan label c) :
    leaf.target = label.1.target ∧
      ∃ ps, label.1.offers problem plan leaf = .ok ps ∧ label.2 < ps.length := by
  obtain ⟨supply, after, e, expanded, chosen⟩ := h
  have hsome : e ≠ {} := by
    rintro rfl
    cases chosen
  obtain ⟨htarget, ps, hps, realized⟩ := expand_eq_ok active expanded hsome
  have hcount : e.candidates.length ≤ _ := (realizeAll_yields _ plan leaf _ supply).result realized
  have hfilter := List.length_filter_le (admissible problem plan.bindings) ps
  have hi := (List.getElem?_eq_some_iff.mp chosen).1
  exact ⟨htarget, ps, hps, by omega⟩

end Technique

theorem Continuation.Follows.exists_terminal {next : Continuation} {k : NodeKind}
    (follows : next.Follows k) {leaf : Leaf} {placed : List SwitchObject}
    (none : next.leaves leaf placed = []) : ∃ r, k = .terminal r := by
  cases k with
  | terminal r => exact ⟨r, rfl⟩
  | call c =>
    cases next with
    | next n => cases none
    | _ => exact follows.elim
  | branch condition onTrue onFalse =>
    cases next with
    | branch t f => cases none
    | _ => exact follows.elim

/-- A plan is left without leaves only if its active leaf stood at the end of a path. -/
theorem Plan.Step.terminal_of_finished {problem : Problem} {plan after : Plan}
    (h : plan.Step problem after) (finished : after.leaves = []) :
    ∃ leaf rest node r, plan.leaves = leaf :: rest ∧
      problem.graph.node? leaf.next = some node ∧ node.kind = .terminal r := by
  cases h with
  | pass offer present silent goes follows places bound fresh =>
    simp [passed, goes, Continuation.leaves] at finished
  | @act leaf rest t p node a id bindings stages resources offer present acts keeps follows places
      bound placed rooted fresh =>
    rw [attached_leaves] at finished
    obtain ⟨hchildren, _⟩ := List.append_eq_nil_iff.mp finished
    obtain ⟨r, hr⟩ := follows.exists_terminal (List.map_eq_nil_iff.mp hchildren)
    exact ⟨leaf, rest, node, r, offer.active, present, hr⟩
  | handOver offer present onSwitch acts goes places bound rooted fresh =>
    rw [attached_leaves] at finished
    cases finished
  | revisit offer onSwitch allowed => cases finished

/-- The candidate of a plan at the end of a path is the first one of routing on its target. -/
theorem Technique.Offers.eq_of_terminal {problem : Problem} {plan : Plan} {leaf : Leaf}
    {rest : List Leaf} {node : Node} {r : Route} (active : plan.leaves = leaf :: rest)
    (present : problem.graph.node? leaf.next = some node) (ends : node.kind = .terminal r)
    {label : Choice} {c : Candidate} (h : Offers problem plan label c) :
    label = (⟨leaf.target, .route⟩, 0) := by
  obtain ⟨htarget, ps, hps, hi⟩ := h.lt_length active
  rw [offers_terminal label.1 present ends] at hps
  cases hps
  rcases label with ⟨⟨target, kind⟩, i⟩
  split at hi
  · rename_i hkind
    cases htarget
    cases hkind
    have hzero : i = 0 := Nat.lt_one_iff.mp hi
    rw [hzero]
  · cases hi

/-- A candidate without leaves has no rivals. -/
theorem Technique.candidates_of_finished {problem : Problem} {plan : Plan} {supply after : Supply}
    {e : Expansion} (h : expandAll problem plan problem.techniques supply = .ok (e, after))
    {c : Candidate} (hc : c ∈ e.candidates) (finished : c.plan.isFinished = true) :
    e.candidates = [c] := by
  obtain ⟨leaf, rest, node, r, active, present, ends⟩ :=
    (step_of_expandAll h hc).terminal_of_finished (List.isEmpty_iff.mp finished)
  have hone : e.candidates.length ≤ 1 :=
    length_candidates_le h fun label c' hoffers =>
      List.mem_singleton.mpr (hoffers.eq_of_terminal active present ends)
  have hsome := List.length_pos_of_mem hc
  obtain ⟨c', hc'⟩ := List.length_eq_one_iff.mp (Nat.le_antisymm hone hsome)
  rw [hc'] at hc ⊢
  rw [List.mem_singleton.mp hc]

theorem Technique.countP_finished_le_one {problem : Problem} {plan : Plan} {supply after : Supply}
    {e : Expansion} (h : expandAll problem plan problem.techniques supply = .ok (e, after)) :
    e.candidates.countP (fun c => c.plan.isFinished) ≤ 1 := by
  by_cases hsome : ∃ c ∈ e.candidates, c.plan.isFinished = true
  · obtain ⟨c, hc, finished⟩ := hsome
    rw [candidates_of_finished h hc finished]
    exact List.countP_le_length
  · have hnone : e.candidates.countP (fun c => c.plan.isFinished) = 0 := by
      rw [List.countP_eq_zero]
      exact fun c hc finished => hsome ⟨c, hc, finished⟩
    omega

end PacketPlan
