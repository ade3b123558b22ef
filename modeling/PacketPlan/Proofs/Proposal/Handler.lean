import PacketPlan.Proofs.Proposal.Meaning

/-! # Which technique handles a node

A target has one kind of module for each form of node, a call being told by its routine. Whatever is
proposed for the node is of that kind, unless it hands the packet over, so no two techniques of a
target compete for a node. Only the controller has a choice of representations for a data structure;
the other targets propose one way at most.
-/
namespace PacketPlan

/-- The kind by which a target implements the calls of a routine, if it does. -/
def Routine.handler? (t : Target) : Routine → Option Kind
  | borrowChunk => some .parseHeader
  | returnChunk | currentTime => some .ignore
  | allocate _ => some .allocate
  | mapGet => some (if t.isSoftware then .mapGet else .tableLookup)
  | mapPut => some (if t.isSoftware then .mapPut else .tableLearn)
  | vectorBorrow => some (if t.isSoftware then .vectorRead else .registerRead)
  | vectorReturn => some (if t.isSoftware then .vectorWrite else .registerWrite)
  | sketchIncrement => some .sketchUpdate
  | sketchQuery => some .sketchQuery
  | mapErase => if t.isSoftware then some .mapErase else none
  | dchainAllocateIndex => if t.isSoftware then some .dchainAllocateIndex else none
  | dchainRejuvenate => if t.isSoftware then some .dchainRejuvenate else none
  | dchainFree => if t.isSoftware then some .dchainFree else none
  | expireItems => if t.isSoftware then some .expireItems else none

def NodeKind.handler? (t : Target) : NodeKind → Option Kind
  | call c => c.routine?.bind (Routine.handler? t)
  | branch .. => some .branch
  | terminal _ => some .route

theorem NodeKind.handler?_of_routine {k : NodeKind} {c : Call} {r : Routine} (t : Target)
    (hcall : k.call? = some c) (hr : c.routine? = some r) : k.handler? t = r.handler? t := by
  cases k with
  | call found =>
    cases hcall
    rw [handler?, hr]
    rfl
  | branch | terminal => cases hcall

theorem Container.length_candidates {t : Target} (c : Container) (ht : t ≠ .controller) :
    (c.candidates t).length ≤ 1 := by
  cases t with
  | controller => exact absurd rfl ht
  | switch | host => cases c <;> decide

namespace Pattern
variable {t : Target} {kind : Kind}

/-- On the target, the pattern proposes something only for nodes that are of the kind. -/
def Handles (pattern : Pattern) (t : Target) (kind : Kind) : Prop :=
  ∀ (s : Setting) (k : NodeKind) (ps : List Proposal), pattern s k = .ok ps →
    ∀ p ∈ ps, k.handler? t = some kind

theorem callTo_handles {r : Routine} {f : Setting → Call → Checked (List Proposal)}
    (hr : r.handler? t = some kind) : Handles (fun s k => given (k.callTo? r) (f s)) t kind := by
  intro s k ps h p hp
  obtain ⟨call, hcall, _⟩ := given_eq_ok h hp
  obtain ⟨hcall, hroutine⟩ := Option.filter_eq_some_iff.mp hcall
  rw [NodeKind.handler?_of_routine t hcall (of_decide_eq_true hroutine), hr]

theorem callOn_handles {r : Routine} {c : Container}
    {f : Setting → Call × Addr × Representation → Option Action} (hr : r.handler? t = some kind) :
    Handles (calling fun s k => (s.callOn? k r c).bind (f s)) t kind := by
  intro s k ps h p hp
  obtain ⟨action, haction, _⟩ := given_eq_ok h hp
  obtain ⟨found, hfound, _⟩ := Option.bind_eq_some_iff.mp haction
  obtain ⟨call, hcall, _⟩ := Option.bind_eq_some_iff.mp hfound
  obtain ⟨hcall, hroutine⟩ := Option.filter_eq_some_iff.mp hcall
  rw [NodeKind.handler?_of_routine t hcall (of_decide_eq_true hroutine), hr]

theorem ignore_handles : Handles ignore t .ignore := by
  intro s k ps h p hp
  obtain ⟨call, hcall, _⟩ := given_eq_ok h hp
  obtain ⟨hcall, hnoop⟩ := Option.filter_eq_some_iff.mp hcall
  cases hr : call.routine? with
  | none =>
    rw [hr] at hnoop
    cases hnoop
  | some r =>
    rw [hr, Option.any_some] at hnoop
    rw [NodeKind.handler?_of_routine t hcall hr]
    cases r <;> first | rfl | cases hnoop

theorem branch_handles : Handles branch t .branch := by
  intro s k ps h p hp
  cases k with
  | branch => rfl
  | call | terminal =>
    cases h
    exact absurd hp List.not_mem_nil

theorem route_handles : Handles route t .route := by
  intro s k ps h p hp
  cases k with
  | terminal => rfl
  | call | branch =>
    cases h
    exact absurd hp List.not_mem_nil

theorem allocate_handles : Handles allocate t .allocate := by
  intro s k ps h p hp
  obtain ⟨call, hcall, h⟩ := given_eq_ok h hp
  obtain ⟨container, hcontainer, _⟩ := given_eq_ok h hp
  obtain ⟨r, hr, hallocates⟩ := Option.bind_eq_some_iff.mp hcontainer
  rw [NodeKind.handler?_of_routine t hcall hr]
  cases r <;> first | rfl | cases hallocates

theorem length_allocate {s : Setting} {k : NodeKind} {ps : List Proposal}
    (ht : s.target ≠ .controller) (h : allocate s k = .ok ps) {p : Proposal} (hp : p ∈ ps) :
    ps.length ≤ 1 := by
  obtain ⟨call, _, h⟩ := given_eq_ok h hp
  obtain ⟨container, _, h⟩ := given_eq_ok h hp
  obtain ⟨object, _, h⟩ := given_eq_ok h hp
  obtain ⟨next, _, h⟩ := bind_eq_ok.mp h
  rw [← Except.ok.inj h, List.length_map]
  exact Nat.le_trans (List.length_filter_le _ _) (container.length_candidates ht)

end Pattern

namespace Technique
open Pattern

theorem eq_of_kind {t u : Technique} (target_eq : t.target = u.target) (kind_eq : t.kind = u.kind) :
    t = u := by
  rcases t with ⟨target, kind⟩
  cases target_eq
  cases kind_eq
  rfl

theorem pattern?_handles {t : Technique} {pattern : Pattern} (h : t.pattern? = some pattern)
    (keeps : t.kind ≠ .sendToController) : pattern.Handles t.target t.kind := by
  rcases t with ⟨target, kind⟩
  cases kind with
  | ignore => cases h; exact ignore_handles
  | parseHeader => cases h; exact callTo_handles rfl
  | branch => cases h; exact branch_handles
  | route => cases h; exact route_handles
  | allocate => cases h; exact allocate_handles
  | sendToController => exact absurd rfl keeps
  | recirculate => cases h
  | tableLookup | tableLearn | registerRead | registerWrite =>
    cases target <;> cases h; exact callTo_handles rfl
  | sketchUpdate | sketchQuery =>
    cases target <;> cases h
    · exact callTo_handles rfl
    all_goals exact callOn_handles rfl
  | mapGet | mapPut | mapErase | vectorRead | vectorWrite | dchainAllocateIndex
  | dchainRejuvenate | dchainFree | expireItems =>
    cases target <;> cases h <;> exact callOn_handles rfl

variable {t : Technique} {g : Graph} {b : Bindings} {id : NodeId} {ps : List Proposal}
  {p : Proposal}

/-- A technique that proposes something for a node is of the kind by which its target implements the
node, unless it hands the packet over. -/
theorem handler?_of_proposals {node : Node} (present : g.node? id = some node)
    (h : t.proposals g b id = .ok ps) (hp : p ∈ ps) (keeps : t.kind ≠ .sendToController) :
    node.kind.handler? t.target = some t.kind := by
  unfold proposals at h
  cases hpattern : t.pattern? with
  | none =>
    rw [hpattern] at h
    cases h
    exact absurd hp List.not_mem_nil
  | some pattern =>
    simp only [hpattern] at h
    obtain ⟨found, hfound, h⟩ := bind_eq_ok.mp h
    rw [Graph.node, present] at hfound
    cases hfound
    exact pattern?_handles hpattern keeps _ _ _ h p hp

/-- A proposal that binds nothing is made again under the same bindings, and alone. -/
theorem proposals_alone (h : t.proposals g b id = .ok ps) (hp : p ∈ ps)
    (hcommits : p.commits = []) : ps = [p] := by
  have hagain := (proposals_steady h hp).2 b (.refl b) (by simp [hcommits])
  rw [h] at hagain
  exact Except.ok.inj hagain

theorem commits_of_places (h : t.proposals g b id = .ok ps) (hp : p ∈ ps)
    (asks : p.placements ≠ []) : p.commits = [] := by
  obtain ⟨_, _, means⟩ := proposals_meant h hp
  cases means with
  | silent _ commits => exact commits
  | @acts a _ commits places =>
    rcases a.commits_cases with hnil | ⟨object, container, r, capacity, rfl⟩
    · rw [commits, hnil]
    · rw [places, Module.demands] at asks
      exact absurd (ite_self []) asks

theorem length_proposals (ht : t.target ≠ .controller) (h : t.proposals g b id = .ok ps) :
    ps.length ≤ 1 := by
  cases hps : ps with
  | nil => exact Nat.zero_le 1
  | cons p others =>
    rw [← hps]
    have hp : p ∈ ps := hps ▸ List.mem_cons_self
    obtain ⟨node, hnode, means⟩ := proposals_meant h hp
    by_cases hcommits : p.commits = []
    · rw [proposals_alone h hp hcommits]
      exact Nat.le_refl 1
    · cases means with
      | silent _ commits => exact absurd commits hcommits
      | @acts a acts commits =>
        have hkind : a.kind = t.kind := ((proposals_steady h hp).1.module_eq acts).2.2
        have hallocates : t.kind = .allocate := by
          by_contra hother
          rw [commits, Action.commits_eq_nil (hkind ▸ hother)] at hcommits
          exact hcommits rfl
        rcases t with ⟨target, kind⟩
        cases hallocates
        obtain ⟨found, _, h⟩ := bind_eq_ok.mp h
        exact length_allocate ht h hp

end Technique

end PacketPlan
