import PacketPlan.Technique.Basic
import PacketPlan.Proofs.Checked

/-! # What patterns propose

Whatever a pattern proposes for a node fits the node: the path goes on exactly as the node does,
or the switch hands the packet over at the very same node. Only the end of a path places nothing
by necessity; all other demands are left open. A pattern proposes at most two ways.
-/
namespace PacketPlan

/-- The path goes on as the node does. -/
def Continuation.Follows (next : Continuation) (k : NodeKind) : Prop :=
  match k, next with
  | .call c, .next n => c.next = some n
  | .branch _ t f, .branch t' f' => t' = t ∧ f' = f
  | .terminal _, .stop => True
  | _, _ => False

/-- The ways in which a proposal may implement a node: to pass over it, to act on it, or to hand
the packet over to the controller. -/
inductive Proposal.Fits (s : Setting) (k : NodeKind) (p : Proposal) : Prop
  | pass {n : NodeId} (silent : p.module? = none) (goes : p.next = .next n)
      (follows : p.next.Follows k) (places : p.placements = [])
  | act {a : Action} (acts : p.module? = some ⟨s.target, s.node, a⟩)
      (keeps : a ≠ .sendToController) (follows : p.next.Follows k)
      (places : p.next = .stop → p.placements = [])
  | handOver (onSwitch : s.target = .switch)
      (acts : p.module? = some ⟨.switch, s.node, .sendToController⟩)
      (goes : p.next = .transfer .controller s.node) (places : p.placements = [])

theorem Proposal.mem_dependencies {p : Proposal} {passDeps : ObjectSet} {placed : List SwitchObject}
    {x : SwitchObject} :
    x ∈ p.dependencies passDeps placed ↔ x ∈ placed ∨ (x ∈ passDeps ∧ x ∉ p.fused) := by
  simp [dependencies]

def Setting.Fitting (s : Setting) (k : NodeKind) (ps : List Proposal) : Prop :=
  ps.length ≤ 2 ∧ ∀ p ∈ ps, p.Fits s k

namespace Setting
variable {s : Setting} {k : NodeKind}

theorem fitting_nil : s.Fitting k [] :=
  ⟨Nat.zero_le 2, fun _ h => absurd h List.not_mem_nil⟩

theorem fitting_singleton {p : Proposal} (h : p.Fits s k) : s.Fitting k [p] := by
  refine ⟨Nat.le_succ 1, ?_⟩
  intro q hq
  exact List.mem_singleton.mp hq ▸ h

theorem next_yields {node : Node} (h : s.graph.node? s.node = some node) :
    s.next.Yields fun c => (∃ n, c = .next n) ∧ c.Follows node.kind := by
  unfold Setting.next Graph.successor Graph.node
  rw [h]
  cases hk : node.kind with
  | call c =>
    cases hn : c.next with
    | none => simp [hk, hn, bind, Except.bind, Fault.ofSearch]
    | some n => simp [hk, hn, bind, Except.bind, Continuation.Follows]
  | branch => simp [hk, bind, Except.bind, Fault.ofSearch]
  | terminal => simp [hk, bind, Except.bind, Fault.ofSearch]

theorem fits_next {p : Proposal} {a : Action} (hp : p.module? = some ⟨s.target, s.node, a⟩)
    (ha : a ≠ .sendToController) (hn : ∃ n, p.next = .next n) (hf : p.next.Follows k) :
    p.Fits s k := by
  obtain ⟨n, hn⟩ := hn
  refine .act hp ha hf ?_
  intro hs
  rw [hn] at hs
  cases hs

end Setting

theorem given_yields {α : Type} {a : Option α} {f : α → Checked (List Proposal)}
    {P : List Proposal → Prop} (hnil : P []) (hf : ∀ x, a = some x → (f x).Yields P) :
    (given a f).Yields P := by
  cases ha : a with
  | none => exact hnil
  | some x => exact hf x ha

namespace Pattern
open Setting Checked

/-- On nodes of its graph and on the target, what the pattern proposes is fitting. -/
def Suits (pattern : Pattern) (t : Target) : Prop :=
  ∀ (s : Setting) (node : Node), s.target = t → s.graph.node? s.node = some node →
    (pattern s node.kind).Yields (s.Fitting node.kind)

variable {t : Target}

theorem ignore_suits : Suits ignore t := by
  intro s node _ hn
  apply given_yields fitting_nil
  intro call _
  apply (next_yields hn).bind
  rintro c _ ⟨⟨n, rfl⟩, hf⟩
  exact fitting_singleton (.pass rfl rfl hf rfl)

theorem parseHeader_suits : Suits parseHeader t := by
  intro s node _ hn
  apply given_yields fitting_nil
  intro call _
  apply (next_yields hn).bind
  rintro c _ ⟨hc, hf⟩
  exact fitting_singleton (fits_next rfl (by simp) hc hf)

theorem branch_suits : Suits branch t := by
  intro s node _ _
  unfold branch
  cases hk : node.kind with
  | branch condition onTrue onFalse =>
    refine fitting_singleton (.act rfl (by simp) ⟨rfl, rfl⟩ ?_)
    intro hs
    cases hs
  | call => exact fitting_nil
  | terminal => exact fitting_nil

theorem route_suits : Suits route t := by
  intro s node _ _
  unfold route
  cases hk : node.kind with
  | terminal r => exact fitting_singleton (.act rfl (by simp) trivial fun _ => rfl)
  | call => exact fitting_nil
  | branch => exact fitting_nil

theorem candidates_length_le (t : Target) (c : Container) : (c.candidates t).length ≤ 2 := by
  cases t <;> cases c <;> decide

theorem allocate_suits : Suits allocate t := by
  intro s node _ hn
  apply given_yields fitting_nil
  intro call _
  apply given_yields fitting_nil
  intro container _
  apply given_yields fitting_nil
  intro object _
  apply (next_yields hn).bind
  rintro c _ ⟨hc, hf⟩
  constructor
  · have hle := candidates_length_le s.target container
    have hfl := List.length_filter_le (fun r => s.bindings.allows object r)
      (container.candidates s.target)
    rw [List.length_map]
    omega
  · intro p hp
    obtain ⟨r, _, rfl⟩ := List.mem_map.mp hp
    exact fits_next rfl (by simp) hc hf

/-! ## On the switch -/

theorem widths_yields (es : List Expr) : (widths es).Yields fun _ => True := by
  induction es with
  | nil => trivial
  | cons e es ih =>
    apply e.width_yields.bind
    intro w _ _
    apply ih.bind
    intro ws _ _
    trivial

theorem tableLookup_suits : Suits tableLookup t := by
  intro s node _ hn
  apply given_yields fitting_nil
  intro call _
  apply given_yields fitting_nil
  rintro ⟨table, allocation⟩ _
  apply given_yields fitting_nil
  intro key _
  apply (widths_yields key.parts).bind
  intro keyWidths _ _
  apply given_yields fitting_nil
  intro valueWidth _
  apply (next_yields hn).bind
  rintro c _ ⟨hc, hf⟩
  exact fitting_singleton (fits_next rfl (by simp) hc hf)

theorem tableLearn_suits : Suits tableLearn t := by
  intro s node _ hn
  apply given_yields fitting_nil
  intro call _
  apply given_yields fitting_nil
  rintro ⟨table, allocation⟩ _
  apply given_yields fitting_nil
  intro key _
  apply given_yields fitting_nil
  intro value _
  apply (Expr.width_yields _).bind
  intro bits _ _
  apply (next_yields hn).bind
  rintro c _ ⟨hc, hf⟩
  exact fitting_singleton (fits_next rfl (by simp) hc hf)

theorem register_yields {s : Setting} {node : Node} (hn : s.graph.node? s.node = some node)
    (object : Addr) (allocation : Call) {action : Action} (ha : action ≠ .sendToController) :
    (register s object allocation action).Yields (s.Fitting node.kind) := by
  apply (next_yields hn).bind
  rintro c _ ⟨hc, hf⟩
  apply given_yields fitting_nil
  intro width _
  exact fitting_singleton (fits_next rfl ha hc hf)

theorem registerRead_suits : Suits registerRead t := by
  intro s node _ hn
  apply given_yields fitting_nil
  intro call _
  apply given_yields fitting_nil
  rintro ⟨object, allocation⟩ _
  apply given_yields fitting_nil
  intro index _
  exact register_yields hn object allocation (by simp)

theorem registerWrite_suits : Suits registerWrite t := by
  intro s node _ hn
  apply given_yields fitting_nil
  intro call _
  apply given_yields fitting_nil
  rintro ⟨object, allocation⟩ _
  apply given_yields fitting_nil
  intro index _
  apply given_yields fitting_nil
  intro value _
  exact register_yields hn object allocation (by simp)

theorem sketch_yields {s : Setting} {node : Node} (hn : s.graph.node? s.node = some node)
    (object : Addr) (allocation : Call) (key : Expr) {action : Action}
    (ha : action ≠ .sendToController) :
    (sketch s object allocation key action).Yields (s.Fitting node.kind) := by
  apply (next_yields hn).bind
  rintro c _ ⟨hc, hf⟩
  apply key.width_yields.bind
  intro inputBits _ _
  exact fitting_singleton (fits_next rfl ha hc hf)

/-- What the two patterns for sketches have in common: a call of a routine on a sketch, with a
key. -/
def onSketch (routine : Routine) (action : Call → Addr → Expr → Action) : Pattern := fun s k =>
  given (k.callTo? routine) fun call =>
  given (s.held? call .countMinSketch) fun (object, allocation) =>
  given (call.arg? Argument.key) fun key =>
    sketch s object allocation key (action call object key)

theorem switchSketchUpdate_eq : switchSketchUpdate =
    onSketch .sketchIncrement fun _ object key => .sketchUpdate object key .countMinSketch := rfl

theorem switchSketchQuery_eq : switchSketchQuery =
    onSketch .sketchQuery fun call object key => .sketchQuery object key call.ret .countMinSketch :=
  rfl

theorem onSketch_suits {routine : Routine} {action : Call → Addr → Expr → Action}
    (ha : ∀ call object key, action call object key ≠ .sendToController) :
    Suits (onSketch routine action) t := by
  intro s node _ hn
  apply given_yields fitting_nil
  intro call _
  apply given_yields fitting_nil
  rintro ⟨object, allocation⟩ _
  apply given_yields fitting_nil
  intro key _
  exact sketch_yields hn object allocation key (ha call object key)

theorem switchSketchUpdate_suits : Suits switchSketchUpdate t := by
  rw [switchSketchUpdate_eq]
  exact onSketch_suits (by simp)

theorem switchSketchQuery_suits : Suits switchSketchQuery t := by
  rw [switchSketchQuery_eq]
  exact onSketch_suits (by simp)

theorem sendToController_suits : Suits sendToController .switch := by
  intro s node ht _
  apply yields_ite
  · intro _
    exact fitting_nil
  · intro _
    refine fitting_singleton (.handOver ht ?_ rfl rfl)
    rw [Setting.act, ht]

/-! ## In software -/

theorem calling_suits {action? : Setting → NodeKind → Option Action}
    (ha : ∀ s k, action? s k ≠ some .sendToController) : Suits (calling action?) t := by
  intro s node _ hn
  apply given_yields fitting_nil
  intro action haction
  apply (next_yields hn).bind
  rintro c _ ⟨hc, hf⟩
  refine fitting_singleton (fits_next rfl ?_ hc hf)
  rintro rfl
  exact ha s node.kind haction

end Pattern

namespace Technique
open Pattern Checked

/-- Every pattern of the catalogue suits the target that it is listed for. -/
theorem pattern?_suits {t : Technique} {pattern : Pattern} (h : t.pattern? = some pattern) :
    pattern.Suits t.target := by
  rcases t with ⟨target, kind⟩
  cases kind with
  | ignore => cases h; exact ignore_suits
  | parseHeader => cases h; exact parseHeader_suits
  | branch => cases h; exact branch_suits
  | route => cases h; exact route_suits
  | allocate => cases h; exact allocate_suits
  | tableLookup => cases target <;> cases h; exact tableLookup_suits
  | tableLearn => cases target <;> cases h; exact tableLearn_suits
  | registerRead => cases target <;> cases h; exact registerRead_suits
  | registerWrite => cases target <;> cases h; exact registerWrite_suits
  | sketchUpdate =>
    cases target <;> cases h
    · exact switchSketchUpdate_suits
    all_goals exact calling_suits (by simp [Option.bind_eq_some_iff])
  | sketchQuery =>
    cases target <;> cases h
    · exact switchSketchQuery_suits
    all_goals exact calling_suits (by simp [Option.bind_eq_some_iff])
  | sendToController => cases target <;> cases h; exact sendToController_suits
  | recirculate => cases h
  | mapGet | mapPut | mapErase | vectorRead | vectorWrite | dchainAllocateIndex
  | dchainRejuvenate | dchainFree | expireItems =>
    cases target <;> cases h <;> exact calling_suits (by simp [Option.bind_eq_some_iff])

theorem proposals_yields (t : Technique) (g : Graph) (b : Bindings) (id : NodeId) :
    (t.proposals g b id).Yields fun ps =>
      ps = [] ∨ ∃ node, g.node? id = some node ∧ (Setting.mk g b t.target id).Fitting node.kind ps := by
  unfold proposals
  cases hp : t.pattern? with
  | none => exact Or.inl rfl
  | some pattern =>
    have hnode : (g.node id).Yields fun n => g.node? id = some n := yields_elim rfl fun _ h => h
    apply hnode.bind
    intro node _ hn
    apply (pattern?_suits hp ⟨g, b, t.target, id⟩ node rfl hn).mono
    intro ps _ hps
    exact Or.inr ⟨node, hn, hps⟩

theorem proposal_of_sendToController {t : Technique} {g : Graph} {b : Bindings} {node : NodeId}
    {ps : List Proposal} {p : Proposal} (hk : t.kind = .sendToController)
    (hps : t.proposals g b node = .ok ps) (hp : p ∈ ps) :
    p.module? = some ⟨t.target, node, .sendToController⟩ ∧
      p.next = .transfer .controller node := by
  rcases t with ⟨target, kind⟩
  cases hk
  unfold proposals at hps
  split at hps
  · cases hps
    cases hp
  · rename_i pattern hpattern
    obtain ⟨n, _, hps⟩ := bind_eq_ok.mp hps
    cases target <;> cases hpattern
    unfold Pattern.sendToController at hps
    split at hps
    · cases hps
      cases hp
    · cases hps
      cases List.mem_singleton.mp hp
      exact ⟨rfl, rfl⟩

end Technique

end PacketPlan
