import PacketPlan.Proofs.Expr
import PacketPlan.Proofs.Ordered
import PacketPlan.Proofs.Proposal.Meaning

/-! # Proposals are always found

All that may go wrong when a pattern looks at a node of the graph is that the node is a call without
a successor or that a width is out of range. In a graph that can be read none of this happens,
whatever the bindings are.
-/
namespace PacketPlan
open Checked

/-- Whatever is read off a call is there: it goes on, and its arguments have widths, as have a key
and a value taken together. -/
structure Call.Legible (call : Call) : Prop where
  goes : call.next ≠ none
  measured : ∀ e ∈ call.args.values, e.width? ≠ none
  paired : ∀ key ∈ call.arg? Argument.key, ∀ value ∈ call.arg? Argument.value,
    ∀ w ∈ key.width?, ∀ w' ∈ value.width?, w + w' < widthLimit

instance (call : Call) : Decidable call.Legible :=
  decidable_of_iff (call.next ≠ none ∧ (∀ e ∈ call.args.values, e.width? ≠ none) ∧
      ∀ key ∈ call.arg? Argument.key, ∀ value ∈ call.arg? Argument.value,
        ∀ w ∈ key.width?, ∀ w' ∈ value.width?, w + w' < widthLimit)
    ⟨fun h => ⟨h.1, h.2.1, h.2.2⟩, fun h => ⟨h.goes, h.measured, h.paired⟩⟩

def Graph.Legible (g : Graph) : Prop := ∀ n ∈ g.nodes, ∀ call ∈ n.call?, call.Legible

instance (g : Graph) : Decidable g.Legible :=
  inferInstanceAs (Decidable (∀ n ∈ g.nodes, ∀ call ∈ n.call?, call.Legible))

/-- What may go wrong when a call is read: it does not go on, an argument has no width, or a key and
a value have none taken together. -/
inductive Call.Trips (call : Call) (id : NodeId) : Fault → Prop
  | astray (stops : call.next = none) : call.Trips id (.noSuccessor id call.function)
  | wide {e : Expr} (read : e ∈ call.args.values) (unmeasured : e.width? = none) :
      call.Trips id .addOverflow
  | unpaired {key value : Expr} {w w' : Nat} (keyed : call.arg? Argument.key = some key)
      (valued : call.arg? Argument.value = some value) (hkey : key.width? = some w)
      (hvalue : value.width? = some w') (exceeds : widthLimit ≤ w + w') : call.Trips id .addOverflow

theorem Call.Legible.not_trips {call : Call} (h : call.Legible) {id : NodeId} {f : Fault} :
    ¬call.Trips id f := by
  rintro (stops | ⟨read, unmeasured⟩ | ⟨keyed, valued, hkey, hvalue, exceeds⟩)
  · exact h.goes stops
  · exact h.measured _ read unmeasured
  · exact absurd (h.paired _ keyed _ valued _ hkey _ hvalue) (Nat.not_lt.mpr exceeds)

def Graph.Trips (g : Graph) (id : NodeId) (f : Fault) : Prop :=
  ∃ node call, g.node? id = some node ∧ node.kind.call? = some call ∧ call.Trips id f

theorem Graph.Legible.not_trips {g : Graph} (legible : g.Legible) {id : NodeId} {f : Fault} :
    ¬g.Trips id f := by
  rintro ⟨node, call, hn, hcall, trips⟩
  exact (legible node (List.mem_of_getElem? hn) call hcall).not_trips trips

theorem Graph.node_eq_ok {g : Graph} {id : NodeId} {node : Node} (hn : g.node? id = some node) :
    g.node id = .ok node := by
  rw [Graph.node, hn]
  rfl

/-! ## Widths -/

theorem Expr.width_meets (e : Expr) :
    e.width.Meets (fun _ => True) fun f => f = .addOverflow ∧ e.width? = none := by
  unfold Expr.width
  cases e.width? with
  | none => exact ⟨rfl, rfl⟩
  | some w => trivial

theorem Expr.width?_concat_pair {e e' : Expr} {w w' : Nat} (h : e.width? = some w)
    (h' : e'.width? = some w') (hsum : w + w' < widthLimit) :
    (Expr.concat [e, e']).width? = some (w + w') := by
  have hfirst : w < widthLimit := by omega
  simp [Expr.width?, Expr.widthFrom?, h, h', hfirst, hsum]

theorem Pattern.widths_meets (es : List Expr) : (Pattern.widths es).Meets (fun _ => True)
    fun f => f = .addOverflow ∧ ∃ e ∈ es, e.width? = none := by
  induction es with
  | nil => trivial
  | cons e es ih =>
    refine (e.width_meets.faults ?_).bind fun w _ _ => (ih.faults ?_).bind fun ws _ _ => trivial
    · rintro f ⟨hf, hnone⟩
      exact ⟨hf, e, List.mem_cons_self, hnone⟩
    · rintro f ⟨hf, x, hx, hnone⟩
      exact ⟨hf, x, List.mem_cons_of_mem e hx, hnone⟩

/-! ## Patterns -/

theorem given_meets {α : Type} {o : Option α} {f : α → Checked (List Proposal)}
    {P : List Proposal → Prop} {F : Fault → Prop} (hnil : P [])
    (hf : ∀ x, o = some x → (f x).Meets P F) : (given o f).Meets P F := by
  cases ho : o with
  | none => exact hnil
  | some x => exact hf x ho

theorem NodeKind.call?_of_callTo? {k : NodeKind} {r : Routine} {call : Call}
    (h : k.callTo? r = some call) : k.call? = some call :=
  (Option.filter_eq_some_iff.mp h).1

theorem Call.mem_values_of_arg? {call : Call} {name : String} {e : Expr}
    (he : call.arg? name = some e) : e ∈ call.args.values :=
  List.mem_map_of_mem (f := Prod.snd) (OrdMap.mem_of_findEntry he)

namespace Setting
variable {s : Setting} {node : Node} {call : Call}

theorem next_meets (hn : s.graph.node? s.node = some node) (hcall : node.kind.call? = some call) :
    s.next.Meets (fun _ => True) (s.graph.Trips s.node) := by
  have hkind : node.kind = .call call := by
    cases hk : node.kind with
    | call c =>
      rw [hk] at hcall
      cases hcall
      rfl
    | branch | terminal =>
      rw [hk] at hcall
      cases hcall
  cases hnext : call.next with
  | none =>
    have hfails : s.next = .error (.noSuccessor s.node call.function) := by
      simp [Setting.next, Graph.successor, Graph.node, hn, hkind, hnext, bind, Except.bind]
    rw [hfails]
    exact ⟨node, call, hn, hcall, .astray hnext⟩
  | some next =>
    have hgoes : s.next = .ok (.next next) := by
      simp [Setting.next, Graph.successor, Graph.node, hn, hkind, hnext, bind, Except.bind]
    exact meets_of_eq_ok hgoes trivial

theorem width_meets (hn : s.graph.node? s.node = some node) (hcall : node.kind.call? = some call)
    {name : String} {e : Expr} (he : call.arg? name = some e) :
    e.width.Meets (fun _ => True) (s.graph.Trips s.node) := by
  refine e.width_meets.faults ?_
  rintro f ⟨rfl, hnone⟩
  exact ⟨node, call, hn, hcall, .wide (Call.mem_values_of_arg? he) hnone⟩

theorem call?_of_callOn? {k : NodeKind} {routine : Routine} {c : Container}
    {found : Call × Addr × Representation} (h : s.callOn? k routine c = some found) :
    ∃ call, k.call? = some call := by
  obtain ⟨call, hcall, _⟩ := Option.bind_eq_some_iff.mp h
  exact ⟨call, NodeKind.call?_of_callTo? hcall⟩

end Setting

namespace Pattern
open Setting

/-- On a node of the graph, the pattern comes to a result unless the call there cannot be read. -/
def Total (pattern : Pattern) : Prop :=
  ∀ {s : Setting} {node : Node}, s.graph.node? s.node = some node →
    (pattern s node.kind).Meets (fun _ => True) (s.graph.Trips s.node)

theorem ignore_total : Total ignore := by
  intro s node hn
  apply given_meets trivial
  intro call hcall
  apply (next_meets hn (Option.filter_eq_some_iff.mp hcall).1).bind
  intro next _ _
  trivial

theorem parseHeader_total : Total parseHeader := by
  intro s node hn
  apply given_meets trivial
  intro call hcall
  apply (next_meets hn (NodeKind.call?_of_callTo? hcall)).bind
  intro next _ _
  trivial

theorem branch_total : Total branch := by
  intro s node _
  unfold branch
  split <;> trivial

theorem route_total : Total route := by
  intro s node _
  unfold route
  split <;> trivial

theorem sendToController_total : Total sendToController := by
  intro s node _
  exact meets_ite (fun _ => trivial) (fun _ => trivial)

theorem allocate_total : Total allocate := by
  intro s node hn
  apply given_meets trivial
  intro call hcall
  apply given_meets trivial
  intro container _
  apply given_meets trivial
  intro object _
  apply (next_meets hn hcall).bind
  intro next _ _
  trivial

theorem tableLookup_total : Total tableLookup := by
  intro s node hn
  apply given_meets trivial
  intro call hcall
  apply given_meets trivial
  rintro ⟨table, allocation⟩ _
  apply given_meets trivial
  intro key hkey
  have hcall := NodeKind.call?_of_callTo? hcall
  have hwidths : (widths key.parts).Meets (fun _ => True) (s.graph.Trips s.node) := by
    refine (widths_meets key.parts).faults ?_
    rintro f ⟨rfl, part, hpart, hnone⟩
    refine ⟨node, call, hn, hcall, .wide (Call.mem_values_of_arg? hkey) ?_⟩
    by_contra hwidth
    exact Expr.width?_of_mem_parts hwidth hpart hnone
  apply hwidths.bind
  intro keyWidths _ _
  apply given_meets trivial
  intro valueWidth _
  apply (next_meets hn hcall).bind
  intro next _ _
  trivial

theorem tableLearn_total : Total tableLearn := by
  intro s node hn
  apply given_meets trivial
  intro call hcall
  apply given_meets trivial
  rintro ⟨table, allocation⟩ _
  apply given_meets trivial
  intro key hkey
  apply given_meets trivial
  intro value hvalue
  have hcall := NodeKind.call?_of_callTo? hcall
  have hpair : (Expr.concat [key, value]).width.Meets (fun _ => True) (s.graph.Trips s.node) := by
    refine (Expr.width_meets _).faults ?_
    rintro f ⟨rfl, hnone⟩
    refine ⟨node, call, hn, hcall, ?_⟩
    cases hw : key.width? with
    | none => exact .wide (Call.mem_values_of_arg? hkey) hw
    | some w =>
      cases hw' : value.width? with
      | none => exact .wide (Call.mem_values_of_arg? hvalue) hw'
      | some w' =>
        refine .unpaired hkey hvalue hw hw' (Nat.not_lt.mp fun hsum => ?_)
        rw [Expr.width?_concat_pair hw hw' hsum] at hnone
        cases hnone
  apply hpair.bind
  intro bits _ _
  apply (next_meets hn hcall).bind
  intro next _ _
  trivial

theorem register_meets {s : Setting} {node : Node} {call : Call}
    (hn : s.graph.node? s.node = some node) (hcall : node.kind.call? = some call) (object : Addr)
    (allocation : Call) (action : Action) :
    (register s object allocation action).Meets (fun _ => True) (s.graph.Trips s.node) := by
  apply (next_meets hn hcall).bind
  intro next _ _
  apply given_meets trivial
  intro width _
  trivial

theorem registerRead_total : Total registerRead := by
  intro s node hn
  apply given_meets trivial
  intro call hcall
  apply given_meets trivial
  rintro ⟨object, allocation⟩ _
  apply given_meets trivial
  intro index _
  exact register_meets hn (NodeKind.call?_of_callTo? hcall) object allocation _

theorem registerWrite_total : Total registerWrite := by
  intro s node hn
  apply given_meets trivial
  intro call hcall
  apply given_meets trivial
  rintro ⟨object, allocation⟩ _
  apply given_meets trivial
  intro index _
  apply given_meets trivial
  intro value _
  exact register_meets hn (NodeKind.call?_of_callTo? hcall) object allocation _

theorem onSketch_total {routine : Routine} {action : Call → Addr → Expr → Action} :
    Total (onSketch routine action) := by
  intro s node hn
  apply given_meets trivial
  intro call hcall
  apply given_meets trivial
  rintro ⟨object, allocation⟩ _
  apply given_meets trivial
  intro key hkey
  have hcall := NodeKind.call?_of_callTo? hcall
  apply (next_meets hn hcall).bind
  intro next _ _
  apply (width_meets hn hcall hkey).bind
  intro inputBits _ _
  trivial

theorem switchSketchUpdate_total : Total switchSketchUpdate := by
  rw [switchSketchUpdate_eq]
  exact onSketch_total

theorem switchSketchQuery_total : Total switchSketchQuery := by
  rw [switchSketchQuery_eq]
  exact onSketch_total

theorem callOn_total {routine : Routine} {c : Container}
    {f : Setting → Call × Addr × Representation → Option Action} :
    Total (calling fun s k => (s.callOn? k routine c).bind (f s)) := by
  intro s node hn
  apply given_meets trivial
  intro action haction
  obtain ⟨found, hfound, _⟩ := Option.bind_eq_some_iff.mp haction
  obtain ⟨call, hcall⟩ := call?_of_callOn? hfound
  apply (next_meets hn hcall).bind
  intro next _ _
  trivial

theorem softwareSketchUpdate_total : Total softwareSketchUpdate := callOn_total

theorem softwareSketchQuery_total : Total softwareSketchQuery := callOn_total

end Pattern

namespace Technique
open Pattern

theorem pattern?_total {t : Technique} {pattern : Pattern} (h : t.pattern? = some pattern) :
    pattern.Total := by
  rcases t with ⟨target, kind⟩
  cases kind with
  | ignore => cases h; exact ignore_total
  | parseHeader => cases h; exact parseHeader_total
  | branch => cases h; exact branch_total
  | route => cases h; exact route_total
  | allocate => cases h; exact allocate_total
  | tableLookup => cases target <;> cases h; exact tableLookup_total
  | tableLearn => cases target <;> cases h; exact tableLearn_total
  | registerRead => cases target <;> cases h; exact registerRead_total
  | registerWrite => cases target <;> cases h; exact registerWrite_total
  | sketchUpdate =>
    cases target <;> cases h
    · exact switchSketchUpdate_total
    all_goals exact softwareSketchUpdate_total
  | sketchQuery =>
    cases target <;> cases h
    · exact switchSketchQuery_total
    all_goals exact softwareSketchQuery_total
  | sendToController => cases target <;> cases h; exact sendToController_total
  | recirculate => cases h
  | mapGet | mapPut | mapErase | vectorRead | vectorWrite | dchainAllocateIndex
  | dchainRejuvenate | dchainFree | expireItems => cases target <;> cases h <;> exact callOn_total

/-- A technique comes to its proposals, whatever is bound, unless the call at the node cannot be
read. -/
theorem proposals_meets (t : Technique) {g : Graph} (b : Bindings) {id : NodeId}
    (hid : id < g.size) : (t.proposals g b id).Meets (fun _ => True) (g.Trips id) := by
  unfold proposals
  cases hpattern : t.pattern? with
  | none => trivial
  | some pattern =>
    have hn : g.node? id = some g.nodes[id] := List.getElem?_eq_getElem hid
    simp only [Graph.node_eq_ok hn]
    exact pattern?_total hpattern (s := ⟨g, b, t.target, id⟩) hn

theorem proposals_succeeds (t : Technique) {g : Graph} (legible : g.Legible) (b : Bindings)
    {id : NodeId} (hid : id < g.size) : (t.proposals g b id).Succeeds := by
  rcases (t.proposals_meets b hid).cases with ⟨ps, hps, _⟩ | ⟨f, _, trips⟩
  · exact ⟨ps, hps⟩
  · exact absurd trips legible.not_trips

end Technique

end PacketPlan
