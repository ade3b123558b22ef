import Mathlib.Data.List.Nodup
import PacketPlan.Proofs.Bindings
import PacketPlan.Proofs.Proposal

/-! # What a proposal asks of the pipeline, and that it is made again

A proposal with a module asks the pipeline for the objects of that module and for nothing else. Once
the bindings hold what a proposal commits, the pattern makes this very proposal and no other,
however many bindings there are besides: an object that has a representation keeps it.
-/
namespace PacketPlan

/-- The objects that an action meets in the pipeline, in the order in which they are placed. -/
def Action.objects : Action → List SwitchObject
  | tableLookup table .. => [⟨table, .table⟩]
  | tableLearn table .. => [⟨table, .digest⟩]
  | registerRead register .. | registerWrite register .. => [⟨register, .register⟩]
  | sketchUpdate sketch .. | sketchQuery sketch .. => [⟨sketch, .hash⟩, ⟨sketch, .register⟩]
  | _ => []

def Action.fused : Action → List SwitchObject
  | registerRead register .. | registerWrite register .. => [⟨register, .register⟩]
  | sketchUpdate sketch .. | sketchQuery sketch .. => [⟨sketch, .hash⟩, ⟨sketch, .register⟩]
  | _ => []

def Module.objects (m : Module) : List SwitchObject :=
  if m.target = .switch then m.action.objects else []

def Module.fused (m : Module) : List SwitchObject :=
  if m.target = .switch then m.action.fused else []

theorem Module.fused_eq_nil {m : Module} (h : m.objects = []) : m.fused = [] := by
  rcases m with ⟨target, node, action⟩
  unfold Module.objects at h
  unfold Module.fused
  split at h
  · rename_i ht
    rw [if_pos ht]
    cases action <;> first | rfl | cases h
  · rename_i ht
    exact if_neg ht

theorem Module.role_of_mem_fused {m : Module} {o : SwitchObject} (h : o ∈ m.fused) :
    o.role ≠ .table ∧ o.role ≠ .digest := by
  unfold Module.fused at h
  split at h
  · cases ha : m.action <;> simp [ha, Action.fused] at h
    case registerRead | registerWrite => simp [h]
    case sketchUpdate | sketchQuery => rcases h with rfl | rfl <;> simp
  · cases h

theorem Module.objects_of_mem_hash {m : Module} {addr : Addr} (h : ⟨addr, .hash⟩ ∈ m.objects) :
    m.objects = [⟨addr, .hash⟩, ⟨addr, .register⟩] := by
  by_cases ht : m.target = .switch
  · rw [Module.objects, if_pos ht] at h ⊢
    cases ha : m.action <;> simp [ha, Action.objects] at h
    case sketchUpdate | sketchQuery =>
      subst h
      rfl
  · rw [Module.objects, if_neg ht] at h
    cases h

/-- The representation that a module works on through an object of its own, a sketch apart. -/
def Role.representation : Role → Representation
  | register => .registerArray
  | _ => .exactMatchTable

namespace Proposal

/-- What a proposal of a kind asks of the pipeline: nothing, one object, or the hash unit and the
rows of a sketch. -/
inductive Asks (s : Setting) (kind : Kind) (p : Proposal) : Prop
  | silent (unseen : p.module? = none) (places : p.placements = []) (fused : p.fused = [])
  | nothing {a : Action} (acts : p.module? = some ⟨s.target, s.node, a⟩) (kind_eq : a.kind = kind)
      (inert : Module.objects ⟨s.target, s.node, a⟩ = []) (places : p.placements = [])
      (fused : p.fused = [])
  | object {a : Action} {o : SwitchObject} {d : Demand} (onSwitch : s.target = .switch)
      (acts : p.module? = some ⟨s.target, s.node, a⟩) (kind_eq : a.kind = kind)
      (objects : a.objects = [o]) (places : p.placements = [(o, d)]) (fused : p.fused = a.fused)
      (bound : s.bindings.holds o.addr o.role.representation = true)
      (alike : d.isDigest = decide (o.role = .digest))
  | sketch {a : Action} {addr : Addr} {bits width capacity : Nat} (onSwitch : s.target = .switch)
      (acts : p.module? = some ⟨s.target, s.node, a⟩) (kind_eq : a.kind = kind)
      (objects : a.objects = [⟨addr, .hash⟩, ⟨addr, .register⟩])
      (places : p.placements =
        [(⟨addr, .hash⟩, .hash bits), (⟨addr, .register⟩, .register width capacity)])
      (fused : p.fused = a.fused) (fuses : a.fused = a.objects)
      (bound : s.bindings.holds addr .countMinSketch = true)

theorem Asks.module_eq {s : Setting} {kind : Kind} {p : Proposal} (h : p.Asks s kind) {m : Module}
    (hm : p.module? = some m) : m.target = s.target ∧ m.node = s.node ∧ m.kind = kind := by
  cases h with
  | silent unseen =>
    rw [unseen] at hm
    cases hm
  | nothing acts kind_eq | object _ acts kind_eq | sketch _ acts kind_eq =>
    rw [acts] at hm
    cases hm
    exact ⟨rfl, rfl, kind_eq⟩

theorem Asks.alike {s : Setting} {kind : Kind} {p : Proposal} (h : p.Asks s kind) :
    ∀ x ∈ p.placements, x.2.isDigest = decide (x.1.role = .digest) := by
  intro x hx
  cases h with
  | silent _ places | nothing _ _ _ places =>
    rw [places] at hx
    exact absurd hx List.not_mem_nil
  | object _ _ _ _ places _ _ alike =>
    rw [places] at hx
    cases List.mem_singleton.mp hx
    exact alike
  | sketch _ _ _ _ places =>
    rw [places] at hx
    rcases List.mem_cons.mp hx with rfl | hx
    · rfl
    · cases List.mem_singleton.mp hx
      rfl

/-- A proposal places the objects of its module, in their order, and fuses those that the module
fuses. -/
theorem Asks.placed {s : Setting} {kind : Kind} {p : Proposal} (h : p.Asks s kind) {m : Module}
    (hm : p.module? = some m) : p.objects = m.objects ∧ p.fused = m.fused := by
  cases h with
  | silent unseen =>
    rw [unseen] at hm
    cases hm
  | nothing acts _ inert places fused =>
    rw [acts] at hm
    cases hm
    rw [inert, Module.fused_eq_nil inert, fused, Proposal.objects, places]
    exact ⟨rfl, rfl⟩
  | object onSwitch acts _ objects places fused =>
    rw [acts] at hm
    cases hm
    rw [Module.objects, Module.fused, if_pos onSwitch, if_pos onSwitch, objects, fused,
      Proposal.objects, places]
    exact ⟨rfl, rfl⟩
  | sketch onSwitch acts _ objects places fused =>
    rw [acts] at hm
    cases hm
    rw [Module.objects, Module.fused, if_pos onSwitch, if_pos onSwitch, objects, fused,
      Proposal.objects, places]
    exact ⟨rfl, rfl⟩

end Proposal

/-! ## Further bindings -/

namespace Setting
variable {s : Setting} {b : Bindings}

def rebind (s : Setting) (b : Bindings) : Setting := { s with bindings := b }

theorem held?_eq_some {c : Call} {r : Representation} {found : Addr × Call}
    (h : s.held? c r = some found) : s.bindings.holds found.1 r = true := by
  obtain ⟨a, _, h⟩ := Option.bind_eq_some_iff.mp h
  split at h
  · rename_i hr
    obtain ⟨allocation, _, h⟩ := Option.bind_eq_some_iff.mp h
    cases h
    exact hr
  · cases h

theorem held?_rebind (hb : s.bindings.Within b) {c : Call} {r : Representation}
    {found : Addr × Call} (h : s.held? c r = some found) : (s.rebind b).held? c r = some found := by
  obtain ⟨a, ha, h⟩ := Option.bind_eq_some_iff.mp h
  refine Option.bind_eq_some_iff.mpr ⟨a, ha, ?_⟩
  split at h
  · rename_i hr
    have hr' : b.holds a r = true := hb.holds hr
    simp only [rebind, hr', if_true]
    exact h
  · cases h

theorem reached?_rebind (hb : s.bindings.Within b) {c : Container} {a : Addr} {r : Representation}
    (h : s.reached? c a = some r) : (s.rebind b).reached? c a = some r := by
  have hr : s.bindings.get? a = some r :=
    Bindings.holds_iff.mp (List.find?_some (p := fun r => s.bindings.holds a r) h)
  have hsame : b.get? a = s.bindings.get? a := by rw [hr, hb a r hr]
  simp only [reached?, rebind, Bindings.holds, hsame] at h ⊢
  exact h

theorem callOn?_rebind (hb : s.bindings.Within b) {k : NodeKind} {routine : Routine} {c : Container}
    {found : Call × Addr × Representation} (h : s.callOn? k routine c = some found) :
    (s.rebind b).callOn? k routine c = some found := by
  obtain ⟨call, hcall, h⟩ := Option.bind_eq_some_iff.mp h
  obtain ⟨a, ha, h⟩ := Option.bind_eq_some_iff.mp h
  obtain ⟨r, hr, h⟩ := Option.bind_eq_some_iff.mp h
  refine Option.bind_eq_some_iff.mpr ⟨call, hcall, ?_⟩
  refine Option.bind_eq_some_iff.mpr ⟨a, ha, ?_⟩
  exact Option.bind_eq_some_iff.mpr ⟨r, reached?_rebind hb hr, h⟩

end Setting

theorem given_eq_ok {α : Type} {o : Option α} {f : α → Checked (List Proposal)} {ps : List Proposal}
    {p : Proposal} (h : given o f = .ok ps) (hp : p ∈ ps) : ∃ x, o = some x ∧ f x = .ok ps := by
  cases o with
  | none =>
    cases h
    simp at hp
  | some x => exact ⟨x, rfl, h⟩

theorem given_of_some {α : Type} {o : Option α} {f : α → Checked (List Proposal)} {x : α}
    {ps : List Proposal} (ho : o = some x) (h : f x = .ok ps) : given o f = .ok ps := by
  rw [ho]
  exact h

namespace Pattern
open Setting

/-- Whatever the pattern proposes on the target, it proposes again, and nothing else, under further
bindings that hold what the proposal commits. -/
def Steady (pattern : Pattern) (t : Target) (kind : Kind) : Prop :=
  ∀ {s : Setting} {k : NodeKind} {ps : List Proposal} {p : Proposal}, s.target = t →
    pattern s k = .ok ps → p ∈ ps →
    p.Asks s kind ∧ ∀ b, s.bindings.Within b → (∀ c ∈ p.commits, b.holds c.1 c.2 = true) →
      pattern (s.rebind b) k = .ok [p]

variable {t : Target}

/-! ## On every target -/

theorem ignore_steady : Steady ignore t .ignore := by
  intro s k ps p _ h hp
  obtain ⟨call, hcall, h⟩ := given_eq_ok h hp
  obtain ⟨next, hnext, h⟩ := bind_eq_ok.mp h
  cases h
  cases List.mem_singleton.mp hp
  refine ⟨.silent rfl rfl rfl, ?_⟩
  intro b _ _
  exact given_of_some hcall (bind_eq_ok.mpr ⟨next, hnext, rfl⟩)

theorem inert_of_objects {s : Setting} {a : Action} (h : a.objects = []) :
    Module.objects ⟨s.target, s.node, a⟩ = [] := by
  unfold Module.objects
  split
  · exact h
  · rfl

theorem parseHeader_steady : Steady parseHeader t .parseHeader := by
  intro s k ps p _ h hp
  obtain ⟨call, hcall, h⟩ := given_eq_ok h hp
  obtain ⟨next, hnext, h⟩ := bind_eq_ok.mp h
  cases h
  cases List.mem_singleton.mp hp
  refine ⟨.nothing rfl rfl (inert_of_objects rfl) rfl rfl, ?_⟩
  intro b _ _
  exact given_of_some hcall (bind_eq_ok.mpr ⟨next, hnext, rfl⟩)

theorem branch_steady : Steady branch t .branch := by
  intro s k ps p _ h hp
  cases k with
  | branch condition onTrue onFalse =>
    cases h
    cases List.mem_singleton.mp hp
    exact ⟨.nothing rfl rfl (inert_of_objects rfl) rfl rfl, fun _ _ _ => rfl⟩
  | call | terminal =>
    cases h
    simp at hp

theorem route_steady : Steady route t .route := by
  intro s k ps p _ h hp
  cases k with
  | terminal r =>
    cases h
    cases List.mem_singleton.mp hp
    exact ⟨.nothing rfl rfl (inert_of_objects rfl) rfl rfl, fun _ _ _ => rfl⟩
  | call | branch =>
    cases h
    simp at hp

theorem nodup_candidates (t : Target) (c : Container) : (c.candidates t).Nodup := by
  cases t <;> cases c <;> decide

theorem filter_allows_eq {b : Bindings} {a : Addr} {r : Representation} {rs : List Representation}
    (hrs : rs.Nodup) (hr : r ∈ rs) (hb : b.holds a r = true) :
    (rs.filter fun x => b.allows a x) = [r] := by
  have hget := Bindings.holds_iff.mp hb
  have hallows : (fun x => b.allows a x) = fun x => x == r := by
    funext x
    simp only [Bindings.allows, hget]
    exact decide_eq_decide.mpr eq_comm
  rw [hallows, List.filter_beq, List.count_eq_one_of_mem hrs hr]
  rfl

theorem allocate_steady : Steady allocate t .allocate := by
  intro s k ps p _ h hp
  obtain ⟨call, hcall, h⟩ := given_eq_ok h hp
  obtain ⟨container, hcontainer, h⟩ := given_eq_ok h hp
  obtain ⟨object, hobject, h⟩ := given_eq_ok h hp
  obtain ⟨next, hnext, h⟩ := bind_eq_ok.mp h
  cases h
  obtain ⟨r, hr, rfl⟩ := List.mem_map.mp hp
  refine ⟨.nothing rfl rfl (inert_of_objects rfl) rfl rfl, ?_⟩
  intro b _ hcommits
  have hheld : b.holds object r = true := hcommits (object, r) List.mem_cons_self
  have hcandidate := (List.mem_filter.mp hr).1
  refine given_of_some hcall (given_of_some hcontainer (given_of_some hobject (bind_eq_ok.mpr
    ⟨next, hnext, ?_⟩)))
  simp only [rebind, filter_allows_eq (nodup_candidates s.target container) hcandidate hheld]
  rfl

theorem sendToController_steady : Steady sendToController t .sendToController := by
  intro s k ps p _ h hp
  unfold sendToController at h ⊢
  split at h
  · cases h
    simp at hp
  · rename_i hk
    cases h
    cases List.mem_singleton.mp hp
    refine ⟨.nothing rfl rfl (inert_of_objects rfl) rfl rfl, ?_⟩
    intro b _ _
    rw [if_neg hk]
    rfl

/-! ## On the switch -/

theorem tableLookup_steady : Steady tableLookup .switch .tableLookup := by
  intro s k ps p ht h hp
  obtain ⟨call, hcall, h⟩ := given_eq_ok h hp
  obtain ⟨⟨table, allocation⟩, hheld, h⟩ := given_eq_ok h hp
  obtain ⟨key, hkey, h⟩ := given_eq_ok h hp
  obtain ⟨keyWidths, hwidths, h⟩ := bind_eq_ok.mp h
  obtain ⟨valueWidth, hvalue, h⟩ := given_eq_ok h hp
  obtain ⟨next, hnext, h⟩ := bind_eq_ok.mp h
  cases h
  cases List.mem_singleton.mp hp
  refine ⟨.object ht rfl rfl rfl rfl rfl (held?_eq_some hheld) rfl, ?_⟩
  intro b hb _
  have hafter := held?_rebind hb hheld
  exact given_of_some hcall (given_of_some hafter (given_of_some hkey (bind_eq_ok.mpr
    ⟨keyWidths, hwidths, given_of_some hvalue (bind_eq_ok.mpr ⟨next, hnext, rfl⟩)⟩)))

theorem tableLearn_steady : Steady tableLearn .switch .tableLearn := by
  intro s k ps p ht h hp
  obtain ⟨call, hcall, h⟩ := given_eq_ok h hp
  obtain ⟨⟨table, allocation⟩, hheld, h⟩ := given_eq_ok h hp
  obtain ⟨key, hkey, h⟩ := given_eq_ok h hp
  obtain ⟨value, hvalue, h⟩ := given_eq_ok h hp
  obtain ⟨bits, hbits, h⟩ := bind_eq_ok.mp h
  obtain ⟨next, hnext, h⟩ := bind_eq_ok.mp h
  cases h
  cases List.mem_singleton.mp hp
  refine ⟨.object ht rfl rfl rfl rfl rfl (held?_eq_some hheld) rfl, ?_⟩
  intro b hb _
  have hafter := held?_rebind hb hheld
  exact given_of_some hcall (given_of_some hafter (given_of_some hkey (given_of_some hvalue
    (bind_eq_ok.mpr ⟨bits, hbits, bind_eq_ok.mpr ⟨next, hnext, rfl⟩⟩))))

theorem register_steady {s : Setting} {object : Addr} {allocation : Call} {action : Action}
    {ps : List Proposal} {p : Proposal} (ht : s.target = .switch)
    (hobjects : action.objects = [⟨object, .register⟩])
    (hfused : action.fused = [⟨object, .register⟩])
    (hbound : s.bindings.holds object .registerArray = true)
    (h : register s object allocation action = .ok ps) (hp : p ∈ ps) :
    p.Asks s action.kind ∧ ∀ b, register (s.rebind b) object allocation action = .ok [p] := by
  obtain ⟨next, hnext, h⟩ := bind_eq_ok.mp h
  obtain ⟨width, hwidth, h⟩ := given_eq_ok h hp
  cases h
  cases List.mem_singleton.mp hp
  refine ⟨.object ht rfl rfl hobjects rfl hfused.symm hbound rfl, ?_⟩
  intro b
  exact bind_eq_ok.mpr ⟨next, hnext, given_of_some hwidth rfl⟩

theorem registerRead_steady : Steady registerRead .switch .registerRead := by
  intro s k ps p ht h hp
  obtain ⟨call, hcall, h⟩ := given_eq_ok h hp
  obtain ⟨⟨object, allocation⟩, hheld, h⟩ := given_eq_ok h hp
  obtain ⟨index, hindex, h⟩ := given_eq_ok h hp
  obtain ⟨hasks, hagain⟩ := register_steady ht rfl rfl (held?_eq_some hheld) h hp
  refine ⟨hasks, ?_⟩
  intro b hb _
  exact given_of_some hcall
    (given_of_some (held?_rebind hb hheld) (given_of_some hindex (hagain b)))

theorem registerWrite_steady : Steady registerWrite .switch .registerWrite := by
  intro s k ps p ht h hp
  obtain ⟨call, hcall, h⟩ := given_eq_ok h hp
  obtain ⟨⟨object, allocation⟩, hheld, h⟩ := given_eq_ok h hp
  obtain ⟨index, hindex, h⟩ := given_eq_ok h hp
  obtain ⟨value, hvalue, h⟩ := given_eq_ok h hp
  obtain ⟨hasks, hagain⟩ := register_steady ht rfl rfl (held?_eq_some hheld) h hp
  refine ⟨hasks, ?_⟩
  intro b hb _
  exact given_of_some hcall (given_of_some (held?_rebind hb hheld) (given_of_some hindex
    (given_of_some hvalue (hagain b))))

theorem sketch_steady {s : Setting} {object : Addr} {allocation : Call} {key : Expr}
    {action : Action} {ps : List Proposal} {p : Proposal} (ht : s.target = .switch)
    (hobjects : action.objects = [⟨object, .hash⟩, ⟨object, .register⟩])
    (hfuses : action.fused = action.objects)
    (hbound : s.bindings.holds object .countMinSketch = true)
    (h : sketch s object allocation key action = .ok ps) (hp : p ∈ ps) :
    p.Asks s action.kind ∧ ∀ b, sketch (s.rebind b) object allocation key action = .ok [p] := by
  obtain ⟨next, hnext, h⟩ := bind_eq_ok.mp h
  obtain ⟨inputBits, hbits, h⟩ := bind_eq_ok.mp h
  cases h
  cases List.mem_singleton.mp hp
  have hfused : [⟨object, .hash⟩, ⟨object, .register⟩] = action.fused := by rw [hfuses, hobjects]
  refine ⟨.sketch ht rfl rfl hobjects rfl hfused hfuses hbound, ?_⟩
  intro b
  exact bind_eq_ok.mpr ⟨next, hnext, bind_eq_ok.mpr ⟨inputBits, hbits, rfl⟩⟩

theorem onSketch_steady {routine : Routine} {action : Call → Addr → Expr → Action} {kind : Kind}
    (hkind : ∀ call object key, (action call object key).kind = kind)
    (hobjects : ∀ call object key,
      (action call object key).objects = [⟨object, .hash⟩, ⟨object, .register⟩])
    (hfuses : ∀ call object key, (action call object key).fused = (action call object key).objects) :
    Steady (onSketch routine action) .switch kind := by
  intro s k ps p ht h hp
  obtain ⟨call, hcall, h⟩ := given_eq_ok h hp
  obtain ⟨⟨object, allocation⟩, hheld, h⟩ := given_eq_ok h hp
  obtain ⟨key, hkey, h⟩ := given_eq_ok h hp
  obtain ⟨hasks, hagain⟩ := sketch_steady ht (hobjects call object key) (hfuses call object key)
    (held?_eq_some hheld) h hp
  rw [hkind] at hasks
  refine ⟨hasks, ?_⟩
  intro b hb _
  exact given_of_some hcall (given_of_some (held?_rebind hb hheld) (given_of_some hkey (hagain b)))

theorem switchSketchUpdate_steady : Steady switchSketchUpdate .switch .sketchUpdate := by
  rw [switchSketchUpdate_eq]
  apply onSketch_steady <;> exact fun _ _ _ => rfl

theorem switchSketchQuery_steady : Steady switchSketchQuery .switch .sketchQuery := by
  rw [switchSketchQuery_eq]
  apply onSketch_steady <;> exact fun _ _ _ => rfl

/-! ## In software -/

theorem calling_steady {action? : Setting → NodeKind → Option Action} {kind : Kind}
    (soft : t.isSoftware = true) (hkind : ∀ {s k a}, action? s k = some a → a.kind = kind)
    (hagain : ∀ {s : Setting} {k a b}, s.bindings.Within b → action? s k = some a →
      action? (s.rebind b) k = some a) : Steady (calling action?) t kind := by
  intro s k ps p ht h hp
  obtain ⟨action, haction, h⟩ := given_eq_ok h hp
  obtain ⟨next, hnext, h⟩ := bind_eq_ok.mp h
  cases h
  cases List.mem_singleton.mp hp
  have hinert : Module.objects ⟨s.target, s.node, action⟩ = [] := by
    have hne : s.target ≠ .switch := by
      rw [ht]
      rintro rfl
      cases soft
    exact if_neg hne
  refine ⟨.nothing rfl (hkind haction) hinert rfl rfl, ?_⟩
  intro b hb _
  exact given_of_some (hagain hb haction) (bind_eq_ok.mpr ⟨next, hnext, rfl⟩)

theorem callOn_steady {routine : Routine} {c : Container} {kind : Kind}
    {f : Call × Addr × Representation → Option Action} (soft : t.isSoftware = true)
    (hkind : ∀ {found a}, f found = some a → a.kind = kind) :
    Steady (calling fun s k => (s.callOn? k routine c).bind f) t kind := by
  apply calling_steady soft
  · intro s k a h
    obtain ⟨found, _, h⟩ := Option.bind_eq_some_iff.mp h
    exact hkind h
  · intro s k a b hb h
    obtain ⟨found, hfound, h⟩ := Option.bind_eq_some_iff.mp h
    exact Option.bind_eq_some_iff.mpr ⟨found, callOn?_rebind hb hfound, h⟩

theorem expireItems_steady (soft : t.isSoftware = true) : Steady expireItems t .expireItems := by
  apply calling_steady soft
  · intro s k a h
    obtain ⟨⟨call, map, r⟩, _, h⟩ := Option.bind_eq_some_iff.mp h
    obtain ⟨chain, _, h⟩ := Option.bind_eq_some_iff.mp h
    obtain ⟨r', _, h⟩ := Option.bind_eq_some_iff.mp h
    cases h
    rfl
  · intro s k a b hb h
    obtain ⟨⟨call, map, r⟩, hfound, h⟩ := Option.bind_eq_some_iff.mp h
    obtain ⟨chain, hchain, h⟩ := Option.bind_eq_some_iff.mp h
    obtain ⟨r', hreached, h⟩ := Option.bind_eq_some_iff.mp h
    refine Option.bind_eq_some_iff.mpr ⟨_, callOn?_rebind hb hfound, ?_⟩
    refine Option.bind_eq_some_iff.mpr ⟨chain, hchain, ?_⟩
    exact Option.bind_eq_some_iff.mpr ⟨r', reached?_rebind hb hreached, h⟩

end Pattern

namespace Technique
open Pattern

theorem pattern?_steady {t : Technique} {pattern : Pattern} (h : t.pattern? = some pattern) :
    pattern.Steady t.target t.kind := by
  rcases t with ⟨target, kind⟩
  cases kind with
  | ignore => cases h; exact ignore_steady
  | parseHeader => cases h; exact parseHeader_steady
  | branch => cases h; exact branch_steady
  | route => cases h; exact route_steady
  | allocate => cases h; exact allocate_steady
  | tableLookup => cases target <;> cases h; exact tableLookup_steady
  | tableLearn => cases target <;> cases h; exact tableLearn_steady
  | registerRead => cases target <;> cases h; exact registerRead_steady
  | registerWrite => cases target <;> cases h; exact registerWrite_steady
  | sketchUpdate =>
    cases target <;> cases h
    · exact switchSketchUpdate_steady
    all_goals exact callOn_steady rfl (by grind [Option.bind_eq_some_iff, Action.kind])
  | sketchQuery =>
    cases target <;> cases h
    · exact switchSketchQuery_steady
    all_goals exact callOn_steady rfl (by grind [Option.bind_eq_some_iff, Action.kind])
  | sendToController => cases target <;> cases h; exact sendToController_steady
  | recirculate => cases h
  | expireItems => cases target <;> cases h <;> exact expireItems_steady rfl
  | mapGet | mapPut | mapErase | vectorRead | vectorWrite | dchainAllocateIndex
  | dchainRejuvenate | dchainFree =>
    cases target <;> cases h <;>
      exact callOn_steady rfl (by grind [Option.bind_eq_some_iff, Action.kind])

/-- What a technique proposes for a node, it proposes again once the bindings hold what is
committed. -/
theorem proposals_steady {t : Technique} {g : Graph} {b : Bindings} {node : NodeId}
    {ps : List Proposal} {p : Proposal} (h : t.proposals g b node = .ok ps) (hp : p ∈ ps) :
    p.Asks ⟨g, b, t.target, node⟩ t.kind ∧ ∀ b', b.Within b' →
      (∀ c ∈ p.commits, b'.holds c.1 c.2 = true) → t.proposals g b' node = .ok [p] := by
  unfold proposals at h ⊢
  cases hpattern : t.pattern? with
  | none =>
    rw [hpattern] at h
    cases h
    simp at hp
  | some pattern =>
    simp only [hpattern] at h ⊢
    obtain ⟨found, hfound, h⟩ := bind_eq_ok.mp h
    obtain ⟨hasks, hagain⟩ := pattern?_steady hpattern rfl h hp
    refine ⟨hasks, ?_⟩
    intro b' hb hcommits
    exact bind_eq_ok.mpr ⟨found, hfound, hagain b' hb hcommits⟩

theorem placements_off_switch {t : Technique} {g : Graph} {b : Bindings} {node : NodeId}
    {ps : List Proposal} {p : Proposal} (ht : t.target ≠ .switch)
    (h : t.proposals g b node = .ok ps) (hp : p ∈ ps) : p.placements = [] := by
  cases (proposals_steady h hp).1 with
  | silent _ places | nothing _ _ _ places => exact places
  | object onSwitch | sketch onSwitch => exact absurd onSwitch ht

end Technique

end PacketPlan
