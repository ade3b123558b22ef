import PacketPlan.Proofs.Proposal.Steady

/-! # What a proposal means

The bindings that a proposal adds and the demands that it makes can be read off its module and the
graph. Whatever object the module works on is bound to a representation of the right data structure
that the target can reach, and only the call that allocates an object binds it.
-/
namespace PacketPlan

def Action.commits : Action → Delta
  | allocate object _ representation _ => [(object, representation)]
  | _ => []

/-- An object that an action works on: as which data structure, and in which representation if the
action says so. -/
structure Access where
  object : Addr
  container : Container
  representation : Option Representation := none

def Action.accesses : Action → List Access
  | tableLookup table .. | tableLearn table .. => [⟨table, .map, none⟩]
  | registerRead register .. | registerWrite register .. => [⟨register, .vector, none⟩]
  | sketchUpdate sketch _ r | sketchQuery sketch _ _ r => [⟨sketch, .sketch, some r⟩]
  | mapGet map _ _ _ r | mapPut map _ _ r | mapErase map _ r => [⟨map, .map, some r⟩]
  | vectorRead vector _ _ r | vectorWrite vector _ _ r => [⟨vector, .vector, some r⟩]
  | dchainAllocateIndex chain .. | dchainRejuvenate chain _ | dchainFree chain _ =>
    [⟨chain, .dchain, none⟩]
  | expireItems map chain => [⟨map, .map, none⟩, ⟨chain, .dchain, none⟩]
  | parseHeader .. | branch _ | route _ | sendToController | allocate .. => []

/-- The width of an expression; one without a width counts for nothing. -/
def Expr.bits (e : Expr) : Nat := e.width?.getD 0

/-- The call that allocates an object; an object that is not allocated has nothing stated of it. -/
def Graph.allocationOf (g : Graph) (a : Addr) : Call := (g.allocation? a).getD { function := "" }

/-- What an action asks the pipeline to hold, by what the graph states of its objects. -/
def Action.demands (g : Graph) : Action → List (SwitchObject × Demand)
  | tableLookup table keys .. =>
    [(⟨table, .table⟩, .table (keys.map Expr.bits)
      ((g.allocationOf table).constantOr Argument.valueWidth 32)
      ((g.allocationOf table).constantOr Argument.capacity 0) false)]
  | tableLearn table key value => [(⟨table, .digest⟩, .digest (key.bits + value.bits))]
  | registerRead register .. | registerWrite register .. =>
    [(⟨register, .register⟩, .register
      ((g.allocationOf register).constantOr Argument.elementWidth 32)
      ((g.allocationOf register).constantOr Argument.capacity 0))]
  | sketchUpdate sketch key _ | sketchQuery sketch key _ _ =>
    [(⟨sketch, .hash⟩, .hash key.bits),
      (⟨sketch, .register⟩, .register Pattern.sketchCellBits (Word.mulSaturating
        ((g.allocationOf sketch).constantOr Argument.height 1)
        ((g.allocationOf sketch).constantOr Argument.width 0)))]
  | _ => []

def Module.demands (g : Graph) (m : Module) : List (SwitchObject × Demand) :=
  if m.target = .switch then m.action.demands g else []

theorem Module.map_fst_demands (g : Graph) (m : Module) :
    (m.demands g).map Prod.fst = m.objects := by
  unfold Module.demands Module.objects
  split
  · cases m.action <;> rfl
  · rfl

theorem Module.isDigest_of_mem_demands {g : Graph} {m : Module} {e : SwitchObject × Demand}
    (h : e ∈ m.demands g) : e.2.isDigest = decide (e.1.role = .digest) := by
  unfold Module.demands at h
  split at h
  · cases ha : m.action <;> simp [ha, Action.demands] at h
    case tableLookup | tableLearn | registerRead | registerWrite => rw [h]; rfl
    case sketchUpdate | sketchQuery => rcases h with rfl | rfl <;> rfl
  · cases h

theorem Action.commits_eq_nil {a : Action} (h : a.kind ≠ .allocate) : a.commits = [] := by
  cases a <;> first | rfl | exact absurd rfl h

/-! ## Widths and constants -/

theorem Expr.width_eq_ok {e : Expr} {w : Nat} (h : e.width = .ok w) : e.bits = w := by
  unfold Expr.width at h
  unfold Expr.bits
  cases he : e.width? with
  | none =>
    rw [he] at h
    cases h
  | some v =>
    rw [he] at h
    cases h
    rfl

theorem Expr.width_concat_pair {e e' : Expr} {w : Nat} (h : (Expr.concat [e, e']).width = .ok w) :
    w = e.bits + e'.bits := by
  unfold Expr.width at h
  simp only [Expr.width?, Expr.widthFrom?] at h
  cases he : e.width? with
  | none => simp [he] at h
  | some v =>
    simp only [he, Nat.zero_add] at h
    split at h
    · cases he' : e'.width? with
      | none => simp [he'] at h
      | some v' =>
        simp only [he'] at h
        split at h
        · cases h
          simp [Expr.bits, he, he']
        · cases h
    · cases h

theorem Pattern.widths_eq_ok {es : List Expr} {ws : List Nat} (h : Pattern.widths es = .ok ws) :
    es.map Expr.bits = ws := by
  induction es generalizing ws with
  | nil =>
    cases h
    rfl
  | cons e es ih =>
    obtain ⟨w, hw, h⟩ := bind_eq_ok.mp h
    obtain ⟨others, hothers, h⟩ := bind_eq_ok.mp h
    cases h
    rw [List.map_cons, Expr.width_eq_ok hw, ih hothers]

theorem Pattern.fieldWidth?_eq_some {call : Call} {name : String} {w : Nat}
    (h : Pattern.fieldWidth? call name = some w) : call.constantOr name 32 = w := by
  unfold Pattern.fieldWidth? at h
  simp only at h
  split at h
  · exact Option.some.inj h
  · cases h

/-! ## Objects within reach -/

namespace Setting
variable {s : Setting}

/-- The object is bound to a representation of the data structure that the target may choose, the
one that is named if one is. -/
def Grants (s : Setting) (x : Access) : Prop :=
  ∃ r, s.bindings.get? x.object = some r ∧ r ∈ x.container.candidates s.target ∧
    ∀ own, x.representation = some own → own = r

structure MayAllocate (s : Setting) (k : NodeKind) (object : Addr) (container : Container)
    (r : Representation) : Prop where
  call : ∃ call, k.call? = some call ∧ call.allocated? = some container ∧
    call.object? = some object
  candidate : r ∈ container.candidates s.target

theorem held?_allocation {c : Call} {r : Representation} {a : Addr} {allocation : Call}
    (h : s.held? c r = some (a, allocation)) : s.graph.allocationOf a = allocation := by
  obtain ⟨b, _, h⟩ := Option.bind_eq_some_iff.mp h
  split at h
  · obtain ⟨found, hfound, h⟩ := Option.bind_eq_some_iff.mp h
    cases h
    rw [Graph.allocationOf, hfound]
    rfl
  · cases h

theorem grants_of_held {call allocation : Call} {a : Addr} {r : Representation} {c : Container}
    {own : Option Representation} (h : s.held? call r = some (a, allocation))
    (hr : r ∈ c.candidates s.target) (hown : ∀ r', own = some r' → r' = r) :
    s.Grants ⟨a, c, own⟩ :=
  ⟨r, Bindings.holds_iff.mp (held?_eq_some h), hr, hown⟩

theorem reached?_eq_some {c : Container} {a : Addr} {r : Representation}
    (h : s.reached? c a = some r) :
    s.bindings.get? a = some r ∧ r ∈ c.candidates s.target :=
  ⟨Bindings.holds_iff.mp (List.find?_some (p := fun r => s.bindings.holds a r) h),
    List.mem_of_find?_eq_some h⟩

theorem callOn?_eq_some {k : NodeKind} {routine : Routine} {c : Container} {call : Call} {a : Addr}
    {r : Representation} (h : s.callOn? k routine c = some (call, a, r)) :
    s.bindings.get? a = some r ∧ r ∈ c.candidates s.target := by
  obtain ⟨found, _, h⟩ := Option.bind_eq_some_iff.mp h
  obtain ⟨object, _, h⟩ := Option.bind_eq_some_iff.mp h
  obtain ⟨representation, hreached, h⟩ := Option.bind_eq_some_iff.mp h
  cases h
  exact reached?_eq_some hreached

end Setting

/-- What a proposal says is what its module means. -/
inductive Proposal.Means (s : Setting) (k : NodeKind) (p : Proposal) : Prop
  | silent (unseen : p.module? = none) (commits : p.commits = []) (places : p.placements = [])
  | acts {a : Action} (acts : p.module? = some ⟨s.target, s.node, a⟩)
      (commits : p.commits = a.commits)
      (places : p.placements = Module.demands s.graph ⟨s.target, s.node, a⟩)
      (reaches : ∀ x ∈ a.accesses, s.Grants x)
      (allocates : ∀ {object container r capacity}, a = .allocate object container r capacity →
        s.MayAllocate k object container r)

theorem Action.commits_cases (a : Action) :
    a.commits = [] ∨ ∃ object container r capacity, a = .allocate object container r capacity := by
  cases a with
  | allocate object container r capacity => exact .inr ⟨object, container, r, capacity, rfl⟩
  | _ => exact .inl rfl

theorem Proposal.Means.length_commits {s : Setting} {k : NodeKind} {p : Proposal}
    (h : p.Means s k) : p.commits.length ≤ 1 := by
  cases h with
  | silent _ commits =>
    rw [commits]
    exact Nat.zero_le 1
  | @acts a _ commits =>
    rw [commits]
    rcases a.commits_cases with hnil | ⟨object, container, r, capacity, rfl⟩
    · rw [hnil]
      exact Nat.zero_le 1
    · exact Nat.le_refl 1

namespace Pattern
open Setting

def Meant (pattern : Pattern) (t : Target) : Prop :=
  ∀ {s : Setting} {k : NodeKind} {ps : List Proposal} {p : Proposal}, s.target = t →
    pattern s k = .ok ps → p ∈ ps → p.Means s k

variable {t : Target}

theorem means_plain {s : Setting} {k : NodeKind} {p : Proposal} {a : Action}
    (acts : p.module? = some ⟨s.target, s.node, a⟩) (commits : p.commits = [])
    (places : p.placements = []) (haccesses : a.accesses = []) (hkind : a.kind ≠ .allocate)
    (hdemands : a.demands s.graph = []) : p.Means s k := by
  refine .acts acts ?_ ?_ ?_ ?_
  · rw [commits, Action.commits_eq_nil hkind]
  · rw [places, Module.demands, hdemands, ite_self]
  · rw [haccesses]
    exact fun _ hx => absurd hx List.not_mem_nil
  · rintro object container r capacity rfl
    exact absurd rfl hkind

theorem means_held {s : Setting} {k : NodeKind} {p : Proposal} {a : Action} {x : Access}
    (ht : s.target = .switch) (acts : p.module? = some ⟨s.target, s.node, a⟩)
    (commits : p.commits = []) (places : p.placements = a.demands s.graph)
    (haccesses : a.accesses = [x]) (hkind : a.kind ≠ .allocate) (grants : s.Grants x) :
    p.Means s k := by
  refine .acts acts ?_ ?_ ?_ ?_
  · rw [commits, Action.commits_eq_nil hkind]
  · rw [places, Module.demands, if_pos ht]
  · rw [haccesses]
    intro y hy
    rw [List.mem_singleton.mp hy]
    exact grants
  · rintro object container r capacity rfl
    exact absurd rfl hkind

/-! ## On every target -/

theorem ignore_meant : Meant ignore t := by
  intro s k ps p _ h hp
  obtain ⟨call, _, h⟩ := given_eq_ok h hp
  obtain ⟨next, _, h⟩ := bind_eq_ok.mp h
  cases h
  cases List.mem_singleton.mp hp
  exact .silent rfl rfl rfl

theorem parseHeader_meant : Meant parseHeader t := by
  intro s k ps p _ h hp
  obtain ⟨call, _, h⟩ := given_eq_ok h hp
  obtain ⟨next, _, h⟩ := bind_eq_ok.mp h
  cases h
  cases List.mem_singleton.mp hp
  exact means_plain rfl rfl rfl rfl (by simp [Action.kind]) rfl

theorem branch_meant : Meant branch t := by
  intro s k ps p _ h hp
  cases k with
  | branch condition onTrue onFalse =>
    cases h
    cases List.mem_singleton.mp hp
    exact means_plain rfl rfl rfl rfl (by simp [Action.kind]) rfl
  | call | terminal =>
    cases h
    simp at hp

theorem route_meant : Meant route t := by
  intro s k ps p _ h hp
  cases k with
  | terminal r =>
    cases h
    cases List.mem_singleton.mp hp
    exact means_plain rfl rfl rfl rfl (by simp [Action.kind]) rfl
  | call | branch =>
    cases h
    simp at hp

theorem sendToController_meant : Meant sendToController t := by
  intro s k ps p _ h hp
  unfold sendToController at h
  split at h
  · cases h
    simp at hp
  · cases h
    cases List.mem_singleton.mp hp
    exact means_plain rfl rfl rfl rfl (by simp [Action.kind]) rfl

theorem allocate_meant : Meant allocate t := by
  intro s k ps p _ h hp
  obtain ⟨call, hcall, h⟩ := given_eq_ok h hp
  obtain ⟨container, hcontainer, h⟩ := given_eq_ok h hp
  obtain ⟨object, hobject, h⟩ := given_eq_ok h hp
  obtain ⟨next, _, h⟩ := bind_eq_ok.mp h
  cases h
  obtain ⟨r, hr, rfl⟩ := List.mem_map.mp hp
  refine .acts rfl rfl ?_ (fun _ hx => absurd hx List.not_mem_nil) ?_
  · rw [Module.demands]
    exact (ite_self _).symm
  · rintro _ _ _ _ ⟨⟩
    exact ⟨⟨call, hcall, hcontainer, hobject⟩, (List.mem_filter.mp hr).1⟩

/-! ## On the switch -/

theorem tableLookup_meant : Meant tableLookup .switch := by
  intro s k ps p ht h hp
  obtain ⟨call, _, h⟩ := given_eq_ok h hp
  obtain ⟨⟨table, allocation⟩, hheld, h⟩ := given_eq_ok h hp
  obtain ⟨key, _, h⟩ := given_eq_ok h hp
  obtain ⟨keyWidths, hwidths, h⟩ := bind_eq_ok.mp h
  obtain ⟨valueWidth, hvalue, h⟩ := given_eq_ok h hp
  obtain ⟨next, _, h⟩ := bind_eq_ok.mp h
  cases h
  cases List.mem_singleton.mp hp
  have hgrants : s.Grants ⟨table, .map, none⟩ := by
    refine grants_of_held hheld ?_ nofun
    rw [ht]
    exact List.mem_singleton.mpr rfl
  refine means_held ht rfl rfl ?_ rfl (by simp [Action.kind]) hgrants
  rw [Action.demands, held?_allocation hheld, widths_eq_ok hwidths, fieldWidth?_eq_some hvalue]

theorem tableLearn_meant : Meant tableLearn .switch := by
  intro s k ps p ht h hp
  obtain ⟨call, _, h⟩ := given_eq_ok h hp
  obtain ⟨⟨table, allocation⟩, hheld, h⟩ := given_eq_ok h hp
  obtain ⟨key, _, h⟩ := given_eq_ok h hp
  obtain ⟨value, _, h⟩ := given_eq_ok h hp
  obtain ⟨bits, hbits, h⟩ := bind_eq_ok.mp h
  obtain ⟨next, _, h⟩ := bind_eq_ok.mp h
  cases h
  cases List.mem_singleton.mp hp
  have hgrants : s.Grants ⟨table, .map, none⟩ := by
    refine grants_of_held hheld ?_ nofun
    rw [ht]
    exact List.mem_singleton.mpr rfl
  refine means_held ht rfl rfl ?_ rfl (by simp [Action.kind]) hgrants
  rw [Action.demands, Expr.width_concat_pair hbits]

theorem register_means {s : Setting} {k : NodeKind} {call allocation : Call} {object : Addr}
    {action : Action} {ps : List Proposal} {p : Proposal} (ht : s.target = .switch)
    (haccesses : action.accesses = [⟨object, .vector, none⟩]) (hkind : action.kind ≠ .allocate)
    (hdemands : action.demands s.graph = [(⟨object, .register⟩, .register
      ((s.graph.allocationOf object).constantOr Argument.elementWidth 32)
      ((s.graph.allocationOf object).constantOr Argument.capacity 0))])
    (hheld : s.held? call .registerArray = some (object, allocation))
    (h : register s object allocation action = .ok ps) (hp : p ∈ ps) : p.Means s k := by
  obtain ⟨next, _, h⟩ := bind_eq_ok.mp h
  obtain ⟨width, hwidth, h⟩ := given_eq_ok h hp
  cases h
  cases List.mem_singleton.mp hp
  have hgrants : s.Grants ⟨object, .vector, none⟩ := by
    refine grants_of_held hheld ?_ nofun
    rw [ht]
    exact List.mem_singleton.mpr rfl
  refine means_held ht rfl rfl ?_ haccesses hkind hgrants
  rw [hdemands, held?_allocation hheld, fieldWidth?_eq_some hwidth]

theorem registerRead_meant : Meant registerRead .switch := by
  intro s k ps p ht h hp
  obtain ⟨call, _, h⟩ := given_eq_ok h hp
  obtain ⟨⟨object, allocation⟩, hheld, h⟩ := given_eq_ok h hp
  obtain ⟨index, _, h⟩ := given_eq_ok h hp
  exact register_means ht rfl (by simp [Action.kind]) rfl hheld h hp

theorem registerWrite_meant : Meant registerWrite .switch := by
  intro s k ps p ht h hp
  obtain ⟨call, _, h⟩ := given_eq_ok h hp
  obtain ⟨⟨object, allocation⟩, hheld, h⟩ := given_eq_ok h hp
  obtain ⟨index, _, h⟩ := given_eq_ok h hp
  obtain ⟨value, _, h⟩ := given_eq_ok h hp
  exact register_means ht rfl (by simp [Action.kind]) rfl hheld h hp

theorem sketch_means {s : Setting} {k : NodeKind} {call allocation : Call} {object : Addr}
    {key : Expr} {action : Action} {ps : List Proposal} {p : Proposal} (ht : s.target = .switch)
    (haccesses : action.accesses = [⟨object, .sketch, some .countMinSketch⟩])
    (hkind : action.kind ≠ .allocate)
    (hdemands : action.demands s.graph = [(⟨object, .hash⟩, .hash key.bits),
      (⟨object, .register⟩, .register sketchCellBits (Word.mulSaturating
        ((s.graph.allocationOf object).constantOr Argument.height 1)
        ((s.graph.allocationOf object).constantOr Argument.width 0)))])
    (hheld : s.held? call .countMinSketch = some (object, allocation))
    (h : sketch s object allocation key action = .ok ps) (hp : p ∈ ps) : p.Means s k := by
  obtain ⟨next, _, h⟩ := bind_eq_ok.mp h
  obtain ⟨inputBits, hbits, h⟩ := bind_eq_ok.mp h
  cases h
  cases List.mem_singleton.mp hp
  have hgrants : s.Grants ⟨object, .sketch, some .countMinSketch⟩ := by
    refine grants_of_held hheld ?_ fun r hr => (Option.some.inj hr).symm
    rw [ht]
    exact List.mem_singleton.mpr rfl
  refine means_held ht rfl rfl ?_ haccesses hkind hgrants
  rw [hdemands, held?_allocation hheld, Expr.width_eq_ok hbits]

theorem onSketch_meant {routine : Routine} {action : Call → Addr → Expr → Action}
    (haccesses : ∀ call object key,
      (action call object key).accesses = [⟨object, .sketch, some .countMinSketch⟩])
    (hkind : ∀ call object key, (action call object key).kind ≠ .allocate)
    (hdemands : ∀ g call object key, (action call object key).demands g =
      [(⟨object, .hash⟩, .hash key.bits), (⟨object, .register⟩, .register sketchCellBits
        (Word.mulSaturating ((g.allocationOf object).constantOr Argument.height 1)
          ((g.allocationOf object).constantOr Argument.width 0)))]) :
    Meant (onSketch routine action) .switch := by
  intro s k ps p ht h hp
  obtain ⟨call, _, h⟩ := given_eq_ok h hp
  obtain ⟨⟨object, allocation⟩, hheld, h⟩ := given_eq_ok h hp
  obtain ⟨key, _, h⟩ := given_eq_ok h hp
  exact sketch_means ht (haccesses call object key) (hkind call object key)
    (hdemands s.graph call object key) hheld h hp

theorem switchSketchUpdate_meant : Meant switchSketchUpdate .switch := by
  rw [switchSketchUpdate_eq]
  exact onSketch_meant (fun _ _ _ => rfl) (by simp [Action.kind]) fun _ _ _ _ => rfl

theorem switchSketchQuery_meant : Meant switchSketchQuery .switch := by
  rw [switchSketchQuery_eq]
  exact onSketch_meant (fun _ _ _ => rfl) (by simp [Action.kind]) fun _ _ _ _ => rfl

/-! ## In software -/

theorem calling_meant {action? : Setting → NodeKind → Option Action} (soft : t.isSoftware = true)
    (hkind : ∀ {s k a}, action? s k = some a → a.kind ≠ .allocate)
    (hgrants : ∀ {s : Setting} {k a}, action? s k = some a → ∀ x ∈ a.accesses, s.Grants x) :
    Meant (calling action?) t := by
  intro s k ps p ht h hp
  obtain ⟨action, haction, h⟩ := given_eq_ok h hp
  obtain ⟨next, _, h⟩ := bind_eq_ok.mp h
  cases h
  cases List.mem_singleton.mp hp
  refine .acts rfl (Action.commits_eq_nil (hkind haction)).symm ?_ (hgrants haction) ?_
  · have hne : s.target ≠ .switch := by
      rw [ht]
      rintro rfl
      cases soft
    exact (if_neg hne).symm
  · rintro object container r capacity rfl
    exact absurd rfl (hkind haction)

theorem callOn_meant {routine : Routine} {c : Container}
    {f : Call × Addr × Representation → Option Action} (soft : t.isSoftware = true)
    (hkind : ∀ {found a}, f found = some a → a.kind ≠ .allocate)
    (haccesses : ∀ {call object r a}, f (call, object, r) = some a → ∀ x ∈ a.accesses,
      x.object = object ∧ x.container = c ∧ ∀ own, x.representation = some own → own = r) :
    Meant (calling fun s k => (s.callOn? k routine c).bind f) t := by
  apply calling_meant soft
  · intro s k a h
    obtain ⟨found, _, h⟩ := Option.bind_eq_some_iff.mp h
    exact hkind h
  · intro s k a h x hx
    obtain ⟨⟨call, object, r⟩, hfound, h⟩ := Option.bind_eq_some_iff.mp h
    obtain ⟨hobject, hcontainer, hown⟩ := haccesses h x hx
    obtain ⟨hbound, hcandidate⟩ := callOn?_eq_some hfound
    exact ⟨r, hobject ▸ hbound, hcontainer ▸ hcandidate, hown⟩

theorem expireItems_meant (soft : t.isSoftware = true) : Meant expireItems t := by
  apply calling_meant soft
  · intro s k a h
    obtain ⟨⟨call, map, r⟩, _, h⟩ := Option.bind_eq_some_iff.mp h
    obtain ⟨chain, _, h⟩ := Option.bind_eq_some_iff.mp h
    obtain ⟨r', _, h⟩ := Option.bind_eq_some_iff.mp h
    cases h
    simp [Action.kind]
  · intro s k a h x hx
    obtain ⟨⟨call, map, r⟩, hfound, h⟩ := Option.bind_eq_some_iff.mp h
    obtain ⟨chain, _, h⟩ := Option.bind_eq_some_iff.mp h
    obtain ⟨r', hreached, h⟩ := Option.bind_eq_some_iff.mp h
    cases h
    rcases List.mem_cons.mp hx with rfl | hx
    · obtain ⟨hbound, hcandidate⟩ := callOn?_eq_some hfound
      refine ⟨r, hbound, hcandidate, ?_⟩
      intro own hown
      cases hown
    · cases List.mem_singleton.mp hx
      obtain ⟨hbound, hcandidate⟩ := reached?_eq_some hreached
      refine ⟨r', hbound, hcandidate, ?_⟩
      intro own hown
      cases hown

end Pattern

namespace Technique
open Pattern

theorem pattern?_meant {t : Technique} {pattern : Pattern} (h : t.pattern? = some pattern) :
    pattern.Meant t.target := by
  rcases t with ⟨target, kind⟩
  cases kind with
  | ignore => cases h; exact ignore_meant
  | parseHeader => cases h; exact parseHeader_meant
  | branch => cases h; exact branch_meant
  | route => cases h; exact route_meant
  | allocate => cases h; exact allocate_meant
  | tableLookup => cases target <;> cases h; exact tableLookup_meant
  | tableLearn => cases target <;> cases h; exact tableLearn_meant
  | registerRead => cases target <;> cases h; exact registerRead_meant
  | registerWrite => cases target <;> cases h; exact registerWrite_meant
  | sketchUpdate =>
    cases target <;> cases h
    · exact switchSketchUpdate_meant
    all_goals
      exact callOn_meant rfl (by grind [Option.bind_eq_some_iff, Action.kind])
        (by grind [Option.bind_eq_some_iff, Action.accesses])
  | sketchQuery =>
    cases target <;> cases h
    · exact switchSketchQuery_meant
    all_goals
      exact callOn_meant rfl (by grind [Option.bind_eq_some_iff, Action.kind])
        (by grind [Option.bind_eq_some_iff, Action.accesses])
  | sendToController => cases target <;> cases h; exact sendToController_meant
  | recirculate => cases h
  | expireItems => cases target <;> cases h <;> exact expireItems_meant rfl
  | mapGet | mapPut | mapErase | vectorRead | vectorWrite | dchainAllocateIndex
  | dchainRejuvenate | dchainFree =>
    cases target <;> cases h <;>
      exact callOn_meant rfl (by grind [Option.bind_eq_some_iff, Action.kind])
        (by grind [Option.bind_eq_some_iff, Action.accesses])

theorem kind_mem_of_proposals {t : Technique} {g : Graph} {b : Bindings} {id : NodeId}
    {ps : List Proposal} {p : Proposal} (h : t.proposals g b id = .ok ps) (hp : p ∈ ps) :
    t.kind ∈ kinds t.target := by
  have hsome := t.pattern?_isSome
  unfold proposals at h
  cases hpattern : t.pattern? with
  | none =>
    rw [hpattern] at h
    cases h
    simp at hp
  | some pattern =>
    rw [hpattern] at hsome
    exact (of_decide_eq_true hsome.symm).1

/-- Whatever a technique proposes for a node of the graph means what it says. -/
theorem proposals_meant {t : Technique} {g : Graph} {b : Bindings} {id : NodeId}
    {ps : List Proposal} {p : Proposal} (h : t.proposals g b id = .ok ps) (hp : p ∈ ps) :
    ∃ node, g.node? id = some node ∧ p.Means ⟨g, b, t.target, id⟩ node.kind := by
  unfold proposals at h
  cases hpattern : t.pattern? with
  | none =>
    rw [hpattern] at h
    cases h
    simp at hp
  | some pattern =>
    simp only [hpattern] at h
    obtain ⟨node, hnode, h⟩ := bind_eq_ok.mp h
    have hn : g.node? id = some node := by
      unfold Graph.node at hnode
      cases hn : g.node? id with
      | none =>
        rw [hn] at hnode
        cases hnode
      | some found =>
        rw [hn] at hnode
        cases hnode
        rfl
    exact ⟨node, hn, pattern?_meant hpattern rfl h hp⟩

end Technique

end PacketPlan
