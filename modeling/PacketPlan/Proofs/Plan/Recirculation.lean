import PacketPlan.Proofs.Pipeline.Probe
import PacketPlan.Proofs.Plan.Coverage
import PacketPlan.Proofs.Plan.Expansion
import PacketPlan.Proofs.Proposal.Steady

/-! # When another pass is offered

Another pass is offered if a probe foresees that some proposal for the node is refused in a way that
a new pass could fix. Where placement itself refuses, the probe agrees: the objects that a leaf has
met are placed, and so is the hash unit of every sketch that has its registers in the pipeline. The
one exception is a sketch of which nothing is placed yet.
-/
namespace PacketPlan

/-! ## What is placed -/

namespace Pipeline

theorem isPlaced_commit {p : Pipeline} {o : SwitchObject} {d : Demand} {deps : ObjectSet}
    {requested : Option Nat} (hp : p.Indexed) {located : Located}
    (h : p.locate o d deps requested = .ok located) {x : SwitchObject} :
    (p.commit o d deps located).isPlaced x = true ↔ x = o ∨ p.isPlaced x = true := by
  rw [isPlaced_iff, isPlaced_iff, stageOf?_commit hp h]
  by_cases hx : x = o <;> simp [hx]

end Pipeline

theorem Proposal.isPlaced_of_placeFrom {p : Proposal} {passDeps : ObjectSet}
    {placed : List SwitchObject} {r after : Pipeline} {requests : List (SwitchObject × Demand)}
    {stages : List Nat} (hr : r.Indexed)
    (h : p.placeFrom passDeps placed r requests = .ok (stages, after)) {x : SwitchObject} :
    after.isPlaced x = true ↔ r.isPlaced x = true ∨ x ∈ requests.map Prod.fst := by
  induction requests generalizing placed r stages with
  | nil =>
    cases h
    simp
  | cons request requests ih =>
    obtain ⟨⟨stage, next⟩, hplace, h⟩ := bind_eq_ok.mp h
    obtain ⟨⟨others, last⟩, hothers, h⟩ := bind_eq_ok.mp h
    cases h
    obtain ⟨located, hl, _, rfl⟩ := Pipeline.placeWithin_eq_ok hplace
    rw [ih (Pipeline.commit_indexed hr) hothers, Pipeline.isPlaced_commit hr hl, List.map_cons,
      List.mem_cons]
    tauto

namespace Plan
variable {problem : Problem} {plan after : Plan}

/-- What the leaves have met is placed, they stand on enabled targets, and registers are those of a
register array or have the hash unit of a sketch beside them. -/
structure Stocked (problem : Problem) (plan : Plan) : Prop where
  met : ∀ l ∈ plan.leaves, ∀ o ∈ l.passDeps, plan.resources.isPlaced o = true
  enabled : ∀ l ∈ plan.leaves, problem.platform.enabled.contains l.target = true
  paired : ∀ addr, plan.resources.isPlaced ⟨addr, .register⟩ = true →
    plan.bindings.holds addr .registerArray = true ∨ plan.resources.isPlaced ⟨addr, .hash⟩ = true

theorem Stocked.attached (h : plan.Stocked problem) {id : PlanId} {bindings : Bindings}
    {resources : Pipeline} {leaf : Leaf} {rest children : List Leaf} {m : Module}
    {minted : Option Symbol} (active : plan.leaves = leaf :: rest)
    (hb : plan.bindings.Within bindings)
    (hplaced : ∀ {x}, resources.isPlaced x = true ↔
      plan.resources.isPlaced x = true ∨ x ∈ m.objects)
    (hpaired : ∀ addr, ⟨addr, .register⟩ ∈ m.objects →
      bindings.holds addr .registerArray = true ∨ ⟨addr, .hash⟩ ∈ m.objects)
    (hmet : ∀ l ∈ children, ∀ o ∈ l.passDeps, resources.isPlaced o = true)
    (henabled : ∀ l ∈ children, problem.platform.enabled.contains l.target = true) :
    (plan.attached id bindings resources leaf rest m children minted).Stocked problem where
  met := by
    rw [attached_leaves, attached_resources]
    intro x hx o ho
    rcases List.mem_append.mp hx with hx | hx
    · obtain ⟨l, hl, rfl⟩ := List.mem_map.mp hx
      exact hmet l hl o ho
    · exact hplaced.mpr (.inl (h.met x (active ▸ List.mem_cons_of_mem leaf hx) o ho))
  enabled := by
    rw [attached_leaves]
    intro x hx
    rcases List.mem_append.mp hx with hx | hx
    · obtain ⟨l, hl, rfl⟩ := List.mem_map.mp hx
      exact henabled l hl
    · exact h.enabled x (active ▸ List.mem_cons_of_mem leaf hx)
  paired := by
    rw [attached_resources, attached_bindings]
    intro addr hregister
    rcases hplaced.mp hregister with hold | hnew
    · rcases h.paired addr hold with hbound | hhash
      · exact .inl (hb.holds hbound)
      · exact .inr (hplaced.mpr (.inl hhash))
    · rcases hpaired addr hnew with hbound | hhash
      · exact .inl hbound
      · exact .inr (hplaced.mpr (.inr hhash))

end Plan

theorem Proposal.Asks.paired {s : Setting} {kind : Kind} {p : Proposal} (h : p.Asks s kind)
    {addr : Addr} (hmem : ⟨addr, .register⟩ ∈ p.objects) :
    s.bindings.holds addr .registerArray = true ∨ ⟨addr, .hash⟩ ∈ p.objects := by
  unfold Proposal.objects at hmem ⊢
  cases h with
  | silent _ places | nothing _ _ _ places => simp [places] at hmem
  | object _ _ _ _ places _ bound =>
    rw [places, List.map_singleton, List.mem_singleton] at hmem
    subst hmem
    exact .inl bound
  | sketch _ _ _ _ places =>
    rw [places] at hmem ⊢
    simp only [List.map_cons, List.map_nil, List.mem_cons, List.not_mem_nil, or_false] at hmem ⊢
    rcases hmem with hmem | hmem
    · cases hmem
    · cases hmem
      exact .inr (.inl rfl)

namespace Plan
variable {problem : Problem} {plan after : Plan}

theorem Stocked.step (h : plan.Stocked problem) (hr : plan.resources.Indexed)
    (step : plan.Step problem after) : after.Stocked problem := by
  cases step with
  | @pass leaf rest t p node n id bindings offer present silent goes follows places bound =>
    have hleaf : leaf ∈ plan.leaves := offer.active ▸ List.mem_cons_self
    have hrest : ∀ {x}, x ∈ rest → x ∈ plan.leaves :=
      fun hx => offer.active ▸ List.mem_cons_of_mem leaf hx
    refine ⟨?_, ?_, ?_⟩
    · intro x hx o ho
      rcases List.mem_append.mp hx with hx | hx
      · obtain ⟨_, _, _, hnotes⟩ := leaf_of_follows follows hx
        rw [hnotes, Proposal.objects, places] at ho
        exact h.met leaf hleaf o (by simpa using ho)
      · exact h.met x (hrest hx) o ho
    · intro x hx
      rcases List.mem_append.mp hx with hx | hx
      · rw [(leaf_of_follows follows hx).2.1]
        exact h.enabled leaf hleaf
      · exact h.enabled x (hrest hx)
    · intro addr hregister
      exact (h.paired addr hregister).imp_left (Bindings.extend_within bound).1.holds
  | @act leaf rest t p node a id bindings stages resources offer present acts keeps follows _ bound
      placed =>
    have hleaf : leaf ∈ plan.leaves := offer.active ▸ List.mem_cons_self
    have hacts : p ≠ Technique.revisit leaf := by
      rintro rfl
      cases acts
    obtain ⟨ps, hps, hp⟩ := offer.proposed hacts
    have hasks := (Technique.proposals_steady hps hp).1
    obtain ⟨hobjects, _⟩ := hasks.placed acts
    have hwithin := (Bindings.extend_within bound).1
    have hplaced : ∀ {x}, resources.isPlaced x = true ↔
        plan.resources.isPlaced x = true ∨ x ∈ p.objects :=
      fun {x} => Proposal.isPlaced_of_placeFrom hr placed
    refine h.attached offer.active hwithin (hobjects ▸ hplaced) ?_ ?_ ?_
    · rw [← hobjects]
      intro addr hmem
      exact (hasks.paired hmem).imp_left hwithin.holds
    · intro l hl o ho
      obtain ⟨_, _, _, hnotes⟩ := leaf_of_follows follows hl
      exact hplaced.mpr (((hnotes o).mp ho).imp_left (h.met leaf hleaf o))
    · intro l hl
      rw [(leaf_of_follows follows hl).2.1]
      exact h.enabled leaf hleaf
  | @handOver leaf rest t p node id bindings symbol offer present onSwitch acts goes places bound =>
    refine h.attached offer.active (Bindings.extend_within bound).1 ?_ ?_ ?_ ?_
    · intro x
      exact (or_iff_left (by simp [Module.objects, Action.objects])).symm
    · intro addr hmem
      simp [Module.objects, Action.objects] at hmem
    · intro l hl o ho
      cases List.mem_singleton.mp hl
      exact absurd ho (OrdSet.not_mem_empty o)
    · intro l hl
      cases List.mem_singleton.mp hl
      have hadm := offer.admissible
      rw [Technique.admissible, goes, Bool.and_eq_true] at hadm
      exact hadm.2
  | @revisit leaf rest t id offer onSwitch =>
    have hrest : ∀ {x}, x ∈ rest → x ∈ plan.leaves :=
      fun hx => offer.active ▸ List.mem_cons_of_mem leaf hx
    refine ⟨?_, ?_, h.paired⟩
    · intro x hx o ho
      rcases List.mem_cons.mp hx with rfl | hx
      · exact absurd ho (OrdSet.not_mem_empty o)
      · exact h.met x (hrest hx) o ho
    · intro x hx
      rcases List.mem_cons.mp hx with rfl | hx
      · exact h.enabled leaf (offer.active ▸ List.mem_cons_self)
      · exact h.enabled x (hrest hx)

end Plan

theorem Platform.ofConfig_eq_ok {c : Config} {platform : Platform}
    (h : Platform.ofConfig c = .ok platform) :
    platform.enabled.contains platform.initial = true ∧ platform.baseline = .ofConfig c.switch ∧
      platform.maxRecirculations < Leaf.recirculationLimit := by
  simp only [Platform.ofConfig] at h
  split at h
  · rename_i hinitial
    cases h
    exact ⟨hinitial, rfl, c.switch.maxRecirculations.toNat_lt⟩
  · cases h

theorem Problem.maxRecirculations_lt {g : Graph} {c : Config} {problem : Problem}
    (posed : Problem.ofConfig g c = .ok problem) :
    problem.platform.maxRecirculations < Leaf.recirculationLimit := by
  obtain ⟨_, platform, hplatform, rfl⟩ := Problem.ofConfig_eq_ok.mp posed
  exact (Platform.ofConfig_eq_ok hplatform).2.2

theorem Derives.stocked {g : Graph} {c : Config} {problem : Problem} (wp : problem.WellPosed)
    (posed : Problem.ofConfig g c = .ok problem) {choices : List Choice} {plan : Plan}
    (h : Derives problem choices plan) : plan.Stocked problem := by
  obtain ⟨_, platform, hplatform, hproblem⟩ := Problem.ofConfig_eq_ok.mp posed
  obtain ⟨hinitial, hbaseline, _⟩ := Platform.ofConfig_eq_ok hplatform
  induction h with
  | root id =>
    refine ⟨?_, ?_, ?_⟩
    · intro l hl o ho
      cases List.mem_singleton.mp hl
      exact absurd ho (OrdSet.not_mem_empty o)
    · intro l hl
      cases List.mem_singleton.mp hl
      rw [hproblem]
      exact hinitial
    · intro addr hregister
      simp only [Plan.empty, hproblem, hbaseline] at hregister
      cases hregister
  | expand before known expanded chosen ih =>
    have hstep := Technique.step_of_expand known expanded (List.mem_of_getElem? chosen)
    exact ih.step (before.lawful wp).placed.indexed hstep

/-! ## Techniques of the pipeline -/

def Kind.routine? : Kind → Option Routine
  | tableLookup => some .mapGet
  | tableLearn => some .mapPut
  | registerRead => some .vectorBorrow
  | registerWrite => some .vectorReturn
  | sketchUpdate => some .sketchIncrement
  | sketchQuery => some .sketchQuery
  | _ => none

theorem Kind.exists_routine {k : Kind} (h : k.usesPipeline = true) : ∃ r, k.routine? = some r := by
  cases k <;> first | exact ⟨_, rfl⟩ | cases h

theorem Kind.routine?_injective {k k' : Kind} {r : Routine} (h : k.routine? = some r)
    (h' : k'.routine? = some r) : k = k' := by
  cases k <;> cases h <;> cases k' <;> first | rfl | cases h'

theorem NodeKind.callTo?_eq_none {k : NodeKind} {r r' : Routine} {c : Call} (hne : r' ≠ r)
    (h : k.callTo? r = some c) : k.callTo? r' = none := by
  obtain ⟨hcall, hr⟩ := Option.filter_eq_some_iff.mp h
  have hr := of_decide_eq_true hr
  rw [callTo?, hcall, Option.filter_some, if_neg]
  rw [decide_eq_true_iff, hr, Option.some.injEq]
  exact hne.symm

namespace Technique
variable {problem : Problem} {plan : Plan} {leaf : Leaf} {t u : Technique}

theorem pattern?_of_pipeline (onSwitch : t.target = .switch) {r : Routine}
    (h : t.kind.routine? = some r) :
    ∃ f : Setting → Call → Checked (List Proposal),
      t.pattern? = some fun s k => given (k.callTo? r) (f s) := by
  rcases t with ⟨target, kind⟩
  cases onSwitch
  cases kind <;> cases h <;> exact ⟨_, rfl⟩

theorem mem_users (enabled : problem.platform.enabled.contains .switch = true) :
    t ∈ (problem.catalog .switch).filter (fun t => t.kind.usesPipeline) ↔
      t.target = .switch ∧ t.kind.usesPipeline = true := by
  rw [List.mem_filter]
  refine ⟨fun h => ⟨Problem.target_of_mem_catalog h.1, h.2⟩, fun ⟨ht, hk⟩ => ⟨?_, hk⟩⟩
  rw [Problem.catalog, if_pos enabled]
  rcases t with ⟨target, kind⟩
  cases ht
  refine List.mem_map.mpr ⟨kind, ?_, rfl⟩
  cases kind <;> first | decide | cases hk

/-- A node that one kind of the pipeline implements is none for the others. -/
theorem proposals_of_other (ht : t.target = .switch) (hu : u.target = .switch)
    (htk : t.kind.usesPipeline = true) (huk : u.kind.usesPipeline = true) (hne : u ≠ t) {g : Graph}
    {b : Bindings} {node : NodeId} {ps : List Proposal} {p : Proposal}
    (h : t.proposals g b node = .ok ps) (hp : p ∈ ps) : u.proposals g b node = .ok [] := by
  obtain ⟨r, hr⟩ := Kind.exists_routine htk
  obtain ⟨r', hr'⟩ := Kind.exists_routine huk
  have hroutine : r' ≠ r := by
    rintro rfl
    have hkind := Kind.routine?_injective hr' hr
    rcases t with ⟨target, kind⟩
    rcases u with ⟨target', kind'⟩
    cases ht
    cases hu
    cases hkind
    exact hne rfl
  obtain ⟨f, hf⟩ := pattern?_of_pipeline ht hr
  obtain ⟨f', hf'⟩ := pattern?_of_pipeline hu hr'
  simp only [proposals, hf] at h
  simp only [proposals, hf']
  obtain ⟨found, hfound, h⟩ := bind_eq_ok.mp h
  obtain ⟨call, hcall, _⟩ := given_eq_ok h hp
  refine bind_eq_ok.mpr ⟨found, hfound, ?_⟩
  rw [NodeKind.callTo?_eq_none hroutine hcall]
  rfl

theorem anyBlocked_eq (ht : t.target = .switch) (htk : t.kind.usesPipeline = true)
    {ps : List Proposal} {p : Proposal}
    (h : t.proposals problem.graph plan.bindings leaf.next = .ok ps) (hp : p ∈ ps)
    {ts : List Technique} (hts : ∀ u ∈ ts, u.target = .switch ∧ u.kind.usesPipeline = true) :
    anyBlocked problem plan leaf ts = .ok (decide (t ∈ ts) && ps.any (isBlocked plan leaf)) := by
  induction ts with
  | nil => rfl
  | cons u ts ih =>
    have ih := ih fun v hv => hts v (List.mem_cons_of_mem u hv)
    obtain ⟨hu, huk⟩ := hts u List.mem_cons_self
    by_cases hut : u = t
    · subst hut
      refine bind_eq_ok.mpr ⟨ps, h, ?_⟩
      by_cases hany : ps.any (isBlocked plan leaf) = true
      · rw [if_pos hany, hany]
        simp
      · rw [if_neg hany, ih]
        simp [hany]
    · refine bind_eq_ok.mpr ⟨[], proposals_of_other ht hu htk huk hut h hp, ?_⟩
      rw [List.any_nil, if_neg (by simp), ih]
      simp [Ne.symm hut]

/-! ## Expansion by another pass -/

theorem refused_of_realize {supply after : Supply} {p : Proposal} {refusal : Refusal}
    (h : t.realize plan leaf p supply = .ok (.error refusal, after)) :
    p.place leaf.passDeps plan.resources = .error refusal := by
  unfold realize at h
  obtain ⟨bindings, _, h⟩ := bind_eq_ok.mp h
  simp only [Plan.fork] at h
  split at h
  · rename_i hplace
    cases h
    exact hplace
  · obtain ⟨grown, _, h⟩ := bind_eq_ok.mp h
    cases h

theorem exists_refused {ps : List Proposal} {supply after : Supply} {e : Expansion}
    (h : t.realizeAll plan leaf ps supply = .ok (e, after)) {refusal : Refusal}
    (hr : refusal ∈ e.pruned) :
    ∃ p ∈ ps, p.place leaf.passDeps plan.resources = .error refusal := by
  induction ps generalizing supply after e with
  | nil =>
    cases h
    simp at hr
  | cons p ps ih =>
    obtain ⟨⟨made, middle⟩, hmade, h⟩ := bind_eq_ok.mp h
    obtain ⟨⟨others, last⟩, hothers, h⟩ := bind_eq_ok.mp h
    cases h
    cases made with
    | ok candidate =>
      obtain ⟨q, hq, hplace⟩ := ih hothers hr
      exact ⟨q, List.mem_cons_of_mem p hq, hplace⟩
    | error other =>
      rcases List.mem_cons.mp hr with rfl | hr
      · exact ⟨p, List.mem_cons_self, refused_of_realize hmade⟩
      · obtain ⟨q, hq, hplace⟩ := ih hothers hr
        exact ⟨q, List.mem_cons_of_mem p hq, hplace⟩

theorem refused_of_expand {supply after : Supply} {e : Expansion} {rest : List Leaf}
    (active : plan.leaves = leaf :: rest) (h : t.expand problem plan supply = .ok (e, after))
    {refusal : Refusal} (hr : refusal ∈ e.pruned) :
    leaf.target = t.target ∧ ∃ ps, t.offers problem plan leaf = .ok ps ∧
      ∃ p ∈ ps, p.place leaf.passDeps plan.resources = .error refusal := by
  have hsome : e ≠ {} := by
    rintro rfl
    simp at hr
  obtain ⟨htarget, ps, hps, h⟩ := expand_eq_ok active h hsome
  obtain ⟨p, hp, hplace⟩ := exists_refused h hr
  exact ⟨htarget, ps, hps, p, (List.mem_filter.mp hp).1, hplace⟩

theorem recirculation_eq (onSwitch : leaf.target = .switch)
    (allowed : leaf.recirculations < problem.platform.maxRecirculations) {blocked : Bool}
    (h : anyBlocked problem plan leaf
      ((problem.catalog .switch).filter fun t => t.kind.usesPipeline) = .ok blocked) :
    recirculation problem plan leaf = .ok (if blocked then [revisit leaf] else []) := by
  rw [recirculation, if_pos ⟨onSwitch, allowed⟩]
  exact bind_eq_ok.mpr ⟨blocked, h, rfl⟩

theorem realize_revisit {rest : List Leaf} (active : plan.leaves = leaf :: rest)
    (limit : leaf.recirculations + 1 < Leaf.recirculationLimit) (supply : Supply) :
    ∃ c after, t.realize plan leaf (revisit leaf) supply = .ok (.ok c, after) ∧
      c.plan = plan.revisited supply.nextPlan leaf rest := by
  have hagain : leaf.recirculated =
      .ok { leaf with passDeps := ∅, recirculations := leaf.recirculations + 1 } := if_pos limit
  have hgrow : grow (plan.fork supply.nextPlan) leaf (revisit leaf) supply.symbols =
      .ok (plan.revisited supply.nextPlan leaf rest, supply.symbols) := by
    simp only [grow, revisit, Plan.recirculate, Plan.fork, active, hagain]
    rfl
  refine ⟨⟨t.decision plan.id leaf.next ((revisit leaf).paramsAt []),
    plan.revisited supply.nextPlan leaf rest⟩,
    { supply with nextPlan := supply.nextPlan + 1 }, ?_, rfl⟩
  refine bind_eq_ok.mpr ⟨plan.bindings, extend_of_nil rfl plan.bindings, ?_⟩
  simp only [place_of_nil (p := revisit leaf) rfl]
  exact bind_eq_ok.mpr ⟨_, hgrow, rfl⟩

theorem expand_recirculate {rest : List Leaf} (active : plan.leaves = leaf :: rest)
    (onSwitch : leaf.target = .switch) (limit : leaf.recirculations + 1 < Leaf.recirculationLimit)
    {blocked : Bool} (h : recirculation problem plan leaf =
      .ok (if blocked then [revisit leaf] else [])) (supply : Supply) :
    if blocked then ∃ c after,
      (Technique.mk .switch .recirculate).expand problem plan supply =
        .ok ({ candidates := [c] }, after) ∧
      c.plan = plan.revisited supply.nextPlan leaf rest
    else (Technique.mk .switch .recirculate).expand problem plan supply = .ok ({}, supply) := by
  have hoffers : (Technique.mk .switch .recirculate).offers problem plan leaf =
      .ok (if blocked then [revisit leaf] else []) := h
  have hactive : plan.activeLeaf? = some leaf := by
    rw [Plan.activeLeaf?, active]
    rfl
  simp only [expand, hactive, if_pos onSwitch, hoffers]
  cases blocked with
  | false => rfl
  | true =>
    obtain ⟨c, after, hmade, hplan⟩ := realize_revisit active limit supply
    refine ⟨c, after, bind_eq_ok.mpr ⟨[revisit leaf], rfl, ?_⟩, hplan⟩
    exact bind_eq_ok.mpr ⟨(.ok c, after), hmade, rfl⟩

end Technique

theorem Action.kind_of_objects {a : Action} {addr : Addr}
    (h : a.objects = [⟨addr, .hash⟩, ⟨addr, .register⟩]) :
    a.kind = .sketchUpdate ∨ a.kind = .sketchQuery := by
  cases a <;> first | exact .inl rfl | exact .inr rfl | simp [objects] at h

theorem Plan.Stocked.hash_of_register {problem : Problem} {plan : Plan} (h : plan.Stocked problem)
    {addr : Addr} (sketch : plan.bindings.holds addr .countMinSketch = true)
    (cells : plan.resources.isPlaced ⟨addr, .register⟩ = true) :
    plan.resources.isPlaced ⟨addr, .hash⟩ = true := by
  rcases h.paired addr cells with harray | hhash
  · -- the address is that of a sketch
    rw [Bindings.holds_iff] at sketch harray
    rw [sketch] at harray
    cases harray
  · exact hhash

/-- Where placement refuses, the probe foresees it, unless nothing of a sketch is placed. -/
theorem Plan.Stocked.probe_of_place {problem : Problem} {plan : Plan} {leaf : Leaf}
    (h : plan.Stocked problem) (hr : plan.resources.Indexed) (hleaf : leaf ∈ plan.leaves)
    {s : Setting} (hs : s.bindings = plan.bindings) {kind : Kind} {p : Proposal}
    (asks : p.Asks s kind) {refusal : Refusal}
    (refused : p.place leaf.passDeps plan.resources = .error refusal)
    (fixable : refusal.fixedByNewPass = true) :
    p.probe plan.resources leaf.passDeps = .error refusal ∨
      (kind = .sketchUpdate ∨ kind = .sketchQuery) ∧
        ∃ addr earliest, refusal = .noStageAvailable ⟨addr, .register⟩ earliest ∧
          plan.resources.isPlaced ⟨addr, .hash⟩ = false ∧
          plan.resources.isPlaced ⟨addr, .register⟩ = false := by
  have hdeps := h.met leaf hleaf
  cases asks with
  | silent _ places | nothing _ _ _ places =>
    rw [Technique.place_of_nil places] at refused
    cases refused
  | object _ _ _ _ places =>
    left
    rw [Proposal.probe_of_object places hdeps, refused]
    rfl
  | @sketch a addr _ _ _ _ _ kind_eq objects places fused fuses bound =>
    have hfused : ⟨addr, .register⟩ ∈ p.fused := by
      rw [fused, fuses, objects]
      simp
    have hpaired := h.hash_of_register (hs ▸ bound)
    rcases Proposal.probe_of_refused_sketch hr places hfused hdeps hpaired refused fixable with
      hprobe | ⟨⟨earliest, he⟩, hhash, hregister⟩
    · exact .inl hprobe
    · exact .inr ⟨kind_eq ▸ Action.kind_of_objects objects, addr, earliest, he, hhash, hregister⟩

/-- Where a technique of the pipeline is refused in a way that a new pass could fix, and the leaf
may take one, another pass is offered. It may be missing only for a sketch of which neither part is
placed yet: then the registers found no stage behind the hash unit. -/
theorem refused_placement_offers_a_pass {kinds : List NodeKind} {root : NodeId} {g : Graph}
    {c : Config} {problem : Problem} {choices : List Choice} {plan : Plan} {leaf : Leaf}
    {rest : List Leaf} {t : Technique} {supply after : Supply} {e : Expansion} {refusal : Refusal}
    (accepted : Graph.ofKinds kinds root = .ok g) (posed : Problem.ofConfig g c = .ok problem)
    (derived : Derives problem choices plan) (active : plan.leaves = leaf :: rest)
    (onSwitch : leaf.target = .switch)
    (allowed : leaf.recirculations < problem.platform.maxRecirculations)
    (uses : t.kind.usesPipeline = true) (expanded : t.expand problem plan supply = .ok (e, after))
    (pruned : refusal ∈ e.pruned) (fixable : refusal.fixedByNewPass = true) :
    (∀ supply', ∃ c after',
      (Technique.mk .switch .recirculate).expand problem plan supply' =
        .ok ({ candidates := [c] }, after') ∧
      c.plan = plan.revisited supply'.nextPlan leaf rest) ∨
    (∀ supply', (Technique.mk .switch .recirculate).expand problem plan supply' =
        .ok ({}, supply')) ∧
      (t.kind = .sketchUpdate ∨ t.kind = .sketchQuery) ∧
      ∃ addr earliest, refusal = .noStageAvailable ⟨addr, .register⟩ earliest ∧
        plan.resources.isPlaced ⟨addr, .hash⟩ = false ∧
        plan.resources.isPlaced ⟨addr, .register⟩ = false := by
  have wp := Problem.wellPosed_of_ofConfig accepted posed
  have stocked := derived.stocked wp posed
  have hleaf : leaf ∈ plan.leaves := active ▸ List.mem_cons_self
  have limit : leaf.recirculations + 1 < Leaf.recirculationLimit := by
    obtain ⟨_, platform, hplatform, hproblem⟩ := Problem.ofConfig_eq_ok.mp posed
    have hmax := (Platform.ofConfig_eq_ok hplatform).2.2
    rw [hproblem] at allowed
    exact Nat.lt_of_le_of_lt allowed hmax
  obtain ⟨htarget, ps, hps, p, hp, refused⟩ := Technique.refused_of_expand active expanded pruned
  have hkind : t.kind ≠ .recirculate := by
    intro h
    rw [h] at uses
    cases uses
  rw [Technique.offers, if_neg hkind] at hps
  have ht : t.target = .switch := htarget.symm.trans onSwitch
  have henabled := onSwitch ▸ stocked.enabled leaf hleaf
  -- of all the techniques that the probe asks, only this one has proposals
  have hblocked := Technique.anyBlocked_eq ht uses hps hp fun u hu =>
    (Technique.mem_users henabled).mp hu
  rw [decide_eq_true ((Technique.mem_users henabled).mpr ⟨ht, uses⟩), Bool.true_and] at hblocked
  have hexpand := Technique.expand_recirculate active onSwitch limit
    (Technique.recirculation_eq onSwitch allowed hblocked)
  by_cases hany : ps.any (Technique.isBlocked plan leaf) = true
  · left
    intro supply'
    have h := hexpand supply'
    rwa [if_pos hany] at h
  · right
    refine ⟨fun supply' => ?_, ?_⟩
    · have h := hexpand supply'
      rwa [if_neg hany] at h
    · have asks := (Technique.proposals_steady hps hp).1
      have hindexed := (derived.lawful wp).placed.indexed
      rcases stocked.probe_of_place hindexed hleaf rfl asks refused fixable with hprobe | hnew
      · refine absurd (List.any_eq_true.mpr ⟨p, hp, ?_⟩) hany
        rw [Technique.isBlocked, hprobe]
        exact fixable
      · exact hnew

def lookupTwice : List NodeKind :=
  let keyed : OrdMap String Expr := .ofList [("obj", .addr ⟨1⟩), ("key", .term "k" 8)]
  [.terminal .drop,
    .call { function := "map_get", args := keyed, next := some 0 },
    .call { function := "map_get", args := keyed, next := some 1 },
    .call { function := "map_allocate", args := .ofList [("obj", .addr ⟨1⟩)], next := some 2 }]

/-- The second lookup is refused in the pass of the first one, and another pass is offered. -/
theorem second_lookup_offers_a_pass :
    ∃ g problem plan leaf e after, Graph.ofKinds lookupTwice 3 = .ok g ∧
      Problem.ofConfig g {} = .ok problem ∧
      Derives problem [(⟨.switch, .tableLookup⟩, 0), (⟨.switch, .allocate⟩, 0)] plan ∧
      plan.leaves = [leaf] ∧
      (Technique.mk .switch .tableLookup).expand problem plan {} = .ok (e, after) ∧
      e.pruned = [.selfDependency ⟨⟨1⟩, .table⟩] ∧
      ∀ supply, ∃ c after', (Technique.mk .switch .recirculate).expand problem plan supply =
          .ok ({ candidates := [c] }, after') ∧
        c.plan = plan.revisited supply.nextPlan leaf [] := by
  refine ⟨_, _, _, _, _, _, rfl, rfl, derives_of_replay rfl, rfl, rfl, rfl, ?_⟩
  have h := @refused_placement_offers_a_pass lookupTwice 3 _ {} _
    [(⟨.switch, .tableLookup⟩, 0), (⟨.switch, .allocate⟩, 0)] _ _ [] ⟨.switch, .tableLookup⟩ {} _ _
    (.selfDependency ⟨⟨1⟩, .table⟩) rfl rfl (derives_of_replay rfl) rfl rfl (by decide) rfl rfl
    (by decide) rfl
  rcases h with h | ⟨_, hsketch, _⟩
  · exact h
  · rcases hsketch with hsketch | hsketch <;> cases hsketch

def lookupThenSketch : List NodeKind :=
  let keyed (addr : Addr) : OrdMap String Expr :=
    .ofList [("obj", .addr addr), ("key", .term "k" 8)]
  [.terminal .drop,
    .call { function := "cms_increment", args := keyed ⟨2⟩, next := some 0 },
    .call { function := "map_get", args := keyed ⟨1⟩, next := some 1 },
    .call { function := "cms_allocate", args := .ofList [("obj", .addr ⟨2⟩)], next := some 2 },
    .call { function := "map_allocate", args := .ofList [("obj", .addr ⟨1⟩)], next := some 3 }]

/-- On two stages the table leaves one for the sketch, which needs two. A new pass would have both,
and the update would fit, but none is offered. -/
theorem new_sketch_is_offered_no_pass :
    ∃ g problem plan leaf after, Graph.ofKinds lookupThenSketch 4 = .ok g ∧
      Problem.ofConfig g { targets := { enabled := [.switch] }, switch := { stages := 2 } } =
        .ok problem ∧
      Derives problem [(⟨.switch, .tableLookup⟩, 0), (⟨.switch, .allocate⟩, 0),
        (⟨.switch, .allocate⟩, 0)] plan ∧
      plan.leaves = [leaf] ∧ leaf.target = .switch ∧
      leaf.recirculations < problem.platform.maxRecirculations ∧
      (Technique.mk .switch .sketchUpdate).expand problem plan {} =
        .ok ({ pruned := [.noStageAvailable ⟨⟨2⟩, .register⟩ 2] }, after) ∧
      (Refusal.noStageAvailable ⟨⟨2⟩, .register⟩ 2).fixedByNewPass = true ∧
      (Technique.mk .switch .recirculate).expand problem plan {} = .ok ({}, {}) ∧
      ∃ c after', (Technique.mk .switch .sketchUpdate).expand problem
        (plan.revisited 0 leaf []) {} = .ok ({ candidates := [c] }, after') :=
  ⟨_, _, _, _, _, rfl, rfl, derives_of_replay rfl, rfl, rfl, by decide, rfl, rfl, rfl, _, _, rfl⟩

end PacketPlan
