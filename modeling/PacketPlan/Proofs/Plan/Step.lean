import PacketPlan.Technique.Expand
import PacketPlan.Proofs.Proposal

/-! # Derivations

Plans are derived from the empty plan by expansions, whatever numbers and symbols are handed out.
One expansion does one of four things to the active leaf: it passes over the node, acts on it,
hands it over to the controller, or sends the packet through the pipeline once more. `Plan.Step`
says all that is known of each case, so that invariants need not look into the expansion itself.
-/
namespace PacketPlan

/-- A technique and the position of one of its candidates. -/
abbrev Choice := Technique × Nat

/-- The plan comes of the empty one by these choices, the last of them first. -/
inductive Derives (problem : Problem) : List Choice → Plan → Prop
  | root (id : PlanId) : Derives problem [] (.empty problem id)
  | expand {choices : List Choice} {plan : Plan} {t : Technique} {supply after : Supply}
      {expansion : Expansion} {i : Nat} {candidate : Candidate}
      (before : Derives problem choices plan) (known : t ∈ problem.techniques)
      (expanded : t.expand problem plan supply = .ok (expansion, after))
      (chosen : expansion.candidates[i]? = some candidate) :
      Derives problem ((t, i) :: choices) candidate.plan

def Leaf.site (l : Leaf) : Site := ⟨l.next, l.target⟩

theorem Module.handsOver?_eq_none {t : Target} {n : NodeId} {a : Action}
    (h : a ≠ .sendToController) : Module.handsOver? ⟨t, n, a⟩ = none := by
  cases a with
  | sendToController => exact absurd rfl h
  | _ => rfl

namespace Plan

/-- The technique offers the proposal at the active leaf, and nothing forbids it. -/
structure Offer (problem : Problem) (plan : Plan) (leaf : Leaf) (rest : List Leaf) (t : Technique)
    (p : Proposal) : Prop where
  active : plan.leaves = leaf :: rest
  target_eq : leaf.target = t.target
  known : t ∈ problem.techniques
  offered : ∃ ps, t.offers problem plan leaf = .ok ps ∧ p ∈ ps
  admissible : Technique.admissible problem plan.bindings p = true

/-- The plan with a module in place of the active leaf, and with the symbol that was minted. -/
def attached (plan : Plan) (id : PlanId) (bindings : Bindings) (resources : Pipeline) (leaf : Leaf)
    (rest : List Leaf) (m : Module) (children : List Leaf) (minted : Option Symbol) : Plan :=
  let marked := { plan.ledger with
    processed := plan.ledger.processed.insert leaf.site (some plan.nodes.length) }
  let grown := { plan with id, bindings, resources }.grown leaf rest m children marked
  minted.elim grown (grown.recordSymbol plan.nodes.length)

def passed (plan : Plan) (id : PlanId) (bindings : Bindings) (resources : Pipeline) (leaf : Leaf)
    (rest children : List Leaf) : Plan :=
  { plan with
    id, bindings, resources
    leaves := children ++ rest
    ledger := { plan.ledger with processed := plan.ledger.processed.insert leaf.site none } }

def revisited (plan : Plan) (id : PlanId) (leaf : Leaf) (rest : List Leaf) : Plan :=
  { plan with
    id
    leaves := { leaf with passDeps := ∅, recirculations := leaf.recirculations + 1 } :: rest
    ledger := plan.ledger.recordRecirculation }

/-- What one expansion can do. -/
inductive Step (problem : Problem) (plan : Plan) : Plan → Prop
  | pass {leaf : Leaf} {rest : List Leaf} {t : Technique} {p : Proposal} {node : Node} {n : NodeId}
      {id : PlanId} {bindings : Bindings} (offer : Offer problem plan leaf rest t p)
      (present : problem.graph.node? leaf.next = some node) (silent : p.module? = none)
      (goes : p.next = .next n) (follows : p.next.Follows node.kind) (places : p.placements = [])
      (bound : plan.bindings.extend p.commits = .ok bindings)
      (fresh : plan.ledger.processed? leaf.site = none) :
      Step problem plan
        (plan.passed id bindings plan.resources leaf rest (p.next.leaves leaf p.objects))
  | act {leaf : Leaf} {rest : List Leaf} {t : Technique} {p : Proposal} {node : Node} {a : Action}
      {id : PlanId} {bindings : Bindings} {stages : List Nat} {resources : Pipeline}
      (offer : Offer problem plan leaf rest t p)
      (present : problem.graph.node? leaf.next = some node)
      (acts : p.module? = some ⟨leaf.target, leaf.next, a⟩) (keeps : a ≠ .sendToController)
      (follows : p.next.Follows node.kind) (places : p.next = .stop → p.placements = [])
      (bound : plan.bindings.extend p.commits = .ok bindings)
      (placed : p.place leaf.passDeps plan.resources = .ok (stages, resources))
      (rooted : ¬(leaf.attach.isNone ∧ plan.root.isSome))
      (fresh : plan.ledger.processed? leaf.site = none) :
      Step problem plan
        (plan.attached id bindings resources leaf rest ⟨leaf.target, leaf.next, a⟩
          (p.next.leaves leaf p.objects) none)
  | handOver {leaf : Leaf} {rest : List Leaf} {t : Technique} {p : Proposal} {node : Node}
      {id : PlanId} {bindings : Bindings} {symbol : Symbol}
      (offer : Offer problem plan leaf rest t p)
      (present : problem.graph.node? leaf.next = some node) (onSwitch : leaf.target = .switch)
      (acts : p.module? = some ⟨.switch, leaf.next, .sendToController⟩)
      (goes : p.next = .transfer .controller leaf.next) (places : p.placements = [])
      (bound : plan.bindings.extend p.commits = .ok bindings)
      (rooted : ¬(leaf.attach.isNone ∧ plan.root.isSome))
      (fresh : plan.ledger.processed? leaf.site = none) :
      Step problem plan
        (plan.attached id bindings plan.resources leaf rest ⟨.switch, leaf.next, .sendToController⟩
          [leaf.transfer .controller leaf.next] (some symbol))
  | revisit {leaf : Leaf} {rest : List Leaf} {t : Technique} {id : PlanId}
      (offer : Offer problem plan leaf rest t (Technique.revisit leaf))
      (onSwitch : leaf.target = .switch)
      (allowed : leaf.recirculations < problem.platform.maxRecirculations) :
      Step problem plan (plan.revisited id leaf rest)

theorem mem_recirculation {problem : Problem} {plan : Plan} {leaf : Leaf} {ps : List Proposal}
    {p : Proposal} (hps : Technique.recirculation problem plan leaf = .ok ps) (hp : p ∈ ps) :
    p = Technique.revisit leaf ∧ leaf.target = .switch ∧
      leaf.recirculations < problem.platform.maxRecirculations := by
  unfold Technique.recirculation at hps
  split at hps
  · rename_i hallowed
    obtain ⟨blocked, _, hps⟩ := bind_eq_ok.mp hps
    cases hps
    split at hp
    · exact ⟨List.mem_singleton.mp hp, hallowed⟩
    · simp at hp
  · cases hps
    simp at hp

theorem fits_of_offers {problem : Problem} {plan : Plan} {leaf : Leaf} {t : Technique}
    {ps : List Proposal} {p : Proposal} (target_eq : leaf.target = t.target)
    (hps : t.offers problem plan leaf = .ok ps) (hp : p ∈ ps) :
    (p = Technique.revisit leaf ∧ leaf.target = .switch ∧
        leaf.recirculations < problem.platform.maxRecirculations) ∨
      ∃ node, problem.graph.node? leaf.next = some node ∧
        p.Fits ⟨problem.graph, plan.bindings, leaf.target, leaf.next⟩ node.kind := by
  unfold Technique.offers at hps
  split at hps
  · exact .inl (mem_recirculation hps hp)
  · right
    have hy := (t.proposals_yields problem.graph plan.bindings leaf.next).result hps
    rcases hy with rfl | ⟨node, hn, hfit⟩
    · simp at hp
    · refine ⟨node, hn, ?_⟩
      rw [target_eq]
      exact hfit.2 p hp

theorem proposed_of_offers {problem : Problem} {plan : Plan} {leaf : Leaf} {t : Technique}
    {ps : List Proposal} {p : Proposal} (hps : t.offers problem plan leaf = .ok ps) (hmem : p ∈ ps)
    (hp : p ≠ Technique.revisit leaf) :
    ∃ ps, t.proposals problem.graph plan.bindings leaf.next = .ok ps ∧ p ∈ ps := by
  unfold Technique.offers at hps
  split at hps
  · exact absurd (mem_recirculation hps hmem).1 hp
  · exact ⟨ps, hps, hmem⟩

/-- A proposal is offered for a node of the graph and fits it, or it asks for another pass. -/
theorem Offer.fits {problem : Problem} {plan : Plan} {leaf : Leaf} {rest : List Leaf}
    {t : Technique} {p : Proposal} (h : Offer problem plan leaf rest t p) :
    (p = Technique.revisit leaf ∧ leaf.target = .switch ∧
        leaf.recirculations < problem.platform.maxRecirculations) ∨
      ∃ node, problem.graph.node? leaf.next = some node ∧
        p.Fits ⟨problem.graph, plan.bindings, leaf.target, leaf.next⟩ node.kind := by
  obtain ⟨ps, hps, hp⟩ := h.offered
  exact fits_of_offers h.target_eq hps hp

theorem Offer.proposed {problem : Problem} {plan : Plan} {leaf : Leaf} {rest : List Leaf}
    {t : Technique} {p : Proposal} (h : Offer problem plan leaf rest t p)
    (hp : p ≠ Technique.revisit leaf) :
    ∃ ps, t.proposals problem.graph plan.bindings leaf.next = .ok ps ∧ p ∈ ps := by
  obtain ⟨ps, hps, hmem⟩ := h.offered
  exact proposed_of_offers hps hmem hp

end Plan

namespace Technique

theorem markProcessed_eq_ok {l l' : Ledger} {s : Site} {how : Option PlanNodeId}
    (h : l.markProcessed s how = .ok l') :
    l.processed? s = none ∧ l' = { l with processed := l.processed.insert s how } := by
  unfold Ledger.markProcessed at h
  cases hs : l.processed? s with
  | some previous => simp [hs] at h
  | none =>
    simp only [hs] at h
    cases h
    exact ⟨rfl, rfl⟩

theorem attach_eq_ok {plan after : Plan} {leaf : Leaf} {rest children : List Leaf} {m : Module}
    {id : PlanNodeId} (hl : plan.leaves = leaf :: rest)
    (h : plan.attach m children = .ok (id, after)) :
    (m.node = leaf.next ∧ m.target = leaf.target) ∧ ¬(leaf.attach.isNone ∧ plan.root.isSome) ∧
      plan.ledger.processed? leaf.site = none ∧ id = plan.nodes.length ∧
      after = plan.grown leaf rest m children { plan.ledger with
        processed := plan.ledger.processed.insert leaf.site (some plan.nodes.length) } := by
  unfold Plan.attach at h
  simp only [hl] at h
  split at h
  · cases h
  · rename_i hsite
    split at h
    · cases h
    · rename_i hroot
      obtain ⟨ledger, hledger, h⟩ := bind_eq_ok.mp h
      cases h
      obtain ⟨hfresh, rfl⟩ := markProcessed_eq_ok hledger
      have hm : m.node = leaf.next ∧ m.target = leaf.target := by
        simpa only [not_or, ne_eq, Decidable.not_not] using hsite
      exact ⟨hm, hroot, hfresh, rfl, rfl⟩

theorem place_of_nil {p : Proposal} (h : p.placements = []) (deps : ObjectSet) (r : Pipeline) :
    p.place deps r = .ok ([], r) := by
  rw [Proposal.place, h]
  rfl

theorem extend_of_nil {p : Proposal} (h : p.commits = []) (b : Bindings) :
    b.extend p.commits = .ok b := by
  rw [h]
  rfl

/-- What growing a plan can do, whether or not the proposal fits the active leaf. -/
inductive Grows (plan : Plan) (leaf : Leaf) (p : Proposal) (symbols : SymbolSource) :
    Plan → SymbolSource → Prop
  | attach {active : Leaf} {rest : List Leaf} {m : Module} {child : Plan} {after : SymbolSource}
      (acts : p.module? = some m)
      (mints : mint (plan.grown active rest m (p.next.leaves leaf p.objects) { plan.ledger with
        processed := plan.ledger.processed.insert active.site (some plan.nodes.length) })
        plan.nodes.length m symbols = (child, after)) :
      Grows plan leaf p symbols child after
  | revisit {again : Leaf} {rest : List Leaf} (silent : p.module? = none)
      (goes : p.next = .revisit) :
      Grows plan leaf p symbols
        { plan with leaves := again :: rest, ledger := plan.ledger.recordRecirculation } symbols
  | skip {active : Leaf} {rest : List Leaf} (silent : p.module? = none) (goes : p.next ≠ .revisit) :
      Grows plan leaf p symbols (plan.passed plan.id plan.bindings plan.resources active rest
        (p.next.leaves leaf p.objects)) symbols

theorem grows_of_grow {plan child : Plan} {leaf : Leaf} {p : Proposal}
    {symbols after : SymbolSource}
    (h : grow plan leaf p symbols = .ok (child, after)) : Grows plan leaf p symbols child after := by
  simp only [grow] at h
  cases hl : plan.leaves with
  | nil =>
    simp only [Plan.attach, Plan.recirculate, Plan.skip, hl] at h
    split at h <;> cases h
  | cons active rest =>
    split at h
    · rename_i m acts
      obtain ⟨⟨id, grown⟩, hattach, h⟩ := bind_eq_ok.mp h
      obtain ⟨_, _, _, rfl, rfl⟩ := attach_eq_ok hl hattach
      exact .attach acts (Except.ok.inj h)
    · rename_i silent goes
      obtain ⟨next, hagain, h⟩ := bind_eq_ok.mp h
      cases h
      simp only [Plan.recirculate, hl] at hagain
      obtain ⟨again, _, hagain⟩ := bind_eq_ok.mp hagain
      cases hagain
      exact .revisit silent goes
    · rename_i silent goes
      obtain ⟨next, hskip, h⟩ := bind_eq_ok.mp h
      cases h
      simp only [Plan.skip, hl] at hskip
      obtain ⟨ledger, hledger, hskip⟩ := bind_eq_ok.mp hskip
      cases hskip
      obtain ⟨_, rfl⟩ := markProcessed_eq_ok hledger
      exact .skip silent goes

/-- What came of a proposal was bound, placed and grown, in this order. -/
theorem realize_eq_ok {t : Technique} {plan : Plan} {leaf : Leaf} {p : Proposal}
    {supply after : Supply} {c : Candidate}
    (h : t.realize plan leaf p supply = .ok (.ok c, after)) :
    ∃ bindings stages resources symbols, plan.bindings.extend p.commits = .ok bindings ∧
      p.place leaf.passDeps plan.resources = .ok (stages, resources) ∧
      grow { plan with id := supply.nextPlan, bindings, resources } leaf p supply.symbols =
        .ok (c.plan, symbols) ∧
      c.decision = t.decision plan.id leaf.next (p.paramsAt stages) := by
  unfold realize at h
  obtain ⟨bindings, hb, h⟩ := bind_eq_ok.mp h
  simp only [Plan.fork] at hb h
  split at h
  · cases h
  · rename_i stages resources hplace
    obtain ⟨⟨child, symbols⟩, hg, h⟩ := bind_eq_ok.mp h
    cases h
    exact ⟨bindings, stages, resources, symbols, hb, hplace, hg, rfl⟩

theorem step_of_realize {problem : Problem} {t : Technique} {plan : Plan} {leaf : Leaf}
    {rest : List Leaf} {p : Proposal} {supply after : Supply} {c : Candidate}
    (offer : Plan.Offer problem plan leaf rest t p)
    (h : t.realize plan leaf p supply = .ok (.ok c, after)) : plan.Step problem c.plan := by
  obtain ⟨bindings, stages, resources, symbols, hb, hplace, hg, _⟩ := realize_eq_ok h
  have hl := offer.active
  generalize c.plan = child at hg
  rcases offer.fits with ⟨rfl, hswitch, hallowed⟩ | ⟨node, hn, hfit⟩
  · rw [place_of_nil rfl] at hplace
    rw [extend_of_nil rfl] at hb
    cases hplace
    cases hb
    simp only [grow, revisit, Plan.recirculate, hl] at hg
    obtain ⟨next, hnext, hg⟩ := bind_eq_ok.mp hg
    obtain ⟨again, hagain, hnext⟩ := bind_eq_ok.mp hnext
    cases hnext
    unfold Leaf.recirculated at hagain
    split at hagain
    · cases hagain
      cases hg
      exact .revisit offer hswitch hallowed
    · cases hagain
  · cases hfit with
    | @pass n silent goes follows places =>
      rw [place_of_nil places] at hplace
      cases hplace
      simp only [grow, silent, goes, Plan.skip, hl] at hg
      obtain ⟨next, hnext, hg⟩ := bind_eq_ok.mp hg
      obtain ⟨ledger, hledger, hnext⟩ := bind_eq_ok.mp hnext
      cases hnext
      cases hg
      obtain ⟨hfresh, rfl⟩ := markProcessed_eq_ok hledger
      rw [← goes]
      exact .pass offer hn silent goes follows places hb hfresh
    | @act a acts keeps follows places =>
      simp only [grow, acts] at hg
      obtain ⟨⟨id, grown⟩, hattach, hg⟩ := bind_eq_ok.mp hg
      have hl' : Plan.leaves { plan with id := supply.nextPlan, bindings, resources } =
          leaf :: rest := hl
      obtain ⟨_, hrooted, hfresh, rfl, rfl⟩ := attach_eq_ok hl' hattach
      simp only [mint, Module.handsOver?_eq_none keeps] at hg
      cases hg
      exact .act offer hn acts keeps follows places hb hplace hrooted hfresh
    | handOver onSwitch acts goes places =>
      rw [place_of_nil places] at hplace
      cases hplace
      simp only [grow, acts] at hg
      obtain ⟨⟨id, grown⟩, hattach, hg⟩ := bind_eq_ok.mp hg
      have hl' : Plan.leaves { plan with id := supply.nextPlan, bindings } = leaf :: rest := hl
      obtain ⟨_, hrooted, hfresh, rfl, rfl⟩ := attach_eq_ok hl' hattach
      cases hg
      rw [goes]
      exact .handOver offer hn onSwitch acts goes places hb hrooted hfresh

theorem mem_realizeAll {t : Technique} {plan : Plan} {leaf : Leaf} {ps : List Proposal}
    {supply after : Supply} {e : Expansion} (h : t.realizeAll plan leaf ps supply = .ok (e, after))
    {c : Candidate} (hc : c ∈ e.candidates) :
    ∃ p ∈ ps, ∃ first second, t.realize plan leaf p first = .ok (.ok c, second) := by
  induction ps generalizing supply after e with
  | nil =>
    cases h
    simp at hc
  | cons p ps ih =>
    obtain ⟨⟨made, middle⟩, hmade, h⟩ := bind_eq_ok.mp h
    obtain ⟨⟨others, last⟩, hothers, h⟩ := bind_eq_ok.mp h
    cases h
    cases made with
    | error refusal =>
      obtain ⟨q, hq, hr⟩ := ih hothers hc
      exact ⟨q, List.mem_cons_of_mem p hq, hr⟩
    | ok candidate =>
      rcases List.mem_cons.mp hc with rfl | hc
      · exact ⟨p, List.mem_cons_self, supply, middle, hmade⟩
      · obtain ⟨q, hq, hr⟩ := ih hothers hc
        exact ⟨q, List.mem_cons_of_mem p hq, hr⟩

theorem expand_eq_ok {problem : Problem} {t : Technique} {plan : Plan} {leaf : Leaf}
    {rest : List Leaf} {supply after : Supply} {e : Expansion} (active : plan.leaves = leaf :: rest)
    (h : t.expand problem plan supply = .ok (e, after)) (some : e ≠ {}) :
    leaf.target = t.target ∧ ∃ ps, t.offers problem plan leaf = .ok ps ∧
      t.realizeAll plan leaf (ps.filter (admissible problem plan.bindings)) supply =
        .ok (e, after) := by
  unfold expand Plan.activeLeaf? at h
  simp only [active, List.head?_cons] at h
  split at h
  · rename_i htarget
    exact ⟨htarget, bind_eq_ok.mp h⟩
  · cases h
    exact absurd rfl some

theorem offer_of_expand {problem : Problem} {t : Technique} {plan : Plan} {supply after : Supply}
    {e : Expansion} (known : t ∈ problem.techniques)
    (h : t.expand problem plan supply = .ok (e, after)) {c : Candidate} (hc : c ∈ e.candidates) :
    ∃ leaf rest p first second, Plan.Offer problem plan leaf rest t p ∧
      t.realize plan leaf p first = .ok (.ok c, second) := by
  cases hl : plan.leaves with
  | nil =>
    rw [expand, Plan.activeLeaf?, hl] at h
    cases h
    simp at hc
  | cons leaf rest =>
    have hsome : e ≠ {} := by
      rintro rfl
      simp at hc
    obtain ⟨htarget, ps, hps, h⟩ := expand_eq_ok hl h hsome
    obtain ⟨p, hp, first, second, hr⟩ := mem_realizeAll h hc
    obtain ⟨hp, hadm⟩ := List.mem_filter.mp hp
    exact ⟨leaf, rest, p, first, second, ⟨hl, htarget, known, ⟨ps, hps, hp⟩, hadm⟩, hr⟩

/-- Every candidate of an expansion is one step away. -/
theorem step_of_expand {problem : Problem} {t : Technique} {plan : Plan} {supply after : Supply}
    {e : Expansion} (known : t ∈ problem.techniques)
    (h : t.expand problem plan supply = .ok (e, after)) {c : Candidate} (hc : c ∈ e.candidates) :
    plan.Step problem c.plan := by
  obtain ⟨leaf, rest, p, first, second, offer, hr⟩ := offer_of_expand known h hc
  exact step_of_realize offer hr

end Technique

/-- An invariant of single steps holds of every plan that is derived. -/
theorem Derives.invariant {problem : Problem} {P : Plan → Prop}
    (root : ∀ id, P (.empty problem id))
    (step : ∀ {plan after : Plan}, P plan → plan.Step problem after → P after)
    {choices : List Choice} {plan : Plan} (h : Derives problem choices plan) : P plan := by
  induction h with
  | root id => exact root id
  | expand _ known expanded chosen ih =>
    exact step ih (Technique.step_of_expand known expanded (List.mem_of_getElem? chosen))

/-- Makes the choices, the last of them first, with numbers and symbols that always start anew. -/
def Plan.replay (problem : Problem) : List Choice → Option Plan
  | [] => some (.empty problem 0)
  | (t, i) :: choices =>
    (replay problem choices).bind fun plan =>
      if t ∈ problem.techniques then
        match t.expand problem plan {} with
        | .ok (expansion, _) => expansion.candidates[i]?.map Candidate.plan
        | .error _ => none
      else none

theorem derives_of_replay {problem : Problem} {choices : List Choice} {plan : Plan}
    (h : Plan.replay problem choices = some plan) : Derives problem choices plan := by
  induction choices generalizing plan with
  | nil =>
    cases h
    exact .root 0
  | cons choice choices ih =>
    obtain ⟨before, hbefore, h⟩ := Option.bind_eq_some_iff.mp h
    split at h
    · rename_i known
      split at h
      · rename_i expansion after expanded
        obtain ⟨candidate, chosen, rfl⟩ := Option.map_eq_some_iff.mp h
        exact .expand (ih hbefore) known expanded chosen
      · cases h
    · cases h

end PacketPlan
