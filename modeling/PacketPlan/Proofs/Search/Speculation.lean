import PacketPlan.Proofs.Proposal.Handler
import PacketPlan.Proofs.Search.Faultless

/-! # Speculation and expansion

Speculation asks what expansion does, without taking anything: it probes the proposals where
expansion places them. At the active leaf of a derived plan both come to the same decision. What can
be placed passes the probe, which foresees the stage of the first object; and a proposal that asks
for objects has no rivals, so it does not matter which of the proposals the pipeline would refuse.
The other way round, what passes the probe can be placed, a new sketch on the switch excepted.
-/
namespace PacketPlan
open Checked

theorem Proposal.paramsAt_congr {p : Proposal} {stages stages' : List Nat}
    (h : stages.head? = stages'.head?) : p.paramsAt stages = p.paramsAt stages' := by
  cases stages with
  | nil =>
    rw [List.head?_nil, eq_comm, List.head?_eq_none_iff] at h
    rw [h]
  | cons stage others =>
    rw [List.head?_cons, eq_comm, List.head?_eq_some_iff] at h
    obtain ⟨others', rfl⟩ := h
    rfl

/-! ## Probes of a derived plan -/

namespace Plan.Stocked
variable {problem : Problem} {plan : Plan} {leaf : Leaf} {s : Setting} {kind : Kind} {p : Proposal}
  {stages : List Nat}

/-- What can be placed passes the probe, and the first object is given the stage that was
foreseen. -/
theorem foreseen_of_place (h : plan.Stocked problem) (hr : plan.resources.Indexed)
    (hleaf : leaf ∈ plan.leaves) (hs : s.bindings = plan.bindings) (asks : p.Asks s kind)
    {resources : Pipeline} (placed : p.place leaf.passDeps plan.resources = .ok (stages, resources)) :
    ∃ foreseen, p.probe plan.resources leaf.passDeps = .ok foreseen ∧
      foreseen.head? = stages.head? := by
  have hdeps := h.met leaf hleaf
  cases asks with
  | silent _ places | nothing _ _ _ places =>
    rw [Proposal.probe_of_nil places, placed]
    exact ⟨stages, rfl, rfl⟩
  | object _ _ _ _ places =>
    rw [Proposal.probe_of_object places hdeps, placed]
    exact ⟨stages, rfl, rfl⟩
  | sketch _ _ _ _ places _ _ bound =>
    exact Proposal.probe_of_granted_sketch hr places hdeps (h.hash_of_register (hs ▸ bound)) placed

/-- What passes the probe can be placed, unless it is a sketch on the switch. -/
theorem place_of_foreseen (h : plan.Stocked problem) (hleaf : leaf ∈ plan.leaves)
    (asks : p.Asks s kind)
    (plain : ¬(s.target = .switch ∧ (kind = .sketchUpdate ∨ kind = .sketchQuery)))
    (foreseen : p.probe plan.resources leaf.passDeps = .ok stages) :
    ∃ resources, p.place leaf.passDeps plan.resources = .ok (stages, resources) := by
  have hsame : p.probe plan.resources leaf.passDeps =
      (p.place leaf.passDeps plan.resources).map Prod.fst := by
    cases asks with
    | silent _ places | nothing _ _ _ places => exact Proposal.probe_of_nil places
    | object _ _ _ _ places => exact Proposal.probe_of_object places (h.met leaf hleaf)
    | sketch onSwitch _ kind_eq objects =>
      exact absurd ⟨onSwitch, kind_eq ▸ Action.kind_of_objects objects⟩ plain
  rw [foreseen] at hsame
  cases hplace : p.place leaf.passDeps plan.resources with
  | error refusal =>
    rw [hplace] at hsame
    cases hsame
  | ok result =>
    rw [hplace] at hsame
    cases hsame
    exact ⟨result.2, rfl⟩

end Plan.Stocked

namespace Technique
variable {t : Technique} {problem : Problem} {plan : Plan} {leaf : Leaf} {rest : List Leaf}
  {supply after : Supply} {e : Expansion}

/-! ## The first candidate -/

theorem alone_of_refused {g : Graph} {b : Bindings} {node : NodeId} {ps : List Proposal}
    {p : Proposal} (h : t.proposals g b node = .ok ps) (hp : p ∈ ps) {deps : ObjectSet}
    {r : Pipeline} {refusal : Refusal} (refused : p.place deps r = .error refusal) : ps = [p] := by
  apply proposals_alone h hp
  apply commits_of_places h hp
  intro places
  rw [place_of_nil places] at refused
  cases refused

theorem grow_bindings {p : Proposal} {symbols symbols' : SymbolSource} {child : Plan}
    (active : plan.leaves = leaf :: rest) (h : grow plan leaf p symbols = .ok (child, symbols')) :
    child.bindings = plan.bindings := by
  unfold grow at h
  simp only at h
  split at h
  · rename_i m _
    obtain ⟨⟨id, grown⟩, hattach, h⟩ := bind_eq_ok.mp h
    obtain ⟨_, _, _, _, rfl⟩ := attach_eq_ok active hattach
    simp only [mint] at h
    split at h <;> cases h <;> rfl
  · obtain ⟨next, hnext, h⟩ := bind_eq_ok.mp h
    cases h
    simp only [Plan.recirculate, active] at hnext
    obtain ⟨again, _, hnext⟩ := bind_eq_ok.mp hnext
    cases hnext
    rfl
  · obtain ⟨next, hnext, h⟩ := bind_eq_ok.mp h
    cases h
    simp only [Plan.skip, active] at hnext
    obtain ⟨ledger, _, hnext⟩ := bind_eq_ok.mp hnext
    cases hnext
    rfl

theorem first_of_realizeAll {p : Proposal} {ps : List Proposal} {first : Candidate}
    {others : List Candidate} (h : t.realizeAll plan leaf (p :: ps) supply = .ok (e, after))
    (made : e.candidates = first :: others) :
    (∃ second, t.realize plan leaf p supply = .ok (.ok first, second)) ∨
      (∃ refusal, p.place leaf.passDeps plan.resources = .error refusal) ∧ ps ≠ [] := by
  obtain ⟨⟨result, middle⟩, hresult, h⟩ := bind_eq_ok.mp h
  obtain ⟨⟨later, last⟩, hlater, h⟩ := bind_eq_ok.mp h
  cases h
  cases result with
  | ok candidate =>
    cases made
    exact .inl ⟨middle, hresult⟩
  | error refusal =>
    refine .inr ⟨⟨refusal, refused_of_realize hresult⟩, ?_⟩
    rintro rfl
    cases hlater
    cases made

theorem candidates_ne_nil {p : Proposal} {ps : List Proposal}
    (h : t.realizeAll plan leaf ps supply = .ok (e, after)) (hp : p ∈ ps)
    {result : List Nat × Pipeline}
    (placed : p.place leaf.passDeps plan.resources = .ok result) : e.candidates ≠ [] := by
  induction ps generalizing supply after e with
  | nil => exact absurd hp List.not_mem_nil
  | cons q qs ih =>
    obtain ⟨⟨made, middle⟩, hmade, h⟩ := bind_eq_ok.mp h
    obtain ⟨⟨later, last⟩, hlater, h⟩ := bind_eq_ok.mp h
    cases h
    cases made with
    | ok candidate => exact List.cons_ne_nil _ _
    | error refusal =>
      rcases List.mem_cons.mp hp with rfl | hp
      · rw [refused_of_realize hmade] at placed
        cases placed
      · change later.candidates ≠ []
        exact ih hlater hp

theorem expand_active (active : plan.leaves = leaf :: rest) (target_eq : t.target = leaf.target)
    (kind_ne : t.kind ≠ .recirculate) :
    t.expand problem plan supply = (do
      let proposals ← t.proposals problem.graph plan.bindings leaf.next
      t.realizeAll plan leaf (proposals.filter (admissible problem plan.bindings)) supply) := by
  simp only [expand, Plan.activeLeaf?, active, List.head?_cons, if_pos target_eq.symm, offers,
    if_neg kind_ne]

theorem passDepsAt_active (active : plan.leaves = leaf :: rest)
    (target_eq : t.target = leaf.target) : t.passDepsAt plan leaf.next = leaf.passDeps := by
  rw [passDepsAt, Plan.activeLeaf?, active]
  exact if_pos ⟨rfl, target_eq.symm⟩

theorem speculate_of_expand (stocked : plan.Stocked problem) (hr : plan.resources.Indexed)
    (active : plan.leaves = leaf :: rest) (target_eq : t.target = leaf.target)
    (kind_ne : t.kind ≠ .recirculate) (h : t.expand problem plan supply = .ok (e, after))
    {first : Candidate} {others : List Candidate} (made : e.candidates = first :: others) :
    ∃ sp, t.speculate problem plan leaf.next plan.bindings = .ok (some sp) ∧
      sp.decision = first.decision ∧ plan.bindings.extend sp.delta = .ok first.plan.bindings := by
  rw [expand_active active target_eq kind_ne] at h
  obtain ⟨ps, hps, h⟩ := bind_eq_ok.mp h
  cases hadmitted : ps.filter (admissible problem plan.bindings) with
  | nil =>
    rw [hadmitted] at h
    cases h
    cases made
  | cons p qs =>
    rw [hadmitted] at h
    have hp : p ∈ ps := (List.mem_filter.mp (hadmitted ▸ List.mem_cons_self)).1
    obtain ⟨second, hrealize⟩ : ∃ second, t.realize plan leaf p supply = .ok (.ok first, second) := by
      rcases first_of_realizeAll h made with hfirst | ⟨⟨refusal, refused⟩, hrivals⟩
      · exact hfirst
      · have hlength := List.length_filter_le (admissible problem plan.bindings) ps
        rw [hadmitted, alone_of_refused hps hp refused] at hlength
        exact absurd (List.length_eq_zero_iff.mp (by simpa using hlength)) hrivals
    obtain ⟨bindings, stages, resources, symbols, hbound, placed, hgrow, hdecision⟩ :=
      realize_eq_ok hrealize
    obtain ⟨foreseen, hprobe, hhead⟩ := stocked.foreseen_of_place hr
      (active ▸ List.mem_cons_self) rfl (proposals_steady hps hp).1 placed
    refine ⟨⟨t.decision plan.id leaf.next (p.paramsAt foreseen), p.commits⟩, ?_, ?_, ?_⟩
    · refine bind_eq_ok.mpr ⟨ps, hps, ?_⟩
      rw [hadmitted, passDepsAt_active active target_eq]
      simp only [List.findSome?_cons, hprobe]
    · rw [hdecision, Proposal.paramsAt_congr hhead]
    · have hactive : Plan.leaves { plan with id := supply.nextPlan, bindings, resources } =
          leaf :: rest := active
      rw [hbound, grow_bindings hactive hgrow]

theorem expand_of_speculate (stocked : plan.Stocked problem) (pending : plan.Pending)
    (limit : problem.platform.maxRecirculations < Leaf.recirculationLimit)
    (active : plan.leaves = leaf :: rest) (target_eq : t.target = leaf.target)
    (kind_ne : t.kind ≠ .recirculate)
    (plain : ¬(t.target = .switch ∧ (t.kind = .sketchUpdate ∨ t.kind = .sketchQuery)))
    {sp : Speculation} (h : t.speculate problem plan leaf.next plan.bindings = .ok (some sp))
    (supply : Supply) :
    ∃ e after, t.expand problem plan supply = .ok (e, after) ∧ e.candidates ≠ [] := by
  obtain ⟨ps, hps, h⟩ := bind_eq_ok.mp h
  obtain ⟨p, hadmitted, hfound⟩ := List.exists_of_findSome?_eq_some (Except.ok.inj h)
  have hp : p ∈ ps := (List.mem_filter.mp hadmitted).1
  have hoffers : t.offers problem plan leaf = .ok ps := (if_neg kind_ne).trans hps
  have htried : ∀ q ∈ ps.filter (admissible problem plan.bindings), ∀ supply,
      (t.realize plan leaf q supply).Succeeds := by
    intro q hq
    obtain ⟨hq, hadm⟩ := List.mem_filter.mp hq
    exact realize_succeeds active pending target_eq.symm limit hoffers hq hadm
  obtain ⟨⟨e, after⟩, hrealized⟩ := realizeAll_succeeds htried supply
  refine ⟨e, after, ?_, ?_⟩
  · rw [expand_active active target_eq kind_ne]
    exact bind_eq_ok.mpr ⟨ps, hps, hrealized⟩
  · rw [passDepsAt_active active target_eq] at hfound
    split at hfound
    · cases hfound
    · rename_i stages hprobe
      obtain ⟨resources, placed⟩ := stocked.place_of_foreseen (active ▸ List.mem_cons_self)
        (proposals_steady hps hp).1 plain hprobe
      exact candidates_ne_nil hrealized hadmitted placed

end Technique

/-- Speculation at the active leaf agrees with expansion. If a technique of the leaf's target has
candidates, it speculates on the decision of the first of them, stage and all, with the bindings
that this candidate adds. If it speculates on a decision, it has a candidate, unless it is to place
a sketch on the switch. -/
theorem speculation_agrees_with_expansion {kinds : List NodeKind} {root : NodeId} {g : Graph}
    {c : Config} {problem : Problem} {choices : List Choice} {plan : Plan} {leaf : Leaf}
    {rest : List Leaf} {t : Technique} (accepted : Graph.ofKinds kinds root = .ok g)
    (posed : Problem.ofConfig g c = .ok problem) (derived : Derives problem choices plan)
    (active : plan.leaves = leaf :: rest) (target_eq : t.target = leaf.target)
    (kind_ne : t.kind ≠ .recirculate) :
    (∀ supply after e first others, t.expand problem plan supply = .ok (e, after) →
      e.candidates = first :: others →
      ∃ sp, t.speculate problem plan leaf.next plan.bindings = .ok (some sp) ∧
        sp.decision = first.decision ∧ plan.bindings.extend sp.delta = .ok first.plan.bindings) ∧
    (¬(t.target = .switch ∧ (t.kind = .sketchUpdate ∨ t.kind = .sketchQuery)) →
      ∀ sp, t.speculate problem plan leaf.next plan.bindings = .ok (some sp) →
        ∀ supply, ∃ e after, t.expand problem plan supply = .ok (e, after) ∧ e.candidates ≠ []) := by
  have wp := Problem.wellPosed_of_ofConfig accepted posed
  have stocked := derived.stocked wp posed
  refine ⟨?_, ?_⟩
  · intro supply after e first others expanded made
    exact Technique.speculate_of_expand stocked (derived.lawful wp).placed.indexed active target_eq
      kind_ne expanded made
  · intro plain sp speculated supply
    exact Technique.expand_of_speculate stocked (derived.pending wp)
      (Problem.maxRecirculations_lt posed) active target_eq kind_ne plain speculated supply

/-- Behind a lookup, the hash unit of a new sketch is foreseen in the second stage and placed there;
and since a hand-over is speculated on, there is a candidate for it. -/
theorem new_sketch_is_foreseen :
    ∃ g problem plan leaf e after first sp, Graph.ofKinds lookupThenSketch 4 = .ok g ∧
      Problem.ofConfig g {} = .ok problem ∧
      Derives problem [(⟨.switch, .tableLookup⟩, 0), (⟨.switch, .allocate⟩, 0),
        (⟨.switch, .allocate⟩, 0)] plan ∧
      plan.leaves = [leaf] ∧
      (Technique.mk .switch .sketchUpdate).expand problem plan {} = .ok (e, after) ∧
      e.candidates = [first] ∧ first.decision.params.get? "stage" = some 1 ∧
      (Technique.mk .switch .sketchUpdate).speculate problem plan leaf.next plan.bindings =
        .ok (some sp) ∧
      sp.decision = first.decision ∧
      ∀ supply, ∃ e after, (Technique.mk .switch .sendToController).expand problem plan supply =
        .ok (e, after) ∧ e.candidates ≠ [] := by
  obtain ⟨g, accepted⟩ : ∃ g, Graph.ofKinds lookupThenSketch 4 = .ok g := ⟨_, rfl⟩
  obtain ⟨problem, posed, plan, derived, leaf, active, target_eq, e, after, expanded, first, made,
      stage, handOver, foreseen⟩ :
      ∃ problem, Problem.ofConfig g {} = .ok problem ∧ ∃ plan,
        Derives problem [(⟨.switch, .tableLookup⟩, 0), (⟨.switch, .allocate⟩, 0),
          (⟨.switch, .allocate⟩, 0)] plan ∧ ∃ leaf, plan.leaves = [leaf] ∧ .switch = leaf.target ∧
        ∃ e after, (Technique.mk .switch .sketchUpdate).expand problem plan {} = .ok (e, after) ∧
        ∃ first, e.candidates = [first] ∧ first.decision.params.get? "stage" = some 1 ∧
        ∃ sp, (Technique.mk .switch .sendToController).speculate problem plan leaf.next
          plan.bindings = .ok (some sp) := by
    cases accepted
    exact ⟨_, rfl, _, derives_of_replay rfl, _, rfl, rfl, _, _, rfl, _, rfl, rfl, _, rfl⟩
  have hsketch := speculation_agrees_with_expansion (t := ⟨.switch, .sketchUpdate⟩) accepted posed
    derived active target_eq (by decide)
  have hsend := speculation_agrees_with_expansion (t := ⟨.switch, .sendToController⟩) accepted posed
    derived active target_eq (by decide)
  obtain ⟨sp, speculated, hdecision, _⟩ := hsketch.1 {} after e first [] expanded made
  exact ⟨g, problem, plan, leaf, e, after, first, sp, accepted, posed, derived, active, expanded,
    made, stage, speculated, hdecision, hsend.2 (by decide) handOver foreseen⟩

end PacketPlan
