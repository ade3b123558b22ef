import Mathlib.Data.List.Forall2
import Mathlib.Data.List.Nodup
import Mathlib.Data.List.Perm.Subperm
import PacketPlan.Proofs.Plan.Step

/-! # Expansions by all techniques

Expansion has faults of its own, but none that condemns a plan. Every candidate has one label, the
technique and the position among its candidates, and there are no more candidates than the bound on
searches allows for.
-/
namespace PacketPlan
open Checked

theorem Bindings.extend_yields (b : Bindings) (delta : Delta) :
    (b.extend delta).Yields fun _ => True := by
  induction delta generalizing b with
  | nil => trivial
  | cons e delta ih =>
    have hbind : (b.bind e.1 e.2).Yields fun _ => True := by
      unfold Bindings.bind
      split
      · trivial
      · exact yields_ite (fun _ => trivial) (fun _ => rfl)
    apply hbind.bind
    intro b' _ _
    exact ih b'

namespace Plan

theorem markProcessed_yields (l : Ledger) (s : Site) (how : Option PlanNodeId) :
    (l.markProcessed s how).Yields fun _ => True := by
  unfold Ledger.markProcessed
  split
  · rfl
  · trivial

theorem attach_yields (plan : Plan) (m : Module) (children : List Leaf) :
    (plan.attach m children).Yields fun _ => True := by
  unfold attach
  split
  · rfl
  · refine yields_ite (fun _ => rfl) fun _ => yields_ite (fun _ => rfl) fun _ => ?_
    apply (markProcessed_yields _ _ _).bind
    intro _ _ _
    trivial

theorem skip_yields (plan : Plan) (children : List Leaf) :
    (plan.skip children).Yields fun _ => True := by
  unfold skip
  split
  · rfl
  · apply (markProcessed_yields _ _ _).bind
    intro _ _ _
    trivial

theorem recirculate_yields (plan : Plan) : plan.recirculate.Yields fun _ => True := by
  unfold recirculate
  split
  · rfl
  · have hagain : ∀ leaf : Leaf, leaf.recirculated.Yields fun _ => True :=
      fun leaf => yields_ite (fun _ => trivial) (fun _ => rfl)
    apply (hagain _).bind
    intro _ _ _
    trivial

end Plan

namespace Technique

theorem anyBlocked_yields (problem : Problem) (plan : Plan) (leaf : Leaf) (ts : List Technique) :
    (anyBlocked problem plan leaf ts).Yields fun _ => True := by
  induction ts with
  | nil => trivial
  | cons t ts ih =>
    apply (t.proposals_yields problem.graph plan.bindings leaf.next).bind
    intro ps _ _
    exact yields_ite (fun _ => trivial) (fun _ => ih)

theorem offers_yields (t : Technique) (problem : Problem) (plan : Plan) (leaf : Leaf) :
    (t.offers problem plan leaf).Yields fun ps => ps.length ≤ 2 := by
  apply yields_ite
  · intro _
    apply yields_ite
    · intro _
      apply (anyBlocked_yields problem plan leaf _).bind
      intro blocked _ _
      cases blocked <;> simp
    · intro _
      exact Nat.zero_le 2
  · intro _
    apply (t.proposals_yields problem.graph plan.bindings leaf.next).mono
    rintro ps _ (rfl | ⟨node, _, hfit⟩)
    · exact Nat.zero_le 2
    · exact hfit.1

theorem grow_yields (plan : Plan) (leaf : Leaf) (p : Proposal) (symbols : SymbolSource) :
    (grow plan leaf p symbols).Yields fun _ => True := by
  unfold grow
  simp only
  split
  · apply (plan.attach_yields _ _).bind
    intro _ _ _
    trivial
  · apply plan.recirculate_yields.bind
    intro _ _ _
    trivial
  · apply (plan.skip_yields _).bind
    intro _ _ _
    trivial

theorem realize_yields (t : Technique) (plan : Plan) (leaf : Leaf) (p : Proposal)
    (supply : Supply) : (t.realize plan leaf p supply).Yields fun _ => True := by
  unfold realize
  apply (Bindings.extend_yields _ _).bind
  intro bindings _ _
  split
  · trivial
  · apply (grow_yields _ _ _ _).bind
    intro _ _ _
    trivial

theorem realizeAll_yields (t : Technique) (plan : Plan) (leaf : Leaf) (ps : List Proposal)
    (supply : Supply) :
    (t.realizeAll plan leaf ps supply).Yields fun r => r.1.candidates.length ≤ ps.length := by
  induction ps generalizing supply with
  | nil => exact Nat.le_refl 0
  | cons p ps ih =>
    apply (t.realize_yields plan leaf p supply).bind
    rintro ⟨made, middle⟩ _ _
    apply (ih middle).bind
    rintro ⟨others, last⟩ _ hle
    cases made with
    | error refusal => exact Nat.le_succ_of_le hle
    | ok candidate => exact Nat.succ_le_succ hle

theorem expand_yields (t : Technique) (problem : Problem) (plan : Plan) (supply : Supply) :
    (t.expand problem plan supply).Yields fun r => r.1.candidates.length ≤
      if plan.activeLeaf?.any (·.target = t.target) then 2 else 0 := by
  unfold expand
  cases plan.activeLeaf? with
  | none => exact Nat.le_refl 0
  | some leaf =>
    simp only [Option.any_some, decide_eq_true_eq]
    split
    · apply (t.offers_yields problem plan leaf).bind
      intro ps _ hps
      apply (t.realizeAll_yields plan leaf _ supply).mono
      intro r _ hr
      have hfilter := List.length_filter_le (admissible problem plan.bindings) ps
      omega
    · exact Nat.le_refl 0

theorem expandAll_yields (problem : Problem) (plan : Plan) (ts : List Technique) (supply : Supply) :
    (expandAll problem plan ts supply).Yields fun r => r.1.candidates.length ≤
      2 * (ts.filter fun t => plan.activeLeaf?.any (·.target = t.target)).length := by
  induction ts generalizing supply with
  | nil => exact Nat.le_refl 0
  | cons t ts ih =>
    apply (t.expand_yields problem plan supply).bind
    rintro ⟨first, middle⟩ _ hfirst
    apply (ih middle).bind
    rintro ⟨others, last⟩ _ hothers
    dsimp only at hfirst hothers
    simp only [yields_ok, List.length_append, List.filter_cons]
    split
    · rename_i ht
      rw [if_pos ht] at hfirst
      rw [List.length_cons]
      omega
    · rename_i ht
      rw [if_neg ht] at hfirst
      omega

/-! ## Labels -/

def Offers (problem : Problem) (plan : Plan) (label : Choice) (c : Candidate) : Prop :=
  ∃ supply after e, label.1.expand problem plan supply = .ok (e, after) ∧
    e.candidates[label.2]? = some c

/-- The labels are those of the candidates, and no label of these techniques is missing. -/
structure Labels (problem : Problem) (plan : Plan) (ts : List Technique) (labels : List Choice)
    (candidates : List Candidate) : Prop where
  offered : List.Forall₂ (Offers problem plan) labels candidates
  known : ∀ label ∈ labels, label.1 ∈ ts
  distinct : ts.Nodup → labels.Nodup
  complete : ∀ t ∈ ts, ∃ supply after e, t.expand problem plan supply = .ok (e, after) ∧
    ∀ i < e.candidates.length, (t, i) ∈ labels

theorem exists_labels {problem : Problem} {plan : Plan} {ts : List Technique}
    {supply after : Supply}
    {e : Expansion} (h : expandAll problem plan ts supply = .ok (e, after)) :
    ∃ labels, Labels problem plan ts labels e.candidates := by
  induction ts generalizing supply after e with
  | nil =>
    cases h
    exact ⟨[], .nil, nofun, fun _ => List.nodup_nil, nofun⟩
  | cons t ts ih =>
    obtain ⟨⟨first, middle⟩, hfirst, h⟩ := bind_eq_ok.mp h
    obtain ⟨⟨others, last⟩, hothers, h⟩ := bind_eq_ok.mp h
    cases h
    obtain ⟨labels, hl⟩ := ih hothers
    have hown : ∀ label ∈ (List.range first.candidates.length).map (t, ·), label.1 = t := by
      intro label hlabel
      obtain ⟨i, _, rfl⟩ := List.mem_map.mp hlabel
      rfl
    refine ⟨(List.range first.candidates.length).map (t, ·) ++ labels, ?_, ?_, ?_, ?_⟩
    · refine List.rel_append ?_ hl.offered
      rw [List.forall₂_iff_get]
      refine ⟨by simp, ?_⟩
      intro i hi hi'
      refine ⟨supply, middle, first, by simpa using hfirst, ?_⟩
      simp [List.getElem?_eq_getElem hi']
    · intro label hlabel
      rcases List.mem_append.mp hlabel with hlabel | hlabel
      · rw [hown label hlabel]
        exact List.mem_cons_self
      · exact List.mem_cons_of_mem t (hl.known label hlabel)
    · intro hts
      obtain ⟨hnew, hts⟩ := List.nodup_cons.mp hts
      refine List.nodup_append.mpr ⟨?_, hl.distinct hts, ?_⟩
      · exact List.nodup_range.map fun i j he => (Prod.mk.inj he).2
      · rintro label hlabel label' hlabel' rfl
        exact hnew (hown label hlabel ▸ hl.known label hlabel')
    · intro u hu
      rcases List.mem_cons.mp hu with rfl | hu
      · refine ⟨supply, middle, first, hfirst, ?_⟩
        intro i hi
        exact List.mem_append_left _ (List.mem_map_of_mem (List.mem_range.mpr hi))
      · obtain ⟨s, s', e, he, hall⟩ := hl.complete u hu
        exact ⟨s, s', e, he, fun i hi => List.mem_append_right _ (hall i hi)⟩

end Technique

/-! ## All techniques of a problem -/

theorem Technique.nodup_catalog (t : Target) : (Technique.catalog t).Nodup := by
  cases t <;> decide

theorem Technique.target_of_mem_catalog {t : Target} {u : Technique} (h : u ∈ Technique.catalog t) :
    u.target = t := by
  obtain ⟨k, _, rfl⟩ := List.mem_map.mp h
  rfl

namespace Problem

theorem target_of_mem_catalog {problem : Problem} {t : Target} {u : Technique}
    (h : u ∈ problem.catalog t) : u.target = t := by
  unfold catalog at h
  split at h
  · exact Technique.target_of_mem_catalog h
  · cases h

theorem nodup_techniques (problem : Problem) : problem.techniques.Nodup := by
  unfold techniques
  rw [List.nodup_flatMap]
  constructor
  · intro t _
    unfold catalog
    split
    · exact Technique.nodup_catalog t
    · exact List.nodup_nil
  · have hall : problem.platform.enabled.toList.Nodup :=
      List.Nodup.filter _ (by decide : Target.all.Nodup)
    apply hall.imp
    intro t t' hne u hu hu'
    exact hne ((target_of_mem_catalog hu).symm.trans (target_of_mem_catalog hu'))

theorem length_techniques_on (problem : Problem) (t : Target) :
    (problem.techniques.filter fun u => t = u.target).length ≤ 16 := by
  have hsub : (problem.techniques.filter fun u => t = u.target).Subperm (Technique.catalog t) := by
    apply List.subperm_of_subset (problem.nodup_techniques.filter _)
    intro u hu
    obtain ⟨hu, ht⟩ := List.mem_filter.mp hu
    obtain ⟨t', _, hu⟩ := List.mem_flatMap.mp hu
    have he : t = t' := (of_decide_eq_true ht).trans (target_of_mem_catalog hu)
    subst he
    unfold catalog at hu
    split at hu
    · exact hu
    · cases hu
  have hle := hsub.length_le
  have hcat : (Technique.catalog t).length ≤ 16 := by cases t <;> decide
  omega

end Problem

theorem Technique.expandAll_length_le {problem : Problem} {plan : Plan} {supply after : Supply}
    {e : Expansion} (h : expandAll problem plan problem.techniques supply = .ok (e, after)) :
    e.candidates.length ≤ 32 := by
  have hle := (expandAll_yields problem plan problem.techniques supply).result h
  cases hl : plan.activeLeaf? with
  | none =>
    simp only [hl, Option.any_none, List.filter_false, List.length_nil] at hle
    omega
  | some leaf =>
    simp only [hl, Option.any_some] at hle
    have hbound := problem.length_techniques_on leaf.target
    omega

theorem Derives.candidate {problem : Problem} {choices : List Choice} {plan : Plan}
    (h : Derives problem choices plan) {label : Choice} (known : label.1 ∈ problem.techniques)
    {c : Candidate} (hc : Technique.Offers problem plan label c) :
    Derives problem (label :: choices) c.plan := by
  obtain ⟨supply, after, e, expanded, chosen⟩ := hc
  exact .expand h known expanded chosen

theorem Technique.exists_label {problem : Problem} {plan : Plan} {ts : List Technique}
    {supply after : Supply} {e : Expansion} (he : expandAll problem plan ts supply = .ok (e, after))
    {c : Candidate} (hc : c ∈ e.candidates) : ∃ label, label.1 ∈ ts ∧ Offers problem plan label c := by
  obtain ⟨labels, hl⟩ := exists_labels he
  obtain ⟨i, hi, rfl⟩ := List.getElem_of_mem hc
  obtain ⟨hlen, hoffers⟩ := List.forall₂_iff_get.mp hl.offered
  have hi' : i < labels.length := hlen ▸ hi
  exact ⟨_, hl.known _ (List.getElem_mem hi'), hoffers i hi' hi⟩

/-- No label is given twice, so there are no more candidates than possible labels. -/
theorem Technique.length_candidates_le {problem : Problem} {plan : Plan} {supply after : Supply}
    {e : Expansion} (he : expandAll problem plan problem.techniques supply = .ok (e, after))
    {possible : List Choice} (hall : ∀ label c, Offers problem plan label c → label ∈ possible) :
    e.candidates.length ≤ possible.length := by
  obtain ⟨labels, hl⟩ := exists_labels he
  have hsub : labels ⊆ possible := by
    intro label hlabel
    obtain ⟨i, hi, rfl⟩ := List.getElem_of_mem hlabel
    obtain ⟨hlength, hoffers⟩ := List.forall₂_iff_get.mp hl.offered
    exact hall _ _ (hoffers i hi (hlength ▸ hi))
  rw [← hl.offered.length_eq]
  exact (List.subperm_of_subset (hl.distinct problem.nodup_techniques) hsub).length_le

theorem Derives.expandAll {problem : Problem} {choices : List Choice} {plan : Plan}
    (h : Derives problem choices plan) {supply after : Supply} {e : Expansion}
    (he : Technique.expandAll problem plan problem.techniques supply = .ok (e, after))
    {c : Candidate} (hc : c ∈ e.candidates) : ∃ choices, Derives problem choices c.plan := by
  obtain ⟨label, known, hoffers⟩ := Technique.exists_label he hc
  exact ⟨label :: choices, h.candidate known hoffers⟩

theorem Technique.step_of_expandAll {problem : Problem} {plan : Plan} {supply after : Supply}
    {e : Expansion} (he : expandAll problem plan problem.techniques supply = .ok (e, after))
    {c : Candidate} (hc : c ∈ e.candidates) : plan.Step problem c.plan := by
  obtain ⟨label, known, _, _, _, expanded, chosen⟩ := exists_label he hc
  exact step_of_expand known expanded (List.mem_of_getElem? chosen)

end PacketPlan
