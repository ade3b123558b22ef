import PacketPlan.Proofs.Plan.Expansion

/-! # Numbers of plans

Every copy of a plan takes the next number and keeps it while it grows, and a copy that is refused
has used up its number all the same. So the candidates of an expansion have ascending numbers, none
of which was given out before, and their decisions name the plan and the leaf they start from.
-/
namespace PacketPlan

/-- The numbers ascend. None is below the first one given out or as high as the next one. -/
structure Ascends (first next : PlanId) (ids : List PlanId) : Prop where
  le : first ≤ next
  within : ∀ id ∈ ids, first ≤ id ∧ id < next
  ascending : ids.Pairwise (· < ·)

theorem ascends_nil {first next : PlanId} (h : first ≤ next) : Ascends first next [] :=
  ⟨h, fun _ hid => absurd hid List.not_mem_nil, .nil⟩

theorem ascends_singleton (first : PlanId) : Ascends first (first + 1) [first] where
  le := Nat.le_succ first
  within id hid := by
    cases List.mem_singleton.mp hid
    exact ⟨Nat.le_refl first, Nat.lt_succ_self first⟩
  ascending := List.pairwise_singleton _ _

theorem Ascends.append {first middle next : PlanId} {xs ys : List PlanId}
    (hx : Ascends first middle xs) (hy : Ascends middle next ys) :
    Ascends first next (xs ++ ys) where
  le := Nat.le_trans hx.le hy.le
  within id hid := by
    rcases List.mem_append.mp hid with hid | hid
    · obtain ⟨hfirst, hmiddle⟩ := hx.within id hid
      exact ⟨hfirst, Nat.lt_of_lt_of_le hmiddle hy.le⟩
    · obtain ⟨hmiddle, hnext⟩ := hy.within id hid
      exact ⟨Nat.le_trans hx.le hmiddle, hnext⟩
  ascending := by
    refine List.pairwise_append.mpr ⟨hx.ascending, hy.ascending, ?_⟩
    intro x hxs y hys
    exact Nat.lt_of_lt_of_le (hx.within x hxs).2 (hy.within y hys).1

structure Decision.IsAt (d : Decision) (plan : Plan) (leaf : Leaf) : Prop where
  plan_eq : d.plan = plan.id
  node_eq : d.node = leaf.next
  target_eq : d.target = leaf.target

structure Expansion.Numbered (e : Expansion) (plan : Plan) (leaf : Leaf) (supply after : Supply) :
    Prop where
  ascends : Ascends supply.nextPlan after.nextPlan (e.candidates.map fun c => c.plan.id)
  decided : ∀ c ∈ e.candidates, c.decision.IsAt plan leaf

theorem Expansion.numbered_empty (plan : Plan) (leaf : Leaf) (supply : Supply) :
    Expansion.Numbered {} plan leaf supply supply where
  ascends := ascends_nil (Nat.le_refl _)
  decided _ hc := absurd hc List.not_mem_nil

theorem Expansion.Numbered.append {first others : Expansion} {plan : Plan} {leaf : Leaf}
    {supply middle after : Supply} (hf : first.Numbered plan leaf supply middle)
    (ho : others.Numbered plan leaf middle after) (pruned : List Refusal) :
    Expansion.Numbered ⟨first.candidates ++ others.candidates, pruned⟩ plan leaf supply after where
  ascends := by
    rw [List.map_append]
    exact hf.ascends.append ho.ascends
  decided c hc := (List.mem_append.mp hc).elim (hf.decided c) (ho.decided c)

namespace Technique

theorem grow_id {plan child : Plan} {leaf : Leaf} {p : Proposal} {symbols symbols' : SymbolSource}
    (h : grow plan leaf p symbols = .ok (child, symbols')) : child.id = plan.id := by
  cases grows_of_grow h with
  | attach _ mints =>
    unfold mint at mints
    split at mints <;> cases mints <;> rfl
  | revisit | skip => rfl

theorem numbered_of_realize {t : Technique} {plan : Plan} {leaf : Leaf} {p : Proposal}
    {supply after : Supply} {made : Except Refusal Candidate} (htarget : leaf.target = t.target)
    (h : t.realize plan leaf p supply = .ok (made, after)) :
    Expansion.Numbered (Expansion.cons {} made) plan leaf supply after := by
  unfold realize at h
  obtain ⟨bindings, _, h⟩ := bind_eq_ok.mp h
  split at h
  · cases h
    exact ⟨ascends_nil (Nat.le_succ _), fun _ hc => absurd hc List.not_mem_nil⟩
  · obtain ⟨⟨child, symbols⟩, hgrow, h⟩ := bind_eq_ok.mp h
    cases h
    have hid : child.id = supply.nextPlan := grow_id hgrow
    refine ⟨?_, ?_⟩
    · have hone := ascends_singleton supply.nextPlan
      rwa [← hid] at hone ⊢
    · intro c hc
      cases List.mem_singleton.mp hc
      exact ⟨rfl, rfl, htarget.symm⟩

theorem numbered_of_realizeAll {t : Technique} {plan : Plan} {leaf : Leaf} {ps : List Proposal}
    {supply after : Supply} {e : Expansion} (htarget : leaf.target = t.target)
    (h : t.realizeAll plan leaf ps supply = .ok (e, after)) :
    e.Numbered plan leaf supply after := by
  induction ps generalizing supply after e with
  | nil =>
    cases h
    exact Expansion.numbered_empty plan leaf supply
  | cons p ps ih =>
    obtain ⟨⟨made, middle⟩, hmade, h⟩ := bind_eq_ok.mp h
    obtain ⟨⟨others, last⟩, hothers, h⟩ := bind_eq_ok.mp h
    cases h
    have hone := numbered_of_realize htarget hmade
    cases made with
    | error refusal => exact hone.append (ih hothers) _
    | ok candidate => exact hone.append (ih hothers) _

theorem numbered_of_expand {problem : Problem} {t : Technique} {plan : Plan} {leaf : Leaf}
    {supply after : Supply} {e : Expansion} (active : plan.activeLeaf? = some leaf)
    (h : t.expand problem plan supply = .ok (e, after)) : e.Numbered plan leaf supply after := by
  simp only [expand, active] at h
  split at h
  · rename_i htarget
    obtain ⟨ps, _, h⟩ := bind_eq_ok.mp h
    exact numbered_of_realizeAll htarget h
  · cases h
    exact Expansion.numbered_empty plan leaf supply

theorem numbered_of_expandAll {problem : Problem} {ts : List Technique} {plan : Plan} {leaf : Leaf}
    {supply after : Supply} {e : Expansion} (active : plan.activeLeaf? = some leaf)
    (h : expandAll problem plan ts supply = .ok (e, after)) :
    e.Numbered plan leaf supply after := by
  induction ts generalizing supply after e with
  | nil =>
    cases h
    exact Expansion.numbered_empty plan leaf supply
  | cons t ts ih =>
    obtain ⟨⟨first, middle⟩, hfirst, h⟩ := bind_eq_ok.mp h
    obtain ⟨⟨others, last⟩, hothers, h⟩ := bind_eq_ok.mp h
    cases h
    exact (numbered_of_expand active hfirst).append (ih hothers) _

end Technique

end PacketPlan
