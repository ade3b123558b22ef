import Mathlib.Data.List.Perm.Basic
import PacketPlan.Search.Frontier
import PacketPlan.Proofs.Checked
import PacketPlan.Proofs.Ordered

/-! # What a frontier holds

A frontier is seen as the list of its items with their scores. Insertion adds one item, taking the
best removes one with the greatest score, whatever the tie-break and the source, and ranking anew
loses none.
-/
namespace PacketPlan

instance : LawfulRanked Score where
  rank_injective {a b} h := by
    rcases a with ⟨keys⟩
    rcases b with ⟨keys'⟩
    exact congrArg Score.mk h

namespace Frontier
variable {α : Type}

def unpack (e : Score × List α) : List (Score × α) := e.2.map (e.1, ·)

def scored (f : Frontier α) : List (Score × α) := f.buckets.entries.flatMap unpack

theorem map_snd_unpack (e : Score × List α) : (unpack e).map Prod.snd = e.2 := by
  rw [unpack, List.map_map]
  exact List.map_id' e.2

theorem map_snd_scored (f : Frontier α) : f.scored.map Prod.snd = f.buckets.values.flatten := by
  rw [scored, List.map_flatMap, OrdMap.values, List.flatMap_def]
  simp only [map_snd_unpack]

theorem toList_perm (f : Frontier α) : f.toList.Perm (f.scored.map Prod.snd) := by
  rw [map_snd_scored]
  exact (List.reverse_perm _).flatten

theorem mem_toList {f : Frontier α} {a : α} : a ∈ f.toList ↔ ∃ s, (s, a) ∈ f.scored := by
  rw [f.toList_perm.mem_iff, List.mem_map]
  constructor
  · rintro ⟨x, hx, rfl⟩
    exact ⟨x.1, hx⟩
  · rintro ⟨s, hs⟩
    exact ⟨(s, a), hs, rfl⟩

structure Valid (f : Frontier α) : Prop where
  ascending : OrdMap.Ascending f.buckets.entries
  occupied : ∀ e ∈ f.buckets.entries, e.2 ≠ []
  counted : f.size = f.scored.length

theorem Valid.length_toList {f : Frontier α} (h : f.Valid) : f.toList.length = f.size := by
  rw [f.toList_perm.length_eq, List.length_map, h.counted]

theorem valid_empty : (∅ : Frontier α).Valid := ⟨List.Pairwise.nil, nofun, rfl⟩

theorem unpack_insertEntry {s : Score} {a : α} {xs : List (Score × List α)}
    (h : OrdMap.Ascending xs) :
    ((OrdMap.insertEntry s ((OrdMap.findEntry s xs).getD [] ++ [a]) xs).flatMap unpack).Perm
      ((s, a) :: xs.flatMap unpack) := by
  induction xs with
  | nil => exact .refl _
  | cons x xs ih =>
    rcases x with ⟨k, v⟩
    obtain ⟨hk, hxs⟩ := List.pairwise_cons.mp h
    simp only [OrdMap.insertEntry, OrdMap.findEntry]
    split
    · rename_i he
      subst he
      simp only [Option.getD_some, List.flatMap_cons, unpack, List.map_append, List.map_cons,
        List.map_nil, List.append_assoc, List.singleton_append]
      exact List.perm_middle
    · split
      · rename_i hbefore
        have hnone : OrdMap.findEntry s xs = none :=
          OrdMap.findEntry_of_before fun e he => lexBefore_trans hbefore (hk e he)
        simp only [hnone, Option.getD_none, List.nil_append, List.flatMap_cons, unpack,
          List.map_cons, List.map_nil, List.singleton_append]
        exact .refl _
      · simp only [List.flatMap_cons]
        exact ((ih hxs).append_left _).trans List.perm_middle

theorem scored_insert {f : Frontier α} (h : f.Valid) (s : Score) (a : α) :
    (f.insert s a).scored.Perm ((s, a) :: f.scored) :=
  unpack_insertEntry h.ascending

theorem Valid.insert {f : Frontier α} (h : f.Valid) (s : Score) (a : α) : (f.insert s a).Valid where
  ascending := h.ascending.insertEntry s _
  occupied := by
    intro e he
    rcases OrdMap.mem_insertEntry he with rfl | he
    · simp
    · exact h.occupied e he
  counted := by
    rw [(scored_insert h s a).length_eq, List.length_cons, ← h.counted]
    rfl

theorem toList_insert {f : Frontier α} (h : f.Valid) (s : Score) (a : α) :
    (f.insert s a).toList.Perm (a :: f.toList) := by
  have hscored := (scored_insert h s a).map Prod.snd
  exact ((f.insert s a).toList_perm.trans hscored).trans (f.toList_perm.symm.cons a)

theorem toList_insert_empty (s : Score) (a : α) :
    ((∅ : Frontier α).insert s a).toList = [a] := rfl

/-! ## Taking the best -/

theorem entries_of_best? {f : Frontier α} {s : Score} {tied : List α}
    (h : f.best? = some (s, tied)) :
    f.buckets.entries = f.buckets.entries.dropLast ++ [(s, tied)] := by
  obtain ⟨others, hothers⟩ := List.getLast?_eq_some_iff.mp h
  rw [hothers, List.dropLast_concat]

theorem scored_dropBest (f : Frontier α) (s : Score) (rest : List α) :
    (f.dropBest s rest).scored = f.buckets.entries.dropLast.flatMap unpack ++ rest.map (s, ·) := by
  unfold dropBest scored
  cases rest with
  | nil => simp
  | cons a rest => simp [unpack]

theorem scored_of_best? {f : Frontier α} {s : Score} {tied : List α}
    (h : f.best? = some (s, tied)) :
    f.scored = f.buckets.entries.dropLast.flatMap unpack ++ tied.map (s, ·) := by
  rw [scored, entries_of_best? h, List.flatMap_append, List.dropLast_concat]
  simp [unpack]

theorem Valid.dropBest {f : Frontier α} (h : f.Valid) {s : Score} {tied : List α}
    (hbest : f.best? = some (s, tied)) {index : Nat} (hi : index < tied.length) :
    (f.dropBest s (tied.eraseIdx index)).Valid := by
  have hentries := entries_of_best? hbest
  have hasc := h.ascending
  rw [hentries] at hasc
  obtain ⟨hothers, _, hacross⟩ := List.pairwise_append.mp hasc
  refine ⟨?_, ?_, ?_⟩
  · simp only [Frontier.dropBest]
    split
    · exact hothers
    · refine List.pairwise_append.mpr ⟨hothers, List.pairwise_singleton _ _, ?_⟩
      intro x hx y hy
      cases List.mem_singleton.mp hy
      exact hacross x hx (s, tied) (List.mem_singleton.mpr rfl)
  · intro e he
    simp only [Frontier.dropBest] at he
    split at he
    · exact h.occupied e (hentries ▸ List.mem_append_left _ he)
    · rename_i hrest
      rcases List.mem_append.mp he with he | he
      · exact h.occupied e (hentries ▸ List.mem_append_left _ he)
      · cases List.mem_singleton.mp he
        simpa using hrest
  · have hcount := h.counted
    rw [scored_of_best? hbest, List.length_append, List.length_map] at hcount
    rw [scored_dropBest, List.length_append, List.length_map, List.length_eraseIdx_of_lt hi]
    simp only [Frontier.dropBest, hcount]
    omega

section popBest
variable {γ : Type} [Random.Source γ]

/-- An item that was taken is missing afterwards, and no other item had a greater score. -/
theorem popBest_eq_some {f : Frontier α} (h : f.Valid) {t : TieBreak} {g g' : γ}
    {s : Score} {a : α} {f' : Frontier α} (hpop : f.popBest t g = some (s, a, f', g')) :
    f'.Valid ∧ f.scored.Perm ((s, a) :: f'.scored) ∧
      ∀ x ∈ f.scored, Ranked.before s x.1 = false := by
  obtain ⟨⟨s', tied⟩, hbest, hpop⟩ := Option.bind_eq_some_iff.mp hpop
  obtain ⟨⟨s'', a', f''⟩, htake, hpop⟩ := Option.bind_eq_some_iff.mp hpop
  cases hpop
  obtain ⟨⟨s', tied'⟩, hbest', htake⟩ := Option.bind_eq_some_iff.mp htake
  obtain ⟨a, ha, htake⟩ := Option.bind_eq_some_iff.mp htake
  rw [hbest] at hbest'
  cases hbest'
  cases htake
  obtain ⟨hi, ha⟩ := List.getElem?_eq_some_iff.mp ha
  refine ⟨h.dropBest hbest hi, ?_, ?_⟩
  · rw [scored_of_best? hbest, scored_dropBest]
    have hperm := (List.getElem_cons_eraseIdx_perm hi).map (s, ·)
    rw [ha] at hperm
    exact (hperm.symm.append_left _).trans List.perm_middle
  · intro x hx
    rw [scored_of_best? hbest] at hx
    have hasc := h.ascending
    rw [entries_of_best? hbest] at hasc
    rcases List.mem_append.mp hx with hx | hx
    · obtain ⟨e, he, hx⟩ := List.mem_flatMap.mp hx
      obtain ⟨_, _, rfl⟩ := List.mem_map.mp hx
      have hbefore := (List.pairwise_append.mp hasc).2.2 e he _ (List.mem_singleton.mpr rfl)
      exact OrdMap.before_asymm hbefore
    · obtain ⟨_, _, rfl⟩ := List.mem_map.mp hx
      exact lexBefore_irrefl _

theorem toList_of_taken {f left : Frontier α} {s : Score} {a : α}
    (h : f.scored.Perm ((s, a) :: left.scored)) : f.toList.Perm (a :: left.toList) :=
  (f.toList_perm.trans (h.map Prod.snd)).trans (left.toList_perm.symm.cons a)

theorem popBest_eq_none {f : Frontier α} (h : f.Valid) {t : TieBreak} {g : γ}
    (hpop : f.popBest t g = none) : f.toList = [] := by
  cases hbest : f.best? with
  | none =>
    have hentries : f.buckets.entries = [] := List.getLast?_eq_none_iff.mp hbest
    rw [toList, OrdMap.values, hentries]
    rfl
  | some e =>
    rcases e with ⟨s, tied⟩
    have htied : tied ≠ [] := h.occupied (s, tied) (List.mem_of_getLast? hbest)
    have hi := t.pick_lt (List.length_pos_iff.mpr htied) g
    simp [popBest, takeBest, hbest, List.getElem?_eq_getElem hi] at hpop

end popBest

/-! ## Ranking anew -/

/-- Whatever relates scores to items relates each item to its own. -/
def Ranks (f : Frontier α) (R : Score → α → Prop) : Prop := ∀ x ∈ f.scored, R x.1 x.2

theorem Ranks.insert {f : Frontier α} {R : Score → α → Prop} (h : f.Ranks R) (hf : f.Valid)
    {s : Score} {a : α} (ha : R s a) : (f.insert s a).Ranks R := by
  intro x hx
  rcases List.mem_cons.mp ((scored_insert hf s a).mem_iff.mp hx) with rfl | hx
  · exact ha
  · exact h x hx

/-- Ranking anew keeps the items that are there already, each under its score, and gives the others
the scores they have now. -/
theorem rebuildFrom_eq_ok {score : α → Checked Score} {f f' : Frontier α} {xs : List α}
    (hf : f.Valid) (h : rebuildFrom score f xs = .ok f') :
    f'.Valid ∧ f'.toList.Perm (xs ++ f.toList) ∧
      f'.Ranks fun s a => (s, a) ∈ f.scored ∨ score a = .ok s := by
  induction xs generalizing f with
  | nil =>
    cases h
    exact ⟨hf, .refl _, fun _ hx => .inl hx⟩
  | cons a xs ih =>
    obtain ⟨s, hs, h⟩ := bind_eq_ok.mp h
    obtain ⟨hvalid, hperm, hranks⟩ := ih (hf.insert s a) h
    have hmoved := ((toList_insert hf s a).append_left xs).trans List.perm_middle
    refine ⟨hvalid, hperm.trans hmoved, ?_⟩
    intro x hx
    rcases hranks x hx with hold | hnew
    · rcases List.mem_cons.mp ((scored_insert hf s a).mem_iff.mp hold) with he | hold
      · cases he
        exact .inr hs
      · exact .inl hold
    · exact .inr hnew

theorem rebuild_eq_ok {score : α → Checked Score} {f f' : Frontier α}
    (h : f.rebuild score = .ok f') :
    f'.Valid ∧ f'.toList.Perm f.toList ∧ f'.Ranks fun s a => score a = .ok s := by
  obtain ⟨hvalid, hperm, hranks⟩ := rebuildFrom_eq_ok valid_empty h
  refine ⟨hvalid, hperm.trans ?_, ?_⟩
  · have hnil : (∅ : Frontier α).toList = [] := rfl
    rw [hnil, List.append_nil, ← map_snd_scored]
    exact f.toList_perm.symm
  · intro x hx
    rcases hranks x hx with hnone | hnew
    · exact absurd hnone List.not_mem_nil
    · exact hnew

theorem rebuildFrom_yields {score : α → Checked Score}
    (hscore : ∀ a, (score a).Yields fun _ => True) (f : Frontier α) (xs : List α) :
    (rebuildFrom score f xs).Yields fun _ => True := by
  induction xs generalizing f with
  | nil => trivial
  | cons a xs ih =>
    apply (hscore a).bind
    intro s _ _
    exact ih (f.insert s a)

theorem rebuild_yields {score : α → Checked Score} {R : Score → α → Prop}
    (hscore : ∀ a, (score a).Yields fun s => R s a) (f : Frontier α) :
    (f.rebuild score).Yields fun f' => f'.Valid ∧ f'.Ranks R ∧ f'.toList.Perm f.toList := by
  have hquiet := fun a => (hscore a).mono fun _ _ _ => trivial
  apply (rebuildFrom_yields hquiet ∅ f.buckets.values.flatten).mono
  intro f' hf' _
  obtain ⟨hvalid, hperm, hranks⟩ := rebuild_eq_ok hf'
  exact ⟨hvalid, fun x hx => (hscore x.2).result (hranks x hx), hperm⟩

/-! ## The items in order -/

theorem Valid.toList_pairwise {f : Frontier α} (h : f.Valid) {R : Score → α → Prop}
    (hr : f.Ranks R) :
    f.toList.Pairwise fun a b => ∃ s t, R s a ∧ R t b ∧ Ranked.before s t = false := by
  have hbucket : ∀ e ∈ f.buckets.entries, ∀ a ∈ e.2, R e.1 a := by
    intro e he a ha
    exact hr (e.1, a) (List.mem_flatMap.mpr ⟨e, he, List.mem_map_of_mem ha⟩)
  rw [toList, List.pairwise_flatten]
  constructor
  · intro tied htied
    obtain ⟨e, he, rfl⟩ := List.mem_map.mp (List.mem_reverse.mp htied)
    refine List.pairwise_of_forall_mem_list ?_
    intro a ha b hb
    exact ⟨e.1, e.1, hbucket e he a ha, hbucket e he b hb, lexBefore_irrefl _⟩
  · rw [List.pairwise_reverse, OrdMap.values, List.pairwise_map]
    refine h.ascending.imp_of_mem ?_
    intro e e' he he' hbefore a ha b hb
    refine ⟨e'.1, e.1, hbucket e' he' a ha, hbucket e he b hb, ?_⟩
    exact OrdMap.before_asymm hbefore

end Frontier

end PacketPlan
