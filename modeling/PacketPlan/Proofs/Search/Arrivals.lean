import Mathlib.Data.List.Nodup
import PacketPlan.Proofs.Search.Frontier

/-! # A frontier and its arrivals

A frontier is compared with a plain list of what has arrived and is still there, each item with its
score. Insertion appends to the list, taking the best item strikes one of those with the greatest
score, and ranking anew lists all items again, the worst ones first, under their new scores.
Whatever is done, the frontier is the one that would have come of inserting the list from left to
right. Its counter, its buckets and the order in which it gives its items out can all be read off
the list.
-/
namespace PacketPlan

section order
variable {κ : Type} [Ranked κ] [LawfulRanked κ] {a b c : κ}

theorem Ranked.eq_of_not_before (hab : Ranked.before a b = false)
    (hba : Ranked.before b a = false) : a = b := by
  by_contra hne
  rcases lexBefore_total (mt LawfulRanked.rank_injective hne) with h | h
  · exact absurd (h.symm.trans hab) nofun
  · exact absurd (h.symm.trans hba) nofun

theorem Ranked.not_before_trans (hba : Ranked.before b a = false)
    (hcb : Ranked.before c b = false) : Ranked.before c a = false := by
  rw [← Bool.not_eq_true]
  intro hca
  cases hab : Ranked.before a b with
  | true => exact absurd ((lexBefore_trans hca hab).symm.trans hcb) nofun
  | false =>
    rw [eq_of_not_before hab hba] at hca
    exact absurd (hca.symm.trans hcb) nofun

end order

theorem OrdMap.Ascending.eq_of_mem_iff {κ β : Type} [Ranked κ] {xs ys : List (κ × β)}
    (hx : Ascending xs) (hy : Ascending ys) (h : ∀ e, e ∈ xs ↔ e ∈ ys) : xs = ys := by
  have hperm := (List.perm_ext_iff_of_nodup hx.nodup_keys.of_map hy.nodup_keys.of_map).mpr h
  refine hperm.eq_of_pairwise ?_ hx hy
  intro e e' _ _ hbefore hafter
  rw [before_asymm hbefore] at hafter
  cases hafter

/-- Items with their scores, in the order in which they came. -/
abbrev Arrivals (α : Type) := List (Score × α)

namespace Arrivals
variable {α : Type}

def under (q : Arrivals α) (s : Score) : Arrivals α := q.filter fun x => x.1 = s

/-- Strikes the item that stands at a position among those with its score. -/
def strike (s : Score) : Arrivals α → Nat → Arrivals α
  | [], _ => []
  | x :: q, i =>
    if x.1 = s then
      if i = 0 then q else x :: strike s q (i - 1)
    else x :: strike s q i

/-- The worst ones first; equal ones stay in order. -/
def ascending (q : Arrivals α) : Arrivals α := q.mergeSort fun x y => !Ranked.before y.1 x.1

def rescore (score : α → Score) (q : Arrivals α) : Arrivals α := q.map fun x => (score x.2, x.2)

theorem under_append (q r : Arrivals α) (s : Score) : (q ++ r).under s = q.under s ++ r.under s :=
  List.filter_append q r

theorem under_cons_self (s : Score) (a : α) (q : Arrivals α) :
    under ((s, a) :: q) s = (s, a) :: q.under s :=
  List.filter_cons_of_pos (decide_eq_true rfl)

theorem under_cons_ne {x : Score × α} {s : Score} (h : x.1 ≠ s) (q : Arrivals α) :
    under (x :: q) s = q.under s :=
  List.filter_cons_of_neg (by simpa using h)

theorem mem_under {q : Arrivals α} {s : Score} {x : Score × α} :
    x ∈ q.under s ↔ x ∈ q ∧ x.1 = s := by
  rw [under, List.mem_filter, decide_eq_true_eq]

theorem strike_eq {q : Arrivals α} {s : Score} {i : Nat} {x : Score × α}
    (h : (q.under s)[i]? = some x) :
    ∃ l r, q = l ++ x :: r ∧ q.strike s i = l ++ r ∧ (l.under s).length = i := by
  induction q generalizing i with
  | nil => cases h
  | cons y q ih =>
    by_cases hy : y.1 = s
    · rcases y with ⟨t, a⟩
      obtain rfl : t = s := hy
      rw [under_cons_self] at h
      cases i with
      | zero =>
        cases h
        exact ⟨[], q, rfl, by simp [strike], rfl⟩
      | succ i =>
        obtain ⟨l, r, rfl, hstrike, hlength⟩ := ih h
        refine ⟨(t, a) :: l, r, rfl, ?_, ?_⟩
        · simp [strike, hstrike]
        · rw [under_cons_self, List.length_cons, hlength]
    · rw [under_cons_ne hy] at h
      obtain ⟨l, r, rfl, hstrike, hlength⟩ := ih h
      refine ⟨y :: l, r, rfl, ?_, ?_⟩
      · rw [strike, if_neg hy, hstrike, List.cons_append]
      · rw [under_cons_ne hy, hlength]

/-! ## Lists in order -/

def Ascends (q : Arrivals α) : Prop := q.Pairwise fun x y => Ranked.before y.1 x.1 = false

theorem ascends_iff {q : Arrivals α} :
    q.Ascends ↔ q.Pairwise fun x y => (!Ranked.before y.1 x.1) = true := by
  simp only [Ascends, Bool.not_eq_true']

theorem notBefore_trans (x y z : Score × α) (hxy : (!Ranked.before y.1 x.1) = true)
    (hyz : (!Ranked.before z.1 y.1) = true) : (!Ranked.before z.1 x.1) = true := by
  rw [Bool.not_eq_true'] at hxy hyz ⊢
  exact Ranked.not_before_trans hxy hyz

theorem notBefore_total (x y : Score × α) :
    (!Ranked.before y.1 x.1 || !Ranked.before x.1 y.1) = true := by
  cases hxy : Ranked.before x.1 y.1 with
  | false => simp
  | true => simp [OrdMap.before_asymm hxy]

theorem ascending_perm (q : Arrivals α) : q.ascending.Perm q := List.mergeSort_perm q _

theorem ascends_ascending (q : Arrivals α) : q.ascending.Ascends :=
  ascends_iff.mpr (List.pairwise_mergeSort notBefore_trans notBefore_total q)

theorem ascends_under (q : Arrivals α) (s : Score) : (q.under s).Ascends := by
  refine List.pairwise_of_forall_mem_list ?_
  intro x hx y hy
  rw [(mem_under.mp hx).2, (mem_under.mp hy).2]
  exact lexBefore_irrefl _

/-- Sorting keeps equal ones in order. -/
theorem under_ascending (q : Arrivals α) (s : Score) : q.ascending.under s = q.under s := by
  have hsub : (q.under s).Sublist q.ascending :=
    List.sublist_mergeSort notBefore_trans notBefore_total (ascends_iff.mp (ascends_under q s))
      List.filter_sublist
  have hkept : ((q.under s).under s).Sublist (q.ascending.under s) := hsub.filter _
  have hunder : (q.under s).under s = q.under s := by simp [under]
  rw [hunder] at hkept
  exact (hkept.eq_of_length ((ascending_perm q).filter _).length_eq.symm).symm

theorem mem_of_under {q r : Arrivals α} (h : ∀ s, q.under s = r.under s) {x : Score × α}
    (hx : x ∈ q) : x ∈ r := by
  have hunder : x ∈ q.under x.1 := mem_under.mpr ⟨hx, rfl⟩
  rw [h] at hunder
  exact (mem_under.mp hunder).1

theorem Ascends.not_before_head {x y : Score × α} {q : Arrivals α} (h : Ascends (x :: q))
    (hy : y ∈ x :: q) : Ranked.before y.1 x.1 = false := by
  rcases List.mem_cons.mp hy with rfl | hy
  · exact lexBefore_irrefl _
  · exact (List.pairwise_cons.mp h).1 y hy

/-- A list in order is known from its items of each score. -/
theorem Ascends.eq_of_under {q r : Arrivals α} (hq : q.Ascends) (hr : r.Ascends)
    (h : ∀ s, q.under s = r.under s) : q = r := by
  induction q generalizing r with
  | nil =>
    cases r with
    | nil => rfl
    | cons y r =>
      exact absurd (mem_of_under (fun s => (h s).symm) List.mem_cons_self) List.not_mem_nil
  | cons x q ih =>
    cases r with
    | nil => exact absurd (mem_of_under h List.mem_cons_self) List.not_mem_nil
    | cons y r =>
      have hyx := hq.not_before_head (mem_of_under (fun s => (h s).symm) List.mem_cons_self)
      have hxy := hr.not_before_head (mem_of_under h List.mem_cons_self)
      rcases x with ⟨s, a⟩
      rcases y with ⟨t, b⟩
      obtain rfl : s = t := Ranked.eq_of_not_before hxy hyx
      have hhead := h s
      rw [under_cons_self, under_cons_self] at hhead
      obtain ⟨hab, htail⟩ := List.cons.inj hhead
      rw [hab]
      refine congrArg _ (ih hq.of_cons hr.of_cons ?_)
      intro u
      by_cases hu : s = u
      · rw [← hu, htail]
      · have hrest := h u
        rwa [under_cons_ne hu, under_cons_ne hu] at hrest

def best? (q : Arrivals α) : Option Score := q.ascending.getLast?.map Prod.fst

end Arrivals

/-! ## What the frontier holds -/

namespace Frontier
variable {α : Type} {f f' : Frontier α} {q r : Arrivals α}

open Arrivals

theorem under_unpack_of_ne {s : Score} {e : Score × List α} (h : e.1 ≠ s) :
    under (unpack e) s = [] := by
  refine List.filter_eq_nil_iff.mpr ?_
  intro x hx
  obtain ⟨a, _, rfl⟩ := List.mem_map.mp hx
  simpa using h

theorem under_unpack_self (e : Score × List α) : under (unpack e) e.1 = unpack e := by
  refine List.filter_eq_self.mpr ?_
  intro x hx
  obtain ⟨a, _, rfl⟩ := List.mem_map.mp hx
  exact decide_eq_true rfl

theorem under_entries {xs : List (Score × List α)} (h : OrdMap.Ascending xs) (s : Score) :
    under (xs.flatMap unpack) s = unpack (s, (OrdMap.findEntry s xs).getD []) := by
  induction xs with
  | nil => rfl
  | cons e xs ih =>
    obtain ⟨he, hxs⟩ := List.pairwise_cons.mp h
    rw [List.flatMap_cons, under_append, ih hxs]
    simp only [OrdMap.findEntry]
    split
    · rename_i hs
      subst hs
      rw [OrdMap.findEntry_of_before he, under_unpack_self]
      exact List.append_nil _
    · rename_i hs
      rw [under_unpack_of_ne (Ne.symm hs), List.nil_append]

/-- A score has one bucket, so the order of the buckets is of no account to it. -/
theorem under_entries_reverse {xs : List (Score × List α)} (h : OrdMap.Ascending xs) (s : Score) :
    under (xs.reverse.flatMap unpack) s = under (xs.flatMap unpack) s := by
  induction xs with
  | nil => rfl
  | cons e xs ih =>
    obtain ⟨he, hxs⟩ := List.pairwise_cons.mp h
    rw [List.reverse_cons, List.flatMap_append, List.flatMap_singleton, List.flatMap_cons,
      under_append, under_append, ih hxs]
    by_cases hs : e.1 = s
    · subst hs
      have hnone : under (xs.flatMap unpack) e.1 = [] := by
        rw [under_entries hxs, OrdMap.findEntry_of_before he]
        rfl
      rw [hnone, List.nil_append, List.append_nil]
    · rw [under_unpack_of_ne hs, List.nil_append, List.append_nil]

theorem Valid.under_scored (h : f.Valid) (s : Score) :
    under f.scored s = unpack (s, (f.buckets.get? s).getD []) :=
  under_entries h.ascending s

theorem Valid.ascends_scored (h : f.Valid) : Ascends f.scored := by
  refine List.pairwise_flatMap.mpr ⟨?_, ?_⟩
  · intro e _
    rw [← under_unpack_self]
    exact ascends_under (unpack e) e.1
  · refine h.ascending.imp ?_
    intro e e' hbefore x hx y hy
    obtain ⟨a, _, rfl⟩ := List.mem_map.mp hx
    obtain ⟨b, _, rfl⟩ := List.mem_map.mp hy
    exact OrdMap.before_asymm hbefore

/-- The frontier holds, for each score, what the list has with that score. -/
structure Holds (f : Frontier α) (q : Arrivals α) : Prop where
  valid : f.Valid
  under_eq : ∀ s, under f.scored s = q.under s

theorem holds_empty : (∅ : Frontier α).Holds [] := ⟨valid_empty, fun _ => rfl⟩

theorem Holds.scored_eq (h : f.Holds q) : f.scored = q.ascending :=
  h.valid.ascends_scored.eq_of_under (ascends_ascending q)
    fun s => (h.under_eq s).trans (under_ascending q s).symm

theorem Holds.scored_perm (h : f.Holds q) : f.scored.Perm q := by
  rw [h.scored_eq]
  exact ascending_perm q

theorem Holds.size_eq (h : f.Holds q) : f.size = q.length := by
  rw [h.valid.counted, h.scored_perm.length_eq]

theorem Holds.ascending (h : f.Holds q) : f.Holds q.ascending :=
  ⟨h.valid, fun s => (h.under_eq s).trans (under_ascending q s).symm⟩

theorem Valid.mem_entries_iff (h : f.Valid) {e : Score × List α} :
    e ∈ f.buckets.entries ↔ e.2 ≠ [] ∧ under f.scored e.1 = unpack e := by
  rcases e with ⟨s, tied⟩
  rw [h.under_scored]
  constructor
  · intro he
    have hfound : f.buckets.get? s = some tied := h.ascending.findEntry_eq_some_iff.mpr he
    exact ⟨h.occupied _ he, by rw [hfound, Option.getD_some]⟩
  · rintro ⟨hne, hunder⟩
    have hsame := congrArg (List.map Prod.snd) hunder
    rw [map_snd_unpack, map_snd_unpack] at hsame
    cases hfound : f.buckets.get? s with
    | none => rw [hfound] at hsame; exact absurd hsame.symm hne
    | some found =>
      rw [hfound] at hsame
      obtain rfl : found = tied := hsame
      exact OrdMap.mem_of_findEntry hfound

theorem Holds.unique (hf : f.Holds q) (hf' : f'.Holds q) : f = f' := by
  have hscored : f.scored = f'.scored := hf.scored_eq.trans hf'.scored_eq.symm
  have hentries : f.buckets.entries = f'.buckets.entries := by
    refine hf.valid.ascending.eq_of_mem_iff hf'.valid.ascending ?_
    intro e
    rw [hf.valid.mem_entries_iff, hf'.valid.mem_entries_iff, hscored]
  have hsize : f.size = f'.size := hf.size_eq.trans hf'.size_eq.symm
  rcases f with ⟨⟨entries⟩, size⟩
  rcases f' with ⟨⟨entries'⟩, size'⟩
  cases hentries
  cases hsize
  rfl

theorem Holds.insert (h : f.Holds q) (s : Score) (a : α) : (f.insert s a).Holds (q ++ [(s, a)]) := by
  refine ⟨h.valid.insert s a, ?_⟩
  intro t
  rw [(h.valid.insert s a).under_scored, under_append, ← h.under_eq, h.valid.under_scored,
    Frontier.insert, OrdMap.get?_insert]
  by_cases ht : t = s
  · subst ht
    rw [if_pos rfl, under_cons_self, Option.getD_some, unpack, List.map_append]
    rfl
  · rw [if_neg ht, under_cons_ne (Ne.symm ht)]
    exact (List.append_nil _).symm

/-- What comes of inserting a list, from left to right. -/
def filled (q : Arrivals α) : Frontier α := q.foldl (fun f x => f.insert x.1 x.2) ∅

theorem Holds.foldl (h : f.Holds q) (r : Arrivals α) :
    (r.foldl (fun f x => f.insert x.1 x.2) f).Holds (q ++ r) := by
  induction r generalizing f q with
  | nil => rwa [List.append_nil]
  | cons x r ih =>
    have hrest := ih (h.insert x.1 x.2)
    rwa [List.append_assoc] at hrest

theorem holds_filled (q : Arrivals α) : (filled q).Holds q := holds_empty.foldl q

theorem Holds.eq_filled (h : f.Holds q) : f = filled q := h.unique (holds_filled q)

theorem Holds.rebuild (h : f.Holds q) (score : α → Score) :
    f.rebuild (fun a => .ok (score a)) = .ok (filled (q.ascending.rescore score)) := by
  have hfold : ∀ (xs : List α) (start : Frontier α),
      rebuildFrom (fun a => .ok (score a)) start xs =
        .ok ((xs.map fun a => (score a, a)).foldl (fun f x => f.insert x.1 x.2) start) := by
    intro xs
    induction xs with
    | nil => exact fun _ => rfl
    | cons a xs ih => exact fun start => ih (start.insert (score a) a)
  rw [Frontier.rebuild, hfold, ← map_snd_scored, h.scored_eq, List.map_map]
  rfl

theorem Holds.filled_rescore (h : f.Holds q) {score : α → Score}
    (hscore : ∀ x ∈ q, score x.2 = x.1) : filled (q.ascending.rescore score) = f := by
  have hsame : q.ascending.rescore score = q.ascending := by
    refine (List.map_congr_left ?_).trans (List.map_id _)
    intro x hx
    rw [hscore x ((ascending_perm q).mem_iff.mp hx)]
    rfl
  rw [hsame]
  exact h.ascending.eq_filled.symm

/-- All items are listed, the best ones first and equal ones in order. -/
theorem Holds.exists_listed (h : f.Holds q) :
    ∃ listed : Arrivals α, f.toList = listed.map Prod.snd ∧ listed.Perm q ∧
      (listed.Pairwise fun x y => Ranked.before x.1 y.1 = false) ∧
      ∀ s, listed.under s = q.under s := by
  refine ⟨f.buckets.entries.reverse.flatMap unpack, ?_, ?_, ?_, ?_⟩
  · rw [toList, OrdMap.values, ← List.map_reverse, List.map_flatMap, List.flatMap_def]
    simp only [map_snd_unpack]
  · exact ((List.reverse_perm _).flatMap_right _).trans h.scored_perm
  · refine List.pairwise_flatMap.mpr ⟨?_, ?_⟩
    · intro e _
      refine List.pairwise_of_forall_mem_list ?_
      intro x hx y hy
      obtain ⟨a, _, rfl⟩ := List.mem_map.mp hx
      obtain ⟨b, _, rfl⟩ := List.mem_map.mp hy
      exact lexBefore_irrefl _
    · refine List.pairwise_reverse.mpr (h.valid.ascending.imp ?_)
      intro e e' hbefore x hx y hy
      obtain ⟨a, _, rfl⟩ := List.mem_map.mp hx
      obtain ⟨b, _, rfl⟩ := List.mem_map.mp hy
      exact OrdMap.before_asymm hbefore
  · intro s
    rw [under_entries_reverse h.valid.ascending]
    exact h.under_eq s

/-! ## Taking one of the best -/

abbrev Pick := (others : Nat) → Fin (others + 1)

def popAt (f : Frontier α) (pick : Pick) : Option (Score × α × Frontier α) := do
  let (_, tied) ← f.best?
  f.takeBest (pick (tied.length - 1))

theorem Holds.best?_eq (h : f.Holds q) : f.bestScore? = q.best? := by
  rw [Arrivals.best?, ← h.scored_eq, bestScore?]
  cases hbest : f.best? with
  | none =>
    have hentries : f.buckets.entries = [] := List.getLast?_eq_none_iff.mp hbest
    rw [scored, hentries]
    rfl
  | some e =>
    have htied : e.2 ≠ [] := h.valid.occupied e (List.mem_of_getLast? hbest)
    rw [scored_of_best? hbest, List.getLast?_append_of_ne_nil _ (by simpa using htied)]
    simp [List.getLast?_map, List.getLast?_eq_some_getLast htied]

theorem Holds.under_best (h : f.Holds q) {s : Score} {tied : List α}
    (hbest : f.best? = some (s, tied)) : q.under s = unpack (s, tied) := by
  rw [← h.under_eq]
  exact (h.valid.mem_entries_iff.mp (List.mem_of_getLast? hbest)).2

theorem Holds.not_before_best (h : f.Holds q) {s : Score} {tied : List α}
    (hbest : f.best? = some (s, tied)) {x : Score × α} (hx : x ∈ q) :
    Ranked.before s x.1 = false := by
  obtain ⟨a, ha⟩ := List.exists_mem_of_ne_nil tied
    (h.valid.occupied (s, tied) (List.mem_of_getLast? hbest))
  have hasc := h.valid.ascends_scored
  rw [← h.scored_perm.mem_iff] at hx
  rw [scored_of_best? hbest] at hasc hx
  rcases List.mem_append.mp hx with hx | hx
  · exact (List.pairwise_append.mp hasc).2.2 x hx (s, a) (List.mem_map_of_mem ha)
  · obtain ⟨b, _, rfl⟩ := List.mem_map.mp hx
    exact lexBefore_irrefl _

theorem Holds.dropBest {l r : Arrivals α} {s : Score} {a : α} (h : f.Holds (l ++ (s, a) :: r))
    {tied : List α} (hbest : f.best? = some (s, tied)) (hi : (l.under s).length < tied.length) :
    (f.dropBest s (tied.eraseIdx (l.under s).length)).Holds (l ++ r) := by
  refine ⟨h.valid.dropBest hbest hi, ?_⟩
  intro t
  have hheld := h.under_eq t
  rw [scored_of_best? hbest, under_append, under_append] at hheld
  rw [scored_dropBest, under_append, under_append]
  by_cases ht : s = t
  · subst ht
    have htied := h.under_best hbest
    rw [under_append, under_cons_self] at htied
    have hothers : under (f.buckets.entries.dropLast.flatMap unpack) s = [] := by
      rw [under_cons_self, htied] at hheld
      exact List.append_left_eq_self.mp
        ((congrArg _ (under_unpack_self (s, tied)).symm).trans hheld)
    have hleft := under_unpack_self (s, tied.eraseIdx (l.under s).length)
    rw [hothers, List.nil_append]
    calc under ((tied.eraseIdx (l.under s).length).map (s, ·)) s
      _ = (tied.eraseIdx (l.under s).length).map (s, ·) := hleft
      _ = (unpack (s, tied)).eraseIdx (l.under s).length := (List.eraseIdx_map ..).symm
      _ = l.under s ++ r.under s := by
        rw [← htied, List.eraseIdx_append_of_length_le (Nat.le_refl _), Nat.sub_self]
        rfl
  · have htied : under (tied.map (s, ·)) t = [] := under_unpack_of_ne (e := (s, tied)) ht
    have hleft : under ((tied.eraseIdx (l.under s).length).map (s, ·)) t = [] :=
      under_unpack_of_ne (e := (s, tied.eraseIdx (l.under s).length)) ht
    rw [htied, under_cons_ne ht] at hheld
    rw [hleft, hheld]

theorem Holds.popAt_eq_some (h : f.Holds q) {s : Score} {tied : List α}
    (hbest : f.best? = some (s, tied)) (pick : Pick) :
    ∃ a l r, q = l ++ (s, a) :: r ∧ q.strike s (pick ((q.under s).length - 1)) = l ++ r ∧
      f.popAt pick = some (s, a, filled (l ++ r)) := by
  have htied : 0 < tied.length :=
    List.length_pos_iff.mpr (h.valid.occupied (s, tied) (List.mem_of_getLast? hbest))
  have hlength : (q.under s).length = tied.length := by
    rw [h.under_best hbest, unpack, List.length_map]
  have hpop : f.popAt pick = f.takeBest (pick (tied.length - 1)) := by rw [popAt, hbest]; rfl
  rw [hlength, hpop]
  have hi := Nat.lt_of_lt_of_eq (pick (tied.length - 1)).isLt (Nat.sub_add_cancel htied)
  generalize (pick (tied.length - 1)).val = i at hi
  have hat : (q.under s)[i]? = some (s, tied[i]) := by
    rw [h.under_best hbest, unpack, List.getElem?_map, List.getElem?_eq_getElem hi]
    rfl
  obtain ⟨l, r, rfl, hstrike, rfl⟩ := strike_eq hat
  refine ⟨_, l, r, rfl, hstrike, ?_⟩
  rw [← (h.dropBest hbest hi).eq_filled]
  simp [takeBest, hbest, List.getElem?_eq_getElem hi]

theorem Holds.popAt_eq_none (h : f.Holds q) (hbest : f.best? = none) (pick : Pick) :
    f.popAt pick = none ∧ q = [] := by
  have hentries : f.buckets.entries = [] := List.getLast?_eq_none_iff.mp hbest
  have hscored : f.scored = [] := by rw [scored, hentries, List.flatMap_nil]
  have hperm := h.scored_perm
  rw [hscored] at hperm
  exact ⟨by rw [popAt, hbest]; rfl, hperm.nil_eq.symm⟩

/-! ## Whole histories -/

inductive Command (α : Type) where
  | insert (s : Score) (a : α)
  | pop (pick : Pick)
  | rebuild (score : α → Score)

namespace Command

def serve (f : Frontier α) : Command α → Checked (Frontier α)
  | insert s a => .ok (f.insert s a)
  | pop pick => .ok ((f.popAt pick).elim f fun (_, _, left) => left)
  | rebuild score => f.rebuild fun a => .ok (score a)

def note (q : Arrivals α) : Command α → Arrivals α
  | insert s a => q ++ [(s, a)]
  | pop pick => q.best?.elim q fun s => q.strike s (pick ((q.under s).length - 1))
  | rebuild score => q.ascending.rescore score

end Command

theorem Holds.serve (h : f.Holds q) (c : Command α) :
    ∃ f', c.serve f = .ok f' ∧ f'.Holds (c.note q) := by
  cases c with
  | insert s a => exact ⟨_, rfl, h.insert s a⟩
  | rebuild score => exact ⟨_, h.rebuild score, holds_filled _⟩
  | pop pick =>
    refine ⟨_, rfl, ?_⟩
    have hscore := h.best?_eq
    rw [bestScore?] at hscore
    cases hbest : f.best? with
    | none =>
      rw [hbest] at hscore
      rw [(h.popAt_eq_none hbest pick).1, Command.note, ← hscore]
      exact h
    | some e =>
      obtain ⟨a, l, r, _, hstrike, hpop⟩ := h.popAt_eq_some hbest pick
      rw [hbest] at hscore
      rw [hpop, Command.note, ← hscore]
      simp only [Option.map_some, Option.elim_some, hstrike]
      exact holds_filled _

theorem Holds.foldlM (h : f.Holds q) (history : List (Command α)) :
    ∃ f', history.foldlM Command.serve f = .ok f' ∧ f'.Holds (history.foldl Command.note q) := by
  induction history generalizing f q with
  | nil => exact ⟨f, rfl, h⟩
  | cons c history ih =>
    obtain ⟨f', hserve, h'⟩ := h.serve c
    obtain ⟨f'', hrest, h''⟩ := ih h'
    refine ⟨f'', ?_, h''⟩
    rw [List.foldlM_cons, hserve]
    exact hrest

end Frontier

def TieBreak.picks {γ : Type} [Random.Source γ] (t : TieBreak) (g : γ) : Frontier.Pick :=
  fun others => ⟨(t.pick (others + 1) g).1, t.pick_lt (Nat.succ_pos others) g⟩

namespace Frontier
variable {α : Type} {f : Frontier α} {q : Arrivals α}

theorem Holds.popBest_eq (h : f.Holds q) {γ : Type} [Random.Source γ] (t : TieBreak) (g : γ) :
    ((f.popBest t g).map fun (s, a, left, _) => (s, a, left)) = f.popAt (t.picks g) := by
  rw [popBest, popAt]
  cases hbest : f.best? with
  | none => rfl
  | some e =>
    have htied : 0 < e.2.length :=
      List.length_pos_iff.mpr (h.valid.occupied e (List.mem_of_getLast? hbest))
    have hpick : (t.picks g (e.2.length - 1)).val = (t.pick e.2.length g).1 :=
      congrArg (fun n => (t.pick n g).1) (Nat.sub_add_cancel htied)
    simp only [Option.bind_eq_bind, Option.bind_some, hpick]
    cases f.takeBest (t.pick e.2.length g).1 <;> rfl

/-- Whatever has been done to a frontier that was empty at first, it is the one that comes of
inserting what is left in order. No bucket is empty, the items are counted, and one of the best is
there to be taken as long as there is any; the others keep their places. Ranking anew lists the same
items under their new scores, and changes nothing where these are the old ones. -/
theorem frontier_priority_multiset (history : List (Command α)) :
    ∃ f : Frontier α, history.foldlM Command.serve ∅ = .ok f ∧
      let q := history.foldl Command.note []
      f = filled q ∧ f.size = q.length ∧ (∀ e ∈ f.buckets.entries, e.2 ≠ []) ∧
      (∀ pick, (f.popAt pick = none ↔ q = []) ∧
        ∀ s a left, f.popAt pick = some (s, a, left) →
          (∀ x ∈ q, Ranked.before s x.1 = false) ∧
          ∃ l r, q = l ++ (s, a) :: r ∧ left = filled (l ++ r)) ∧
      (∀ {γ : Type} [Random.Source γ] t (g : γ),
        ((f.popBest t g).map fun (s, a, left, _) => (s, a, left)) = f.popAt (t.picks g)) ∧
      (∀ score : α → Score,
        f.rebuild (fun a => .ok (score a)) = .ok (filled (q.ascending.rescore score)) ∧
        ((∀ x ∈ q, score x.2 = x.1) → f.rebuild (fun a => .ok (score a)) = .ok f)) ∧
      ∃ listed : Arrivals α, f.toList = listed.map Prod.snd ∧ listed.Perm q ∧
        (listed.Pairwise fun x y => Ranked.before x.1 y.1 = false) ∧
        ∀ s, listed.under s = q.under s := by
  obtain ⟨f, hserved, h⟩ := holds_empty.foldlM history
  refine ⟨f, hserved, h.eq_filled, h.size_eq, h.valid.occupied, ?_, h.popBest_eq, ?_,
    h.exists_listed⟩
  · intro pick
    cases hbest : f.best? with
    | none =>
      obtain ⟨hpop, hq⟩ := h.popAt_eq_none hbest pick
      rw [hpop]
      exact ⟨iff_of_true rfl hq, nofun⟩
    | some e =>
      obtain ⟨a, l, r, hq, _, hpop⟩ := h.popAt_eq_some hbest pick
      rw [hpop, hq]
      refine ⟨iff_of_false nofun (by simp), ?_⟩
      intro s a' left heq
      cases heq
      refine ⟨?_, l, r, rfl, rfl⟩
      rw [← hq]
      intro x hx
      exact h.not_before_best hbest hx
  · intro score
    refine ⟨h.rebuild score, ?_⟩
    intro hscore
    rw [h.rebuild score, h.filled_rescore hscore]

end Frontier

end PacketPlan
