import Mathlib.Algebra.BigOperators.Ring.List
import Mathlib.Logic.Relation
import PacketPlan.Proofs.Ordered
import PacketPlan.Proofs.Plan.Handling

/-! # The walk over the sites of a plan

The check of a finished plan walks from site to site, the last of the sites that come next first,
and keeps no note of where it has been. It ends as soon as it comes to a site that is not handled.
On a tree it also ends if all is handled, since every hand-over and every step down leaves less to
be visited; but where the controller hands a packet over to itself, the walk comes back to the very
same site and never ends. `walk_outcome` says that these are the three things that can happen. No
property of plans is assumed: the nodes and the handled sites may be put together in any way.
-/
namespace PacketPlan.Plan
variable {g : Graph} {plan : Plan} {s x : Site} {how : Option PlanNodeId}

/-! ## The sites that come next -/

theorem takesOver?_eq_some {t : Target} (h : plan.takesOver? how = some t) : t = .controller := by
  rw [takesOver?_eq] at h
  obtain ⟨m, _, hm⟩ := Option.bind_eq_some_iff.mp h
  unfold Module.handsOver? at hm
  split at hm
  · cases hm
    rfl
  · cases hm

theorem mem_nextSites {s' : Site} : s' ∈ plan.nextSites g s how ↔
    (plan.takesOver? how = some .controller ∧ s' = ⟨s.node, .controller⟩) ∨
      (plan.takesOver? how = none ∧ g.Child s.node s'.node ∧ s'.target = s.target) := by
  unfold nextSites
  cases ht : plan.takesOver? how with
  | some t =>
    cases takesOver?_eq_some ht
    simp
  | none =>
    constructor
    · intro hs
      obtain ⟨c, hc, rfl⟩ := List.mem_map.mp (List.mem_reverse.mp hs)
      exact .inr ⟨rfl, hc, rfl⟩
    · rintro (⟨⟨⟩, _⟩ | ⟨_, hc, ht⟩)
      rw [List.mem_reverse, List.mem_map]
      exact ⟨s'.node, hc, by rw [← ht]⟩

theorem present_of_mem_nextSites (hg : g.IsTree) (present : s.node < g.size) {s' : Site}
    (hs : s' ∈ plan.nextSites g s how) : s'.node < g.size := by
  rcases mem_nextSites.mp hs with ⟨_, rfl⟩ | ⟨_, hc, _⟩
  · exact present
  · exact hg.child_lt hc

/-- What comes next has less below it, all together, than the site itself, if each target counts for
something and one that hands over for more than the controller. -/
theorem weight_nextSites (hg : g.IsTree) (factor : Target → Nat) (positive : ∀ t, 0 < factor t)
    (present : s.node < g.size)
    (less : plan.takesOver? how ≠ none → factor .controller < factor s.target) :
    ((plan.nextSites g s how).map fun s' => factor s'.target * g.weight s'.node).sum + 1 ≤
      factor s.target * g.weight s.node := by
  cases ht : plan.takesOver? how with
  | some t =>
    have hless : factor .controller + 1 ≤ factor s.target := less (by simp [ht])
    have hpos := hg.weight_pos present
    cases takesOver?_eq_some ht
    rw [nextSites, ht]
    calc factor .controller * g.weight s.node + 0 + 1
        ≤ factor .controller * g.weight s.node + g.weight s.node := by omega
      _ = (factor .controller + 1) * g.weight s.node := (Nat.succ_mul _ _).symm
      _ ≤ factor s.target * g.weight s.node := Nat.mul_le_mul_right _ hless
  | none =>
    have hn := List.getElem?_eq_getElem present
    have hsum := List.sum_map_mul_left g.nodes[s.node].children g.weight (factor s.target)
    have hpos := positive s.target
    rw [nextSites_of_keeps hn ht, List.map_reverse, List.sum_reverse, List.map_map]
    change (List.map (fun c => factor s.target * g.weight c) g.nodes[s.node].children).sum + 1 ≤ _
    rw [hsum, hg.weight_eq hn, Nat.mul_add_one]
    omega

/-! ## What the walk comes to -/

/-- The second site comes next after the first one, which is handled. -/
def Next (g : Graph) (plan : Plan) (s s' : Site) : Prop :=
  ∃ how, plan.ledger.processed? s = some how ∧ s' ∈ plan.nextSites g s how

/-- Whatever follows from the site is handled, and there is an end to it. -/
inductive Clear (g : Graph) (plan : Plan) : Site → Prop
  | intro {s : Site} {how : Option PlanNodeId} (handled : plan.ledger.processed? s = some how)
      (next : ∀ s' ∈ plan.nextSites g s how, Clear g plan s') : Clear g plan s

structure HandsBack (plan : Plan) (s : Site) : Prop where
  target_eq : s.target = .controller
  handed : ∃ how, plan.ledger.processed? s = some how ∧ plan.takesOver? how = some .controller

/-- A walk from the first site comes to the other one: on the way there it goes on to one of the
sites that come next, and whatever it looks at before that one is clear. -/
inductive Visits (g : Graph) (plan : Plan) (first : Site) : Site → Prop
  | first : Visits g plan first first
  | next {s s' : Site} {how : Option PlanNodeId} {before after : List Site}
      (visited : Visits g plan first s) (handled : plan.ledger.processed? s = some how)
      (order : plan.nextSites g s how = before ++ s' :: after)
      (clear : ∀ b ∈ before, Clear g plan b) : Visits g plan first s'

theorem Visits.trans {first : Site} (h : Visits g plan first s) (h' : Visits g plan s x) :
    Visits g plan first x := by
  induction h' with
  | first => exact h
  | next _ handled order clear ih => exact .next ih handled order clear

theorem Visits.reaches {first : Site} (h : Visits g plan first s) :
    Relation.ReflTransGen (plan.Next g) first s := by
  induction h with
  | first => exact .refl
  | next _ handled order _ ih => exact ih.tail ⟨_, handled, by simp [order]⟩

theorem HandsBack.nextSites_eq (h : plan.HandsBack s) :
    ∃ how, plan.ledger.processed? s = some how ∧ plan.nextSites g s how = [s] := by
  obtain ⟨htarget, how, hhow, hover⟩ := h
  refine ⟨how, hhow, ?_⟩
  rw [nextSites, hover, ← htarget]

theorem Clear.not_handsBack (h : Clear g plan s) : ¬plan.HandsBack s := by
  induction h with
  | @intro s how handled _ ih =>
    intro hback
    obtain ⟨how', hhow', hnext⟩ := hback.nextSites_eq (g := g)
    rw [handled] at hhow'
    cases hhow'
    exact ih s (hnext ▸ List.mem_singleton_self s) hback

theorem Clear.handled (h : Clear g plan s) : ∃ how, plan.ledger.processed? s = some how := by
  cases h with
  | intro handled => exact ⟨_, handled⟩

theorem Clear.next (h : Clear g plan s) {s' : Site} (hs : plan.Next g s s') : Clear g plan s' := by
  obtain ⟨how, hhow, hmem⟩ := hs
  cases h with
  | intro handled next =>
    rw [handled] at hhow
    cases hhow
    exact next s' hmem

theorem Clear.reaches (h : Clear g plan s) (hx : Relation.ReflTransGen (plan.Next g) s x) :
    Clear g plan x := by
  induction hx with
  | refl => exact h
  | tail _ hnext ih => exact ih.next hnext

/-- Sites to visit from a site on: none is met twice on the controller, and elsewhere at most once
more there. -/
def walkWeight (g : Graph) (s : Site) : Nat :=
  (if s.target = .controller then 1 else 2) * g.weight s.node

theorem walkWeight_nextSites (hg : g.IsTree) (present : s.node < g.size)
    (handled : plan.ledger.processed? s = some how) (forward : ¬plan.HandsBack s) :
    ((plan.nextSites g s how).map (walkWeight g)).sum + 1 ≤ walkWeight g s := by
  refine weight_nextSites hg (fun t => if t = .controller then 1 else 2) ?_ present ?_
  · intro t
    split <;> decide
  · intro hover
    have htarget : s.target ≠ .controller := by
      intro htarget
      obtain ⟨t, ht⟩ := Option.ne_none_iff_exists'.mp hover
      cases takesOver?_eq_some ht
      exact forward ⟨htarget, how, handled, ht⟩
    rw [if_neg htarget]
    decide

theorem walkWeight_pos (hg : g.IsTree) (present : s.node < g.size) : 0 < walkWeight g s := by
  have hpos := hg.weight_pos present
  unfold walkWeight
  split <;> omega

/-! ## Visits -/

section walk
variable {visits k : Nat} {pending : List Site} {reached : OrdSet Site}

theorem walk_handled (handled : plan.ledger.processed? s = some how) :
    plan.walk g (visits + 1) (s :: pending) reached =
      plan.walk g visits (plan.nextSites g s how ++ pending) (reached.insert s) := by
  rw [walk, handled]

theorem walk_unhandled (unhandled : plan.ledger.processed? s = none) :
    plan.walk g (visits + 1) (s :: pending) reached =
      some (.error (.uncovered s.node s.target)) := by
  rw [walk, unhandled]

theorem walk_nil : plan.walk g visits [] reached = some (.ok reached) := by
  rw [walk]

/-- A walk that ends needs no more visits. -/
theorem walk_add {result : Except Defect (OrdSet Site)}
    (h : plan.walk g visits pending reached = some result) (more : Nat) :
    plan.walk g (visits + more) pending reached = some result := by
  induction visits generalizing pending reached with
  | zero =>
    cases pending with
    | nil => rw [walk_nil] at h ⊢; exact h
    | cons s pending => cases h
  | succ visits ih =>
    cases pending with
    | nil => rw [walk_nil] at h ⊢; exact h
    | cons s pending =>
      rw [Nat.add_right_comm]
      cases hhow : plan.ledger.processed? s with
      | none =>
        rw [walk_unhandled hhow] at h ⊢
        exact h
      | some how =>
        rw [walk_handled hhow] at h ⊢
        exact ih h

theorem HandsBack.walk_eq_none (h : plan.HandsBack s) :
    plan.walk g visits (s :: pending) reached = none := by
  induction visits generalizing reached with
  | zero => rfl
  | succ visits ih =>
    obtain ⟨how, hhow, hnext⟩ := h.nextSites_eq (g := g)
    rw [walk_handled hhow, hnext]
    exact ih

/-- So many visits deal with the sites and all that follows from them, whatever else is pending. -/
def Passes (g : Graph) (plan : Plan) (k : Nat) (sites : List Site) : Prop :=
  ∀ pending reached, ∃ reached' : OrdSet Site,
    (∀ x, x ∈ reached' ↔ x ∈ reached ∨ ∃ s ∈ sites, Relation.ReflTransGen (plan.Next g) s x) ∧
    ∀ visits, plan.walk g (k + visits) (sites ++ pending) reached =
      plan.walk g visits pending reached'

theorem passes_nil : Passes g plan 0 [] := by
  intro pending reached
  refine ⟨reached, by simp, ?_⟩
  intro visits
  rw [Nat.zero_add]
  rfl

theorem Passes.cons {first : Nat} {sites : List Site} (h : Passes g plan first [s])
    (h' : Passes g plan k sites) : Passes g plan (first + k) (s :: sites) := by
  intro pending reached
  obtain ⟨middle, hmiddle, hfirst⟩ := h (sites ++ pending) reached
  obtain ⟨last, hlast, hrest⟩ := h' pending middle
  refine ⟨last, ?_, ?_⟩
  · intro x
    rw [hlast, hmiddle]
    simp [or_assoc]
  · intro visits
    rw [Nat.add_assoc, ← hrest]
    exact hfirst (k + visits)

theorem exists_passes {sites : List Site}
    (h : ∀ s ∈ sites, ∃ k ≤ walkWeight g s, Passes g plan k [s]) :
    ∃ k ≤ (sites.map (walkWeight g)).sum, Passes g plan k sites := by
  induction sites with
  | nil => exact ⟨0, le_rfl, passes_nil⟩
  | cons s sites ih =>
    obtain ⟨first, hfirst, hs⟩ := h s List.mem_cons_self
    obtain ⟨k, hk, hsites⟩ := ih fun s hs => h s (List.mem_cons_of_mem _ hs)
    refine ⟨first + k, ?_, hs.cons hsites⟩
    rw [List.map_cons, List.sum_cons]
    exact Nat.add_le_add hfirst hk

theorem Passes.visit (handled : plan.ledger.processed? s = some how)
    (h : Passes g plan k (plan.nextSites g s how)) : Passes g plan (k + 1) [s] := by
  intro pending reached
  obtain ⟨last, hlast, hrest⟩ := h pending (reached.insert s)
  refine ⟨last, ?_, ?_⟩
  · intro x
    simp only [hlast, OrdSet.mem_insert, List.mem_singleton, exists_eq_left]
    rw [Relation.ReflTransGen.cases_head_iff]
    constructor
    · rintro ((rfl | hx) | ⟨s', hs', hx⟩)
      · exact .inr (.inl rfl)
      · exact .inl hx
      · exact .inr (.inr ⟨s', ⟨how, handled, hs'⟩, hx⟩)
    · rintro (hx | rfl | ⟨s', ⟨how', hhow', hs'⟩, hx⟩)
      · exact .inl (.inr hx)
      · exact .inl (.inl rfl)
      · rw [handled] at hhow'
        cases hhow'
        exact .inr ⟨s', hs', hx⟩
  · intro visits
    rw [Nat.add_right_comm, List.singleton_append, walk_handled handled]
    exact hrest visits

theorem Clear.passes (hg : g.IsTree) (h : Clear g plan s) (present : s.node < g.size) :
    ∃ k ≤ walkWeight g s, Passes g plan k [s] := by
  induction h with
  | @intro s how handled next ih =>
    have hforward := (Clear.intro handled next).not_handsBack
    have hweight := walkWeight_nextSites hg present handled hforward
    obtain ⟨k, hk, hpasses⟩ := exists_passes fun s' hs' =>
      ih s' hs' (present_of_mem_nextSites hg present hs')
    exact ⟨k + 1, by omega, hpasses.visit handled⟩

theorem Visits.walk_eq (hg : g.IsTree) (present : s.node < g.size) (h : Visits g plan s x) :
    x.node < g.size ∧ ∃ k, ∀ pending reached, ∃ pending' reached', ∀ visits,
      plan.walk g (k + visits) (s :: pending) reached =
        plan.walk g visits (x :: pending') reached' := by
  induction h with
  | first =>
    refine ⟨present, 0, fun pending reached => ⟨pending, reached, fun visits => ?_⟩⟩
    rw [Nat.zero_add]
  | @next s' x how before after _ handled order clear ih =>
    obtain ⟨hpresent, k, hk⟩ := ih
    have hnext : ∀ {y}, y ∈ before ++ x :: after → y.node < g.size :=
      fun hy => present_of_mem_nextSites hg hpresent (order ▸ hy)
    obtain ⟨m, _, hpasses⟩ := exists_passes fun b hb =>
      (clear b hb).passes hg (hnext (List.mem_append_left _ hb))
    refine ⟨hnext (by simp), k + (m + 1), ?_⟩
    intro pending reached
    obtain ⟨pending', reached', hwalk⟩ := hk pending reached
    obtain ⟨last, _, hrest⟩ := hpasses (x :: (after ++ pending')) (reached'.insert s')
    refine ⟨after ++ pending', last, ?_⟩
    intro visits
    rw [Nat.add_assoc, hwalk, Nat.add_right_comm, walk_handled handled, order, ← hrest visits,
      List.append_assoc, List.cons_append]

theorem Visits.walk_eq_none (hg : g.IsTree) (present : s.node < g.size) (h : Visits g plan s x)
    (back : plan.HandsBack x) : plan.walk g visits (s :: pending) reached = none := by
  obtain ⟨_, k, hk⟩ := h.walk_eq hg present
  obtain ⟨pending', reached', hwalk⟩ := hk pending reached
  cases hends : plan.walk g visits (s :: pending) reached with
  | none => rfl
  | some result =>
    have hmore := walk_add hends k
    rw [Nat.add_comm, hwalk, back.walk_eq_none] at hmore
    cases hmore

end walk

/-! ## How the walk ends -/

theorem exists_first_of_not_forall {α : Type} {P : α → Prop} {xs : List α} (h : ¬∀ x ∈ xs, P x) :
    ∃ before x after, xs = before ++ x :: after ∧ (∀ b ∈ before, P b) ∧ ¬P x := by
  classical
  obtain ⟨y, hy, hnot⟩ : ∃ y ∈ xs, ¬P y := by simpa using h
  have hsome : (xs.find? fun x => decide (¬P x)).isSome := by
    rw [List.find?_isSome]
    exact ⟨y, hy, decide_eq_true hnot⟩
  obtain ⟨x, hx⟩ := Option.isSome_iff_exists.mp hsome
  obtain ⟨hfirst, before, after, rfl, hbefore⟩ := List.find?_eq_some_iff_append.mp hx
  exact ⟨before, x, after, rfl, by simpa using hbefore, of_decide_eq_true hfirst⟩

structure StopsAt (g : Graph) (plan : Plan) (s x : Site) : Prop where
  visited : Visits g plan s x
  unhandled : plan.ledger.processed? x = none
  stops : ∃ k ≤ walkWeight g s, ∀ visits pending reached,
    plan.walk g (k + visits) (s :: pending) reached = some (.error (.uncovered x.node x.target))

theorem StopsAt.visit (hg : g.IsTree) (present : s.node < g.size)
    (handled : plan.ledger.processed? s = some how) (forward : ¬plan.HandsBack s) {s' : Site}
    {before after : List Site} (order : plan.nextSites g s how = before ++ s' :: after)
    (clear : ∀ b ∈ before, Clear g plan b) (h : StopsAt g plan s' x) : StopsAt g plan s x where
  visited := (Visits.next .first handled order clear).trans h.visited
  unhandled := h.unhandled
  stops := by
    obtain ⟨k, hk, hwalk⟩ := h.stops
    obtain ⟨m, hm, hpasses⟩ := exists_passes fun b hb =>
      (clear b hb).passes hg (present_of_mem_nextSites hg present
        (order ▸ List.mem_append_left (s' :: after) hb))
    have hweight := walkWeight_nextSites hg present handled forward
    rw [order, List.map_append, List.sum_append, List.map_cons, List.sum_cons] at hweight
    refine ⟨m + k + 1, by omega, ?_⟩
    intro visits pending reached
    obtain ⟨last, _, hrest⟩ := hpasses (s' :: (after ++ pending)) (reached.insert s)
    rw [Nat.add_right_comm, walk_handled handled, order, List.append_assoc, List.cons_append,
      Nat.add_assoc, hrest]
    exact hwalk visits (after ++ pending) last

/-- All is clear from a site on, or the walk stops at a site that is not handled, or it comes to a
site where it stays for ever. -/
theorem walk_outcome (hg : g.IsTree) (plan : Plan) (s : Site) (present : s.node < g.size) :
    Clear g plan s ∨ (∃ x, StopsAt g plan s x) ∨ ∃ x, Visits g plan s x ∧ plan.HandsBack x := by
  induction hw : walkWeight g s using Nat.strong_induction_on generalizing s with
  | _ weight ih =>
    cases hhow : plan.ledger.processed? s with
    | none =>
      refine .inr (.inl ⟨s, .first, hhow, 1, walkWeight_pos hg present, ?_⟩)
      intro visits pending reached
      rw [Nat.add_comm]
      exact walk_unhandled hhow
    | some how =>
      by_cases hback : plan.HandsBack s
      · exact .inr (.inr ⟨s, .first, hback⟩)
      by_cases hclear : ∀ s' ∈ plan.nextSites g s how, Clear g plan s'
      · exact .inl (.intro hhow hclear)
      -- the first of the sites that come next and are not clear decides
      obtain ⟨before, s', after, order, hbefore, hs'⟩ := exists_first_of_not_forall hclear
      have hweight := walkWeight_nextSites hg present hhow hback
      rw [order, List.map_append, List.sum_append, List.map_cons, List.sum_cons] at hweight
      have hmem : s' ∈ plan.nextSites g s how := by simp [order]
      have hpresent := present_of_mem_nextSites hg present hmem
      rcases ih (walkWeight g s') (by omega) s' hpresent rfl with h | ⟨x, h⟩ | ⟨x, h, hx⟩
      · exact absurd h hs'
      · exact .inr (.inl ⟨x, h.visit hg present hhow hback order hbefore⟩)
      · exact .inr (.inr ⟨x, (Visits.next .first hhow order hbefore).trans h, hx⟩)

/-! ## What the check says -/

section verify
variable {problem : Problem}

theorem walkWeight_entry_le (hg : problem.graph.IsTree) :
    walkWeight problem.graph ⟨problem.graph.root, problem.platform.initial⟩ ≤ visitBound problem := by
  rw [walkWeight, visitBound, hg.weight_root]
  split <;> omega

theorem Clear.verify_eq (hg : problem.graph.IsTree) (finished : plan.leaves = [])
    (h : Clear problem.graph plan ⟨problem.graph.root, problem.platform.initial⟩) :
    ∃ reached : OrdSet Site,
      (∀ x, x ∈ reached ↔ Relation.ReflTransGen (plan.Next problem.graph)
        ⟨problem.graph.root, problem.platform.initial⟩ x) ∧
      plan.verify problem = .ok (plan.judge problem reached) := by
  obtain ⟨k, hk, hpasses⟩ := h.passes hg hg.root_lt
  obtain ⟨reached, hreached, hwalk⟩ := hpasses [] ∅
  have hends := hwalk (visitBound problem - k)
  rw [Nat.add_sub_cancel' (hk.trans (walkWeight_entry_le hg)), List.append_nil, walk_nil] at hends
  refine ⟨reached, ?_, ?_⟩
  · intro x
    have hnone : x ∉ (∅ : OrdSet Site) := OrdSet.not_mem_empty x
    rw [hreached, or_iff_right hnone]
    simp
  · simp only [verify, finished, List.isEmpty_nil, if_true, hends]

theorem StopsAt.verify_eq (hg : problem.graph.IsTree) (finished : plan.leaves = [])
    (h : StopsAt problem.graph plan ⟨problem.graph.root, problem.platform.initial⟩ x) :
    plan.verify problem = .ok (.error (.uncovered x.node x.target)) := by
  obtain ⟨k, hk, hwalk⟩ := h.stops
  have hends := hwalk (visitBound problem - k) [] ∅
  rw [Nat.add_sub_cancel' (hk.trans (walkWeight_entry_le hg))] at hends
  simp only [verify, finished, List.isEmpty_nil, if_true, hends]

theorem Visits.verify_eq (hg : problem.graph.IsTree) (finished : plan.leaves = [])
    (h : Visits problem.graph plan ⟨problem.graph.root, problem.platform.initial⟩ x)
    (back : plan.HandsBack x) : plan.verify problem = .error .endless := by
  simp only [verify, finished, List.isEmpty_nil, if_true, h.walk_eq_none hg hg.root_lt back]

theorem judge_eq_ok_iff {reached : OrdSet Site} : plan.judge problem reached = .ok () ↔
    (∀ s how, plan.ledger.processed? s = some how → s ∈ reached) ∧
      plan.resources.revalidate = .ok () ∧
      ∀ p ∈ plan.ledger.completed, p.recirculations ≤ problem.platform.maxRecirculations := by
  have hkeys : plan.ledger.processed.keys.find? (fun s => decide (s ∉ reached)) = none ↔
      ∀ s how, plan.ledger.processed? s = some how → s ∈ reached := by
    simp only [List.find?_eq_none, decide_eq_true_eq, Decidable.not_not]
    constructor
    · intro h s how hhow
      refine h s (OrdMap.mem_keys_iff.mpr ?_)
      exact Option.isSome_iff_exists.mpr ⟨how, hhow⟩
    · intro h s hs
      obtain ⟨how, hhow⟩ := OrdMap.exists_get?_of_mem_keys hs
      exact h s how hhow
  have hpaths : plan.ledger.completed.find?
      (fun p => decide (problem.platform.maxRecirculations < p.recirculations)) = none ↔
      ∀ p ∈ plan.ledger.completed, p.recirculations ≤ problem.platform.maxRecirculations := by
    simp only [List.find?_eq_none, decide_eq_true_eq, Nat.not_lt]
  rw [← hkeys, ← hpaths]
  simp only [judge]
  cases plan.ledger.processed.keys.find? (fun s => decide (s ∉ reached)) with
  | some s => simp
  | none =>
    cases plan.resources.revalidate with
    | error refusal => simp
    | ok =>
      cases plan.ledger.completed.find?
          (fun p => decide (problem.platform.maxRecirculations < p.recirculations)) with
      | some p => simp
      | none => simp

end verify

end PacketPlan.Plan
