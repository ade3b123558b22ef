import Mathlib.Data.List.Perm.Basic
import PacketPlan.Proofs.Plan.Anonymous
import PacketPlan.Proofs.Search.Run

/-! # Exhaustive searches

A search goes through the tree of derivations. Kept beside it, the record of all derivations met so
far says which plans were extended, which wait in the frontier and which are finished; no derivation
is met twice, and those below an extended plan are met with it. Once the frontier is empty the
record holds all derivations there are, whatever the order.
-/
namespace PacketPlan

/-- The derivations that a search has met: of plans it has extended, of plans in the frontier and of
finished plans. -/
structure Record where
  done : List (List Choice)
  opened : List (List Choice × Plan)
  closed : List (List Choice × Plan)

namespace Record

def known (r : Record) : List (List Choice) := r.done ++ (r.opened ++ r.closed).map Prod.fst

/-- The record holds derivations of the problem, each once, with all that lie above one of them and
all that follow from an extended plan. -/
structure Sound (problem : Problem) (r : Record) : Prop where
  derives : ∀ x ∈ r.opened ++ r.closed, Derives problem x.1 x.2
  opened_leaves : ∀ x ∈ r.opened, x.2.leaves ≠ []
  closed_leaves : ∀ x ∈ r.closed, x.2.leaves = []
  done_leaves : ∀ ds ∈ r.done, ∃ plan, Derives problem ds plan ∧ plan.leaves ≠ []
  distinct : r.known.Nodup
  root : [] ∈ r.known
  below : ∀ ds ∈ r.done, ∀ choice plan, Derives problem (choice :: ds) plan → choice :: ds ∈ r.known
  above : ∀ choice ds, choice :: ds ∈ r.known → ds ∈ r.done

/-- Everything that follows from a derivation by one more choice, each once. -/
structure Successors (problem : Problem) (ds : List Choice) (news : List (List Choice × Plan)) :
    Prop where
  derives : ∀ x ∈ news, (∃ choice, x.1 = choice :: ds) ∧ Derives problem x.1 x.2
  distinct : (news.map Prod.fst).Nodup
  complete : ∀ choice plan, Derives problem (choice :: ds) plan → choice :: ds ∈ news.map Prod.fst

def extend (r : Record) (ds : List Choice) (rest news : List (List Choice × Plan)) : Record where
  done := ds :: r.done
  opened := news.filter (fun x => !x.2.isFinished) ++ rest
  closed := news.filter (fun x => x.2.isFinished) ++ r.closed

theorem known_extend {r : Record} {ds : List Choice} {plan : Plan}
    {rest news : List (List Choice × Plan)} (hopen : r.opened.Perm ((ds, plan) :: rest)) :
    (r.extend ds rest news).known.Perm (r.known ++ news.map Prod.fst) := by
  rw [List.perm_iff_count]
  intro a
  have hold := (hopen.map Prod.fst).count_eq a
  have hnew := ((List.filter_append_perm (fun x => x.2.isFinished) news).map Prod.fst).count_eq a
  simp only [List.map_cons, List.map_append, List.count_append, List.count_cons] at hold hnew
  simp only [known, extend, List.map_append, List.count_append, List.count_cons]
  omega

theorem mem_extend {r : Record} {ds : List Choice} {plan : Plan}
    {rest news : List (List Choice × Plan)} (hopen : r.opened.Perm ((ds, plan) :: rest))
    {x : List Choice × Plan}
    (hx : x ∈ (r.extend ds rest news).opened ++ (r.extend ds rest news).closed) :
    x ∈ news ∨ x ∈ r.opened ++ r.closed := by
  simp only [extend, List.mem_append, List.mem_filter] at hx ⊢
  rcases hx with (⟨hx, _⟩ | hx) | (⟨hx, _⟩ | hx)
  · exact .inl hx
  · exact .inr (.inl (hopen.mem_iff.mpr (List.mem_cons_of_mem _ hx)))
  · exact .inl hx
  · exact .inr (.inr hx)

theorem Sound.not_mem_done {problem : Problem} {r : Record} (h : r.Sound problem)
    {x : List Choice × Plan} (hx : x ∈ r.opened ++ r.closed) : x.1 ∉ r.done := by
  intro hd
  exact (List.nodup_append.mp h.distinct).2.2 x.1 hd x.1 (List.mem_map_of_mem hx) rfl

theorem Sound.extend {problem : Problem} {r : Record} (h : r.Sound problem) {ds : List Choice}
    {plan : Plan} {rest news : List (List Choice × Plan)}
    (hopen : r.opened.Perm ((ds, plan) :: rest)) (hnews : Successors problem ds news) :
    (r.extend ds rest news).Sound problem := by
  have hself : (ds, plan) ∈ r.opened := hopen.mem_iff.mpr List.mem_cons_self
  have hknown : ∀ a, a ∈ (r.extend ds rest news).known ↔ a ∈ r.known ∨ a ∈ news.map Prod.fst := by
    intro a
    rw [(known_extend hopen).mem_iff, List.mem_append]
  refine ⟨?_, ?_, ?_, ?_, ?_, ?_, ?_, ?_⟩
  · intro x hx
    rcases mem_extend hopen hx with hx | hx
    · exact (hnews.derives x hx).2
    · exact h.derives x hx
  · intro x hx
    rcases List.mem_append.mp hx with hx | hx
    · simpa [Plan.isFinished] using (List.mem_filter.mp hx).2
    · exact h.opened_leaves x (hopen.mem_iff.mpr (List.mem_cons_of_mem _ hx))
  · intro x hx
    rcases List.mem_append.mp hx with hx | hx
    · exact List.isEmpty_iff.mp (List.mem_filter.mp hx).2
    · exact h.closed_leaves x hx
  · intro a ha
    rcases List.mem_cons.mp ha with rfl | ha
    · exact ⟨plan, h.derives _ (List.mem_append_left _ hself), h.opened_leaves _ hself⟩
    · exact h.done_leaves a ha
  · rw [(known_extend hopen).nodup_iff, List.nodup_append]
    refine ⟨h.distinct, hnews.distinct, ?_⟩
    rintro a ha b hb rfl
    -- What is new lies just below a derivation that was not extended before.
    obtain ⟨x, hx, rfl⟩ := List.mem_map.mp hb
    obtain ⟨choice, he⟩ := (hnews.derives x hx).1
    rw [he] at ha
    exact h.not_mem_done (List.mem_append_left _ hself) (h.above choice ds ha)
  · exact (hknown []).mpr (.inl h.root)
  · intro a ha choice q hq
    rw [hknown]
    rcases List.mem_cons.mp ha with rfl | ha
    · exact .inr (hnews.complete choice q hq)
    · exact .inl (h.below a ha choice q hq)
  · intro choice a ha
    rcases (hknown _).mp ha with ha | ha
    · exact List.mem_cons_of_mem ds (h.above choice a ha)
    · obtain ⟨x, hx, he⟩ := List.mem_map.mp ha
      obtain ⟨choice', he'⟩ := (hnews.derives x hx).1
      rw [he] at he'
      cases he'
      exact List.mem_cons_self

theorem Sound.leaves_of_closed {problem : Problem} {r : Record} (h : r.Sound problem)
    {ds : List Choice} (hds : ds ∈ r.closed.map Prod.fst) {plan : Plan}
    (hd : Derives problem ds plan) : plan.leaves = [] := by
  obtain ⟨x, hx, rfl⟩ := List.mem_map.mp hds
  have halike := hd.alike (h.derives x (List.mem_append_right _ hx))
  exact halike.leaves_eq ▸ h.closed_leaves x hx

theorem Sound.leaves_of_done {problem : Problem} {r : Record} (h : r.Sound problem)
    {ds : List Choice} (hds : ds ∈ r.done) {plan : Plan} (hd : Derives problem ds plan) :
    plan.leaves ≠ [] := by
  obtain ⟨q, hq, hleaves⟩ := h.done_leaves ds hds
  exact (hd.alike hq).leaves_eq ▸ hleaves

/-- A derivation has been extended, is finished, or goes on from the frontier. -/
theorem Sound.covers {problem : Problem} {r : Record} (h : r.Sound problem) {ds : List Choice}
    {plan : Plan} (hd : Derives problem ds plan) :
    ds ∈ r.done ∨ ds ∈ r.closed.map Prod.fst ∨ ∃ x ∈ r.opened, x.1 <:+ ds := by
  have hknown : ∀ {a}, a ∈ r.known →
      a ∈ r.done ∨ a ∈ r.closed.map Prod.fst ∨ ∃ x ∈ r.opened, x.1 <:+ a := by
    intro a ha
    rcases List.mem_append.mp ha with ha | ha
    · exact .inl ha
    · obtain ⟨x, hx, rfl⟩ := List.mem_map.mp ha
      rcases List.mem_append.mp hx with hx | hx
      · exact .inr (.inr ⟨x, hx, List.suffix_refl _⟩)
      · exact .inr (.inl (List.mem_map_of_mem hx))
  induction hd with
  | root id => exact hknown h.root
  | @expand choices plan t supply after e i c before known expanded chosen ih =>
    rcases ih with hdone | hclosed | ⟨x, hx, hsuffix⟩
    · exact hknown (h.below choices hdone (t, i) c.plan (.expand before known expanded chosen))
    · -- Nothing follows from a plan without leaves.
      simp only [Technique.expand, Plan.activeLeaf?, h.leaves_of_closed hclosed before] at expanded
      cases expanded
      cases chosen
    · exact .inr (.inr ⟨x, hx, hsuffix.trans (List.suffix_cons _ _)⟩)

/-! ## Complete records -/

theorem Sound.mem_known {problem : Problem} {r : Record} (h : r.Sound problem)
    (hopen : r.opened = []) {ds : List Choice} {plan : Plan} (hd : Derives problem ds plan) :
    ds ∈ r.done ∨ ds ∈ r.closed.map Prod.fst := by
  rcases h.covers hd with hdone | hclosed | ⟨x, hx, _⟩
  · exact .inl hdone
  · exact .inr hclosed
  · rw [hopen] at hx
    cases hx

theorem Sound.mem_done_iff {problem : Problem} {r : Record} (h : r.Sound problem)
    (hopen : r.opened = []) (ds : List Choice) :
    ds ∈ r.done ↔ ∃ plan, Derives problem ds plan ∧ plan.leaves ≠ [] := by
  refine ⟨h.done_leaves ds, ?_⟩
  rintro ⟨plan, hd, hleaves⟩
  rcases h.mem_known hopen hd with hdone | hclosed
  · exact hdone
  · exact absurd (h.leaves_of_closed hclosed hd) hleaves

theorem Sound.mem_closed_iff {problem : Problem} {r : Record} (h : r.Sound problem)
    (hopen : r.opened = []) (ds : List Choice) :
    ds ∈ r.closed.map Prod.fst ↔ ∃ plan, Derives problem ds plan ∧ plan.leaves = [] := by
  constructor
  · intro hin
    obtain ⟨x, hx, rfl⟩ := List.mem_map.mp hin
    exact ⟨x.2, h.derives x (List.mem_append_right _ hx), h.closed_leaves x hx⟩
  · rintro ⟨plan, hd, hleaves⟩
    rcases h.mem_known hopen hd with hdone | hclosed
    · exact absurd hleaves (h.leaves_of_done hdone hd)
    · exact hclosed

end Record

/-! ## Searches that keep a record -/

theorem successors_of_expandAll {problem : Problem} {ds : List Choice} {plan : Plan}
    (hd : Derives problem ds plan) {supply after : Supply} {e : Expansion}
    (he : Technique.expandAll problem plan problem.techniques supply = .ok (e, after)) :
    ∃ news, Record.Successors problem ds news ∧
      news.map Prod.snd = e.candidates.map Candidate.plan := by
  obtain ⟨labels, hl⟩ := Technique.exists_labels he
  have hlength := hl.offered.length_eq
  let news := (labels.zip e.candidates).map fun x => (x.1 :: ds, x.2.plan)
  have hlabels : news.map Prod.fst = labels.map (· :: ds) := by
    conv_rhs => rw [← List.map_fst_zip hlength.le]
    simp only [news, List.map_map]
    rfl
  have hplans : news.map Prod.snd = e.candidates.map Candidate.plan := by
    conv_rhs => rw [← List.map_snd_zip hlength.ge]
    simp only [news, List.map_map]
    rfl
  refine ⟨news, ⟨?_, ?_, ?_⟩, hplans⟩
  · intro x hx
    obtain ⟨⟨l, c⟩, hlc, rfl⟩ := List.mem_map.mp hx
    have hknown := hl.known l (List.of_mem_zip hlc).1
    exact ⟨⟨l, rfl⟩, hd.candidate hknown (List.forall₂_zip hl.offered hlc)⟩
  · rw [hlabels]
    exact (hl.distinct problem.nodup_techniques).map fun a b hab => (List.cons.inj hab).1
  · rintro choice q hq
    rw [hlabels]
    cases hq with
    | @expand _ before t _ _ e' i c hbefore known expanded chosen =>
      -- The plan that was extended is the one the search holds, up to names.
      obtain ⟨supply', after', e'', expanded', hall⟩ := hl.complete t known
      have hrelated := (t.expand_related problem (hbefore.alike hd) _ _).result expanded expanded'
      have hi := (List.getElem?_eq_some_iff.mp chosen).1
      exact List.mem_map_of_mem (hall i (hrelated.length_eq ▸ hi))

theorem exists_perm_cons_of_map {α β : Type} {f : α → β} {xs : List α} {b : β} {ys : List β}
    (h : (xs.map f).Perm (b :: ys)) :
    ∃ a rest, f a = b ∧ xs.Perm (a :: rest) ∧ (rest.map f).Perm ys := by
  obtain ⟨a, ha, rfl⟩ := List.mem_map.mp (h.mem_iff.mpr List.mem_cons_self)
  obtain ⟨front, back, rfl⟩ := List.append_of_mem ha
  refine ⟨a, front ++ back, rfl, List.perm_middle, ?_⟩
  have hmoved : ((front ++ a :: back).map f).Perm (f a :: (front ++ back).map f) :=
    (List.perm_middle (a := a)).map f
  exact (hmoved.symm.trans h).cons_inv

namespace Search
variable {μ γ : Type} {R : Score → Plan → Prop} {problem : Problem} {h : Heuristic μ}
variable {number : PlanId}

/-- The record is sound and says what the search holds and how many steps it has taken. -/
structure Explores (problem : Problem) (s : Search μ γ) (r : Record) : Prop where
  sound : r.Sound problem
  opened : (r.opened.map Prod.snd).Perm s.unfinished.toList
  closed : (r.closed.map Prod.snd).Perm s.finished.toList
  steps : s.steps = r.done.length

theorem explores_start {s : Search μ γ} (hopen : s.unfinished.toList = [.empty problem number])
    (hnone : s.finished.toList = []) (hsteps : s.steps = 0) :
    s.Explores problem ⟨[], [([], .empty problem number)], []⟩ where
  sound :=
    { derives := by
        intro x hx
        cases List.mem_singleton.mp hx
        exact .root number
      opened_leaves := by
        intro x hx
        cases List.mem_singleton.mp hx
        exact List.cons_ne_nil _ _
      closed_leaves := nofun
      done_leaves := nofun
      distinct := List.nodup_singleton _
      root := List.mem_singleton.mpr rfl
      below := nofun
      above := by
        intro choice ds hin
        cases List.mem_singleton.mp hin }
  opened := by
    rw [hopen]
    exact .refl _
  closed := by
    rw [hnone]
    exact .refl _
  steps := hsteps

/-- A step that keeps all finished candidates extends the record. -/
theorem Explores.step {s s' : Search μ γ} {r : Record} (he : s.Explores problem r)
    (hs : s.Orderly R problem h) {score : Score} {plan : Plan} {left : Frontier Plan}
    {generator : γ} {e : Expansion} {after : Supply}
    (taken : s.unfinished.scored.Perm ((score, plan) :: left.scored))
    (expanded : Technique.expandAll s.problem plan s.problem.techniques s.supply = .ok (e, after))
    (files : TakesIn R { s with unfinished := left, generator, steps := s.steps + 1 } s'
      (e.candidates.map Candidate.plan))
    (all : s.admitted (e.candidates.map Candidate.plan) =
      (e.candidates.map Candidate.plan).filter Plan.isFinished) :
    ∃ ds rest news, r.opened.Perm ((ds, plan) :: rest) ∧
      news.map Prod.snd = e.candidates.map Candidate.plan ∧
      s'.Explores problem (r.extend ds rest news) := by
  have hperm := he.opened.trans (Frontier.toList_of_taken taken)
  obtain ⟨⟨ds, held⟩, rest, hheld, hopen, hleft⟩ := exists_perm_cons_of_map hperm
  have hsame : held = plan := hheld
  subst held
  have hd := he.sound.derives (ds, plan)
    (List.mem_append_left _ (hopen.mem_iff.mpr List.mem_cons_self))
  rw [hs.problem_eq] at expanded
  obtain ⟨news, hnews, hplans⟩ := successors_of_expandAll hd expanded
  refine ⟨ds, rest, news, hopen, hplans, he.sound.extend hopen hnews, ?_, ?_, ?_⟩
  · have hfiled := files.unfinished_perm
    rw [← hplans, List.filter_map] at hfiled
    simp only [Record.extend, List.map_append]
    exact (hleft.append_left _).trans hfiled.symm
  · have hfiled := files.finished_perm
    have hkept : admitted { s with unfinished := left, generator, steps := s.steps + 1 }
        (e.candidates.map Candidate.plan) = (e.candidates.map Candidate.plan).filter Plan.isFinished :=
      all
    rw [hkept, ← hplans, List.filter_map] at hfiled
    simp only [Record.extend, List.map_append]
    exact (he.closed.append_left _).trans hfiled.symm
  · rw [files.steps_eq]
    simp only [he.steps, Record.extend, List.length_cons]

theorem exhaustive_yields [Random.Source γ] (wp : problem.WellPosed) (hh : h.Respects problem R)
    (all : problem.search.stopOnFirstSolution = false)
    (unbounded : problem.search.stepBudget = none) :
    Checked.Yields ((Search.start (γ := γ) problem h number).bind Search.run) fun outcome =>
      outcome.exhausted = true ∧ ∃ r : Record, r.Sound problem ∧ r.opened = [] ∧
        (r.closed.map Prod.snd).Perm outcome.finished ∧ outcome.steps = r.done.length := by
  have hrun := outcome_yields (P := fun s : Search μ γ => ∃ r, s.Explores problem r) number wp hh
    (fun _ hopen hnone hsteps => ⟨_, explores_start hopen hnone hsteps⟩) ?_
  · apply hrun.mono
    rintro outcome _ ⟨s, ⟨r, he⟩, hs, hfinished, hsteps, ⟨hexhausted, hnil⟩ | ⟨_, hstop⟩⟩
    · refine ⟨hexhausted, r, he.sound, ?_, hfinished ▸ he.closed, hsteps ▸ he.steps⟩
      have hopened := he.opened
      rw [hnil] at hopened
      exact List.map_eq_nil_iff.mp hopened.eq_nil
    · simp [mayStop, hs.problem_eq, all, unbounded] at hstop
  · rintro s s' hs ⟨r, he⟩ _ ⟨taken, _, expanded, files⟩
    have hkept : ∀ plans, s.admitted plans = plans.filter Plan.isFinished := by
      intro plans
      rw [admitted, hs.problem_eq, if_neg (by simp [all])]
    obtain ⟨ds, rest, news, _, _, he'⟩ := he.step hs taken expanded files (hkept _)
    exact ⟨_, he'⟩

end Search

theorem exists_map_eq_of_perm {α β : Type} {f : α → β} {xs : List α} {ys : List β}
    (h : (xs.map f).Perm ys) : ∃ xs' : List α, xs'.Perm xs ∧ xs'.map f = ys := by
  induction ys generalizing xs with
  | nil => exact ⟨xs, .refl _, h.eq_nil⟩
  | cons b ys ih =>
    obtain ⟨a, rest, rfl, hxs, hrest⟩ := exists_perm_cons_of_map h
    obtain ⟨rest', hperm, rfl⟩ := ih hrest
    exact ⟨a :: rest', (hperm.cons a).trans hxs.symm, rfl⟩

theorem exists_shape (problem : Problem) : ∃ shape : List Choice → Plan,
    ∀ {ds plan}, Derives problem ds plan → plan.anonymous = shape ds := by
  classical
  refine ⟨fun ds => if h : ∃ plan, Derives problem ds plan then h.choose.anonymous else default, ?_⟩
  intro ds plan hd
  have hex : ∃ plan, Derives problem ds plan := ⟨plan, hd⟩
  simp only [dif_pos hex]
  exact hd.alike hex.choose_spec

namespace Record
variable {problem : Problem} {search : SearchConfig} {r r' : Record}

theorem Sound.nodup_closed (h : r.Sound problem) : (r.closed.map Prod.fst).Nodup := by
  have hmet := (List.nodup_append.mp h.distinct).2.1
  rw [List.map_append] at hmet
  exact (List.nodup_append.mp hmet).2.1

theorem Sound.closed_shapes (h : r.Sound problem) {shape : List Choice → Plan}
    (hshape : ∀ {ds plan}, Derives problem ds plan → plan.anonymous = shape ds) :
    (r.closed.map Prod.snd).map Plan.anonymous = (r.closed.map Prod.fst).map shape := by
  rw [List.map_map, List.map_map]
  exact List.map_congr_left fun x hx => hshape (h.derives x (List.mem_append_right _ hx))

/-- Complete records for the same graph and targets have extended equally many plans and found the
same ones, up to names. -/
theorem Sound.same (h : r.Sound problem) (hopen : r.opened = [])
    (h' : r'.Sound { problem with search }) (hopen' : r'.opened = []) :
    r'.done.length = r.done.length ∧
      ((r'.closed.map Prod.snd).map Plan.anonymous).Perm
        ((r.closed.map Prod.snd).map Plan.anonymous) := by
  constructor
  · apply List.Perm.length_eq
    rw [List.perm_ext_iff_of_nodup (List.nodup_append.mp h'.distinct).1
      (List.nodup_append.mp h.distinct).1]
    intro ds
    rw [h.mem_done_iff hopen, h'.mem_done_iff hopen']
    simp only [derives_search]
  · obtain ⟨shape, hshape⟩ := exists_shape problem
    have hlabels : (r'.closed.map Prod.fst).Perm (r.closed.map Prod.fst) := by
      rw [List.perm_ext_iff_of_nodup h'.nodup_closed h.nodup_closed]
      intro ds
      rw [h.mem_closed_iff hopen, h'.mem_closed_iff hopen']
      simp only [derives_search]
    rw [h.closed_shapes hshape, h'.closed_shapes fun hd => hshape (derives_search.mp hd)]
    exact hlabels.map shape

end Record

theorem Problem.ofConfig_search {g : Graph} {c : Config} {problem : Problem}
    (h : Problem.ofConfig g c = .ok problem) (search : SearchConfig) :
    Problem.ofConfig g { c with search } = .ok { problem with search } := by
  obtain ⟨hvalid, platform, hplatform, rfl⟩ := Problem.ofConfig_eq_ok.mp h
  exact Problem.ofConfig_eq_ok.mpr ⟨hvalid, platform, hplatform, rfl⟩

theorem exhaustive_record {g : Graph} {c : Config} {problem : Problem} {γ : Type} [Random.Source γ]
    (posed : Problem.ofConfig g c = .ok problem) (wp : problem.WellPosed)
    (all : c.search.stopOnFirstSolution = false) (unbounded : c.search.stepBudget = none)
    {outcome : Outcome} (ho : synthesize g c γ = .ok (.ok outcome)) :
    outcome.exhausted = true ∧ ∃ r : Record, r.Sound problem ∧ r.opened = [] ∧
      (r.closed.map Prod.snd).Perm outcome.finished ∧ outcome.steps = r.done.length := by
  obtain ⟨h, named, hrun⟩ := exists_of_synthesize posed ho
  have hh := (Heuristic.quiet_of_mem_all (List.mem_of_find?_eq_some named)).respects problem
  obtain ⟨_, platform, _, rfl⟩ := Problem.ofConfig_eq_ok.mp posed
  exact (Search.exhaustive_yields wp hh all unbounded).result hrun

/-- A search that is not to stop early always ends, and it ends with exactly the finished plans
there are: one for each derivation that leads to a plan without leaves. What it finds, up to names,
and in how many steps, depends neither on the heuristic nor on chance. -/
theorem exhaustive_search_is_exact {kinds : List NodeKind} {root : NodeId} {g : Graph} {c : Config}
    {problem : Problem} {γ : Type} [Random.Source γ] (accepted : Graph.ofKinds kinds root = .ok g)
    (posed : Problem.ofConfig g c = .ok problem) (all : c.search.stopOnFirstSolution = false)
    (unbounded : c.search.stepBudget = none) :
    synthesize g c γ ≠ .ok (.error .endless) ∧
      ∀ outcome, synthesize g c γ = .ok (.ok outcome) →
        outcome.exhausted = true ∧
        (∃ found : List (List Choice × Plan), found.map Prod.snd = outcome.finished ∧
          (found.map Prod.fst).Nodup ∧
          (∀ ds, ds ∈ found.map Prod.fst ↔ ∃ plan, Derives problem ds plan ∧ plan.leaves = []) ∧
          ∀ x ∈ found, Derives problem x.1 x.2 ∧
            ∀ plan, Derives problem x.1 plan → plan.anonymous = x.2.anonymous) ∧
        (∀ {γ' : Type} [Random.Source γ'] search outcome',
          search.stopOnFirstSolution = false → search.stepBudget = none →
          synthesize g { c with search } γ' = .ok (.ok outcome') →
          (outcome'.finished.map Plan.anonymous).Perm (outcome.finished.map Plan.anonymous) ∧
            outcome'.steps = outcome.steps) ∧
        (outcome.finished = [] → ∀ ds plan, Derives problem ds plan → plan.leaves ≠ []) := by
  have wp := Problem.wellPosed_of_ofConfig accepted posed
  refine ⟨fun hf => absurd (synthesize_fault posed wp hf) (by simp [Fault.ofSearch]), ?_⟩
  intro outcome ho
  obtain ⟨hexhausted, r, hr, hopen, hclosed, hsteps⟩ :=
    exhaustive_record posed wp all unbounded ho
  refine ⟨hexhausted, ?_, ?_, ?_⟩
  · obtain ⟨found, hperm, hfound⟩ := exists_map_eq_of_perm hclosed
    have hlabels := hperm.map Prod.fst
    refine ⟨found, hfound, hlabels.nodup_iff.mpr hr.nodup_closed, ?_, ?_⟩
    · intro ds
      rw [hlabels.mem_iff]
      exact hr.mem_closed_iff hopen ds
    · intro x hx
      have hd := hr.derives x (List.mem_append_right _ (hperm.mem_iff.mp hx))
      exact ⟨hd, fun plan hplan => hplan.alike hd⟩
  · intro γ' _ search outcome' all' unbounded' ho'
    have posed' := Problem.ofConfig_search posed search
    obtain ⟨_, r', hr', hopen', hclosed', hsteps'⟩ := exhaustive_record posed'
      (Problem.wellPosed_of_ofConfig accepted posed') all' unbounded' ho'
    obtain ⟨hlength, hshapes⟩ := hr.same hopen hr' hopen'
    refine ⟨?_, by rw [hsteps, hsteps', hlength]⟩
    exact ((hclosed'.map _).symm.trans hshapes).trans (hclosed.map _)
  · intro hnone ds plan hd hleaves
    have hin := (hr.mem_closed_iff hopen ds).mpr ⟨plan, hd, hleaves⟩
    rw [hnone] at hclosed
    rw [List.map_eq_nil_iff.mp hclosed.eq_nil] at hin
    cases hin

def timedBranch : List NodeKind :=
  [.terminal (.forward 1), .terminal .drop, .branch (.term "c" 1) 0 1,
    .call { function := "current_time", next := some 2 }]

def exhaustive : Config where
  search := { stopOnFirstSolution := false }

/-- All of it is on the switch, or the call or the branch is handed over. -/
theorem timed_branch_searched_exhaustively :
    ∃ g problem outcome, Graph.ofKinds timedBranch 3 = .ok g ∧
      Problem.ofConfig g exhaustive = .ok problem ∧ synthesize g exhaustive = .ok (.ok outcome) ∧
      outcome.exhausted = true ∧ outcome.finished.length = 3 ∧
      ∀ {γ' : Type} [Random.Source γ'] search outcome',
        search.stopOnFirstSolution = false → search.stepBudget = none →
        synthesize g { exhaustive with search } γ' = .ok (.ok outcome') →
        outcome'.finished.length = 3 ∧ outcome'.steps = 11 := by
  obtain ⟨g, hg⟩ : ∃ g, Graph.ofKinds timedBranch 3 = .ok g := ⟨_, rfl⟩
  obtain ⟨problem, posed⟩ : ∃ problem, Problem.ofConfig g exhaustive = .ok problem := by
    cases hg
    exact ⟨_, rfl⟩
  obtain ⟨outcome, ho, hcounts⟩ := exists_outcome (g := g) (c := exhaustive)
    (p := fun o => o.finished.length = 3 ∧ o.steps = 11) (by cases hg; decide +kernel)
  obtain ⟨hfound, hsteps⟩ := of_decide_eq_true hcounts
  obtain ⟨hexhausted, _, hsame, _⟩ :=
    (exhaustive_search_is_exact hg posed rfl rfl).2 outcome ho
  refine ⟨g, problem, outcome, hg, posed, ho, hexhausted, hfound, ?_⟩
  intro γ' _ search outcome' all unbounded ho'
  obtain ⟨hshapes, hlength⟩ := hsame search outcome' all unbounded ho'
  refine ⟨?_, hlength.trans hsteps⟩
  simpa [hfound] using hshapes.length_eq

end PacketPlan
