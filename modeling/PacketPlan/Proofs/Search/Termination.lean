import PacketPlan.Proofs.Plan.Recirculation
import PacketPlan.Proofs.Search.Soundness

/-! # Every search ends

No derivation is longer than the bound on depth, since each step lowers the potential of the plan.
A search without a bound on its steps is therefore a loop that comes to its end, whatever the
heuristic does: a step that succeeds does so as well with a heuristic whose faults are harmless, and
for those it is known that fewer steps are left afterwards.
-/
namespace PacketPlan

theorem Derives.length_add_potential_le {problem : Problem} (wp : problem.WellPosed)
    {choices : List Choice} {plan : Plan} (h : Derives problem choices plan) :
    choices.length + plan.potential problem ≤ problem.depthBound := by
  induction h with
  | root id =>
    rw [List.length_nil, Nat.zero_add]
    exact Plan.potential_empty_le wp.tree id
  | expand before known expanded chosen ih =>
    have hstep := Technique.step_of_expand known expanded (List.mem_of_getElem? chosen)
    have hlt := hstep.potential_lt wp.tree (before.lawful wp)
    rw [List.length_cons]
    omega

/-! ## Heuristics without faults of a search -/

namespace Checked
variable {α β γ δ : Type}

/-- The second piece of work succeeds whenever the first one does, with the result that the map
gives. -/
def Mirrors (view : α → β) (x : Checked α) (y : Checked β) : Prop :=
  ∀ a, x = .ok a → y = .ok (view a)

theorem Mirrors.refl (x : Checked α) : Mirrors id x x := fun _ h => h

theorem mirrors_ok {view : α → β} (a : α) : Mirrors view (.ok a) (.ok (view a)) := by
  intro _ h
  cases h
  rfl

theorem Mirrors.bind {view : α → β} {view' : γ → δ} {x : Checked α} {y : Checked β}
    {f : α → Checked γ} {g : β → Checked δ} (h : Mirrors view x y)
    (hfg : ∀ a, Mirrors view' (f a) (g (view a))) : Mirrors view' (x >>= f) (y >>= g) := by
  intro c hc
  obtain ⟨a, ha, hc⟩ := bind_eq_ok.mp hc
  exact bind_eq_ok.mpr ⟨view a, h a ha, hfg a c hc⟩

theorem mirrors_ite {view : α → β} {c : Prop} [Decidable c] {x x' : Checked α} {y y' : Checked β}
    (h : Mirrors view x y) (h' : Mirrors view x' y') :
    Mirrors view (if c then x else x') (if c then y else y') := by
  split
  · exact h
  · exact h'

/-- The same work with one harmless fault in place of all others. -/
def hush (x : Checked α) : Checked α := x.mapError fun _ => .addOverflow

theorem mirrors_hush (x : Checked α) : Mirrors id x x.hush := by
  intro a h
  rw [h]
  rfl

theorem hush_yields (x : Checked α) : x.hush.Yields fun _ => True := by
  cases x with
  | error f => rfl
  | ok a => trivial

end Checked

open Checked

def Heuristic.hushed {μ : Type} (h : Heuristic μ) : Heuristic μ :=
  { h with
    evaluate := fun memory problem plan => (h.evaluate memory problem plan).hush
    observe := fun memory problem plan => (h.observe memory problem plan).hush }

theorem Heuristic.hushed_quiet {μ : Type} (h : Heuristic μ) : h.hushed.Quiet :=
  fun _ _ _ => ⟨hush_yields _, hush_yields _⟩

theorem Frontier.rebuildFrom_mirrors {α : Type} {score score' : α → Checked Score}
    (h : ∀ a, Mirrors id (score a) (score' a)) (f : Frontier α) (items : List α) :
    Mirrors id (rebuildFrom score f items) (rebuildFrom score' f items) := by
  induction items generalizing f with
  | nil => exact mirrors_ok f
  | cons a items ih => exact (h a).bind fun s => ih (f.insert s a)

namespace Search
variable {μ γ : Type} {problem : Problem} {h : Heuristic μ} {number : PlanId}

def hushed (s : Search μ γ) : Search μ γ := { s with heuristic := s.heuristic.hushed }

theorem score_mirrors (s : Search μ γ) (plan : Plan) :
    Mirrors id (s.score plan) (s.hushed.score plan) :=
  (mirrors_hush _).bind fun _ => Mirrors.refl _

theorem takeIn_mirrors (s : Search μ γ) (filed : Filed) (plan : Plan) :
    Mirrors (Prod.map hushed id) (s.takeIn filed plan) (s.hushed.takeIn filed plan) := by
  apply mirrors_ite
  · apply (Mirrors.refl _).bind
    intro tally
    exact mirrors_ok _
  · apply (mirrors_hush _).bind
    rintro ⟨memory, changed⟩
    apply (Mirrors.refl _).bind
    intro tally
    apply (score_mirrors { s with memory, tally } plan).bind
    intro score
    exact mirrors_ok _

theorem fileCounted_mirrors (s : Search μ γ) (filed : Filed) (c : Candidate) :
    Mirrors (Prod.map hushed id)
      (if c.plan.isFinished then do
        match ← c.plan.verify s.problem with
        | .error defect => .error (.invalidFinish c.plan.id defect)
        | .ok _ => s.takeIn filed c.plan
      else do
        let score ← s.score c.plan
        .ok ({ s with unfinished := s.unfinished.insert score c.plan }, filed))
      (if c.plan.isFinished then do
        match ← c.plan.verify s.problem with
        | .error defect => .error (.invalidFinish c.plan.id defect)
        | .ok _ => s.hushed.takeIn filed c.plan
      else do
        let score ← s.hushed.score c.plan
        .ok ({ s.hushed with unfinished := s.unfinished.insert score c.plan }, filed)) := by
  apply mirrors_ite
  · apply (Mirrors.refl _).bind
    intro verdict
    cases verdict with
    | error defect => exact fun _ h => by cases h
    | ok _ => exact takeIn_mirrors s filed c.plan
  · apply (score_mirrors s c.plan).bind
    intro score
    exact mirrors_ok _

theorem file_mirrors (s : Search μ γ) (filed : Filed) (c : Candidate) :
    Mirrors (Prod.map hushed id) (s.file filed c) (s.hushed.file filed c) := by
  apply mirrors_ite
  · apply (Mirrors.refl _).bind
    intro tally
    exact fileCounted_mirrors { s with tally } filed c
  · exact fileCounted_mirrors s filed c

theorem fileAll_mirrors (s : Search μ γ) (filed : Filed) (cs : List Candidate) :
    Mirrors (Prod.map hushed id) (s.fileAll filed cs) (s.hushed.fileAll filed cs) := by
  induction cs generalizing s filed with
  | nil => exact mirrors_ok _
  | cons c cs ih =>
    apply (file_mirrors s filed c).bind
    rintro ⟨s', filed'⟩
    exact ih s' filed'

theorem count_mirrors (s : Search μ γ) (e : Expansion) :
    Mirrors hushed (s.count e) (s.hushed.count e) := by
  apply (Mirrors.refl _).bind
  intro refused
  apply (Mirrors.refl _).bind
  intro counted
  apply mirrors_ite
  · apply (Mirrors.refl _).bind
    intro tally
    exact mirrors_ok _
  · exact mirrors_ok _

theorem rescore_mirrors (s : Search μ γ) : Mirrors hushed s.rescore s.hushed.rescore := by
  apply (Frontier.rebuildFrom_mirrors s.score_mirrors ∅ _).bind
  intro unfinished
  apply (Frontier.rebuildFrom_mirrors s.score_mirrors ∅ _).bind
  intro finished
  apply (Mirrors.refl _).bind
  intro tally
  exact mirrors_ok _

theorem stepFrom_mirrors (s : Search μ γ) (score : Score) (plan : Plan) :
    Mirrors (Prod.map id hushed) (s.stepFrom score plan) (s.hushed.stepFrom score plan) := by
  unfold stepFrom
  split
  · exact fun _ h => by cases h
  · rename_i leaf _
    apply (Mirrors.refl _).bind
    intro tally
    apply (Mirrors.refl _).bind
    rintro ⟨e, supply⟩
    apply (count_mirrors _ e).bind
    intro counted
    apply (fileAll_mirrors counted {} e.candidates).bind
    rintro ⟨filing, filed⟩
    apply mirrors_ite
    · apply (rescore_mirrors (filing.note plan leaf score e)).bind
      intro s'
      exact mirrors_ok _
    · exact mirrors_ok _

variable [Random.Source γ]

theorem step_mirrors (s : Search μ γ) : Mirrors (Prod.map id hushed) s.step s.hushed.step := by
  cases hpop : s.unfinished.popBest s.problem.search.tieBreak s.generator with
  | none =>
    have hstep : s.step = .ok (.exhausted, s) := by rw [step, hpop]
    have hstep' : s.hushed.step = .ok (.exhausted, s.hushed) := by
      simp only [step, hushed, hpop]
    rw [hstep, hstep']
    exact mirrors_ok _
  | some popped =>
    obtain ⟨score, plan, unfinished, generator⟩ := popped
    have hstep : s.step = { s with unfinished, generator }.stepFrom score plan := by
      rw [step, hpop]
    have hstep' : s.hushed.step = { s with unfinished, generator }.hushed.stepFrom score plan := by
      simp only [step, hushed, hpop]
    rw [hstep, hstep']
    exact stepFrom_mirrors _ score plan

theorem start_mirrors (problem : Problem) (h : Heuristic μ) (number : PlanId) :
    Mirrors hushed (Search.start (γ := γ) problem h number)
      (Search.start problem h.hushed number) := by
  have hscore : Mirrors id (h.score h.start problem (.empty problem number))
      (h.hushed.score h.start problem (.empty problem number)) :=
    (mirrors_hush _).bind fun _ => Mirrors.refl _
  apply hscore.bind
  intro score
  exact mirrors_ok _

/-! ## The loop -/

/-- The loop of the search, without a bound on its steps: it stops when it may, when a step fails
and when no plan has leaves, and else goes on. The number is that of the plans it has extended. -/
inductive Ends : Search μ γ → Nat → Checked (Bool × Search μ γ) → Prop
  | stop {s : Search μ γ} (may : s.mayStop = true) : Ends s 0 (.ok (false, s))
  | fail {s : Search μ γ} {f : Fault} (goes : s.mayStop = false) (failed : s.step = .error f) :
      Ends s 0 (.error f)
  | exhaust {s s' : Search μ γ} (goes : s.mayStop = false) (last : s.step = .ok (.exhausted, s')) :
      Ends s 0 (.ok (true, s'))
  | go {s s' : Search μ γ} {id : PlanId} {candidates finished steps : Nat}
      {result : Checked (Bool × Search μ γ)} (goes : s.mayStop = false)
      (taken : s.step = .ok (.expanded id candidates finished, s')) (rest : Ends s' steps result) :
      Ends s (steps + 1) result

/-- A run that allows for enough steps is the loop. -/
theorem Ends.runWithin_eq {s : Search μ γ} {steps : Nat} {result : Checked (Bool × Search μ γ)}
    (h : s.Ends steps result) {allowed : Nat} (enough : steps < allowed) :
    s.runWithin allowed = result := by
  induction h generalizing allowed with
  | stop may =>
    cases allowed with
    | zero => exact absurd enough (Nat.not_lt_zero _)
    | succ allowed => rw [runWithin, if_pos may]
  | fail goes failed =>
    cases allowed with
    | zero => exact absurd enough (Nat.not_lt_zero _)
    | succ allowed =>
      rw [runWithin, goes, failed]
      rfl
  | exhaust goes last =>
    cases allowed with
    | zero => exact absurd enough (Nat.not_lt_zero _)
    | succ allowed =>
      rw [runWithin, goes, last]
      rfl
  | go goes taken rest ih =>
    cases allowed with
    | zero => exact absurd enough (Nat.not_lt_zero _)
    | succ allowed =>
      rw [runWithin, goes, taken]
      exact ih (Nat.lt_of_succ_lt_succ enough)

theorem step_orderly {s s' : Search μ γ} {outcome : StepOutcome} (wp : problem.WellPosed)
    (hs : s.hushed.Orderly (fun _ _ => True) problem h.hushed) (taken : s.step = .ok (outcome, s'))
    (goes : outcome ≠ .exhausted) :
    s'.hushed.Orderly (fun _ _ => True) problem h.hushed ∧
      s'.hushed.pendingSteps < s.hushed.pendingSteps := by
  have hmirror := step_mirrors s _ taken
  rcases (hs.step_yields wp (h.hushed_quiet.respects problem)).result hmirror with
    ⟨hlast, _⟩ | ⟨_, hstep⟩
  · exact absurd (congrArg Prod.fst hlast) goes
  · exact ⟨hstep.orderly hs, hstep.pendingSteps_lt wp hs⟩

theorem exists_ends {s : Search μ γ} (wp : problem.WellPosed)
    (hs : s.hushed.Orderly (fun _ _ => True) problem h.hushed) :
    ∃ steps result, s.Ends steps result ∧ steps ≤ s.hushed.pendingSteps := by
  -- by induction on the steps that can follow
  induction hn : s.hushed.pendingSteps using Nat.strong_induction_on generalizing s with
  | _ n ih =>
    subst hn
    cases goes : s.mayStop with
    | true => exact ⟨0, _, .stop goes, Nat.zero_le _⟩
    | false =>
      cases hstep : s.step with
      | error f => exact ⟨0, _, .fail goes hstep, Nat.zero_le _⟩
      | ok r =>
        obtain ⟨outcome, s'⟩ := r
        cases outcome with
        | exhausted => exact ⟨0, _, .exhaust goes hstep, Nat.zero_le _⟩
        | expanded id candidates finished =>
          obtain ⟨hs', hfewer⟩ := step_orderly wp hs hstep (by intro he; cases he)
          obtain ⟨steps, result, hends, hle⟩ := ih _ hfewer hs' rfl
          exact ⟨steps + 1, result, .go goes hstep hends, by omega⟩

end Search

/-- Every search ends. A derivation makes at most two choices for each node, and as many more as
passes are allowed; the loop of a search therefore ends after fewer steps than the bound, by
stopping, by exhausting the frontier or by a fault, with any heuristic and any configuration, and
the bounded run is that loop. -/
theorem search_always_ends {kinds : List NodeKind} {root : NodeId} {g : Graph} {c : Config}
    {problem : Problem} (accepted : Graph.ofKinds kinds root = .ok g)
    (posed : Problem.ofConfig g c = .ok problem) :
    (∀ choices plan, Derives problem choices plan →
        choices.length ≤ (2 + c.switch.maxRecirculations.toNat) * g.size) ∧
      (∀ (μ γ : Type) [Random.Source γ] (h : Heuristic μ) number (s : Search μ γ),
        Search.start problem h number = .ok s → ∃ steps result, s.Ends steps result ∧
          steps < problem.stepBound ∧ s.runWithin problem.stepBound = result) ∧
      ∀ (γ : Type) [Random.Source γ], synthesize g c γ ≠ .ok (.error .endless) := by
  have wp := Problem.wellPosed_of_ofConfig accepted posed
  refine ⟨?_, ?_, ?_⟩
  · intro choices plan derived
    have hlength := derived.length_add_potential_le wp
    have hbound : problem.depthBound = (2 + c.switch.maxRecirculations.toNat) * g.size := by
      rw [Problem.eq_of_ofConfig posed]
      rfl
    omega
  · intro μ γ _ h number s started
    have hstart := (Search.start_yields (h.hushed_quiet.respects problem)).result
      (Search.start_mirrors problem h number s started)
    obtain ⟨hs, hopen, _, _⟩ := hstart
    obtain ⟨steps, result, hends, hle⟩ := Search.exists_ends wp hs
    have hlt := Nat.lt_of_le_of_lt hle (hs.pendingSteps_lt_stepBound wp hopen)
    exact ⟨steps, result, hends, hlt, hends.runWithin_eq hlt⟩
  · intro γ _ hendless
    exact absurd (synthesize_fault posed wp hendless) (by simp [Fault.ofSearch])

/-- A plan that needs a second pass: a choice for each of the four nodes, and one for the pass. -/
theorem search_for_second_lookup_ends :
    ∃ g problem plan, ∃ s : Search Heuristic.Best, Graph.ofKinds lookupTwice 3 = .ok g ∧
      Problem.ofConfig g {} = .ok problem ∧
      Derives problem [(⟨.switch, .route⟩, 0), (⟨.switch, .tableLookup⟩, 0),
        (⟨.switch, .recirculate⟩, 0), (⟨.switch, .tableLookup⟩, 0), (⟨.switch, .allocate⟩, 0)] plan ∧
      plan.leaves = [] ∧ 5 ≤ (2 + 1) * g.size ∧
      Search.start problem Heuristic.maxThroughput = .ok s ∧
      ∃ steps result, s.Ends steps result ∧ steps < problem.stepBound := by
  obtain ⟨g, accepted⟩ : ∃ g, Graph.ofKinds lookupTwice 3 = .ok g := ⟨_, rfl⟩
  obtain ⟨problem, posed, plan, derived, finished, s, started⟩ :
      ∃ problem, Problem.ofConfig g {} = .ok problem ∧ ∃ plan,
        Derives problem [(⟨.switch, .route⟩, 0), (⟨.switch, .tableLookup⟩, 0),
          (⟨.switch, .recirculate⟩, 0), (⟨.switch, .tableLookup⟩, 0),
          (⟨.switch, .allocate⟩, 0)] plan ∧ plan.leaves = [] ∧
        ∃ s : Search Heuristic.Best, Search.start problem Heuristic.maxThroughput = .ok s := by
    cases accepted
    exact ⟨_, rfl, _, derives_of_replay rfl, rfl, _, rfl⟩
  obtain ⟨hlength, hloop, _⟩ := search_always_ends accepted posed
  obtain ⟨steps, result, hends, hfew, _⟩ := hloop _ _ _ _ s started
  exact ⟨g, problem, plan, s, accepted, posed, derived, finished, hlength _ plan derived, started,
    steps, result, hends, hfew⟩

end PacketPlan
