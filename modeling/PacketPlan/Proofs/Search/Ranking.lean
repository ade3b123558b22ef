import PacketPlan.Proofs.Plan.Throughput
import PacketPlan.Proofs.Search.Accounting
import PacketPlan.Proofs.Search.Freshness

/-! # Finished plans in the order of their throughput

A search for throughput remembers the highest throughput of the plans it has finished. A finished
plan has nothing left to expect, so that its score goes by its throughput, and none beats the best.
As scores are up to date between steps, the plans are listed by throughput, the highest first.
-/
namespace PacketPlan

/-! ## The best so far -/

namespace Heuristic
variable {problem : Problem} {best : Best} {plans : List Plan}

/-- What is remembered is the highest throughput of these plans, and nothing if there are none. -/
structure Tops (best : Best) (problem : Problem) (plans : List Plan) : Prop where
  carried : ∀ plan ∈ plans, ∃ rate, plan.throughput problem = .ok rate ∧ ∃ b ∈ best, rate ≤ b
  attained : ∀ b ∈ best, ∃ plan ∈ plans, plan.throughput problem = .ok b

theorem Tops.perm {plans' : List Plan} (h : Tops best problem plans) (hp : plans'.Perm plans) :
    Tops best problem plans' where
  carried plan hplan := h.carried plan (hp.mem_iff.mp hplan)
  attained b hb := by
    obtain ⟨plan, hplan, hrate⟩ := h.attained b hb
    exact ⟨plan, hp.mem_iff.mpr hplan, hrate⟩

theorem beats_iff {rate : Nat} : beats best rate = true ↔ ∀ b ∈ best, b < rate := by
  cases best <;> simp [beats]

theorem Tops.observe {best' : Best} {plan : Plan} {changed : Bool} (h : Tops best problem plans)
    (ho : maxThroughput.observe best problem plan = .ok (best', changed)) :
    Tops best' problem (plan :: plans) := by
  obtain ⟨rate, hrate, ho⟩ := bind_eq_ok.mp ho
  split at ho
  · rename_i hbeats
    cases ho
    refine ⟨?_, ?_⟩
    · intro other hother
      rcases List.mem_cons.mp hother with rfl | hother
      · exact ⟨rate, hrate, rate, rfl, Nat.le_refl rate⟩
      · obtain ⟨r, hr, b, hb, hle⟩ := h.carried other hother
        exact ⟨r, hr, rate, rfl, hle.trans (beats_iff.mp hbeats b hb).le⟩
    · intro b hb
      cases hb
      exact ⟨plan, List.mem_cons_self, hrate⟩
  · rename_i hbeats
    cases ho
    refine ⟨?_, ?_⟩
    · intro other hother
      rcases List.mem_cons.mp hother with rfl | hother
      · simp only [beats_iff, not_forall, Nat.not_lt] at hbeats
        obtain ⟨b, hb, hle⟩ := hbeats
        exact ⟨rate, hrate, b, hb, hle⟩
      · exact h.carried other hother
    · intro b hb
      obtain ⟨other, hother, hr⟩ := h.attained b hb
      exact ⟨other, List.mem_cons_of_mem plan hother, hr⟩

theorem Tops.exists_rates (h : Tops best problem plans) :
    ∃ rates : List Nat, plans.map (fun plan => plan.throughput problem) = rates.map .ok := by
  have hall : ∀ plan ∈ plans, ∃ rate, plan.throughput problem = .ok rate := by
    intro plan hplan
    obtain ⟨rate, hrate, _⟩ := h.carried plan hplan
    exact ⟨rate, hrate⟩
  clear h
  induction plans with
  | nil => exact ⟨[], rfl⟩
  | cons plan plans ih =>
    obtain ⟨rate, hrate⟩ := hall plan List.mem_cons_self
    obtain ⟨rates, hrates⟩ := ih fun p hp => hall p (List.mem_cons_of_mem plan hp)
    exact ⟨rate :: rates, by rw [List.map_cons, List.map_cons, hrate, hrates]⟩

theorem mem_rates_iff {rates : List Nat}
    (hr : plans.map (fun plan => plan.throughput problem) = rates.map .ok) {rate : Nat} :
    rate ∈ rates ↔ ∃ plan ∈ plans, plan.throughput problem = .ok rate := by
  rw [← List.mem_map, hr, List.mem_map]
  simp

theorem Tops.eq_max? {rates : List Nat} (h : Tops best problem plans)
    (hr : plans.map (fun plan => plan.throughput problem) = rates.map .ok) : best = rates.max? := by
  cases best with
  | none =>
    have hnone : rates = [] := by
      rw [List.eq_nil_iff_forall_not_mem]
      intro rate hrate
      obtain ⟨plan, hplan, _⟩ := (mem_rates_iff hr).mp hrate
      obtain ⟨_, _, b, hb, _⟩ := h.carried plan hplan
      cases hb
    rw [hnone]
    rfl
  | some b =>
    symm
    rw [List.max?_eq_some_iff]
    refine ⟨(mem_rates_iff hr).mpr (h.attained b rfl), ?_⟩
    intro rate hrate
    obtain ⟨plan, hplan, hthroughput⟩ := (mem_rates_iff hr).mp hrate
    obtain ⟨rate', hrate', b', hb', hle⟩ := h.carried plan hplan
    cases hb'
    cases hthroughput.symm.trans hrate'
    exact hle

end Heuristic

/-! ## Scores of finished plans -/

theorem Plan.speculativeThroughput_of_finished {problem : Problem} {plan : Plan} {rate : Nat}
    (finished : plan.leaves = []) (hrate : plan.throughput problem = .ok rate)
    (hlt : rate < 2 ^ 63) : plan.speculativeThroughput problem = .ok rate := by
  have hnone : plan.sumLookaheads problem 0 plan.leaves = .ok 0 := by
    rw [finished]
    rfl
  refine bind_eq_ok.mpr ⟨rate, hrate, bind_eq_ok.mpr ⟨0, hnone, ?_⟩⟩
  apply Checked.add_eq_ok
  rw [Word.limit]
  omega

/-- A finished plan does not beat the best, and its score goes by its throughput. -/
theorem Heuristic.score_of_finished {problem : Problem} {plan : Plan} {rate b : Nat} {score : Score}
    (finished : plan.leaves = []) (hrate : plan.throughput problem = .ok rate)
    (hlt : rate < 2 ^ 63) (hle : rate ≤ b)
    (hs : maxThroughput.score (some b) problem plan = .ok score) :
    score.keys = [0, (rate : Int), plan.progress] := by
  have hspec := Plan.speculativeThroughput_of_finished finished hrate hlt
  obtain ⟨values, hvalues, hs⟩ := bind_eq_ok.mp hs
  rw [evaluate_maxThroughput hspec hlt] at hvalues
  cases hvalues
  have hbeats : beats (some b) rate = false := by simpa [beats] using hle
  rw [hbeats] at hs
  cases hs
  rfl

theorem Score.le_of_keys {s t : Score} {a b : Nat} {p q : Int} (hs : s.keys = [0, (a : Int), p])
    (ht : t.keys = [0, (b : Int), q]) (h : Ranked.before s t = false) : b ≤ a := by
  have hrank : lexBefore s.keys t.keys = false := h
  rw [hs, ht] at hrank
  by_contra hlt
  have hne : (a : Int) ≠ b := by omega
  have hbefore : (a : Int) < b := by omega
  simp [lexBefore, hne, hbefore] at hrank

namespace Search
variable {μ γ : Type} {problem : Problem} {h : Heuristic μ} {number : PlanId}

/-! ## Where plans come from -/

def Holds (s : Search μ γ) (plan : Plan) : Prop :=
  plan ∈ s.unfinished.toList ∨ plan ∈ s.finished.toList

theorem Files.holds {s s' : Search μ γ} {filed filed' : Filed} {c : Candidate} {counted : Tally}
    (hs : s.Regular problem h) (hfiles : Files s filed c counted s' filed') {plan : Plan}
    (hplan : s'.Holds plan) : plan = c.plan ∨ s.Holds plan := by
  cases hfiles with
  | keep leaves scored =>
    rcases hplan with hplan | hplan
    · have hplan := (Frontier.toList_insert hs.unfinished _ _).mem_iff.mp hplan
      exact (List.mem_cons.mp hplan).imp_right .inl
    · exact .inr (.inr hplan)
  | drop done sound stops enough tallied => exact .inr hplan
  | accept done sound wanted observed tallied scored =>
    rcases hplan with hplan | hplan
    · exact .inr (.inl hplan)
    · have hplan := (Frontier.toList_insert hs.finished _ _).mem_iff.mp hplan
      exact (List.mem_cons.mp hplan).imp_right .inr

theorem Regular.holds {s s' : Search μ γ} {filed filed' : Filed} {cs : List Candidate}
    (hs : s.Regular problem h) (hf : s.fileAll filed cs = .ok (s', filed')) {plan : Plan}
    (hplan : s'.Holds plan) : (∃ c ∈ cs, c.plan = plan) ∨ s.Holds plan := by
  have hall := fileAll_induction (P := fun before s' _ => s'.Regular problem h ∧
    ∀ plan, s'.Holds plan → (∃ c ∈ before, c.plan = plan) ∨ s.Holds plan) ?_ ?_ hf
  · exact hall.2 plan hplan
  · rintro before s' filed c counted s'' filed' ⟨regular, hbefore⟩ _ hfiles
    refine ⟨regular.files hfiles, ?_⟩
    intro plan hplan
    rcases hfiles.holds regular hplan with rfl | hplan
    · exact .inl ⟨c, by simp, rfl⟩
    · refine (hbefore plan hplan).imp_left ?_
      rintro ⟨d, hd, rfl⟩
      exact ⟨d, List.mem_append_left _ hd, rfl⟩
  · exact ⟨hs, fun _ hplan => .inr hplan⟩

theorem Passage.holds [Random.Source γ] {s s' took filled : Search μ γ} {plan : Plan} {leaf : Leaf}
    {score : Score} {e : Expansion} {filed : Filed}
    (hp : Passage problem h s s' plan leaf score e took filled filed)
    {other : Plan} (hother : s'.Holds other) : (∃ c ∈ e.candidates, c.plan = other) ∨
    s.Holds other := by
  have hfilled : filled.Holds other :=
    hother.imp hp.reranks.unfinished.mem_iff.mp hp.reranks.finished.mem_iff.mp
  refine (hp.regular.holds hp.files hfilled).imp_right ?_
  intro hold
  refine hold.imp (fun hmem => ?_) fun hmem => hp.finished_eq ▸ hmem
  exact hp.taken.mem_iff.mpr (List.mem_cons_of_mem plan hmem)

theorem Reached.derives [Random.Source γ] {s : Search μ γ} (hs : Reached problem h number s)
    {plan : Plan} (hplan : s.Holds plan) : ∃ choices, Derives problem choices plan := by
  refine (hs.invariant (P := fun s => ∀ plan, s.Holds plan →
    ∃ choices, Derives problem choices plan) ?_ ?_).2 plan hplan
  · intro s hstart plan hplan
    obtain ⟨score, _, rfl⟩ := start_eq_ok hstart
    rcases hplan with hplan | hplan
    · rw [Frontier.toList_insert_empty] at hplan
      cases List.mem_singleton.mp hplan
      exact ⟨[], .root number⟩
    · cases hplan
  · intro s s' outcome regular hbefore hm plan' hplan'
    obtain ⟨plan, leaf, score, e, took, filled, filed, hp⟩ := hm.passage regular
    rcases hp.holds hplan' with ⟨c, hc, rfl⟩ | hold
    · obtain ⟨choices, derived⟩ := hbefore plan (.inl (hp.taken.mem_iff.mpr List.mem_cons_self))
      exact derived.expandAll hp.expanded hc
    · exact hbefore plan' hold

/-! ## What a search for throughput remembers -/

theorem Files.tops {s s' : Search Heuristic.Best γ} {filed filed' : Filed} {c : Candidate}
    {counted : Tally} (hs : s.Regular problem .maxThroughput)
    (ht : Heuristic.Tops s.memory problem s.finished.toList)
    (hfiles : Files s filed c counted s' filed') :
    Heuristic.Tops s'.memory problem s'.finished.toList := by
  cases hfiles with
  | keep leaves scored => exact ht
  | drop done sound stops enough tallied => exact ht
  | accept done sound wanted observed tallied scored =>
    rw [hs.heuristic_eq, hs.problem_eq] at observed
    exact (ht.observe observed).perm (Frontier.toList_insert hs.finished _ c.plan)

variable [Random.Source γ]

theorem Reached.tops {s : Search Heuristic.Best γ} (hs : Reached problem .maxThroughput number s) :
    Heuristic.Tops s.memory problem s.finished.toList := by
  refine (hs.invariant (P := fun s => Heuristic.Tops s.memory problem s.finished.toList) ?_ ?_).2
  · intro s hstart
    obtain ⟨score, _, rfl⟩ := start_eq_ok hstart
    exact ⟨nofun, nofun⟩
  · intro s s' outcome regular ht hm
    obtain ⟨plan, leaf, score, e, took, filled, filed, hp⟩ := hm.passage regular
    have hfilled : filled.Regular problem .maxThroughput ∧
        Heuristic.Tops filled.memory problem filled.finished.toList := by
      refine fileAll_induction (P := fun _ s _ => s.Regular problem .maxThroughput ∧
        Heuristic.Tops s.memory problem s.finished.toList) ?_ ?_ hp.files
      · exact fun hbefore _ hfiles => ⟨hbefore.1.files hfiles, hfiles.tops hbefore.1 hbefore.2⟩
      · refine ⟨hp.regular, ?_⟩
        rw [hp.memory_eq, hp.finished_eq]
        exact ht
    rw [hp.keeps.1]
    exact hfilled.2.perm hp.reranks.finished

theorem Reached.keys_of_finished {s : Search Heuristic.Best γ}
    (hs : Reached problem .maxThroughput number s) {most : Nat} (within : problem.RatesWithin most)
    (hmost : most < 2 ^ 63) {plan : Plan} (hplan : plan ∈ s.finished.toList) {rate : Nat}
    (hrate : plan.throughput problem = .ok rate) {score : Score}
    (hscore : s.score plan = .ok score) : score.keys = [0, (rate : Int), plan.progress] := by
  obtain ⟨regular, hsift, _⟩ := hs.balanced
  obtain ⟨rate', hrate', b, hb, hle⟩ := hs.tops.carried plan hplan
  cases hrate.symm.trans hrate'
  obtain ⟨choices, derived⟩ := hs.derives (.inr hplan)
  obtain ⟨total, htotal, hbound⟩ := derived.shared.exists_throughput within hmost
  cases hrate.symm.trans htotal
  have hwhole : rate ≤ most := by
    exact_mod_cast hbound.trans (derived.shared.mul_carriedShare_le most)
  rw [Search.score, regular.heuristic_eq, regular.problem_eq, Option.mem_def.mp hb] at hscore
  exact Heuristic.score_of_finished (hsift.sound plan hplan).1 hrate (hwhole.trans_lt hmost) hle
    hscore

theorem Reached.throughput_pairwise {s : Search Heuristic.Best γ}
    (hs : Reached problem .maxThroughput number s) {most : Nat} (within : problem.RatesWithin most)
    (hmost : most < 2 ^ 63) :
    s.finished.toList.Pairwise fun plan next => ∀ rate rate', plan.throughput problem = .ok rate →
      next.throughput problem = .ok rate' → rate' ≤ rate := by
  have candid : Heuristic.maxThroughput.Candid :=
    Heuristic.candid_of_mem_all (by simp [Heuristic.all])
  obtain ⟨regular, current⟩ := hs.current candid
  have hpairs := regular.finished.toList_pairwise current.finished
  refine hpairs.imp_of_mem ?_
  rintro plan next hplan hnext ⟨score, score', hscore, hscore', hbefore⟩ rate rate' hrate hrate'
  exact Score.le_of_keys (hs.keys_of_finished within hmost hplan hrate hscore)
    (hs.keys_of_finished within hmost hnext hrate' hscore') hbefore

theorem Reached.ordered {s : Search Heuristic.Best γ} (hs : Reached problem .maxThroughput number s)
    {most : Nat} (within : problem.RatesWithin most) (hmost : most < 2 ^ 63) :
    s.finished.toList.length = s.tally.get .finishedPlans ∧
      ∃ rates : List Nat,
        s.finished.toList.map (fun plan => plan.throughput problem) = rates.map .ok ∧
        rates.Pairwise (· ≥ ·) ∧ s.memory = rates.max? := by
  obtain ⟨regular, hsift, _⟩ := hs.balanced
  refine ⟨regular.finished.length_toList.trans hsift.stored, ?_⟩
  obtain ⟨rates, hrates⟩ := hs.tops.exists_rates
  refine ⟨rates, hrates, ?_, hs.tops.eq_max? hrates⟩
  have hpairs : (s.finished.toList.map fun plan => plan.throughput problem).Pairwise fun x y =>
      ∀ rate rate', x = .ok rate → y = .ok rate' → rate' ≤ rate :=
    List.pairwise_map.mpr (hs.throughput_pairwise within hmost)
  rw [hrates, List.pairwise_map] at hpairs
  exact hpairs.imp fun h => h _ _ rfl rfl

end Search

/-- A search for throughput remembers the highest throughput of the plans it has finished, after
every step, and lists them by throughput, the highest first. -/
theorem throughput_search_is_ordered {g : Graph} {c : Config} {problem : Problem} {γ : Type}
    [Random.Source γ] (posed : Problem.ofConfig g c = .ok problem)
    (bounded : ∀ t ∈ c.targets.enabled, c.capacity t * 1000 < 2 ^ 63) :
    (∀ number, ∀ s : Search Heuristic.Best γ, Search.Reached problem .maxThroughput number s →
      s.finished.toList.length = s.tally.get .finishedPlans ∧
      ∃ rates : List Nat,
        s.finished.toList.map (fun plan => plan.throughput problem) = rates.map .ok ∧
        rates.Pairwise (· ≥ ·) ∧ s.memory = rates.max?) ∧
    (c.search.heuristic = "max-throughput" → ∀ outcome, synthesize g c γ = .ok (.ok outcome) →
      outcome.finished.length = outcome.tally.get .finishedPlans ∧
      ∃ rates : List Nat,
        outcome.finished.map (fun plan => plan.throughput problem) = rates.map .ok ∧
        rates.Pairwise (· ≥ ·)) := by
  obtain ⟨fastest, hfastest, hmost⟩ := Problem.exists_fastest posed
  have within : problem.RatesWithin (c.capacity fastest * 1000) :=
    Problem.ratesWithin_of_ofConfig posed fun t ht => Nat.mul_le_mul_right 1000 (hmost t ht)
  have hordered : ∀ number, ∀ s : Search Heuristic.Best γ,
      Search.Reached problem .maxThroughput number s → _ :=
    fun number s hs => hs.ordered within (bounded fastest hfastest)
  refine ⟨hordered, ?_⟩
  intro named outcome ho
  obtain ⟨h, hname, hrun⟩ := exists_of_synthesize posed ho
  rw [named] at hname
  cases hname
  obtain ⟨s, hs, hrun⟩ := bind_eq_ok.mp hrun
  obtain ⟨s', hreached, _, _, houtcome, _⟩ := Search.exists_end_of_run hs hrun
  rw [houtcome]
  obtain ⟨hstored, rates, hrates, hpairs, _⟩ := hordered 0 s' hreached
  exact ⟨hstored, rates, hrates, hpairs⟩

def halfTimed : List NodeKind :=
  [.terminal (.forward 1), .terminal .drop, .call { function := "current_time", next := some 1 },
    .branch (.term "c" 1) 0 2]

/-- Both sides stay on the switch, or one of them or the whole is handed over. -/
theorem half_timed_search_is_ordered :
    ∃ g problem outcome, ∃ s : Search Heuristic.Best, Graph.ofKinds halfTimed 3 = .ok g ∧
      Problem.ofConfig g learning = .ok problem ∧ synthesize g learning = .ok (.ok outcome) ∧
      outcome.finished.map (fun plan => plan.throughput problem) =
        [3200000, 1610000, 20000].map .ok ∧
      [3200000, 1610000, 20000].Pairwise (· ≥ ·) ∧
      Search.Reached problem .maxThroughput 0 s ∧ outcome.finished = s.finished.toList ∧
      s.memory = some 3200000 := by
  obtain ⟨g, hg⟩ : ∃ g, Graph.ofKinds halfTimed 3 = .ok g := ⟨_, rfl⟩
  obtain ⟨problem, posed⟩ : ∃ problem, Problem.ofConfig g learning = .ok problem := by
    cases hg
    exact ⟨_, rfl⟩
  obtain ⟨outcome, ho, hcarried⟩ := exists_outcome (g := g) (c := learning)
    (p := fun o => o.finished.map (fun plan => (plan.throughput problem).toOption) =
      [some 3200000, some 1610000, some 20000]) (by cases hg; cases posed; decide +kernel)
  obtain ⟨hmet, hend⟩ := throughput_search_is_ordered (γ := Random.Generator) posed (by decide)
  obtain ⟨_, rates, hrates, hpairs⟩ := hend rfl outcome ho
  have hlisted : rates = [3200000, 1610000, 20000] := by
    have hsome := congrArg (List.map Except.toOption) hrates
    rw [List.map_map, List.map_map] at hsome
    exact List.map_injective_iff.mpr (Option.some_injective Nat)
      (hsome.symm.trans (of_decide_eq_true hcarried))
  rw [hlisted] at hrates hpairs
  obtain ⟨h, named, hrun⟩ := exists_of_synthesize posed ho
  cases named
  obtain ⟨s, hs, hrun⟩ := bind_eq_ok.mp hrun
  obtain ⟨s', hreached, hfinished⟩ := Search.exists_reached_of_run hs hrun
  obtain ⟨_, rates', hrates', _, hmemory⟩ := hmet 0 s' hreached
  rw [← hfinished, hrates] at hrates'
  have hsame := List.map_injective_iff.mpr (fun _ _ => Except.ok.inj) hrates'
  rw [← hsame] at hmemory
  exact ⟨g, problem, outcome, s', hg, posed, ho, hrates, hpairs, hreached, hfinished, hmemory⟩

end PacketPlan
