import Mathlib.Data.List.Induction
import PacketPlan.Pipeline.Stages
import PacketPlan.Proofs.Checked

/-! # Placed objects stay where they are

A request that is accepted finds its object a stage behind all of its dependencies. Later requests
move nothing, so recorded requests hold for ever, and the stages that are in use stay in use. The
facts are proved for one request and carried along any sequence of them.
-/
namespace PacketPlan.Pipeline
variable {p q : Pipeline} {o : SwitchObject} {d : Demand} {deps : ObjectSet}
variable {requested : Option Nat}

/-- Stages stand at the position that they name. -/
def Indexed (p : Pipeline) : Prop :=
  ∀ (i : Nat) (s : Stage), p.stages[i]? = some s → s.index = i

def Keeps (p : Pipeline) (o : SwitchObject) (deps : ObjectSet) : Prop :=
  ∃ stage, p.stageOf? o = some stage ∧ ∀ dep ∈ deps, ∃ s, p.stageOf? dep = some s ∧ s < stage

structure Sound (p : Pipeline) : Prop where
  indexed : p.Indexed
  keeps : ∀ e ∈ p.requests, p.Keeps e.1 e.2

/-! ## What is located -/

theorem earliestFrom_spec {earliest last : Nat} {binding final : Option SwitchObject}
    {xs : List SwitchObject} (h : p.earliestFrom o earliest binding xs = .ok (last, final)) :
    earliest ≤ last ∧ ∀ dep ∈ xs, ∃ s, p.stageOf? dep = some s ∧ s < last := by
  induction xs generalizing earliest binding with
  | nil =>
    cases h
    exact ⟨Nat.le_refl _, by simp⟩
  | cons x xs ih =>
    simp only [earliestFrom] at h
    cases hx : p.stageOf? x with
    | none => simp [hx] at h
    | some s =>
      simp only [hx] at h
      split at h
      · rename_i hlt
        obtain ⟨hle, hall⟩ := ih h
        refine ⟨by omega, ?_⟩
        intro dep hdep
        rcases List.mem_cons.mp hdep with rfl | hdep
        · exact ⟨s, hx, hle⟩
        · exact hall dep hdep
      · rename_i hlt
        obtain ⟨hle, hall⟩ := ih h
        refine ⟨hle, ?_⟩
        intro dep hdep
        rcases List.mem_cons.mp hdep with rfl | hdep
        · exact ⟨s, hx, by omega⟩
        · exact hall dep hdep

theorem locateHeld_spec {placed : Placement} {need : Budget} {earliest : Nat} {located : Located}
    (h : p.locateHeld o placed need earliest requested = .ok located) :
    earliest ≤ placed.stage ∧ requested.filter (· ≠ placed.stage) = none ∧
      (p.remainingAt placed.stage).covers (need - placed.footprint) = true ∧
      located = .held placed.stage (need - placed.footprint) (max placed.footprint need) := by
  unfold locateHeld at h
  split at h
  · cases h
  · rename_i hle
    split at h
    · cases h
    · rename_i hreq
      simp only at h
      split at h
      · rename_i hcov
        cases h
        exact ⟨by omega, hreq, hcov, rfl⟩
      · cases h

theorem locateFresh_spec (hp : p.Indexed) {need : Budget} {earliest : Nat}
    {binding : Option SwitchObject} {located : Located}
    (h : p.locateFresh o need earliest binding requested = .ok located) :
    ∃ stage s, earliest ≤ stage ∧ p.stages[stage]? = some s ∧ s.remaining.covers need = true ∧
      located = .fresh stage need := by
  cases requested with
  | some stage =>
    simp only [locateFresh] at h
    split at h
    · cases h
    · rename_i hle
      split at h
      · rename_i s hs
        split at h
        · rename_i hcov
          cases h
          exact ⟨stage, s, by omega, hs, hcov, rfl⟩
        · cases h
      · cases h
  | none =>
    simp only [locateFresh] at h
    split at h
    · rename_i s hs
      cases h
      obtain ⟨i, hi⟩ := List.mem_iff_getElem?.mp (List.mem_of_find?_eq_some hs)
      rw [List.getElem?_drop] at hi
      have hcov : s.remaining.covers need = true := by simpa using List.find?_some hs
      refine ⟨s.index, s, ?_, ?_, hcov, rfl⟩
      · rw [hp _ _ hi]
        exact Nat.le_add_right earliest i
      · rw [hp _ _ hi]
        exact hi
    · cases h

/-- Whatever is located stands behind the dependencies: in the stage that holds the object, or in
one that takes it in. -/
theorem locate_spec (hp : p.Indexed) {located : Located}
    (h : p.locate o d deps requested = .ok located) :
    o ∉ deps ∧ (∀ dep ∈ deps, ∃ s, p.stageOf? dep = some s ∧ s < located.stage) ∧
      ((∃ placed growth footprint, p.placements.get? o = some placed ∧
          located = .held placed.stage growth footprint) ∨
        (p.placements.get? o = none ∧ ∃ stage s need, p.stages[stage]? = some s ∧
          s.remaining.covers need = true ∧ located = .fresh stage need)) := by
  unfold locate at h
  split at h
  · cases h
  · rename_i hself
    refine ⟨hself, ?_⟩
    obtain ⟨need, _, h⟩ := bind_eq_ok.mp h
    obtain ⟨⟨earliest, binding⟩, he, h⟩ := bind_eq_ok.mp h
    obtain ⟨_, hdeps⟩ := earliestFrom_spec he
    have hbehind : earliest ≤ located.stage →
        ∀ dep ∈ deps, ∃ s, p.stageOf? dep = some s ∧ s < located.stage := by
      intro hle dep hdep
      obtain ⟨s, hs, hlt⟩ := hdeps dep hdep
      exact ⟨s, hs, by omega⟩
    cases hplaced : p.placements.get? o with
    | some placed =>
      simp only [hplaced] at h
      obtain ⟨hle, _, _, rfl⟩ := locateHeld_spec h
      exact ⟨hbehind hle, Or.inl ⟨placed, _, _, rfl, rfl⟩⟩
    | none =>
      simp only [hplaced] at h
      split at h
      · cases h
      · obtain ⟨stage, s, hle, hs, hcov, rfl⟩ := locateFresh_spec hp h
        exact ⟨hbehind hle, Or.inr ⟨rfl, stage, s, need, hs, hcov, rfl⟩⟩

/-! ## What is committed -/

@[simp] theorem record_placements : (p.record o deps).placements = p.placements := by
  unfold record
  split <;> rfl

@[simp] theorem record_stages : (p.record o deps).stages = p.stages := by
  unfold record
  split <;> rfl

theorem mem_record_requests {e : SwitchObject × ObjectSet} :
    e ∈ (p.record o deps).requests ↔ e ∈ p.requests ∨ e = (o, deps) := by
  unfold record
  split
  · rename_i h
    constructor
    · exact Or.inl
    · rintro (he | rfl)
      · exact he
      · exact h
  · simp

theorem mem_commit_requests {located : Located} {e : SwitchObject × ObjectSet} :
    e ∈ (p.commit o d deps located).requests ↔ e ∈ p.requests ∨ e = (o, deps) := by
  cases located with
  | held stage growth footprint =>
    simp only [commit]
    split <;> exact mem_record_requests
  | fresh stage need => exact mem_record_requests

theorem stageOf?_eq_none : p.stageOf? o = none ↔ p.placements.get? o = none :=
  Option.map_eq_none_iff

theorem isPlaced_iff : p.isPlaced o = true ↔ ∃ stage, p.stageOf? o = some stage := by
  unfold isPlaced OrdMap.contains stageOf?
  cases p.placements.get? o <;> simp

theorem isPlaced_eq_false_iff : p.isPlaced o = false ↔ p.placements.get? o = none :=
  Option.isSome_eq_false_iff.trans Option.isNone_iff_eq_none

theorem stageOf?_commit (hp : p.Indexed) {located : Located}
    (h : p.locate o d deps requested = .ok located) (x : SwitchObject) :
    (p.commit o d deps located).stageOf? x =
      if x = o then some located.stage else p.stageOf? x := by
  obtain ⟨_, _, ⟨placed, growth, footprint, hplaced, rfl⟩ | ⟨_, stage, s, need, _, _, rfl⟩⟩ :=
    locate_spec hp h
  · simp only [commit, stageOf?, record_placements, Located.stage]
    split
    · by_cases hx : x = o
      · subst hx
        simp [hplaced]
      · simp [hx]
    · rw [OrdMap.get?_insert]
      by_cases hx : x = o
      · simp [hx]
      · simp [hx]
  · simp only [commit, stageOf?, record_placements, Located.stage, OrdMap.get?_insert]
    by_cases hx : x = o
    · simp [hx]
    · simp [hx]

theorem getElem?_debit (stages : List Stage) (stage i : Nat) (amount : Budget) :
    (debit stages stage amount)[i]? = (stages[i]?).map fun s =>
      if stage = i then { s with remaining := s.remaining - amount } else s := by
  unfold debit
  rw [List.getElem?_modify]
  by_cases hi : stage = i
  · simp [hi]
  · simp [hi]

theorem getElem?_commit (o : SwitchObject) (d : Demand) (deps : ObjectSet) (located : Located)
    {i : Nat} {s : Stage} (hs : p.stages[i]? = some s) :
    ∃ t, (p.commit o d deps located).stages[i]? = some t ∧ t.index = s.index ∧
      ∀ x ∈ s.objects, x ∈ t.objects := by
  cases located with
  | held stage growth footprint =>
    simp only [commit, record_stages]
    split
    · exact ⟨s, hs, rfl, fun _ hx => hx⟩
    · simp only [getElem?_debit, hs, Option.map_some]
      split
      · exact ⟨_, rfl, rfl, fun _ hx => hx⟩
      · exact ⟨_, rfl, rfl, fun _ hx => hx⟩
  | fresh stage need =>
    simp only [commit, record_stages, List.getElem?_modify, getElem?_debit, hs, Option.map_some]
    split
    · refine ⟨_, rfl, rfl, ?_⟩
      intro x hx
      exact (OrdSet.mem_insert s.objects o x).mpr (Or.inr hx)
    · exact ⟨_, rfl, rfl, fun _ hx => hx⟩

@[simp] theorem length_commit_stages {located : Located} :
    (p.commit o d deps located).stages.length = p.stages.length := by
  cases located with
  | held =>
    simp only [commit, record_stages]
    split
    · rfl
    · exact List.length_modify ..
  | fresh => simp [commit, debit]

/-! ## Sequences of requests -/

/-- The second pipeline comes of the first by accepted requests, each for the earliest stage or
for a stage of its own. -/
inductive Leads (p : Pipeline) : Pipeline → Prop
  | refl : Leads p p
  | place {q r : Pipeline} {o : SwitchObject} {d : Demand} {deps : ObjectSet}
      {requested : Option Nat} {stage : Nat} (before : Leads p q)
      (accepted : q.placeWithin o d deps requested = .ok (stage, r)) : Leads p r

theorem placeWithin_eq_ok {stage : Nat} (h : p.placeWithin o d deps requested = .ok (stage, q)) :
    ∃ located, p.locate o d deps requested = .ok located ∧ stage = located.stage ∧
      q = p.commit o d deps located := by
  obtain ⟨located, hl, h⟩ := bind_eq_ok.mp h
  cases h
  exact ⟨located, hl, rfl, rfl⟩

theorem commit_indexed (hp : p.Indexed) {located : Located} :
    (p.commit o d deps located).Indexed := by
  intro i t ht
  have hi : i < p.stages.length := by
    have := (List.getElem?_eq_some_iff.mp ht).1
    rwa [length_commit_stages] at this
  have hs := List.getElem?_eq_getElem hi
  obtain ⟨t', ht', hidx, _⟩ := getElem?_commit o d deps located hs
  rw [ht] at ht'
  cases ht'
  rw [hidx]
  exact hp i _ hs

theorem stageOf?_commit_of_some (hp : p.Indexed) {located : Located}
    (h : p.locate o d deps requested = .ok located) {x : SwitchObject} {stage : Nat}
    (hx : p.stageOf? x = some stage) : (p.commit o d deps located).stageOf? x = some stage := by
  rw [stageOf?_commit hp h]
  split
  · rename_i he
    subst he
    obtain ⟨_, _, ⟨placed, growth, footprint, hplaced, rfl⟩ | ⟨hnone, _⟩⟩ := locate_spec hp h
    · simpa [stageOf?, hplaced, Located.stage] using hx
    · rw [stageOf?_eq_none.mpr hnone] at hx
      cases hx
  · exact hx

theorem Keeps.commit (hp : p.Indexed) {located : Located}
    (h : p.locate o d deps requested = .ok located) {x : SwitchObject} {xs : ObjectSet}
    (hx : p.Keeps x xs) : (p.commit o d deps located).Keeps x xs := by
  obtain ⟨stage, hs, hdeps⟩ := hx
  refine ⟨stage, stageOf?_commit_of_some hp h hs, ?_⟩
  intro dep hdep
  obtain ⟨s, hs, hlt⟩ := hdeps dep hdep
  exact ⟨s, stageOf?_commit_of_some hp h hs, hlt⟩

theorem keeps_of_locate (hp : p.Indexed) {located : Located}
    (h : p.locate o d deps requested = .ok located) : (p.commit o d deps located).Keeps o deps := by
  obtain ⟨hself, hdeps, _⟩ := locate_spec hp h
  refine ⟨located.stage, by rw [stageOf?_commit hp h, if_pos rfl], ?_⟩
  intro dep hdep
  obtain ⟨s, hs, hlt⟩ := hdeps dep hdep
  have hne : dep ≠ o := fun he => hself (he ▸ hdep)
  exact ⟨s, by rw [stageOf?_commit hp h, if_neg hne, hs], hlt⟩

theorem Sound.placeWithin (hp : p.Sound) {stage : Nat}
    (h : p.placeWithin o d deps requested = .ok (stage, q)) : q.Sound := by
  obtain ⟨located, hl, _, rfl⟩ := placeWithin_eq_ok h
  refine ⟨commit_indexed hp.indexed, ?_⟩
  intro e he
  rcases mem_commit_requests.mp he with he | rfl
  · exact (hp.keeps e he).commit hp.indexed hl
  · exact keeps_of_locate hp.indexed hl

theorem Leads.sound (h : Leads p q) (hp : p.Sound) : q.Sound := by
  induction h with
  | refl => exact hp
  | place _ accepted ih => exact ih.placeWithin accepted

theorem Leads.trans {r : Pipeline} (h : Leads p q) (h' : Leads q r) : Leads p r := by
  induction h' with
  | refl => exact h
  | place _ accepted ih => exact ih.place accepted

theorem Leads.stageOf?_of_some (h : Leads p q) (hp : p.Indexed) {x : SwitchObject} {s : Nat}
    (hx : p.stageOf? x = some s) : q.Indexed ∧ q.stageOf? x = some s := by
  induction h with
  | refl => exact ⟨hp, hx⟩
  | place _ accepted ih =>
    obtain ⟨located, hl, _, rfl⟩ := placeWithin_eq_ok accepted
    exact ⟨commit_indexed ih.1, stageOf?_commit_of_some ih.1 hl ih.2⟩

theorem sound_ofConfig (c : SwitchConfig) : (ofConfig c).Sound := by
  constructor
  · intro i s hs
    simp only [ofConfig, List.getElem?_map] at hs
    obtain ⟨j, hj, rfl⟩ := Option.map_eq_some_iff.mp hs
    obtain ⟨hlt, rfl⟩ := List.getElem?_eq_some_iff.mp hj
    simp
  · intro e he
    simp [ofConfig] at he

theorem recheckDeps_eq_ok {stage : Nat} {xs : List SwitchObject}
    (h : ∀ dep ∈ xs, ∃ s, p.stageOf? dep = some s ∧ s < stage) :
    p.recheckDeps o stage xs = .ok () := by
  induction xs with
  | nil => rfl
  | cons x xs ih =>
    obtain ⟨s, hs, hlt⟩ := h x List.mem_cons_self
    simp only [recheckDeps, hs, if_pos hlt]
    exact ih fun dep hdep => h dep (List.mem_cons_of_mem x hdep)

theorem Sound.revalidate (hp : p.Sound) : p.revalidate = .ok () := by
  have h : ∀ requests : List (SwitchObject × ObjectSet),
      (∀ e ∈ requests, p.Keeps e.1 e.2) → p.recheck requests = .ok () := by
    intro requests
    induction requests with
    | nil => exact fun _ => rfl
    | cons e requests ih =>
      intro hall
      obtain ⟨stage, hs, hdeps⟩ := hall e List.mem_cons_self
      simp only [recheck, hs, recheckDeps_eq_ok hdeps]
      exact ih fun e' he' => hall e' (List.mem_cons_of_mem e he')
  exact h p.requests hp.keeps

/-! ## Stages in use -/

theorem lt_length_used {stages : List Stage} {i : Nat} :
    i < (stages.reverse.dropWhile fun s => s.objects.isEmpty).length ↔
      ∃ (j : Nat) (s : Stage), i ≤ j ∧ stages[j]? = some s ∧ s.objects.isEmpty = false := by
  induction stages using List.reverseRecOn with
  | nil => simp
  | append_singleton stages last ih =>
    rw [List.reverse_concat, List.dropWhile_cons]
    cases hlast : last.objects.isEmpty with
    | true =>
      rw [if_pos rfl, ih]
      constructor
      · rintro ⟨j, s, hij, hs, he⟩
        refine ⟨j, s, hij, ?_, he⟩
        rw [List.getElem?_append_left (List.getElem?_eq_some_iff.mp hs).1, hs]
      · rintro ⟨j, s, hij, hs, he⟩
        have hj : j < stages.length := by
          have hle := (List.getElem?_eq_some_iff.mp hs).1
          rw [List.length_append, List.length_singleton] at hle
          rcases Nat.lt_or_ge j stages.length with hlt | hge
          · exact hlt
          · have hj : j = stages.length := by omega
            subst hj
            rw [List.getElem?_concat_length] at hs
            cases hs
            rw [hlast] at he
            cases he
        rw [List.getElem?_append_left hj] at hs
        exact ⟨j, s, hij, hs, he⟩
    | false =>
      rw [if_neg (by simp), List.length_cons, List.length_reverse]
      constructor
      · intro hi
        exact ⟨stages.length, last, by omega, List.getElem?_concat_length, hlast⟩
      · rintro ⟨j, s, hij, hs, _⟩
        have hle := (List.getElem?_eq_some_iff.mp hs).1
        rw [List.length_append, List.length_singleton] at hle
        omega

theorem stagesUsed_le_commit (o : SwitchObject) (d : Demand) (deps : ObjectSet)
    (located : Located) : p.stagesUsed ≤ (p.commit o d deps located).stagesUsed := by
  rcases Nat.eq_zero_or_pos p.stagesUsed with h0 | hpos
  · rw [h0]
    exact Nat.zero_le _
  · obtain ⟨j, s, hij, hs, he⟩ := lt_length_used.mp (Nat.sub_one_lt_of_lt hpos)
    obtain ⟨t, ht, _, hsub⟩ := getElem?_commit o d deps located hs
    have hne : t.objects.isEmpty = false := by
      cases hx : s.objects.elems with
      | nil => simp [OrdSet.isEmpty, hx] at he
      | cons x xs =>
        have hmem : x ∈ t.objects := hsub x (by change x ∈ s.objects.elems; simp [hx])
        exact List.isEmpty_eq_false_iff_exists_mem.mpr ⟨x, hmem⟩
    have hlt := lt_length_used.mpr ⟨j, t, hij, ht, hne⟩
    exact Nat.le_of_pred_lt hlt

theorem Leads.stagesUsed_le (h : Leads p q) : p.stagesUsed ≤ q.stagesUsed := by
  induction h with
  | refl => exact Nat.le_refl _
  | place _ accepted ih =>
    obtain ⟨located, _, _, rfl⟩ := placeWithin_eq_ok accepted
    exact Nat.le_trans ih (stagesUsed_le_commit _ _ _ located)

end PacketPlan.Pipeline
