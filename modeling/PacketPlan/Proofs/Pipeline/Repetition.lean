import PacketPlan.Proofs.Pipeline.Earliest

/-! # Requests made again

A request that was accepted has left its mark: its object is placed behind the dependencies, holds
all that was asked for, and the request is on record. No later request takes any of this away, since
objects keep their stages and only grow. So the request can be made again at any time, with or
without naming the stage. It finds the object where it was, and the pipeline does not change at all,
be its stages full and its slots for digests used up.

A request that was refused may fare better in a new pass, which has nothing behind it. It does not
if the refusal has nothing to do with what the pass has met: that the demand is too large for any
stage and that no slot is left are found out alike with and without dependencies.
-/
namespace PacketPlan

namespace Budget

theorem max_covers_left (a b : Budget) : (max a b).covers a = true := by
  simp only [covers_iff, max_sram, max_tcam, max_xbar, max_ids]
  omega

theorem max_covers_right (a b : Budget) : (max a b).covers b = true := by
  simp only [covers_iff, max_sram, max_tcam, max_xbar, max_ids]
  omega

theorem sub_eq_of_covers {held need : Budget} (h : held.covers need = true) : need - held = {} := by
  rw [covers_iff] at h
  simp only [sub_def, mk.injEq]
  omega

end Budget

namespace Pipeline
variable {p q : Pipeline} {o x : SwitchObject} {d e : Demand} {deps xs : ObjectSet}
variable {requested : Option Nat} {located : Located} {stage : Nat}

/-! ## What objects hold -/

theorem footprint_covers (hp : p.Indexed) (h : p.locate o d deps requested = .ok located) :
    (∀ need, d.footprint? = some need → located.footprint.covers need = true) ∧
      ∀ placed, p.placements.get? o = some placed →
        located.footprint.covers placed.footprint = true := by
  obtain ⟨need, hneed, ⟨placed, hplaced, _, rfl⟩ | ⟨hnone, _, stage, s, _, _, rfl⟩⟩ :=
    locate_grants hp h
  · rw [hneed, hplaced]
    constructor
    · rintro _ ⟨⟩
      exact Budget.max_covers_right _ _
    · rintro _ ⟨⟩
      exact Budget.max_covers_left _ _
  · rw [hneed, hnone]
    constructor
    · rintro _ ⟨⟩
      exact Budget.covers_refl _
    · intro placed hplaced
      cases hplaced

theorem get?_commit_of_some (hp : p.Indexed) (h : p.locate o d deps requested = .ok located)
    {placed : Placement} (hplaced : p.placements.get? x = some placed) :
    ∃ footprint, (p.commit o d deps located).placements.get? x = some ⟨placed.stage, footprint⟩ ∧
      footprint.covers placed.footprint = true := by
  rw [get?_commit hp h]
  by_cases hx : x = o
  · subst hx
    have hbefore : p.stageOf? x = some placed.stage := by
      rw [stageOf?, hplaced]
      rfl
    have hstage := stageOf?_commit_of_some hp h hbefore
    rw [stageOf?_commit hp h, if_pos rfl] at hstage
    rw [if_pos rfl, Option.some.inj hstage]
    exact ⟨located.footprint, rfl, (footprint_covers hp h).2 placed hplaced⟩
  · rw [if_neg hx, hplaced]
    exact ⟨placed.footprint, rfl, Budget.covers_refl _⟩

theorem Leads.get?_of_some (h : Leads p q) (hp : p.Indexed) {placed : Placement}
    (hplaced : p.placements.get? x = some placed) : q.Indexed ∧
      ∃ footprint, q.placements.get? x = some ⟨placed.stage, footprint⟩ ∧
        footprint.covers placed.footprint = true := by
  induction h with
  | refl => exact ⟨hp, placed.footprint, hplaced, Budget.covers_refl _⟩
  | place _ accepted ih =>
    obtain ⟨located, hl, _, rfl⟩ := placeWithin_eq_ok accepted
    obtain ⟨hindexed, footprint, hget, hcovers⟩ := ih
    obtain ⟨larger, hget', hcovers'⟩ := get?_commit_of_some hindexed hl hget
    exact ⟨commit_indexed hindexed, larger, hget', Budget.covers_trans hcovers' hcovers⟩

/-! ## Requests that are met -/

/-- All that a request asks for is there, and the request is on record. -/
structure Met (p : Pipeline) (o : SwitchObject) (d : Demand) (deps : ObjectSet) (stage : Nat) :
    Prop where
  apart : o ∉ deps
  recorded : (o, deps) ∈ p.requests
  behind : ∀ dep ∈ deps, ∃ s, p.stageOf? dep = some s ∧ s < stage
  holds : ∃ footprint need, p.placements.get? o = some ⟨stage, footprint⟩ ∧
    p.needOf o d = .ok need ∧ footprint.covers need = true

theorem needOf_of_locate (h : p.locate o d deps requested = .ok located) :
    ∃ need, p.needOf o d = .ok need := by
  unfold locate at h
  split at h
  · cases h
  · obtain ⟨need, hneed, _⟩ := bind_eq_ok.mp h
    exact ⟨need, hneed⟩

theorem met_of_locate (hp : p.Indexed) (h : p.locate o d deps requested = .ok located) :
    (p.commit o d deps located).Met o d deps located.stage := by
  obtain ⟨apart, _, _⟩ := locate_spec hp h
  obtain ⟨stage, hstage, hbehind⟩ := keeps_of_locate hp h
  rw [stageOf?_commit hp h, if_pos rfl] at hstage
  cases hstage
  obtain ⟨need, hneed⟩ := needOf_of_locate h
  refine ⟨apart, mem_commit_requests.mpr (.inr rfl), hbehind, located.footprint, need, ?_, ?_, ?_⟩
  · rw [get?_commit hp h, if_pos rfl]
  · rw [needOf_commit]
    exact hneed
  · exact (footprint_covers hp h).1 need (needOf_eq_ok hneed)

theorem Met.commit (hmet : p.Met x e xs stage) (hp : p.Indexed)
    (h : p.locate o d deps requested = .ok located) :
    (p.commit o d deps located).Met x e xs stage := by
  obtain ⟨footprint, need, hplaced, hneed, hcovers⟩ := hmet.holds
  refine ⟨hmet.apart, mem_commit_requests.mpr (.inl hmet.recorded), ?_, ?_⟩
  · intro dep hdep
    obtain ⟨s, hs, hlt⟩ := hmet.behind dep hdep
    exact ⟨s, stageOf?_commit_of_some hp h hs, hlt⟩
  · rw [needOf_commit]
    obtain ⟨larger, hget, hgrown⟩ := get?_commit_of_some hp h hplaced
    exact ⟨larger, need, hget, hneed, Budget.covers_trans hgrown hcovers⟩

theorem Leads.met (h : Leads p q) (hp : p.Indexed) (hmet : p.Met x e xs stage) :
    q.Indexed ∧ q.Met x e xs stage := by
  induction h with
  | refl => exact ⟨hp, hmet⟩
  | place _ accepted ih =>
    obtain ⟨located, hl, _, rfl⟩ := placeWithin_eq_ok accepted
    exact ⟨commit_indexed ih.1, ih.2.commit ih.1 hl⟩

/-- A request that is met is granted where its object is, and nothing changes. -/
theorem Met.placeWithin (hmet : p.Met o d deps stage)
    (named : requested.filter (· ≠ stage) = none) :
    p.placeWithin o d deps requested = .ok (stage, p) := by
  obtain ⟨footprint, need, hplaced, hneed, hcovers⟩ := hmet.holds
  have hlacks : need - footprint = {} := Budget.sub_eq_of_covers hcovers
  have hroom : (p.remainingAt stage).covers (need - footprint) = true := by
    rw [hlacks, Budget.covers_iff]
    exact ⟨Nat.zero_le _, Nat.zero_le _, Nat.zero_le _, Nat.zero_le _⟩
  have hlocate : p.locate o d deps requested =
      .ok (.held stage (need - footprint) (max footprint need)) :=
    (locate_held_iff hplaced).mpr
      ⟨hmet.apart, hmet.behind, named, need, hneed, hroom, rfl⟩
  have hsame : p.commit o d deps (.held stage (need - footprint) (max footprint need)) = p := by
    simp only [Pipeline.commit, hlacks, Budget.isZero, decide_true, if_true]
    exact if_pos hmet.recorded
  refine bind_eq_ok.mpr ⟨_, hlocate, ?_⟩
  rw [hsame]
  rfl

/-! ## Requests that are refused -/

theorem locate_of_unfit {refusal : Refusal} (apart : o ∉ deps)
    (unfit : p.needOf o d = .error refusal) : p.locate o d deps requested = .error refusal := by
  rw [locate, if_neg apart, unfit]
  rfl

theorem locate_without_slots {need : Budget} (apart : o ∉ deps) (fits : p.needOf o d = .ok need)
    (met : ∀ dep ∈ deps, p.isPlaced dep = true) (new : p.placements.get? o = none)
    (digest : d.isDigest = true) (taken : p.digests = 0) :
    p.locate o d deps requested = .error (.noDigestSlots o) := by
  obtain ⟨binding, hearliest⟩ := earliestFrom_deps_iff.mpr ⟨met, rfl⟩
  rw [locate, if_neg apart, fits, hearliest, new, digest, taken]
  rfl

/-- A refusal that a new pass would not mend comes with any dependencies, if they are placed and the
object is not one of them. -/
theorem Declines.lasting {refusal : Refusal} (h : p.Declines o d deps refusal)
    (met : ∀ dep ∈ deps, p.isPlaced dep = true) (lasting : refusal.fixedByNewPass = false)
    (apart : o ∉ xs) (placed : ∀ x ∈ xs, p.isPlaced x = true) :
    o ∉ deps ∧ p.locate o d xs requested = .error refusal := by
  cases h with
  | itself | held | full => cases lasting
  | unfit apart' unfit => exact ⟨apart', locate_of_unfit apart unfit⟩
  | unmet listed absent =>
    rw [met _ listed] at absent
    cases absent
  | slots apart' fits new digest taken =>
    exact ⟨apart', locate_without_slots apart fits placed new digest taken⟩

end Pipeline

open Pipeline

/-- A request that was accepted is accepted again in the same stage, after whatever other requests
and whether or not the stage is named, and the pipeline stays as it is. -/
theorem accepted_request_costs_nothing_again (c : SwitchConfig) (requests more : List Request)
    (r : Request) {stage : Nat} {q : Pipeline}
    (accepted : (Account.after c requests).pipeline.attempt r = .ok (stage, q)) :
    let p := (Account.after c (requests ++ r :: more)).pipeline
    p.place r.object r.demand r.deps = .ok (stage, p) ∧
      p.placeAt r.object r.demand r.deps stage = .ok (stage, p) := by
  intro p
  have hindexed := (Account.sound_after c requests).indexed
  have hserved : (Account.after c requests).serve r = (Account.after c requests).accept q r := by
    rw [Account.serve, accepted]
  have hp : p = (more.foldl Account.serve ((Account.after c requests).accept q r)).pipeline := by
    rw [← hserved]
    exact congrArg Account.pipeline List.foldl_append
  obtain ⟨hleads, _⟩ := Account.foldl_serve ((Account.after c requests).accept q r) more
  rw [attempt_eq] at accepted
  obtain ⟨located, hl, rfl, rfl⟩ := placeWithin_eq_ok accepted
  obtain ⟨_, hmet⟩ := hleads.met (commit_indexed hindexed) (met_of_locate hindexed hl)
  rw [← hp] at hmet
  exact ⟨hmet.placeWithin rfl, hmet.placeWithin (by simp)⟩

/-- A digest takes the only slot there is. After that a second digest is refused, and registers grow
until the first stage is full; the first digest is granted again all the same. -/
theorem last_digest_is_granted_again :
    let register : SwitchObject := ⟨⟨1⟩, .register⟩
    let digest : Request :=
      { object := ⟨⟨1⟩, .digest⟩, demand := .digest 9, deps := .ofList [register] }
    let requests : List Request := [{ object := register, demand := .register 8 5 }]
    let more : List Request :=
      [{ object := ⟨⟨2⟩, .digest⟩, demand := .digest 9 },
        { object := register, demand := .register 10 10 }]
    let c : SwitchConfig := { stages := 2, sramBitsPerStage := 100, digestSlots := 1 }
    let a := Account.after c (requests ++ digest :: more)
    a.accepted.map Request.object = [register, digest.object, register] ∧
      a.pipeline.digests = 0 ∧ (a.pipeline.remainingAt 0).sram = 0 ∧
      a.pipeline.place digest.object digest.demand digest.deps = .ok (1, a.pipeline) ∧
      a.pipeline.placeAt digest.object digest.demand digest.deps 1 = .ok (1, a.pipeline) := by
  intro register digest requests more c a
  have accepted : ∃ q, (Account.after c requests).pipeline.attempt digest = .ok (1, q) := ⟨_, rfl⟩
  obtain ⟨q, accepted⟩ := accepted
  exact ⟨by decide +kernel, by decide +kernel, by decide +kernel,
    accepted_request_costs_nothing_again c requests more digest accepted⟩

/-- A refusal that is not said to be mended by a new pass is not: with all its dependencies placed,
a request is refused so exactly if its object is not one of them and the same request is refused so
without any. This holds of every state of a pipeline. -/
theorem lasting_refusal_comes_in_new_pass (p : Pipeline) (o : SwitchObject) (d : Demand)
    (deps : ObjectSet) {refusal : Refusal} (placed : ∀ dep ∈ deps, p.isPlaced dep = true)
    (lasting : refusal.fixedByNewPass = false) :
    p.place o d deps = .error refusal ↔ o ∉ deps ∧ p.place o d ∅ = .error refusal := by
  have hempty : ∀ dep ∈ (∅ : ObjectSet), p.isPlaced dep = true := by
    intro dep hdep
    exact absurd hdep (OrdSet.not_mem_empty dep)
  rw [place_eq_error_iff, place_eq_error_iff]
  constructor
  · intro h
    exact (declines_of_locate h).lasting placed lasting (OrdSet.not_mem_empty o) hempty
  · rintro ⟨apart, h⟩
    exact ((declines_of_locate h).lasting hempty lasting apart placed).2

/-- A digest behind a register has taken the only slot. Another one is refused for want of a slot,
be it behind the register or in a new pass. -/
theorem second_digest_finds_no_slot :
    let register : SwitchObject := ⟨⟨1⟩, .register⟩
    let other : SwitchObject := ⟨⟨2⟩, .digest⟩
    let requests : List Request :=
      [{ object := register, demand := .register 8 5 },
        { object := ⟨⟨1⟩, .digest⟩, demand := .digest 9, deps := .ofList [register] }]
    let p := (Account.after { stages := 2, digestSlots := 1 } requests).pipeline
    (∀ dep ∈ OrdSet.ofList [register], p.isPlaced dep = true) ∧
      (Refusal.noDigestSlots other).fixedByNewPass = false ∧
      p.place other (.digest 9) (.ofList [register]) = .error (.noDigestSlots other) ∧
      p.place other (.digest 9) ∅ = .error (.noDigestSlots other) := by
  intro register other requests p
  have placed : ∀ dep ∈ OrdSet.ofList [register], p.isPlaced dep = true := by decide +kernel
  have refused : p.place other (.digest 9) (.ofList [register]) = .error (.noDigestSlots other) :=
    rfl
  have lasting : (Refusal.noDigestSlots other).fixedByNewPass = false := rfl
  have again := lasting_refusal_comes_in_new_pass p other (.digest 9) _ placed lasting
  exact ⟨placed, lasting, refused, (again.mp refused).2⟩

end PacketPlan
