import PacketPlan.Proofs.Pipeline.Conservation

/-! # What was accepted stays valid

A pipeline keeps a record of the requests that it has accepted. An object never leaves its first
stage, and a request is accepted only behind its dependencies; so whatever comes later, be it that
objects grow, that they are asked for again with other dependencies or that they are put into a
stage by name, the whole record passes the check.
-/
namespace PacketPlan

namespace Pipeline.Account
variable {a : Account} {c : SwitchConfig}

theorem serve_cases (a : Account) (r : Request) : a.serve r = a ∨
    ∃ stage p, a.pipeline.attempt r = .ok (stage, p) ∧ a.serve r = a.accept p r := by
  unfold serve
  cases hr : a.pipeline.attempt r with
  | error refusal => exact .inl rfl
  | ok result => exact .inr ⟨result.1, result.2, rfl, rfl⟩

theorem serve_leads (a : Account) (r : Request) : a.pipeline.Leads (a.serve r).pipeline := by
  rcases a.serve_cases r with hrefused | ⟨stage, p, haccepted, hserved⟩
  · rw [hrefused]
    exact .refl
  · rw [hserved]
    rw [attempt_eq] at haccepted
    exact Leads.refl.place haccepted

theorem accepted_prefix_serve (a : Account) (r : Request) : a.accepted <+: (a.serve r).accepted := by
  rcases a.serve_cases r with hrefused | ⟨stage, p, _, hserved⟩
  · exact ⟨[], by rw [hrefused, List.append_nil]⟩
  · rw [hserved]
    exact List.prefix_append _ _

/-- Further requests lead on from where the pipeline stands, and nothing that was accepted is
forgotten. -/
theorem foldl_serve (a : Account) (more : List Request) :
    a.pipeline.Leads (more.foldl serve a).pipeline ∧
      a.accepted <+: (more.foldl serve a).accepted := by
  induction more generalizing a with
  | nil => exact ⟨.refl, List.prefix_rfl⟩
  | cons r more ih =>
    obtain ⟨hleads, hkept⟩ := ih (a.serve r)
    exact ⟨(a.serve_leads r).trans hleads, (a.accepted_prefix_serve r).trans hkept⟩

/-- The record of the pipeline holds what was accepted and nothing else. -/
def Recorded (a : Account) : Prop :=
  ∀ e, e ∈ a.pipeline.requests ↔ ∃ r ∈ a.accepted, (r.object, r.deps) = e

theorem Recorded.serve (h : a.Recorded) (r : Request) : (a.serve r).Recorded := by
  rcases a.serve_cases r with hrefused | ⟨stage, p, haccepted, hserved⟩
  · rw [hrefused]
    exact h
  · rw [attempt_eq] at haccepted
    obtain ⟨located, _, _, rfl⟩ := placeWithin_eq_ok haccepted
    rw [hserved]
    intro e
    simp only [accept, mem_commit_requests, List.mem_append, List.mem_singleton, h e]
    constructor
    · rintro (⟨x, hx, he⟩ | rfl)
      · exact ⟨x, .inl hx, he⟩
      · exact ⟨r, .inr rfl, rfl⟩
    · rintro ⟨x, hx | rfl, he⟩
      · exact .inl ⟨x, hx, he⟩
      · exact .inr he.symm

theorem recorded_after (c : SwitchConfig) (requests : List Request) :
    (after c requests).Recorded := by
  apply after_induction
  · simp [Recorded, ofConfig]
  · exact fun a r h => h.serve r

theorem sound_after (c : SwitchConfig) (requests : List Request) :
    (after c requests).pipeline.Sound :=
  (foldl_serve ⟨.ofConfig c, []⟩ requests).1.sound (sound_ofConfig c)

end Pipeline.Account

open Pipeline

/-- Whatever is requested, and whether it is accepted or refused, the record of accepted requests
passes the check: it holds exactly what was accepted, and for each of these the object is placed,
with every dependency in an earlier stage. All of it remains so under any further requests, since
nothing that is placed ever leaves its stage. -/
theorem accepted_requests_stay_valid (c : SwitchConfig) (requests more : List Request) :
    let a := Account.after c requests
    let b := Account.after c (requests ++ more)
    a.pipeline.revalidate = .ok () ∧
      (∀ e, e ∈ a.pipeline.requests ↔ ∃ r ∈ a.accepted, (r.object, r.deps) = e) ∧
      (∀ r ∈ a.accepted, r ∈ b.accepted ∧ ∃ stage, a.pipeline.stageOf? r.object = some stage ∧
        ∀ dep ∈ r.deps, ∃ s, a.pipeline.stageOf? dep = some s ∧ s < stage) ∧
      ∀ o stage, a.pipeline.stageOf? o = some stage → b.pipeline.stageOf? o = some stage := by
  intro a b
  have hsound : a.pipeline.Sound := Account.sound_after c requests
  have hrecorded : a.Recorded := Account.recorded_after c requests
  have hb : b = more.foldl Account.serve a := List.foldl_append
  obtain ⟨hleads, hkept⟩ := a.foldl_serve more
  rw [← hb] at hleads hkept
  refine ⟨hsound.revalidate, hrecorded, ?_, ?_⟩
  · intro r hr
    have hheld : (r.object, r.deps) ∈ a.pipeline.requests := (hrecorded _).mpr ⟨r, hr, rfl⟩
    exact ⟨hkept.subset hr, hsound.keeps _ hheld⟩
  · intro o stage ho
    exact (hleads.stageOf?_of_some hsound.indexed ho).2

/-- A table behind a register, then the register again with another object ahead of it, which is
refused because the register keeps its stage, and the table again behind both. -/
theorem repeated_table_stays_valid :
    let register : SwitchObject := ⟨⟨1⟩, .register⟩
    let table : SwitchObject := ⟨⟨2⟩, .table⟩
    let hash : SwitchObject := ⟨⟨3⟩, .hash⟩
    let requests : List Request :=
      [{ object := register, demand := .register 8 5 },
        { object := table, demand := .table [16] 0 2 false, deps := .ofList [register],
          stage? := some 2 }]
    let more : List Request :=
      [{ object := hash, demand := .hash 8 },
        { object := register, demand := .register 8 9, deps := .ofList [hash] },
        { object := table, demand := .table [16] 8 4 false, deps := .ofList [register, hash] }]
    let c : SwitchConfig := { stages := 3 }
    (Account.after c (requests ++ more)).accepted.map Request.object =
        [register, table, hash, table] ∧
      (Account.after c requests).pipeline.stageOf? table = some 2 ∧
      (Account.after c (requests ++ more)).pipeline.stageOf? table = some 2 ∧
      (Account.after c (requests ++ more)).pipeline.revalidate = .ok () := by
  intro register table hash requests more c
  have hplaced : (Account.after c requests).pipeline.stageOf? table = some 2 := by decide +kernel
  obtain ⟨_, _, _, hstays⟩ := accepted_requests_stay_valid c requests more
  obtain ⟨hvalid, _⟩ := accepted_requests_stay_valid c (requests ++ more) []
  exact ⟨by decide +kernel, hplaced, hstays table 2 hplaced, hvalid⟩

end PacketPlan
