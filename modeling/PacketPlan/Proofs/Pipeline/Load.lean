import Mathlib.Data.Nat.Find
import PacketPlan.Proofs.Pipeline.Earliest

/-! # Placement under less load

No request gives anything back: budgets shrink, digest slots are used up, and what is placed keeps
its stage. So a pipeline compares with any that comes of it by further requests, and an object that
is new to both is never worse off in the earlier one: if the later one has a stage for it, so has
the earlier one, and no later a stage. It may also come with fewer dependencies there. An object
that is placed in the meantime, or grows, is no worse off in the earlier pipeline either, unless it
comes in as a digest and is asked for as something else.
-/
namespace PacketPlan

theorem Budget.covers_before {left held taken need : Budget}
    (h : (left - (taken - held)).covers (need - max held taken) = true)
    (granted : left.covers (taken - held) = true) : left.covers (need - held) = true := by
  have hone : ∀ {l k t n : Nat}, n - max k t ≤ l - (t - k) → t - k ≤ l → n - k ≤ l := by
    intro l k t n hleft hgranted
    omega
  rw [covers_iff] at h granted ⊢
  obtain ⟨hsram, htcam, hxbar, hids⟩ := h
  obtain ⟨gsram, gtcam, gxbar, gids⟩ := granted
  exact ⟨hone hsram gsram, hone htcam gtcam, hone hxbar gxbar, hone hids gids⟩

namespace Pipeline
variable {p q r : Pipeline} {o x : SwitchObject} {d e : Demand} {deps xs xs' : ObjectSet}

/-- The first pipeline carries no more than the second one: it meets the same needs with at least as
much of everything left, and what it has placed is in the same stage of the second. -/
structure Lighter (p q : Pipeline) : Prop where
  needOf : p.needOf = q.needOf
  digests : q.digests ≤ p.digests
  room : ∀ earliest need, q.roomFrom earliest need ⊆ p.roomFrom earliest need
  stays : ∀ {x stage}, p.stageOf? x = some stage → q.stageOf? x = some stage

theorem Lighter.refl (p : Pipeline) : p.Lighter p := ⟨rfl, Nat.le_refl _, fun _ _ => subset_rfl, id⟩

theorem Lighter.trans (h : p.Lighter q) (h' : q.Lighter r) : p.Lighter r where
  needOf := h.needOf.trans h'.needOf
  digests := Nat.le_trans h'.digests h.digests
  room earliest need := (h'.room earliest need).trans (h.room earliest need)
  stays hx := h'.stays (h.stays hx)

/-! ## What a request takes -/

theorem commit_digests_le (p : Pipeline) (o : SwitchObject) (d : Demand) (deps : ObjectSet)
    (located : Located) : (p.commit o d deps located).digests ≤ p.digests := by
  cases located with
  | held stage growth footprint => exact commit_held_digests.le
  | fresh stage need =>
    rw [commit_fresh_digests]
    split <;> omega

theorem roomFrom_commit_subset {located : Located} (earliest : Nat) (need : Budget) :
    (p.commit o d deps located).roomFrom earliest need ⊆ p.roomFrom earliest need := by
  rintro i ⟨hle, s, hs, hcovers⟩
  have hleft := p.remaining_commit o d deps located i
  rw [hs, Option.map_some, eq_comm] at hleft
  obtain ⟨before, hbefore, hremaining⟩ := Option.map_eq_some_iff.mp hleft
  have hmore : before.remaining.covers s.remaining = true := by
    rw [← hremaining, Budget.covers_iff]
    split <;> simp
  exact ⟨hle, before, hbefore, Budget.covers_trans hmore hcovers⟩

theorem lighter_commit (hp : p.Indexed) {requested : Option Nat} {located : Located}
    (h : p.locate o d deps requested = .ok located) : p.Lighter (p.commit o d deps located) where
  needOf := needOf_commit.symm
  digests := commit_digests_le ..
  room := roomFrom_commit_subset
  stays := stageOf?_commit_of_some hp h

theorem Leads.lighter (h : p.Leads q) (hp : p.Indexed) : q.Indexed ∧ p.Lighter q := by
  induction h with
  | refl => exact ⟨hp, .refl p⟩
  | place _ accepted ih =>
    obtain ⟨located, hl, _, rfl⟩ := placeWithin_eq_ok accepted
    exact ⟨commit_indexed ih.1, ih.2.trans (lighter_commit ih.1 hl)⟩

/-! ## What an object finds -/

theorem Lighter.get?_eq_none (h : p.Lighter q) (new : q.placements.get? x = none) :
    p.placements.get? x = none := by
  rw [← stageOf?_eq_none] at new ⊢
  cases hx : p.stageOf? x with
  | none => rfl
  | some stage =>
    rw [h.stays hx] at new
    cases new

theorem Lighter.behind_le (h : p.Lighter q) (fewer : ∀ y ∈ xs', y ∈ xs) :
    p.behind xs' ≤ q.behind xs := by
  apply behind_le_iff.mpr
  intro y hy stage hstage
  exact behind_le_iff.mp (Nat.le_refl _) y (fewer y hy) stage (h.stays hstage)

theorem exists_locate_new (hp : p.Indexed) (new : p.placements.get? x = none) (apart : x ∉ xs)
    (placed : ∀ y ∈ xs, p.isPlaced y = true) (slots : e.isDigest = true → 0 < p.digests)
    {need : Budget} (hneed : p.needOf x e = .ok need) {stage : Nat}
    (room : stage ∈ p.roomFrom (p.behind xs) need) :
    ∃ found, p.locate x e xs none = .ok found ∧ found.stage ≤ stage := by
  classical
  have hfirst : IsLeast (p.roomFrom (p.behind xs) need) (Nat.find ⟨_, room⟩) :=
    ⟨Nat.find_spec ⟨_, room⟩, fun i hi => Nat.find_min' ⟨_, room⟩ hi⟩
  obtain ⟨found, hfound, hindex⟩ := (locate_new_iff hp new).mpr
    ⟨apart, placed, slots, need, hneed, hfirst⟩
  refine ⟨found, hfound, ?_⟩
  rw [hindex]
  exact hfirst.2 room

/-- A new object that finds a stage finds one under less load as well, and no later one. -/
theorem Lighter.locate_new (h : p.Lighter q) (hp : p.Indexed) (hq : q.Indexed)
    (new : q.placements.get? x = none) (fewer : ∀ y ∈ xs', y ∈ xs)
    (placed : ∀ y ∈ xs', p.isPlaced y = true) {later : Located}
    (hlater : q.locate x e xs none = .ok later) :
    ∃ found, p.locate x e xs' none = .ok found ∧ found.stage ≤ later.stage := by
  obtain ⟨hself, _, hslots, need, hneed, hleast⟩ := (locate_new_iff hq new).mp ⟨later, hlater, rfl⟩
  obtain ⟨hbehind, hstage⟩ := h.room _ _ hleast.1
  have hroom : later.stage ∈ p.roomFrom (p.behind xs') need :=
    ⟨Nat.le_trans (h.behind_le fewer) hbehind, hstage⟩
  have hfree : e.isDigest = true → 0 < p.digests :=
    fun hdigest => Nat.lt_of_lt_of_le (hslots hdigest) h.digests
  rw [← h.needOf] at hneed
  exact exists_locate_new hp (h.get?_eq_none new) (fun hx => hself (fewer x hx)) placed hfree hneed
    hroom

/-! ## What an object would have found before

An object that is placed already is not worse off in the earlier pipeline either: whatever it has
taken since then was free.
-/

/-- The stage has room for the object: for what it lacks if it stands there, for all that it needs
if it is new. -/
inductive Fits (p : Pipeline) (x : SwitchObject) (need : Budget) : Nat → Prop
  | held {placed : Placement} (hplaced : p.placements.get? x = some placed)
      (room : (p.remainingAt placed.stage).covers (need - placed.footprint) = true) :
      Fits p x need placed.stage
  | new {stage : Nat} (new : p.placements.get? x = none) (room : stage ∈ p.roomFrom 0 need) :
      Fits p x need stage

/-- A request that names no stage is granted just when some stage behind the dependencies fits. -/
theorem locate_iff_fits (hp : p.Indexed) : (∃ located, p.locate x e xs none = .ok located) ↔
    x ∉ xs ∧ (∀ y ∈ xs, p.isPlaced y = true) ∧
      (p.placements.get? x = none → e.isDigest = true → 0 < p.digests) ∧
      ∃ need stage, p.needOf x e = .ok need ∧ p.behind xs ≤ stage ∧ p.Fits x need stage := by
  constructor
  · rintro ⟨located, h⟩
    cases hplaced : p.placements.get? x with
    | some placed =>
      obtain ⟨apart, hdeps, _, need, hneed, room, _⟩ := (locate_held_iff hplaced).mp h
      refine ⟨apart, ?_, nofun, need, placed.stage, hneed, ?_, .held hplaced room⟩
      · intro y hy
        obtain ⟨s, hs, _⟩ := hdeps y hy
        exact isPlaced_iff.mpr ⟨s, hs⟩
      · apply behind_le_iff.mpr
        intro y hy stage hstage
        obtain ⟨s, hs, hlt⟩ := hdeps y hy
        cases hs.symm.trans hstage
        exact hlt
    | none =>
      obtain ⟨apart, hdeps, hslots, need, hneed, hleast⟩ :=
        (locate_new_iff hp hplaced).mp ⟨located, h, rfl⟩
      obtain ⟨hbehind, hroom⟩ := hleast.1
      exact ⟨apart, hdeps, fun _ => hslots, need, located.stage, hneed, hbehind,
        .new hplaced ⟨Nat.zero_le _, hroom⟩⟩
  · rintro ⟨apart, hdeps, hslots, need, stage, hneed, hbehind, fits⟩
    cases fits with
    | held hplaced room =>
      refine ⟨_, (locate_held_iff hplaced).mpr ⟨apart, ?_, rfl, need, hneed, room, rfl⟩⟩
      intro y hy
      obtain ⟨s, hs⟩ := isPlaced_iff.mp (hdeps y hy)
      exact ⟨s, hs, behind_le_iff.mp hbehind y hy s hs⟩
    | new new room =>
      obtain ⟨found, hfound, _⟩ := exists_locate_new hp new apart hdeps (hslots new) hneed
        ⟨hbehind, room.2⟩
      exact ⟨found, hfound⟩

theorem remainingAt_commit (p : Pipeline) (o : SwitchObject) (d : Demand) (deps : ObjectSet)
    (located : Located) (i : Nat) : (p.commit o d deps located).remainingAt i =
      if located.stage = i then p.remainingAt i - located.amount else p.remainingAt i := by
  have hleft := p.remaining_commit o d deps located i
  unfold remainingAt
  cases hs : p.stages[i]? with
  | none =>
    rw [hs, Option.map_none, Option.map_eq_none_iff] at hleft
    rw [hleft]
    split <;> simp [Budget.sub_def]
  | some s =>
    rw [hs, Option.map_some] at hleft
    obtain ⟨s', hs', hremaining⟩ := Option.map_eq_some_iff.mp hleft
    rw [hs']
    exact hremaining

theorem Fits.of_commit (hp : p.Indexed) {requested : Option Nat} {located : Located}
    (h : p.locate o d deps requested = .ok located) {need : Budget} {stage : Nat}
    (fits : (p.commit o d deps located).Fits x need stage) : p.Fits x need stage := by
  cases fits with
  | new new room =>
    rw [get?_commit hp h] at new
    split at new
    · cases new
    · exact .new new (roomFrom_commit_subset 0 need room)
  | @held placed hplaced room =>
    rw [get?_commit hp h] at hplaced
    rw [remainingAt_commit] at room
    split at hplaced
    · rename_i hx
      cases hplaced
      rw [if_pos rfl] at room
      -- the object itself has grown or come in, out of what the stage had left
      obtain ⟨taken, _, ⟨placed, hplaced, granted, rfl⟩ | ⟨hnone, _, stage, s, hs, granted, rfl⟩⟩ :=
        locate_grants hp h
      · have before : p.Fits x need placed.stage :=
          .held (hx ▸ hplaced) (Budget.covers_before room granted)
        exact before
      · refine .new (hx ▸ hnone) ⟨Nat.zero_le _, s, hs, ?_⟩
        have left : (s.remaining - (taken - {})).covers (need - max {} taken) = true := by
          rw [Budget.zero_max, ← remainingAt_eq hs]
          exact room
        exact Budget.covers_before left granted
    · refine .held hplaced (Budget.covers_trans ?_ room)
      split
      · simp [Budget.covers_iff]
      · exact Budget.covers_refl _

/-- Wherever the second pipeline takes in the object, so does the first, behind fewer others. -/
def Easier (p q : Pipeline) (x : SwitchObject) (e : Demand) : Prop :=
  ∀ xs xs' : ObjectSet, (∀ y ∈ xs', y ∈ xs) → (∀ y ∈ xs', p.isPlaced y = true) →
    (∃ later, q.locate x e xs none = .ok later) → ∃ found, p.locate x e xs' none = .ok found

theorem Easier.refl (hp : p.Indexed) (x : SwitchObject) (e : Demand) : p.Easier p x e := by
  intro xs xs' fewer placed later
  obtain ⟨apart, _, hslots, need, stage, hneed, hbehind, fits⟩ := (locate_iff_fits hp).mp later
  exact (locate_iff_fits hp).mpr ⟨fun hx => apart (fewer x hx), placed, hslots, need, stage, hneed,
    ((Lighter.refl p).behind_le fewer).trans hbehind, fits⟩

theorem Easier.trans (h : p.Easier q x e) (h' : q.Easier r x e) (lighter : p.Lighter q) :
    p.Easier r x e := by
  intro xs xs' fewer placed later
  refine h xs' xs' (fun _ hy => hy) placed (h' xs xs' fewer ?_ later)
  intro y hy
  obtain ⟨stage, hstage⟩ := isPlaced_iff.mp (placed y hy)
  exact isPlaced_iff.mpr ⟨stage, lighter.stays hstage⟩

/-- A request makes nothing easier, if no object comes in both as a digest and as something else. -/
theorem easier_commit (hp : p.Indexed) {requested : Option Nat} {located : Located}
    (h : p.locate o d deps requested = .ok located) (alike : x = o → e.isDigest = d.isDigest) :
    p.Easier (p.commit o d deps located) x e := by
  intro xs xs' fewer placed later
  have lighter := lighter_commit hp h
  obtain ⟨apart, _, hslots, need, stage, hneed, hbehind, fits⟩ :=
    (locate_iff_fits (commit_indexed hp)).mp later
  rw [← lighter.needOf] at hneed
  refine (locate_iff_fits hp).mpr ⟨fun hx => apart (fewer x hx), placed, ?_, need, stage, hneed,
    (lighter.behind_le fewer).trans hbehind, fits.of_commit hp h⟩
  intro new digest
  by_cases hx : x = o
  · subst hx
    obtain ⟨_, _, ⟨_, hplaced, _⟩ | ⟨_, slots, _⟩⟩ := locate_grants hp h
    · cases new.symm.trans hplaced
    · exact Nat.pos_of_ne_zero (slots (alike rfl ▸ digest))
  · rw [get?_commit hp h, if_neg hx] at hslots
    exact Nat.lt_of_lt_of_le (hslots new digest) lighter.digests

end Pipeline

open Pipeline

/-- Placement is monotone in load and in dependencies. Let further requests be served after some; if
an object that is still new is placed then, behind dependencies that were all there before, it could
have been placed before as well, behind these or only some of them, and no later in the pipeline. -/
theorem lighter_load_places_no_later (c : SwitchConfig) (requests more : List Request)
    (o : SwitchObject) (d : Demand) (deps fewer : ObjectSet) :
    let p := (Account.after c requests).pipeline
    let q := (Account.after c (requests ++ more)).pipeline
    q.isPlaced o = false → (∀ x ∈ fewer, x ∈ deps) → (∀ x ∈ deps, p.isPlaced x = true) →
      ∀ late r, q.place o d deps = .ok (late, r) →
        ∃ early r', p.place o d fewer = .ok (early, r') ∧ early ≤ late := by
  intro p q new included placed late r accepted
  have hp : p.Indexed := (Account.sound_after c requests).indexed
  have hleads : p.Leads q := by
    have hrun := ((Account.after c requests).foldl_serve more).1
    rwa [Account.after, ← List.foldl_append] at hrun
  obtain ⟨hq, hlighter⟩ := hleads.lighter hp
  obtain ⟨later, hlater, rfl⟩ := place_eq_ok_iff.mp ⟨r, accepted⟩
  obtain ⟨found, hfound, hle⟩ := hlighter.locate_new hp hq (isPlaced_eq_false_iff.mp new) included
    (fun x hx => placed x (included x hx)) hlater
  obtain ⟨r', hr'⟩ := place_eq_ok_iff.mpr ⟨found, hfound, rfl⟩
  exact ⟨found.stage, r', hr', hle⟩

/-- A table behind a register goes to the third stage once another register has filled the second.
It would have had a stage up to there before, behind the register or not behind anything. -/
theorem table_was_placed_earlier :
    let register : SwitchObject := ⟨⟨1⟩, .register⟩
    let table : SwitchObject := ⟨⟨2⟩, .table⟩
    let demand : Demand := .table [8] 8 2 false
    let deps : ObjectSet := .ofList [register]
    let requests : List Request := [{ object := register, demand := .register 8 5 }]
    let more : List Request :=
      [{ object := ⟨⟨3⟩, .register⟩, demand := .register 10 10, stage? := some 1 }]
    let c : SwitchConfig := { stages := 3, sramBitsPerStage := 100 }
    let p := (Account.after c requests).pipeline
    let q := (Account.after c (requests ++ more)).pipeline
    (∃ r, q.place table demand deps = .ok (2, r)) ∧
      (∃ early r, p.place table demand deps = .ok (early, r) ∧ early ≤ 2) ∧
      ∃ early r, p.place table demand ∅ = .ok (early, r) ∧ early ≤ 2 := by
  intro register table demand deps requests more c p q
  have hnew : q.isPlaced table = false := by decide +kernel
  have hplaced : ∀ x ∈ deps, p.isPlaced x = true := by decide +kernel
  have hlocated : q.locate table demand deps none = .ok (.fresh 2 ⟨32, 0, 8, 1⟩) := by
    decide +kernel
  obtain ⟨r, hr⟩ := place_eq_ok_iff.mpr ⟨_, hlocated, rfl⟩
  have hbehind := lighter_load_places_no_later c requests more table demand deps deps hnew
    (fun x hx => hx) hplaced 2 r hr
  have halone := lighter_load_places_no_later c requests more table demand deps ∅ hnew
    (fun x hx => absurd hx (OrdSet.not_mem_empty x)) hplaced 2 r hr
  exact ⟨⟨r, hr⟩, hbehind, halone⟩

end PacketPlan
