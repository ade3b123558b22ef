import PacketPlan.Proofs.Pipeline.Load
import PacketPlan.Proofs.Proposal

/-! # What a probe can miss

A probe asks for the stages of a proposal and takes nothing, and it leaves out dependencies that are
not placed yet. For one object it answers as placement does. For a sketch it does so too if the hash
unit is placed: all that the unit can take on top is crossbar, which registers do not need. A sketch
that is new to the pipeline is the exception. It passes the probe if it can be placed, since no
request makes room; but the probe does not know that the registers have to stand behind the hash
unit, and may find a stage for them where placement finds none.
-/
namespace PacketPlan

theorem OrdSet.filter_eq_self {α : Type} {s : OrdSet α} {p : α → Bool} (h : ∀ a ∈ s, p a = true) :
    s.filter p = s :=
  congrArg OrdSet.mk (List.filter_eq_self.mpr h)

theorem Budget.covers_sub {b growth need : Budget} (hneed : need.xbar = 0) (hsram : growth.sram = 0)
    (htcam : growth.tcam = 0) (hids : growth.ids = 0) :
    (b - growth).covers need = b.covers need := by
  simp [covers, hneed, hsram, htcam, hids]

namespace Pipeline
variable {p q : Pipeline} {o x : SwitchObject} {d : Demand} {deps : ObjectSet} {refusal : Refusal}

/-! ## Refusals -/

theorem needOf_eq_error (h : p.needOf o d = .error refusal) :
    refusal = .tooManyKeys o d.matchKeys p.maxMatchKeys ∨ refusal = .tooLarge o ∨
      ∃ needed, refusal = .crossbarExceeded o needed p.capacity.xbar := by
  unfold needOf at h
  split at h
  · cases h
    exact .inl rfl
  · split at h
    · cases h
      exact .inr (.inl rfl)
    · split at h
      · cases h
        exact .inr (.inr ⟨_, rfl⟩)
      · split at h
        · cases h
        · cases h
          exact .inr (.inl rfl)

theorem needOf_refusal (h : p.needOf o d = .error refusal) : refusal.fixedByNewPass = false := by
  obtain rfl | rfl | ⟨_, rfl⟩ := needOf_eq_error h <;> rfl

/-- A new object that could do with another pass has run out of stages. -/
theorem refusal_of_new (hself : o ∉ deps) (hnew : p.placements.get? o = none)
    (h : p.locate o d deps none = .error refusal) (fixable : refusal.fixedByNewPass = true) :
    ∃ earliest, refusal = .noStageAvailable o earliest := by
  cases declines_of_locate h with
  | itself self => exact absurd self hself
  | unfit _ unfit =>
    rw [needOf_refusal unfit] at fixable
    cases fixable
  | held hplaced =>
    rw [hnew] at hplaced
    cases hplaced
  | unmet | slots => cases fixable
  | full => exact ⟨_, rfl⟩

/-! ## A hash unit that is placed already -/

def Stage.offers (need : Budget) (s : Stage) : Nat × Bool := (s.index, s.remaining.covers need)

theorem locateFresh_congr {need : Budget} {earliest : Nat} {binding : Option SwitchObject}
    (h : p.stages.map (Stage.offers need) = q.stages.map (Stage.offers need)) :
    p.locateFresh o need earliest binding none = q.locateFresh o need earliest binding none := by
  have hfind : ∀ stages : List Stage,
      (stages.find? fun s => s.remaining.covers need).map Stage.index =
        ((stages.map (Stage.offers need)).find? Prod.snd).map Prod.fst := by
    intro stages
    rw [List.find?_map, Option.map_map]
    rfl
  have hsame : ((p.stages.drop earliest).find? fun s => s.remaining.covers need).map Stage.index =
      ((q.stages.drop earliest).find? fun s => s.remaining.covers need).map Stage.index := by
    rw [hfind, hfind, List.map_drop, List.map_drop, h]
  simp only [locateFresh]
  cases hp : (p.stages.drop earliest).find? fun s => s.remaining.covers need with
  | none =>
    rw [hp, Option.map_none, eq_comm, Option.map_eq_none_iff] at hsame
    rw [hsame]
  | some s =>
    rw [hp, Option.map_some, eq_comm, Option.map_eq_some_iff] at hsame
    obtain ⟨t, ht, hindex⟩ := hsame
    simp only [ht, hindex]

theorem earliestFrom_congr (h : ∀ y, q.stageOf? y = p.stageOf? y) (earliest : Nat)
    (binding : Option SwitchObject) (xs : List SwitchObject) :
    q.earliestFrom o earliest binding xs = p.earliestFrom o earliest binding xs := by
  induction xs generalizing earliest binding with
  | nil => rfl
  | cons y ys ih => simp only [earliestFrom, h y, ih]

/-- Two pipelines that differ only in how much crossbar their stages have left. -/
structure SamePlain (p q : Pipeline) : Prop where
  needOf_eq : q.needOf = p.needOf
  stageOf?_eq : ∀ x, q.stageOf? x = p.stageOf? x
  digests_eq : q.digests = p.digests
  stages_eq : ∀ {need : Budget}, need.xbar = 0 →
    q.stages.map (Stage.offers need) = p.stages.map (Stage.offers need)

theorem SamePlain.covers_remainingAt (h : SamePlain p q) {need : Budget} (hneed : need.xbar = 0)
    (i : Nat) : (q.remainingAt i).covers need = (p.remainingAt i).covers need := by
  have hat : (q.stages[i]?).map (Stage.offers need) = (p.stages[i]?).map (Stage.offers need) := by
    rw [← List.getElem?_map, ← List.getElem?_map, h.stages_eq hneed]
  unfold remainingAt
  cases hq : q.stages[i]? with
  | none =>
    rw [hq, Option.map_none, eq_comm, Option.map_eq_none_iff] at hat
    rw [hat]
  | some s =>
    rw [hq, Option.map_some, eq_comm, Option.map_eq_some_iff] at hat
    obtain ⟨t, ht, hoffers⟩ := hat
    rw [ht]
    exact (Prod.mk.inj hoffers).2.symm

/-- There an object that needs no crossbar is located alike, if it holds the same. -/
theorem SamePlain.locate_eq (h : SamePlain p q) (hx : q.placements.get? x = p.placements.get? x)
    (plain : ∀ need, d.footprint? = some need → need.xbar = 0) (xs : ObjectSet) :
    q.locate x d xs none = p.locate x d xs none := by
  unfold locate
  rw [h.needOf_eq, earliestFrom_congr h.stageOf?_eq, hx, h.digests_eq]
  cases hneed : p.needOf x d with
  | error refusal => rfl
  | ok need =>
    have hxbar := plain need (needOf_eq_ok hneed)
    have hfresh : ∀ earliest binding,
        q.locateFresh x need earliest binding none = p.locateFresh x need earliest binding none :=
      fun _ _ => locateFresh_congr (h.stages_eq hxbar)
    have hheld : ∀ placed earliest,
        q.locateHeld x placed need earliest none = p.locateHeld x placed need earliest none := by
      intro placed earliest
      have hgrowth : (need - placed.footprint).xbar = 0 := by
        rw [Budget.sub_xbar, hxbar, Nat.zero_sub]
      simp only [locateHeld, h.covers_remainingAt hgrowth]
    by_cases hself : x ∈ xs
    · rw [if_pos hself, if_pos hself]
    · rw [if_neg hself, if_neg hself]
      cases p.earliestFrom x 0 none xs.elems with
      | error refusal => rfl
      | ok found =>
        cases p.placements.get? x with
        | some placed => exact hheld placed found.1
        | none =>
          change (if _ then _ else q.locateFresh x need found.1 found.2 none) = _
          rw [hfresh]
          rfl

/-- All that a hash unit can take on top of what it holds is crossbar. -/
theorem samePlain_commit_hash (hp : p.Indexed) {bits : Nat} {located : Located}
    (h : p.locate o (.hash bits) deps none = .ok located) (placed : p.isPlaced o = true) :
    SamePlain p (p.commit o (.hash bits) deps located) ∧ ∀ {x}, x ≠ o →
      (p.commit o (.hash bits) deps located).placements.get? x = p.placements.get? x := by
  obtain ⟨need, hneed, ⟨before, hbefore, _, rfl⟩ | ⟨hnone, _⟩⟩ := locate_grants hp h
  · obtain ⟨xbar, _, hneed⟩ := Option.bind_eq_some_iff.mp hneed
    cases hneed
    refine ⟨⟨needOf_commit, ?_, commit_held_digests, ?_⟩, ?_⟩
    · intro x
      rw [stageOf?_commit hp h]
      by_cases hx : x = o
      · rw [if_pos hx, hx, stageOf?, hbefore]
        rfl
      · rw [if_neg hx]
    · intro need hneed
      apply List.ext_getElem?
      intro i
      rw [List.getElem?_map, List.getElem?_map, getElem?_commit_held, Option.map_map]
      congr 1
      funext s
      have hcovers : (s.remaining - (({ xbar } : Budget) - before.footprint)).covers need =
          s.remaining.covers need :=
        Budget.covers_sub hneed (Nat.zero_sub _) (Nat.zero_sub _) (Nat.zero_sub _)
      by_cases hi : before.stage = i
      · simp only [Function.comp_apply, if_pos hi, Stage.offers, hcovers]
      · simp only [Function.comp_apply, if_neg hi]
    · intro x hx
      rw [get?_commit hp h, if_neg hx]
  · rw [isPlaced_eq_false_iff.mpr hnone] at placed
    cases placed

/-! ## Objects that are not placed yet -/

/-- A new object for which there is a stage after another request has been met has one before it as
well, even if it is to be behind the other object. -/
theorem locate_of_commit (hp : p.Indexed) {located later : Located}
    (h : p.locate o d deps none = .ok located) {e : Demand} {xs : ObjectSet} (hne : x ≠ o)
    (new : p.placements.get? x = none)
    (hlater : (p.commit o d deps located).locate x e xs none = .ok later) :
    ∃ found, p.locate x e (xs.filter p.isPlaced) none = .ok found := by
  have hnew : (p.commit o d deps located).placements.get? x = none := by
    rw [get?_commit hp h, if_neg hne]
    exact new
  have hmem : ∀ {y}, y ∈ xs.filter p.isPlaced → y ∈ xs ∧ p.isPlaced y = true :=
    fun hy => (OrdSet.mem_filter ..).mp hy
  obtain ⟨found, hfound, _⟩ := (lighter_commit hp h).locate_new hp (commit_indexed hp) hnew
    (fun y hy => (hmem hy).1) (fun y hy => (hmem hy).2) hlater
  exact ⟨found, hfound⟩

end Pipeline

/-! ## Proposals -/

namespace Proposal
variable {p : Proposal} {r : Pipeline} {passDeps : ObjectSet} {refusal : Refusal}

theorem isPlaced_of_mem_dependencies (hdeps : ∀ x ∈ passDeps, r.isPlaced x = true)
    {placed : List SwitchObject} (hplaced : ∀ x ∈ placed, r.isPlaced x = true) :
    ∀ x ∈ p.dependencies passDeps placed, r.isPlaced x = true := by
  intro x hx
  rcases mem_dependencies.mp hx with hx | hx
  · exact hplaced x hx
  · exact hdeps x hx.1

/-- What is met in the pass has been placed, so the probe leaves none of it out. -/
theorem dependencies_filter_isPlaced (hdeps : ∀ x ∈ passDeps, r.isPlaced x = true)
    {placed : List SwitchObject} (hplaced : ∀ x ∈ placed, r.isPlaced x = true) :
    (p.dependencies passDeps placed).filter r.isPlaced = p.dependencies passDeps placed :=
  OrdSet.filter_eq_self (isPlaced_of_mem_dependencies hdeps hplaced)

theorem map_placeFrom_cons (placed : List SwitchObject) (o : SwitchObject) (d : Demand)
    (rest : List (SwitchObject × Demand)) :
    (p.placeFrom passDeps placed r ((o, d) :: rest)).map Prod.fst = (do
      let located ← r.locate o d (p.dependencies passDeps placed) none
      let stages ← (p.placeFrom passDeps (placed ++ [o])
        (r.commit o d (p.dependencies passDeps placed) located) rest).map Prod.fst
      .ok (located.stage :: stages)) := by
  rw [placeFrom, Pipeline.place, Pipeline.placeWithin]
  cases r.locate o d (p.dependencies passDeps placed) none with
  | error refusal => rfl
  | ok located =>
    change (p.placeFrom passDeps (placed ++ [o]) (r.commit o d _ located) rest >>= _).map _ =
      (p.placeFrom passDeps (placed ++ [o]) (r.commit o d _ located) rest).map _ >>= _
    cases p.placeFrom passDeps (placed ++ [o])
      (r.commit o d (p.dependencies passDeps placed) located) rest <;> rfl

theorem probeFrom_cons (hdeps : ∀ x ∈ passDeps, r.isPlaced x = true) {seen : List SwitchObject}
    (hseen : ∀ x ∈ seen, r.isPlaced x = true) (o : SwitchObject) (d : Demand)
    (rest : List (SwitchObject × Demand)) :
    p.probeFrom r passDeps seen ((o, d) :: rest) = (do
      let located ← r.locate o d (p.dependencies passDeps seen) none
      let stages ← p.probeFrom r passDeps (seen ++ [o]) rest
      .ok (located.stage :: stages)) := by
  rw [probeFrom, dependencies_filter_isPlaced hdeps hseen, Pipeline.probe]
  cases r.locate o d (p.dependencies passDeps seen) none <;> rfl

theorem probeFrom_cons_iff {seen : List SwitchObject} {o : SwitchObject} {d : Demand}
    {rest : List (SwitchObject × Demand)} :
    (∃ stages, p.probeFrom r passDeps seen ((o, d) :: rest) = .ok stages) ↔
      (∃ located, r.locate o d ((p.dependencies passDeps seen).filter r.isPlaced) none =
        .ok located) ∧ ∃ stages, p.probeFrom r passDeps (seen ++ [o]) rest = .ok stages := by
  rw [probeFrom, Pipeline.probe]
  constructor
  · rintro ⟨stages, h⟩
    obtain ⟨stage, hstage, h⟩ := bind_eq_ok.mp h
    obtain ⟨located, hl, _⟩ := bind_eq_ok.mp hstage
    obtain ⟨others, hothers, _⟩ := bind_eq_ok.mp h
    exact ⟨⟨located, hl⟩, others, hothers⟩
  · rintro ⟨⟨located, hl⟩, others, hothers⟩
    exact ⟨located.stage :: others, by rw [hl, hothers]; rfl⟩

/-- What passes a probe would have passed it in an easier pipeline as well, with less behind it. -/
theorem probeFrom_of_easier {later : Pipeline} {fewer : ObjectSet} {seen : List SwitchObject}
    {requests : List (SwitchObject × Demand)} (included : ∀ y ∈ fewer, y ∈ passDeps)
    (stays : ∀ y, r.isPlaced y = true → later.isPlaced y = true)
    (easier : ∀ x ∈ requests, r.Easier later x.1 x.2)
    (h : ∃ stages, p.probeFrom later passDeps seen requests = .ok stages) :
    ∃ stages, p.probeFrom r fewer seen requests = .ok stages := by
  induction requests generalizing seen with
  | nil => exact ⟨[], rfl⟩
  | cons request requests ih =>
    obtain ⟨hfirst, hrest⟩ := probeFrom_cons_iff.mp h
    refine probeFrom_cons_iff.mpr
      ⟨?_, ih (fun x hx => easier x (List.mem_cons_of_mem request hx)) hrest⟩
    refine easier request List.mem_cons_self _ _ ?_ ?_ hfirst
    · intro y hy
      obtain ⟨hy, hplaced⟩ := (OrdSet.mem_filter ..).mp hy
      refine (OrdSet.mem_filter ..).mpr ⟨mem_dependencies.mpr ?_, stays y hplaced⟩
      exact (mem_dependencies.mp hy).imp_right fun hy => ⟨included y hy.1, hy.2⟩
    · intro y hy
      exact ((OrdSet.mem_filter ..).mp hy).2

theorem probe_of_nil (places : p.placements = []) :
    p.probe r passDeps = (p.place passDeps r).map Prod.fst := by
  rw [probe, place, places]
  rfl

theorem probe_of_object {o : SwitchObject} {d : Demand} (places : p.placements = [(o, d)])
    (hdeps : ∀ x ∈ passDeps, r.isPlaced x = true) :
    p.probe r passDeps = (p.place passDeps r).map Prod.fst := by
  rw [probe, place, places, probeFrom_cons hdeps (by simp), map_placeFrom_cons]
  rfl

section sketch
variable {addr : Addr} {bits width capacity : Nat}

theorem xbar_of_register {need : Budget}
    (h : (Demand.register width capacity).footprint? = some need) : need.xbar = 0 := by
  obtain ⟨sram, _, hneed⟩ := Option.bind_eq_some_iff.mp h
  cases hneed
  rfl

/-- The hash unit only grows in crossbar, so the registers are located before it does as they are
behind it. -/
theorem probe_of_placed_sketch (hr : r.Indexed)
    (places : p.placements =
      [(⟨addr, .hash⟩, .hash bits), (⟨addr, .register⟩, .register width capacity)])
    (hdeps : ∀ x ∈ passDeps, r.isPlaced x = true) (hhash : r.isPlaced ⟨addr, .hash⟩ = true) :
    p.probe r passDeps = (p.place passDeps r).map Prod.fst := by
  have hseen : ∀ x ∈ [] ++ [(⟨addr, .hash⟩ : SwitchObject)], r.isPlaced x = true := by
    intro x hx
    rw [List.mem_singleton.mp hx]
    exact hhash
  rw [probe, place, places, probeFrom_cons hdeps (by simp), map_placeFrom_cons]
  cases hl : r.locate ⟨addr, .hash⟩ (.hash bits) (p.dependencies passDeps []) none with
  | error refusal => rfl
  | ok located =>
    obtain ⟨hsame, hget⟩ := Pipeline.samePlain_commit_hash hr hl hhash
    change (p.probeFrom r passDeps ([] ++ [⟨addr, .hash⟩]) _ >>= _) = (Except.map _ _ >>= _)
    rw [probeFrom_cons hdeps hseen, map_placeFrom_cons,
      hsame.locate_eq (hget (by simp)) fun _ => xbar_of_register]
    rfl

theorem probe_of_granted_sketch (hr : r.Indexed)
    (places : p.placements =
      [(⟨addr, .hash⟩, .hash bits), (⟨addr, .register⟩, .register width capacity)])
    (hdeps : ∀ x ∈ passDeps, r.isPlaced x = true)
    (paired : r.isPlaced ⟨addr, .register⟩ = true → r.isPlaced ⟨addr, .hash⟩ = true)
    {stages : List Nat} {after : Pipeline} (h : p.place passDeps r = .ok (stages, after)) :
    ∃ foreseen, p.probe r passDeps = .ok foreseen ∧ foreseen.head? = stages.head? := by
  by_cases hcells : r.isPlaced ⟨addr, .register⟩ = true
  · rw [probe_of_placed_sketch hr places hdeps (paired hcells), h]
    exact ⟨stages, rfl, rfl⟩
  · rw [place, places] at h
    obtain ⟨⟨stage, next⟩, hplace, h⟩ := bind_eq_ok.mp h
    obtain ⟨⟨others, last⟩, hothers, h⟩ := bind_eq_ok.mp h
    obtain ⟨⟨cells, final⟩, hbehind, _⟩ := bind_eq_ok.mp hothers
    cases h
    obtain ⟨located, hl, rfl, rfl⟩ := Pipeline.placeWithin_eq_ok hplace
    obtain ⟨later, hlater, _⟩ := Pipeline.placeWithin_eq_ok hbehind
    have hnew := Pipeline.isPlaced_eq_false_iff.mp (Bool.eq_false_of_not_eq_true hcells)
    obtain ⟨found, hfound⟩ := Pipeline.locate_of_commit hr hl (by simp) hnew hlater
    refine ⟨[located.stage, found.stage], ?_, rfl⟩
    have hcells : p.probeFrom r passDeps ([] ++ [⟨addr, .hash⟩])
        [(⟨addr, .register⟩, .register width capacity)] = .ok [found.stage] :=
      bind_eq_ok.mpr ⟨found.stage, bind_eq_ok.mpr ⟨found, hfound, rfl⟩, rfl⟩
    rw [probe, places, probeFrom_cons hdeps (by simp)]
    exact bind_eq_ok.mpr ⟨located, hl, bind_eq_ok.mpr ⟨[found.stage], hcells, rfl⟩⟩

/-- A refusal that a new pass could fix is foreseen for a sketch as well, unless neither part of the
sketch is placed and the registers find no stage behind the hash unit. -/
theorem probe_of_refused_sketch (hr : r.Indexed)
    (places : p.placements =
      [(⟨addr, .hash⟩, .hash bits), (⟨addr, .register⟩, .register width capacity)])
    (fused : ⟨addr, .register⟩ ∈ p.fused) (hdeps : ∀ x ∈ passDeps, r.isPlaced x = true)
    (paired : r.isPlaced ⟨addr, .register⟩ = true → r.isPlaced ⟨addr, .hash⟩ = true)
    (h : p.place passDeps r = .error refusal) (fixable : refusal.fixedByNewPass = true) :
    p.probe r passDeps = .error refusal ∨
      (∃ earliest, refusal = .noStageAvailable ⟨addr, .register⟩ earliest) ∧
        r.isPlaced ⟨addr, .hash⟩ = false ∧ r.isPlaced ⟨addr, .register⟩ = false := by
  by_cases hhash : r.isPlaced ⟨addr, .hash⟩ = true
  · left
    rw [probe_of_placed_sketch hr places hdeps hhash, h]
    rfl
  · have hhash : r.isPlaced ⟨addr, .hash⟩ = false := Bool.eq_false_of_not_eq_true hhash
    have hcells : r.isPlaced ⟨addr, .register⟩ = false := by
      rw [← Bool.not_eq_true]
      intro hplaced
      rw [paired hplaced] at hhash
      cases hhash
    have hstages : (p.place passDeps r).map Prod.fst = .error refusal := by rw [h]; rfl
    rw [place, places, map_placeFrom_cons] at hstages
    cases hl : r.locate ⟨addr, .hash⟩ (.hash bits) (p.dependencies passDeps []) none with
    | error other =>
      rw [hl] at hstages
      cases hstages
      left
      rw [probe, places, probeFrom_cons hdeps (by simp), hl]
      rfl
    | ok located =>
      right
      refine ⟨?_, hhash, hcells⟩
      rw [hl] at hstages
      change (Except.map _ _ >>= _) = _ at hstages
      rw [map_placeFrom_cons] at hstages
      have hself : ⟨addr, .register⟩ ∉ p.dependencies passDeps ([] ++ [⟨addr, .hash⟩]) := by
        rw [mem_dependencies]
        rintro (hmem | ⟨_, hmem⟩)
        · simp at hmem
        · exact hmem fused
      have hnew : (r.commit ⟨addr, .hash⟩ (.hash bits) (p.dependencies passDeps [])
          located).placements.get? ⟨addr, .register⟩ = none := by
        rw [Pipeline.get?_commit hr hl, if_neg (by simp)]
        exact Pipeline.isPlaced_eq_false_iff.mp hcells
      cases hbehind : (r.commit ⟨addr, .hash⟩ (.hash bits) (p.dependencies passDeps []) located).locate
          ⟨addr, .register⟩ (.register width capacity)
          (p.dependencies passDeps ([] ++ [⟨addr, .hash⟩])) none with
      | error other =>
        rw [hbehind] at hstages
        cases hstages
        exact Pipeline.refusal_of_new hself hnew hbehind fixable
      | ok cells =>
        rw [hbehind] at hstages
        cases hstages

end sketch

end Proposal

end PacketPlan
