import Mathlib.Order.Bounds.Basic
import PacketPlan.Proofs.Pipeline.Permanence

/-! # The earliest stage with room

What it takes for a request to be granted, and where: a new object goes to the first stage behind
its dependencies that has room for it, and an object that is placed already must find its
dependencies ahead of its stage and room there for what it lacks. Requests that no empty stage could
meet are refused at the outset; since what is left of a stage and what its objects hold make up its
capacity, none of these could have been granted anyway.
-/
namespace PacketPlan

theorem Budget.covers_refl (b : Budget) : b.covers b = true := by
  rw [covers_iff]
  omega

theorem Budget.covers_trans {a b c : Budget} (h : a.covers b = true) (h' : b.covers c = true) :
    a.covers c = true := by
  rw [covers_iff] at h h' ⊢
  omega

theorem Budget.covers_add_left (a b : Budget) : (a + b).covers a = true := by
  rw [covers_iff, add_def]
  simp only
  omega

theorem Budget.covers_of_covers_sub {left held need : Budget}
    (h : left.covers (need - held) = true) : (left + held).covers need = true := by
  rw [covers_iff] at h ⊢
  simp only [sub_sram, sub_tcam, sub_xbar, sub_ids] at h
  simp only [add_def]
  omega

namespace Pipeline
variable {p : Pipeline} {o : SwitchObject} {d : Demand} {deps : ObjectSet}

/-- One stage behind the last of the dependencies, and the first stage if there are none. -/
def behind (p : Pipeline) (deps : ObjectSet) : Nat :=
  (deps.elems.filterMap p.stageOf?).max?.elim 0 (· + 1)

def roomFrom (p : Pipeline) (earliest : Nat) (need : Budget) : Set Nat :=
  {i | earliest ≤ i ∧ ∃ s, p.stages[i]? = some s ∧ s.remaining.covers need = true}

theorem behind_le_iff {n : Nat} :
    p.behind deps ≤ n ↔ ∀ dep ∈ deps, ∀ s, p.stageOf? dep = some s → s < n := by
  have hstages : (∀ s ∈ deps.elems.filterMap p.stageOf?, s < n) ↔
      ∀ dep ∈ deps, ∀ s, p.stageOf? dep = some s → s < n := by
    simp only [List.mem_filterMap]
    exact ⟨fun h dep hdep s hs => h s ⟨dep, hdep, hs⟩, fun h s ⟨dep, hdep, hs⟩ => h dep hdep s hs⟩
  rw [← hstages, behind]
  cases hmax : (deps.elems.filterMap p.stageOf?).max? with
  | none =>
    rw [List.max?_eq_none_iff.mp hmax]
    simp
  | some last =>
    obtain ⟨hlast, hle⟩ := List.max?_eq_some_iff.mp hmax
    refine ⟨fun h s hs => Nat.lt_of_le_of_lt (hle s hs) h, fun h => h last hlast⟩

/-! ## What decides on a request -/

theorem needOf_eq_ok_iff {need : Budget} : p.needOf o d = .ok need ↔
    d.matchKeys ≤ p.maxMatchKeys ∧ d.footprint? = some need ∧ p.capacity.covers need = true := by
  unfold needOf
  by_cases hkeys : p.maxMatchKeys < d.matchKeys
  · simp [hkeys, Nat.not_le.mpr hkeys]
  · rw [if_neg hkeys]
    cases hneed : d.footprint? with
    | none => simp
    | some found =>
      by_cases hxbar : p.capacity.xbar < found.xbar
      · have hcovers : p.capacity.covers found = false := by
          rw [← Bool.not_eq_true, Budget.covers_iff]
          omega
        grind
      · grind

theorem earliestFrom_eq_ok_iff {earliest last : Nat} {binding : Option SwitchObject}
    {xs : List SwitchObject} :
    (∃ final, p.earliestFrom o earliest binding xs = .ok (last, final)) ↔
      (∀ x ∈ xs, p.isPlaced x = true) ∧
        ∀ n, last ≤ n ↔ earliest ≤ n ∧ ∀ x ∈ xs, ∀ s, p.stageOf? x = some s → s < n := by
  induction xs generalizing earliest binding with
  | nil =>
    simp only [earliestFrom, Except.ok.injEq, Prod.mk.injEq, exists_eq_right', List.not_mem_nil,
      false_implies, implies_true, and_true, true_and]
    exact ⟨fun h n => by rw [h], fun h => (eq_of_forall_ge_iff h).symm⟩
  | cons x xs ih =>
    cases hx : p.stageOf? x with
    | none =>
      have hunplaced : p.isPlaced x = false := isPlaced_eq_false_iff.mpr (stageOf?_eq_none.mp hx)
      simp [earliestFrom, hx, hunplaced]
    | some s =>
      have hplaced : p.isPlaced x = true := isPlaced_iff.mpr ⟨s, hx⟩
      simp only [earliestFrom, hx, List.forall_mem_cons, hplaced, true_and, Option.some.injEq,
        forall_eq']
      split
      · have hlater : ∀ n, s + 1 ≤ n ↔ earliest ≤ n ∧ s < n := by omega
        simp only [ih, hlater, and_assoc]
      · have hlater : ∀ n, earliest ≤ n ↔ earliest ≤ n ∧ s < n := by omega
        simp only [ih, ← and_assoc, ← hlater]

theorem earliestFrom_deps_iff {last : Nat} :
    (∃ final, p.earliestFrom o 0 none deps.elems = .ok (last, final)) ↔
      (∀ dep ∈ deps, p.isPlaced dep = true) ∧ last = p.behind deps := by
  rw [earliestFrom_eq_ok_iff]
  refine and_congr_right fun _ => ?_
  simp only [Nat.zero_le, true_and]
  constructor
  · intro h
    exact eq_of_forall_ge_iff fun n => (h n).trans behind_le_iff.symm
  · rintro rfl n
    exact behind_le_iff

theorem find?_room_iff (hp : p.Indexed) {need : Budget} {earliest stage : Nat} :
    (∃ s, (p.stages.drop earliest).find? (fun s => s.remaining.covers need) = some s ∧
      s.index = stage) ↔ IsLeast (p.roomFrom earliest need) stage := by
  have hfound : ∀ s, (p.stages.drop earliest).find? (fun s => s.remaining.covers need) = some s →
      IsLeast (p.roomFrom earliest need) s.index := by
    intro s hs
    obtain ⟨hcovers, i, hi, rfl, hbefore⟩ := List.find?_eq_some_iff_getElem.mp hs
    have hat : p.stages[earliest + i]? = some (p.stages.drop earliest)[i] := by
      rw [← List.getElem?_drop, List.getElem?_eq_getElem hi]
    rw [hp _ _ hat]
    refine ⟨⟨Nat.le_add_right _ _, _, hat, hcovers⟩, ?_⟩
    rintro j ⟨hle, t, ht, hroom⟩
    by_contra hlt
    have hj : j - earliest < i := by omega
    have hskipped := hbefore (j - earliest) hj
    have hsame : (p.stages.drop earliest)[j - earliest]? = some t := by
      rw [List.getElem?_drop, Nat.add_sub_cancel' hle]
      exact ht
    rw [List.getElem?_eq_getElem (by omega)] at hsame
    cases hsame
    rw [hroom] at hskipped
    cases hskipped
  constructor
  · rintro ⟨s, hs, rfl⟩
    exact hfound s hs
  · intro hleast
    cases hsearch : (p.stages.drop earliest).find? (fun s => s.remaining.covers need) with
    | some s => exact ⟨s, rfl, (hfound s hsearch).unique hleast⟩
    | none =>
      obtain ⟨hle, t, ht, hroom⟩ := hleast.1
      rw [← Nat.add_sub_cancel' hle, ← List.getElem?_drop] at ht
      exact absurd hroom (List.find?_eq_none.mp hsearch t (List.mem_of_getElem? ht))

/-! ## When a request is granted -/

theorem locate_new_iff (hp : p.Indexed) (new : p.placements.get? o = none) {stage : Nat} :
    (∃ located, p.locate o d deps none = .ok located ∧ located.stage = stage) ↔
      o ∉ deps ∧ (∀ dep ∈ deps, p.isPlaced dep = true) ∧ (d.isDigest = true → 0 < p.digests) ∧
        ∃ need, p.needOf o d = .ok need ∧ IsLeast (p.roomFrom (p.behind deps) need) stage := by
  unfold locate
  constructor
  · rintro ⟨located, h, rfl⟩
    split at h
    · cases h
    · rename_i hself
      obtain ⟨need, hneed, h⟩ := bind_eq_ok.mp h
      obtain ⟨⟨earliest, final⟩, hearliest, h⟩ := bind_eq_ok.mp h
      obtain ⟨hdeps, rfl⟩ := earliestFrom_deps_iff.mp ⟨final, hearliest⟩
      simp only [new] at h
      split at h
      · cases h
      · rename_i hslots
        simp only [locateFresh] at h
        split at h
        · rename_i s hs
          cases h
          refine ⟨hself, hdeps, ?_, need, hneed, (find?_room_iff hp).mp ⟨s, hs, rfl⟩⟩
          intro hd
          simp only [hd, Bool.true_and, beq_iff_eq] at hslots
          omega
        · cases h
  · rintro ⟨hself, hdeps, hslots, need, hneed, hleast⟩
    obtain ⟨final, hearliest⟩ := (earliestFrom_deps_iff (o := o)).mpr ⟨hdeps, rfl⟩
    obtain ⟨s, hs, hindex⟩ := (find?_room_iff hp).mpr hleast
    have hfree : ¬(d.isDigest && p.digests == 0) = true := by
      intro h
      simp only [Bool.and_eq_true, beq_iff_eq] at h
      have hpos := hslots h.1
      omega
    refine ⟨.fresh s.index need, ?_, hindex⟩
    rw [if_neg hself]
    refine bind_eq_ok.mpr ⟨need, hneed, bind_eq_ok.mpr ⟨(p.behind deps, final), hearliest, ?_⟩⟩
    simp only [new, if_neg hfree, locateFresh, hs]

theorem locateHeld_eq_ok_iff {placed : Placement} {need : Budget} {earliest : Nat}
    {requested : Option Nat} {located : Located} :
    p.locateHeld o placed need earliest requested = .ok located ↔
      earliest ≤ placed.stage ∧ requested.filter (· ≠ placed.stage) = none ∧
        (p.remainingAt placed.stage).covers (need - placed.footprint) = true ∧
        located = .held placed.stage (need - placed.footprint) (max placed.footprint need) := by
  refine ⟨locateHeld_spec, ?_⟩
  rintro ⟨hle, hrequested, hcovers, rfl⟩
  unfold locateHeld
  rw [if_neg (Nat.not_lt.mpr hle)]
  simp only [hrequested, hcovers, if_true]

/-- An object that is placed is granted a request if no other stage is asked for, if its
dependencies are ahead of it, and if its stage has room for what it lacks. -/
theorem locate_held_iff {placed : Placement} (hplaced : p.placements.get? o = some placed)
    {requested : Option Nat} {located : Located} :
    p.locate o d deps requested = .ok located ↔
      o ∉ deps ∧ (∀ dep ∈ deps, ∃ s, p.stageOf? dep = some s ∧ s < placed.stage) ∧
        requested.filter (· ≠ placed.stage) = none ∧ ∃ need, p.needOf o d = .ok need ∧
          (p.remainingAt placed.stage).covers (need - placed.footprint) = true ∧
          located = .held placed.stage (need - placed.footprint) (max placed.footprint need) := by
  unfold locate
  constructor
  · intro h
    split at h
    · cases h
    · rename_i hself
      obtain ⟨need, hneed, h⟩ := bind_eq_ok.mp h
      obtain ⟨⟨earliest, final⟩, hearliest, h⟩ := bind_eq_ok.mp h
      simp only [hplaced] at h
      obtain ⟨hle, hrequested, hcovers, rfl⟩ := locateHeld_eq_ok_iff.mp h
      refine ⟨hself, ?_, hrequested, need, hneed, hcovers, rfl⟩
      intro dep hdep
      obtain ⟨s, hs, hlt⟩ := (earliestFrom_spec hearliest).2 dep hdep
      exact ⟨s, hs, by omega⟩
  · rintro ⟨hself, hdeps, hrequested, need, hneed, hcovers, rfl⟩
    have hall : ∀ dep ∈ deps, p.isPlaced dep = true := by
      intro dep hdep
      obtain ⟨s, hs, _⟩ := hdeps dep hdep
      exact isPlaced_iff.mpr ⟨s, hs⟩
    have hbehind : p.behind deps ≤ placed.stage := by
      apply behind_le_iff.mpr
      intro dep hdep i hi
      obtain ⟨s, hs, hlt⟩ := hdeps dep hdep
      rw [hs] at hi
      cases hi
      exact hlt
    obtain ⟨final, hearliest⟩ := (earliestFrom_deps_iff (o := o)).mpr ⟨hall, rfl⟩
    rw [if_neg hself]
    refine bind_eq_ok.mpr ⟨need, hneed, bind_eq_ok.mpr ⟨(p.behind deps, final), hearliest, ?_⟩⟩
    simp only [hplaced]
    exact locateHeld_eq_ok_iff.mpr ⟨hbehind, hrequested, hcovers, rfl⟩

theorem place_eq_ok_iff {stage : Nat} : (∃ q, p.place o d deps = .ok (stage, q)) ↔
    ∃ located, p.locate o d deps none = .ok located ∧ located.stage = stage := by
  constructor
  · rintro ⟨q, h⟩
    obtain ⟨located, hl, hstage, _⟩ := placeWithin_eq_ok h
    exact ⟨located, hl, hstage.symm⟩
  · rintro ⟨located, hl, rfl⟩
    exact ⟨p.commit o d deps located, bind_eq_ok.mpr ⟨located, hl, rfl⟩⟩

/-! ## Why a request is refused -/

theorem earliestFrom_error {earliest : Nat} {binding : Option SwitchObject} {xs : List SwitchObject}
    {refusal : Refusal} (h : p.earliestFrom o earliest binding xs = .error refusal) :
    ∃ dep ∈ xs, p.isPlaced dep = false ∧ refusal = .unmetDependency o dep := by
  induction xs generalizing earliest binding with
  | nil => cases h
  | cons x xs ih =>
    have hlater : (∃ dep ∈ xs, p.isPlaced dep = false ∧ refusal = .unmetDependency o dep) →
        ∃ dep ∈ x :: xs, p.isPlaced dep = false ∧ refusal = .unmetDependency o dep := by
      rintro ⟨dep, hdep, habsent⟩
      exact ⟨dep, List.mem_cons_of_mem x hdep, habsent⟩
    simp only [earliestFrom] at h
    split at h
    · rename_i hnone
      cases h
      exact ⟨x, List.mem_cons_self, isPlaced_eq_false_iff.mpr (stageOf?_eq_none.mp hnone), rfl⟩
    · split at h
      · exact hlater (ih h)
      · exact hlater (ih h)

theorem locateHeld_error {placed : Placement} {need : Budget} {earliest : Nat}
    {requested : Option Nat} {refusal : Refusal}
    (h : p.locateHeld o placed need earliest requested = .error refusal) :
    ∃ conflict, refusal = .inconsistentPlacement o placed.stage conflict := by
  unfold locateHeld at h
  split at h
  · cases h
    exact ⟨_, rfl⟩
  · split at h
    · cases h
      exact ⟨_, rfl⟩
    · simp only at h
      split at h
      · cases h
      · cases h
        exact ⟨_, rfl⟩

/-- Why a request that leaves the stage open is refused. A reason counts only where those that are
looked at before it do not hold. -/
inductive Declines (p : Pipeline) (o : SwitchObject) (d : Demand) (deps : ObjectSet) : Refusal → Prop
  | itself (self : o ∈ deps) : Declines p o d deps (.selfDependency o)
  | unfit {refusal : Refusal} (apart : o ∉ deps) (unfit : p.needOf o d = .error refusal) :
      Declines p o d deps refusal
  | unmet {dep : SwitchObject} (listed : dep ∈ deps) (absent : p.isPlaced dep = false) :
      Declines p o d deps (.unmetDependency o dep)
  | held {placed : Placement} {conflict : Conflict} (hplaced : p.placements.get? o = some placed) :
      Declines p o d deps (.inconsistentPlacement o placed.stage conflict)
  | slots {need : Budget} (apart : o ∉ deps) (fits : p.needOf o d = .ok need)
      (new : p.placements.get? o = none) (digest : d.isDigest = true) (taken : p.digests = 0) :
      Declines p o d deps (.noDigestSlots o)
  | full {earliest : Nat} (new : p.placements.get? o = none) :
      Declines p o d deps (.noStageAvailable o earliest)

theorem declines_of_locate {refusal : Refusal} (h : p.locate o d deps none = .error refusal) :
    p.Declines o d deps refusal := by
  unfold locate at h
  split at h
  · rename_i hself
    cases h
    exact .itself hself
  · rename_i apart
    cases hneed : p.needOf o d with
    | error other =>
      rw [hneed] at h
      cases h
      exact .unfit apart hneed
    | ok need =>
      cases hearliest : p.earliestFrom o 0 none deps.elems with
      | error other =>
        rw [hneed, hearliest] at h
        cases h
        obtain ⟨dep, hdep, habsent, rfl⟩ := earliestFrom_error hearliest
        exact .unmet hdep habsent
      | ok found =>
        cases hplaced : p.placements.get? o with
        | some placed =>
          rw [hneed, hearliest, hplaced] at h
          change p.locateHeld o placed need found.1 none = .error refusal at h
          obtain ⟨conflict, rfl⟩ := locateHeld_error h
          exact .held hplaced
        | none =>
          rw [hneed, hearliest, hplaced] at h
          change (if _ then _ else _) = _ at h
          split at h
          · rename_i hdigest
            cases h
            rw [Bool.and_eq_true, beq_iff_eq] at hdigest
            exact .slots apart hneed hplaced hdigest.1 hdigest.2
          · simp only [locateFresh] at h
            split at h
            · cases h
            · cases h
              exact .full hplaced

theorem place_eq_error_iff {refusal : Refusal} :
    p.place o d deps = .error refusal ↔ p.locate o d deps none = .error refusal := by
  unfold place placeWithin
  cases p.locate o d deps none with
  | error other =>
    constructor
    · rintro ⟨⟩
      rfl
    · rintro ⟨⟩
      rfl
  | ok located =>
    constructor
    · rintro ⟨⟩
    · rintro ⟨⟩

/-- Whether a request is too large for a stage is settled before anything else is looked at but the
object itself. -/
theorem needOf_of_too_large {refusal : Refusal} (h : p.place o d deps = .error refusal)
    (large : refusal = .tooLarge o ∨ ∃ needed available,
      refusal = .crossbarExceeded o needed available) : p.needOf o d = .error refusal := by
  cases declines_of_locate (place_eq_error_iff.mp h) with
  | unfit _ unfit => exact unfit
  | itself | unmet | held | slots | full => simp at large

theorem commit_limits {located : Located} : (p.commit o d deps located).capacity = p.capacity ∧
    (p.commit o d deps located).maxMatchKeys = p.maxMatchKeys := by
  have hrecord : ∀ r : Pipeline, (r.record o deps).capacity = r.capacity ∧
      (r.record o deps).maxMatchKeys = r.maxMatchKeys := by
    intro r
    unfold record
    split <;> exact ⟨rfl, rfl⟩
  cases located with
  | held stage growth footprint =>
    simp only [commit, hrecord]
    split <;> exact ⟨rfl, rfl⟩
  | fresh stage need => exact hrecord _

theorem needOf_commit {located : Located} :
    (p.commit o d deps located).needOf = p.needOf := by
  funext x e
  unfold needOf
  rw [commit_limits.1, commit_limits.2]

namespace Account
variable {a : Account} {c : SwitchConfig} {need : Budget}

theorem limits_after (c : SwitchConfig) (requests : List Request) :
    (after c requests).pipeline.capacity = (ofConfig c).capacity ∧
      (after c requests).pipeline.maxMatchKeys = c.maxMatchKeys := by
  apply after_induction (P := fun a => a.pipeline.capacity = (ofConfig c).capacity ∧
    a.pipeline.maxMatchKeys = c.maxMatchKeys)
  · exact ⟨rfl, rfl⟩
  · intro a r h
    rcases a.serve_cases r with hrefused | ⟨stage, p, haccepted, hserved⟩
    · rw [hrefused]
      exact h
    · rw [attempt_eq] at haccepted
      obtain ⟨located, _, _, rfl⟩ := placeWithin_eq_ok haccepted
      rw [hserved]
      exact ⟨commit_limits.1.trans h.1, commit_limits.2.trans h.2⟩

theorem Balanced.capacity_covers_room (h : a.Balanced c) {i : Nat}
    (room : i ∈ a.pipeline.roomFrom 0 need) : (ofConfig c).capacity.covers need = true := by
  obtain ⟨_, s, hs, hcovers⟩ := room
  rw [← h.conserved i s hs]
  exact Budget.covers_trans (Budget.covers_add_left _ _) hcovers

theorem Balanced.occupied_covers (h : a.Balanced c) {placed : Placement}
    (hplaced : a.pipeline.placements.get? o = some placed) :
    (a.pipeline.occupied placed.stage).covers placed.footprint = true := by
  obtain ⟨rest, hperm, _⟩ := h.ascending.exists_perm_insertEntry hplaced placed
  rw [occupied_of_perm hperm, if_pos rfl]
  exact Budget.covers_add_left _ _

theorem Balanced.capacity_covers_held (h : a.Balanced c) {placed : Placement} {s : Stage}
    (hplaced : a.pipeline.placements.get? o = some placed)
    (hs : a.pipeline.stages[placed.stage]? = some s)
    (room : s.remaining.covers (need - placed.footprint) = true) :
    (ofConfig c).capacity.covers need = true := by
  have hheld := h.occupied_covers hplaced
  have hneed := Budget.covers_of_covers_sub room
  rw [← h.conserved placed.stage s hs]
  refine Budget.covers_trans ?_ hneed
  rw [Budget.covers_iff] at hheld ⊢
  simp only [Budget.add_def]
  omega

theorem Balanced.exists_stage (h : a.Balanced c) {placed : Placement}
    (hplaced : a.pipeline.placements.get? o = some placed) :
    ∃ s, a.pipeline.stages[placed.stage]? = some s := by
  have hlt : placed.stage < a.pipeline.stages.length := by
    rw [h.length_stages]
    apply h.within o
    rw [stageOf?, hplaced]
    rfl
  exact ⟨_, List.getElem?_eq_getElem hlt⟩

theorem needOf_after_iff {requests : List Request} :
    (after c requests).pipeline.needOf o d = .ok need ↔ d.matchKeys ≤ c.maxMatchKeys ∧
      d.footprint? = some need ∧ (ofConfig c).capacity.covers need = true := by
  obtain ⟨hcapacity, hkeys⟩ := limits_after c requests
  rw [needOf_eq_ok_iff, hcapacity, hkeys]

/-! Room in some stage is room in an empty one, so the check against the capacity can be left
out.
-/

theorem place_new_iff {requests : List Request} {stage : Nat}
    (new : (after c requests).pipeline.placements.get? o = none) :
    (∃ q, (after c requests).pipeline.place o d deps = .ok (stage, q)) ↔
      o ∉ deps ∧ d.matchKeys ≤ c.maxMatchKeys ∧
        (∀ dep ∈ deps, (after c requests).pipeline.isPlaced dep = true) ∧
        (d.isDigest = true → 0 < (after c requests).pipeline.digests) ∧
        ∃ need, d.footprint? = some need ∧ IsLeast ((after c requests).pipeline.roomFrom
          ((after c requests).pipeline.behind deps) need) stage := by
  have h := balanced_after c requests
  rw [place_eq_ok_iff, locate_new_iff h.indexed new]
  constructor
  · rintro ⟨hself, hdeps, hslots, need, hneed, hleast⟩
    obtain ⟨hkeys, hfootprint, _⟩ := needOf_after_iff.mp hneed
    exact ⟨hself, hkeys, hdeps, hslots, need, hfootprint, hleast⟩
  · rintro ⟨hself, hkeys, hdeps, hslots, need, hfootprint, hleast⟩
    have hcovers := h.capacity_covers_room ⟨Nat.zero_le stage, hleast.1.2⟩
    have hneed : (after c requests).pipeline.needOf o d = .ok need :=
      needOf_after_iff.mpr ⟨hkeys, hfootprint, hcovers⟩
    exact ⟨hself, hdeps, hslots, need, hneed, hleast⟩

theorem place_held_iff {requests : List Request} {placed : Placement} {stage : Nat}
    (hplaced : (after c requests).pipeline.placements.get? o = some placed) :
    (∃ q, (after c requests).pipeline.place o d deps = .ok (stage, q)) ↔
      stage = placed.stage ∧ o ∉ deps ∧ d.matchKeys ≤ c.maxMatchKeys ∧
        (∀ dep ∈ deps, ∃ i, (after c requests).pipeline.stageOf? dep = some i ∧ i < stage) ∧
        ∃ need s, d.footprint? = some need ∧ (after c requests).pipeline.stages[stage]? = some s ∧
          s.remaining.covers (need - placed.footprint) = true := by
  have h := balanced_after c requests
  obtain ⟨s, hs⟩ := h.exists_stage hplaced
  rw [place_eq_ok_iff]
  simp only [locate_held_iff hplaced, remainingAt_eq hs]
  constructor
  · rintro ⟨located, ⟨hself, hdeps, _, need, hneed, hroom, rfl⟩, rfl⟩
    obtain ⟨hkeys, hfootprint, _⟩ := needOf_after_iff.mp hneed
    exact ⟨rfl, hself, hkeys, hdeps, need, s, hfootprint, hs, hroom⟩
  · rintro ⟨rfl, hself, hkeys, hdeps, need, s', hfootprint, hs', hroom⟩
    have hcovers := h.capacity_covers_held hplaced hs' hroom
    rw [hs] at hs'
    cases hs'
    have hneed : (after c requests).pipeline.needOf o d = .ok need :=
      needOf_after_iff.mpr ⟨hkeys, hfootprint, hcovers⟩
    exact ⟨_, ⟨hself, hdeps, rfl, need, hneed, hroom, rfl⟩, rfl⟩

theorem capacity_of_too_large {requests : List Request} {refusal : Refusal}
    (refused : (after c requests).pipeline.place o d deps = .error refusal)
    (hfootprint : d.footprint? = some need)
    (large : refusal = .tooLarge o ∨ ∃ needed available,
      refusal = .crossbarExceeded o needed available) :
    (ofConfig c).capacity.covers need = false := by
  have hearly := needOf_of_too_large refused large
  rw [← Bool.not_eq_true]
  intro hcovers
  have hkeys : d.matchKeys ≤ c.maxMatchKeys := by
    by_contra hmany
    rw [needOf, (limits_after c requests).2, if_pos (Nat.not_le.mp hmany)] at hearly
    cases hearly
    simp at large
  rw [needOf_after_iff.mpr ⟨hkeys, hfootprint, hcovers⟩] at hearly
  cases hearly

end Account

end Pipeline

open Pipeline

/-- Placement succeeds exactly when it can, whatever was requested before. A new object goes to the
first stage behind its dependencies that has room for it. An object that is placed stays in its
stage, which has to be behind the dependencies and to have room for what the object lacks. Nothing
is ever refused as too large for an empty stage that some stage could still take. -/
theorem placement_takes_earliest_stage (c : SwitchConfig) (requests : List Request)
    (o : SwitchObject) (d : Demand) (deps : ObjectSet) :
    let p := (Account.after c requests).pipeline
    (p.placements.get? o = none → ∀ stage, (∃ q, p.place o d deps = .ok (stage, q)) ↔
      o ∉ deps ∧ d.matchKeys ≤ c.maxMatchKeys ∧ (∀ dep ∈ deps, p.isPlaced dep = true) ∧
        (d.isDigest = true → 0 < p.digests) ∧
        ∃ need, d.footprint? = some need ∧ IsLeast (p.roomFrom (p.behind deps) need) stage) ∧
    (∀ placed, p.placements.get? o = some placed →
      ∀ stage, (∃ q, p.place o d deps = .ok (stage, q)) ↔
        stage = placed.stage ∧ o ∉ deps ∧ d.matchKeys ≤ c.maxMatchKeys ∧
          (∀ dep ∈ deps, ∃ i, p.stageOf? dep = some i ∧ i < stage) ∧
          ∃ need s, d.footprint? = some need ∧ p.stages[stage]? = some s ∧
            s.remaining.covers (need - placed.footprint) = true) ∧
    ∀ refusal need, p.place o d deps = .error refusal → d.footprint? = some need →
      (refusal = .tooLarge o ∨ ∃ needed available,
        refusal = .crossbarExceeded o needed available) →
      p.roomFrom 0 need = ∅ ∧ ∀ placed s, p.placements.get? o = some placed →
        p.stages[placed.stage]? = some s → s.remaining.covers (need - placed.footprint) = false := by
  intro p
  have h : (Account.after c requests).Balanced c := Account.balanced_after c requests
  refine ⟨?_, ?_, ?_⟩
  · intro new stage
    exact Account.place_new_iff new
  · intro placed hplaced stage
    exact Account.place_held_iff hplaced
  · intro refusal need refused hfootprint large
    have huncovered := Account.capacity_of_too_large refused hfootprint large
    constructor
    · apply Set.eq_empty_of_forall_notMem
      intro i hroom
      rw [h.capacity_covers_room hroom] at huncovered
      cases huncovered
    · intro placed s hplaced hs
      rw [← Bool.not_eq_true]
      intro hroom
      rw [h.capacity_covers_held hplaced hs hroom] at huncovered
      cases huncovered

/-- Behind a hash unit in the first of three stages and with the second one full of registers, a
table goes to the third. The hash unit itself grows where it is. -/
theorem table_passes_full_stage :
    let hash : SwitchObject := ⟨⟨3⟩, .hash⟩
    let requests : List Request :=
      [{ object := hash, demand := .hash 8 },
        { object := ⟨⟨1⟩, .register⟩, demand := .register 10 10, stage? := some 1 }]
    let c : SwitchConfig := { stages := 3, sramBitsPerStage := 100 }
    let p := (Account.after c requests).pipeline
    (∃ q, p.place ⟨⟨2⟩, .table⟩ (.table [8] 8 2 false) (.ofList [hash]) = .ok (2, q)) ∧
      (∃ q, p.place hash (.hash 16) ∅ = .ok (0, q)) ∧
      ∀ q, p.place hash (.hash 16) (.ofList [⟨⟨1⟩, .register⟩]) ≠ .ok (0, q) := by
  intro hash requests c p
  have hplaced : p.placements.get? hash = some ⟨0, ⟨0, 0, 8, 0⟩⟩ := by decide +kernel
  obtain ⟨hnew, _, _⟩ := placement_takes_earliest_stage c requests ⟨⟨2⟩, .table⟩
    (.table [8] 8 2 false) (.ofList [hash])
  obtain ⟨_, hgrows, _⟩ := placement_takes_earliest_stage c requests hash (.hash 16) ∅
  obtain ⟨_, hstays, _⟩ := placement_takes_earliest_stage c requests hash (.hash 16)
    (.ofList [⟨⟨1⟩, .register⟩])
  refine ⟨(hnew (by decide +kernel) 2).mpr ?_, (hgrows _ hplaced 0).mpr ?_, ?_⟩
  · refine ⟨by decide, by decide, by decide +kernel, by decide, ⟨32, 0, 8, 1⟩, by decide, ?_, ?_⟩
    · exact ⟨by decide +kernel, ⟨2, ⟨100, 540672, 1024, 16⟩, ∅⟩, by decide +kernel, by decide⟩
    · rintro i ⟨hle, s, hs, hroom⟩
      have hbehind : p.behind (.ofList [hash]) = 1 := by decide +kernel
      have hpast : 1 ≤ i := Nat.le_trans (Nat.le_of_eq hbehind.symm) hle
      by_contra hlt
      have hone : i = 1 := by omega
      subst hone
      have hfull : (p.stages[1]?).any (fun s => s.remaining.covers ⟨32, 0, 8, 1⟩) = false := by
        decide +kernel
      rw [hs, Option.any_some, hroom] at hfull
      cases hfull
  · refine ⟨rfl, OrdSet.not_mem_empty _, by decide, ?_, ⟨0, 0, 16, 0⟩,
      ⟨0, ⟨100, 540672, 1016, 16⟩, .ofList [hash]⟩, by decide, by decide +kernel, by decide⟩
    intro dep hdep
    exact absurd hdep (OrdSet.not_mem_empty dep)
  · intro q hq
    obtain ⟨_, _, _, hdeps, _⟩ := (hstays _ hplaced 0).mp ⟨q, hq⟩
    obtain ⟨i, _, hlt⟩ := hdeps ⟨⟨1⟩, .register⟩ (by decide)
    exact absurd hlt (Nat.not_lt_zero i)

end PacketPlan
