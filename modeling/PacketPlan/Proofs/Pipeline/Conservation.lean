import Mathlib.Algebra.BigOperators.Group.List.Basic
import PacketPlan.Fault
import PacketPlan.Proofs.Ordered
import PacketPlan.Proofs.Pipeline.Placement

/-! # Resources are conserved

A pipeline is followed through any sequence of requests, accepted or refused, together with the
requests that it has accepted. At all times what a stage has left and what its objects hold there
add up to the capacity of a stage. An object that grows gives up nothing and takes only what it
lacks, so it holds the largest amount in each dimension that was ever accepted for it.
-/
namespace PacketPlan

instance : LawfulRanked SwitchObject where
  rank_injective {a b} h := by
    rcases a with ⟨⟨a⟩, r⟩
    rcases b with ⟨⟨b⟩, r'⟩
    simp only [Ranked.rank, List.cons.injEq, Int.natCast_inj, and_true] at h
    obtain ⟨rfl, hr⟩ := h
    have he : r = r' := by cases r <;> cases r' <;> first | rfl | cases hr
    rw [he]

namespace Budget

instance : Add Budget where
  add a b := ⟨a.sram + b.sram, a.tcam + b.tcam, a.xbar + b.xbar, a.ids + b.ids⟩

instance : Zero Budget := ⟨{}⟩

theorem add_def (a b : Budget) :
    a + b = ⟨a.sram + b.sram, a.tcam + b.tcam, a.xbar + b.xbar, a.ids + b.ids⟩ := rfl

theorem zero_def : (0 : Budget) = ⟨0, 0, 0, 0⟩ := rfl

theorem sub_def (a b : Budget) :
    a - b = ⟨a.sram - b.sram, a.tcam - b.tcam, a.xbar - b.xbar, a.ids - b.ids⟩ := rfl

theorem max_def (a b : Budget) :
    max a b = ⟨max a.sram b.sram, max a.tcam b.tcam, max a.xbar b.xbar, max a.ids b.ids⟩ := rfl

instance : AddCommMonoid Budget where
  add_assoc a b c := by simp only [add_def, Nat.add_assoc]
  zero_add a := by simp only [add_def, zero_def, Nat.zero_add]
  add_zero a := by simp only [add_def, zero_def, Nat.add_zero]
  add_comm a b := by simp only [add_def, Nat.add_comm]
  nsmul := nsmulRec

theorem add_sub_eq_max (held need : Budget) : held + (need - held) = max held need := by
  simp only [add_def, sub_def, max_def, mk.injEq]
  omega

theorem sub_add_cancel_of_covers {b amount : Budget} (h : b.covers amount = true) :
    b - amount + amount = b := by
  rw [covers_iff] at h
  rcases b with ⟨sram, tcam, xbar, ids⟩
  simp only [add_def, sub_def, mk.injEq] at h ⊢
  omega

theorem zero_max (b : Budget) : max {} b = b := by
  simp only [max_def, Nat.zero_max]

end Budget

/-- A request for a place in the pipeline: in that very stage, if one is named. -/
structure Request where
  object : SwitchObject
  demand : Demand
  deps : ObjectSet := ∅
  stage? : Option Nat := none
deriving DecidableEq, Inhabited

namespace Pipeline

def attempt (p : Pipeline) (r : Request) : Except Refusal (Nat × Pipeline) :=
  match r.stage? with
  | none => p.place r.object r.demand r.deps
  | some stage => p.placeAt r.object r.demand r.deps stage

theorem attempt_eq (p : Pipeline) (r : Request) :
    p.attempt r = p.placeWithin r.object r.demand r.deps r.stage? := by
  unfold attempt place placeAt
  cases r.stage? <;> rfl

/-- What the objects of a stage hold there. -/
def occupied (p : Pipeline) (i : Nat) : Budget :=
  ((p.placements.entries.filter fun e => e.2.stage = i).map fun e => e.2.footprint).sum

def Located.amount : Located → Budget
  | held _ growth _ => growth
  | fresh _ need => need

def Located.footprint : Located → Budget
  | held _ _ footprint => footprint
  | fresh _ need => need

/-- A pipeline with the requests that it has accepted, in their order. -/
structure Account where
  pipeline : Pipeline
  accepted : List Request := []

namespace Account

def accept (a : Account) (p : Pipeline) (r : Request) : Account := ⟨p, a.accepted ++ [r]⟩

def serve (a : Account) (r : Request) : Account :=
  match a.pipeline.attempt r with
  | .ok (_, p) => a.accept p r
  | .error _ => a

/-- The empty pipeline of a configuration after the requests; the refused ones leave no trace. -/
def after (c : SwitchConfig) (requests : List Request) : Account :=
  requests.foldl serve ⟨.ofConfig c, []⟩

def demandsOn (a : Account) (o : SwitchObject) : List Demand :=
  (a.accepted.filter fun r => r.object = o).map Request.demand

/-- The largest amount of each dimension that was accepted for an object. -/
def peak (a : Account) (o : SwitchObject) : Budget :=
  ((a.demandsOn o).filterMap Demand.footprint?).foldl max {}

/-- The first request that was accepted for the object was for a digest. -/
def openedByDigest (a : Account) (o : SwitchObject) : Bool :=
  (a.demandsOn o).head?.any Demand.isDigest

end Account

/-! ## What a request takes -/

variable {p : Pipeline} {o : SwitchObject} {d : Demand} {deps : ObjectSet}
variable {requested : Option Nat} {located : Located}

theorem needOf_eq_ok {need : Budget} (h : p.needOf o d = .ok need) : d.footprint? = some need := by
  unfold needOf at h
  split at h
  · cases h
  · cases hf : d.footprint? with
    | none => simp [hf] at h
    | some found =>
      simp only [hf] at h
      split at h
      · cases h
      · split at h
        · cases h
          rfl
        · cases h

/-- A request is granted at a price that the stage can pay: what the object lacks if it is placed
already, and all that it needs if it is not. -/
theorem locate_grants (hp : p.Indexed) (h : p.locate o d deps requested = .ok located) :
    ∃ need, d.footprint? = some need ∧
      ((∃ placed, p.placements.get? o = some placed ∧
          (p.remainingAt placed.stage).covers (need - placed.footprint) = true ∧
          located = .held placed.stage (need - placed.footprint) (max placed.footprint need)) ∨
        (p.placements.get? o = none ∧ (d.isDigest = true → p.digests ≠ 0) ∧
          ∃ stage s, p.stages[stage]? = some s ∧ s.remaining.covers need = true ∧
            located = .fresh stage need)) := by
  unfold locate at h
  split at h
  · cases h
  · obtain ⟨need, hneed, h⟩ := bind_eq_ok.mp h
    obtain ⟨⟨earliest, binding⟩, _, h⟩ := bind_eq_ok.mp h
    refine ⟨need, needOf_eq_ok hneed, ?_⟩
    cases hplaced : p.placements.get? o with
    | some placed =>
      simp only [hplaced] at h
      obtain ⟨_, _, hcov, rfl⟩ := locateHeld_spec h
      exact .inl ⟨placed, rfl, hcov, rfl⟩
    | none =>
      simp only [hplaced] at h
      split at h
      · cases h
      · rename_i hslots
        obtain ⟨stage, s, _, hs, hcov, rfl⟩ := locateFresh_spec hp h
        refine .inr ⟨rfl, ?_, stage, s, hs, hcov, rfl⟩
        intro hd hzero
        simp [hd, hzero] at hslots

theorem remainingAt_eq {i : Nat} {s : Stage} (h : p.stages[i]? = some s) :
    p.remainingAt i = s.remaining := by
  rw [remainingAt, h]
  rfl

@[simp] theorem record_digests : (p.record o deps).digests = p.digests := by
  unfold record
  split <;> rfl

theorem commit_held_digests {stage : Nat} {growth footprint : Budget} :
    (p.commit o d deps (.held stage growth footprint)).digests = p.digests := by
  simp only [commit, record_digests]
  split <;> rfl

theorem commit_fresh_digests {stage : Nat} {need : Budget} :
    (p.commit o d deps (.fresh stage need)).digests =
      if d.isDigest then p.digests - 1 else p.digests := by
  simp only [commit, record_digests]

theorem getElem?_commit_held {stage i : Nat} {growth footprint : Budget} :
    (p.commit o d deps (.held stage growth footprint)).stages[i]? = (p.stages[i]?).map fun s =>
      if stage = i then { s with remaining := s.remaining - growth } else s := by
  simp only [commit, record_stages]
  split
  · rename_i hzero
    have hg : growth = {} := of_decide_eq_true hzero
    have hsame : ∀ b : Budget, b - growth = b := by
      intro b
      rw [hg]
      rfl
    simp only [hsame, ite_self]
    exact Option.map_id'.symm
  · exact getElem?_debit ..

theorem getElem?_commit_fresh {stage i : Nat} {need : Budget} :
    (p.commit o d deps (.fresh stage need)).stages[i]? = (p.stages[i]?).map fun s =>
      if stage = i then
        { s with remaining := s.remaining - need, objects := s.objects.insert o }
      else s := by
  simp only [commit, record_stages, List.getElem?_modify, getElem?_debit]
  cases p.stages[i]? with
  | none => rfl
  | some s => by_cases hi : stage = i <;> simp [hi]

theorem remaining_commit (p : Pipeline) (o : SwitchObject) (d : Demand) (deps : ObjectSet)
    (located : Located) (i : Nat) :
    ((p.commit o d deps located).stages[i]?).map Stage.remaining = (p.stages[i]?).map fun s =>
      if located.stage = i then s.remaining - located.amount else s.remaining := by
  cases located with
  | held stage growth footprint =>
    rw [getElem?_commit_held, Option.map_map]
    congr 1
    funext s
    by_cases hi : stage = i <;> simp [hi, Located.stage, Located.amount]
  | fresh stage need =>
    rw [getElem?_commit_fresh, Option.map_map]
    congr 1
    funext s
    by_cases hi : stage = i <;> simp [hi, Located.stage, Located.amount]

theorem commit_placements (asc : OrdMap.Ascending p.placements.entries) (hp : p.Indexed)
    (h : p.locate o d deps requested = .ok located) :
    (p.commit o d deps located).placements =
      p.placements.insert o ⟨located.stage, located.footprint⟩ := by
  obtain ⟨need, _, ⟨placed, hplaced, _, rfl⟩ | ⟨_, _, stage, s, _, _, rfl⟩⟩ := locate_grants hp h
  · simp only [commit, record_placements, Located.stage, Located.footprint]
    split
    · rename_i hzero
      have hg : need - placed.footprint = {} := of_decide_eq_true hzero
      have hmax := Budget.add_sub_eq_max placed.footprint need
      rw [hg] at hmax
      rw [← hmax]
      change p.placements = ⟨OrdMap.insertEntry o placed p.placements.entries⟩
      rw [asc.insertEntry_self hplaced]
    · rfl
  · simp only [commit, record_placements, Located.stage, Located.footprint]

theorem get?_commit (hp : p.Indexed) (h : p.locate o d deps requested = .ok located)
    (x : SwitchObject) : (p.commit o d deps located).placements.get? x =
      if x = o then some ⟨located.stage, located.footprint⟩ else p.placements.get? x := by
  obtain ⟨need, _, ⟨placed, hplaced, _, rfl⟩ | ⟨_, _, stage, s, _, _, rfl⟩⟩ := locate_grants hp h
  · simp only [commit, record_placements, Located.stage, Located.footprint]
    split
    · rename_i hzero
      have hlacks : need - placed.footprint = {} := of_decide_eq_true hzero
      have hmax : max placed.footprint need = placed.footprint := by
        rw [← Budget.add_sub_eq_max, hlacks]
        rfl
      by_cases hx : x = o
      · rw [if_pos hx, hx, hplaced, hmax]
      · rw [if_neg hx]
    · exact OrdMap.get?_insert ..
  · simp only [commit, record_placements, Located.stage, Located.footprint]
    exact OrdMap.get?_insert ..

/-! ## What the objects of a stage hold -/

theorem occupied_of_perm {q : Pipeline} {e : SwitchObject × Placement}
    {rest : List (SwitchObject × Placement)} (h : q.placements.entries.Perm (e :: rest)) (i : Nat) :
    q.occupied i = (if e.2.stage = i then e.2.footprint else 0) +
      ((rest.filter fun e => e.2.stage = i).map fun e => e.2.footprint).sum := by
  unfold occupied
  rw [((h.filter _).map _).sum_eq, List.filter_cons]
  by_cases hi : e.2.stage = i
  · simp [hi]
  · simp [hi]

/-- The objects of the stage hold as much more as is taken out of it. -/
theorem occupied_commit (asc : OrdMap.Ascending p.placements.entries) (hp : p.Indexed)
    (h : p.locate o d deps requested = .ok located) (i : Nat) :
    (p.commit o d deps located).occupied i =
      p.occupied i + if located.stage = i then located.amount else 0 := by
  have hafter := commit_placements asc hp h
  obtain ⟨need, _, ⟨placed, hplaced, _, rfl⟩ | ⟨hnone, _, stage, s, _, _, rfl⟩⟩ :=
    locate_grants hp h
  · obtain ⟨rest, hold, hnew⟩ := asc.exists_perm_insertEntry hplaced
      ⟨placed.stage, max placed.footprint need⟩
    have hnew' : (p.commit o d deps (.held placed.stage (need - placed.footprint)
        (max placed.footprint need))).placements.entries.Perm
          ((o, ⟨placed.stage, max placed.footprint need⟩) :: rest) := by
      rw [hafter]
      exact hnew
    rw [occupied_of_perm hnew' i, occupied_of_perm hold i]
    by_cases hi : placed.stage = i
    · simp only [Located.stage, Located.amount, hi, if_true, ← Budget.add_sub_eq_max]
      rw [add_assoc, add_assoc, add_comm (need - placed.footprint)]
    · simp only [Located.stage, hi, if_false, zero_add, add_zero]
  · have hnew : (p.commit o d deps (.fresh stage need)).placements.entries.Perm
        ((o, ⟨stage, need⟩) :: p.placements.entries) := by
      rw [hafter]
      exact OrdMap.insertEntry_perm_of_none hnone
    rw [occupied_of_perm hnew i, add_comm]
    rfl

/-! ## The account after a further request -/

namespace Account
variable {a : Account} {q : Pipeline} {r : Request}

theorem demandsOn_accept (x : SwitchObject) :
    (a.accept q r).demandsOn x = a.demandsOn x ++ if r.object = x then [r.demand] else [] := by
  unfold demandsOn accept
  rw [List.filter_append, List.map_append]
  by_cases hx : r.object = x
  · simp [hx]
  · simp [hx]

theorem peak_accept_self {need : Budget} (h : r.demand.footprint? = some need) :
    (a.accept q r).peak r.object = max (a.peak r.object) need := by
  unfold peak
  rw [demandsOn_accept, if_pos rfl, List.filterMap_append, List.foldl_append]
  simp [h]

theorem peak_accept_of_ne {x : SwitchObject} (h : x ≠ r.object) :
    (a.accept q r).peak x = a.peak x := by
  unfold peak
  rw [demandsOn_accept, if_neg (Ne.symm h), List.append_nil]

theorem openedByDigest_accept {x : SwitchObject} (h : x = r.object → a.demandsOn x ≠ []) :
    (a.accept q r).openedByDigest x = a.openedByDigest x := by
  unfold openedByDigest
  rw [demandsOn_accept]
  by_cases hx : r.object = x
  · cases hd : a.demandsOn x with
    | nil => exact absurd hd (h hx.symm)
    | cons => rfl
  · rw [if_neg hx, List.append_nil]

theorem openedByDigest_accept_new (h : a.demandsOn r.object = []) :
    (a.accept q r).openedByDigest r.object = r.demand.isDigest := by
  unfold openedByDigest
  rw [demandsOn_accept, h, if_pos rfl]
  rfl

/-- Nothing is lost and nothing is counted twice. -/
structure Balanced (c : SwitchConfig) (a : Account) : Prop where
  ascending : OrdMap.Ascending a.pipeline.placements.entries
  length_stages : a.pipeline.stages.length = c.stages
  indexed : a.pipeline.Indexed
  conserved : ∀ i s, a.pipeline.stages[i]? = some s →
    s.remaining + a.pipeline.occupied i = (ofConfig c).capacity
  objects : ∀ i s, a.pipeline.stages[i]? = some s →
    ∀ o, o ∈ s.objects ↔ a.pipeline.stageOf? o = some i
  within : ∀ o i, a.pipeline.stageOf? o = some i → i < c.stages
  measured : ∀ r ∈ a.accepted, r.demand.footprint?.isSome
  demanded : ∀ o, a.demandsOn o = [] ↔ a.pipeline.placements.get? o = none
  peaks : ∀ o placed, a.pipeline.placements.get? o = some placed → placed.footprint = a.peak o
  digests : a.pipeline.digests + a.pipeline.placements.keys.countP a.openedByDigest = c.digestSlots

theorem balanced_empty (c : SwitchConfig) : Balanced c ⟨.ofConfig c, []⟩ where
  ascending := List.Pairwise.nil
  length_stages := by simp [ofConfig]
  indexed := (sound_ofConfig c).indexed
  conserved := by
    intro i s hs
    have hfull : s.remaining = (ofConfig c).capacity := by
      simp only [ofConfig, List.getElem?_map] at hs
      obtain ⟨j, _, rfl⟩ := Option.map_eq_some_iff.mp hs
      rfl
    rw [hfull]
    exact add_zero _
  objects := by
    intro i s hs o
    simp only [ofConfig, List.getElem?_map] at hs
    obtain ⟨j, _, rfl⟩ := Option.map_eq_some_iff.mp hs
    refine ⟨fun ho => absurd ho (OrdSet.not_mem_empty o), ?_⟩
    intro ho
    cases ho
  within := by
    intro o i ho
    cases ho
  measured := by
    intro r hr
    cases hr
  demanded := fun _ => ⟨fun _ => rfl, fun _ => rfl⟩
  peaks := by
    intro o placed ho
    cases ho
  digests := rfl

theorem Balanced.covers {c : SwitchConfig} (h : a.Balanced c)
    (hl : a.pipeline.locate o d deps requested = .ok located) :
    ∃ s, a.pipeline.stages[located.stage]? = some s ∧ s.remaining.covers located.amount = true := by
  obtain ⟨need, _, ⟨placed, hplaced, hcov, rfl⟩ | ⟨_, _, stage, s, hs, hcov, rfl⟩⟩ :=
    locate_grants h.indexed hl
  · have hstage : a.pipeline.stageOf? o = some placed.stage := by
      rw [stageOf?, hplaced]
      rfl
    have hlt : placed.stage < a.pipeline.stages.length := by
      rw [h.length_stages]
      exact h.within o placed.stage hstage
    have hs := List.getElem?_eq_getElem hlt
    rw [remainingAt_eq hs] at hcov
    exact ⟨_, hs, hcov⟩
  · exact ⟨s, hs, hcov⟩

theorem Balanced.debit_commit {c : SwitchConfig} (h : a.Balanced c)
    (hl : a.pipeline.locate o d deps requested = .ok located) :
    ∃ s t, a.pipeline.stages[located.stage]? = some s ∧
      (a.pipeline.commit o d deps located).stages[located.stage]? = some t ∧
      s.remaining.debit located.amount = .ok t.remaining := by
  obtain ⟨s, hs, hcov⟩ := h.covers hl
  have hremains := remaining_commit a.pipeline o d deps located located.stage
  rw [hs, Option.map_some, if_pos rfl] at hremains
  obtain ⟨t, ht, hremaining⟩ := Option.map_eq_some_iff.mp hremains
  refine ⟨s, t, hs, ht, ?_⟩
  rw [hremaining]
  exact if_pos hcov

theorem Balanced.slots_commit {c : SwitchConfig} (h : a.Balanced c)
    (hl : a.pipeline.locate o d deps requested = .ok located) :
    (a.pipeline.commit o d deps located).digests +
      (if d.isDigest && !a.pipeline.isPlaced o then 1 else 0) = a.pipeline.digests := by
  unfold isPlaced OrdMap.contains
  obtain ⟨_, _, ⟨placed, hplaced, _, rfl⟩ | ⟨hnone, hslots, stage, _, _, _, rfl⟩⟩ :=
    locate_grants h.indexed hl
  · rw [commit_held_digests, hplaced]
    simp
  · rw [commit_fresh_digests, hnone]
    by_cases hd : d.isDigest = true
    · have hpos := hslots hd
      simp only [hd, Option.isSome_none, Bool.not_false, Bool.and_self, if_true]
      omega
    · simp [hd]

theorem Balanced.conserved_commit {c : SwitchConfig} (h : a.Balanced c)
    (hl : a.pipeline.locate o d deps requested = .ok located) {i : Nat} {s : Stage}
    (hs : (a.pipeline.commit o d deps located).stages[i]? = some s) :
    s.remaining + (a.pipeline.commit o d deps located).occupied i = (ofConfig c).capacity := by
  have hremains := remaining_commit a.pipeline o d deps located i
  rw [hs, Option.map_some] at hremains
  obtain ⟨before, hbefore, hremaining⟩ := Option.map_eq_some_iff.mp hremains.symm
  have hsum := h.conserved i before hbefore
  rw [occupied_commit h.ascending h.indexed hl i, ← hremaining]
  by_cases hi : located.stage = i
  · obtain ⟨paying, hpaying, hcov⟩ := h.covers hl
    rw [hi, hbefore] at hpaying
    cases hpaying
    rw [if_pos hi, if_pos hi, add_comm (a.pipeline.occupied i), ← add_assoc,
      Budget.sub_add_cancel_of_covers hcov]
    exact hsum
  · rw [if_neg hi, if_neg hi, add_zero]
    exact hsum

theorem Balanced.objects_commit {c : SwitchConfig} (h : a.Balanced c)
    (hl : a.pipeline.locate o d deps requested = .ok located) {i : Nat} {s : Stage}
    (hs : (a.pipeline.commit o d deps located).stages[i]? = some s) (x : SwitchObject) :
    x ∈ s.objects ↔ (a.pipeline.commit o d deps located).stageOf? x = some i := by
  rw [stageOf?_commit h.indexed hl]
  obtain ⟨need, _, ⟨placed, hplaced, _, rfl⟩ | ⟨hnone, _, stage, _, _, _, rfl⟩⟩ :=
    locate_grants h.indexed hl
  · have hstage : a.pipeline.stageOf? o = some placed.stage := by
      rw [stageOf?, hplaced]
      rfl
    rw [getElem?_commit_held] at hs
    obtain ⟨before, hbefore, rfl⟩ := Option.map_eq_some_iff.mp hs
    have hkept : ∀ {y : SwitchObject}, y ∈ (if placed.stage = i then
        { before with remaining := before.remaining - (need - placed.footprint) }
          else before).objects ↔ y ∈ before.objects := by
      intro y
      split <;> exact Iff.rfl
    rw [hkept, h.objects i before hbefore]
    by_cases hx : x = o
    · rw [if_pos hx, hx, hstage, Located.stage]
    · rw [if_neg hx]
  · have hunplaced := stageOf?_eq_none.mpr hnone
    rw [getElem?_commit_fresh] at hs
    obtain ⟨before, hbefore, rfl⟩ := Option.map_eq_some_iff.mp hs
    have hold := h.objects i before hbefore x
    by_cases hi : stage = i
    · rw [if_pos hi, OrdSet.mem_insert, hold]
      by_cases hx : x = o
      · simp [hx, hi, Located.stage]
      · simp [hx]
    · rw [if_neg hi, hold]
      by_cases hx : x = o
      · simp [hx, hi, hunplaced, Located.stage]
      · simp [hx]

/-- One more object counts as opened by a digest just when a new object comes in as one. -/
theorem Balanced.countP_commit {c : SwitchConfig} (h : a.Balanced c) (r : Request)
    (hl : a.pipeline.locate r.object r.demand r.deps requested = .ok located) :
    (a.pipeline.commit r.object r.demand r.deps located).placements.keys.countP
        (a.accept q r).openedByDigest =
      a.pipeline.placements.keys.countP a.openedByDigest +
        if r.demand.isDigest && !a.pipeline.isPlaced r.object then 1 else 0 := by
  unfold isPlaced OrdMap.contains
  rw [commit_placements h.ascending h.indexed hl]
  obtain ⟨need, _, ⟨placed, hplaced, _, rfl⟩ | ⟨hnone, _, stage, _, _, _, rfl⟩⟩ :=
    locate_grants h.indexed hl
  · have hsame : (a.accept q r).openedByDigest = a.openedByDigest := by
      funext x
      apply openedByDigest_accept
      rintro rfl hnil
      rw [(h.demanded r.object).mp hnil] at hplaced
      cases hplaced
    obtain ⟨rest, hold, hnew⟩ := h.ascending.exists_perm_insertEntry hplaced
      ⟨placed.stage, max placed.footprint need⟩
    have hkeys : (a.pipeline.placements.insert r.object
        ⟨placed.stage, max placed.footprint need⟩).keys.Perm a.pipeline.placements.keys :=
      (hnew.map Prod.fst).trans (hold.map Prod.fst).symm
    rw [hsame, hplaced]
    simpa [Located.stage, Located.footprint] using hkeys.countP_eq a.openedByDigest
  · have hkeys : (a.pipeline.placements.insert r.object ⟨stage, need⟩).keys.Perm
        (r.object :: a.pipeline.placements.keys) :=
      (OrdMap.insertEntry_perm_of_none hnone).map Prod.fst
    have hothers : a.pipeline.placements.keys.countP (a.accept q r).openedByDigest =
        a.pipeline.placements.keys.countP a.openedByDigest := by
      apply List.countP_congr
      intro x hx
      rw [openedByDigest_accept]
      rintro rfl hnil
      obtain ⟨placed, hplaced⟩ := OrdMap.exists_get?_of_mem_keys hx
      rw [hnone] at hplaced
      cases hplaced
    have hself := openedByDigest_accept_new (q := q) ((h.demanded r.object).mpr hnone)
    have hcount := hkeys.countP_eq (a.accept q r).openedByDigest
    rw [List.countP_cons, hothers, hself] at hcount
    rw [hnone]
    simpa [Located.stage, Located.footprint] using hcount

theorem Balanced.peaks_commit {c : SwitchConfig} (h : a.Balanced c) (r : Request)
    (hl : a.pipeline.locate r.object r.demand r.deps requested = .ok located) {x : SwitchObject}
    {placed : Placement}
    (hx : (a.pipeline.commit r.object r.demand r.deps located).placements.get? x = some placed) :
    placed.footprint = (a.accept q r).peak x := by
  rw [commit_placements h.ascending h.indexed hl, OrdMap.get?_insert] at hx
  by_cases hr : x = r.object
  · rw [if_pos hr] at hx
    cases hx
    obtain ⟨need, hneed, ⟨old, hold, _, rfl⟩ | ⟨hnone, _, stage, _, _, _, rfl⟩⟩ :=
      locate_grants h.indexed hl
    · rw [hr, peak_accept_self hneed, ← h.peaks r.object old hold]
      rfl
    · have hnothing : a.peak r.object = {} := by
        unfold peak
        rw [(h.demanded r.object).mpr hnone]
        rfl
      rw [hr, peak_accept_self hneed, hnothing, Budget.zero_max]
      rfl
  · rw [if_neg hr] at hx
    rw [peak_accept_of_ne hr]
    exact h.peaks x placed hx

theorem Balanced.demanded_commit {c : SwitchConfig} (h : a.Balanced c) (r : Request)
    (hl : a.pipeline.locate r.object r.demand r.deps requested = .ok located) (x : SwitchObject) :
    (a.accept q r).demandsOn x = [] ↔
      (a.pipeline.commit r.object r.demand r.deps located).placements.get? x = none := by
  rw [commit_placements h.ascending h.indexed hl, OrdMap.get?_insert, demandsOn_accept]
  by_cases hx : x = r.object
  · simp [hx]
  · rw [if_neg hx, if_neg (Ne.symm hx), List.append_nil]
    exact h.demanded x

theorem Balanced.accept {c : SwitchConfig} (h : a.Balanced c) {stage : Nat}
    (accepted : a.pipeline.attempt r = .ok (stage, q)) : (a.accept q r).Balanced c := by
  rw [attempt_eq] at accepted
  obtain ⟨located, hl, _, rfl⟩ := placeWithin_eq_ok accepted
  obtain ⟨need, hneed, _⟩ := locate_grants h.indexed hl
  have hafter := commit_placements h.ascending h.indexed hl
  exact {
    ascending := by
      change OrdMap.Ascending (a.pipeline.commit _ _ _ located).placements.entries
      rw [hafter]
      exact h.ascending.insertEntry _ _
    length_stages := length_commit_stages.trans h.length_stages
    indexed := commit_indexed h.indexed
    conserved := fun _ _ hs => h.conserved_commit hl hs
    objects := fun _ _ hs => h.objects_commit hl hs
    within := by
      intro x i hx
      change (a.pipeline.commit _ _ _ located).stageOf? x = some i at hx
      rw [stageOf?_commit h.indexed hl] at hx
      split at hx
      · obtain ⟨s, hs, _⟩ := h.covers hl
        cases hx
        rw [← h.length_stages]
        exact (List.getElem?_eq_some_iff.mp hs).1
      · exact h.within x i hx
    measured := by
      intro x hx
      rcases List.mem_append.mp hx with hx | hx
      · exact h.measured x hx
      · cases List.mem_singleton.mp hx
        rw [hneed]
        rfl
    demanded := h.demanded_commit r hl
    peaks := fun _ _ => h.peaks_commit r hl
    digests := by
      have hslots := h.slots_commit hl
      have hcount := h.countP_commit (q := a.pipeline.commit r.object r.demand r.deps located) r hl
      have hbefore := h.digests
      change (a.pipeline.commit _ _ _ located).digests + _ = _
      change _ + (a.pipeline.commit _ _ _ located).placements.keys.countP _ = _
      omega }

theorem Balanced.serve {c : SwitchConfig} (h : a.Balanced c) (r : Request) :
    (a.serve r).Balanced c := by
  unfold Account.serve
  cases hr : a.pipeline.attempt r with
  | error refusal => exact h
  | ok result => exact h.accept hr

theorem after_induction {P : Account → Prop} {c : SwitchConfig} (start : P ⟨.ofConfig c, []⟩)
    (step : ∀ a r, P a → P (a.serve r)) (requests : List Request) : P (after c requests) :=
  List.foldlRecOn requests serve start fun a ha r _ => step a r ha

theorem balanced_after (c : SwitchConfig) (requests : List Request) :
    (after c requests).Balanced c :=
  after_induction (balanced_empty c) (fun _ r h => h.serve r) requests

end Account

end Pipeline

open Pipeline

/-- Whatever is requested, and whether it is accepted or refused, each stage has left of its
capacity just what its objects do not hold, and each slot for digests is free or taken by an object
that came in as a digest. An object holds the most that was accepted for it in each dimension. So a
further request that is granted never overdraws a stage. -/
theorem requests_conserve_resources (c : SwitchConfig) (requests : List Request) :
    let a := Account.after c requests
    let p := a.pipeline
    p.stages.length = c.stages ∧ p.placements.keys.Nodup ∧
      (∀ i s, p.stages[i]? = some s → s.index = i ∧
        s.remaining + p.occupied i = ⟨c.sramBitsPerStage, c.tcamBitsPerStage, c.xbarBitsPerStage,
          c.logicalIdsPerStage⟩ ∧
        ∀ o, o ∈ s.objects ↔ p.stageOf? o = some i) ∧
      (∀ o i, p.stageOf? o = some i → i < c.stages) ∧
      (∀ r ∈ a.accepted, r.demand.footprint?.isSome) ∧
      (∀ o placed, p.placements.get? o = some placed →
        a.demandsOn o ≠ [] ∧ placed.footprint = a.peak o) ∧
      p.digests + p.placements.keys.countP a.openedByDigest = c.digestSlots ∧
      ∀ (r : Request) located, p.locate r.object r.demand r.deps r.stage? = .ok located →
        let q := p.commit r.object r.demand r.deps located
        (∃ s t, p.stages[located.stage]? = some s ∧ q.stages[located.stage]? = some t ∧
          s.remaining.debit located.amount = .ok t.remaining) ∧
        q.digests + (if r.demand.isDigest && !p.isPlaced r.object then 1 else 0) = p.digests := by
  intro a p
  have h : a.Balanced c := Account.balanced_after c requests
  refine ⟨h.length_stages, h.ascending.nodup_keys, ?_, h.within, h.measured, ?_, h.digests, ?_⟩
  · intro i s hs
    exact ⟨h.indexed i s hs, h.conserved i s hs, h.objects i s hs⟩
  · intro o placed hplaced
    refine ⟨?_, h.peaks o placed hplaced⟩
    intro hnil
    rw [(h.demanded o).mp hnil] at hplaced
    cases hplaced
  · intro r located hl
    exact ⟨h.debit_commit hl, h.slots_commit hl⟩

/-- A register that grows by the crossbar of a table in the same place, a digest behind it, and a
request for the wrong stage, which is refused. -/
theorem grown_register_conserved :
    let register : SwitchObject := ⟨⟨1⟩, .register⟩
    let requests : List Request :=
      [{ object := register, demand := .register 8 5 },
        { object := register, demand := .table [16] 0 2 false },
        { object := ⟨⟨1⟩, .digest⟩, demand := .digest 9, deps := .ofList [register] },
        { object := register, demand := .register 8 5, stage? := some 1 }]
    ∃ a s, a = Account.after { stages := 2, sramBitsPerStage := 100, digestSlots := 1 } requests ∧
      a.accepted = requests.take 3 ∧ a.peak register = ⟨40, 0, 16, 1⟩ ∧ a.pipeline.digests = 0 ∧
      a.pipeline.stages[0]? = some s ∧ s.remaining = ⟨60, 540672, 1008, 15⟩ ∧
      s.remaining + a.pipeline.occupied 0 = ⟨100, 540672, 1024, 16⟩ := by
  intro register requests
  obtain ⟨_, _, hstages, _⟩ :=
    requests_conserve_resources { stages := 2, sramBitsPerStage := 100, digestSlots := 1 } requests
  refine ⟨_, ⟨0, ⟨60, 540672, 1008, 15⟩, .ofList [register]⟩, rfl, ?_, ?_, ?_, ?_, rfl, ?_⟩
  · decide +kernel
  · decide +kernel
  · decide +kernel
  · decide +kernel
  · exact (hstages 0 _ (by decide +kernel)).2.1

end PacketPlan
