import Mathlib.Data.List.Forall2
import PacketPlan.Proofs.Plan.Step

/-! # Plans up to names

The numbers of plans and the names of minted symbols depend on what was made before, and on nothing
else. Expansion treats plans alike that differ in these only, so a derivation determines its plan up
to names.
-/
namespace PacketPlan

def OrdMap.mapValues {κ β γ : Type} (f : β → γ) (m : OrdMap κ β) : OrdMap κ γ :=
  ⟨m.entries.map fun e => (e.1, f e.2)⟩

theorem OrdMap.mapValues_insert {κ β γ : Type} [DecidableEq κ] [Ranked κ] (f : β → γ)
    (m : OrdMap κ β) (k : κ) (v : β) :
    (m.insert k v).mapValues f = (m.mapValues f).insert k (f v) := by
  rcases m with ⟨xs⟩
  simp only [mapValues, insert, mk.injEq]
  induction xs with
  | nil => rfl
  | cons e xs ih =>
    simp only [insertEntry, List.map_cons]
    split
    · rfl
    · split
      · rfl
      · rw [List.map_cons, ih]

def Symbol.anonymous (s : Symbol) : Symbol := { s with name := "" }

/-- The plan without its number and without the names of minted symbols. -/
def Plan.anonymous (plan : Plan) : Plan :=
  { plan with
    id := 0
    ledger := { plan.ledger with minted := plan.ledger.minted.mapValues Symbol.anonymous } }

def Plan.Alike (p q : Plan) : Prop := p.anonymous = q.anonymous

def Checked.Related {α β : Type} (r : α → β → Prop) (x : Checked α) (y : Checked β) : Prop :=
  match x, y with
  | .ok a, .ok b => r a b
  | .error _, .error _ => True
  | _, _ => False

namespace Checked
variable {α β α' β' : Type} {r : α → β → Prop} {r' : α' → β' → Prop}

theorem Related.bind {x : Checked α} {y : Checked β} (h : Related r x y) {f : α → Checked α'}
    {g : β → Checked β'} (hfg : ∀ a b, r a b → Related r' (f a) (g b)) :
    Related r' (x >>= f) (y >>= g) := by
  cases x with
  | error e =>
    cases y with
    | error e' => trivial
    | ok b => exact h.elim
  | ok a =>
    cases y with
    | error e' => exact h.elim
    | ok b => exact hfg a b h

theorem related_refl (x : Checked α) : Related (· = ·) x x := by
  cases x with
  | error e => trivial
  | ok a => exact (rfl : a = a)

theorem related_ite {c : Prop} [Decidable c] {x x' : Checked α} {y y' : Checked β}
    (hpos : c → Related r x y) (hneg : ¬c → Related r x' y') :
    Related r (if c then x else x') (if c then y else y') := by
  split
  · exact hpos ‹_›
  · exact hneg ‹_›

theorem Related.result {x : Checked α} {y : Checked β} (h : Related r x y) {a : α} {b : β}
    (hx : x = .ok a) (hy : y = .ok b) : r a b := by
  rw [hx, hy] at h
  exact h

end Checked

namespace Plan
open Checked

def rename (plan : Plan) (id : PlanId) (minted : OrdMap PlanNodeId Symbol) : Plan :=
  { plan with id, ledger := { plan.ledger with minted } }

theorem Alike.eq_rename {p q : Plan} (h : p.Alike q) :
    q = p.rename q.id q.ledger.minted ∧ p.ledger.minted.mapValues Symbol.anonymous =
      q.ledger.minted.mapValues Symbol.anonymous := by
  rcases p with ⟨id, nodes, root, leaves, bindings, resources, ⟨depth, processed, modules,
    recirculations, completed, minted⟩⟩
  rcases q with ⟨id', nodes', root', leaves', bindings', resources', ⟨depth', processed', modules',
    recirculations', completed', minted'⟩⟩
  simp only [Alike, anonymous, mk.injEq, Ledger.mk.injEq] at h
  obtain ⟨_, rfl, rfl, rfl, rfl, rfl, rfl, rfl, rfl, rfl, rfl, hminted⟩ := h
  exact ⟨rfl, hminted⟩

theorem alike_rename {p : Plan} {id : PlanId} {minted : OrdMap PlanNodeId Symbol}
    (h : p.ledger.minted.mapValues Symbol.anonymous = minted.mapValues Symbol.anonymous) :
    p.Alike (p.rename id minted) := by
  simp only [Alike, anonymous, rename, h]

theorem Alike.leaves_eq {p q : Plan} (h : p.Alike q) : q.leaves = p.leaves := by
  rw [h.eq_rename.1]
  rfl

theorem Alike.update {p q : Plan} (h : p.Alike q) (id id' : PlanId) (bindings : Bindings)
    (resources : Pipeline) :
    Alike { p with id, bindings, resources } { q with id := id', bindings, resources } := by
  obtain ⟨hq, hminted⟩ := h.eq_rename
  rw [hq]
  simp only [Alike, anonymous, rename, hminted]

theorem markProcessed_related (l : Ledger) (minted : OrdMap PlanNodeId Symbol) (site : Site)
    (how : Option PlanNodeId) :
    Related (fun a b => b = { a with minted } ∧ a.minted = l.minted) (l.markProcessed site how)
      ({ l with minted }.markProcessed site how) := by
  simp only [Ledger.markProcessed, Ledger.processed?]
  cases l.processed.get? site with
  | some previous => trivial
  | none => exact ⟨rfl, rfl⟩

theorem grown_rename (p : Plan) (id : PlanId) (minted minted' : OrdMap PlanNodeId Symbol)
    (ledger : Ledger) (leaf : Leaf) (rest children : List Leaf) (m : Module) :
    (p.rename id minted').grown leaf rest m children { ledger with minted } =
      (p.grown leaf rest m children ledger).rename id minted := by
  rcases leaf with ⟨attach, next, target, passDeps, recirculations, branchDepth⟩
  cases attach <;> cases children <;> rfl

theorem grown_minted (p : Plan) (ledger : Ledger) (leaf : Leaf) (rest children : List Leaf)
    (m : Module) : (p.grown leaf rest m children ledger).ledger.minted = ledger.minted := by
  cases children <;> rfl

theorem attach_related {p q : Plan} (h : p.Alike q) (m : Module) (children : List Leaf) :
    Related (fun r r' => r.1 = r'.1 ∧ r.2.Alike r'.2) (p.attach m children) (q.attach m children) := by
  obtain ⟨hq, hminted⟩ := h.eq_rename
  unfold attach
  rw [hq, show (p.rename q.id q.ledger.minted).leaves = p.leaves from rfl]
  cases p.leaves with
  | nil => trivial
  | cons leaf rest =>
    refine related_ite (fun _ => trivial) fun _ => related_ite (fun _ => trivial) fun _ => ?_
    apply (markProcessed_related p.ledger q.ledger.minted _ _).bind
    rintro l _ ⟨rfl, hl⟩
    refine ⟨rfl, ?_⟩
    rw [grown_rename]
    apply alike_rename
    rw [grown_minted, hl]
    exact hminted

theorem skip_related {p q : Plan} (h : p.Alike q) (children : List Leaf) :
    Related Alike (p.skip children) (q.skip children) := by
  obtain ⟨hq, hminted⟩ := h.eq_rename
  unfold skip
  rw [hq, show (p.rename q.id q.ledger.minted).leaves = p.leaves from rfl]
  cases p.leaves with
  | nil => trivial
  | cons leaf rest =>
    apply (markProcessed_related p.ledger q.ledger.minted _ _).bind
    rintro l _ ⟨rfl, hl⟩
    have hl' : l.minted.mapValues Symbol.anonymous =
        q.ledger.minted.mapValues Symbol.anonymous := hl ▸ hminted
    change Alike _ _
    simp only [Alike, anonymous, rename, hl']

theorem recirculate_related {p q : Plan} (h : p.Alike q) :
    Related Alike p.recirculate q.recirculate := by
  obtain ⟨hq, hminted⟩ := h.eq_rename
  unfold recirculate
  rw [hq, show (p.rename q.id q.ledger.minted).leaves = p.leaves from rfl]
  cases p.leaves with
  | nil => trivial
  | cons leaf rest =>
    apply (related_refl leaf.recirculated).bind
    rintro again _ rfl
    change Alike _ _
    simp only [Alike, anonymous, rename, Ledger.recordRecirculation, hminted]

theorem recordSymbol_alike {p q : Plan} (h : p.Alike q) (id : PlanNodeId) {s s' : Symbol}
    (hs : s.anonymous = s'.anonymous) : (p.recordSymbol id s).Alike (q.recordSymbol id s') := by
  obtain ⟨hq, hminted⟩ := h.eq_rename
  rw [hq]
  simp only [Alike, anonymous, rename, recordSymbol, Ledger.recordSymbol, OrdMap.mapValues_insert,
    hminted, hs]

end Plan

namespace Technique
open Checked

theorem mint_alike {p q : Plan} (h : p.Alike q) (id : PlanNodeId) (m : Module)
    (symbols symbols' : SymbolSource) : (mint p id m symbols).1.Alike (mint q id m symbols').1 := by
  unfold mint
  cases m.handsOver? with
  | none => exact h
  | some t => exact Plan.recordSymbol_alike h id rfl

theorem grow_related {p q : Plan} (h : p.Alike q) (leaf : Leaf) (proposal : Proposal)
    (symbols symbols' : SymbolSource) :
    Related (fun r r' => r.1.Alike r'.1) (grow p leaf proposal symbols)
      (grow q leaf proposal symbols') := by
  unfold grow
  dsimp only
  split
  · apply (Plan.attach_related h _ _).bind
    rintro ⟨id, a⟩ ⟨_, b⟩ ⟨rfl, hab⟩
    exact mint_alike hab id _ symbols symbols'
  · apply (Plan.recirculate_related h).bind
    intro a b hab
    exact hab
  · apply (Plan.skip_related h _).bind
    intro a b hab
    exact hab

def MadeAlike (a b : Except Refusal Candidate) : Prop :=
  match a, b with
  | .ok c, .ok d => c.plan.Alike d.plan
  | .error _, .error _ => True
  | _, _ => False

theorem realize_related (t : Technique) {p q : Plan} (h : p.Alike q) (leaf : Leaf)
    (proposal : Proposal) (supply supply' : Supply) :
    Related (fun r r' => MadeAlike r.1 r'.1) (t.realize p leaf proposal supply)
      (t.realize q leaf proposal supply') := by
  have hb : q.bindings = p.bindings := by rw [h.eq_rename.1]; rfl
  have hr : q.resources = p.resources := by rw [h.eq_rename.1]; rfl
  unfold realize
  simp only [Plan.fork, hb, hr]
  apply (related_refl _).bind
  rintro bindings _ rfl
  cases proposal.place leaf.passDeps p.resources with
  | error refusal => trivial
  | ok placed =>
    apply (grow_related (h.update _ _ bindings placed.2) leaf proposal _ _).bind
    intro a b hab
    exact hab

theorem realizeAll_related (t : Technique) {p q : Plan} (h : p.Alike q) (leaf : Leaf)
    (proposals : List Proposal) (supply supply' : Supply) :
    Related (fun r r' => List.Forall₂ (fun c d => c.plan.Alike d.plan) r.1.candidates r'.1.candidates)
      (t.realizeAll p leaf proposals supply) (t.realizeAll q leaf proposals supply') := by
  induction proposals generalizing supply supply' with
  | nil => exact .nil
  | cons proposal proposals ih =>
    apply (t.realize_related h leaf proposal supply supply').bind
    rintro ⟨made, middle⟩ ⟨made', middle'⟩ hmade
    apply (ih middle middle').bind
    rintro ⟨others, last⟩ ⟨others', last'⟩ hothers
    cases made with
    | error refusal =>
      cases made' with
      | error refusal' => exact hothers
      | ok c' => exact hmade.elim
    | ok c =>
      cases made' with
      | error refusal' => exact hmade.elim
      | ok c' => exact .cons hmade hothers

theorem anyBlocked_rename (problem : Problem) (p : Plan) (id : PlanId)
    (minted : OrdMap PlanNodeId Symbol) (leaf : Leaf) (ts : List Technique) :
    anyBlocked problem (p.rename id minted) leaf ts = anyBlocked problem p leaf ts := by
  induction ts with
  | nil => rfl
  | cons t ts ih =>
    simp only [anyBlocked, ih]
    rfl

theorem offers_alike (t : Technique) (problem : Problem) {p q : Plan} (h : p.Alike q)
    (leaf : Leaf) : t.offers problem q leaf = t.offers problem p leaf := by
  rw [h.eq_rename.1]
  simp only [offers, recirculation, anyBlocked_rename]
  rfl

theorem expand_related (t : Technique) (problem : Problem) {p q : Plan} (h : p.Alike q)
    (supply supply' : Supply) :
    Related (fun r r' => List.Forall₂ (fun c d => c.plan.Alike d.plan) r.1.candidates r'.1.candidates)
      (t.expand problem p supply) (t.expand problem q supply') := by
  have hb : q.bindings = p.bindings := by rw [h.eq_rename.1]; rfl
  unfold expand
  rw [Plan.activeLeaf?, Plan.activeLeaf?, h.leaves_eq]
  cases p.leaves.head? with
  | none => exact .nil
  | some leaf =>
    refine related_ite (fun _ => ?_) (fun _ => .nil)
    rw [t.offers_alike problem h leaf, hb]
    apply (related_refl _).bind
    rintro proposals _ rfl
    exact t.realizeAll_related h leaf _ supply supply'

/-! ## Settings of the search -/

theorem anyBlocked_search (problem : Problem) (search : SearchConfig) (p : Plan) (leaf : Leaf)
    (ts : List Technique) :
    anyBlocked { problem with search } p leaf ts = anyBlocked problem p leaf ts := by
  induction ts with
  | nil => rfl
  | cons t ts ih => simp only [anyBlocked, ih]

theorem expand_search (t : Technique) (problem : Problem) (search : SearchConfig) (p : Plan)
    (supply : Supply) : t.expand { problem with search } p supply = t.expand problem p supply := by
  simp only [expand, offers, recirculation, anyBlocked_search]
  rfl

end Technique

theorem Derives.of_search {problem : Problem} {choices : List Choice} {plan : Plan}
    (h : Derives problem choices plan) (search : SearchConfig) :
    Derives { problem with search } choices plan := by
  induction h with
  | root id => exact .root id
  | @expand choices plan t supply after e i c _ known expanded chosen ih =>
    have expanded' : t.expand { problem with search } plan supply = .ok (e, after) := by
      rw [t.expand_search]
      exact expanded
    exact .expand ih known expanded' chosen

theorem derives_search {problem : Problem} {search : SearchConfig} {choices : List Choice}
    {plan : Plan} : Derives { problem with search } choices plan ↔ Derives problem choices plan :=
  ⟨fun h => h.of_search problem.search, fun h => h.of_search search⟩

/-- A derivation determines its plan up to names. -/
theorem Derives.alike {problem : Problem} {choices : List Choice} {p q : Plan}
    (hp : Derives problem choices p) (hq : Derives problem choices q) : p.Alike q := by
  induction hp generalizing q with
  | root id =>
    cases hq
    rfl
  | @expand choices plan t supply after e i c _ _ expanded chosen ih =>
    cases hq with
    | @expand _ plan' _ supply' after' e' _ c' before' _ expanded' chosen' =>
      have hall := (t.expand_related problem (ih before') supply supply').result expanded expanded'
      obtain ⟨hi, rfl⟩ := List.getElem?_eq_some_iff.mp chosen
      obtain ⟨hi', rfl⟩ := List.getElem?_eq_some_iff.mp chosen'
      exact (List.forall₂_iff_get.mp hall).2 i hi hi'

end PacketPlan
