import Mathlib.Logic.Relation
import PacketPlan.Proofs.Expr
import PacketPlan.Proofs.Plan.Anonymous
import PacketPlan.Proofs.Plan.Extension
import PacketPlan.Proofs.Plan.Verdict
import PacketPlan.Proofs.Search.Ancestry
import PacketPlan.Proofs.Search.Ranking

/-! # Symbols along a search

Every hand-over that a search tries takes a symbol, and no two of them take one of the same name,
whether they end up in one plan or in several. Plans that have a symbol in common therefore have it
from the one extension that minted it: both of them descend from the plan made there.
-/
namespace PacketPlan

structure Birth where
  parent : Plan
  made : Candidate
deriving DecidableEq, Inhabited

namespace Birth

/-- The symbols that are noted in the new plan at modules for which its parent has none. -/
def minted (b : Birth) : List (PlanNodeId × Symbol) :=
  b.made.plan.ledger.minted.entries.filter fun e => !b.parent.ledger.minted.contains e.1

def plans (root : Plan) (births : List Birth) : List Plan :=
  root :: births.map fun b => b.made.plan

/-- The second plan is the first one, or was made from it by some of the extensions. -/
def Descends (births : List Birth) : Plan → Plan → Prop :=
  Relation.ReflTransGen fun p q => ∃ b ∈ births, b.parent = p ∧ b.made.plan = q

/-- What an extension takes from a source of symbols, and notes. -/
inductive Mints (b : Birth) (source : SymbolSource) : SymbolSource → Prop
  | nothing (keeps : b.made.decision.kind ≠ .sendToController)
      (same : b.made.plan.ledger.minted = b.parent.ledger.minted) : Mints b source source
  | handOver (sends : b.made.decision.kind = .sendToController)
      (noted : b.made.plan.ledger.minted = b.parent.ledger.minted.insert b.parent.nodes.length
        (Technique.handOverSymbol source).1) :
      Mints b source (Technique.handOverSymbol source).2

inductive MintsAll : List Birth → SymbolSource → SymbolSource → Prop
  | nil {source : SymbolSource} : MintsAll [] source source
  | cons {b : Birth} {rest : List Birth} {source middle after : SymbolSource}
      (first : b.Mints source middle) (others : MintsAll rest middle after) :
      MintsAll (b :: rest) source after

theorem MintsAll.append {first others : List Birth} {source middle after : SymbolSource}
    (hfirst : MintsAll first source middle) (hothers : MintsAll others middle after) :
    MintsAll (first ++ others) source after := by
  induction hfirst with
  | nil => exact hothers
  | cons one _ ih => exact .cons one (ih hothers)

theorem MintsAll.exists_mints {births : List Birth} {source after : SymbolSource}
    (h : MintsAll births source after) {b : Birth} (hb : b ∈ births) :
    ∃ source after, b.Mints source after := by
  induction h with
  | nil => cases hb
  | cons first _ ih =>
    rcases List.mem_cons.mp hb with rfl | hb
    · exact ⟨_, _, first⟩
    · exact ih hb

/-! ## What is new in a plan -/

section mints
variable {b : Birth} {source after : SymbolSource}

theorem minted_eq_nil (same : b.made.plan.ledger.minted = b.parent.ledger.minted) :
    b.minted = [] := by
  rw [minted, same]
  exact OrdMap.filter_not_contains _

/-- The module is new, so that its symbol is the one that the parent does not have. -/
theorem minted_eq_singleton (sound : b.parent.MintsAtNodes) {symbol : Symbol}
    (noted : b.made.plan.ledger.minted =
      b.parent.ledger.minted.insert b.parent.nodes.length symbol) :
    b.minted = [(b.parent.nodes.length, symbol)] := by
  have hnone : b.parent.ledger.minted.get? b.parent.nodes.length = none := by
    cases hget : b.parent.ledger.minted.get? b.parent.nodes.length with
    | none => rfl
    | some _ => exact absurd (sound hget) (Nat.lt_irrefl _)
  have hperm := (OrdMap.insertEntry_perm_of_none (v := symbol) hnone).filter
    fun e => !b.parent.ledger.minted.contains e.1
  have hnew : b.parent.ledger.minted.contains b.parent.nodes.length = false := by
    rw [OrdMap.contains, hnone]
    rfl
  rw [List.filter_cons_of_pos (by simp [hnew]), OrdMap.filter_not_contains] at hperm
  rw [minted, noted]
  exact List.perm_singleton.mp hperm

theorem Mints.length_minted (h : b.Mints source after) (sound : b.parent.MintsAtNodes) :
    b.minted.length = if b.made.decision.kind = .sendToController then 1 else 0 := by
  cases h with
  | nothing keeps same => rw [minted_eq_nil same, if_neg keeps, List.length_nil]
  | handOver sends noted => rw [minted_eq_singleton sound noted, if_pos sends, List.length_singleton]

theorem Mints.minted_or_inherited (h : b.Mints source after) (sound : b.parent.MintsAtNodes)
    {i : PlanNodeId} {symbol : Symbol} (hi : b.made.plan.ledger.minted.get? i = some symbol) :
    (i, symbol) ∈ b.minted ∨ b.parent.ledger.minted.get? i = some symbol := by
  cases h with
  | nothing keeps same => exact .inr (same ▸ hi)
  | handOver sends noted =>
    rw [noted, OrdMap.get?_insert] at hi
    split at hi
    · rename_i hnew
      cases hi
      left
      rw [minted_eq_singleton sound noted, hnew]
      exact List.mem_singleton_self _
    · exact .inr hi

end mints

/-- Together, what the extensions mint is what a source hands out for so many requests. -/
theorem MintsAll.exists_freshAll {births : List Birth} {source after : SymbolSource}
    (h : MintsAll births source after) (sound : ∀ b ∈ births, b.parent.MintsAtNodes) :
    ∃ requests, source.freshAll requests = ((births.flatMap minted).map Prod.snd, after) := by
  induction h with
  | nil => exact ⟨[], rfl⟩
  | @cons b rest source middle after first _ ih =>
    obtain ⟨requests, hrequests⟩ := ih fun b hb => sound b (List.mem_cons_of_mem _ hb)
    have hparent : b.parent.MintsAtNodes := sound b List.mem_cons_self
    cases first with
    | nothing keeps same =>
      refine ⟨requests, ?_⟩
      rw [List.flatMap_cons, minted_eq_nil same]
      exact hrequests
    | handOver sends noted =>
      refine ⟨("cpu_code", 16) :: requests, ?_⟩
      rw [List.flatMap_cons, minted_eq_singleton hparent noted]
      simp only [Technique.handOverSymbol] at hrequests
      simp only [SymbolSource.freshAll, hrequests]
      rfl

theorem MintsAll.nodup_names {births : List Birth} {source after : SymbolSource}
    (h : MintsAll births source after) (sound : ∀ b ∈ births, b.parent.MintsAtNodes) :
    ((births.flatMap minted).map fun e => e.2.name).Nodup := by
  obtain ⟨requests, hrequests⟩ := h.exists_freshAll sound
  have hnodup := source.nodup_freshAll requests
  rw [hrequests, List.map_map] at hnodup
  exact hnodup

theorem eq_of_name_eq {births : List Birth}
    (distinct : ((births.flatMap minted).map fun e => e.2.name).Nodup) {b b' : Birth}
    (hb : b ∈ births) (hb' : b' ∈ births) {e e' : PlanNodeId × Symbol} (he : e ∈ b.minted)
    (he' : e' ∈ b'.minted) (hname : e.2.name = e'.2.name) : e = e' ∧ b = b' := by
  have hsame : e = e' := List.inj_on_of_nodup_map distinct (List.mem_flatMap_of_mem hb he)
    (List.mem_flatMap_of_mem hb' he') hname
  refine ⟨hsame, ?_⟩
  by_contra hne
  have hapart := (List.nodup_flatMap.mp (List.Nodup.of_map _ distinct)).2
  have symmetric : Std.Symm (Function.onFun List.Disjoint minted) := ⟨fun _ _ h => h.symm⟩
  exact hapart.forall hb hb' hne he (hsame ▸ he')

/-! ## Descent -/

theorem mem_plans_append {root : Plan} {births new : List Birth} {plan : Plan} :
    plan ∈ plans root (births ++ new) ↔ plan ∈ plans root births ∨ ∃ b ∈ new, b.made.plan = plan := by
  simp [plans, or_assoc]

theorem Descends.append {births new : List Birth} {p q : Plan} (h : Descends births p q) :
    Descends (births ++ new) p q := by
  refine Relation.ReflTransGen.mono ?_ p q h
  rintro p q ⟨b, hb, hstep⟩
  exact ⟨b, List.mem_append_left new hb, hstep⟩

theorem Descends.tail {births : List Birth} {p q : Plan} (h : Descends births p q) {b : Birth}
    (hb : b ∈ births) (hparent : b.parent = q) : Descends births p b.made.plan :=
  Relation.ReflTransGen.tail h ⟨b, hb, hparent, rfl⟩

end Birth

open Birth

/-! ## Expansions -/

def Proposal.handsOver (p : Proposal) : Bool := (p.module?.bind Module.handsOver?).isSome

namespace Technique
variable {problem : Problem} {t : Technique} {plan : Plan} {leaf : Leaf} {p : Proposal}

theorem handsOver_iff {ps : List Proposal} (hps : t.offers problem plan leaf = .ok ps)
    (hp : p ∈ ps) : p.handsOver = true ↔ t.kind = .sendToController := by
  constructor
  · intro hsome
    obtain ⟨target, hsome⟩ := Option.isSome_iff_exists.mp hsome
    obtain ⟨m, hm, htarget⟩ := Option.bind_eq_some_iff.mp hsome
    have hproposal : p ≠ revisit leaf := by
      rintro rfl
      cases hm
    obtain ⟨ps', hps', hp'⟩ := Plan.proposed_of_offers hps hp hproposal
    have hkind := ((proposals_steady hps' hp').1.module_eq hm).2.2
    rw [← hkind, Module.kind, (Module.handsOver?_eq_some_iff.mp htarget).1]
    rfl
  · intro hk
    rw [offers, if_neg (by simp [hk])] at hps
    rw [Proposal.handsOver, (proposal_of_sendToController hk hps hp).1]
    rfl

theorem grow_minted {child : Plan} {symbols after : SymbolSource}
    (h : grow plan leaf p symbols = .ok (child, after)) :
    if p.handsOver then
      child.ledger.minted = plan.ledger.minted.insert plan.nodes.length (handOverSymbol symbols).1 ∧
        after = (handOverSymbol symbols).2
    else child.ledger.minted = plan.ledger.minted ∧ after = symbols := by
  cases grows_of_grow h with
  | attach acts mints =>
    rw [Proposal.handsOver, acts, Option.bind_some]
    unfold mint at mints
    split at mints
    · rename_i hkeeps
      cases mints
      simp [hkeeps, Plan.grown_minted]
    · rename_i target htarget
      cases mints
      simp only [htarget, Option.isSome_some, if_true, Plan.recordSymbol, Ledger.recordSymbol,
        Plan.grown_minted]
      exact ⟨rfl, rfl⟩
  | revisit silent | skip silent =>
    rw [Proposal.handsOver, silent]
    exact ⟨rfl, rfl⟩

/-- A proposal that is refused takes a number, but no symbol. -/
theorem mints_of_realize {supply after : Supply} {made : Except Refusal Candidate}
    (sends : p.handsOver = true ↔ t.kind = .sendToController)
    (h : t.realize plan leaf p supply = .ok (made, after)) :
    MintsAll ((Expansion.cons {} made).candidates.map (Birth.mk plan)) supply.symbols
      after.symbols := by
  unfold realize at h
  obtain ⟨bindings, _, h⟩ := bind_eq_ok.mp h
  split at h
  · cases h
    exact .nil
  · obtain ⟨⟨child, symbols⟩, hgrow, h⟩ := bind_eq_ok.mp h
    cases h
    have hminted := grow_minted hgrow
    refine .cons ?_ .nil
    split at hminted
    · rename_i hsends
      rw [hminted.2]
      exact .handOver (sends.mp hsends) hminted.1
    · rename_i hkeeps
      rw [hminted.2]
      exact .nothing (fun hk => hkeeps (sends.mpr hk)) hminted.1

theorem mints_of_realizeAll {ps : List Proposal} {supply after : Supply} {e : Expansion}
    (sends : ∀ p ∈ ps, (p.handsOver = true ↔ t.kind = .sendToController))
    (h : t.realizeAll plan leaf ps supply = .ok (e, after)) :
    MintsAll (e.candidates.map (Birth.mk plan)) supply.symbols after.symbols := by
  induction ps generalizing supply after e with
  | nil =>
    cases h
    exact .nil
  | cons p ps ih =>
    obtain ⟨⟨made, middle⟩, hmade, h⟩ := bind_eq_ok.mp h
    obtain ⟨⟨others, last⟩, hothers, h⟩ := bind_eq_ok.mp h
    cases h
    have hone := mints_of_realize (sends p List.mem_cons_self) hmade
    have hrest := ih (fun p hp => sends p (List.mem_cons_of_mem _ hp)) hothers
    cases made with
    | error refusal => exact hone.append hrest
    | ok candidate => exact hone.append hrest

theorem mints_of_expand {supply after : Supply} {e : Expansion}
    (h : t.expand problem plan supply = .ok (e, after)) :
    MintsAll (e.candidates.map (Birth.mk plan)) supply.symbols after.symbols := by
  unfold expand at h
  split at h
  · cases h
    exact .nil
  · split at h
    · obtain ⟨ps, hps, h⟩ := bind_eq_ok.mp h
      exact mints_of_realizeAll (fun p hp => handsOver_iff hps (List.mem_filter.mp hp).1) h
    · cases h
      exact .nil

theorem mints_of_expandAll {ts : List Technique} {supply after : Supply} {e : Expansion}
    (h : expandAll problem plan ts supply = .ok (e, after)) :
    MintsAll (e.candidates.map (Birth.mk plan)) supply.symbols after.symbols := by
  induction ts generalizing supply after e with
  | nil =>
    cases h
    exact .nil
  | cons t ts ih =>
    obtain ⟨⟨first, middle⟩, hfirst, h⟩ := bind_eq_ok.mp h
    obtain ⟨⟨others, last⟩, hothers, h⟩ := bind_eq_ok.mp h
    cases h
    rw [List.map_append]
    exact (mints_of_expand hfirst).append (ih hothers)

end Technique

/-! ## Runs -/

namespace Search
variable {μ γ : Type} [Random.Source γ] {problem : Problem} {h : Heuristic μ} {number : PlanId}

/-- The plans that the next step makes, whether they are kept or not. -/
def births (s : Search μ γ) : Checked (List Birth) :=
  match s.unfinished.popBest s.problem.search.tieBreak s.generator with
  | none => .ok []
  | some (_, plan, _, _) => do
    let (e, _) ← Technique.expandAll s.problem plan s.problem.techniques s.supply
    .ok (e.candidates.map (Birth.mk plan))

/-- So many steps, with all plans that they make. -/
def chronicle (s : Search μ γ) : Nat → Checked (List Birth × Search μ γ)
  | 0 => .ok ([], s)
  | steps + 1 => do
    let (before, s) ← s.chronicle steps
    let new ← s.births
    let (_, s) ← s.step
    .ok (before ++ new, s)

structure Chronicled (problem : Problem) (h : Heuristic μ) (number : PlanId) (births : List Birth)
    (s : Search μ γ) : Prop where
  reached : Reached problem h number s
  sound : ∀ b ∈ births, b.parent.MintsAtNodes
  mints : MintsAll births {} s.supply.symbols
  known : ∀ {plan}, s.Holds plan → plan ∈ plans (.empty problem number) births
  traced : ∀ {plan i symbol}, plan ∈ plans (.empty problem number) births →
    plan.ledger.minted.get? i = some symbol →
    ∃ b ∈ births, (i, symbol) ∈ b.minted ∧ Descends births b.made.plan plan

theorem chronicled_of_start {s : Search μ γ} (hs : Search.start problem h number = .ok s) :
    Chronicled problem h number [] s where
  reached := .start hs
  sound b hb := absurd hb List.not_mem_nil
  mints := by
    obtain ⟨score, _, rfl⟩ := start_eq_ok hs
    exact .nil
  known := by
    obtain ⟨score, _, rfl⟩ := start_eq_ok hs
    rintro plan (hplan | hplan)
    · rwa [Frontier.toList_insert_empty] at hplan
    · cases hplan
  traced := by
    intro plan i symbol hplan hi
    cases List.mem_singleton.mp hplan
    cases hi

theorem Passage.births_eq {s s' took filled : Search μ γ} {plan : Plan} {leaf : Leaf}
    {score : Score} {e : Expansion} {filed : Filed} (hs : s.Regular problem h)
    (hp : Passage problem h s s' plan leaf score e took filled filed) :
    s.births = .ok (e.candidates.map (Birth.mk plan)) := by
  obtain ⟨left, generator, hpop⟩ := hp.popped
  rw [births, hs.problem_eq, hpop]
  simp only [hp.expanded]
  rfl

theorem Chronicled.passage {before : List Birth} {s s' took filled : Search μ γ} {plan : Plan}
    {leaf : Leaf} {score : Score} {e : Expansion} {filed : Filed} {outcome : StepOutcome}
    (hc : Chronicled problem h number before s) (stepped : s.step = .ok (outcome, s'))
    (hp : Passage problem h s s' plan leaf score e took filled filed) :
    Chronicled problem h number (before ++ e.candidates.map (Birth.mk plan)) s' := by
  have hplan : s.Holds plan := .inl (hp.taken.mem_iff.mpr List.mem_cons_self)
  obtain ⟨choices, derived⟩ := hc.reached.derives hplan
  have hmints := Technique.mints_of_expandAll hp.expanded
  have hparent : ∀ b ∈ e.candidates.map (Birth.mk plan), b.parent = plan := by
    intro b hb
    obtain ⟨c, _, rfl⟩ := List.mem_map.mp hb
    rfl
  refine ⟨.step hc.reached stepped, ?_, hp.supply_eq ▸ hc.mints.append hmints, ?_, ?_⟩
  · intro b hb
    rcases List.mem_append.mp hb with hb | hb
    · exact hc.sound b hb
    · rw [hparent b hb]
      exact derived.mintsAtNodes
  · intro other hother
    refine mem_plans_append.mpr ?_
    rcases hp.holds hother with ⟨c, hcandidate, rfl⟩ | hold
    · exact .inr ⟨⟨plan, c⟩, List.mem_map_of_mem hcandidate, rfl⟩
    · exact .inl (hc.known hold)
  · intro other i symbol hother hi
    rcases mem_plans_append.mp hother with hold | ⟨b, hb, rfl⟩
    · obtain ⟨b, hb, hminted, hdescends⟩ := hc.traced hold hi
      exact ⟨b, List.mem_append_left _ hb, hminted, hdescends.append⟩
    · have hsound : b.parent.MintsAtNodes := by
        rw [hparent b hb]
        exact derived.mintsAtNodes
      obtain ⟨_, _, hb'⟩ := hmints.exists_mints hb
      rcases hb'.minted_or_inherited hsound hi with hnew | hinherited
      · exact ⟨b, List.mem_append_right _ hb, hnew, .refl⟩
      · rw [hparent b hb] at hinherited
        obtain ⟨b', hmem, hminted, hdescends⟩ := hc.traced (hc.known hplan) hinherited
        exact ⟨b', List.mem_append_left _ hmem, hminted,
          hdescends.append.tail (List.mem_append_right _ hb) (hparent b hb)⟩

theorem Chronicled.step {before : List Birth} {s s' : Search μ γ} {outcome : StepOutcome}
    (hc : Chronicled problem h number before s) (stepped : s.step = .ok (outcome, s')) :
    ∃ new, s.births = .ok new ∧ Chronicled problem h number (before ++ new) s' := by
  rcases step_eq_ok stepped with ⟨hpop, _, rfl⟩ | hm
  · refine ⟨[], ?_, ?_⟩
    · rw [births, hpop]
    · rwa [List.append_nil]
  · have regular := hc.reached.balanced.1
    obtain ⟨plan, leaf, score, e, took, filled, filed, hp⟩ := hm.passage regular
    exact ⟨_, hp.births_eq regular, hc.passage stepped hp⟩

theorem chronicled_of_chronicle {first s : Search μ γ} {steps : Nat} {births : List Birth}
    (started : Search.start problem h number = .ok first)
    (hc : first.chronicle steps = .ok (births, s)) :
    Chronicled problem h number births s := by
  induction steps generalizing births s with
  | zero =>
    cases hc
    exact chronicled_of_start started
  | succ steps ih =>
    obtain ⟨⟨before, middle⟩, hbefore, hc⟩ := bind_eq_ok.mp hc
    obtain ⟨new, hnew, hc⟩ := bind_eq_ok.mp hc
    obtain ⟨⟨outcome, last⟩, stepped, hc⟩ := bind_eq_ok.mp hc
    cases hc
    obtain ⟨new', hnew', hlast⟩ := (ih hbefore).step stepped
    cases hnew.symm.trans hnew'
    exact hlast

theorem exists_chronicle_of_run {first : Search μ γ} {outcome : Outcome}
    (started : Search.start problem h number = .ok first) (hrun : first.run = .ok outcome) :
    ∃ steps births s, first.chronicle steps = .ok (births, s) ∧
      outcome.finished = s.finished.toList := by
  obtain ⟨exhausted, last, hends, rfl⟩ := run_eq_ok hrun
  have hkept := runWithin_induction
    (P := fun s => ∃ steps births, first.chronicle steps = .ok (births, s)) ?_ ⟨0, [], rfl⟩ hends
  · obtain ⟨⟨steps, births, hc⟩, _⟩ := hkept
    exact ⟨steps, births, last, hc, rfl⟩
  · rintro s s' outcome ⟨steps, before, hc⟩ _ stepped
    obtain ⟨new, hnew, _⟩ := (chronicled_of_chronicle started hc).step stepped
    refine ⟨steps + 1, before ++ new, ?_⟩
    exact bind_eq_ok.mpr ⟨_, hc, bind_eq_ok.mpr ⟨new, hnew, bind_eq_ok.mpr ⟨_, stepped, rfl⟩⟩⟩

end Search

/-- A source of symbols meets every request, counts it and hands out no name twice, whatever the
bases are. A search takes one symbol for every hand-over that it tries and none otherwise, and no
two of these have the same name. Where symbols of one name are noted in two plans of a run, or twice
in one plan, it is the same symbol at the same module and from the same extension: both plans
descend from what was made there. The finished plans of every run are among these. -/
theorem minted_names_are_unique :
    (∀ (source : SymbolSource) (requests : List (String × Nat)),
      ((source.freshAll requests).1.map Symbol.name).Nodup ∧
        (source.freshAll requests).1.map Symbol.width = requests.map Prod.snd ∧
        (source.freshAll requests).2.minted = source.minted + requests.length) ∧
    ∀ {μ γ : Type} [Random.Source γ] {problem : Problem} {h : Heuristic μ} {number : PlanId}
        {first : Search μ γ},
      Search.start problem h number = .ok first →
      (∀ {steps births s}, first.chronicle steps = .ok (births, s) →
        ((births.flatMap Birth.minted).map fun e => e.2.name).Nodup ∧
        (∀ b ∈ births, b.minted.length =
          if b.made.decision.kind = .sendToController then 1 else 0) ∧
        (∀ {plan}, s.Holds plan → plan ∈ Birth.plans (.empty problem number) births) ∧
        ∀ {p q i j x y}, p ∈ Birth.plans (.empty problem number) births →
          q ∈ Birth.plans (.empty problem number) births →
          p.ledger.minted.get? i = some x → q.ledger.minted.get? j = some y → x.name = y.name →
          i = j ∧ x = y ∧ ∃ b ∈ births, (i, x) ∈ b.minted ∧
            Birth.Descends births b.made.plan p ∧ Birth.Descends births b.made.plan q) ∧
      ∀ {outcome}, first.run = .ok outcome →
        ∃ steps births s, first.chronicle steps = .ok (births, s) ∧
          outcome.finished = s.finished.toList := by
  refine ⟨fun source requests => ⟨source.nodup_freshAll requests,
    source.map_width_freshAll requests, source.minted_freshAll requests⟩, ?_⟩
  intro μ γ _ problem h number first started
  refine ⟨?_, Search.exists_chronicle_of_run started⟩
  intro steps births s hc
  have chronicled := Search.chronicled_of_chronicle started hc
  have distinct := chronicled.mints.nodup_names chronicled.sound
  refine ⟨distinct, ?_, chronicled.known, ?_⟩
  · intro b hb
    obtain ⟨_, _, hmints⟩ := chronicled.mints.exists_mints hb
    exact hmints.length_minted (chronicled.sound b hb)
  · intro p q i j x y hp hq hx hy hname
    obtain ⟨b, hb, hminted, hdescends⟩ := chronicled.traced hp hx
    obtain ⟨b', hb', hminted', hdescends'⟩ := chronicled.traced hq hy
    obtain ⟨hentry, rfl⟩ := eq_of_name_eq distinct hb hb' hminted hminted' hname
    cases hentry
    exact ⟨rfl, rfl, b, hb, hminted, hdescends, hdescends'⟩

def timedSides : List NodeKind :=
  [.terminal .drop, .terminal (.forward 1), .call { function := "current_time", next := some 0 },
    .call { function := "current_time", next := some 1 }, .branch (.term "c" 1) 2 3]

/-- The whole is handed over, or one side, or both of them. Two of the plans have the hand-over of
the same side in common, and neither was made from the other. -/
theorem timed_sides_share_one_symbol :
    ∃ g problem births p q b, ∃ first s : Search Heuristic.Best, Graph.ofKinds timedSides 4 = .ok g ∧
      Problem.ofConfig g learning = .ok problem ∧
      Search.start problem .maxThroughput = .ok first ∧
      first.chronicle 13 = .ok (births, s) ∧
      (births.flatMap Birth.minted).map (fun e => e.2.name) =
        ["cpu_code_0", "cpu_code_1", "cpu_code_2", "cpu_code_3"] ∧
      ["cpu_code_0", "cpu_code_1", "cpu_code_2", "cpu_code_3"].Nodup ∧
      p ∈ s.finished.toList ∧ q ∈ s.finished.toList ∧
      p.ledger.minted.entries = [(1, ⟨"cpu_code_1", 16⟩)] ∧
      q.ledger.minted.entries = [(1, ⟨"cpu_code_1", 16⟩), (3, ⟨"cpu_code_3", 16⟩)] ∧
      b ∈ births ∧ b.made.decision.kind = .sendToController ∧
      Birth.Descends births b.made.plan p ∧ Birth.Descends births b.made.plan q := by
  obtain ⟨g, hg⟩ : ∃ g, Graph.ofKinds timedSides 4 = .ok g := ⟨_, rfl⟩
  obtain ⟨problem, posed⟩ : ∃ problem, Problem.ofConfig g learning = .ok problem := by
    cases hg
    exact ⟨_, rfl⟩
  obtain ⟨first, started⟩ : ∃ first : Search Heuristic.Best,
      Search.start problem .maxThroughput = .ok first := by
    cases hg
    cases posed
    exact ⟨_, rfl⟩
  have hruns : (first.chronicle 13).toOption.any (fun r =>
      ((r.1.flatMap Birth.minted).map fun e => e.2.name) =
        ["cpu_code_0", "cpu_code_1", "cpu_code_2", "cpu_code_3"] ∧
      (∃ p ∈ r.2.finished.toList, p.ledger.minted.entries = [(1, ⟨"cpu_code_1", 16⟩)]) ∧
      ∃ q ∈ r.2.finished.toList, q.ledger.minted.entries =
        [(1, ⟨"cpu_code_1", 16⟩), (3, ⟨"cpu_code_3", 16⟩)]) = true := by
    cases hg
    cases posed
    cases started
    decide +kernel
  rcases hc : first.chronicle 13 with _ | ⟨births, s⟩
  · simp [hc, Except.toOption] at hruns
  · rw [hc] at hruns
    obtain ⟨hnames, ⟨p, hp, hone⟩, q, hq, hboth⟩ := of_decide_eq_true hruns
    obtain ⟨hdistinct, hcounts, hknown, hshared⟩ :=
      (minted_names_are_unique.2 started).1 hc
    have hx : p.ledger.minted.get? 1 = some ⟨"cpu_code_1", 16⟩ := by
      rw [OrdMap.get?, hone]
      rfl
    have hy : q.ledger.minted.get? 1 = some ⟨"cpu_code_1", 16⟩ := by
      rw [OrdMap.get?, hboth]
      rfl
    obtain ⟨_, _, b, hb, hminted, hfirst, hsecond⟩ :=
      hshared (hknown (.inr hp)) (hknown (.inr hq)) hx hy rfl
    have hsends : b.made.decision.kind = .sendToController := by
      by_contra hkeeps
      have hnone := hcounts b hb
      rw [if_neg hkeeps] at hnone
      rw [List.eq_nil_of_length_eq_zero hnone] at hminted
      cases hminted
    exact ⟨g, problem, births, p, q, b, first, s, hg, posed, started, hc, hnames,
      hnames ▸ hdistinct, hp, hq, hone, hboth, hb, hsends, hfirst, hsecond⟩

end PacketPlan
