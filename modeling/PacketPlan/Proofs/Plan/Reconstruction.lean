import PacketPlan.Proofs.Plan.Handling
import PacketPlan.Proofs.Proposal.Steady

/-! # Modules can be read off the final bindings

Each module of a plan was proposed under the bindings of its time. Bindings are only ever added, and
what the proposal committed is among them, so its technique proposes the module again, and no other,
under the bindings of every later plan.
-/
namespace PacketPlan

theorem Technique.reconstruct_eq {t : Technique} {g : Graph} {b : Bindings} {node : NodeId}
    {p : Proposal} {m : Module} (h : t.proposals g b node = .ok [p]) (hm : p.module? = some m)
    (hc : ∀ c ∈ p.commits, b.holds c.1 c.2 = true) : t.reconstruct g b node = .ok (some m) := by
  refine bind_eq_ok.mpr ⟨[p], h, ?_⟩
  have hheld : p.commits.all (fun c => b.holds c.1 c.2) = true := List.all_eq_true.mpr hc
  simp [hheld, hm]

/-- The technique of the module finds it at its node, under these bindings and all further ones. -/
def Module.Rebuilt (m : Module) (g : Graph) (b : Bindings) : Prop :=
  ∀ b', b.Within b' → (Technique.mk m.target m.kind).reconstruct g b' m.node = .ok (some m)

theorem Module.Rebuilt.mono {m : Module} {g : Graph} {b b' : Bindings} (h : m.Rebuilt g b)
    (hb : b.Within b') : m.Rebuilt g b' :=
  fun b'' hb' => h b'' (hb.trans hb')

namespace Plan
variable {problem : Problem} {plan after : Plan}

theorem Offer.rebuilt {leaf : Leaf} {rest : List Leaf} {t : Technique} {p : Proposal} {m : Module}
    {bindings : Bindings} (offer : Offer problem plan leaf rest t p) (hm : p.module? = some m)
    (bound : plan.bindings.extend p.commits = .ok bindings) : m.Rebuilt problem.graph bindings := by
  have hacts : p ≠ Technique.revisit leaf := by
    rintro rfl
    cases hm
  obtain ⟨ps, hps, hp⟩ := offer.proposed hacts
  obtain ⟨hasks, hagain⟩ := Technique.proposals_steady hps hp
  obtain ⟨htarget, hnode, hkind⟩ := hasks.module_eq hm
  obtain ⟨hwithin, hheld⟩ := Bindings.extend_within bound
  intro b' hb
  have hcommits : ∀ c ∈ p.commits, b'.holds c.1 c.2 = true := fun c hc => hb.holds (hheld c hc)
  rw [htarget, hkind, hnode]
  exact Technique.reconstruct_eq (hagain b' (hwithin.trans hb) hcommits) hm hcommits

def Remembered (g : Graph) (plan : Plan) : Prop :=
  ∀ i m, plan.module? i = some m → m.Rebuilt g plan.bindings

theorem Remembered.attached {g : Graph} (h : plan.Remembered g) {id : PlanId} {bindings : Bindings}
    {resources : Pipeline} {leaf : Leaf} {rest children : List Leaf} {m : Module}
    {minted : Option Symbol} (grown : plan.bindings.Within bindings) (new : m.Rebuilt g bindings) :
    (plan.attached id bindings resources leaf rest m children minted).Remembered g := by
  intro i found hfound
  rw [attached_bindings]
  rcases attached_module?_eq_some hfound with hold | ⟨_, rfl⟩
  · exact (h i found hold).mono grown
  · exact new

theorem Remembered.step (h : plan.Remembered problem.graph) (step : plan.Step problem after) :
    after.Remembered problem.graph := by
  cases step with
  | pass _ _ _ _ _ _ bound =>
    intro i m hm
    exact (h i m hm).mono (Bindings.extend_within bound).1
  | act offer _ acts _ _ _ bound =>
    exact h.attached (Bindings.extend_within bound).1 (offer.rebuilt acts bound)
  | handOver offer _ _ acts _ _ bound =>
    exact h.attached (Bindings.extend_within bound).1 (offer.rebuilt acts bound)
  | revisit => exact h

theorem Remembered.isReconstructible {g : Graph} (h : plan.Remembered g) :
    plan.isReconstructible g = .ok true := by
  have hall : ∀ ns : List PlanNode, (∀ n ∈ ns, n.module.Rebuilt g plan.bindings) →
      ns.allM (fun n => do
        let m ← (Technique.mk n.module.target n.module.kind).reconstruct g plan.bindings
          n.module.node
        (.ok (m = some n.module) : Checked Bool)) = .ok true := by
    intro ns
    induction ns with
    | nil => exact fun _ => rfl
    | cons n ns ih =>
      intro hns
      have hn := hns n List.mem_cons_self plan.bindings (.refl _)
      have hrest := ih fun n' hn' => hns n' (List.mem_cons_of_mem n hn')
      refine bind_eq_ok.mpr ⟨true, bind_eq_ok.mpr ⟨some n.module, hn, by simp⟩, hrest⟩
  apply hall
  intro n hn
  obtain ⟨i, hi⟩ := List.mem_iff_getElem?.mp hn
  exact h i n.module (congrArg (Option.map PlanNode.module) hi)

end Plan

theorem Derives.remembered {problem : Problem} {choices : List Choice} {plan : Plan}
    (h : Derives problem choices plan) : plan.Remembered problem.graph := by
  apply h.invariant
  · intro id i m hm
    simp [Plan.module?, Plan.node?, Plan.empty] at hm
  · exact fun hplan step => hplan.step step

/-- Every module of a derived plan, finished or not, is what its technique reads off the graph and
the plan's bindings at its node, and this stays so under all further bindings. -/
theorem derived_modules_are_reconstructed {problem : Problem} {choices : List Choice} {plan : Plan}
    (derived : Derives problem choices plan) :
    plan.isReconstructible problem.graph = .ok true ∧
      ∀ n ∈ plan.nodes, ∀ b, plan.bindings.Within b →
        (Technique.mk n.module.target n.module.kind).reconstruct problem.graph b n.module.node =
          .ok (some n.module) := by
  have hplan := derived.remembered
  refine ⟨hplan.isReconstructible, ?_⟩
  intro n hn b hb
  obtain ⟨i, hi⟩ := List.mem_iff_getElem?.mp hn
  exact hplan i n.module (congrArg (Option.map PlanNode.module) hi) b hb

/-- The controller prefers to keep a map in memory but has chosen the table; the vector that is
allocated below does not obscure that. -/
theorem second_choice_is_reconstructed :
    ∃ g problem plan, Graph.ofKinds [.terminal .drop,
        .call { function := "vector_allocate", args := .ofList [("obj", .addr ⟨2⟩)], next := some 0 },
        .call { function := "map_allocate", args := .ofList [("obj", .addr ⟨1⟩)], next := some 1 }] 2 =
          .ok g ∧
      Problem.ofConfig g {} = .ok problem ∧
      Derives problem [(⟨.controller, .allocate⟩, 0), (⟨.controller, .allocate⟩, 1),
        (⟨.switch, .sendToController⟩, 0)] plan ∧
      plan.bindings.entries = [(⟨1⟩, .exactMatchTable), (⟨2⟩, .inMemoryVector)] ∧
      plan.nodes.length = 3 ∧ plan.isReconstructible problem.graph = .ok true := by
  refine ⟨_, _, _, rfl, rfl, derives_of_replay rfl, rfl, rfl, ?_⟩
  exact (@derived_modules_are_reconstructed _ [(⟨.controller, .allocate⟩, 0),
    (⟨.controller, .allocate⟩, 1), (⟨.switch, .sendToController⟩, 0)] _ (derives_of_replay rfl)).1

end PacketPlan
