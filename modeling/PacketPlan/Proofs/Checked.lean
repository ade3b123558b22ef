import PacketPlan.Fault

/-! # Work that may fail

Inversion of sequenced work, and the things that matter about a piece of checked work: what its
results satisfy, that its faults are none of those by which a search condemns a plan or gives up,
that it succeeds, and where the faults come from that it may have.
-/
namespace PacketPlan

theorem bind_eq_ok {ε α β : Type} {first : Except ε α} {next : α → Except ε β} {b : β} :
    first >>= next = .ok b ↔ ∃ a, first = .ok a ∧ next a = .ok b := by
  rcases first with e | a
  · exact ⟨nofun, fun ⟨_, h, _⟩ => by cases h⟩
  · constructor
    · intro h
      exact ⟨a, rfl, h⟩
    · rintro ⟨a', ha, h⟩
      cases ha
      exact h

theorem bind_eq_error {ε α β : Type} {first : Except ε α} {next : α → Except ε β} {e : ε} :
    first >>= next = .error e ↔ first = .error e ∨ ∃ a, first = .ok a ∧ next a = .error e := by
  rcases first with e' | a
  · change Except.error e' = Except.error e ↔ _
    simp
  · change next a = .error e ↔ _
    simp

/-- Work that goes on in the same way after either of two beginnings. -/
theorem ite_bind_eq_ok {ε α β : Type} {c : Prop} [Decidable c] {x y : Except ε α}
    {next : α → Except ε β} {b : β} :
    (if c then x >>= next else y >>= next) = .ok b ↔
      ∃ a, (if c then x else y) = .ok a ∧ next a = .ok b := by
  split
  · exact bind_eq_ok
  · exact bind_eq_ok

/-- The two faults that only a search raises: a finished plan that is not lawful, and work
without end. -/
def Fault.ofSearch : Fault → Bool
  | invalidFinish .. | endless => true
  | _ => false

namespace Checked
variable {α β : Type} {P Q : α → Prop}

/-- Every result satisfies the predicate, and no fault is one of a search. -/
def Yields (x : Checked α) (P : α → Prop) : Prop :=
  match x with
  | .ok a => P a
  | .error f => f.ofSearch = false

@[simp] theorem yields_ok {a : α} : Yields (.ok a) P ↔ P a := Iff.rfl

@[simp] theorem yields_error {f : Fault} : Yields (.error f) P ↔ f.ofSearch = false := Iff.rfl

theorem Yields.result {x : Checked α} (h : x.Yields P) {a : α} (hx : x = .ok a) : P a := by
  rw [hx] at h
  exact h

theorem Yields.fault {x : Checked α} (h : x.Yields P) {f : Fault} (hx : x = .error f) :
    f.ofSearch = false := by
  rw [hx] at h
  exact h

theorem Yields.mono {x : Checked α} (h : x.Yields P) (hPQ : ∀ a, x = .ok a → P a → Q a) :
    x.Yields Q := by
  cases hx : x with
  | error f => exact h.fault hx
  | ok a => exact hPQ a hx (h.result hx)

theorem Yields.bind {x : Checked α} {f : α → Checked β} {R : β → Prop} (h : x.Yields P)
    (hf : ∀ a, x = .ok a → P a → (f a).Yields R) : (x >>= f).Yields R := by
  cases hx : x with
  | error e => exact h.fault hx
  | ok a => exact hf a hx (h.result hx)

theorem yields_elim {o : Option α} {f : Fault} (hf : f.ofSearch = false)
    (h : ∀ a, o = some a → P a) : Yields (o.elim (.error f) .ok) P := by
  cases ho : o with
  | none => exact hf
  | some a => exact h a ho

theorem yields_ite {c : Prop} [Decidable c] {x y : Checked α} (hx : c → x.Yields P)
    (hy : ¬c → y.Yields P) : Yields (if c then x else y) P := by
  split
  · exact hx ‹_›
  · exact hy ‹_›

def Succeeds (x : Checked α) : Prop := ∃ a, x = .ok a

theorem succeeds_ok (a : α) : Succeeds (.ok a) := ⟨a, rfl⟩

theorem Succeeds.bind {x : Checked α} {f : α → Checked β} (h : x.Succeeds)
    (hf : ∀ a, x = .ok a → (f a).Succeeds) : Succeeds (x >>= f) := by
  obtain ⟨a, ha⟩ := h
  obtain ⟨b, hb⟩ := hf a ha
  exact ⟨b, bind_eq_ok.mpr ⟨a, ha, hb⟩⟩

theorem succeeds_ite {c : Prop} [Decidable c] {x y : Checked α} (hx : c → x.Succeeds)
    (hy : ¬c → y.Succeeds) : Succeeds (if c then x else y) := by
  split
  · exact hx ‹_›
  · exact hy ‹_›

/-- Every result satisfies the predicate on results, every fault the one on faults. -/
def Meets (x : Checked α) (P : α → Prop) (F : Fault → Prop) : Prop :=
  match x with
  | .ok a => P a
  | .error f => F f

theorem Meets.result {x : Checked α} {F : Fault → Prop} (h : x.Meets P F) {a : α}
    (hx : x = .ok a) : P a := by
  rw [hx] at h
  exact h

theorem Meets.fault {x : Checked α} {F : Fault → Prop} (h : x.Meets P F) {f : Fault}
    (hx : x = .error f) : F f := by
  rw [hx] at h
  exact h

theorem Meets.bind {x : Checked α} {f : α → Checked β} {R : β → Prop} {F : Fault → Prop}
    (h : x.Meets P F) (hf : ∀ a, x = .ok a → P a → (f a).Meets R F) : Meets (x >>= f) R F := by
  cases hx : x with
  | error e => exact h.fault hx
  | ok a => exact hf a hx (h.result hx)

theorem Meets.faults {x : Checked α} {F G : Fault → Prop} (h : x.Meets P F)
    (hFG : ∀ f, F f → G f) : x.Meets P G := by
  cases hx : x with
  | error f => exact hFG f (h.fault hx)
  | ok a => exact h.result hx

theorem meets_of_eq_ok {x : Checked α} {a : α} {F : Fault → Prop} (hx : x = .ok a) (ha : P a) :
    x.Meets P F := by
  rw [hx]
  exact ha

theorem meets_ite {c : Prop} [Decidable c] {x y : Checked α} {F : Fault → Prop}
    (hx : c → x.Meets P F) (hy : ¬c → y.Meets P F) : Meets (if c then x else y) P F := by
  split
  · exact hx ‹_›
  · exact hy ‹_›

theorem Meets.cases {x : Checked α} {F : Fault → Prop} (h : x.Meets P F) :
    (∃ a, x = .ok a ∧ P a) ∨ ∃ f, x = .error f ∧ F f := by
  cases hx : x with
  | error f => exact .inr ⟨f, rfl, h.fault hx⟩
  | ok a => exact .inl ⟨a, rfl, h.result hx⟩

theorem meets_own_fault (x : Checked α) : x.Meets (fun _ => True) fun f => x = .error f := by
  cases hx : x with
  | error f => rfl
  | ok a => trivial

theorem add_yields (a b : Nat) : (Checked.add a b).Yields fun _ => True :=
  yields_elim rfl fun _ _ => trivial

theorem mul_yields (a b : Nat) : (Checked.mul a b).Yields fun _ => True :=
  yields_elim rfl fun _ _ => trivial

theorem eq_add_of_add {a b c : Nat} (h : Checked.add a b = .ok c) : c = a + b := by
  unfold Checked.add at h
  cases hadd : Word.add? a b with
  | none =>
    rw [hadd] at h
    cases h
  | some n =>
    rw [hadd] at h
    cases h
    exact (Word.check?_eq_some.mp hadd).1.symm

end Checked

theorem Expr.width_yields (e : Expr) : e.width.Yields fun _ => True :=
  Checked.yields_elim rfl fun _ _ => trivial

end PacketPlan
