import PacketPlan.Bindings
import PacketPlan.Proofs.Checked
import PacketPlan.Proofs.Ordered

/-! # Which bindings can be added

Bindings are added one after the other, each under those before it, while they are admitted by a
look at what is bound already. The two differ only where the new bindings contradict one another:
each of them may be allowed as things stand, and yet the second one fails once the first one is
made. Whatever can be added is bound afterwards beside all that was bound before, and nothing else
is.
-/
namespace PacketPlan
open Checked

instance : LawfulRanked Addr where
  rank_injective {a b} h := by
    rcases a with ⟨a⟩
    rcases b with ⟨b⟩
    simp only [Ranked.rank, List.cons.injEq, Int.natCast_inj, and_true] at h
    rw [h]

/-- No object is given two representations. -/
def Delta.Coherent (delta : Delta) : Prop :=
  ∀ e ∈ delta, ∀ e' ∈ delta, e.1 = e'.1 → e.2 = e'.2

instance (delta : Delta) : Decidable delta.Coherent :=
  inferInstanceAs (Decidable (∀ e ∈ delta, ∀ e' ∈ delta, e.1 = e'.1 → e.2 = e'.2))

theorem Delta.coherent_cons {e : Addr × Representation} {delta : Delta} :
    Coherent (e :: delta) ↔ (∀ e' ∈ delta, e'.1 = e.1 → e'.2 = e.2) ∧ Coherent delta := by
  constructor
  · intro h
    exact ⟨fun e' he' => h e' (by simp [he']) e (by simp),
      fun x hx y hy => h x (by simp [hx]) y (by simp [hy])⟩
  · rintro ⟨hfirst, hrest⟩ x hx y hy hxy
    rcases List.mem_cons.mp hx with hx | hx
    · rcases List.mem_cons.mp hy with hy | hy
      · rw [hx, hy]
      · rw [hx] at hxy ⊢
        exact (hfirst y hy hxy.symm).symm
    · rcases List.mem_cons.mp hy with hy | hy
      · rw [hy] at hxy ⊢
        exact hfirst x hx hxy
      · exact hrest x hx y hy hxy

theorem Delta.coherent_of_length_le_one {delta : Delta} (hone : delta.length ≤ 1) :
    delta.Coherent := by
  match delta with
  | [] => simp [Coherent]
  | [e] => simp [Coherent]
  | _ :: _ :: _ => simp at hone

namespace Bindings
variable {b b' : Bindings} {a x : Addr} {r s : Representation} {delta : Delta}

/-! ## One binding -/

theorem allows_iff : b.allows a r = true ↔ ∀ bound, b.get? a = some bound → bound = r := by
  cases h : b.get? a <;> simp [allows, h]

theorem holds_iff : b.holds a r = true ↔ b.get? a = some r := decide_eq_true_iff

theorem get?_bind (h : b.bind a r = .ok b') (x : Addr) :
    b'.get? x = if x = a then some r else b.get? x := by
  cases ha : b.get? a with
  | none =>
    simp only [bind, ha] at h
    cases h
    exact b.map.get?_insert a x r
  | some bound =>
    simp only [bind, ha] at h
    split at h
    · rename_i hsame
      cases h
      by_cases hx : x = a
      · simp [hx, ha, hsame]
      · simp [hx]
    · cases h

theorem bind_succeeds_iff : (b.bind a r).Succeeds ↔ b.allows a r = true := by
  cases ha : b.get? a with
  | none => simp [Succeeds, bind, allows, ha]
  | some bound =>
    by_cases hr : bound = r
    · simp [Succeeds, bind, allows, ha, hr]
    · simp [Succeeds, bind, allows, ha, hr]

/-- Once an object is bound, the same bindings are allowed as before, but none to another
representation of this object. -/
theorem allows_bind (h : b.bind a r = .ok b') :
    b'.allows x s = true ↔ b.allows x s = true ∧ (x = a → s = r) := by
  have hallowed : b.allows a r = true := bind_succeeds_iff.mp ⟨b', h⟩
  simp only [allows_iff, get?_bind h] at hallowed ⊢
  by_cases hx : x = a
  · subst hx
    simp only [if_true, Option.some.injEq, forall_eq', true_implies]
    constructor
    · rintro rfl
      exact ⟨hallowed, rfl⟩
    · exact fun ⟨_, hs⟩ => hs.symm
  · simp [hx]

/-! ## Several bindings -/

theorem admits_bind (h : b.bind a r = .ok b') :
    b'.admits delta = true ↔ b.admits delta = true ∧ ∀ e ∈ delta, e.1 = a → e.2 = r := by
  simp only [admits, List.all_eq_true, allows_bind h]
  exact ⟨fun hall => ⟨fun e he => (hall e he).1, fun e he => (hall e he).2⟩,
    fun ⟨hall, hagree⟩ e he => ⟨hall e he, hagree e he⟩⟩

/-- New bindings can be added if and only if each of them is allowed as things stand and no two of
them contradict each other. -/
theorem extend_succeeds_iff :
    (b.extend delta).Succeeds ↔ b.admits delta = true ∧ delta.Coherent := by
  induction delta generalizing b with
  | nil => simp [extend, admits, Delta.Coherent, succeeds_ok]
  | cons e delta ih =>
    have hadmits : b.admits (e :: delta) = true ↔
        b.allows e.1 e.2 = true ∧ b.admits delta = true := by simp [admits]
    rw [hadmits, Delta.coherent_cons]
    constructor
    · rintro ⟨b', h⟩
      obtain ⟨middle, hbind, h⟩ := bind_eq_ok.mp h
      obtain ⟨hmiddle, hrest⟩ := ih.mp ⟨b', h⟩
      obtain ⟨hall, hagree⟩ := (admits_bind hbind).mp hmiddle
      exact ⟨⟨bind_succeeds_iff.mp ⟨middle, hbind⟩, hall⟩, hagree, hrest⟩
    · rintro ⟨⟨hfirst, hall⟩, hagree, hrest⟩
      refine (bind_succeeds_iff.mpr hfirst).bind fun middle hbind => ?_
      exact ih.mpr ⟨(admits_bind hbind).mpr ⟨hall, hagree⟩, hrest⟩

theorem get?_extend (h : b.extend delta = .ok b') :
    b'.get? a = some r ↔ b.get? a = some r ∨ (a, r) ∈ delta := by
  induction delta generalizing b with
  | nil =>
    cases h
    simp
  | cons e delta ih =>
    obtain ⟨middle, hbind, h⟩ := bind_eq_ok.mp h
    have hallowed := allows_iff.mp (bind_succeeds_iff.mp ⟨middle, hbind⟩)
    rw [ih h, get?_bind hbind, List.mem_cons, ← or_assoc]
    refine or_congr_left ?_
    by_cases ha : a = e.1
    · subst ha
      rw [if_pos rfl, Prod.ext_iff]
      constructor
      · rintro ⟨⟩
        exact .inr ⟨rfl, rfl⟩
      · rintro (hbound | ⟨_, hr⟩)
        · rw [hallowed r hbound]
        · exact congrArg some hr.symm
    · simp [ha, Prod.ext_iff]

def Within (b b' : Bindings) : Prop := ∀ a r, b.get? a = some r → b'.get? a = some r

theorem Within.refl (b : Bindings) : b.Within b := fun _ _ h => h

theorem Within.trans {b'' : Bindings} (h : b.Within b') (h' : b'.Within b'') : b.Within b'' :=
  fun a r hr => h' a r (h a r hr)

theorem Within.holds (h : b.Within b') (hr : b.holds a r = true) : b'.holds a r = true :=
  holds_iff.mpr (h a r (holds_iff.mp hr))

theorem extend_within (h : b.extend delta = .ok b') :
    b.Within b' ∧ ∀ c ∈ delta, b'.holds c.1 c.2 = true :=
  ⟨fun _ _ hr => (get?_extend h).mpr (.inl hr),
    fun _ hc => holds_iff.mpr ((get?_extend h).mpr (.inr hc))⟩

/-! ## Bindings in order -/

theorem extend_ofList {xs : Delta} (h : extend ⟨.ofList xs⟩ delta = .ok b) :
    b = ⟨.ofList (xs ++ delta)⟩ := by
  induction delta generalizing xs with
  | nil =>
    cases h
    simp
  | cons e delta ih =>
    obtain ⟨middle, hbind, h⟩ := bind_eq_ok.mp h
    have hlist : OrdMap.ofList (xs ++ [e]) = (OrdMap.ofList xs).insert e.1 e.2 := by
      simp [OrdMap.ofList]
    have hmiddle : middle = ⟨.ofList (xs ++ [e])⟩ := by
      rw [hlist]
      unfold Bindings.bind at hbind
      split at hbind
      · exact (Except.ok.inj hbind).symm
      · rename_i bound hbound
        split at hbind
        · rename_i hsame
          subst hsame
          have hentries := (OrdMap.ascending_ofList xs).insertEntry_self hbound
          rw [← Except.ok.inj hbind, OrdMap.insert, hentries]
        · cases hbind
    rw [hmiddle] at h
    simpa using ih h

/-- In bindings that were made one by one, the entries are what is bound. -/
theorem mem_entries_iff (built : extend {} delta = .ok b) {e : Addr × Representation} :
    e ∈ b.entries ↔ b.get? e.1 = some e.2 := by
  have hstart : extend ⟨.ofList []⟩ delta = .ok b := built
  rw [extend_ofList hstart, List.nil_append]
  exact (OrdMap.ascending_ofList delta).findEntry_eq_some_iff.symm

theorem extend_append {commits : Delta} :
    b.extend (commits ++ delta) = (b.extend commits).bind fun middle => middle.extend delta := by
  induction commits generalizing b with
  | nil => rfl
  | cons e commits ih =>
    simp only [List.cons_append, extend, ih]
    cases b.bind e.1 e.2 <;> rfl

end Bindings

open Bindings

/-- Whatever was bound before, one after the other, new bindings can be added if and only if each of
them is allowed as things stand and no object is given two representations by them. Then exactly the
old bindings and the new ones are bound. -/
theorem extension_succeeds_iff_coherent (commits delta : Delta) {b : Bindings}
    (built : Bindings.extend {} commits = .ok b) :
    ((b.extend delta).Succeeds ↔ b.admits delta = true ∧ delta.Coherent) ∧
      ∀ b', b.extend delta = .ok b' →
        (∀ a r, b'.get? a = some r ↔ b.get? a = some r ∨ (a, r) ∈ delta) ∧
        ∀ e, e ∈ b'.entries ↔ e ∈ b.entries ∨ e ∈ delta := by
  refine ⟨extend_succeeds_iff, fun b' h => ⟨fun a r => get?_extend h, fun e => ?_⟩⟩
  have built' : Bindings.extend {} (commits ++ delta) = .ok b' := by
    rw [extend_append, built]
    exact h
  rw [mem_entries_iff built', mem_entries_iff built, get?_extend h]

/-- A map that is bound is bound again together with a chain, which is named twice; both are bound
then, each once. -/
theorem repeated_chain_is_added :
    let map : Addr × Representation := (⟨16⟩, .inMemoryMap)
    let chain : Addr × Representation := (⟨32⟩, .inMemoryDchain)
    ∃ b b', Bindings.extend {} [map] = .ok b ∧ b.admits [map, chain, chain] = true ∧
      Delta.Coherent [map, chain, chain] ∧ b.extend [map, chain, chain] = .ok b' ∧
      b'.entries = [map, chain] ∧
      ∀ e, e ∈ b'.entries ↔ e ∈ b.entries ∨ e ∈ [map, chain, chain] := by
  intro map chain
  obtain ⟨b, built, admitted⟩ : ∃ b, Bindings.extend {} [map] = .ok b ∧
      b.admits [map, chain, chain] = true := ⟨_, rfl, rfl⟩
  obtain ⟨hiff, hafter⟩ := extension_succeeds_iff_coherent [map] [map, chain, chain] built
  have coherent : Delta.Coherent [map, chain, chain] := by decide
  obtain ⟨b', extended⟩ := hiff.mpr ⟨admitted, coherent⟩
  refine ⟨b, b', built, admitted, coherent, extended, ?_, (hafter b' extended).2⟩
  cases built
  cases extended
  rfl

/-- Two representations for one object are both allowed as long as it has none, but they cannot both
be bound. -/
theorem contradiction_is_admitted :
    let delta : Delta := [(⟨1⟩, .exactMatchTable), (⟨1⟩, .inMemoryMap)]
    Bindings.admits {} delta = true ∧
      Bindings.extend {} delta = .error (.rebound ⟨1⟩ .exactMatchTable .inMemoryMap) :=
  ⟨rfl, rfl⟩

end PacketPlan
