import PacketPlan.Proofs.Pipeline.Footprint
import PacketPlan.Proofs.Proposal.Total

/-! # Keys of tables

A lookup matches a table on the parts of its key and not on the key as a whole. Every part has a
width, even if the key itself is too wide to have one, so that a lookup can always be proposed. If
the key has a width, this is what the table takes of the crossbar.
-/
namespace PacketPlan
open Checked

def Expr.Narrow (e : Expr) : Prop := ∀ part ∈ e.parts, part.stated < widthLimit

instance : DecidablePred Expr.Narrow :=
  fun e => inferInstanceAs (Decidable (∀ part ∈ e.parts, part.stated < widthLimit))

namespace Pattern

theorem widths_eq {es : List Expr} (h : ∀ e ∈ es, e.width = .ok e.stated) :
    widths es = .ok (es.map Expr.stated) := by
  induction es with
  | nil => rfl
  | cons e es ih =>
    obtain ⟨he, hes⟩ := List.forall_mem_cons.mp h
    exact bind_eq_ok.mpr ⟨_, he, bind_eq_ok.mpr ⟨_, ih hes, rfl⟩⟩

/-- The parts have widths, even if there are so many that the expression has none. -/
theorem widths_parts {e : Expr} (narrow : e.Narrow) :
    widths e.parts = .ok (e.parts.map Expr.stated) := by
  apply widths_eq
  intro part hpart
  rw [Expr.width_eq, Expr.extent_of_single (Expr.isConcat_of_mem_parts hpart)]
  exact if_pos (narrow part hpart)

/-- A lookup that is proposed asks for a table that is matched on the parts of the key. It fails
only if the call has nothing to go on with. -/
theorem tableLookup_meets {s : Setting} {k : NodeKind}
    (narrow : ∀ call ∈ k.call?, ∀ key ∈ call.arg? Argument.key, key.Narrow) :
    (tableLookup s k).Meets
      (fun ps => ∀ p ∈ ps, ∃ call key table valueWidth capacity,
        k.callTo? .mapGet = some call ∧ call.arg? Argument.key = some key ∧
        p.placements = [(⟨table, .table⟩,
          .table (key.parts.map Expr.stated) valueWidth capacity false)])
      fun f => s.next = .error f := by
  have hnone : ∀ {P : Proposal → Prop}, ∀ p ∈ ([] : List Proposal), P p :=
    fun _ hp => absurd hp List.not_mem_nil
  apply given_meets hnone
  intro call hcall
  apply given_meets hnone
  rintro ⟨table, allocation⟩ _
  apply given_meets hnone
  intro key hkey
  have hnarrow := narrow call (NodeKind.call?_of_callTo? hcall) key hkey
  apply Meets.bind (meets_of_eq_ok (widths_parts hnarrow) rfl)
  rintro _ _ rfl
  apply given_meets hnone
  intro valueWidth _
  apply (meets_own_fault s.next).bind
  intro next _ _ p hp
  rw [List.mem_singleton.mp hp]
  exact ⟨call, key, table, valueWidth, allocation.constantOr Argument.capacity 0, hcall, hkey, rfl⟩

end Pattern

/-- Flattening takes an expression apart into what is no concatenation, as it is met from left to
right, and keeps its width: the expression has one just when those of its parts add up to less than
`2 ^ 32`, and it is this sum. So a lookup asks of the crossbar what the key is wide, if the key has
a width; and whether it has one or not, a lookup fails only if the call has nothing to go on
with. -/
theorem flattening_preserves_width :
    (∀ e : Expr, (∀ part ∈ e.parts, part.isConcat = false) ∧
      (∃ paths : List (List Nat), paths.Pairwise (· < ·) ∧
        (∀ path, path ∈ paths ↔ ∃ part, e.at? path = some part ∧ part.isConcat = false) ∧
        paths.map e.at? = e.parts.map some) ∧
      (∀ w, e.width = .ok w ↔ (e.parts.map Expr.stated).sum = w ∧ w < 2 ^ 32)) ∧
    ∀ (s : Setting) (k : NodeKind),
      (∀ call ∈ k.call?, ∀ key ∈ call.arg? Argument.key, key.Narrow) →
      (∀ f, Pattern.tableLookup s k = .error f → s.next = .error f) ∧
      ∀ ps, Pattern.tableLookup s k = .ok ps → ∀ p ∈ ps, ∃ call key table d,
        k.callTo? .mapGet = some call ∧ call.arg? Argument.key = some key ∧
        p.placements = [(⟨table, .table⟩, d)] ∧
        ∀ w, key.width = .ok w → d.amounts.xbar = w ∧
          ∀ need, d.footprint? = some need → need.xbar = w := by
  refine ⟨fun e => ⟨fun part => Expr.isConcat_of_mem_parts, ?_, fun w => Expr.width_eq_ok_iff⟩, ?_⟩
  · exact ⟨e.paths, e.paths_pairwise, fun path => Expr.mem_paths, e.map_at?_paths⟩
  · intro s k narrow
    have hmeets := Pattern.tableLookup_meets (s := s) narrow
    refine ⟨fun f hf => hmeets.fault hf, ?_⟩
    intro ps hps p hp
    obtain ⟨call, key, table, valueWidth, capacity, hcall, hkey, hplaced⟩ := hmeets.result hps p hp
    refine ⟨call, key, table, _, hcall, hkey, hplaced, ?_⟩
    intro w hw
    have hxbar := (Expr.width_eq_ok_iff.mp hw).1
    refine ⟨hxbar, ?_⟩
    intro need hneed
    rw [(Demand.eq_amounts_of_footprint? hneed).1]
    exact hxbar

/-- A key within a key, with an empty one beside it, and a last part of any width. -/
def nestedKey (last : Nat) : Expr :=
  .concat [.concat [.term "a" 32, .concat [], .term "b" 16], .term "c" last]

def nestedLookup (last : Nat) : NodeKind :=
  .call {
    function := "map_get"
    args := .ofList [("obj", .addr ⟨1⟩), ("key", nestedKey last)]
    next := some 0 }

def nestedCalls : List NodeKind :=
  [.terminal .drop, nestedLookup 8,
    .call { function := "map_allocate", args := .ofList [("obj", .addr ⟨1⟩)], next := some 1 }]

def nestedSetting (g : Graph) : Setting :=
  ⟨g, ⟨.ofList [(⟨1⟩, .exactMatchTable)]⟩, .switch, 1⟩

/-- The key of 56 bits takes 56 bits of the crossbar. One that is too wide by a single bit is looked
up all the same, although it has no width. -/
theorem nested_key_takes_its_width :
    ∃ g ps p table d, Graph.ofKinds nestedCalls 2 = .ok g ∧
      Pattern.tableLookup (nestedSetting g) (nestedLookup 8) = .ok ps ∧ p ∈ ps ∧
      p.placements = [(⟨table, .table⟩, d)] ∧ (nestedKey 8).width = .ok 56 ∧ d.amounts.xbar = 56 ∧
      (nestedKey 4294967248).width = .error .addOverflow ∧
      ∃ ps, Pattern.tableLookup (nestedSetting g) (nestedLookup 4294967248) = .ok ps := by
  obtain ⟨g, hg⟩ : ∃ g, Graph.ofKinds nestedCalls 2 = .ok g := ⟨_, rfl⟩
  obtain ⟨ps, hps, p, hp⟩ : ∃ ps, Pattern.tableLookup (nestedSetting g) (nestedLookup 8) = .ok ps ∧
      ∃ p, p ∈ ps := by
    cases hg
    exact ⟨_, rfl, _, List.mem_singleton.mpr rfl⟩
  obtain ⟨next, hnext⟩ : ∃ next, (nestedSetting g).next = .ok next := by
    cases hg
    exact ⟨_, rfl⟩
  have hlookup := flattening_preserves_width.2 (nestedSetting g)
  obtain ⟨call, key, table, d, hcall, hkey, hplaced, hxbar⟩ :=
    (hlookup (nestedLookup 8) (by decide)).2 ps hps p hp
  have hwidth : key.width = .ok 56 := by
    cases hcall
    cases hkey
    rfl
  refine ⟨g, ps, p, table, d, hg, hps, hp, hplaced, rfl, (hxbar 56 hwidth).1, rfl, ?_⟩
  cases hwide : Pattern.tableLookup (nestedSetting g) (nestedLookup 4294967248) with
  | ok ps => exact ⟨ps, rfl⟩
  | error f =>
    have hfault := (hlookup (nestedLookup 4294967248) (by decide)).1 f hwide
    rw [hnext] at hfault
    cases hfault

end PacketPlan
