import Mathlib.Algebra.Order.BigOperators.Group.List
import Mathlib.Algebra.Order.Ring.Nat
import PacketPlan.Proofs.Checked

/-! # Flat expressions and fresh symbols

Concatenations are nested as deep as one likes, and may be empty. Flattening lists what stands in
them from left to right and loses no width: an expression has one just when the widths that its
parts state, added up as numbers of any size, stay below the limit, although the sum is checked
part by part and level by level.

The name of a fresh symbol ends in a number. Whatever stands before its last underscore, the number
can be read off the name, so that no source hands out a name twice.
-/
namespace PacketPlan

namespace Expr

def isConcat : Expr → Bool
  | concat _ => true
  | _ => false

theorem induction {P : Expr → Prop} (single : ∀ e, e.isConcat = false → P e)
    (concat : ∀ ps, (∀ p ∈ ps, P p) → P (concat ps)) (e : Expr) : P e :=
  match e with
  | .const .. | .addr _ | .symbol _ | .term .. => single _ rfl
  | .concat ps => concat ps fun p _ => induction single concat p

/-! ## Parts -/

theorem parts_of_single {e : Expr} (h : e.isConcat = false) : e.parts = [e] := by
  cases e with
  | concat ps => cases h
  | const | addr | symbol | term => rfl

theorem parts_concat (ps : List Expr) : (concat ps).parts = ps.flatMap parts := by
  rw [parts]
  induction ps with
  | nil => rfl
  | cons p ps ih => rw [partsAll, List.flatMap_cons, ih]

theorem isConcat_of_mem_parts {e part : Expr} (h : part ∈ e.parts) : part.isConcat = false := by
  induction e using induction with
  | single e he =>
    rw [parts_of_single he, List.mem_singleton] at h
    rw [h]
    exact he
  | concat ps ih =>
    rw [parts_concat, List.mem_flatMap] at h
    obtain ⟨p, hp, h⟩ := h
    exact ih p hp h

/-! ## Positions -/

/-- What is met by going into the concatenations at these positions, one after the other. -/
def at? : Expr → List Nat → Option Expr
  | e, [] => some e
  | concat ps, i :: path => ps[i]?.bind fun p => p.at? path
  | _, _ :: _ => none

theorem at?_nil (e : Expr) : e.at? [] = some e := by rw [at?]

theorem at?_concat_cons (ps : List Expr) (i : Nat) (path : List Nat) :
    (concat ps).at? (i :: path) = ps[i]?.bind fun p => p.at? path := rfl

theorem at?_cons_of_single {e : Expr} (h : e.isConcat = false) (i : Nat) (path : List Nat) :
    e.at? (i :: path) = none := by
  cases e with
  | concat ps => cases h
  | const | addr | symbol | term => rfl

mutual

/-- The positions of all that is no concatenation. -/
def paths : Expr → List (List Nat)
  | concat ps => pathsFrom 0 ps
  | _ => [[]]

def pathsFrom (i : Nat) : List Expr → List (List Nat)
  | [] => []
  | p :: ps => p.paths.map (i :: ·) ++ pathsFrom (i + 1) ps

end

theorem paths_of_single {e : Expr} (h : e.isConcat = false) : e.paths = [[]] := by
  cases e with
  | concat ps => cases h
  | const | addr | symbol | term => rfl

theorem mem_pathsFrom {ps : List Expr} {i : Nat} {path : List Nat} : path ∈ pathsFrom i ps ↔
    ∃ j p rest, ps[j]? = some p ∧ rest ∈ p.paths ∧ path = (i + j) :: rest := by
  induction ps generalizing i with
  | nil => simp [pathsFrom]
  | cons p ps ih =>
    rw [pathsFrom, List.mem_append, List.mem_map, ih]
    constructor
    · rintro (⟨rest, hrest, rfl⟩ | ⟨j, q, rest, hq, hrest, rfl⟩)
      · exact ⟨0, p, rest, rfl, hrest, rfl⟩
      · exact ⟨j + 1, q, rest, hq, hrest, by rw [Nat.add_right_comm, Nat.add_assoc]⟩
    · rintro ⟨_ | j, q, rest, hq, hrest, rfl⟩
      · cases hq
        exact .inl ⟨rest, hrest, rfl⟩
      · exact .inr ⟨j, q, rest, hq, hrest, by rw [Nat.add_right_comm, Nat.add_assoc]⟩

theorem mem_paths {e : Expr} {path : List Nat} :
    path ∈ e.paths ↔ ∃ part, e.at? path = some part ∧ part.isConcat = false := by
  induction e using induction generalizing path with
  | single e he =>
    rw [paths_of_single he, List.mem_singleton]
    cases path with
    | nil => simp [at?_nil, he]
    | cons i path => simp [at?_cons_of_single he]
  | concat ps ih =>
    rw [paths, mem_pathsFrom]
    constructor
    · rintro ⟨i, p, rest, hp, hrest, rfl⟩
      obtain ⟨part, hpart, hsingle⟩ := (ih p (List.mem_of_getElem? hp)).mp hrest
      refine ⟨part, ?_, hsingle⟩
      rw [Nat.zero_add, at?_concat_cons, hp]
      exact hpart
    · rintro ⟨part, hpart, hsingle⟩
      cases path with
      | nil =>
        cases hpart
        cases hsingle
      | cons i path =>
        obtain ⟨p, hp, hpart⟩ := Option.bind_eq_some_iff.mp hpart
        refine ⟨i, p, path, hp, ?_, by rw [Nat.zero_add]⟩
        exact (ih p (List.mem_of_getElem? hp)).mpr ⟨part, hpart, hsingle⟩

theorem pathsFrom_pairwise {ps : List Expr} (h : ∀ p ∈ ps, p.paths.Pairwise (· < ·)) (i : Nat) :
    (pathsFrom i ps).Pairwise (· < ·) := by
  induction ps generalizing i with
  | nil =>
    rw [pathsFrom]
    exact .nil
  | cons p ps ih =>
    obtain ⟨hp, hps⟩ := List.forall_mem_cons.mp h
    rw [pathsFrom]
    refine List.pairwise_append.mpr ⟨?_, ih hps (i + 1), ?_⟩
    · refine List.pairwise_map.mpr (hp.imp fun hlt => ?_)
      exact List.cons_lt_cons_iff.mpr (.inr ⟨rfl, hlt⟩)
    · intro path hpath path' hpath'
      obtain ⟨rest, _, rfl⟩ := List.mem_map.mp hpath
      obtain ⟨j, q, rest', _, _, rfl⟩ := mem_pathsFrom.mp hpath'
      exact List.cons_lt_cons_iff.mpr (.inl (by omega))

theorem paths_pairwise (e : Expr) : e.paths.Pairwise (· < ·) := by
  induction e using induction with
  | single e he =>
    rw [paths_of_single he]
    exact List.pairwise_singleton _ _
  | concat ps ih =>
    rw [paths]
    exact pathsFrom_pairwise ih 0

theorem map_at?_pathsFrom {ps : List Expr} (h : ∀ p ∈ ps, p.paths.map p.at? = p.parts.map some)
    (before : List Expr) :
    (pathsFrom before.length ps).map (concat (before ++ ps)).at? =
      (ps.flatMap parts).map some := by
  induction ps generalizing before with
  | nil => rfl
  | cons p ps ih =>
    obtain ⟨hp, hps⟩ := List.forall_mem_cons.mp h
    have hhead : (fun path => (concat (before ++ p :: ps)).at? (before.length :: path)) = p.at? := by
      funext path
      rw [at?_concat_cons, List.getElem?_append_right (Nat.le_refl _), Nat.sub_self]
      rfl
    have htail := ih hps (before ++ [p])
    rw [List.length_append, List.length_singleton, List.append_assoc, List.singleton_append] at htail
    rw [pathsFrom, List.map_append, List.map_map, Function.comp_def, hhead, hp, htail,
      List.flatMap_cons, List.map_append]

/-- The parts are what is met at the positions. -/
theorem map_at?_paths (e : Expr) : e.paths.map e.at? = e.parts.map some := by
  induction e using induction with
  | single e he => rw [paths_of_single he, parts_of_single he, List.map_singleton, at?_nil,
      List.map_singleton]
  | concat ps ih =>
    rw [paths, parts_concat]
    exact map_at?_pathsFrom ih []

/-! ## Widths -/

/-- The width that an expression states itself; a concatenation states none. -/
def stated : Expr → Nat
  | const _ w => w
  | addr _ => 64
  | symbol s => s.width
  | concat _ => 0
  | term _ w => w

/-- The widths of the parts, added up as numbers of any size. -/
def extent (e : Expr) : Nat := (e.parts.map stated).sum

theorem extent_of_single {e : Expr} (h : e.isConcat = false) : e.extent = e.stated := by
  rw [extent, parts_of_single h, List.map_singleton, List.sum_singleton]

theorem extent_concat (ps : List Expr) : (concat ps).extent = (ps.map extent).sum := by
  rw [extent, parts_concat]
  induction ps with
  | nil => rfl
  | cons p ps ih =>
    rw [List.flatMap_cons, List.map_append, List.sum_append, ih, List.map_cons, List.sum_cons,
      extent]

theorem widthFrom?_eq {ps : List Expr}
    (h : ∀ p ∈ ps, p.width? = if p.extent < widthLimit then some p.extent else none) {left : Nat}
    (hleft : left < widthLimit) :
    widthFrom? left ps = if left + (ps.map extent).sum < widthLimit then
      some (left + (ps.map extent).sum) else none := by
  induction ps generalizing left with
  | nil => simp [widthFrom?, hleft]
  | cons p ps ih =>
    obtain ⟨hp, hps⟩ := List.forall_mem_cons.mp h
    rw [widthFrom?, hp, List.map_cons, List.sum_cons, ← Nat.add_assoc]
    by_cases hfits : left + p.extent < widthLimit
    · have hpart : p.extent < widthLimit := by omega
      simp only [if_pos hpart, if_pos hfits]
      exact ih hps hfits
    · -- Whatever comes after it, the sum is out of range already.
      have hsum : ¬left + p.extent + (ps.map extent).sum < widthLimit := by omega
      rw [if_neg hsum]
      by_cases hpart : p.extent < widthLimit
      · simp only [if_pos hpart, if_neg hfits]
      · simp only [if_neg hpart]

theorem width?_eq (e : Expr) :
    e.width? = if e.extent < widthLimit then some e.extent else none := by
  induction e using induction with
  | single e he =>
    rw [extent_of_single he]
    cases e with
    | concat ps => cases he
    | const | addr | symbol | term => rfl
  | concat ps ih =>
    have hsum := widthFrom?_eq ih (show 0 < widthLimit by decide)
    rw [Nat.zero_add] at hsum
    rw [width?, extent_concat, hsum]

theorem width_eq (e : Expr) :
    e.width = if e.extent < widthLimit then .ok e.extent else .error .addOverflow := by
  rw [width, width?_eq]
  split <;> rfl

theorem width_eq_ok_iff {e : Expr} {w : Nat} :
    e.width = .ok w ↔ (e.parts.map stated).sum = w ∧ w < 2 ^ 32 := by
  rw [width_eq, extent]
  split
  · rename_i hlt
    simp only [Except.ok.injEq]
    exact ⟨fun h => ⟨h, h ▸ hlt⟩, And.left⟩
  · rename_i hge
    simp only [reduceCtorEq, false_iff, not_and]
    rintro rfl
    exact hge

theorem width?_of_mem_parts {e part : Expr} (h : e.width? ≠ none) (hpart : part ∈ e.parts) :
    part.width? ≠ none := by
  have hextent : e.extent < widthLimit := by
    by_contra hwide
    exact h (by rw [width?_eq, if_neg hwide])
  have hstated : part.stated ≤ e.extent := List.le_sum_of_mem (List.mem_map_of_mem hpart)
  have hnarrow : part.extent < widthLimit := by
    rw [extent_of_single (isConcat_of_mem_parts hpart)]
    omega
  rw [width?_eq, if_pos hnarrow]
  exact Option.some_ne_none _

end Expr

/-! ## Names of symbols -/

theorem eq_of_append_mark {α : Type} {mark : α} {xs ys ds es : List α} (hds : mark ∉ ds)
    (hes : mark ∉ es) (h : xs ++ mark :: ds = ys ++ mark :: es) : ds = es := by
  rcases List.append_eq_append_iff.mp h with ⟨between, _, heq⟩ | ⟨between, _, heq⟩
  · cases between with
    | nil => exact (List.cons.inj heq).2
    | cons x between =>
      have hmem : mark ∈ between ++ mark :: es := by simp
      exact absurd ((List.cons.inj heq).2 ▸ hmem) hds
  · cases between with
    | nil => exact (List.cons.inj heq).2.symm
    | cons x between =>
      have hmem : mark ∈ between ++ mark :: ds := by simp
      exact absurd ((List.cons.inj heq).2 ▸ hmem) hes

namespace SymbolSource

/-- A base may contain underscores and digits, but no digits contain an underscore. -/
theorem number_of_name {base base' : String} {n m : Nat}
    (h : base ++ "_" ++ toString n = base' ++ "_" ++ toString m) : n = m := by
  have hchars := congrArg String.toList h
  simp only [String.toList_append, Nat.toString_eq_repr, Nat.toList_repr, List.append_assoc]
    at hchars
  have hdigits : Nat.toDigits 10 n = Nat.toDigits 10 m :=
    eq_of_append_mark Nat.underscore_not_in_toDigits Nat.underscore_not_in_toDigits hchars
  calc
    n = Nat.ofDigitChars 10 (Nat.toDigits 10 n) 0 := Nat.ofDigitChars_ten_toDigits.symm
    _ = Nat.ofDigitChars 10 (Nat.toDigits 10 m) 0 := by rw [hdigits]
    _ = m := Nat.ofDigitChars_ten_toDigits

/-- Symbols for several requests, each a base and a width, one after the other. -/
def freshAll (source : SymbolSource) : List (String × Nat) → List Symbol × SymbolSource
  | [] => ([], source)
  | (base, width) :: rest =>
    let (symbol, source) := source.fresh base width
    let (symbols, source) := source.freshAll rest
    (symbol :: symbols, source)

theorem minted_freshAll (source : SymbolSource) (requests : List (String × Nat)) :
    (source.freshAll requests).2.minted = source.minted + requests.length := by
  induction requests generalizing source with
  | nil => rfl
  | cons request rest ih =>
    simp only [freshAll, ih, fresh, List.length_cons]
    omega

theorem map_width_freshAll (source : SymbolSource) (requests : List (String × Nat)) :
    (source.freshAll requests).1.map Symbol.width = requests.map Prod.snd := by
  induction requests generalizing source with
  | nil => rfl
  | cons request rest ih => simp only [freshAll, fresh, List.map_cons, ih]

theorem name_of_mem_freshAll {source : SymbolSource} {requests : List (String × Nat)}
    {symbol : Symbol} (h : symbol ∈ (source.freshAll requests).1) :
    ∃ base n, source.minted ≤ n ∧ symbol.name = base ++ "_" ++ toString n := by
  induction requests generalizing source with
  | nil => cases h
  | cons request rest ih =>
    rcases List.mem_cons.mp h with rfl | h
    · exact ⟨request.1, source.minted, Nat.le_refl _, rfl⟩
    · obtain ⟨base, n, hn, hname⟩ := ih h
      exact ⟨base, n, Nat.le_of_succ_le hn, hname⟩

theorem nodup_freshAll (source : SymbolSource) (requests : List (String × Nat)) :
    ((source.freshAll requests).1.map Symbol.name).Nodup := by
  induction requests generalizing source with
  | nil => exact .nil
  | cons request rest ih =>
    refine List.nodup_cons.mpr ⟨?_, ih _⟩
    intro hmem
    obtain ⟨symbol, hsymbol, hname⟩ := List.mem_map.mp hmem
    obtain ⟨base, n, hn, hn'⟩ := name_of_mem_freshAll hsymbol
    have hnumber : n = source.minted := number_of_name (hn'.symm.trans hname)
    have hlater : source.minted + 1 ≤ n := hn
    omega

end SymbolSource

end PacketPlan
