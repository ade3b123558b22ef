import PacketPlan.Ordered

/-! # Ascending maps

Ranks are compared in a strict total order, so a map whose keys have different ranks stays
ascending, and has one entry for each key, whatever is inserted.
-/
namespace PacketPlan

theorem lexBefore_irrefl (a : List Int) : lexBefore a a = false := by
  induction a with
  | nil => rfl
  | cons x a ih => simp [lexBefore, ih]

theorem lexBefore_trans {a b c : List Int} (hab : lexBefore a b = true)
    (hbc : lexBefore b c = true) : lexBefore a c = true := by
  induction a generalizing b c with
  | nil =>
    cases c with
    | nil => cases b <;> simp [lexBefore] at hbc
    | cons z c => rfl
  | cons x a ih =>
    cases b with
    | nil => simp [lexBefore] at hab
    | cons y b =>
      cases c with
      | nil => simp [lexBefore] at hbc
      | cons z c =>
        simp only [lexBefore] at hab hbc ⊢
        split at hab
        · subst y
          split at hbc
          · rw [if_pos ‹_›]
            exact ih hab hbc
          · rw [if_neg ‹_›]
            exact hbc
        · rename_i hxy
          have hlt : x < y := of_decide_eq_true hab
          split at hbc
          · subst z
            rw [if_neg hxy]
            exact hab
          · have hlt' : y < z := of_decide_eq_true hbc
            have hxz : x < z := Int.lt_trans hlt hlt'
            rw [if_neg (Int.ne_of_lt hxz)]
            exact decide_eq_true hxz

theorem lexBefore_total {a b : List Int} (h : a ≠ b) :
    lexBefore a b = true ∨ lexBefore b a = true := by
  induction a generalizing b with
  | nil =>
    cases b with
    | nil => exact absurd rfl h
    | cons y b => exact Or.inl rfl
  | cons x a ih =>
    cases b with
    | nil => exact Or.inr rfl
    | cons y b =>
      simp only [lexBefore]
      by_cases hxy : x = y
      · subst hxy
        rw [if_pos rfl, if_pos rfl]
        exact ih fun he => h (he ▸ rfl)
      · rw [if_neg hxy, if_neg (Ne.symm hxy)]
        rcases Int.lt_or_gt_of_ne hxy with hlt | hgt
        · exact Or.inl (decide_eq_true hlt)
        · exact Or.inr (decide_eq_true hgt)

class LawfulRanked (κ : Type) [Ranked κ] : Prop where
  rank_injective {a b : κ} : Ranked.rank a = Ranked.rank b → a = b

namespace OrdMap
variable {κ β : Type} [DecidableEq κ] [Ranked κ]

omit [Ranked κ] in
theorem mem_of_findEntry {k : κ} {v : β} {xs : List (κ × β)} (h : findEntry k xs = some v) :
    (k, v) ∈ xs := by
  induction xs with
  | nil => cases h
  | cons e xs ih =>
    simp only [findEntry] at h
    split at h
    · rename_i hk
      cases h
      subst hk
      exact List.mem_cons_self
    · exact List.mem_cons_of_mem e (ih h)

theorem get?_foldl_insert {k : κ} {v : β} {m : OrdMap κ β} {xs : List (κ × β)}
    (h : (xs.foldl (fun m e => m.insert e.1 e.2) m).get? k = some v) :
    (k, v) ∈ xs ∨ m.get? k = some v := by
  induction xs generalizing m with
  | nil => exact .inr h
  | cons e xs ih =>
    rcases ih h with hmem | hget
    · exact .inl (List.mem_cons_of_mem e hmem)
    · rw [get?_insert] at hget
      split at hget
      · rename_i hk
        cases hget
        rw [hk]
        exact .inl List.mem_cons_self
      · exact .inr hget

theorem mem_of_get?_ofList {k : κ} {v : β} {xs : List (κ × β)}
    (h : (ofList xs).get? k = some v) : (k, v) ∈ xs := by
  rcases get?_foldl_insert h with hmem | hget
  · exact hmem
  · cases hget

omit [Ranked κ] in
theorem exists_get?_of_mem_keys {m : OrdMap κ β} {k : κ} (h : k ∈ m.keys) :
    ∃ v, m.get? k = some v := by
  obtain ⟨⟨k', v⟩, he, rfl⟩ := List.mem_map.mp h
  unfold get?
  generalize m.entries = xs at he
  induction xs with
  | nil => simp at he
  | cons e xs ih =>
    simp only [findEntry]
    split
    · exact ⟨_, rfl⟩
    · rename_i hk
      rcases List.mem_cons.mp he with rfl | he
      · exact absurd rfl hk
      · exact ih he

omit [Ranked κ] in
theorem mem_keys_iff {m : OrdMap κ β} {k : κ} : k ∈ m.keys ↔ m.contains k = true := by
  constructor
  · intro h
    obtain ⟨v, hv⟩ := exists_get?_of_mem_keys h
    rw [contains, hv]
    rfl
  · intro h
    obtain ⟨v, hv⟩ := Option.isSome_iff_exists.mp h
    exact List.mem_map_of_mem (mem_of_findEntry hv)

omit [Ranked κ] in
theorem filter_not_contains (m : OrdMap κ β) :
    (m.entries.filter fun e => !m.contains e.1) = [] := by
  refine List.filter_eq_nil_iff.mpr ?_
  intro e he
  have hkey : m.contains e.1 = true := mem_keys_iff.mp (List.mem_map_of_mem he)
  simp [hkey]

def Ascending (xs : List (κ × β)) : Prop := xs.Pairwise fun x y => Ranked.before x.1 y.1 = true

omit [DecidableEq κ] in
theorem ne_of_before {a b : κ} (h : Ranked.before a b = true) : a ≠ b := by
  rintro rfl
  rw [Ranked.before, lexBefore_irrefl] at h
  cases h

omit [DecidableEq κ] in
theorem before_asymm {a b : κ} (h : Ranked.before a b = true) : Ranked.before b a = false := by
  cases hafter : Ranked.before b a with
  | false => rfl
  | true => exact absurd rfl (ne_of_before (lexBefore_trans h hafter))

theorem mem_insertEntry {k : κ} {v : β} {e : κ × β} {xs : List (κ × β)}
    (h : e ∈ insertEntry k v xs) : e = (k, v) ∨ e ∈ xs := by
  induction xs with
  | nil => exact Or.inl (List.mem_singleton.mp h)
  | cons x xs ih =>
    simp only [insertEntry] at h
    split at h
    · rcases List.mem_cons.mp h with rfl | h
      · exact Or.inl rfl
      · exact Or.inr (List.mem_cons_of_mem x h)
    · split at h
      · rcases List.mem_cons.mp h with rfl | h
        · exact Or.inl rfl
        · exact Or.inr h
      · rcases List.mem_cons.mp h with rfl | h
        · exact Or.inr List.mem_cons_self
        · rcases ih h with h | h
          · exact Or.inl h
          · exact Or.inr (List.mem_cons_of_mem x h)

theorem Ascending.insertEntry [LawfulRanked κ] {xs : List (κ × β)} (h : Ascending xs) (k : κ)
    (v : β) : Ascending (insertEntry k v xs) := by
  induction xs with
  | nil => exact List.pairwise_singleton _ _
  | cons x xs ih =>
    obtain ⟨hx, hxs⟩ := List.pairwise_cons.mp h
    simp only [OrdMap.insertEntry]
    split
    · rename_i hk
      subst hk
      exact List.pairwise_cons.mpr ⟨hx, hxs⟩
    · rename_i hne
      split
      · rename_i hbefore
        refine List.pairwise_cons.mpr ⟨?_, h⟩
        intro y hy
        rcases List.mem_cons.mp hy with rfl | hy
        · exact hbefore
        · exact lexBefore_trans hbefore (hx y hy)
      · rename_i hbefore
        refine List.pairwise_cons.mpr ⟨?_, ih hxs⟩
        intro y hy
        rcases mem_insertEntry hy with rfl | hy
        · have hrank : Ranked.rank k ≠ Ranked.rank x.1 :=
            fun he => hne (LawfulRanked.rank_injective he)
          exact (lexBefore_total hrank).resolve_left hbefore
        · exact hx y hy

theorem findEntry_of_before {k : κ} {xs : List (κ × β)}
    (h : ∀ e ∈ xs, Ranked.before k e.1 = true) : findEntry k xs = none := by
  cases hf : findEntry k xs with
  | none => rfl
  | some v => exact absurd rfl (ne_of_before (h (k, v) (mem_of_findEntry hf)))

omit [DecidableEq κ] in
theorem Ascending.nodup_keys {xs : List (κ × β)} (h : Ascending xs) :
    (xs.map Prod.fst).Nodup := by
  rw [List.Nodup, List.pairwise_map]
  exact h.imp fun hb => ne_of_before hb

theorem Ascending.findEntry_eq_some_iff {xs : List (κ × β)} (h : Ascending xs) {k : κ} {v : β} :
    findEntry k xs = some v ↔ (k, v) ∈ xs := by
  refine ⟨mem_of_findEntry, ?_⟩
  intro hmem
  induction xs with
  | nil => cases hmem
  | cons x xs ih =>
    obtain ⟨hx, hxs⟩ := List.pairwise_cons.mp h
    simp only [findEntry]
    rcases List.mem_cons.mp hmem with rfl | hmem
    · exact if_pos rfl
    · have hne : k ≠ x.1 := (ne_of_before (hx (k, v) hmem)).symm
      rw [if_neg hne]
      exact ih hxs hmem

theorem insertEntry_perm_of_none {k : κ} {v : β} {xs : List (κ × β)}
    (h : findEntry k xs = none) : (insertEntry k v xs).Perm ((k, v) :: xs) := by
  induction xs with
  | nil => exact .refl _
  | cons x xs ih =>
    simp only [findEntry] at h
    split at h
    · cases h
    · rename_i hne
      simp only [insertEntry, if_neg hne]
      split
      · exact .refl _
      · exact ((ih h).cons x).trans (.swap ..)

/-- In an ascending map, a key that has an entry is found before a greater one is met. -/
theorem Ascending.insertEntry_cons {x : κ × β} {xs : List (κ × β)} (h : Ascending (x :: xs))
    {k : κ} {w : β} (hne : k ≠ x.1) (hw : findEntry k xs = some w) (v : β) :
    OrdMap.insertEntry k v (x :: xs) = x :: OrdMap.insertEntry k v xs := by
  obtain ⟨hx, _⟩ := List.pairwise_cons.mp h
  have hbefore : ¬Ranked.before k x.1 = true := by
    intro hb
    have hnone := findEntry_of_before fun e he => lexBefore_trans hb (hx e he)
    rw [hw] at hnone
    cases hnone
  simp only [OrdMap.insertEntry, if_neg hne, if_neg hbefore]

/-- A key that is there has its new entry in place of the old one. -/
theorem Ascending.exists_perm_insertEntry {xs : List (κ × β)} (h : Ascending xs) {k : κ} {w : β}
    (hw : findEntry k xs = some w) (v : β) :
    ∃ rest, xs.Perm ((k, w) :: rest) ∧ (OrdMap.insertEntry k v xs).Perm ((k, v) :: rest) := by
  induction xs with
  | nil => cases hw
  | cons x xs ih =>
    rcases x with ⟨k', v'⟩
    by_cases hk : k = k'
    · subst hk
      simp only [findEntry, if_true] at hw
      cases hw
      refine ⟨xs, .refl _, ?_⟩
      simp only [OrdMap.insertEntry, if_true]
      exact .refl _
    · simp only [findEntry, if_neg hk] at hw
      obtain ⟨rest, hold, hnew⟩ := ih (List.pairwise_cons.mp h).2 hw
      refine ⟨(k', v') :: rest, (hold.cons _).trans (.swap ..), ?_⟩
      rw [h.insertEntry_cons hk hw]
      exact (hnew.cons _).trans (.swap ..)

theorem Ascending.insertEntry_self {xs : List (κ × β)} (h : Ascending xs) {k : κ} {v : β}
    (hv : findEntry k xs = some v) : OrdMap.insertEntry k v xs = xs := by
  induction xs with
  | nil => cases hv
  | cons x xs ih =>
    rcases x with ⟨k', v'⟩
    by_cases hk : k = k'
    · subst hk
      simp only [findEntry, if_true] at hv
      cases hv
      simp only [OrdMap.insertEntry, if_true]
    · simp only [findEntry, if_neg hk] at hv
      rw [h.insertEntry_cons hk hv, ih (List.pairwise_cons.mp h).2 hv]

theorem ascending_ofList [LawfulRanked κ] (xs : List (κ × β)) : Ascending (ofList xs).entries := by
  suffices hall : ∀ m : OrdMap κ β, Ascending m.entries →
      Ascending (xs.foldl (fun m e => m.insert e.1 e.2) m).entries from hall empty List.Pairwise.nil
  induction xs with
  | nil => exact fun m hm => hm
  | cons e xs ih =>
    intro m hm
    exact ih (m.insert e.1 e.2) (hm.insertEntry e.1 e.2)

end OrdMap

end PacketPlan
