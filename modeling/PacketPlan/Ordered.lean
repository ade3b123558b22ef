/-! # Finite maps and sets listed in ascending order

Keys are compared through their rank, a list of integers taken lexicographically. A map is
the list of its entries and a set the list of its elements; insertion is a single pass that
keeps ascending order and replaces the entry of an equal key. Lookups need no invariant:
`get?_insert_self` and `get?_insert_ne` hold for every list of entries.
-/
namespace PacketPlan

/-- Lexicographic order, where a proper initial part comes first. -/
def lexBefore : List Int → List Int → Bool
  | [], [] => false
  | [], _ :: _ => true
  | _ :: _, [] => false
  | a :: as, b :: bs => if a = b then lexBefore as bs else decide (a < b)

/-- Keys with a rank. Equal ranks are meant for equal keys only. -/
class Ranked (κ : Type) where
  rank : κ → List Int

def Ranked.before {κ : Type} [Ranked κ] (a b : κ) : Bool :=
  lexBefore (Ranked.rank a) (Ranked.rank b)

instance : Ranked Nat where
  rank n := [(n : Int)]

instance : Ranked String where
  rank s := s.toList.map fun c => (c.toNat : Int)

/-- A finite map, as its entries in ascending order of keys. -/
structure OrdMap (κ β : Type) where
  entries : List (κ × β)
deriving DecidableEq

namespace OrdMap
variable {κ β : Type} [DecidableEq κ] [Ranked κ]

def empty : OrdMap κ β := ⟨[]⟩

instance : EmptyCollection (OrdMap κ β) := ⟨empty⟩
instance : Inhabited (OrdMap κ β) := ⟨empty⟩

def findEntry (k : κ) : List (κ × β) → Option β
  | [] => none
  | (k', v) :: rest => if k = k' then some v else findEntry k rest

def insertEntry (k : κ) (v : β) : List (κ × β) → List (κ × β)
  | [] => [(k, v)]
  | (k', v') :: rest =>
    if k = k' then (k, v) :: rest
    else if Ranked.before k k' then (k, v) :: (k', v') :: rest
    else (k', v') :: insertEntry k v rest

def get? (m : OrdMap κ β) (k : κ) : Option β := findEntry k m.entries

def contains (m : OrdMap κ β) (k : κ) : Bool := (m.get? k).isSome

def insert (m : OrdMap κ β) (k : κ) (v : β) : OrdMap κ β := ⟨insertEntry k v m.entries⟩

/-- Later entries win. -/
def ofList (xs : List (κ × β)) : OrdMap κ β := xs.foldl (fun m e => m.insert e.1 e.2) empty

def keys (m : OrdMap κ β) : List κ := m.entries.map Prod.fst

def values (m : OrdMap κ β) : List β := m.entries.map Prod.snd

def size (m : OrdMap κ β) : Nat := m.entries.length

def isEmpty (m : OrdMap κ β) : Bool := m.entries.isEmpty

omit [Ranked κ] in
@[simp] theorem get?_empty (k : κ) : (empty : OrdMap κ β).get? k = none := rfl

theorem findEntry_insertEntry_self (k : κ) (v : β) (xs : List (κ × β)) :
    findEntry k (insertEntry k v xs) = some v := by
  induction xs with
  | nil => simp [insertEntry, findEntry]
  | cons e rest ih =>
    simp only [insertEntry]
    split
    · simp [findEntry]
    · split
      · simp [findEntry]
      · simp_all [findEntry]

theorem findEntry_insertEntry_ne {k k' : κ} (h : k' ≠ k) (v : β) (xs : List (κ × β)) :
    findEntry k' (insertEntry k v xs) = findEntry k' xs := by
  induction xs with
  | nil => simp [insertEntry, findEntry, h]
  | cons e rest ih =>
    simp only [insertEntry]
    split
    · rename_i hk
      simp [findEntry, h, ← hk]
    · split
      · simp [findEntry, h]
      · simp [findEntry, ih]

@[simp] theorem get?_insert_self (m : OrdMap κ β) (k : κ) (v : β) :
    (m.insert k v).get? k = some v :=
  findEntry_insertEntry_self k v m.entries

theorem get?_insert_ne (m : OrdMap κ β) {k k' : κ} (h : k' ≠ k) (v : β) :
    (m.insert k v).get? k' = m.get? k' :=
  findEntry_insertEntry_ne h v m.entries

theorem get?_insert (m : OrdMap κ β) (k k' : κ) (v : β) :
    (m.insert k v).get? k' = if k' = k then some v else m.get? k' := by
  split
  · subst k'; exact get?_insert_self m k v
  · exact get?_insert_ne m ‹_› v

end OrdMap

structure OrdSet (α : Type) where
  elems : List α
deriving DecidableEq

namespace OrdSet
variable {α : Type} [DecidableEq α] [Ranked α]

def empty : OrdSet α := ⟨[]⟩

instance : EmptyCollection (OrdSet α) := ⟨empty⟩
instance : Inhabited (OrdSet α) := ⟨empty⟩
instance : Membership α (OrdSet α) := ⟨fun s a => a ∈ s.elems⟩

instance (a : α) (s : OrdSet α) : Decidable (a ∈ s) := inferInstanceAs (Decidable (a ∈ s.elems))

def insertElem (a : α) : List α → List α
  | [] => [a]
  | b :: rest =>
    if a = b then b :: rest
    else if Ranked.before a b then a :: b :: rest
    else b :: insertElem a rest

def insert (s : OrdSet α) (a : α) : OrdSet α := ⟨insertElem a s.elems⟩

def insertAll (s : OrdSet α) (xs : List α) : OrdSet α := xs.foldl insert s

def ofList (xs : List α) : OrdSet α := insertAll empty xs

def filter (p : α → Bool) (s : OrdSet α) : OrdSet α := ⟨s.elems.filter p⟩

def size (s : OrdSet α) : Nat := s.elems.length

def isEmpty (s : OrdSet α) : Bool := s.elems.isEmpty

omit [DecidableEq α] [Ranked α] in
@[simp] theorem not_mem_empty (a : α) : a ∉ (empty : OrdSet α) := List.not_mem_nil

theorem mem_insertElem (a b : α) (xs : List α) : b ∈ insertElem a xs ↔ b = a ∨ b ∈ xs := by
  induction xs with
  | nil => simp [insertElem]
  | cons c rest ih =>
    simp only [insertElem]
    split
    · rename_i h
      subst h
      simp
    · split
      · simp
      · simp [ih, or_left_comm]

@[simp] theorem mem_insert (s : OrdSet α) (a b : α) : b ∈ s.insert a ↔ b = a ∨ b ∈ s :=
  mem_insertElem a b s.elems

@[simp] theorem mem_insertAll (s : OrdSet α) (xs : List α) (b : α) :
    b ∈ s.insertAll xs ↔ b ∈ xs ∨ b ∈ s := by
  induction xs generalizing s with
  | nil => simp [insertAll]
  | cons a rest ih =>
    have h : s.insertAll (a :: rest) = (s.insert a).insertAll rest := rfl
    rw [h, ih, mem_insert, List.mem_cons, or_left_comm, or_assoc]

omit [DecidableEq α] [Ranked α] in
@[simp] theorem mem_filter (p : α → Bool) (s : OrdSet α) (b : α) :
    b ∈ s.filter p ↔ b ∈ s ∧ p b = true :=
  List.mem_filter

end OrdSet

end PacketPlan
