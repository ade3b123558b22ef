/-! # TOML values

Tables remember how they came about, since this decides what may still be added to them: one
written inline is complete, one that a header names may not be named again, one that is implied by
a longer header may be named later, and one made by a dotted key is only extended by dotted keys.
-/
namespace PacketPlan.Toml

inductive Origin where
  | inline
  | header
  | implied
  | dotted
deriving DecidableEq, Inhabited

/-- Fractions and dates are kept as they are written. -/
inductive Value where
  | string (s : String)
  | integer (i : Int)
  | fraction (text : String)
  | boolean (b : Bool)
  | dateTime (text : String)
  | array (items : List Value)
  | table (origin : Origin) (entries : List (String × Value))
  | tables (items : List (List (String × Value)))
deriving Inhabited

abbrev Table := List (String × Value)

namespace Table

def get? (t : Table) (key : String) : Option Value := List.lookup key t

/-- Replaces the value of a key, or adds it at the end. -/
def set (t : Table) (key : String) (v : Value) : Table :=
  match t with
  | [] => [(key, v)]
  | (k, w) :: rest => if k = key then (k, v) :: rest else (k, w) :: set rest key v

/-- Changes the table that a header path leads to. Tables that are missing on the way are implied;
of repeated tables the last one is meant. -/
def within (t : Table) (path : List String) (f : Table → Option Table) : Option Table :=
  match path with
  | [] => f t
  | key :: path =>
    match t.get? key with
    | none => do some (t.set key (.table .implied (← within [] path f)))
    | some (.table .inline _) => none
    | some (.table origin inner) => do some (t.set key (.table origin (← within inner path f)))
    | some (.tables items) => do
      let last ← items.getLast?
      some (t.set key (.tables (items.dropLast ++ [← within last path f])))
    | some _ => none

def openTable (t : Table) (path : List String) : Option Table := do
  let key ← path.getLast?
  t.within path.dropLast fun parent =>
    match parent.get? key with
    | none => some (parent.set key (.table .header []))
    | some (.table .implied inner) => some (parent.set key (.table .header inner))
    | some _ => none

def openElement (t : Table) (path : List String) : Option Table := do
  let key ← path.getLast?
  t.within path.dropLast fun parent =>
    match parent.get? key with
    | none => some (parent.set key (.tables [[]]))
    | some (.tables items) => some (parent.set key (.tables (items ++ [[]])))
    | some _ => none

/-- Gives a dotted key its value. The key must be new, and the table it belongs to must be this one
or one that dotted keys have made. -/
def define (t : Table) (key : List String) (v : Value) : Option Table :=
  match key with
  | [] => none
  | [k] => if (t.get? k).isSome then none else some (t.set k v)
  | k :: k' :: rest =>
    match t.get? k with
    | none => do some (t.set k (.table .dotted (← define [] (k' :: rest) v)))
    | some (.table .dotted inner) => do
      some (t.set k (.table .dotted (← define inner (k' :: rest) v)))
    | some (.table .implied inner) =>
      if rest.isEmpty then none
      else do some (t.set k (.table .implied (← define inner (k' :: rest) v)))
    | some (.tables items) =>
      if rest.isEmpty then none
      else do
        let last ← items.getLast?
        some (t.set k (.tables (items.dropLast ++ [← define last (k' :: rest) v])))
    | some _ => none

def ofPairs (t : Table) : List (List String × Value) → Option Table
  | [] => some t
  | (key, v) :: rest => do ofPairs (← t.define key v) rest

end Table

end PacketPlan.Toml
