import PacketPlan.Toml.Scalar

/-! # TOML documents

Lines that give keys their values, under headers that say which table the keys belong to.
-/
namespace PacketPlan.Toml

/-- The items of an array up to its closing bracket. Lines may end between them, and a comma may
follow the last one. -/
def arrayItems (item : Parser Value) (cs : List Char) : Option (List Value × List Char) := do
  match ← skipFiller false cs with
  | ']' :: rest => some ([], rest)
  | start =>
    let (v, rest) ← item start
    match ← skipFiller false rest with
    | ']' :: rest => some ([v], rest)
    | ',' :: rest =>
      if rest.length < cs.length then
        let (vs, rest) ← arrayItems item rest
        some (v :: vs, rest)
      else none
    | _ => none
termination_by cs.length

def tableItems (item : Parser Value) (cs : List Char) :
    Option (List (List String × Value) × List Char) := do
  let (k, rest) ← key cs
  match rest with
  | '=' :: rest =>
    let (v, rest) ← item (skipBlanks rest)
    match skipBlanks rest with
    | '\x7d' :: rest => some ([(k, v)], rest)
    | ',' :: rest =>
      if rest.length < cs.length then
        let (entries, rest) ← tableItems item rest
        some ((k, v) :: entries, rest)
      else none
    | _ => none
  | _ => none
termination_by cs.length

/-- A value with arrays and inline tables in it to at most that depth. -/
def valueWithin : Nat → Parser Value
  | 0, '[' :: _ => none
  | 0, '\x7b' :: _ => none
  | depth + 1, '[' :: rest => do
    let (items, rest) ← arrayItems (valueWithin depth) rest
    some (.array items, rest)
  | depth + 1, '\x7b' :: rest =>
    match skipBlanks rest with
    | '\x7d' :: rest => some (.table .inline [], rest)
    | rest => do
      let (entries, rest) ← tableItems (valueWithin depth) rest
      some (.table .inline (← Table.ofPairs [] entries), rest)
  | _, '"' :: rest => (string ('"' :: rest)).map fun r => (.string r.1, r.2)
  | _, '\'' :: rest => (string ('\'' :: rest)).map fun r => (.string r.1, r.2)
  | _, cs => scalar cs

/-- Values are nested less than 80 deep. -/
def value : Parser Value := valueWithin 79

inductive Line where
  | blank
  | header (path : List String)
  | element (path : List String)
  | entry (key : List String) (v : Value)

def line (cs : List Char) : Option (Line × List Char) :=
  match skipBlanks cs with
  | [] => some (.blank, [])
  | '\n' :: rest => some (.blank, rest)
  | '#' :: rest => do some (.blank, ← lineEnd true rest)
  | '[' :: '[' :: rest => do
    let (path, rest) ← key rest
    match rest with
    | ']' :: ']' :: rest => some (.element path, ← lineEnd false rest)
    | _ => none
  | '[' :: rest => do
    let (path, rest) ← key rest
    match rest with
    | ']' :: rest => some (.header path, ← lineEnd false rest)
    | _ => none
  | start => do
    let (k, rest) ← key start
    match rest with
    | '=' :: rest =>
      let (v, rest) ← value (skipBlanks rest)
      some (.entry k v, ← lineEnd false rest)
    | _ => none

/-- The document after one more line, and the path under which the next entries stand. -/
def Line.apply (root : Table) (path : List String) : Line → Option (Table × List String)
  | .blank => some (root, path)
  | .header path => do some (← root.openTable path, path)
  | .element path => do some (← root.openElement path, path)
  | .entry k v => do some (← root.within path fun t => t.define k v, path)

def lines (root : Table) (path : List String) (cs : List Char) : Option Table :=
  if cs.isEmpty then some root
  else do
    let (l, rest) ← line cs
    let (root, path) ← l.apply root path
    if rest.length < cs.length then lines root path rest else none
termination_by cs.length

def parse (s : String) : Option Table :=
  lines [] [] (joinLineEnds (dropByteOrderMark s.toList))

end PacketPlan.Toml
