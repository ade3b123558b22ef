/-! # The text of TOML documents

Blanks, comments, strings and keys. Lines end in a line feed, the carriage return ahead of it having
been dropped; one that stands elsewhere is not allowed.
-/
namespace PacketPlan.Toml

abbrev Parser (α : Type) := List Char → Option (α × List Char)

def joinLineEnds : List Char → List Char
  | '\r' :: '\n' :: rest => '\n' :: joinLineEnds rest
  | c :: rest => c :: joinLineEnds rest
  | [] => []

def dropByteOrderMark : List Char → List Char
  | '\ufeff' :: rest => rest
  | cs => cs

def isBlank (c : Char) : Bool := c = ' ' || c = '\t'

def skipBlanks (cs : List Char) : List Char := cs.dropWhile isBlank

/-- Characters that may stand in comments and in strings of one line. -/
def isPlain (c : Char) : Bool := c = '\t' || (' ' ≤ c && c ≠ '\x7f')

/-- What follows the end of a line on which only blanks and a comment are left. -/
def lineEnd (inComment : Bool) : List Char → Option (List Char)
  | [] => some []
  | c :: rest =>
    if c = '\n' then some rest
    else if inComment then if isPlain c then lineEnd true rest else none
    else if isBlank c then lineEnd false rest
    else if c = '#' then lineEnd true rest
    else none

def skipFiller (inComment : Bool) : List Char → Option (List Char)
  | [] => if inComment then none else some []
  | c :: rest =>
    if c = '\n' then skipFiller false rest
    else if inComment then if isPlain c then skipFiller true rest else none
    else if isBlank c then skipFiller false rest
    else if c = '#' then skipFiller true rest
    else some (c :: rest)

/-! ## Strings -/

/-- The part of a string up to the quote that ends it, escapes being left as they are. -/
def basicBody : Parser (List Char)
  | '"' :: rest => some ([], rest)
  | '\\' :: c :: rest => do
    let (body, rest) ← basicBody rest
    some ('\\' :: c :: body, rest)
  | c :: rest =>
    if isPlain c then do
      let (body, rest) ← basicBody rest
      some (c :: body, rest)
    else none
  | [] => none

def literalBody : Parser (List Char)
  | '\'' :: rest => some ([], rest)
  | c :: rest =>
    if isPlain c then do
      let (body, rest) ← literalBody rest
      some (c :: body, rest)
    else none
  | [] => none

/-- Up to two quotes may stand ahead of the three that end a string of several lines. -/
def extraQuotes (quote : Char) : List Char → List Char × List Char
  | a :: b :: rest =>
    if a = quote then if b = quote then ([a, b], rest) else ([a], b :: rest)
    else ([], a :: b :: rest)
  | [a] => if a = quote then ([a], []) else ([], [a])
  | [] => ([], [])

def multilineBody (quote : Char) (escapes : Bool) : Parser (List Char)
  | a :: b :: c :: rest =>
    if a = quote ∧ b = quote ∧ c = quote then some (extraQuotes quote rest)
    else if escapes ∧ a = '\\' then do
      let (body, rest) ← multilineBody quote escapes (c :: rest)
      some (a :: b :: body, rest)
    else if isPlain a || a = '\n' then do
      let (body, rest) ← multilineBody quote escapes (b :: c :: rest)
      some (a :: body, rest)
    else none
  | _ => none

def hexValue? (digits : List Char) : Option Nat :=
  digits.foldl (fun acc c => do
    let n ← acc
    let d ←
      if '0' ≤ c && c ≤ '9' then some (c.toNat - '0'.toNat)
      else if 'a' ≤ c && c ≤ 'f' then some (c.toNat - 'a'.toNat + 10)
      else if 'A' ≤ c && c ≤ 'F' then some (c.toNat - 'A'.toNat + 10)
      else none
    some (16 * n + d)) (some 0)

def charOfNat? (n : Nat) : Option Char :=
  if n.isValidChar then some (Char.ofNat n) else none

def simpleEscape? : Char → Option Char
  | 'b' => some '\x08'
  | 't' => some '\t'
  | 'n' => some '\n'
  | 'f' => some '\x0c'
  | 'r' => some '\r'
  | '"' => some '"'
  | '\\' => some '\\'
  | _ => none

/-- Only blanks are left on the line, so that a backslash joins it with the next text. -/
def endsLine (cs : List Char) : Bool := (skipBlanks cs).head? = some '\n'

/-- Replaces escapes by what they stand for. In a string of several lines a backslash at the end of
a line takes the line end and all blanks and line ends after it away. -/
def unescape (multiline : Bool) : List Char → Option (List Char)
  | '\\' :: 'u' :: a :: b :: c :: d :: rest => do
    let x ← (hexValue? [a, b, c, d]).bind charOfNat?
    some (x :: (← unescape multiline rest))
  | '\\' :: 'U' :: a :: b :: c :: d :: e :: f :: g :: h :: rest => do
    let x ← (hexValue? [a, b, c, d, e, f, g, h]).bind charOfNat?
    some (x :: (← unescape multiline rest))
  | '\\' :: c :: rest =>
    match simpleEscape? c with
    | some x => do some (x :: (← unescape multiline rest))
    | none =>
      if multiline && endsLine (c :: rest) then
        unescape multiline (rest.dropWhile fun x => isBlank x || x = '\n')
      else none
  | ['\\'] => none
  | c :: rest => do some (c :: (← unescape multiline rest))
  | [] => some []
termination_by cs => cs.length
decreasing_by
  all_goals try (simp only [List.length_cons]; omega)
  have := (List.dropWhile_sublist (fun x => isBlank x || x = '\n') (l := rest)).length_le
  simp only [List.length_cons]
  omega

/-- A line end right after the opening quotes does not count. -/
def dropFirstLineEnd : List Char → List Char
  | '\n' :: rest => rest
  | cs => cs

def shortString : Parser String
  | '"' :: rest => do
    let (body, rest) ← basicBody rest
    some (String.ofList (← unescape false body), rest)
  | '\'' :: rest => do
    let (body, rest) ← literalBody rest
    some (String.ofList body, rest)
  | _ => none

def string : Parser String
  | '"' :: '"' :: '"' :: rest => do
    let (body, rest) ← multilineBody '"' true (dropFirstLineEnd rest)
    some (String.ofList (← unescape true body), rest)
  | '\'' :: '\'' :: '\'' :: rest => do
    let (body, rest) ← multilineBody '\'' false (dropFirstLineEnd rest)
    some (String.ofList body, rest)
  | cs => shortString cs

/-! ## Keys -/

def isBareKey (c : Char) : Bool := c.isAlphanum || c = '_' || c = '-'

def simpleKey (cs : List Char) : Option (String × List Char) :=
  match shortString cs with
  | some result => some result
  | none =>
    let key := cs.takeWhile isBareKey
    if key.isEmpty then none else some (String.ofList key, cs.dropWhile isBareKey)

/-- The parts of a dotted key, of which there may be so many, and what follows them and the blanks
after them. -/
def keyWithin : Nat → Parser (List String)
  | 0, _ => none
  | more + 1, cs => do
    let (part, rest) ← simpleKey (skipBlanks cs)
    match skipBlanks rest with
    | '.' :: rest =>
      let (parts, rest) ← keyWithin more rest
      some (part :: parts, rest)
    | rest => some ([part], rest)

/-- Keys have fewer than 80 parts. -/
def key : Parser (List String) := keyWithin 79

end PacketPlan.Toml
