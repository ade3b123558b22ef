import PacketPlan.Word
import PacketPlan.Toml.Text
import PacketPlan.Toml.Value

/-! # Numbers, dates and booleans

Such a value is a word: all characters up to one that no number or date may contain.
-/
namespace PacketPlan.Toml

def isWord (c : Char) : Bool :=
  c.isAlphanum || c = '+' || c = '-' || c = '.' || c = '_' || c = ':'

/-! ## Numbers -/

/-- Digits, without the underscores that may stand between two of them. -/
def digits? (isDigit : Char → Bool) : List Char → Option (List Char)
  | [] => none
  | [c] => if isDigit c then some [c] else none
  | c :: '_' :: rest => if isDigit c then (digits? isDigit rest).map (c :: ·) else none
  | c :: rest => if isDigit c then (digits? isDigit rest).map (c :: ·) else none

/-- Decimal digits, the first of which is zero only if it is the only one. -/
def decimal? : List Char → Option (List Char)
  | ['0'] => some ['0']
  | '0' :: _ => none
  | cs => digits? Char.isDigit cs

def digitValue (c : Char) : Nat :=
  if c.isDigit then c.toNat - '0'.toNat
  else if c.isLower then c.toNat - 'a'.toNat + 10
  else c.toNat - 'A'.toNat + 10

def natOf (base : Nat) (digits : List Char) : Nat :=
  digits.foldl (fun n c => base * n + digitValue c) 0

def signed : List Char → Bool × List Char
  | '-' :: rest => (true, rest)
  | '+' :: rest => (false, rest)
  | cs => (false, cs)

def isHexDigit (c : Char) : Bool :=
  c.isDigit || ('a' ≤ c && c ≤ 'f') || ('A' ≤ c && c ≤ 'F')

def integer? (cs : List Char) : Option Int := do
  let i : Int ←
    match cs with
    | '0' :: 'x' :: rest => (digits? isHexDigit rest).map fun ds => (natOf 16 ds : Int)
    | '0' :: 'o' :: rest =>
      (digits? (fun c => '0' ≤ c && c ≤ '7') rest).map fun ds => (natOf 8 ds : Int)
    | '0' :: 'b' :: rest =>
      (digits? (fun c => c = '0' || c = '1') rest).map fun ds => (natOf 2 ds : Int)
    | cs =>
      let (negative, rest) := signed cs
      (decimal? rest).map fun ds => if negative then -(natOf 10 ds : Int) else (natOf 10 ds : Int)
  if Word.minSigned ≤ i ∧ i ≤ Word.maxSigned then some i else none

/-- The exponent of a fraction, which may be missing. -/
def exponent? : List Char → Option Int
  | [] => some 0
  | e :: rest =>
    if e = 'e' || e = 'E' then
      let (negative, ds) := signed rest
      (digits? Char.isDigit ds).map fun ds =>
        if negative then -(natOf 10 ds : Int) else (natOf 10 ds : Int)
    else none

/-- The least number that is nearer to `2 ^ 1024` than to any double-precision number. -/
def doubleLimit : Nat := Nat.pow 2 1024 - Nat.pow 2 970

/-- Whether `mantissa * 10 ^ e` is beyond the range of double precision. -/
def exceedsDouble (mantissa : Nat) (e : Int) : Bool :=
  if mantissa = 0 then false
  else if 400 < e then true
  else if 0 ≤ e then doubleLimit ≤ mantissa * Nat.pow 10 e.toNat
  else
    let places := (-e).toNat
    if (Nat.toDigits 10 mantissa).length ≤ places then false
    else doubleLimit * Nat.pow 10 places ≤ mantissa

/-- A number with a fraction or an exponent, which must not be too large. -/
def isFraction (cs : List Char) : Bool :=
  let (negative, rest) := signed cs
  let inNumber (c : Char) : Bool := c.isDigit || c = '_'
  let whole := rest.takeWhile inNumber
  match decimal? whole, rest.dropWhile inNumber with
  | some ds, '.' :: rest =>
    match digits? Char.isDigit (rest.takeWhile inNumber), exponent? (rest.dropWhile inNumber) with
    | some fs, some e => negative || !exceedsDouble (natOf 10 (ds ++ fs)) (e - fs.length)
    | _, _ => false
  | some ds, c :: rest =>
    match exponent? (c :: rest) with
    | some e => negative || !exceedsDouble (natOf 10 ds) e
    | none => false
  | _, _ => false

def isSpecial (cs : List Char) : Bool :=
  let word := (signed cs).2
  word = ['i', 'n', 'f'] || word = ['n', 'a', 'n']

/-! ## Dates -/

def twoDigits? (a b : Char) : Option Nat :=
  if a.isDigit && b.isDigit then some (natOf 10 [a, b]) else none

def daysIn (year month : Nat) : Nat :=
  if month = 2 then if year % 4 = 0 ∧ (year % 100 ≠ 0 ∨ year % 400 = 0) then 29 else 28
  else if month = 4 ∨ month = 6 ∨ month = 9 ∨ month = 11 then 30
  else 31

def afterDate : List Char → Option (List Char)
  | y1 :: y2 :: y3 :: y4 :: '-' :: m1 :: m2 :: '-' :: d1 :: d2 :: rest => do
    let century ← twoDigits? y1 y2
    let year ← twoDigits? y3 y4
    let month ← twoDigits? m1 m2
    let day ← twoDigits? d1 d2
    if 1 ≤ month ∧ month ≤ 12 ∧ 1 ≤ day ∧ day ≤ daysIn (100 * century + year) month then some rest
    else none
  | _ => none

def isHour (a b : Char) : Bool := (twoDigits? a b).any (· ≤ 23)
def isMinute (a b : Char) : Bool := (twoDigits? a b).any (· ≤ 59)
def isSecond (a b : Char) : Bool := (twoDigits? a b).any (· ≤ 60)

def afterTime : List Char → Option (List Char)
  | h1 :: h2 :: ':' :: m1 :: m2 :: ':' :: s1 :: s2 :: rest =>
    if isHour h1 h2 && isMinute m1 m2 && isSecond s1 s2 then
      match rest with
      | '.' :: c :: rest => if c.isDigit then some (rest.dropWhile Char.isDigit) else none
      | rest => some rest
    else none
  | _ => none

/-- The distance from universal time, which may be missing. -/
def isOffset : List Char → Bool
  | [] | ['Z'] | ['z'] => true
  | [s, h1, h2, ':', m1, m2] => (s = '+' || s = '-') && isHour h1 h2 && isMinute m1 m2
  | _ => false

def isFullTime (cs : List Char) : Bool := (afterTime cs).any isOffset

def isDate (cs : List Char) : Bool := afterDate cs = some []

def isDateTime (cs : List Char) : Bool :=
  match afterDate cs with
  | some [] => true
  | some (t :: rest) => (t = 'T' || t = 't') && isFullTime rest
  | none => afterTime cs = some []

/-! ## Words -/

def scalarOf? (word : List Char) : Option Value :=
  if word = ['t', 'r', 'u', 'e'] then some (.boolean true)
  else if word = ['f', 'a', 'l', 's', 'e'] then some (.boolean false)
  else if isDateTime word then some (.dateTime (String.ofList word))
  else if isFraction word || isSpecial word then some (.fraction (String.ofList word))
  else (integer? word).map .integer

/-- A number, a date or a boolean. A blank may stand between date and time. -/
def scalar (cs : List Char) : Option (Value × List Char) := do
  let word := cs.takeWhile isWord
  let rest := cs.dropWhile isWord
  let v ← scalarOf? word
  match rest with
  | ' ' :: more =>
    let time := more.takeWhile isWord
    if isDate word && isFullTime time then
      some (.dateTime (String.ofList (word ++ ' ' :: time)), more.dropWhile isWord)
    else some (v, rest)
  | _ => some (v, rest)

end PacketPlan.Toml
