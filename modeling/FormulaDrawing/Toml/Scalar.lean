import FormulaDrawing.Number.Numeral
import FormulaDrawing.Toml.Datum

/-! Words of a TOML document: truth values, integers, floats, dates and times. -/

namespace FormulaDrawing.Toml

open Number (takeSign)

/-- The digits of a number, with single underscores only between two of them. -/
def digits? (isDigit : Char → Bool) : List Char → Option (List Char)
  | [] => none
  | [c] => if isDigit c then some [c] else none
  | c :: '_' :: s => if isDigit c then (digits? isDigit s).map (c :: ·) else none
  | c :: s => if isDigit c then (digits? isDigit s).map (c :: ·) else none

/-- Decimal digits that do not begin with a zero, unless there is only that. -/
def wholeDigits? (s : List Char) : Option (List Char) :=
  (digits? Char.isDigit s).filter fun ds => ds.length = 1 || ds.head? ≠ some '0'

def isHexDigit (c : Char) : Bool :=
  c.isDigit || ('a' ≤ c && c ≤ 'f') || ('A' ≤ c && c ≤ 'F')

def digitValue (c : Char) : Nat :=
  if c.isDigit then c.toNat - '0'.toNat else c.toLower.toNat - 'a'.toNat + 10

def valueIn (base : Nat) (ds : List Char) : Nat := ds.foldl (fun n d => base * n + digitValue d) 0

def magnitude? : List Char → Option Nat
  | '0' :: 'x' :: s => (digits? isHexDigit s).map (valueIn 16)
  | '0' :: 'o' :: s => (digits? (fun c => '0' ≤ c && c ≤ '7') s).map (valueIn 8)
  | '0' :: 'b' :: s => (digits? (fun c => c == '0' || c == '1') s).map (valueIn 2)
  | _ => none

/-- An integer of 64 bits. Only decimal ones may have a sign. -/
def integer? (s : List Char) : Option Int := do
  let n ← match magnitude? s with
    | some n => some (n : Int)
    | none =>
      let (sign, body) := takeSign s
      (wholeDigits? body).map fun ds =>
        if sign = ['-'] then -(valueIn 10 ds : Int) else (valueIn 10 ds : Int)
  guard (-0x8000000000000000 ≤ n && n < 0x8000000000000000)
  return n

/-- Splits at the first character that `p` holds of, which belongs to the second part. -/
def splitAtFirst (p : Char → Bool) (s : List Char) : List Char × List Char :=
  (s.takeWhile fun c => !p c, s.dropWhile fun c => !p c)

def fraction? : List Char → Option (List Char)
  | [] => some []
  | '.' :: s => (digits? Char.isDigit s).map ('.' :: ·)
  | _ => none

def exponent? : List Char → Option (List Char)
  | [] => some []
  | _ :: s =>
    let (sign, body) := takeSign s
    (digits? Char.isDigit body).map fun ds => 'e' :: (sign ++ ds)

/-- A float has a fraction or an exponent. One that is too large is refused, unless it is below
zero. -/
def decimal? (s : List Char) : Option Float := do
  let (sign, body) := takeSign s
  let (front, mark) := splitAtFirst (fun c => c == 'e' || c == 'E') body
  let (whole, point) := splitAtFirst (· == '.') front
  guard !(point.isEmpty && mark.isEmpty)
  let digits := (← wholeDigits? whole) ++ (← fraction? point) ++ (← exponent? mark)
  let x ← Number.ofChars? (sign ++ digits)
  guard !(x == 1.0 / 0.0)
  return x

def special? (s : List Char) : Option Float :=
  let (sign, body) := takeSign s
  let x : Option Float :=
    if body = ['i', 'n', 'f'] then some (1.0 / 0.0)
    else if body = ['n', 'a', 'n'] then some (0.0 / 0.0)
    else none
  x.map fun x => if sign = ['-'] then -x else x

/-- Exactly `count` digits in front with a value between two bounds, and the rest. -/
def field? (count low high : Nat) (s : List Char) : Option (Nat × List Char) := do
  let ds := s.take count
  guard (ds.length = count && ds.all Char.isDigit)
  let n := valueIn 10 ds
  guard (low ≤ n && n ≤ high)
  return (n, s.drop count)

def expect? (mark : Char) : List Char → Option (List Char)
  | c :: s => if c = mark then some s else none
  | [] => none

def daysIn (year month : Nat) : Nat :=
  if month = 2 then
    if year % 4 = 0 && (year % 100 ≠ 0 || year % 400 = 0) then 29 else 28
  else if month = 4 || month = 6 || month = 9 || month = 11 then 30
  else 31

/-- What follows a date that the calendar has. -/
def date? (s : List Char) : Option (List Char) := do
  let (year, s) ← field? 4 0 9999 s
  let (month, s) ← field? 2 1 12 (← expect? '-' s)
  let (_, s) ← field? 2 1 (daysIn year month) (← expect? '-' s)
  return s

/-- What follows a time of day, which may have a leap second and a fraction. -/
def time? (s : List Char) : Option (List Char) := do
  let (_, s) ← field? 2 0 23 s
  let (_, s) ← field? 2 0 59 (← expect? ':' s)
  let (_, s) ← field? 2 0 60 (← expect? ':' s)
  match s with
  | '.' :: s =>
    guard (s.head?.any Char.isDigit)
    return s.dropWhile Char.isDigit
  | s => return s

/-- Whether a text is nothing but a distance from universal time, or empty. -/
def isOffset : List Char → Bool
  | [] | ['Z'] | ['z'] => true
  | c :: s =>
    let rest := do
      let (_, s) ← field? 2 0 23 s
      let (_, s) ← field? 2 0 59 (← expect? ':' s)
      return s
    (c == '+' || c == '-') && rest == some []

def isTime (s : List Char) : Bool := time? s == some []

/-- A date alone, a date with a time behind a `T` or a space, or a time alone. -/
def isMoment (s : List Char) : Bool :=
  match date? s with
  | some [] => true
  | some (c :: s) => (c == 'T' || c == 't' || c == ' ') && (time? s).any isOffset
  | none => isTime s

def isWordChar (c : Char) : Bool :=
  c.isAlphanum || c == '_' || c == '-' || c == '+' || c == '.' || c == ':'

/-- The run of word characters in front. A date goes on behind a space if a time follows. -/
def word (s : List Char) : List Char × List Char :=
  let front := s.takeWhile isWordChar
  match s.dropWhile isWordChar with
  | ' ' :: rest =>
    if date? front == some [] && (time? rest).isSome then
      (front ++ ' ' :: rest.takeWhile isWordChar, rest.dropWhile isWordChar)
    else (front, ' ' :: rest)
  | rest => (front, rest)

def ofWord? (s : List Char) : Option Datum :=
  if s = ['t', 'r', 'u', 'e'] then some (.boolean true)
  else if s = ['f', 'a', 'l', 's', 'e'] then some (.boolean false)
  else if isMoment s then some (.moment (String.ofList s))
  else
    match integer? s, decimal? s, special? s with
    | some n, _, _ => some (.integer n)
    | none, some x, _ => some (.float x)
    | none, none, some x => some (.float x)
    | none, none, none => none

end FormulaDrawing.Toml
