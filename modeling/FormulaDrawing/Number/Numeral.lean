import FormulaDrawing.Text.Pieces

/-! Decimal numerals: digits with at most one point and at least one digit, then possibly an
exponent. Reading takes the longest numeral at the front of a text. -/

namespace FormulaDrawing.Number

/-- An unsigned numeral as it is written, with the value `digits · 10 ^ scale`. -/
structure Numeral where
  written : List Char
  digits : Nat
  scale : Int
deriving DecidableEq, Repr

def isSign (c : Char) : Bool := c == '+' || c == '-'

def takeSign : List Char → List Char × List Char
  | c :: s => if isSign c then ([c], s) else ([], c :: s)
  | [] => ([], [])

def digitsValue (ds : List Char) : Nat := ds.foldl (fun n d => 10 * n + (d.toNat - '0'.toNat)) 0

/-- An exponent mark with its sign and digits; without digits there is no exponent. -/
def exponent? : List Char → Option (List Char × Int × List Char)
  | mark :: s =>
    let (sign, t) := takeSign s
    let ds := t.takeWhile Char.isDigit
    if (mark == 'e' || mark == 'E') && !ds.isEmpty then
      let n : Int := digitsValue ds
      some (mark :: (sign ++ ds), if sign = ['-'] then -n else n, t.dropWhile Char.isDigit)
    else none
  | [] => none

/-- A point and the digits behind it, of which there may be none. -/
def fraction : List Char → List Char × List Char × List Char
  | '.' :: s => (['.'], s.takeWhile Char.isDigit, s.dropWhile Char.isDigit)
  | s => ([], [], s)

/-- The longest numeral at the front, and the rest. -/
def numeral? (s : List Char) : Option (Numeral × List Char) :=
  let whole := s.takeWhile Char.isDigit
  let (point, decimals, rest) := fraction (s.dropWhile Char.isDigit)
  if whole.isEmpty && decimals.isEmpty then none
  else
    let body := whole ++ point ++ decimals
    let digits := digitsValue (whole ++ decimals)
    match exponent? rest with
    | some (mark, n, tail) => some (⟨body ++ mark, digits, n - decimals.length⟩, tail)
    | none => some (⟨body, digits, -decimals.length⟩, rest)

def Numeral.value (n : Numeral) : Float := .ofModel (.ofScientific n.digits n.scale)

/-- The nearest number of single precision, or infinity. It is not always nearest to the double. -/
def Numeral.single (n : Numeral) : Float32 := .ofModel (.ofScientific n.digits n.scale)

/-- A number without its sign. Two values have no digits. -/
inductive Magnitude where
  | numeral (n : Numeral)
  | infinite
  | undefined

def named? (s : List Char) : Option Magnitude :=
  let word := String.ofList (s.map Char.toLower)
  if word = "inf" ∨ word = "infinity" then some .infinite
  else if word = "nan" then some .undefined
  else none

def magnitude? (s : List Char) : Option Magnitude :=
  match numeral? s with
  | some (n, []) => some (.numeral n)
  | _ => named? s

def Magnitude.value : Magnitude → Float
  | numeral n => n.value
  | infinite => 1.0 / 0.0
  | undefined => 0.0 / 0.0

def Magnitude.single : Magnitude → Float32
  | numeral n => n.single
  | infinite => 1.0 / 0.0
  | undefined => 0.0 / 0.0

/-- A whole text that is a number: an optional sign and a numeral or a named value. -/
def ofChars? (s : List Char) : Option Float :=
  let (sign, body) := takeSign s
  (magnitude? body).map fun m => if sign = ['-'] then -m.value else m.value

def ofText? (s : String) : Option Float := ofChars? s.toList

/-- The same in single precision. -/
def singleOfText? (s : String) : Option Float32 :=
  let (sign, body) := takeSign s.toList
  (magnitude? body).map fun m => if sign = ['-'] then -m.single else m.single

theorem takeSign_append (s : List Char) : (takeSign s).1 ++ (takeSign s).2 = s := by
  unfold takeSign
  split
  · split <;> simp
  · rfl

theorem fraction_append (s : List Char) :
    (fraction s).1 ++ ((fraction s).2.1 ++ (fraction s).2.2) = s := by
  unfold fraction
  split <;> simp

theorem exponent?_append {s mark rest : List Char} {n : Int}
    (h : exponent? s = some (mark, n, rest)) : mark ++ rest = s := by
  cases s with
  | nil => simp [exponent?] at h
  | cons c s =>
    simp only [exponent?] at h
    split at h
    · obtain ⟨rfl, -, rfl⟩ := by simpa using h
      simp [takeSign_append]
    · simp at h

theorem numeral?_append {s rest : List Char} {n : Numeral} (h : numeral? s = some (n, rest)) :
    n.written ++ rest = s := by
  have hs := s.takeWhile_append_dropWhile (p := Char.isDigit)
  have hf := fraction_append (s.dropWhile Char.isDigit)
  simp only [numeral?] at h
  split at h
  · simp at h
  · split at h
    · rename_i he
      obtain ⟨rfl, rfl⟩ := by simpa using h
      have hm := exponent?_append he
      simp [hm, hf]
    · obtain ⟨rfl, rfl⟩ := by simpa using h
      simp [hf]

theorem numeral?_written_ne_nil {s rest : List Char} {n : Numeral}
    (h : numeral? s = some (n, rest)) : n.written ≠ [] := by
  simp only [numeral?] at h
  split at h
  · simp at h
  · rename_i hne
    split at h <;> obtain ⟨rfl, -⟩ := by simpa using h
    all_goals
      intro hnil
      simp_all

end FormulaDrawing.Number
