import FormulaDrawing.Number.Numeral
import FormulaDrawing.Text.Blank

/-! Lengths and view boxes as they are written in a drawing. Lengths are worked out in single
precision, at 96 dots to the inch. -/

namespace FormulaDrawing.Raster

open Text Number

inductive Unit where
  | none | percent | em | ex | px | inch | cm | mm | pt | pc
deriving DecidableEq, Repr

def Unit.suffix : Unit → String
  | none => "" | percent => "%" | em => "em" | ex => "ex" | px => "px" | inch => "in"
  | cm => "cm" | mm => "mm" | pt => "pt" | pc => "pc"

def Unit.all : List Unit := [none, percent, em, ex, px, inch, cm, mm, pt, pc]

def Unit.ofSuffix? (s : String) : Option Unit := Unit.all.find? (·.suffix == s)

structure Length where
  number : Float
  unit : Unit

/-- Whether what follows a numeral makes it bad: an exponent without digits. Units may begin with the
same letter. -/
def brokenExponent (n : Numeral) (rest : List Char) : Bool :=
  !n.written.any (fun c => c == 'e' || c == 'E') &&
    match rest with
    | 'e' :: 'm' :: _ | 'e' :: 'x' :: _ | 'E' :: 'm' :: _ | 'E' :: 'x' :: _ => false
    | 'e' :: _ | 'E' :: _ => true
    | _ => false

def number? (s : List Char) : Option (Float × List Char) := do
  let (sign, body) := takeSign (s.dropWhile isGap)
  let (n, rest) ← numeral? body
  guard (!brokenExponent n rest)
  let x := if sign = ['-'] then -n.value else n.value
  guard x.isFinite
  return (x, rest)

def Length.ofText? (text : String) : Option Length := do
  let (number, rest) ← number? text.toList
  return { number, unit := ← Unit.ofSuffix? (String.ofList rest) }

def listed? (s : List Char) : Option (Float × List Char) := do
  let (x, rest) ← number? s
  match rest.dropWhile isGap with
  | ',' :: rest => return (x, rest)
  | rest => return (x, rest)

def letterSize : Float32 := 12

def dotsPerInch : Float32 := 96

def Length.dots (l : Length) (whole : Float32) : Float32 :=
  let n := l.number.toFloat32
  match l.unit with
  | .none | .px => n
  | .percent => whole * n / 100
  | .em => n * letterSize
  | .ex => n * letterSize / 2
  | .inch => n * dotsPerInch
  | .cm => n * dotsPerInch / 2.54
  | .mm => n * dotsPerInch / 25.4
  | .pt => n * dotsPerInch / 72
  | .pc => n * dotsPerInch / 6

/-- The extent from `start` over `size`, as far as single precision can tell the ends apart. -/
def extent? (start size : Float) : Option Float32 :=
  let low := start.toFloat32
  let high := size.toFloat32 + low
  if low.isFinite && high.isFinite && low < high && (high - low).isFinite then some (high - low)
  else none

/-- The width and the height of a view box, both of which are above zero. -/
def viewBox? (text : String) : Option (Float32 × Float32) := do
  let (x, s) ← listed? text.toList
  let (y, s) ← listed? s
  let (w, s) ← listed? s
  let (h, _) ← listed? s
  guard (w > 0 && h > 0)
  return (← extent? x w, ← extent? y h)

end FormulaDrawing.Raster
