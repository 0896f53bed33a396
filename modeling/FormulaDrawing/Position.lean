import FormulaDrawing.Drawing.Element
import FormulaDrawing.Number.Numeral
import FormulaDrawing.Number.Text

/-! Where a text goes that takes the place of an element. A path has no place of its own, so the
first point of its data stands for one. -/

namespace FormulaDrawing

open Text Number

/-- Coordinates as they are written in attributes. -/
structure Position where
  x : String := "0"
  y : String := "0"
deriving DecidableEq, Repr

namespace Position

/-- White space and commas stand between the numbers of path data. -/
def isSeparator (c : Char) : Bool := isBlank c || c == ','

def coordinate? (s : List Char) : Option (String × List Char) :=
  let (sign, body) := takeSign (s.dropWhile isSeparator)
  (numeral? body).map fun (n, rest) => (String.ofList (sign ++ n.written), rest)

/-- The two numbers behind the leading command letter. -/
def ofPath? (data : String) : Option Position :=
  match trimStart data.toList with
  | [] => none
  | c :: s => do
    guard c.isAlpha
    let (x, s) ← coordinate? s
    let (y, _) ← coordinate? s
    return { x, y }

def ofAttribute (e : Element) (name : String) : String := ((e.attr? name).bind nonBlank?).getD "0"

def ofElement (e : Element) : Position :=
  if e.localName = "path" then ((e.attr? "d").bind ofPath?).getD {}
  else { x := ofAttribute e "x", y := ofAttribute e "y" }

/-- The place `dx` to the right. Where a coordinate is not a number both count as zero. -/
def shift (p : Position) (dx : Float) : Position :=
  match ofText? (trimmed p.x), ofText? (trimmed p.y) with
  | some x, some y => { x := Number.text (x + dx), y := Number.text y }
  | _, _ => { x := Number.text (0 + dx), y := Number.text 0 }

end Position

end FormulaDrawing
