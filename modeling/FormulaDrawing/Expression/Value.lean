import FormulaDrawing.Expression.Failure
import FormulaDrawing.Number.Rounding

/-! Values of expressions and the variables an expression may read. -/

namespace FormulaDrawing

inductive Value where
  | number (x : Float)
  | text (s : String)
deriving DecidableEq

namespace Value

def isNumber : Value → Bool
  | number _ => true
  | text _ => false

def display : Value → String
  | number x => Number.text x
  | text s => s

/-- What is written into a drawing: numbers as integers, where minus zero is zero. -/
def inscription : Value → String
  | number x =>
    let n := Number.Rounding.round .nearestEven x
    if n == 0 then "0" else Number.text n
  | text s => s

def toNumber : Value → Except Expression.Failure Float
  | number x => .ok x
  | text s => .error (.nonNumeric s)

end Value

/-- Names with their values; the first entry of a name counts. -/
abbrev Variables := List (String × Value)

namespace Variables

def find? (vs : Variables) (n : String) : Option Value := vs.lookup n

def binds (vs : Variables) (n : String) : Bool := (vs.find? n).isSome

def bind (vs : Variables) (n : String) (v : Value) : Variables := (n, v) :: vs

@[simp] theorem find?_bind (vs : Variables) (n m : String) (v : Value) :
    (vs.bind n v).find? m = if m = n then some v else vs.find? m := by
  by_cases h : m = n
  · subst h; simp [find?, bind]
  · have : (m == n) = false := by simpa using h
    simp [find?, bind, List.lookup_cons, this, h]

end Variables

end FormulaDrawing
