import FormulaDrawing.Expression.Evaluation
import FormulaDrawing.Text.Blank

/-! The increment that an attribute value adds to a price: fixed, or worked out by a formula over the
value that was typed in and the price so far. -/

namespace FormulaDrawing.Price

inductive Failure where
  | evaluation (formula : String) (cause : Expression.Failure)
  | nonNumeric (formula value : String)
deriving DecidableEq

def Failure.message : Failure → String
  | .evaluation formula cause => s!"cannot evaluate price formula '{formula}': {cause.message}"
  | .nonNumeric formula value => s!"price formula '{formula}' produced '{value}', not a number"

def vars (customValue soFar : Float) : Variables :=
  [("custom_value", .number customValue), ("price_so_far", .number soFar)]

/-- A blank formula counts as none, and a negative result as zero. -/
def increment (formula : Option String) (extra customValue soFar : Float) :
    Except Failure Float :=
  match formula.bind Text.nonBlank? with
  | none => .ok extra
  | some f =>
    match evaluate {} (vars customValue soFar) f with
    | .error cause => .error (.evaluation f cause)
    | .ok (.text s) => .error (.nonNumeric f s)
    | .ok (.number x) => .ok (if x < 0 then 0 else x)

end FormulaDrawing.Price
