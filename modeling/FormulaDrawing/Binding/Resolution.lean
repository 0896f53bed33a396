import FormulaDrawing.Binding.Basic
import FormulaDrawing.Expression.Value
import FormulaDrawing.Number.Numeral
import FormulaDrawing.Text.Blank

/-! The variables that attribute values stand for. Custom values come first, and a variable keeps the
first number it gets. -/

namespace FormulaDrawing

open Text

/-- A value of a variable that is not a number. -/
structure Dropped where
  name : String
  attr : String
  value : String
deriving DecidableEq, Repr

structure Resolution where
  vars : Variables := []
  dropped : List Dropped := []

namespace Binding

def number? (b : Binding) : Option Float := (Number.ofText? (trimmed b.value)).filter (·.isFinite)

end Binding

namespace Resolution

/-- Names that are blank, not referenced or bound already are passed over. -/
def take (referenced : List String) (r : Resolution) (b : Binding) : Resolution :=
  match b.varName.bind nonBlank? with
  | none => r
  | some name =>
    if !referenced.contains name || r.vars.binds name then r
    else
      match b.number? with
      | some x => { r with vars := r.vars.bind name (.number x) }
      | none => { r with dropped := r.dropped ++ [{ name, attr := b.attr, value := b.value }] }

def ofBindings (bindings : List Binding) (referenced : List String) : Resolution :=
  (bindings.filter (·.custom) ++ bindings.filter (!·.custom)).foldl (take referenced) {}

end Resolution

end FormulaDrawing
