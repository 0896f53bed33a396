import FormulaDrawing.Template.Filter

/-! The values of the attributes of a configured product. -/

namespace FormulaDrawing

/-- An attribute value. It stands for a variable where one is named; `custom` values were typed in
and not picked from a list. -/
structure Binding where
  attr : String
  value : String
  varName : Option String := none
  custom : Bool := false
deriving DecidableEq, Repr

def Binding.selection (b : Binding) : Selection := { attr := b.attr, value := b.value }

end FormulaDrawing
