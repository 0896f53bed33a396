/-! Selected attribute values and the condition on them that a template may carry. -/

namespace FormulaDrawing

structure Selection where
  attr : String
  value : String
deriving DecidableEq, Repr

/-- One of the values has to be selected for the attribute. -/
structure Filter where
  attr : String
  values : List String
deriving DecidableEq, Repr

def Filter.accepts (f : Filter) (selections : List Selection) : Bool :=
  selections.any fun s => s.attr == f.attr && f.values.contains s.value

end FormulaDrawing
