import FormulaDrawing.Binding.Basic
import FormulaDrawing.Template.Basic

/-! What is to be generated: for which context, of which kind, and from which attribute values. -/

namespace FormulaDrawing.Engine

structure Request where
  context : String
  kind : Kind := .fabrication
  bindings : List Binding := []
  selections : List Selection := []
deriving DecidableEq, Repr

/-- The explicit selections and behind them the value of every binding. -/
def Request.allSelections (r : Request) : List Selection :=
  r.selections ++ r.bindings.map (·.selection)

end FormulaDrawing.Engine
