import FormulaDrawing.Expression.Evaluation
import FormulaDrawing.Template.Formula

/-! The results of a list of formulas. A failure is a result like any other. -/

namespace FormulaDrawing

/-- Results by name of the formula; the last one of a name counts. -/
abbrev Evaluations := List (String × Except Expression.Failure Value)

namespace Evaluations

def find? (es : Evaluations) (name : String) : Option (Except Expression.Failure Value) :=
  es.reverse.lookup name

def ofFormulas (limits : Expression.Limits) (vs : Variables) (formulas : List Formula) :
    Evaluations :=
  formulas.map fun f => (f.name, evaluate limits vs f.expression)

end Evaluations

end FormulaDrawing
