import FormulaDrawing.Expression.Function
import FormulaDrawing.Expression.Parser
import FormulaDrawing.Style.Basic
import FormulaDrawing.Text.Ordered

/-! Named formulas. Each may override parts of the style of the text it produces. -/

namespace FormulaDrawing

open Expression

/-- `attributes`, where given, are the variables that count as read. -/
structure Formula where
  name : String
  expression : String
  fill : Option String := none
  fontSize : Option String := none
  attributes : Option (List String) := none
deriving DecidableEq, Repr

namespace Formula

/-- An expression that cannot be read within the standard limits reads nothing. -/
def expressionNames (text : String) : List String :=
  match parse {} text with
  | .ok e => e.names.filter fun n => !isBuiltin n
  | .error _ => []

def referencedNames (f : Formula) : List String :=
  match f.attributes with
  | some names => Text.nameSet (names.filterMap Text.nonBlank?)
  | none => expressionNames f.expression

def styleOver (f : Formula) (base : Style) : Style :=
  { base with
    fill := (f.fill.bind Text.nonBlank?).getD base.fill
    fontSize := (f.fontSize.bind Text.nonBlank?).getD base.fontSize }

end Formula

/-- The variables that any of the formulas reads. -/
def referencedNames (formulas : List Formula) : List String :=
  Text.nameSet (formulas.flatMap (·.referencedNames))

end FormulaDrawing
