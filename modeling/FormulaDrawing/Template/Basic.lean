import FormulaDrawing.Template.Filter
import FormulaDrawing.Template.Formula

/-! Templates: the source of a drawing with the formulas for its marked elements. -/

namespace FormulaDrawing

inductive Kind where
  | fabrication
  | procurement
deriving DecidableEq, Repr

namespace Kind

def text : Kind → String
  | fabrication => "fabrication"
  | procurement => "procurement"

def ofText? (s : String) : Option Kind := [fabrication, procurement].find? (·.text == s)

end Kind

structure Template where
  id : String
  name : String
  kind : Kind := .fabrication
  source : String
  filter : Option Filter := none
  formulas : List Formula := []
deriving DecidableEq, Repr

namespace Template

def filename (t : Template) : String := t.name ++ ".svg"

def formula? (t : Template) (name : String) : Option Formula := t.formulas.find? (·.name == name)

/-- A template without a filter always applies. -/
def applies (t : Template) (selections : List Selection) : Bool :=
  t.filter.all (·.accepts selections)

def referencedNames (t : Template) : List String := FormulaDrawing.referencedNames t.formulas

end Template

end FormulaDrawing
