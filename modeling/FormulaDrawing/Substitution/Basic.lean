import FormulaDrawing.Drawing.Reading
import FormulaDrawing.Drawing.Writing
import FormulaDrawing.Substitution.Plan

/-! Carrying out a plan: the marked elements of a drawing are replaced by the results of their
formulas, or flagged where a formula failed. -/

namespace FormulaDrawing.Substitution

/-- The root cannot be replaced, and a flagged root gets no warning beside it. -/
def Edit.apply (s : Settings) (d : Drawing) : Edit → Drawing
  | .replace node element text =>
    let (d, new) := d.createElement element (some text)
    (d.replace? node new).getD d
  | .flag node warning =>
    let d := d.modifyElement node (·.addClass s.errorClass)
    match d.parent? node with
    | none => d
    | some parent =>
      let (d, new) := d.createElement warning (some s.warningGlyph)
      d.append parent new

def styleRule (errorClass : String) : String :=
  "." ++ errorClass ++ " \x7bfont-style: italic; text-decoration: underline;\x7d"

/-- Puts the rule for the error class in front of everything else. -/
def addStyleRule (s : Settings) (d : Drawing) : Drawing :=
  let (d, new) := d.createElement { name := "style" } (some (styleRule s.errorClass))
  d.insert d.root 0 new

def apply (i : Input) (d : Drawing) : Drawing × Report :=
  let steps := plan i d
  let edited := (steps.filterMap (·.1)).foldl (Edit.apply i.settings) d
  (if i.settings.errorStyle then addStyleRule i.settings edited else edited, steps.map (·.2))

def run (s : Settings) (t : Template) (declarations : List Declaration) (vs : Variables) :
    Except Drawing.Failure (String × Report) := do
  let d ← Drawing.read t.source
  let evaluations := Evaluations.ofFormulas s.limits vs t.formulas
  let (d, report) := apply { settings := s, formulas := t.formulas, declarations, evaluations } d
  let document ← d.writeTo .memory
  return (document, report)

end FormulaDrawing.Substitution
