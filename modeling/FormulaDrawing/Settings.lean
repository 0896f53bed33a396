import FormulaDrawing.Expression.Parser
import FormulaDrawing.Style.Resolver

/-! What can be set about reading templates and writing results. -/

namespace FormulaDrawing

structure Settings where
  /-- The class of the elements that stand for a formula. -/
  markerClass : String := "formula"
  /-- The class given to an element whose formula failed. -/
  errorClass : String := "formula-eval-error"
  /-- The attributes that may name the formula, after the text of an element. -/
  labels : List String := ["aria-label", "aria-description"]
  defaultStyle : Style := {}
  /-- The text of the warning beside an element whose formula failed. -/
  warningGlyph : String := "!"
  /-- How far to the right of the element the warning stands. -/
  warningOffset : Float := 10
  warningFill : String := "red"
  warningFontSize : String := "10px"
  /-- Whether a style rule for the error class is written. -/
  errorStyle : Bool := true
  limits : Expression.Limits := {}

def Settings.resolver (s : Settings) : Style.Resolver := { defaults := s.defaultStyle }

end FormulaDrawing
