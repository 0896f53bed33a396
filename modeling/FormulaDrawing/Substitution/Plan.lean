import FormulaDrawing.Position
import FormulaDrawing.Substitution.Evaluations
import FormulaDrawing.Substitution.Report
import FormulaDrawing.Template.Declaration

/-! What is to be done with each marked element. All of it is worked out on the drawing as it was
read, before anything is changed. -/

namespace FormulaDrawing.Substitution

inductive Edit where
  /-- Puts an element with this text in the place of the node. -/
  | replace (node : Handle) (element : Element) (text : String)
  /-- Gives the node the error class and puts the warning at the end of its parent. -/
  | flag (node : Handle) (warning : Element)
deriving DecidableEq, Repr

/-- What the plan for a template rests on. -/
structure Input where
  settings : Settings
  formulas : List Formula
  declarations : List Declaration
  evaluations : Evaluations

/-- The style declared for the element, or its own style if there is no such declaration. -/
def baseStyle (i : Input) (d : Drawing) (h : Handle) (name id : String) : Style :=
  match i.declarations.find? fun x => x.name == name && x.id == id with
  | some x => x.style
  | none => i.settings.resolver.resolve d h

/-- The base style under the overrides of the first formula of that name. -/
def textStyle (i : Input) (d : Drawing) (h : Handle) (name id : String) : Style :=
  let base := baseStyle i d h name id
  (i.formulas.find? (·.name == name)).elim base (·.styleOver base)

/-- A transformation that is not blank stays, as it is written. -/
def transform? (e : Element) : Option String :=
  (e.attr? "transform").filter fun t => (Text.nonBlank? t).isSome

def replacement (e : Element) (id : String) (style : Style) : Element :=
  let place := Position.ofElement e
  let new : Element := { name := "text" }
  let new := ((new.setAttr "id" id).setAttr "x" place.x).setAttr "y" place.y
  let new := (new.setAttr "style" style.inline).setAttr "font-family" style.fontFamily
  match transform? e with
  | some t => new.setAttr "transform" t
  | none => new

def warning (s : Settings) (e : Element) : Element :=
  let place := (Position.ofElement e).shift s.warningOffset
  let new : Element := { name := "text" }
  let new := (new.setAttr "x" place.x).setAttr "y" place.y
  let new := (new.setAttr "fill" s.warningFill).setAttr "font-size" s.warningFontSize
  new.setAttr "font-weight" "bold"

/-- The edit for one marked element, if any, and what is reported of it. -/
def planNode (i : Input) (d : Drawing) (h : Handle) (e : Element) : Option Edit × NodeReport :=
  let name := d.formulaName? i.settings.labels h
  match name, e.id? with
  | some n, some id =>
    match i.evaluations.find? n with
    | some (.ok v) =>
      (some (.replace h (replacement e id (textStyle i d h n id)) v.inscription),
        ⟨id, n, .substituted v.inscription⟩)
    | some (.error cause) => (some (.flag h (warning i.settings e)), ⟨id, n, .failed cause⟩)
    | none => (none, ⟨id, n, .untouched⟩)
  | _, id => (none, ⟨id, name, .untouched⟩)

def plan (i : Input) (d : Drawing) : List (Option Edit × NodeReport) :=
  (d.marked i.settings.markerClass).filterMap fun h => (d.element? h).map (planNode i d h)

end FormulaDrawing.Substitution
