import FormulaDrawing.Settings
import FormulaDrawing.Template.Basic

/-! The marked elements of a drawing. Each declares that the formula it names belongs at its
identifier; those that lack one of the two, or repeat an earlier element, are skipped. -/

namespace FormulaDrawing

open Text

structure Declaration where
  name : String
  id : String
  template : String
  style : Style := {}
deriving DecidableEq, Repr

def Declaration.key (d : Declaration) : String × String × String := (d.name, d.id, d.template)

/-- Whether a declaration with the key of `d` is listed. -/
def Declaration.listed (d : Declaration) (ds : List Declaration) : Bool := ds.any (·.key == d.key)

inductive Skipped where
  | missingId (name : String)
  | missingName (id : Option String)
  | duplicate (name id : String)
deriving DecidableEq, Repr

def Skipped.message : Skipped → String
  | missingId name => s!"formula '{name}' is on a node without id"
  | missingName (some id) => s!"node '{id}' has no formula name"
  | missingName none => "node without id has no formula name"
  | duplicate name id => s!"formula '{name}' on node '{id}' is already declared"

/-- What was found in a template, and how many declarations among it were new. -/
structure Extraction where
  template : String
  declarations : List Declaration := []
  added : Nat := 0
  skipped : List Skipped := []
deriving DecidableEq, Repr

namespace Drawing

def marked (d : Drawing) (markerClass : String) : List Handle :=
  d.elements.filter fun h => (d.element? h).any (·.hasClass markerClass)

/-- The texts of one element that may name a formula. -/
def nameTexts (d : Drawing) (labels : List String) (h : Handle) : List String :=
  d.leadingText h :: labels.filterMap (d.attr? h)

/-- A name is trimmed and stands without double braces. -/
def cleanName? (s : String) : Option String :=
  nonBlank? (String.ofList (erasePairs '\x7d' (erasePairs '\x7b' s.toList)))

/-- The formula that an element names itself or through an element below it: the first text that
is not blank counts, even if nothing is left of it. -/
def formulaName? (d : Drawing) (labels : List String) (h : Handle) : Option String :=
  (((h :: d.descendantElements h).flatMap (d.nameTexts labels)).find? fun s =>
    (nonBlank? s).isSome).bind cleanName?

end Drawing

namespace Extraction

/-- Takes one marked element into account. -/
def take (s : Settings) (d : Drawing) (x : Extraction) (h : Handle) : Extraction :=
  match d.formulaName? s.labels h, d.id? h with
  | none, id => { x with skipped := x.skipped ++ [.missingName id] }
  | some name, none => { x with skipped := x.skipped ++ [.missingId name] }
  | some name, some id =>
    let found : Declaration := { name, id, template := x.template, style := s.resolver.resolve d h }
    if found.listed x.declarations then { x with skipped := x.skipped ++ [.duplicate name id] }
    else { x with declarations := x.declarations ++ [found] }

/-- What a drawing declares, with nothing counted as new. -/
def ofDrawing (s : Settings) (template : String) (d : Drawing) : Extraction :=
  (d.marked s.markerClass).foldl (take s d) { template }

end Extraction

end FormulaDrawing
