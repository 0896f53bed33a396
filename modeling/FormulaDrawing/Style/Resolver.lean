import FormulaDrawing.Drawing.Basic
import FormulaDrawing.Style.Basic
import FormulaDrawing.Style.Inline

/-! The style of an element of a drawing. Each property is looked up on its own along a list of
sources, the first of which that has a value counts. -/

namespace FormulaDrawing.Style

open Text

inductive Source where
  /-- The presentation attribute, which has the property's name. -/
  | presentation
  | inline
  /-- Both, of each element below in document order. -/
  | below
deriving DecidableEq, Repr

def ofAttribute? (p : Property) (e : Element) : Option String := (e.attr? p.name).bind nonBlank?

def ofInline? (p : Property) (e : Element) : Option String :=
  (e.attr? "style").bind fun s => inlineValue? s p.name

def ofElement? (p : Property) (e : Element) : Option String :=
  match ofAttribute? p e with
  | some v => some v
  | none => ofInline? p e

def Source.find? (d : Drawing) (h : Handle) (p : Property) : Source → Option String
  | .presentation => (d.element? h).bind (ofAttribute? p)
  | .inline => (d.element? h).bind (ofInline? p)
  | .below => (d.descendantElements h).findSome? fun n => (d.element? n).bind (ofElement? p)

structure Resolver where
  order : List Source := [.presentation, .inline, .below]
  defaults : Style := {}

namespace Resolver

def lookup? (r : Resolver) (d : Drawing) (h : Handle) (p : Property) : Option String :=
  r.order.findSome? (·.find? d h p)

def resolve (r : Resolver) (d : Drawing) (h : Handle) : Style where
  fill := (r.lookup? d h .fill).getD r.defaults.fill
  fontSize := (r.lookup? d h .fontSize).getD r.defaults.fontSize
  fontFamily := (r.lookup? d h .fontFamily).getD r.defaults.fontFamily

/-- A given value, trimmed, or the default where it is blank. -/
def orDefault (r : Resolver) (given : Option String) (p : Property) : String :=
  (given.bind nonBlank?).getD (r.defaults.get p)

end Resolver

end FormulaDrawing.Style
