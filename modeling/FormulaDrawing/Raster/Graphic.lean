import FormulaDrawing.Raster.Length
import FormulaDrawing.Xml.Document

/-! A vector graphic: a well-formed document with an `svg` element at the root. Only elements that are
known are looked into, and they may not be nested too deeply. -/

namespace FormulaDrawing.Raster

def vectorSpace : String := Xml.address ["2000", "svg"]

def linkSpace : String := Xml.address ["1999", "xlink"]

/-- Elements whose children are drawn, or used for drawing. -/
def containers : List String := [
  "a", "circle", "clipPath", "defs", "ellipse", "feBlend", "feColorMatrix", "feComponentTransfer",
  "feComposite", "feConvolveMatrix", "feDiffuseLighting", "feDisplacementMap", "feDistantLight",
  "feDropShadow", "feFlood", "feFuncA", "feFuncB", "feFuncG", "feFuncR", "feGaussianBlur", "feImage",
  "feMerge", "feMergeNode", "feMorphology", "feOffset", "fePointLight", "feSpecularLighting",
  "feSpotLight", "feTile", "feTurbulence", "filter", "g", "image", "line", "linearGradient",
  "marker", "mask", "path", "pattern", "polygon", "polyline", "radialGradient", "rect", "stop",
  "svg", "switch", "symbol", "textPath", "tref", "tspan"]

/-- Elements of vector graphics are in their namespace or in none. -/
def isVector (e : Xml.Element) : Bool :=
  e.space.all fun space => space == vectorSpace || space == ""

def isContainer (e : Xml.Element) : Bool := isVector e && containers.contains e.base

def maxNesting : Nat := 1024

/-- Whether the nodes that are looked into are nested too deeply. `levels` are those of the children
of the open elements, as far as these are looked into. -/
def tooDeep (levels : List (Option Nat)) : List Xml.Event → Bool
  | [] => false
  | event :: events =>
    let level := levels.headD (some 0)
    match event with
    | .ends => tooDeep levels.tail events
    | .leaf => level.any (maxNesting < ·) || tooDeep levels events
    | .begins e =>
      level.any (maxNesting < ·) ||
        tooDeep ((if isContainer e then level.map (· + 1) else none) :: levels) events

/-- The root element of the graphic that a text is. -/
def root? (source : String) : Option Xml.Element := do
  let events ← Xml.read? source
  guard (!tooDeep [] events)
  match events.find? (· != .leaf) with
  | some (.begins e) => (some e).filter fun e => isVector e && e.base == "svg"
  | _ => none

/-- The value of an attribute in one of the namespaces that count, or in none. -/
def attr? (e : Xml.Element) (base : String) : Option String :=
  (e.attributes.find? fun a => a.base == base &&
    a.space.all [vectorSpace, linkSpace, Xml.reservedSpace].contains).map (·.value)

end FormulaDrawing.Raster
