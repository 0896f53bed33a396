import FormulaDrawing.Raster.Basic
import FormulaDrawing.Raster.Graphic

/-! The size of the image of a drawing: its width and height, those of its view box where it has none,
or else 100. All arithmetic is in single precision. -/

namespace FormulaDrawing.Raster

structure Size where
  width : Nat
  height : Nat
deriving DecidableEq, Repr

/-- What an extent is where neither the drawing nor its view box has one. -/
def standardExtent : Float := 100

/-- One extent of a drawing: its own, or that of the view box. Percentages refer to the view box, or
else to the standard. -/
def drawnExtent (own : Option Length) (box : Option Float32) : Float32 :=
  let own := own.getD { number := 100, unit := .percent }
  match box with
  | some whole => own.dots whole
  | none =>
    if own.unit = .percent then (own.number / 100 * standardExtent).toFloat32 else own.dots 0

/-- A size in whole units, of which there is at least one. -/
def wholeUnits? (x : Float32) : Option Nat :=
  if x > 0 && x.isFinite then some (max 1 x.round.toUInt32.toNat) else none

def graphicSize? (e : Xml.Element) : Option Size := do
  let box := (attr? e "viewBox").bind viewBox?
  let length (name : String) : Option Length := (attr? e name).bind Length.ofText?
  let width ← wholeUnits? (drawnExtent (length "width") (box.map (·.1)))
  let height ← wholeUnits? (drawnExtent (length "height") (box.map (·.2)))
  return { width, height }

def scaled (scale : Float32) (n : Nat) : Nat := (Float32.ofNat n * scale).ceil.toUInt32.toNat

/-- An image has pixels, and a row of them, four bytes each, is counted in 31 bits. -/
def allocates (s : Size) : Bool := 0 < s.width && 0 < s.height && 4 * s.width < 0x80000000

def imageSize (scale : Float32) (source : String) : Except Failure Size :=
  match root? source with
  | none => .error (.parse "not a vector graphic")
  | some e =>
    match graphicSize? e with
    | none => .error (.parse "the drawing has no size")
    | some s =>
      let size : Size := { width := scaled scale s.width, height := scaled scale s.height }
      if allocates size then .ok size else .error (.allocation size.width size.height)

end FormulaDrawing.Raster
