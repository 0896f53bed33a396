/-! Turning a written drawing into an image. Any function with the type of a rasterizer will do. -/

namespace FormulaDrawing.Raster

inductive Failure where
  | parse (cause : String)
  | allocation (width height : Nat)
  | encode (cause : String)
  | unavailable (cause : String)
deriving DecidableEq, Repr

def Failure.message : Failure → String
  | parse cause => s!"cannot read document for rasterization: {cause}"
  | allocation width height => s!"cannot allocate a {width}x{height} image"
  | encode cause => s!"cannot encode image: {cause}"
  | unavailable cause => s!"no rasterizer available: {cause}"

abbrev Rasterizer := String → Except Failure ByteArray

/-- Stands in where no rasterizer is built in. -/
def unavailable : Rasterizer := fun _ =>
  .error (.unavailable "built without the `raster` feature")

end FormulaDrawing.Raster
