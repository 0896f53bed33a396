/-! The text style of an element: three properties, each with a fixed default. -/

namespace FormulaDrawing

structure Style where
  fill : String := "#000000"
  fontSize : String := "12px"
  fontFamily : String := "Arial"
deriving DecidableEq, Repr

namespace Style

inductive Property where
  | fill
  | fontSize
  | fontFamily
deriving DecidableEq, Repr

def Property.name : Property → String
  | .fill => "fill"
  | .fontSize => "font-size"
  | .fontFamily => "font-family"

def Property.all : List Property := [.fill, .fontSize, .fontFamily]

def get (s : Style) : Property → String
  | .fill => s.fill
  | .fontSize => s.fontSize
  | .fontFamily => s.fontFamily

/-- The style attribute of a text that is written; the font family has its own attribute. -/
def inline (s : Style) : String := "fill:" ++ s.fill ++ ";font-size:" ++ s.fontSize

end Style

end FormulaDrawing
