import FormulaDrawing.Text.Blank
import FormulaDrawing.Text.Pieces

/-! Style attributes: pieces between semicolons, each a key and a value around its first colon. The
case of a key does not count, and of two pieces with one key the first does. -/

namespace FormulaDrawing.Style

open Text

/-- A piece without a colon, a key or a value is none. -/
def pair? (piece : List Char) : Option (String × String) := do
  let (key, value) ← splitFirst? [':'] piece
  let key ← nonBlank? (String.ofList key)
  let value ← nonBlank? (String.ofList value)
  return (key, value)

def keepFirst (kept : List (String × String)) (p : String × String) : List (String × String) :=
  if kept.any fun q => equalIgnoringCase q.1 p.1 then kept else kept ++ [p]

def inlinePairs (style : String) : List (String × String) :=
  ((pieces ';' style.toList).filterMap pair?).foldl keepFirst []

def inlineValue? (style key : String) : Option String :=
  ((inlinePairs style).find? fun p => equalIgnoringCase p.1 key).map (·.2)

end FormulaDrawing.Style
