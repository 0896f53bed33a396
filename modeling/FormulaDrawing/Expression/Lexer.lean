import FormulaDrawing.Expression.Failure
import FormulaDrawing.Text.Blank

/-! A text as a list of lexemes. Gaps between tokens are skipped; a character that begins neither a
gap nor a token refuses the whole text. -/

namespace FormulaDrawing.Expression

open Text

/-- The lexemes of `s`, which begins at byte `offset` of the whole text. -/
def lexFrom (offset : Nat) (s : List Char) : Except Failure (List Lexeme) :=
  match s with
  | [] => .ok []
  | c :: t =>
    if isGap c then lexFrom (offset + c.utf8Size) t
    else
      match _h : Token.read? (c :: t) with
      | none => .error (.invalidToken c ⟨offset, offset + c.utf8Size⟩)
      | some (token, text, rest) =>
        let stop := offset + byteLength text
        (lexFrom stop rest).map (⟨token, ⟨offset, stop⟩⟩ :: ·)
termination_by s.length
decreasing_by
  · simp
  · exact Token.length_lt_of_read? _h

def lex (text : String) : Except Failure (List Lexeme) := lexFrom 0 text.toList

end FormulaDrawing.Expression
