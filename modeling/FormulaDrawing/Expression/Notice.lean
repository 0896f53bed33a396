import FormulaDrawing.Expression.Failure
import FormulaDrawing.Text.Blank

/-! A failure as a notice for a terminal: the message and, where the failure has a place, the line of
the text with a pointer at that place. The columns of the text are characters, so the notice is
meant for texts in ASCII. -/

namespace FormulaDrawing.Expression

inductive Ink where
  | error
  | margin
  | gutter
  | plain

def Ink.code : Ink → String
  | .error => "31"
  | .margin => "38;5;246"
  | .gutter => "38;5;240"
  | .plain => "38;5;249"

def paint (ink : Ink) (s : String) : String := "\x1b[" ++ ink.code ++ "m" ++ s ++ "\x1b[0m"

def isLineBreak (c : Char) : Bool :=
  c == '\n' || c == '\r' || c == '\x0b' || c == '\x0c' || c == '\u0085' || c == '\u2028' ||
    c == '\u2029'

/-- One line of a text: where it starts, and its characters with the line break. -/
structure Line where
  start : Nat
  chars : List Char

/-- The lines of a text; carriage return and line feed together break one line. -/
def linesFrom (start : Nat) (line : List Char) : List Char → List Line
  | [] => if line.isEmpty then [] else [⟨start, line.reverse⟩]
  | c :: rest =>
    if isLineBreak c && !(c == '\r' && rest.head? == some '\n') then
      ⟨start, (c :: line).reverse⟩ :: linesFrom (start + line.length + 1) [] rest
    else linesFrom start (c :: line) rest

/-- The number of the last line that starts at or before `offset`, with that line. -/
def lineAt? (offset : Nat) (lines : List Line) : Option (Nat × Line) :=
  let before := lines.takeWhile (·.start ≤ offset)
  before.getLast?.map fun line => (before.length, line)

/-- The columns a character takes up: a tab reaches to the next multiple of four. -/
def widthAt (line : List Char) (column : Nat) : Nat :=
  if (line.drop column).head? = some '\t' then 4 - column % 4 else 1

/-- A row of marks under a line. Where a character is wide, `rest` fills its further columns. -/
def row (line : List Char) (width : Nat) (mark : Nat → String × String) : String :=
  String.join ((List.range width).map fun column =>
    let (first, rest) := mark column
    first ++ String.join (List.replicate (widthAt line column - 1) rest))

def sourceRow (line : List Char) (s e : Nat) : String :=
  String.join ((List.range line.length).map fun column =>
    let c := line.getD column ' '
    let shown := if Text.isBlank c then ' ' else c
    let ink : Ink := if s ≤ column ∧ column < e then .error else .plain
    String.join (List.replicate (widthAt line column) (paint ink (String.ofList [shown]))))

def underlineRow (line : List Char) (s e : Nat) : String :=
  row line (e + 2) fun column =>
    if s = e ∧ column = s then (paint .error "│", " ")
    else if column = (s + e) / 2 ∧ s < e then (paint .error "┬", paint .error "─")
    else if s ≤ column ∧ column < e then (paint .error "─", paint .error "─")
    else (" ", " ")

def arrowRow (line : List Char) (s e : Nat) : String :=
  row line (e + 2) fun column =>
    if column = (s + e) / 2 then (paint .error "╰", paint .error "─")
    else if (s + e) / 2 < column then (paint .error "─", paint .error "─")
    else (" ", " ")

/-- What stands at the pointer. -/
def Failure.label : Failure → String
  | .unexpected found _ expected =>
    match expected.texts with
    | [] => unexpectedText found
    | texts => unexpectedText found ++ " (expected " ++ ", ".intercalate texts ++ ")"
  | failure => failure.message

def Failure.notice (failure : Failure) (text name : String) : String :=
  match failure.span? with
  | none => "Error: " ++ failure.message ++ "\n"
  | some span =>
    let head := paint .error "Error:" ++ " " ++ failure.message ++ "\n"
    match lineAt? span.start (linesFrom 0 [] text.toList) with
    | none => head
    | some (number, line) =>
      let s := span.start - line.start
      let e := span.stop - line.start
      let shown := Text.trimEnd line.chars
      let digits := toString number
      let space := "".pushn ' ' digits.length
      let gutter := " " ++ paint .gutter (space ++ " │") ++ " "
      let place := s!"{name}:{number}:{s + 1}"
      head ++
        space ++ "  " ++ paint .margin "╭" ++ paint .margin "─" ++ paint .margin "[" ++ place ++
        paint .margin "]" ++ "\n" ++
        space ++ "  " ++ paint .margin "│" ++ "\n" ++
        " " ++ paint .margin (digits ++ " │") ++ " " ++ sourceRow shown s e ++ "\n" ++
        gutter ++ underlineRow shown s e ++ "\n" ++
        gutter ++ arrowRow shown s e ++ " " ++ failure.label ++ "\n" ++
        paint .margin (String.join (List.replicate (digits.length + 2) "─") ++ "╯") ++ "\n"

end FormulaDrawing.Expression
