import FormulaDrawing.Text.Pieces

/-! Paths: names between slashes. A name that is empty or a single dot leads nowhere else. -/

namespace FormulaDrawing.Disk

open Text

def names (path : String) : List String :=
  ((pieces '/' path.toList).map String.ofList).filter fun n => n != "" && n != "."

def isAbsolute (path : String) : Bool := path.toList.head? == some '/'

/-- Whether a path can only lead to a folder, because a slash or a single dot ends it. -/
def endsAtFolder (path : String) : Bool :=
  match path.toList.reverse with
  | '/' :: _ | ['.'] | '.' :: '/' :: _ => true
  | _ => false

/-- The path `file` as seen from the folder `base`. -/
def join (base file : String) : String :=
  if isAbsolute file || base = "" then file
  else if base.toList.getLast? = some '/' then base ++ file
  else base ++ "/" ++ file

/-- Drops slashes and single dots behind slashes from the end of a path, which is given backwards. -/
def trimTail : List Char → List Char
  | '/' :: s => if s = [] then ['/'] else trimTail s
  | '.' :: '/' :: s => trimTail ('/' :: s)
  | s => s

/-- What is in front of the last name. -/
def parent (path : String) : String :=
  String.ofList (trimTail ((trimTail path.toList.reverse).dropWhile (· ≠ '/'))).reverse

/-- The last name, unless it leads upwards. -/
def fileName? (path : String) : Option String := (names path).getLast?.filter (· != "..")

end FormulaDrawing.Disk
