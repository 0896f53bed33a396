import FormulaDrawing.Text.Pieces

/-! Names of artifacts. A name holds the template and the context that the artifact was made for, and
can be split into them again because neither holds the mark between them. -/

namespace FormulaDrawing.Artifact

open Text

def contextMark : List Char := "_line_".toList

def opening : List Char := "blueprint_".toList

def ending : List Char := "_evaluated".toList

def name (template context : String) : String :=
  String.ofList (opening ++ template.toList ++ contextMark ++ context.toList ++ ending)

def parts? (name : String) : Option (String × String) := do
  let s ← after? opening name.toList
  let s ← before? ending s
  let (template, context) ← splitFirst? contextMark s
  return (String.ofList template, String.ofList context)

def documentFile (name : String) : String := name ++ ".svg"

def imageFile (name : String) : String := name ++ ".png"

def stem? (file : String) : Option String :=
  (match before? ".svg".toList file.toList with
    | some s => some s
    | none => before? ".png".toList file.toList).map String.ofList

/-- Whether a file holds an artifact made for exactly this context. -/
def belongsTo (file context : String) : Bool :=
  ((stem? file).bind parts?).any (·.2 == context)

inductive IdFault where
  | empty
  | separator
  | twoDots
  | mark
  | foreign
deriving DecidableEq, Repr

def IdFault.reason : IdFault → String
  | empty => "empty"
  | separator => "contains a path separator"
  | twoDots => "contains '..'"
  | mark => "contains '_line_'"
  | foreign => "not an artifact name of its context"

inductive Failure where
  | invalidId (id : String) (fault : IdFault)
  | write (path cause : String)
  | remove (path cause : String)
  | list (path cause : String)
deriving DecidableEq, Repr

def Failure.message : Failure → String
  | invalidId id fault => s!"invalid artifact id '{id}': {fault.reason}"
  | write path cause => s!"cannot write {path}: {cause}"
  | remove path cause => s!"cannot remove {path}: {cause}"
  | list path cause => s!"cannot list {path}: {cause}"

def isSeparator (c : Char) : Bool := c == '/' || c == '\\' || c == '\x00'

def idFault? (id : String) : Option IdFault :=
  let s := id.toList
  if s.isEmpty then some .empty
  else if s.any isSeparator then some .separator
  else if Text.contains ['.', '.'] s then some .twoDots
  else if Text.contains contextMark s then some .mark
  else none

def checkId (id : String) : Except Failure Unit :=
  match idFault? id with
  | some fault => .error (.invalidId id fault)
  | none => .ok ()

/-- A name has to be that of an artifact made for the context, with two valid parts. -/
def check (context name : String) : Except Failure Unit := do
  checkId context
  match (parts? name).filter (·.2 == context) with
  | some (template, _) => checkId template
  | none => .error (.invalidId name .foreign)

structure Location where
  context : String
  document : String
  image : String
deriving DecidableEq, Repr

end FormulaDrawing.Artifact
