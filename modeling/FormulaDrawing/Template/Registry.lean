import FormulaDrawing.Drawing.Reading
import FormulaDrawing.Template.Declaration

/-! Templates under their identifiers, in the order of registration, each with the declarations found
in it so far. An operation that fails has no registry as its result, so the old one stands. -/

namespace FormulaDrawing

structure Entry where
  template : Template
  declarations : List Declaration := []
deriving DecidableEq, Repr

structure Registry where
  entries : List Entry := []
deriving DecidableEq, Repr

namespace Registry

inductive Failure where
  | notFound (id : String)
  | duplicate (id : String)
  | malformed (id : String) (cause : Drawing.Failure)
deriving DecidableEq, Repr

def Failure.message : Failure → String
  | .notFound id => s!"template not found: {id}"
  | .duplicate id => s!"duplicate template: {id}"
  | .malformed id cause => s!"template {id}: {cause.message}"

def entry? (r : Registry) (id : String) : Option Entry := r.entries.find? (·.template.id == id)

def get? (r : Registry) (id : String) : Option Template := (r.entry? id).map (·.template)

def contains (r : Registry) (id : String) : Bool := (r.entry? id).isSome

def ids (r : Registry) : List String := r.entries.map (·.template.id)

def templates (r : Registry) : List Template := r.entries.map (·.template)

def find (r : Registry) (id : String) : Except Failure Entry :=
  match r.entry? id with
  | some e => .ok e
  | none => .error (.notFound id)

def declarations (r : Registry) (id : String) : Except Failure (List Declaration) :=
  (r.find id).map (·.declarations)

def modify (r : Registry) (id : String) (f : Entry → Entry) : Registry where
  entries := r.entries.map fun e => if e.template.id = id then f e else e

def register (r : Registry) (t : Template) : Except Failure Registry :=
  if r.contains t.id then .error (.duplicate t.id)
  else .ok { entries := r.entries ++ [{ template := t }] }

def readDrawing (id source : String) : Except Failure Drawing :=
  (Drawing.read source).mapError (.malformed id)

/-- Adds a declaration unless its key is there, and says whether it was added. -/
def insertIfAbsent (r : Registry) (d : Declaration) : Except Failure (Registry × Bool) := do
  let e ← r.find d.template
  if d.listed e.declarations then return (r, false)
  else
    return (r.modify d.template fun e => { e with declarations := e.declarations ++ [d] }, true)

/-- Adds one declaration that was found; what is there already is skipped. -/
def merge (s : List Declaration × Extraction) (d : Declaration) : List Declaration × Extraction :=
  let (known, x) := s
  if d.listed known then (known, { x with skipped := x.skipped ++ [.duplicate d.name d.id] })
  else (known ++ [d], { x with added := x.added + 1 })

def extract (r : Registry) (s : Settings) (id : String) :
    Except Failure (Registry × Extraction) := do
  let e ← r.find id
  let d ← readDrawing id e.template.source
  let found := Extraction.ofDrawing s id d
  let (known, x) := found.declarations.foldl merge (e.declarations, found)
  return (r.modify id fun e => { e with declarations := known }, x)

/-- A template whose source cannot be read is not registered. -/
def registerAndExtract (r : Registry) (s : Settings) (t : Template) :
    Except Failure (Registry × Extraction) := do
  let _ ← readDrawing t.id t.source
  let r ← r.register t
  r.extract s t.id

/-- Declarations of the old source stay; a source that cannot be read is refused. -/
def update (r : Registry) (s : Settings) (id source : String) :
    Except Failure (Registry × Extraction) := do
  let _ ← readDrawing id source
  let _ ← r.find id
  (r.modify id fun e => { e with template := { e.template with source } }).extract s id

def remove (r : Registry) (id : String) : Registry where
  entries := r.entries.filter (·.template.id != id)

end Registry

end FormulaDrawing
