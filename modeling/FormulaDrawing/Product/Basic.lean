import FormulaDrawing.Disk.Basic
import FormulaDrawing.Disk.Path
import FormulaDrawing.Engine.Request
import FormulaDrawing.Settings

/-! Products: their templates, and the attribute values of one configured instance. -/

namespace FormulaDrawing

/-- A template whose source is in a file. -/
structure Product.Sheet where
  id : String
  name : String
  kind : Kind
  file : String
  filter : Option Filter := none
  formulas : List Formula := []
deriving DecidableEq, Repr

/-- Files are looked for in the folder `base`. -/
structure Product where
  title : Option String := none
  settings : Settings := {}
  sheets : List Product.Sheet := []
  bindings : List Binding := []
  selections : List Selection := []
  base : String := ""

namespace Product

inductive Failure where
  | unreadable (cause : Disk.Fault)
  | invalid
  | templateFile (path : String) (cause : Disk.Fault)
deriving DecidableEq, Repr

def Failure.message : Failure → String
  | unreadable cause => s!"Failed to read configuration file: {cause.message}"
  | invalid => "Failed to parse configuration TOML: not a product"
  | templateFile path cause => s!"Failed to read template file {path}: {cause.message}"

def path (p : Product) (s : Sheet) : String := Disk.join p.base s.file

def Sheet.template (s : Sheet) (source : String) : Template :=
  { id := s.id, name := s.name, kind := s.kind, source, filter := s.filter, formulas := s.formulas }

def request (p : Product) (context : String) (kind : Kind) : Engine.Request :=
  { context, kind, bindings := p.bindings, selections := p.selections }

variable {m : Type → Type} [Monad m]

def loadTemplate (disk : Disk m) (p : Product) (s : Sheet) : ExceptT Failure m Template :=
  ExceptT.mk do
    return ((← disk.readText (p.path s)).mapError (.templateFile (p.path s))).map s.template

def loadTemplates (disk : Disk m) (p : Product) : ExceptT Failure m (List Template) :=
  p.sheets.mapM (loadTemplate disk p)

end Product

end FormulaDrawing
