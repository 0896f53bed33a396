import FormulaDrawing.CommandLine.Command
import FormulaDrawing.Engine.Basic
import FormulaDrawing.Expression.Notice
import FormulaDrawing.Price
import FormulaDrawing.Product.Reading

/-! What each command prints and the code it ends with: 0, or 1 where something failed, or 2 where the
arguments make no command. -/

namespace FormulaDrawing.CommandLine

structure Transcript where
  code : Nat := 0
  output : String := ""
  errors : String := ""
deriving DecidableEq, Repr

def lines (ls : List String) : String := String.join (ls.map (· ++ "\n"))

def usage : String := lines [
  "Usage:",
  "  extract <FILE> [--config <PRODUCT>]",
  "  eval <EXPRESSION> [--var NAME=VALUE]...",
  "  generate <PRODUCT> --context <ID> [--kind <KIND>] [--out <DIR>]",
  "  price <FORMULA> [--custom-value N] [--price-so-far N] [--price-extra N]"]

abbrev Run (m : Type → Type) := ExceptT String m

section

variable {m : Type → Type} [Monad m]

def orText {ε α : Type} (text : ε → String) (action : ExceptT ε m α) : Run m α :=
  ExceptT.mk do return (← action.run).mapError text

def loadProduct (disk : Disk m) (path : String) : Run m Product :=
  orText (fun e => s!"Error loading product '{path}': {e.message}\n") (Product.load disk path)

def declarationLine (d : Declaration) : String :=
  s!"{d.id}\t{d.name}\tfill={d.style.fill} font-size={d.style.fontSize} " ++
    s!"font-family={d.style.fontFamily}"

def settingsOf (disk : Disk m) : Option String → Run m Settings
  | some path => do return (← loadProduct disk path).settings
  | none => return {}

def runExtract (disk : Disk m) (file : String) (product : Option String) : Run m Transcript := do
  let settings ← settingsOf disk product
  let source ← orText (fun e : Disk.Fault => s!"Error reading file '{file}': {e.message}\n")
    (ExceptT.mk (disk.readText file))
  let drawing ← orText (fun e => s!"Error parsing '{file}': {e.message}\n")
    (ExceptT.mk (pure (Drawing.read source)))
  let x := Extraction.ofDrawing settings file drawing
  return {
    output := lines (x.declarations.map declarationLine)
    errors := lines (x.skipped.map fun s => "skipped: " ++ s.message) }

def runEval (expression : String) (vs : Variables) : Except String Transcript :=
  match evaluate {} vs expression with
  | .ok v => .ok { output := v.display ++ "\n" }
  | .error e => .error (e.notice expression "<expression>")

def runPrice (formula : Option String) (extra customValue soFar : Float) :
    Except String Transcript :=
  match Price.increment formula extra customValue soFar with
  | .ok x => .ok { output := Number.text x ++ "\n" }
  | .error (.evaluation f e) => .error (e.notice f "<formula>")
  | .error e => .error s!"Error: {e.message}\n"

def addTemplate (s : Engine × List String) (t : Template) : Except String (Engine × List String) :=
  match s.1.add t with
  | .ok (e, x) => .ok (e, s.2 ++ x.skipped.map fun k => s!"{t.id}: skipped: {k.message}")
  | .error failure => .error s!"Error in template '{t.id}': {failure.message}\n"

def outputLine (o : Engine.Output) : String :=
  let place := (o.location.map (·.document)).getD o.name
  s!"{o.template}\t{place}\tsubstituted={o.report.substituted} failed={o.report.failed}"

def summary (g : Engine.Generation) : List String :=
  g.outputs.map outputLine ++
    g.skipped.map fun (template, reason) => s!"{template}\tskipped ({reason.text})"

def failureLine (f : Engine.TemplateFailure) : String :=
  s!"{f.template}\tfailed at {f.stage.text}: {f.cause.message}"

def generation (disk : Disk m) (e : Engine) (r : Engine.Request) :
    Option String → Run m Engine.Generation
  | some folder => orText (fun e => s!"Error: {e.message}\n")
      (e.generateAndStore (Artifact.Folder.store disk folder) r)
  | none => return e.generate r

def loadAll (disk : Disk m) (path : String) : Run m (Product × List Template) := do
  let p ← loadProduct disk path
  let templates ← orText (fun e => s!"Error loading templates: {e.message}\n") (p.loadTemplates disk)
  return (p, templates)

/-- Adds templates up to the first that is refused. The lines on what was skipped stay. -/
def addAll (s : Engine × List String) : List Template → Except String Engine × List String
  | [] => (.ok s.1, s.2)
  | t :: ts =>
    match addTemplate s t with
    | .ok next => addAll next ts
    | .error text => (.error text, s.2)

def generationTranscript (notes : List String) : Except String Engine.Generation → Transcript
  | .error text => { code := 1, errors := lines notes ++ text }
  | .ok g => {
    code := if g.failures.isEmpty then 0 else 1
    output := lines (summary g)
    errors := lines (notes ++ g.failures.map failureLine) }

def runGenerate (rasterizer : Raster.Rasterizer) (disk : Disk m) (path context : String)
    (kind : Kind) (folder : Option String) : m Transcript := do
  match ← (loadAll disk path).run with
  | .error text => return generationTranscript [] (.error text)
  | .ok (p, templates) =>
    let start : Engine := { settings := p.settings, rasterizer }
    match addAll (start, []) templates with
    | (.error text, notes) => return generationTranscript notes (.error text)
    | (.ok e, notes) =>
      return generationTranscript notes
        (← (generation disk e (p.request context kind) folder).run)

def finish (result : Except String Transcript) : Transcript :=
  match result with
  | .ok t => t
  | .error text => { code := 1, errors := text }

def Command.run (rasterizer : Raster.Rasterizer) (disk : Disk m) : Command → m Transcript
  | .extract file product => do return finish (← (runExtract disk file product).run)
  | .eval expression vs => return finish (runEval expression vs)
  | .generate product context kind folder =>
    runGenerate rasterizer disk product context kind folder
  | .price formula extra customValue soFar =>
    return finish (runPrice formula extra customValue soFar)
  | .help => return { output := usage }

/-- The whole program: what it prints for its arguments, given a disk. -/
def run (rasterizer : Raster.Rasterizer) (disk : Disk m) (args : List String) : m Transcript :=
  match Command.ofArguments? args with
  | some c => c.run rasterizer disk
  | none => return { code := 2, errors := usage }

end

end FormulaDrawing.CommandLine
