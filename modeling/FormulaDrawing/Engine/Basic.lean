import FormulaDrawing.Artifact.Store
import FormulaDrawing.Binding.Resolution
import FormulaDrawing.Engine.Generation
import FormulaDrawing.Engine.Request
import FormulaDrawing.Substitution.Basic
import FormulaDrawing.Template.Registry

/-! Templates, settings and a rasterizer, put together to generate documents. -/

namespace FormulaDrawing

structure Engine where
  settings : Settings := {}
  registry : Registry := {}
  rasterizer : Raster.Rasterizer

namespace Engine

def add (e : Engine) (t : Template) : Except Registry.Failure (Engine × Extraction) :=
  (e.registry.registerAndExtract e.settings t).map fun (r, x) => ({ e with registry := r }, x)

def update (e : Engine) (id source : String) : Except Registry.Failure (Engine × Extraction) :=
  (e.registry.update e.settings id source).map fun (r, x) => ({ e with registry := r }, x)

def remove (e : Engine) (id : String) : Engine := { e with registry := e.registry.remove id }

/-- Extracts one template again; a failure leaves the engine as it was. -/
def extractStep (s : Engine × List (Except Registry.Failure Extraction)) (id : String) :
    Engine × List (Except Registry.Failure Extraction) :=
  let (e, results) := s
  match e.registry.extract e.settings id with
  | .ok (r, x) => ({ e with registry := r }, results ++ [.ok x])
  | .error failure => (e, results ++ [.error failure])

def extractAll (e : Engine) : Engine × List (Except Registry.Failure Extraction) :=
  e.registry.ids.foldl extractStep (e, [])

def fail (t : Template) (stage : Stage) (cause : Failure) : Outcome :=
  .failed { template := t.id, stage, cause }

def produce (e : Engine) (r : Request) (t : Template) (declarations : List Declaration) :
    Outcome :=
  let vs := (Resolution.ofBindings r.bindings t.referencedNames).vars
  match Substitution.run e.settings t declarations vs with
  | .error cause => fail t (.ofFailure cause) (.malformed t.id cause)
  | .ok (document, report) =>
    match e.rasterizer document with
    | .error cause => fail t .serialized (.rasterization t.id document cause)
    | .ok image =>
      .produced { template := t.id, name := Artifact.name t.id r.context, document, image, report }

def outcome (e : Engine) (r : Request) (t : Template) : Outcome :=
  if t.kind ≠ r.kind then .skipped t.id .otherKind
  else if !t.applies r.allSelections then .skipped t.id .notApplicable
  else
    match e.registry.declarations t.id with
    | .error cause => fail t .extracted (.registry cause)
    | .ok declarations => e.produce r t declarations

def generate (e : Engine) (r : Request) : Generation :=
  .ofOutcomes (e.registry.templates.map (e.outcome r))

variable {m : Type → Type} [Monad m]

def storeOutput (store : Artifact.Store m) (context : String) (p : Output) :
    ExceptT Failure m Output := do
  let location ← ExceptT.mk do
    return (← store.put context p.name p.document.toUTF8 p.image).mapError Failure.store
  return { p with location := some location }

/-- Removes what was stored for the context, generates, and stores the outputs one by one. -/
def generateAndStore (e : Engine) (store : Artifact.Store m) (r : Request) :
    ExceptT Failure m Generation := do
  let _ ← ExceptT.mk do return (← store.removeContext r.context).mapError Failure.store
  let g := e.generate r
  let outputs ← g.outputs.mapM (storeOutput store r.context)
  return { g with outputs }

end Engine

end FormulaDrawing
