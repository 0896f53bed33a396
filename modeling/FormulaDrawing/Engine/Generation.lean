import FormulaDrawing.Artifact.Name
import FormulaDrawing.Drawing.Failure
import FormulaDrawing.Raster.Basic
import FormulaDrawing.Substitution.Report
import FormulaDrawing.Template.Registry

/-! What a run over all templates produced. -/

namespace FormulaDrawing.Engine

inductive Stage where
  | parsed
  | extracted
  | variablesResolved
  | evaluated
  | mutated
  | serialized
deriving DecidableEq, Repr

def Stage.text : Stage → String
  | parsed => "Parsed"
  | extracted => "Extracted"
  | variablesResolved => "VariablesResolved"
  | evaluated => "Evaluated"
  | mutated => "Mutated"
  | serialized => "Serialized"

/-- A document that cannot be written has come through all that is in front of writing. -/
def Stage.ofFailure : Drawing.Failure → Stage
  | .unwritten _ => .serialized
  | _ => .parsed

inductive Failure where
  | malformed (template : String) (cause : Drawing.Failure)
  /-- The written drawing is kept, since it can still be used. -/
  | rasterization (template document : String) (cause : Raster.Failure)
  | registry (cause : Registry.Failure)
  | store (cause : Artifact.Failure)
deriving DecidableEq, Repr

def Failure.message : Failure → String
  | malformed template cause => s!"template {template}: {cause.message}"
  | rasterization template _ cause => s!"template {template}: rasterization failed: {cause.message}"
  | registry cause => s!"template error: {cause.message}"
  | store cause => s!"storage error: {cause.message}"

structure Output where
  template : String
  name : String
  document : String
  image : ByteArray
  report : Substitution.Report
  location : Option Artifact.Location := none

inductive SkipReason where
  | otherKind
  | notApplicable
deriving DecidableEq, Repr

def SkipReason.text : SkipReason → String
  | otherKind => "OtherKind"
  | notApplicable => "NotApplicable"

structure TemplateFailure where
  template : String
  stage : Stage
  cause : Failure
deriving DecidableEq, Repr

inductive Outcome where
  | produced (p : Output)
  | skipped (template : String) (reason : SkipReason)
  | failed (f : TemplateFailure)

namespace Outcome

def output? : Outcome → Option Output
  | produced p => some p
  | _ => none

def skipped? : Outcome → Option (String × SkipReason)
  | skipped template reason => some (template, reason)
  | _ => none

def failure? : Outcome → Option TemplateFailure
  | failed f => some f
  | _ => none

end Outcome

structure Generation where
  outputs : List Output := []
  skipped : List (String × SkipReason) := []
  failures : List TemplateFailure := []

def Generation.ofOutcomes (os : List Outcome) : Generation where
  outputs := os.filterMap (·.output?)
  skipped := os.filterMap (·.skipped?)
  failures := os.filterMap (·.failure?)

end FormulaDrawing.Engine
