import FormulaDrawing.Product.Basic
import FormulaDrawing.Toml.Document

/-! A product from the document that describes it. Keys that mean nothing here are passed over; a
member of the wrong type or a required one that is missing spoils the whole. -/

namespace FormulaDrawing.Product

open Toml (Datum)

/-- The members of a record: by name in a table, by place in an array. -/
abbrev Members := String → Nat → Option Datum

def members? : Datum → Option Members
  | .table _ es => some fun name _ => es.lookup name
  | .array vs => some fun _ i => vs[i]?
  | .tables ts => some fun _ i => ts[i]?.map (.table .header)
  | .moment _ => some fun _ _ => none
  | _ => none

def string? : Datum → Option String
  | .string s => some s
  | _ => none

def number? : Datum → Option Float
  | .float x => some x
  | .integer n => some (.ofInt n)
  | _ => none

def boolean? : Datum → Option Bool
  | .boolean b => some b
  | _ => none

def count? : Datum → Option Nat
  | .integer n => if 0 ≤ n then some n.toNat else none
  | _ => none

def list? {α : Type} (read : Datum → Option α) : Datum → Option (List α)
  | .array vs => vs.mapM read
  | .tables ts => ts.mapM fun es => read (.table .header es)
  | _ => none

def optional {α : Type} (read : Datum → Option α) (default : α) : Option Datum → Option α
  | some v => read v
  | none => some default

def maybe {α : Type} (read : Datum → Option α) : Option Datum → Option (Option α) :=
  optional (fun v => (read v).map some) none

def isEmpty : Datum → Bool
  | .table _ [] | .array [] | .tables [] => true
  | _ => false

/-- A kind is given by its name, or by an empty member of that name. -/
def kind? : Datum → Option Kind
  | .string s => Kind.ofText? s
  | .table _ [(name, v)] => if isEmpty v then Kind.ofText? name else none
  | _ => none

def style? (v : Datum) : Option Style := do
  let m ← members? v
  let fill ← optional string? ({} : Style).fill (m "fill" 0)
  let fontSize ← optional string? ({} : Style).fontSize (m "font_size" 1)
  let fontFamily ← optional string? ({} : Style).fontFamily (m "font_family" 2)
  return { fill, fontSize, fontFamily }

def settings? (v : Datum) : Option Settings := do
  let m ← members? v
  let s : Settings := {}
  let markerClass ← optional string? s.markerClass (m "marker_class" 0)
  let errorClass ← optional string? s.errorClass (m "error_class" 1)
  let labels ← optional (list? string?) s.labels (m "label_attributes" 2)
  let defaultStyle ← optional style? s.defaultStyle (m "default_style" 3)
  let warningGlyph ← optional string? s.warningGlyph (m "warning_glyph" 4)
  let warningOffset ← optional number? s.warningOffset (m "warning_offset" 5)
  let warningFill ← optional string? s.warningFill (m "warning_fill" 6)
  let warningFontSize ← optional string? s.warningFontSize (m "warning_font_size" 7)
  let errorStyle ← optional boolean? s.errorStyle (m "inject_error_style" 8)
  let depth ← optional count? s.limits.depth (m "max_expression_depth" 9)
  let tokens ← optional count? s.limits.tokens (m "max_expression_tokens" 10)
  return {
    markerClass, errorClass, labels, defaultStyle, warningGlyph, warningOffset, warningFill,
    warningFontSize, errorStyle, limits := { depth, tokens } }

def filter? (v : Datum) : Option Filter := do
  let m ← members? v
  let attr ← string? (← m "attribute" 0)
  let values ← list? string? (← m "values" 1)
  return { attr, values }

def formula? (v : Datum) : Option Formula := do
  let m ← members? v
  let name ← string? (← m "name" 0)
  let expression ← string? (← m "expression" 1)
  let fill ← maybe string? (m "fill" 2)
  let fontSize ← maybe string? (m "font_size" 3)
  let attributes ← maybe (list? string?) (m "attributes" 4)
  return { name, expression, fill, fontSize, attributes }

def sheet? (v : Datum) : Option Sheet := do
  let m ← members? v
  let id ← string? (← m "id" 0)
  let name ← string? (← m "name" 1)
  let kind ← kind? (← m "kind" 2)
  let file ← string? (← m "file" 3)
  let filter ← maybe filter? (m "filter" 4)
  let formulas ← optional (list? formula?) [] (m "formulas" 5)
  return { id, name, kind, file, filter, formulas }

def binding? (v : Datum) : Option Binding := do
  let m ← members? v
  let attr ← string? (← m "attribute" 0)
  let value ← string? (← m "value" 1)
  let varName ← maybe string? (m "variable" 2)
  let custom ← optional boolean? false (m "custom" 3)
  return { attr, value, varName, custom }

def selection? (v : Datum) : Option Selection := do
  let m ← members? v
  let attr ← string? (← m "attribute" 0)
  let value ← string? (← m "value" 1)
  return { attr, value }

def ofEntries? (es : Toml.Entries) : Option Product := do
  let title ← maybe string? (es.lookup "product")
  let settings ← optional settings? {} (es.lookup "engine")
  let sheets ← optional (list? sheet?) [] (es.lookup "templates")
  let bindings ← optional (list? binding?) [] (es.lookup "bindings")
  let selections ← optional (list? selection?) [] (es.lookup "selections")
  return { title, settings, sheets, bindings, selections }

def read (text : String) : Except Failure Product :=
  match (Toml.read? text).bind ofEntries? with
  | some p => .ok p
  | none => .error .invalid

/-- Reads a product file. Its template files are looked for beside it. -/
def load {m : Type → Type} [Monad m] (disk : Disk m) (path : String) :
    ExceptT Failure m Product := do
  let text ← ExceptT.mk do return (← disk.readText path).mapError .unreadable
  let p ← ExceptT.mk (pure (read text))
  return { p with base := Disk.parent path }

end FormulaDrawing.Product
