import FormulaDrawing.CommandLine.Arguments
import FormulaDrawing.Expression.Value
import FormulaDrawing.Number.Numeral
import FormulaDrawing.Template.Basic
import FormulaDrawing.Text.Blank

/-! The commands and what they are given. -/

namespace FormulaDrawing.CommandLine

open Text

inductive Command where
  | extract (file : String) (product : Option String)
  | eval (expression : String) (vs : Variables)
  | generate (product context : String) (kind : Kind) (folder : Option String)
  | price (formula : Option String) (extra customValue soFar : Float)
  | help

/-- A path is not empty. -/
def path? (s : String) : Option String := if s = "" then none else some s

def given? {α : Type} (read : String → Option α) : Option String → Option (Option α)
  | some s => (read s).map some
  | none => some none

/-- A variable with its value around the first equals sign; what is not a number is a text. -/
def binding? (s : String) : Option (String × Value) := do
  let (name, value) ← splitFirst? ['='] s.toList
  let value : Value := match Number.ofChars? (trim value) with
    | some x => .number x
    | none => .text (String.ofList value)
  return (String.ofList (trim name), value)

def numberOption? (a : Arguments) (name : String) : Option Float := do
  let x ← given? Number.ofText? (← a.value? name)
  return x.getD 0

def extract? (a : Arguments) : Option Command := do
  let [file] := a.operands | none
  return .extract (← path? file) (← given? path? (← a.value? "config"))

/-- Of several values of a variable the last counts. -/
def eval? (a : Arguments) : Option Command := do
  let [expression] := a.operands | none
  let bindings ← (a.values "var").mapM binding?
  return .eval expression bindings.reverse

def generate? (a : Arguments) : Option Command := do
  let [product] := a.operands | none
  let context ← (← a.value? "context")
  let kind ← given? Kind.ofText? (← a.value? "kind")
  let folder ← given? path? (← a.value? "out")
  return .generate (← path? product) context (kind.getD .fabrication) folder

def price? (a : Arguments) : Option Command := do
  guard (a.operands.length ≤ 1)
  let extra ← numberOption? a "price-extra"
  let customValue ← numberOption? a "custom-value"
  let soFar ← numberOption? a "price-so-far"
  return .price a.operands.head? extra customValue soFar

/-- Sorts the arguments and reads the command, unless help is asked for. -/
def withArguments (flags : List Flag) (read : Arguments → Option Command) (args : List String) :
    Option Command := do
  let a ← arguments? flags args
  if a.help then return .help else read a

def Command.ofArguments? : List String → Option Command
  | "extract" :: args => withArguments [⟨"config", 'c'⟩] extract? args
  | "eval" :: args => withArguments [⟨"var", 'v'⟩] eval? args
  | "generate" :: args =>
    withArguments [⟨"context", none⟩, ⟨"kind", 'k'⟩, ⟨"out", 'o'⟩] generate? args
  | "price" :: args =>
    withArguments [⟨"custom-value", none⟩, ⟨"price-so-far", none⟩, ⟨"price-extra", none⟩] price? args
  | ["help"] | "-h" :: _ | "--help" :: _ => some .help
  | _ => none

end FormulaDrawing.CommandLine
