import FormulaDrawing.Expression.Token

/-! What can be wrong with an expression, and the wording of each case. -/

namespace FormulaDrawing.Expression

/-- What could have stood at the place of an unexpected token. -/
structure Expectation where
  symbols : List Symbol
  ending : Bool
deriving DecidableEq, Repr

def Expectation.texts (e : Expectation) : List String :=
  e.symbols.map (Token.description ∘ .symbol) ++ if e.ending then ["end of expression"] else []

inductive Arity where
  | one
  | two
  | oneOrTwo
deriving DecidableEq, Repr

def Arity.accepts : Arity → Nat → Bool
  | .one, n => n == 1
  | .two, n => n == 2
  | .oneOrTwo, n => n == 1 || n == 2

def Arity.text : Arity → String
  | .one => "1"
  | .two => "2"
  | .oneOrTwo => "1 or 2"

inductive Failure where
  /-- No token begins with this character. -/
  | invalidToken (found : Char) (span : Span)
  /-- The token, or the end of the text, cannot continue the expression. -/
  | unexpected (found : Option Token) (span : Span) (expected : Expectation)
  | tooDeep (limit : Nat)
  | tooLong (limit : Nat)
  | undefinedName (name : String)
  | functionAsValue (name : String)
  | notCallable (name : String)
  | unknownFunction (name : String)
  | arity (function : String) (accepted : Arity) (given : Nat)
  | divisionByZero
  | domain (function : String)
  | overflow
  | nonNumeric (text : String)
deriving DecidableEq

def Failure.span? : Failure → Option Span
  | .invalidToken _ span | .unexpected _ span _ => some span
  | _ => none

def Span.text (s : Span) : String := toString s.start ++ ".." ++ toString s.stop

def unexpectedText : Option Token → String
  | some t => "Unexpected " ++ t.description
  | none => "Unexpected end of expression"

def Failure.message : Failure → String
  | .invalidToken found span => s!"Unexpected character '{found}' at " ++ span.text
  | .unexpected found span _ => "Parse error at " ++ span.text ++ ": " ++ unexpectedText found
  | .tooDeep limit => s!"expression nests deeper than {limit} levels"
  | .tooLong limit => s!"expression has more than {limit} tokens"
  | .undefinedName name => s!"undefined name '{name}'"
  | .functionAsValue name => s!"'{name}' is a function and must be called"
  | .notCallable name => s!"'{name}' is not callable"
  | .unknownFunction name => s!"unknown function '{name}'"
  | .arity function accepted given =>
    s!"{function} expects {accepted.text} argument(s), got {given}"
  | .divisionByZero => "division by zero"
  | .domain function => s!"math domain error in {function}"
  | .overflow => "numeric result out of range"
  | .nonNumeric text => s!"operand '{text}' is not numeric"

end FormulaDrawing.Expression
