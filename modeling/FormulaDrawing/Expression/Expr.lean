import FormulaDrawing.Number.Text
import FormulaDrawing.Text.Ordered

/-! Expressions, their text with every operation in brackets, and the names they read. -/

namespace FormulaDrawing

namespace Expression

inductive Operator where
  | add
  | sub
  | mul
  | div
deriving DecidableEq, Repr

def Operator.char : Operator → Char
  | .add => '+'
  | .sub => '-'
  | .mul => '*'
  | .div => '/'

end Expression

open Expression

inductive Expr where
  | number (x : Float)
  | name (n : String)
  | neg (e : Expr)
  | binary (op : Operator) (left right : Expr)
  | call (function : String) (arguments : List Expr)

namespace Expr

mutual

def chars : Expr → List Char
  | number x => Number.chars x
  | name n => n.toList
  | neg e => '(' :: '-' :: chars e ++ [')']
  | binary op l r => '(' :: chars l ++ [' ', op.char, ' '] ++ chars r ++ [')']
  | call f args => f.toList ++ '(' :: argumentChars args

/-- The arguments of a call with the closing bracket. -/
def argumentChars : List Expr → List Char
  | [] => [')']
  | e :: es => chars e ++ furtherChars es

def furtherChars : List Expr → List Char
  | [] => [')']
  | e :: es => ',' :: ' ' :: chars e ++ furtherChars es

end

def text (e : Expr) : String := String.ofList e.chars

mutual

def size : Expr → Nat
  | number _ => 1
  | name _ => 1
  | neg e => e.size + 1
  | binary _ l r => l.size + r.size + 1
  | call _ args => sizeAll args + 1

def sizeAll : List Expr → Nat
  | [] => 0
  | e :: es => e.size + sizeAll es

end

/-- Takes the expressions from the stack, top first, and adds the names among them to those that were found.
What an expression is put together from goes on the stack in order, so its last operand is next. -/
def gather : Nat → List Expr → List String → List String
  | n + 1, number _ :: stack, found => gather n stack found
  | n + 1, name m :: stack, found => gather n stack (Text.insertName m found)
  | n + 1, neg e :: stack, found => gather n (e :: stack) found
  | n + 1, binary _ l r :: stack, found => gather n (r :: l :: stack) found
  | n + 1, call _ args :: stack, found => gather n (args.reverse ++ stack) found
  | _, _, found => found

/-- The names read as values; the name of a called function is not among them. Every expression is on the
stack once. -/
def names (e : Expr) : List String := gather e.size [e] []

end Expr

end FormulaDrawing
