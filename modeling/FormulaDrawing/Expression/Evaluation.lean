import FormulaDrawing.Expression.Function
import FormulaDrawing.Expression.Parser
import FormulaDrawing.Expression.Value

/-! The value of an expression. Operands are worked out from left to right and the first failure
counts; a result that is not finite is a failure. -/

namespace FormulaDrawing

namespace Expression

def finite (x : Float) : Except Failure Float := if x.isFinite then .ok x else .error .overflow

def Operator.apply : Operator → Float → Float → Except Failure Float
  | .add, x, y => finite (x + y)
  | .sub, x, y => finite (x - y)
  | .mul, x, y => finite (x * y)
  | .div, x, y => if y == 0 then .error .divisionByZero else finite (x / y)

/-- The value of a name that is read: a variable hides a constant. -/
def readName (vs : Variables) (n : String) : Except Failure Value :=
  match vs.find? n, constant? n with
  | some v, _ => .ok v
  | none, some x => .ok (.number x)
  | none, none =>
    if (Function.ofName? n).isSome then .error (.functionAsValue n) else .error (.undefinedName n)

/-- The function a name calls: a variable hides a function and cannot be called. -/
def readFunction (vs : Variables) (n : String) : Except Failure Function :=
  if vs.binds n then .error (.notCallable n)
  else
    match Function.ofName? n with
    | some f => .ok f
    | none => .error (.unknownFunction n)

end Expression

open Expression

namespace Expr

mutual

def eval (vs : Variables) : Expr → Except Failure Value
  | number x => (finite x).map .number
  | name n => readName vs n
  | neg e => do
    let x ← (← eval vs e).toNumber
    return .number (-x)
  | binary op l r => do
    let x ← (← eval vs l).toNumber
    let y ← (← eval vs r).toNumber
    return .number (← op.apply x y)
  | call f args => do
    let g ← readFunction vs f
    return .number (← g.apply (← evalAll vs args))

def evalAll (vs : Variables) : List Expr → Except Failure (List Float)
  | [] => .ok []
  | e :: es => do
    let x ← (← eval vs e).toNumber
    return x :: (← evalAll vs es)

end

end Expr

def evaluate (limits : Limits) (vs : Variables) (text : String) : Except Failure Value := do
  (← parse limits text).eval vs

end FormulaDrawing
