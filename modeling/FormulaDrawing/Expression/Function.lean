import FormulaDrawing.Expression.Failure
import FormulaDrawing.Number.Constants
import FormulaDrawing.Number.Elementary

/-! The functions that expressions may call. -/

namespace FormulaDrawing.Expression

inductive Function where
  | sin | cos | tan | asin | acos | atan | atan2
  | sinh | cosh | tanh | asinh | acosh | atanh
  | exp | expm1 | log | log1p | log10 | log2 | sqrt | cbrt | pow
  | fabs | ceil | floor | trunc | fmod | hypot | degrees | radians | copysign
deriving DecidableEq, Repr

namespace Function

def name : Function → String
  | sin => "sin" | cos => "cos" | tan => "tan"
  | asin => "asin" | acos => "acos" | atan => "atan" | atan2 => "atan2"
  | sinh => "sinh" | cosh => "cosh" | tanh => "tanh"
  | asinh => "asinh" | acosh => "acosh" | atanh => "atanh"
  | exp => "exp" | expm1 => "expm1"
  | log => "log" | log1p => "log1p" | log10 => "log10" | log2 => "log2"
  | sqrt => "sqrt" | cbrt => "cbrt" | pow => "pow"
  | fabs => "fabs" | ceil => "ceil" | floor => "floor" | trunc => "trunc"
  | fmod => "fmod" | hypot => "hypot"
  | degrees => "degrees" | radians => "radians" | copysign => "copysign"

def all : List Function :=
  [sin, cos, tan, asin, acos, atan, atan2, sinh, cosh, tanh, asinh, acosh, atanh, exp, expm1, log,
    log1p, log10, log2, sqrt, cbrt, pow, fabs, ceil, floor, trunc, fmod, hypot, degrees, radians,
    copysign]

def ofName? (n : String) : Option Function := all.find? (·.name == n)

def arity : Function → Arity
  | atan2 | pow | fmod | hypot | copysign => .two
  | log => .oneOrTwo
  | _ => .one

/-- The value where the function is defined. Nothing overflows on the way to an inverse hyperbolic function and no
digits are lost, so `asinh 1.7e308` is 710.4 and `acosh` is as exact next to one as elsewhere. -/
def value? : Function → List Float → Option Float
  | sin, [x] => some x.sin
  | cos, [x] => some x.cos
  | tan, [x] => some x.tan
  | asin, [x] => if -1 ≤ x ∧ x ≤ 1 then some x.asin else none
  | acos, [x] => if -1 ≤ x ∧ x ≤ 1 then some x.acos else none
  | atan, [x] => some x.atan
  | atan2, [y, x] => some (y.atan2 x)
  | sinh, [x] => some x.sinh
  | cosh, [x] => some x.cosh
  | tanh, [x] => some x.tanh
  | asinh, [x] => some x.asinh
  | acosh, [x] => if x < 1 then none else some x.acosh
  | atanh, [x] => if x ≤ -1 ∨ 1 ≤ x then none else some x.atanh
  | exp, [x] => some x.exp
  | expm1, [x] => some (Number.expMinusOne x)
  | log, [x] => if x ≤ 0 then none else some x.log
  | log, [x, base] =>
    if x ≤ 0 ∨ base ≤ 0 ∨ base == 1 then none else some (x.log / base.log)
  | log1p, [x] => if x ≤ -1 then none else some (Number.logOnePlus x)
  | log10, [x] => if x ≤ 0 then none else some x.log10
  | log2, [x] => if x ≤ 0 then none else some x.log2
  | sqrt, [x] => if x < 0 then none else some x.sqrt
  | cbrt, [x] => some (Number.cubeRoot x)
  | pow, [x, y] =>
    if (x == 0 ∧ y < 0) ∨ (x < 0 ∧ ¬ Number.isIntegral y) then none else some (x.pow y)
  | fabs, [x] => some x.abs
  | ceil, [x] => some (Number.Rounding.round .up x)
  | floor, [x] => some (Number.Rounding.round .down x)
  | trunc, [x] => some (Number.Rounding.round .towardZero x)
  | fmod, [x, y] => if y == 0 then none else some (Number.remainder x y)
  | hypot, [x, y] => some (Number.hypotenuse x y)
  | degrees, [x] => some (x * (180 / Number.pi))
  | radians, [x] => some (x * (Number.pi / 180))
  | copysign, [x, y] => some (Number.copySign x y)
  | _, _ => none

/-- A call fails when the number of arguments is wrong, then outside the function's domain or when
the result is not a number, then when the result is infinite. -/
def apply (f : Function) (args : List Float) : Except Failure Float :=
  if f.arity.accepts args.length then
    match f.value? args with
    | none => .error (.domain f.name)
    | some y =>
      if y.isNaN then .error (.domain f.name) else if y.isInf then .error .overflow else .ok y
  else .error (.arity f.name f.arity args.length)

end Function

def constant? (n : String) : Option Float :=
  if n = "pi" then some Number.pi
  else if n = "e" then some Number.euler
  else if n = "tau" then some Number.tau
  else none

/-- Names that have a meaning without being bound. -/
def isBuiltin (n : String) : Bool := (constant? n).isSome || (Function.ofName? n).isSome

end FormulaDrawing.Expression
