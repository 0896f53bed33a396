/-! Rounding a double to an integer and the exact remainder of two doubles, both worked out on
the significand and exponent. Neither can be inexact. -/

namespace FormulaDrawing.Number

open Float.Model

inductive Rounding where
  | towardZero
  | down
  | up
  /-- A half goes to the even neighbour. -/
  | nearestEven
deriving DecidableEq, Repr

/-- Whether the magnitude `whole + rest / unit` of a number goes to `whole + 1`. -/
def Rounding.carries (rule : Rounding) (sign : UnpackedFloat.Sign) (whole rest unit : Nat) : Bool :=
  match rule, sign with
  | .towardZero, _ | .down, .positive | .up, .negative => false
  | .down, .negative | .up, .positive => rest != 0
  | .nearestEven, _ => unit < 2 * rest || (unit == 2 * rest && whole % 2 == 1)

def scaled (sign : UnpackedFloat.Sign) (whole : Nat) (exponent : Int) : Float :=
  .ofModel (.pack (UnpackedFloat.round .binary64 sign whole exponent))

/-- NaN, infinities and integers stay; a zero result keeps the sign. -/
def Rounding.round (rule : Rounding) (x : Float) : Float :=
  match x.toModel.unpack with
  | .finite sign m e _ =>
    if 0 ≤ e then x
    else
      let unit := Nat.pow 2 (-e).toNat
      let whole := m / unit
      scaled sign (if rule.carries sign whole (m % unit) unit then whole + 1 else whole) 0
  | _ => x

def isIntegral (x : Float) : Bool := x.isFinite && Rounding.round .towardZero x == x

/-- The sign bit; NaN counts as positive. -/
def isNegative (x : Float) : Bool :=
  match x.toModel.unpack with
  | .infinity .negative | .zero .negative | .finite .negative .. => true
  | _ => false

def copySign (magnitude sign : Float) : Float :=
  if isNegative sign then -magnitude.abs else magnitude.abs

/-- `x - y · trunc (x / y)` without rounding, with the sign of `x`. -/
def remainder (x y : Float) : Float :=
  match x.toModel.unpack, y.toModel.unpack with
  | .finite sign m e _, .finite _ n f _ =>
    let low := min e f
    scaled sign ((m <<< (e - low).toNat) % (n <<< (f - low).toNat)) low
  | .zero _, .finite .. | .finite .., .infinity _ | .zero _, .infinity _ => x
  | _, _ => 0.0 / 0.0

end FormulaDrawing.Number
