import FormulaDrawing.Number.Rounding

/-! Elementary functions near points where the plain formula would lose digits. -/

namespace FormulaDrawing.Number

open Float.Model

/-- `sqrt (x² + y²)`, rounded once. -/
def hypotenuse (x y : Float) : Float :=
  if x.isInf || y.isInf then 1.0 / 0.0
  else
    match x.toModel.unpack, y.toModel.unpack with
    | .finite _ m e _, .finite _ n f _ =>
      let low := min e f
      let a := m <<< (e - low).toNat
      let b := n <<< (f - low).toNat
      let sum := a * a + b * b
      if h : 0 < sum then .ofModel (.pack (UnpackedFloat.sqrt .binary64 (.finite .positive sum (2 * low) h)))
      else 0
    | .zero _, _ => y.abs
    | _, .zero _ => x.abs
    | _, _ => 0.0 / 0.0

def cube (n : Nat) : Nat := n * n * n

/-- The largest number below `2 ^ bits` whose cube is at most `n`. -/
def cubeRootFloor (n : Nat) : Nat → Nat
  | 0 => 0
  | bits + 1 =>
    let high := cubeRootFloor (n >>> 3) bits * 2
    if cube (high + 1) ≤ n then high + 1 else high

/-- The cube root, rounded once. The significand is scaled so that the integer root has more digits
than a double, and a root that is not exact is marked by an odd last digit. -/
def cubeRoot (x : Float) : Float :=
  match x.toModel.unpack with
  | .finite sign m e _ =>
    let shift := 180 + (e % 3).toNat
    let n := m <<< shift
    let root := cubeRootFloor n 80
    scaled sign (2 * root + if cube root < n then 1 else 0) ((e - shift) / 3 - 1)
  | _ => x

/-- `exp x - 1`: the rounding error of `exp x` cancels against that of its logarithm. -/
def expMinusOne (x : Float) : Float :=
  let u := x.exp
  if u == 1 then x
  else if u.isInf || u - 1 == -1 then u - 1
  else (u - 1) * (x / u.log)

/-- `log (1 + x)`: the rounding error of `1 + x` cancels against that of the difference. -/
def logOnePlus (x : Float) : Float :=
  let u := 1 + x
  if u == 1 then x
  else if u.isInf then u.log
  else u.log * (x / (u - 1))

end FormulaDrawing.Number
