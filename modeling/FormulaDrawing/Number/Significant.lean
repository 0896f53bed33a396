import FormulaDrawing.Number.Text

/-! Scientific notation with a fixed number of significant digits. -/

namespace FormulaDrawing.Number

def roundDiv (x y : Nat) : Nat :=
  let q := x / y
  let twice := 2 * (x % y)
  if y < twice ∨ (y = twice ∧ q % 2 = 1) then q + 1 else q

/-- `m · 2 ^ e` on the first grid among `10 ^ top, 10 ^ (top - 1), …` that is fine enough for it to
reach `10 ^ (count - 1)` units. -/
def significant (count m : Nat) (e top : Int) : Nat → Decimal
  | 0 => ⟨0, top⟩
  | n + 1 =>
    let (a, b) := commonUnit e top
    if Nat.pow 10 (count - 1) * b ≤ m * a then ⟨roundDiv (m * a) b, top⟩
    else significant count m e (top - 1) n

/-- One digit, the point, the other digits, and the exponent. -/
def Decimal.scientific (count : Nat) (d : Decimal) : List Char :=
  let digits := Nat.toDigits 10 d.digits
  let shown := digits.take count
  let exponent := d.power + (digits.length - 1 : Nat)
  shown.take 1 ++ '.' :: shown.drop 1 ++ 'e' :: (toString exponent).toList

open Float.Model in
/-- A number that is not finite has the text it always has. -/
def scientific (count : Nat) (x : Float) : String :=
  match x.toModel.unpack with
  | .zero sign =>
    String.ofList (signText sign ++ '0' :: '.' :: List.replicate (count - 1) '0' ++ ['e', '0'])
  | .finite sign m e _ =>
    let top := coarsest (m.log2 + 1 + e) - count + 1
    String.ofList (signText sign ++ (significant count m e top 64).scientific count)
  | _ => text x

end FormulaDrawing.Number
