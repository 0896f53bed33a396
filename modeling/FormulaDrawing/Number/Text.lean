import FormulaDrawing.Number.Shortest

/-! The text of a double: the shortest decimal that reads back, written without an exponent. -/

namespace FormulaDrawing.Number

/-- Decimal places appear only for negative powers, and then there is a digit before the point. -/
def Decimal.text (d : Decimal) : List Char :=
  let digits := Nat.toDigits 10 d.digits
  if 0 ≤ d.power then digits ++ List.replicate d.power.toNat '0'
  else
    let places := (-d.power).toNat
    let padded := List.replicate (places + 1 - digits.length) '0' ++ digits
    padded.take (padded.length - places) ++ '.' :: padded.drop (padded.length - places)

open Float.Model in
def signText : UnpackedFloat.Sign → List Char
  | .negative => ['-']
  | .positive => []

open Float.Model in
/-- Zero keeps its sign and integers have no point. -/
def chars (x : Float) : List Char :=
  match x.toModel.unpack with
  | .notANumber => ['N', 'a', 'N']
  | .infinity sign => signText sign ++ ['i', 'n', 'f']
  | .zero sign => signText sign ++ ['0']
  | .finite sign m e _ => signText sign ++ (shortest m e).text

def text (x : Float) : String := String.ofList (chars x)

end FormulaDrawing.Number
