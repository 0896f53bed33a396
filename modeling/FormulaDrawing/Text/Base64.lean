/-! Base64: three bytes as four characters, the last of which are padded. -/

namespace FormulaDrawing.Text

def sixBits : List Char :=
  "ABCDEFGHIJKLMNOPQRSTUVWXYZabcdefghijklmnopqrstuvwxyz0123456789+/".toList

def sixBitChar (n : Nat) : Char := sixBits.getD (n % 64) '='

def base64Chars : List UInt8 → List Char
  | a :: b :: c :: rest =>
    let n := a.toNat * 65536 + b.toNat * 256 + c.toNat
    sixBitChar (n / 262144) :: sixBitChar (n / 4096) :: sixBitChar (n / 64) :: sixBitChar n ::
      base64Chars rest
  | [a, b] =>
    let n := a.toNat * 65536 + b.toNat * 256
    [sixBitChar (n / 262144), sixBitChar (n / 4096), sixBitChar (n / 64), '=']
  | [a] =>
    let n := a.toNat * 65536
    [sixBitChar (n / 262144), sixBitChar (n / 4096), '=', '=']
  | [] => []

def base64 (bytes : ByteArray) : String := String.ofList (base64Chars bytes.data.toList)

end FormulaDrawing.Text
