import FormulaDrawing.Text.Blank

/-! The characters that a document may hold, and those that names are made of. -/

namespace FormulaDrawing.Xml

def within (ranges : List (Nat × Nat)) (c : Char) : Bool :=
  ranges.any fun (low, high) => low ≤ c.toNat && c.toNat ≤ high

/-- Control characters other than gaps, and the last two code points of the first plane, have no
place in a document. -/
def isAllowed (c : Char) : Bool :=
  if c.toNat < 0x20 then Text.isGap c else c.toNat != 0xFFFE && c.toNat != 0xFFFF

/-- Letters outside ASCII. -/
def letterRanges : List (Nat × Nat) := [
  (0xC0, 0xD6), (0xD8, 0xF6), (0xF8, 0x2FF), (0x370, 0x37D), (0x37F, 0x1FFF), (0x200C, 0x200D),
  (0x2070, 0x218F), (0x2C00, 0x2FEF), (0x3001, 0xD7FF), (0xF900, 0xFDCF), (0xFDF0, 0xFFFD),
  (0x10000, 0xEFFFF)]

/-- What may stand in a name outside ASCII, but not at its start. -/
def markRanges : List (Nat × Nat) := [(0xB7, 0xB7), (0x300, 0x36F), (0x203F, 0x2040)]

def isNameStart (c : Char) : Bool :=
  c.isAlpha || c == ':' || c == '_' || within letterRanges c

def isNamePart (c : Char) : Bool :=
  isNameStart c || c.isDigit || c == '-' || c == '.' || within markRanges c

end FormulaDrawing.Xml
