/-! Strings and keys of a TOML document. Strings between quotation marks have escapes, those between
apostrophes are taken as they are; three marks allow several lines. -/

namespace FormulaDrawing.Toml

/-- A tab, or any character that controls nothing. -/
def isPlain (c : Char) : Bool := c == '\t' || (c.toNat ≥ 0x20 && c.toNat ≠ 0x7F)

def isSpace (c : Char) : Bool := c == ' ' || c == '\t'

def skipSpace (s : List Char) : List Char := s.dropWhile isSpace

/-- What follows a line break at the front. -/
def afterBreak? : List Char → Option (List Char)
  | '\n' :: s => some s
  | '\r' :: '\n' :: s => some s
  | _ => none

def dropBreak (s : List Char) : List Char := (afterBreak? s).getD s

def hexValue? (c : Char) : Option Nat :=
  if c.isDigit then some (c.toNat - '0'.toNat)
  else if 'a' ≤ c ∧ c ≤ 'f' then some (c.toNat - 'a'.toNat + 10)
  else if 'A' ≤ c ∧ c ≤ 'F' then some (c.toNat - 'A'.toNat + 10)
  else none

/-- The character with the code given by exactly `count` hexadecimal digits. -/
def coded? (count : Nat) (s : List Char) : Option (Char × List Char) := do
  guard (count ≤ s.length)
  let digits ← (s.take count).mapM hexValue?
  let code := digits.foldl (fun n d => 16 * n + d) 0
  if h : code.isValidChar then return (Char.ofNatAux code h, s.drop count) else none

def escaped? : List Char → Option (Char × List Char)
  | 'b' :: s => some ('\x08', s)
  | 't' :: s => some ('\t', s)
  | 'n' :: s => some ('\n', s)
  | 'f' :: s => some ('\x0c', s)
  | 'r' :: s => some ('\r', s)
  | '"' :: s => some ('"', s)
  | '\\' :: s => some ('\\', s)
  | 'u' :: s => coded? 4 s
  | 'U' :: s => coded? 8 s
  | _ => none

def skipBlank : List Char → List Char
  | ' ' :: s => skipBlank s
  | '\t' :: s => skipBlank s
  | '\n' :: s => skipBlank s
  | '\r' :: '\n' :: s => skipBlank s
  | s => s

/-- What is left behind a backslash at the end of a line, which drops all blanks up to the next
character. -/
def joinedLine? (s : List Char) : Option (List Char) := (afterBreak? (skipSpace s)).map skipBlank

/-- How a string is delimited. -/
structure Quotes where
  mark : Char
  escapes : Bool
  lines : Bool

/-- The rest of a string up to its closing marks. In a string of several lines up to two marks may
stand in front of the closing ones, and every break is a line feed. No step lengthens the rest. -/
def body? (q : Quotes) : Nat → List Char → Option (List Char × List Char)
  | 0, _ => none
  | _, [] => none
  | n + 1, c :: s =>
    if c == q.mark then
      if !q.lines then some ([], s)
      else
        let marks := (c :: s).takeWhile (· == q.mark)
        if marks.length < 3 then (body? q n s).map fun (r, rest) => (c :: r, rest)
        else
          let extra := min (marks.length - 3) 2
          some (List.replicate extra c, (c :: s).drop (extra + 3))
    else if c == '\\' && q.escapes then
      match (if q.lines then joinedLine? s else none), escaped? s with
      | some s, _ => body? q n s
      | none, some (e, s) => (body? q n s).map fun (r, rest) => (e :: r, rest)
      | none, none => none
    else if isPlain c then (body? q n s).map fun (r, rest) => (c :: r, rest)
    else
      match (if q.lines then afterBreak? (c :: s) else none) with
      | some s => (body? q n s).map fun (r, rest) => ('\n' :: r, rest)
      | none => none

def delimited? (q : Quotes) (s : List Char) : Option (String × List Char) :=
  (body? q (s.length + 1) s).map fun (r, rest) => (String.ofList r, rest)

def lineString? : List Char → Option (String × List Char)
  | '"' :: s => delimited? ⟨'"', true, false⟩ s
  | '\'' :: s => delimited? ⟨'\'', false, false⟩ s
  | _ => none

/-- A string of any form. A break directly behind three opening marks is dropped. -/
def string? : List Char → Option (String × List Char)
  | '"' :: '"' :: '"' :: s => delimited? ⟨'"', true, true⟩ (dropBreak s)
  | '\'' :: '\'' :: '\'' :: s => delimited? ⟨'\'', false, true⟩ (dropBreak s)
  | s => lineString? s

def isBare (c : Char) : Bool := c.isAlphanum || c == '_' || c == '-'

def simpleKey? (s : List Char) : Option (String × List Char) :=
  match s.takeWhile isBare with
  | [] => lineString? s
  | word => some (String.ofList word, s.dropWhile isBare)

/-- Keys between dots, with spaces around each. -/
def keys? : Nat → List Char → Option (List String × List Char)
  | 0, _ => none
  | n + 1, s => do
    let (key, s) ← simpleKey? (skipSpace s)
    match skipSpace s with
    | '.' :: s => (keys? n s).map fun (ks, rest) => (key :: ks, rest)
    | s => return ([key], s)

/-- The number of parts a key and of levels a value may have. -/
def depthLimit : Nat := 79

def key? (s : List Char) : Option (List String × List Char) := keys? depthLimit s

end FormulaDrawing.Toml
