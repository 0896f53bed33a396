import FormulaDrawing.Xml.Letter
import FormulaDrawing.Xml.Scan

/-! What documents are written with: names, attributes, references, comments and tags. Nothing is
looked up yet. -/

namespace FormulaDrawing.Xml

open Scan

/-- A name with what stands before its colon, or nothing. -/
structure Name where
  space : String := ""
  base : String
deriving DecidableEq, Repr

def plainName : Scan String := do
  let cs ← takeWhile isNamePart
  require (cs.head?.any isNameStart)
  return String.ofList cs

/-- At most one colon, and a name behind it. -/
def name : Scan Name := do
  match Text.pieces ':' (← takeWhile isNamePart) with
  | [base] =>
    require (base.head?.any isNameStart)
    return { base := String.ofList base }
  | [space, base] =>
    require (space.head?.all isNameStart && base.head?.any isNameStart)
    return { space := String.ofList space, base := String.ofList base }
  | _ => refuse

def quote : Scan Char := do
  match ← next? with
  | some '"' => do word "\""; return '"'
  | some '\'' => do word "'"; return '\''
  | _ => refuse

def quoted : Scan (List Char) := do
  let q ← quote
  let cs ← takeWhile (· != q)
  word (q.toString)
  return cs

/-- A value between quotes, which holds no tag. -/
def quotedValue : Scan (List Char) := do
  let cs ← quoted
  require (cs.all fun c => isAllowed c && c != '<')
  return cs

def equals : Scan Unit := do
  gaps
  word "="
  gaps

def writtenAttribute : Scan (Name × List Char) := do
  let n ← name
  equals
  return (n, ← quotedValue)

inductive Reference where
  | char (c : Char)
  | entity (name : String)
deriving DecidableEq, Repr

def isHexDigit (c : Char) : Bool :=
  c.isDigit || ('a' ≤ c && c ≤ 'f') || ('A' ≤ c && c ≤ 'F')

def hexDigitValue (c : Char) : Nat :=
  if c.isDigit then c.toNat - '0'.toNat else c.toLower.toNat - 'a'.toNat + 10

def codeOf? (radix : Nat) (digits : List Char) : Option Nat :=
  (some (digits.foldl (fun n d => n * radix + hexDigitValue d) 0)).filter fun n =>
    !digits.isEmpty && n < 0x100000000

/-- The character with a code, where surrogates are replaced. -/
def charOfCode? (n : Nat) : Option Char :=
  (some (if n.isValidChar then Char.ofNat n else '\ufffd')).filter isAllowed

def namedChar? : String → Option Char
  | "quot" => some '"'
  | "amp" => some '&'
  | "apos" => some '\''
  | "lt" => some '<'
  | "gt" => some '>'
  | _ => none

def numberReference : Scan Char := do
  let code ← if ← begins "x" then do
      word "x"
      pure (codeOf? 16 (← takeWhile isHexDigit))
    else pure (codeOf? 10 (← takeWhile Char.isDigit))
  ofOption (code.bind charOfCode?)

def reference : Scan Reference := do
  let r ← if ← begins "#" then do
      word "#"
      pure (.char (← numberReference))
    else do
      let n ← plainName
      pure ((namedChar? n).elim (.entity n) Reference.char)
  word ";"
  return r

def allowedUpTo (part : String) : Scan (List Char) := do
  let cs ← upTo part
  require (cs.all isAllowed)
  return cs

/-- A comment, behind its bracket. It holds no two dashes in a row and does not end with one. -/
def comment : Scan Unit := do
  word "!--"
  let cs ← allowedUpTo "-->"
  require (! Text.contains ['-', '-'] cs && cs.getLast? != some '-')

/-- An instruction, behind its bracket. Only the first characters of a document can declare it. -/
def instruction : Scan Unit := do
  require (! (← begins "?xml "))
  word "?"
  discard plainName
  discard (allowedUpTo "?>")

def verbatim : Scan Unit := do
  word "![CDATA["
  discard (allowedUpTo "]]>")

/-- How a tag ends. A text that ends where an attribute could follow cuts the tag off. -/
inductive Ending where
  | opened
  | empty
  | cut
deriving DecidableEq, Repr

structure Tag where
  name : Name
  attributes : List (Name × List Char)
  ending : Ending

def furtherAttribute : Scan (Option (Name × List Char)) := do
  let ended := (← next?).isNone
  let spaced := ! (← takeWhile Text.isGap).isEmpty
  match ← next? with
  | none => do
    require ended
    return none
  | some '/' | some '>' => return none
  | some _ => do
    require spaced
    return some (← writtenAttribute)

def ending : Scan Ending := do
  match ← next? with
  | none => return .cut
  | some '/' => do
    word "/>"
    return .empty
  | some _ => do
    word ">"
    return .opened

def tag : Scan Tag := do
  return { name := ← name, attributes := ← many furtherAttribute, ending := ← ending }

def closingTag : Scan Name := do
  let n ← name
  gaps
  word ">"
  return n

end FormulaDrawing.Xml
