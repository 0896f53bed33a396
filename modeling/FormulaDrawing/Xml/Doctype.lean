import FormulaDrawing.Xml.Syntax

/-! What stands in front of the root element: the declaration, comments and instructions, and the
document type, of which the entities count. -/

namespace FormulaDrawing.Xml

open Scan

/-- A gap, unless the declaration or the text ends here. -/
def gapInDeclaration : Scan Unit := do
  if (← next?).any Text.isGap then gaps
  else require ((← begins "?>") || (← next?).isNone)

def optionalPart (word : String) : Scan Unit := do
  if ← begins word then
    discard writtenAttribute
    gapInDeclaration

/-- The declaration of the version, and possibly of the encoding and of the dependence on others. -/
def declaration : Scan Unit := do
  word "<?xml"
  gapInDeclaration
  require (← begins "version")
  optionalPart "version"
  optionalPart "encoding"
  if ← begins "standalone" then discard writtenAttribute
  gaps
  word "?>"

def aside : Scan (Option Unit) := do
  gaps
  if ← begins "<!--" then do word "<"; return some (← comment)
  else if ← begins "<?" then do word "<"; return some (← instruction)
  else return none

def asides : Scan Unit := do discard (many aside)

def quotedAfterGap : Scan Unit := do
  someGap
  discard quoted

/-- Where a definition lies outside the document, if that is said. -/
def external : Scan Bool := do
  if ← begins "SYSTEM" then
    word "SYSTEM"
    quotedAfterGap
    return true
  else if ← begins "PUBLIC" then
    word "PUBLIC"
    quotedAfterGap
    quotedAfterGap
    return true
  else return false

/-- What an entity stands for, unless that lies outside the document. -/
def definition (isParameter : Bool) : Scan (Option (List Char)) := do
  if (← next?).any fun c => c == '"' || c == '\'' then return some (← quoted)
  else
    require (← external)
    unless isParameter do
      gaps
      if ← begins "NDATA" then
        word "NDATA"
        someGap
        discard plainName
    return none

abbrev Entities := List (String × List Char)

def entity : Scan Entities := do
  word "<!ENTITY"
  someGap
  let isParameter ← begins "%"
  if isParameter then
    word "%"
    someGap
  let n ← plainName
  someGap
  let d ← definition isParameter
  gaps
  word ">"
  return d.toList.map (n, ·)

def entry : Scan (Option Entities) := do
  gaps
  if ← begins "<!ENTITY" then return some (← entity)
  else if (← begins "<!--") || (← begins "<?") then return some ((← aside).elim [] fun _ => [])
  else if (← begins "<!ELEMENT") || (← begins "<!ATTLIST") || (← begins "<!NOTATION") then do
    discard (upTo ">")
    return some []
  else do
    require ((← begins "]") || (← next?).isNone)
    return none

def doctype : Scan Entities := do
  word "<!DOCTYPE"
  someGap
  discard plainName
  gaps
  discard external
  gaps
  if ← begins ">" then do
    word ">"
    return []
  else do
    word "["
    let entities := (← many entry).flatten
    unless (← next?).isNone do
      word "]"
      gaps
      word ">"
    return entities

def prologue : Scan Entities := do
  if ← begins "<?xml " then declaration
  asides
  if ← begins "<!DOCTYPE" then do
    let entities ← doctype
    asides
    return entities
  else return []

end FormulaDrawing.Xml
