import FormulaDrawing.Markup.Attribute
import FormulaDrawing.Markup.Construct

/-! What can be wrong with the source of a drawing, and with writing a drawing. -/

namespace FormulaDrawing.Drawing

inductive Fault where
  | construct (fault : Markup.ConstructFault)
  | mismatched (expected found : String)
  | unmatched (found : String)
  | attributes (fault : Markup.AttributeFault)
  | text (fault : Markup.EntityFault)
deriving DecidableEq, Repr

def Fault.message : Fault → String
  | .construct fault => fault.message
  | .mismatched expected found =>
    s!"ill-formed document: expected `</{expected}>`, but `</{found}>` was found"
  | .unmatched found =>
    s!"ill-formed document: close tag `</{found}>` does not match any open tag"
  | .attributes fault => fault.message
  | .text fault => "invalid text content: " ++ fault.message

inductive Failure where
  | malformed (place : Nat) (fault : Fault)
  | unclosed (name : String)
  | severalRoots
  | noRoot
  | unwritten (cause : String)
deriving DecidableEq, Repr

def Failure.message : Failure → String
  | .malformed place fault => s!"malformed document at byte {place}: " ++ fault.message
  | .unclosed name => s!"malformed document: unclosed element <{name}>"
  | .severalRoots => "malformed document: more than one root element"
  | .noRoot => "malformed document: no root element"
  | .unwritten cause => "failed to serialize document: " ++ cause

end FormulaDrawing.Drawing
