import FormulaDrawing.Drawing.Basic
import FormulaDrawing.Drawing.Failure
import FormulaDrawing.Markup.Entity

/-! The source of a drawing. Nothing is added between nodes; an element without children is written as
one empty tag. The text is put together piece by piece. -/

namespace FormulaDrawing.Drawing

open Markup

def attributeChars (a : String × String) : List Char :=
  ' ' :: a.1.toList ++ '=' :: '"' :: escape a.2.toList ++ ['"']

def tagChars (e : Element) : List Char := e.name.toList ++ e.attributes.flatMap attributeChars

inductive Task where
  | node (h : Handle)
  | closing (name : String)

/-- Carries out the tasks in order; an element with children adds theirs and its end tag. -/
def markup (d : Drawing) : Nat → List Task → List Construct
  | 0, _ => []
  | _, [] => []
  | n + 1, .closing name :: tasks => .closing name.toList :: d.markup n tasks
  | n + 1, .node h :: tasks =>
    match d.content? h with
    | none => d.markup n tasks
    | some (.text s) => .text (escape s.toList) :: d.markup n tasks
    | some (.comment s) => .comment s.toList :: d.markup n tasks
    | some (.element e) =>
      match d.children h with
      | [] => .empty (tagChars e) :: d.markup n tasks
      | hs => .opening (tagChars e) :: d.markup n (hs.map .node ++ .closing e.name :: tasks)

def emit (d : Drawing) (n : Nat) (tasks : List Task) : List Char :=
  (d.markup n tasks).flatMap Construct.written

def declarationText : String := "<?xml version=\"1.0\" encoding=\"UTF-8\"?>\n"

/-- In a tree every node is opened once and closed at most once. -/
def pieces (d : Drawing) : List String :=
  (if d.declared then ["<?xml version=\"1.0\" encoding=\"UTF-8\"?>", "\n"] else []) ++
    (d.markup (2 * d.nodes.size) [.node d.root]).map fun x => String.ofList x.written

def write (d : Drawing) : String := String.join d.pieces

/-- What takes a document piece by piece and gives its text out in the end. Either may fail, with a message. -/
structure Sink where
  Held : Type
  start : Held
  put : Held → String → Except String Held
  text : Held → Except String String

/-- Memory takes every piece. It holds strings one behind the other, so what it holds is text. -/
def Sink.memory : Sink where
  Held := String
  start := ""
  put held piece := .ok (held ++ piece)
  text := .ok

def writeTo (d : Drawing) (k : Sink) : Except Failure String :=
  (d.pieces.foldlM k.put k.start >>= k.text).mapError .unwritten

end FormulaDrawing.Drawing
