import FormulaDrawing.Drawing.Basic
import FormulaDrawing.Drawing.Failure

/-! A drawing from its source. The constructs are taken in order; each adds a node below the innermost
open element, and what stands outside the root element is dropped. -/

namespace FormulaDrawing.Drawing

open Markup

/-- The nodes so far, the open elements with the innermost first, and whether a declaration has been
seen. The root is the first node. -/
structure Reading where
  nodes : Array Node := #[]
  stack : List Handle := []
  declared : Bool := false

namespace Reading

/-- Adds a node below the innermost open element; outside the root it is dropped. -/
def attach (r : Reading) (c : Content) : Reading :=
  match r.stack with
  | [] => r
  | parent :: _ =>
    let h := r.nodes.size
    let below := r.nodes.modify parent fun n => { n with children := n.children ++ [h] }
    { r with nodes := below.push { content := c, parent := some parent } }

/-- Adds an element, of which only the first may stand outside others. -/
def addElement (r : Reading) (tag : List Char) : Except Failure Reading :=
  match tagAttributes tag with
  | .error fault => .error (.malformed 0 (.attributes fault))
  | .ok attributes =>
    let e : Content := .element { name := String.ofList (tagName tag), attributes }
    match r.stack with
    | _ :: _ => .ok (r.attach e)
    | [] => if r.nodes.isEmpty then .ok { r with nodes := #[{ content := e }] }
      else .error .severalRoots

/-- The name in an end tag: trailing gaps do not count, unless there is nothing else. -/
def closingName (tag : List Char) : List Char :=
  if tag.all Text.isGap then tag else (tag.reverse.dropWhile Text.isGap).reverse

def nameOf (nodes : Array Node) (h : Handle) : String :=
  (nodes[h]?.bind (·.content.element?)).elim "" (·.name)

def close (r : Reading) (place : Nat) (tag : List Char) : Except Failure Reading :=
  let found := String.ofList (closingName tag)
  match r.stack with
  | [] => .error (.malformed place (.unmatched found))
  | h :: stack =>
    let expected := nameOf r.nodes h
    if found = expected then .ok { r with stack }
    else .error (.malformed place (.mismatched expected found))

/-- The word `xml`, alone or with a gap behind it, is the target of the declaration. -/
def isDeclaration : List Char → Bool
  | ['x', 'm', 'l'] => true
  | 'x' :: 'm' :: 'l' :: c :: _ => Text.isGap c
  | _ => false

def take (r : Reading) : Except (ConstructFault × Nat) Placed → Except Failure Reading
  | .error (fault, place) => .error (.malformed place (.construct fault))
  | .ok ⟨construct, start, stop⟩ =>
    match construct with
    | .text raw =>
      match unescape raw with
      | .error fault => .error (.malformed stop (.text fault))
      | .ok s => .ok (r.attach (.text (String.ofList s)))
    | .verbatim s => .ok (r.attach (.text (String.ofList s)))
    | .comment s => .ok (r.attach (.comment (String.ofList s)))
    | .instruction s => .ok { r with declared := r.declared || isDeclaration s }
    | .doctype _ => .ok r
    | .empty tag => r.addElement tag
    | .opening tag => (r.addElement tag).map fun next => { next with stack := r.nodes.size :: r.stack }
    | .closing tag => r.close start tag

/-- Every element has to be closed at the end, and there has to be one. -/
def finish (r : Reading) : Except Failure Drawing :=
  match r.stack with
  | h :: _ => .error (.unclosed (nameOf r.nodes h))
  | [] => if r.nodes.isEmpty then .error .noRoot
    else .ok { nodes := r.nodes, declared := r.declared }

end Reading

/-- A byte order mark in front does not count. -/
def dropMark : List Char → List Char
  | c :: s => if c = '\ufeff' then s else c :: s
  | [] => []

def read (source : String) : Except Failure Drawing := do
  let r ← (constructs 0 (dropMark source.toList)).foldlM Reading.take {}
  r.finish

end FormulaDrawing.Drawing
