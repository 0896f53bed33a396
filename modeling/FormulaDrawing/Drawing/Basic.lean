import FormulaDrawing.Drawing.Element

/-! A drawing is a tree of nodes kept in one array. A node is named by its place there, which it keeps
when it moves or leaves the tree; nodes are created outside the tree. -/

namespace FormulaDrawing

abbrev Handle := Nat

inductive Content where
  | element (e : Element)
  | text (s : String)
  | comment (s : String)
deriving DecidableEq, Repr

namespace Content

def element? : Content → Option Element
  | element e => some e
  | _ => none

def text? : Content → Option String
  | text s => some s
  | _ => none

end Content

structure Node where
  content : Content
  parent : Option Handle := none
  children : List Handle := []
deriving DecidableEq, Repr

/-- `declared` says whether the XML declaration is written. -/
structure Drawing where
  nodes : Array Node
  root : Handle := 0
  declared : Bool := false
deriving DecidableEq, Repr

namespace Drawing

def node? (d : Drawing) (h : Handle) : Option Node := d.nodes[h]?

def content? (d : Drawing) (h : Handle) : Option Content := (d.node? h).map (·.content)

def element? (d : Drawing) (h : Handle) : Option Element := (d.content? h).bind (·.element?)

def text? (d : Drawing) (h : Handle) : Option String := (d.content? h).bind (·.text?)

def parent? (d : Drawing) (h : Handle) : Option Handle := (d.node? h).bind (·.parent)

def children (d : Drawing) (h : Handle) : List Handle := ((d.node? h).map (·.children)).getD []

def attr? (d : Drawing) (h : Handle) (name : String) : Option String :=
  (d.element? h).bind (·.attr? name)

def id? (d : Drawing) (h : Handle) : Option String := (d.element? h).bind (·.id?)

def ownText (d : Drawing) (h : Handle) : String := String.join ((d.children h).filterMap d.text?)

/-- The texts among the children in front of the first element, joined. -/
def leadingText (d : Drawing) (h : Handle) : String :=
  String.join (((d.children h).takeWhile fun c => (d.element? c).isNone).filterMap d.text?)

/-- The nodes on the agenda, each followed by what is below it, in document order. -/
def walk (d : Drawing) : Nat → List Handle → List Handle
  | 0, _ => []
  | _, [] => []
  | n + 1, h :: agenda => h :: d.walk n (d.children h ++ agenda)

/-- The nodes below a node. In a tree no more steps are needed than there are nodes. -/
def descendants (d : Drawing) (h : Handle) : List Handle := d.walk d.nodes.size (d.children h)

def descendantElements (d : Drawing) (h : Handle) : List Handle :=
  (d.descendants h).filter fun n => (d.element? n).isSome

def elements (d : Drawing) : List Handle := d.root :: d.descendantElements d.root

def create (d : Drawing) (c : Content) : Drawing × Handle :=
  ({ d with nodes := d.nodes.push { content := c } }, d.nodes.size)

def modify (d : Drawing) (h : Handle) (f : Node → Node) : Drawing :=
  { d with nodes := d.nodes.modify h f }

def modifyElement (d : Drawing) (h : Handle) (f : Element → Element) : Drawing :=
  d.modify h fun n =>
    match n.content with
    | .element e => { n with content := .element (f e) }
    | _ => n

/-- A node outside the tree stays there. -/
def detach (d : Drawing) (h : Handle) : Drawing :=
  match d.parent? h with
  | none => d
  | some p =>
    (d.modify h ({ · with parent := none })).modify p fun n =>
      { n with children := n.children.filter (· != h) }

/-- Moves a node behind the children of `parent`. -/
def append (d : Drawing) (parent child : Handle) : Drawing :=
  ((d.detach child).modify parent fun n => { n with children := n.children ++ [child] }).modify
    child ({ · with parent := some parent })

/-- Moves a node between the children of `parent`, at the end if there are fewer than `index`. -/
def insert (d : Drawing) (parent : Handle) (index : Nat) (child : Handle) : Drawing :=
  ((d.detach child).modify parent fun n =>
      { n with children := n.children.take index ++ child :: n.children.drop index }).modify
    child ({ · with parent := some parent })

def replaceFirst (old new : Handle) : List Handle → List Handle
  | [] => []
  | h :: hs => if h = old then new :: hs else h :: replaceFirst old new hs

/-- Puts `new` where `old` stands and takes `old` out, unless `old` has no parent. -/
def replace? (d : Drawing) (old new : Handle) : Option Drawing :=
  (d.parent? old).map fun p =>
    (((d.detach new).modify p fun n => { n with children := replaceFirst old new n.children }).modify
      new ({ · with parent := some p })).modify old ({ · with parent := none })

/-- A new element outside the tree, with one text below it where there is one. -/
def createElement (d : Drawing) (e : Element) (text : Option String) : Drawing × Handle :=
  let (d, h) := d.create (.element e)
  match text with
  | none => (d, h)
  | some s =>
    let (d, t) := d.create (.text s)
    (d.append h t, h)

def textOf? (d : Drawing) (id : String) : Option String :=
  (d.elements.find? fun h => d.attr? h "id" == some id).map fun h =>
    String.join ((d.descendants h).filterMap d.text?)

end Drawing

end FormulaDrawing
