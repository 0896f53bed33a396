import FormulaDrawing.Xml.Doctype

/-! A document as its events, in order. Names are looked up in the namespaces that are declared around
them, and references are replaced by what they stand for. -/

namespace FormulaDrawing.Xml

/-- Namespaces are named by addresses. -/
def address (parts : List String) : String := "/".intercalate ("http:" :: "" :: "www.w3.org" :: parts)

def reservedSpace : String := address ["XML", "1998", "namespace"]

def declaringSpace : String := address ["2000", "xmlns", ""]

structure Attribute where
  space : Option String
  base : String
  value : String
deriving DecidableEq, Repr

structure Element where
  space : Option String
  base : String
  attributes : List Attribute
deriving DecidableEq, Repr

inductive Event where
  | begins (e : Element)
  | ends
  /-- Characters, a comment or an instruction. -/
  | leaf
deriving DecidableEq, Repr

/-- Namespaces by what stands before the colon, where nothing does for the default. -/
abbrev Scope := List (String × String)

/-- How deep entities may refer to others. -/
def maxDepth : Nat := 10

/-- How many references may stand in what one reference stands for. -/
def maxReferences : Nat := 255

structure Reading where
  entities : Entities
  /-- The events so far, the last one first. -/
  events : List Event := []
  /-- The open elements, the innermost first. -/
  opened : List (Name × Scope) := []
  /-- Whether a tag has begun in the text or entity that is being read. -/
  begun : Bool := false
  /-- The namespaces and attributes of the tag that is being read, in order. -/
  declared : Scope := []
  attributes : List (Name × String) := []
  /-- How many references have been followed since the text was left. -/
  references : Nat := 0

def countReference (depth references : Nat) : Option Nat :=
  if depth = maxDepth then some references
  else if references < maxReferences then some (references + 1) else none

/-- The count after an entity: back in the text it starts again. -/
def afterEntity (depth references : Nat) : Nat := if depth = maxDepth then 0 else references

/-- A line break or tab in a value counts as a space. -/
def valueChar (c : Char) : Char := if Text.isGap c then ' ' else c

/-- The value that is written as `s`, `depth` references away from the deepest. In an entity a
reference by number is no different from the character, and no tag may come of it. -/
def valueOf (entities : Entities) (depth references : Nat) (s : List Char) :
    Option (List Char × Nat) :=
  match s with
  | [] => some ([], references)
  | '&' :: t =>
    match _h : reference.run t with
    | none => none
    | some (.char c, rest) => do
      if depth < maxDepth && c == '<' then none
      let (v, references) ← valueOf entities depth references rest
      return ((if depth = maxDepth then c else valueChar c) :: v, references)
    | some (.entity n, rest) => do
      let definition ← entities.lookup n
      let references ← countReference depth references
      match depth with
      | 0 => none
      | d + 1 => do
        let (front, references) ← valueOf entities d references definition
        let (back, references) ←
          valueOf entities (d + 1) (afterEntity (d + 1) references) rest
        return (front ++ back, references)
  | c :: t => do
    let (v, references) ← valueOf entities depth references t
    if c = '\r' && t.head? == some '\n' then return (v, references)
    return (valueChar c :: v, references)
termination_by (depth, s.length)
decreasing_by
  · exact Prod.Lex.right _ (Scan.lt_cons _h)
  · exact Prod.Lex.left _ _ (Nat.lt_succ_self _)
  · exact Prod.Lex.right _ (Scan.lt_cons _h)
  · exact Prod.Lex.right _ (Nat.lt_succ_self _)

namespace Reading

/-- Declares a namespace. The two reserved ones keep to themselves. -/
def declare (r : Reading) (space address : String) : Option Reading :=
  if address = declaringSpace then none
  else if space = "xml" then if address = reservedSpace then some r else none
  else if address = reservedSpace then none
  else if space ≠ "" && r.declared.any (·.1 == space) then none
  else some { r with declared := r.declared ++ [(space, address)] }

def addAttribute (depth : Nat) (r : Reading) (a : Name × List Char) : Option Reading := do
  let (v, references) ← valueOf r.entities depth r.references a.2
  let r := { r with references }
  let value := String.ofList v
  if a.1.space = "xmlns" then r.declare a.1.base value
  else if a.1.base = "xmlns" then r.declare "" value
  else return { r with attributes := r.attributes ++ [(a.1, value)] }

/-- The namespaces around the content of the innermost open element. -/
def scope (r : Reading) : Scope := r.opened.head?.elim [] (·.2)

/-- Looks up what stands before the colon, where it may be nothing. -/
def lookUp (scope : Scope) (space : String) : Option (Option String) :=
  match scope.lookup space with
  | some address => some (some address)
  | none => if space = "" then some none else none

def resolve (scope : Scope) (a : Name × String) : Option Attribute := do
  let space ← if a.1.space = "xml" then some (some reservedSpace)
    else if a.1.space = "" then some none
    else lookUp scope a.1.space
  return { space, base := a.1.base, value := a.2 }

def sameName (a b : Attribute) : Bool := a.space == b.space && a.base == b.base

/-- Resolves attributes, no two of which may have one name. -/
def resolveAll (scope : Scope) (as : List (Name × String)) : Option (List Attribute) := do
  let resolved ← as.mapM (resolve scope)
  guard (resolved.Pairwise fun a b => sameName a b = false)
  return resolved

def finishTag (r : Reading) : Option (Scope × List Attribute × Reading) := do
  let outer := r.scope.filter fun p => !r.declared.any (·.1 == p.1)
  let scope := r.declared ++ outer
  let attributes ← resolveAll scope r.attributes
  return (scope, attributes, { r with declared := [], attributes := [] })

def beginElement (r : Reading) (n : Name) (isEmpty : Bool) : Option Reading := do
  let (scope, attributes, r) ← r.finishTag
  let e : Element := { space := ← lookUp scope n.space, base := n.base, attributes }
  if isEmpty then return { r with events := .ends :: .begins e :: r.events }
  else return { r with events := .begins e :: r.events, opened := (n, scope) :: r.opened }

def takeTag (depth : Nat) (r : Reading) (t : Tag) : Option Reading := do
  guard (t.name.space ≠ "xmlns")
  let r ← t.attributes.foldlM (addAttribute depth) { r with begun := true }
  match t.ending with
  | .opened => r.beginElement t.name false
  | .empty => r.beginElement t.name true
  | .cut => return r

/-- Takes an end tag. An entity cannot close what it has not begun. -/
def takeClosing (r : Reading) (n : Name) : Option Reading := do
  guard r.begun
  let (_, _, r) ← r.finishTag
  let (top, opened) ← r.opened.head?.map (·, r.opened.tail)
  guard (top.1 = n)
  return { r with events := .ends :: r.events, opened }

def takeLeaf (r : Reading) : Reading := { r with events := .leaf :: r.events }

end Reading

inductive Markup where
  | leaf
  | tag (t : Tag)
  | closing (n : Name)

def markup : Scan Markup := do
  if ← Scan.begins "!--" then do comment; return .leaf
  else if ← Scan.begins "![CDATA[" then do verbatim; return .leaf
  else if ← Scan.begins "?" then do instruction; return .leaf
  else if ← Scan.begins "/" then do Scan.word "/"; return .closing (← closingTag)
  else return .tag (← tag)

/-- Reads the content of an element or an entity, of which `nested` elements are open. It ends with
the end tag of the outermost of these or with the text. -/
def content (depth nested : Nat) (r : Reading) (s : List Char) :
    Option (Reading × List Char) :=
  match s with
  | [] => some (r, [])
  | '<' :: t =>
    match _h : markup.run t with
    | none => none
    | some (.leaf, rest) => content depth nested r.takeLeaf rest
    | some (.tag g, rest) => do
      content depth (if g.ending = .opened then nested + 1 else nested) (← r.takeTag depth g) rest
    | some (.closing n, rest) => do
      let r ← r.takeClosing n
      if nested ≤ 1 then return (r, rest)
      content depth (nested - 1) r rest
  | '&' :: t =>
    match _h : reference.run t with
    | none => none
    | some (.char _, rest) => content depth nested r.takeLeaf rest
    | some (.entity n, rest) => do
      let definition ← r.entities.lookup n
      let references ← countReference depth r.references
      match depth with
      | 0 => none
      | d + 1 => do
        let (inner, _) ← content d 1 { r with begun := false, references } definition
        let references := afterEntity (d + 1) inner.references
        content (d + 1) nested { inner with begun := r.begun, references } rest
  | c :: t =>
    if isAllowed c && (Text.after? "]]>".toList (c :: t)).isNone then
      content depth nested r.takeLeaf t
    else none
termination_by (depth, s.length)
decreasing_by
  all_goals first
    | exact Prod.Lex.left _ _ (Nat.lt_succ_self _)
    | exact Prod.Lex.right _ (Scan.lt_cons _h)
    | exact Prod.Lex.right _ (Nat.lt_succ_self _)

def dropMark : List Char → List Char
  | c :: s => if c = '\ufeff' then s else c :: s
  | [] => []

/-- Reads the root element, with what follows it. -/
def readRoot (r : Reading) (s : List Char) : Option (Reading × List Char) := do
  let (t, rest) ← (do Scan.word "<"; tag : Scan Tag).run s
  let r ← r.takeTag maxDepth t
  if t.ending = .opened then content maxDepth 1 r rest else return (r, rest)

/-- The events of a document that is well formed, with one root element and all elements closed. -/
def read? (source : String) : Option (List Event) := do
  let (entities, s) ← prologue.run (dropMark source.toList)
  let (r, s) ← readRoot { entities } s
  let (_, s) ← asides.run s
  guard (s.isEmpty && r.opened.isEmpty)
  return r.events.reverse

end FormulaDrawing.Xml
