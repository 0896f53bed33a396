import FormulaDrawing.Text.Blank
import FormulaDrawing.Text.Pieces

/-! Elements: a name and attributes in order. Reading an attribute finds the first of that name. -/

namespace FormulaDrawing

structure Element where
  name : String
  attributes : List (String × String) := []
deriving DecidableEq, Repr

namespace Element

/-- The name behind the last colon. -/
def localName (e : Element) : String :=
  String.ofList ((Text.pieces ':' e.name.toList).getLastD [])

def attr? (e : Element) (name : String) : Option String := e.attributes.lookup name

def attr (e : Element) (name : String) : String := (e.attr? name).getD ""

def setFirst (name value : String) : List (String × String) → List (String × String)
  | [] => [(name, value)]
  | (n, v) :: rest => if n = name then (n, value) :: rest else (n, v) :: setFirst name value rest

/-- A new value stands where the old one stood, and otherwise at the end. -/
def setAttr (e : Element) (name value : String) : Element :=
  { e with attributes := setFirst name value e.attributes }

/-- The identifier, unless it is blank; it is not trimmed. -/
def id? (e : Element) : Option String :=
  (e.attr? "id").filter fun s => (Text.nonBlank? s).isSome

def classes (e : Element) : List String := (Text.words (e.attr "class").toList).map String.ofList

def hasClass (e : Element) (c : String) : Bool := e.classes.contains c

/-- A class the element does not have goes to the end of its trimmed class attribute. -/
def addClass (e : Element) (c : String) : Element :=
  if e.hasClass c then e
  else
    match Text.nonBlank? (e.attr "class") with
    | none => e.setAttr "class" c
    | some existing => e.setAttr "class" (existing ++ " " ++ c)

theorem lookup_setFirst (name value other : String) (l : List (String × String)) :
    (setFirst name value l).lookup other = if other = name then some value else l.lookup other := by
  induction l with
  | nil =>
    by_cases h : other = name
    · simp [setFirst, h]
    · have hb : (other == name) = false := by simpa using h
      simp [setFirst, List.lookup_cons, hb, h]
  | cons p l ih =>
    obtain ⟨n, v⟩ := p
    by_cases hn : n = name
    · subst hn
      by_cases h : other = n
      · simp [setFirst, h]
      · have hb : (other == n) = false := by simpa using h
        simp [setFirst, List.lookup_cons, hb, h]
    · by_cases h : other = n
      · subst h; simp [setFirst, hn]
      · have hb : (other == n) = false := by simpa using h
        simp [setFirst, hn, List.lookup_cons, hb, ih]

@[simp] theorem attr?_setAttr (e : Element) (name value other : String) :
    (e.setAttr name value).attr? other = if other = name then some value else e.attr? other :=
  lookup_setFirst ..

end Element

end FormulaDrawing
