import FormulaDrawing.Proofs.Drawing.Change
import FormulaDrawing.Substitution.Basic

/-! What substitution makes of a tree, by recursion. What becomes of an element is decided on the tree
as it was read; the element is replaced with all that is below it, or it stays and so does what the
recursion makes of the trees below it. What is new in the result is spelled out. -/

namespace FormulaDrawing

open Substitution

namespace Tree

def element? (t : Tree Content) : Option Element := t.label.element?

def attr? (t : Tree Content) (name : String) : Option String := t.element?.bind (·.attr? name)

def elementsBelow (t : Tree Content) : List (Tree Content) :=
  (t.children.flatMap subtrees).filter fun u => u.element?.isSome

/-- The texts among the children in front of the first element, joined. -/
def leadingText (t : Tree Content) : String :=
  String.join ((t.children.takeWhile fun u => u.element?.isNone).filterMap (·.label.text?))

def nameTexts (labels : List String) (t : Tree Content) : List String :=
  t.leadingText :: labels.filterMap t.attr?

/-- The first text that is not blank, of the element and then of those below it, cleaned. -/
def formulaName? (labels : List String) (t : Tree Content) : Option String :=
  (((t :: t.elementsBelow).flatMap (nameTexts labels)).find? fun s =>
    (Text.nonBlank? s).isSome).bind Drawing.cleanName?

def styleFrom? (t : Tree Content) (p : Style.Property) : Style.Source → Option String
  | .presentation => t.element?.bind (Style.ofAttribute? p)
  | .inline => t.element?.bind (Style.ofInline? p)
  | .below => t.elementsBelow.findSome? fun u => u.element?.bind (Style.ofElement? p)

def styleValue (r : Style.Resolver) (t : Tree Content) (p : Style.Property) : String :=
  (r.order.findSome? (t.styleFrom? p)).getD (r.defaults.get p)

def style (r : Style.Resolver) (t : Tree Content) : Style where
  fill := t.styleValue r .fill
  fontSize := t.styleValue r .fontSize
  fontFamily := t.styleValue r .fontFamily

def coordinate (t : Tree Content) (name : String) : String :=
  ((t.attr? name).bind Text.nonBlank?).getD "0"

/-- The point that a path begins with, and the coordinates that are written for anything else. -/
def place (t : Tree Content) : Position :=
  if t.element?.map (·.localName) = some "path" then
    ((t.attr? "d").bind Position.ofPath?).getD { x := "0", y := "0" }
  else { x := t.coordinate "x", y := t.coordinate "y" }

end Tree

namespace Substitution

/-- What becomes of a tree. -/
inductive Verdict where
  /-- This element with this text comes in its place. -/
  | replace (e : Element) (text : String)
  /-- It is flagged, and this warning is put behind its siblings. -/
  | flag (warning : Element)
  | keep
deriving DecidableEq

/-- What a formula, the first of its name, sets for a property. -/
def override? (i : Input) (name : String) : Style.Property → Option String
  | .fill => (i.formulas.find? (·.name == name)).bind fun f => f.fill.bind Text.nonBlank?
  | .fontSize => (i.formulas.find? (·.name == name)).bind fun f => f.fontSize.bind Text.nonBlank?
  | .fontFamily => none

/-- What the formula sets comes before what is declared for the element, and that before its own style. -/
def styleValue (i : Input) (t : Tree Content) (name id : String) (p : Style.Property) : String :=
  let declared := i.declarations.find? fun x => x.name == name && x.id == id
  (override? i name p).getD ((declared.map (·.style.get p)).getD (t.styleValue i.settings.resolver p))

/-- The text that comes in the place of a tree. -/
def newText (i : Input) (t : Tree Content) (name id : String) : Element where
  name := "text"
  attributes := [("id", id), ("x", t.place.x), ("y", t.place.y),
    ("style", "fill:" ++ styleValue i t name id .fill ++ ";font-size:" ++
      styleValue i t name id .fontSize),
    ("font-family", styleValue i t name id .fontFamily)] ++
    ((t.attr? "transform").filter fun v => (Text.nonBlank? v).isSome).toList.map ("transform", ·)

/-- The warning beside a tree that is flagged. -/
def newWarning (s : Settings) (t : Tree Content) : Element where
  name := "text"
  attributes := [("x", (t.place.shift s.warningOffset).x), ("y", (t.place.shift s.warningOffset).y),
    ("fill", s.warningFill), ("font-size", s.warningFontSize), ("font-weight", "bold")]

/-- The rule for the error class. -/
def newRule (s : Settings) : Tree Content :=
  .holding { name := "style" }
    ("." ++ s.errorClass ++ " \x7bfont-style: italic; text-decoration: underline;\x7d")

/-- A marked element with an identifier and a name for which there is a result. -/
def verdict (i : Input) (t : Tree Content) : Verdict :=
  match t.element? with
  | none => .keep
  | some e =>
    if e.hasClass i.settings.markerClass then
      match t.formulaName? i.settings.labels, e.id? with
      | some name, some id =>
        match i.evaluations.find? name with
        | some (.ok v) => .replace (newText i t name id) v.inscription
        | some (.error _) => .flag (newWarning i.settings t)
        | none => .keep
      | _, _ => .keep
    else .keep

namespace Verdict

/-- What stands at the top of a tree that stays. -/
def label (s : Settings) : Verdict → Content → Content
  | .flag _, c => c.mapElement (·.addClass s.errorClass)
  | _, c => c

/-- What comes in the place of a tree, where `stays` is what it is if it stays. -/
def tree (stays : Tree Content) : Verdict → Tree Content
  | .replace e text => .holding e text
  | _ => stays

def marker? (s : Settings) : Verdict → Option (Tree Content)
  | .flag warning => some (.holding warning s.warningGlyph)
  | _ => none

def edit? (h : Handle) : Verdict → Option Edit
  | .replace e text => some (.replace h e text)
  | .flag warning => some (.flag h warning)
  | .keep => none

end Verdict

mutual

/-- A tree that stays, with one warning behind its children for each of them that is flagged. -/
def kept (i : Input) : Tree Content → Tree Content
  | .node c ts =>
    .node ((verdict i (.node c ts)).label i.settings c)
      (rewrittenAll i ts ++ ts.filterMap fun t => (verdict i t).marker? i.settings)

/-- Trees that stand below an element. -/
def rewrittenAll (i : Input) : List (Tree Content) → List (Tree Content)
  | [] => []
  | t :: ts => (verdict i t).tree (kept i t) :: rewrittenAll i ts

end

/-- The root always stays; the rule for the error class comes in front of all that is below it. -/
def rewritten (i : Input) (t : Tree Content) : Tree Content :=
  let u := kept i t
  if i.settings.errorStyle then .node u.label (newRule i.settings :: u.children) else u

end Substitution

end FormulaDrawing
