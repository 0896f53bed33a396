import FormulaDrawing.Proofs.Expression.Grammar
import FormulaDrawing.Proofs.Expression.Part

/-! The places inside an expression. A phrase is a list of tokens that the grammar derives as one of its
kinds; it consists of further phrases, and these stand at a place that is known by what is around it. Each
part of the tree has a place. -/

namespace FormulaDrawing.Expression

/-- What can be around a phrase. -/
inductive Wrap where
  /-- The brackets of a group or of a call. -/
  | brackets
  /-- A minus sign in front. -/
  | sign
deriving DecidableEq, Repr

/-- Tokens with what they stand for, by the kinds of the grammar. -/
inductive Phrase where
  | sum (ts : List Token) (e : Expr)
  | product (ts : List Token) (e : Expr)
  | signed (ts : List Token) (e : Expr)
  | atom (ts : List Token) (e : Expr)
  | arguments (ts : List Token) (es : List Expr)

namespace Phrase

def tokens : Phrase → List Token
  | sum ts _ | product ts _ | signed ts _ | atom ts _ | arguments ts _ => ts

def trees : Phrase → List Expr
  | sum _ e | product _ e | signed _ e | atom _ e => [e]
  | arguments _ es => es

/-- The second phrase is put in directly when the first is derived, inside the wraps. -/
inductive Has : Phrase → List Wrap → Phrase → Prop
  | term {ts : List Token} {e : Expr} : IsProduct ts e → Has (sum ts e) [] (product ts e)
  | sumLeft {ts us : List Token} {l r : Expr} {op : Operator} :
      IsSum ts l → op.joinsTerms → IsProduct us r →
      Has (sum (ts ++ .symbol op.symbol :: us) (.binary op l r)) [] (sum ts l)
  | sumRight {ts us : List Token} {l r : Expr} {op : Operator} :
      IsSum ts l → op.joinsTerms → IsProduct us r →
      Has (sum (ts ++ .symbol op.symbol :: us) (.binary op l r)) [] (product us r)
  | factor {ts : List Token} {e : Expr} : IsSigned ts e → Has (product ts e) [] (signed ts e)
  | productLeft {ts us : List Token} {l r : Expr} {op : Operator} :
      IsProduct ts l → op.joinsFactors → IsSigned us r →
      Has (product (ts ++ .symbol op.symbol :: us) (.binary op l r)) [] (product ts l)
  | productRight {ts us : List Token} {l r : Expr} {op : Operator} :
      IsProduct ts l → op.joinsFactors → IsSigned us r →
      Has (product (ts ++ .symbol op.symbol :: us) (.binary op l r)) [] (signed us r)
  | unsigned {ts : List Token} {e : Expr} : IsAtom ts e → Has (signed ts e) [] (atom ts e)
  | minus {ts : List Token} {e : Expr} : IsSigned ts e →
      Has (signed (.symbol .minus :: ts) (.neg e)) [.sign] (signed ts e)
  | group {ts : List Token} {e : Expr} : IsSum ts e →
      Has (atom (.symbol .bracketOpen :: ts ++ [.symbol .bracketClose]) e) [.brackets] (sum ts e)
  | call {f : String} {ts : List Token} {es : List Expr} : AreArguments ts es →
      Has (atom (.name f :: .symbol .bracketOpen :: ts ++ [.symbol .bracketClose]) (.call f es))
        [.brackets] (arguments ts es)
  | one {ts : List Token} {e : Expr} : IsSum ts e → Has (arguments ts [e]) [] (sum ts e)
  | before {ts us : List Token} {es : List Expr} {e : Expr} : AreArguments ts es → IsSum us e →
      Has (arguments (ts ++ .symbol .comma :: us) (es ++ [e])) [] (arguments ts es)
  | last {ts us : List Token} {es : List Expr} {e : Expr} : AreArguments ts es → IsSum us e →
      Has (arguments (ts ++ .symbol .comma :: us) (es ++ [e])) [] (sum us e)

/-- The second phrase stands somewhere in the first, inside the wraps from the outermost on. -/
inductive Encloses : Phrase → List Wrap → Phrase → Prop
  | self (p : Phrase) : Encloses p [] p
  | step {p q r : Phrase} {v w : List Wrap} : Has p v q → Encloses q w r → Encloses p (v ++ w) r

variable {p q : Phrase} {v : List Wrap} {a : Expr}

/-- The expression has a place in the phrase. -/
def Shown (a : Expr) (p : Phrase) : Prop := ∃ w q, Encloses p w q ∧ q.trees = [a]

theorem Shown.self (ha : p.trees = [a]) : Shown a p := ⟨[], p, .self p, ha⟩

theorem Shown.of_has (h : Has p v q) (ha : Shown a q) : Shown a p := by
  obtain ⟨w, r, hr, hmem⟩ := ha
  exact ⟨v ++ w, r, .step h hr, hmem⟩

mutual

theorem shown_of_isSum {ts : List Token} {e : Expr} : IsSum ts e → ∀ a ∈ e.parts, Shown a (sum ts e)
  | .term h => fun a ha => .of_has (.term h) (shown_of_isProduct h a ha)
  | .join op hl hop hr => fun a ha => by
    rw [Expr.parts, List.mem_cons, List.mem_append] at ha
    rcases ha with rfl | ha | ha
    · exact .self rfl
    · exact .of_has (.sumLeft hl hop hr) (shown_of_isSum hl a ha)
    · exact .of_has (.sumRight hl hop hr) (shown_of_isProduct hr a ha)

theorem shown_of_isProduct {ts : List Token} {e : Expr} :
    IsProduct ts e → ∀ a ∈ e.parts, Shown a (product ts e)
  | .factor h => fun a ha => .of_has (.factor h) (shown_of_isSigned h a ha)
  | .join op hl hop hr => fun a ha => by
    rw [Expr.parts, List.mem_cons, List.mem_append] at ha
    rcases ha with rfl | ha | ha
    · exact .self rfl
    · exact .of_has (.productLeft hl hop hr) (shown_of_isProduct hl a ha)
    · exact .of_has (.productRight hl hop hr) (shown_of_isSigned hr a ha)

theorem shown_of_isSigned {ts : List Token} {e : Expr} :
    IsSigned ts e → ∀ a ∈ e.parts, Shown a (signed ts e)
  | .atom h => fun a ha => .of_has (.unsigned h) (shown_of_isAtom h a ha)
  | .minus h => fun a ha => by
    rw [Expr.parts, List.mem_cons] at ha
    rcases ha with rfl | ha
    · exact .self rfl
    · exact .of_has (.minus h) (shown_of_isSigned h a ha)

theorem shown_of_isAtom {ts : List Token} {e : Expr} : IsAtom ts e → ∀ a ∈ e.parts, Shown a (atom ts e)
  | .number _ => fun _ ha => .self (List.mem_singleton.1 ha ▸ rfl)
  | .name _ => fun _ ha => .self (List.mem_singleton.1 ha ▸ rfl)
  | .group h => fun a ha => .of_has (.group h) (shown_of_isSum h a ha)
  | .emptyCall _ => fun _ ha => .self (List.mem_singleton.1 ha ▸ rfl)
  | .call f h => fun a ha => by
    rw [Expr.parts, Expr.partsOf_eq, List.mem_cons] at ha
    rcases ha with rfl | ha
    · exact .self rfl
    · exact .of_has (.call h) (shown_of_areArguments h a ha)

theorem shown_of_areArguments {ts : List Token} {es : List Expr} :
    AreArguments ts es → ∀ a ∈ es.flatMap Expr.parts, Shown a (arguments ts es)
  | .one h => fun a ha => by
    rw [List.flatMap_singleton] at ha
    exact .of_has (.one h) (shown_of_isSum h a ha)
  | .more hs h => fun a ha => by
    rw [List.flatMap_append, List.flatMap_singleton, List.mem_append] at ha
    rcases ha with ha | ha
    · exact .of_has (.before hs h) (shown_of_areArguments hs a ha)
    · exact .of_has (.last hs h) (shown_of_isSum h a ha)

end

end Phrase

end FormulaDrawing.Expression
