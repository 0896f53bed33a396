import Mathlib
import FormulaDrawing.Expression.Parser

/-! The grammar of expressions, with the tree that a list of tokens stands for. A sum is a product or
a sum, a sign `+` or `-` and a product, so both kinds of operation group to the left. -/

namespace FormulaDrawing.Expression

def Operator.symbol : Operator → Symbol
  | .add => .plus
  | .sub => .minus
  | .mul => .times
  | .div => .divide

@[simp] theorem operator?_symbol (op : Operator) : op.symbol.operator? = some op := by
  cases op <;> rfl

theorem symbol_of_operator? {s : Symbol} {op : Operator} (h : s.operator? = some op) :
    s = op.symbol := by
  cases s <;> simp [Symbol.operator?] at h <;> subst h <;> rfl

theorem symbol_ne_bracketOpen (op : Operator) : op.symbol ≠ .bracketOpen := by
  cases op <;> decide

def Operator.joinsTerms (op : Operator) : Prop := op = .add ∨ op = .sub

def Operator.joinsFactors (op : Operator) : Prop := op = .mul ∨ op = .div

theorem joinsTerms_or_joinsFactors (op : Operator) : op.joinsTerms ∨ op.joinsFactors := by
  cases op <;> simp [Operator.joinsTerms, Operator.joinsFactors]

mutual

inductive IsSum : List Token → Expr → Prop
  | term {ts : List Token} {e : Expr} : IsProduct ts e → IsSum ts e
  | join {ts us : List Token} {l r : Expr} (op : Operator) :
      IsSum ts l → op.joinsTerms → IsProduct us r →
      IsSum (ts ++ .symbol op.symbol :: us) (.binary op l r)

inductive IsProduct : List Token → Expr → Prop
  | factor {ts : List Token} {e : Expr} : IsSigned ts e → IsProduct ts e
  | join {ts us : List Token} {l r : Expr} (op : Operator) :
      IsProduct ts l → op.joinsFactors → IsSigned us r →
      IsProduct (ts ++ .symbol op.symbol :: us) (.binary op l r)

/-- An atom behind any number of minus signs. -/
inductive IsSigned : List Token → Expr → Prop
  | atom {ts : List Token} {e : Expr} : IsAtom ts e → IsSigned ts e
  | minus {ts : List Token} {e : Expr} :
      IsSigned ts e → IsSigned (.symbol .minus :: ts) (.neg e)

inductive IsAtom : List Token → Expr → Prop
  | number (x : Float) : IsAtom [.number x] (.number x)
  | name (n : String) : IsAtom [.name n] (.name n)
  | group {ts : List Token} {e : Expr} :
      IsSum ts e → IsAtom (.symbol .bracketOpen :: ts ++ [.symbol .bracketClose]) e
  | emptyCall (f : String) :
      IsAtom [.name f, .symbol .bracketOpen, .symbol .bracketClose] (.call f [])
  | call (f : String) {ts : List Token} {es : List Expr} : AreArguments ts es →
      IsAtom (.name f :: .symbol .bracketOpen :: ts ++ [.symbol .bracketClose]) (.call f es)

/-- One or more sums with commas in between. -/
inductive AreArguments : List Token → List Expr → Prop
  | one {ts : List Token} {e : Expr} : IsSum ts e → AreArguments ts [e]
  | more {ts us : List Token} {es : List Expr} {e : Expr} :
      AreArguments ts es → IsSum us e → AreArguments (ts ++ .symbol .comma :: us) (es ++ [e])

end

theorem AreArguments.ne_nil {ts : List Token} {es : List Expr} : AreArguments ts es → es ≠ []
  | .one _ => by simp
  | .more _ _ => by simp

/-- A list of tokens that is an expression. -/
def IsExpression (ts : List Token) : Prop := ∃ e, IsSum ts e

/-- A list of tokens that some expression begins with. -/
def Viable (ts : List Token) : Prop := ∃ rest, IsExpression (ts ++ rest)

theorem Viable.of_append {ts us : List Token} (h : Viable (ts ++ us)) : Viable ts := by
  obtain ⟨rest, he⟩ := h
  exact ⟨us ++ rest, by simpa using he⟩

end FormulaDrawing.Expression
