import FormulaDrawing.Expression.Failure

/-! What became of each marked element. -/

namespace FormulaDrawing.Substitution

inductive Outcome where
  | substituted (text : String)
  | failed (cause : Expression.Failure)
  /-- Without an identifier, a name or a formula of that name. -/
  | untouched
deriving DecidableEq

namespace Outcome

def isSubstituted : Outcome → Bool
  | substituted _ => true
  | _ => false

def isFailed : Outcome → Bool
  | failed _ => true
  | _ => false

def isUntouched : Outcome → Bool
  | untouched => true
  | _ => false

end Outcome

structure NodeReport where
  id : Option String
  formula : Option String
  outcome : Outcome
deriving DecidableEq

/-- One entry for each marked element, in document order. -/
abbrev Report := List NodeReport

namespace Report

def substituted (r : Report) : Nat := r.countP (·.outcome.isSubstituted)

def failed (r : Report) : Nat := r.countP (·.outcome.isFailed)

def untouched (r : Report) : Nat := r.countP (·.outcome.isUntouched)

end Report

end FormulaDrawing.Substitution
