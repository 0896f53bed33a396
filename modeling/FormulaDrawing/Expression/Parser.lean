import FormulaDrawing.Expression.Expr
import FormulaDrawing.Expression.Lexer

/-! Reading a list of tokens as an expression. The reader keeps what is still open (brackets, and
inside each the sum, product and signs begun) and takes one token at a time, so a token it refuses
is the first that no expression continues with. -/

namespace FormulaDrawing.Expression

/-- The operations begun inside one pair of brackets, outermost first. -/
structure Level where
  sum : Option (Expr × Operator) := none
  product : Option (Expr × Operator) := none
  signs : Nat := 0

/-- An open bracket: of a group, or of a call with the arguments before the current one. -/
inductive Bracket where
  | group
  | call (function : String) (before : List Expr)

inductive Stage where
  | operand
  | firstArgument
  /-- Directly after a name, which may be that of a call. -/
  | named (n : String)
  /-- After an operand that is complete without its signs. -/
  | complete (e : Expr)

structure Reader where
  outer : List (Bracket × Level) := []
  level : Level := {}
  stage : Stage := .operand

def negate : Nat → Expr → Expr
  | 0, e => e
  | n + 1, e => .neg (negate n e)

def joinLeft : Option (Expr × Operator) → Expr → Expr
  | none, e => e
  | some (left, op), e => .binary op left e

/-- The product that ends with the operand `e`. -/
def Level.term (l : Level) (e : Expr) : Expr := joinLeft l.product (negate l.signs e)

/-- The sum that ends with the operand `e`. -/
def Level.total (l : Level) (e : Expr) : Expr := joinLeft l.sum (l.term e)

def Level.extend (l : Level) (e : Expr) : Operator → Level
  | .add => { sum := some (l.total e, .add) }
  | .sub => { sum := some (l.total e, .sub) }
  | .mul => { sum := l.sum, product := some (l.term e, .mul) }
  | .div => { sum := l.sum, product := some (l.term e, .div) }

def Symbol.operator? : Symbol → Option Operator
  | .plus => some .add
  | .minus => some .sub
  | .times => some .mul
  | .divide => some .div
  | _ => none

def Stage.operand? : Stage → Option Expr
  | .named n => some (.name n)
  | .complete e => some e
  | _ => none

def Reader.enter (r : Reader) (b : Bracket) (next : Stage) : Reader :=
  { outer := (b, r.level) :: r.outer, level := {}, stage := next }

/-- A token where an operand may start. -/
def Reader.start (r : Reader) : Token → Option Reader
  | .number x => some { r with stage := .complete (.number x) }
  | .name n => some { r with stage := .named n }
  | .symbol .bracketOpen => some (r.enter .group .operand)
  | .symbol .minus =>
    some { r with level := { r.level with signs := r.level.signs + 1 }, stage := .operand }
  | _ => none

/-- A symbol after the complete operand `e`. -/
def Reader.follow (r : Reader) (e : Expr) (s : Symbol) : Option Reader :=
  match s.operator?, s, r.outer with
  | some op, _, _ => some { r with level := r.level.extend e op, stage := .operand }
  | none, .bracketClose, (.group, l) :: outer =>
    some { outer, level := l, stage := .complete (r.level.total e) }
  | none, .bracketClose, (.call f before, l) :: outer =>
    some { outer, level := l, stage := .complete (.call f (before ++ [r.level.total e])) }
  | none, .comma, (.call f before, l) :: outer =>
    some { outer := (.call f (before ++ [r.level.total e]), l) :: outer }
  | _, _, _ => none

/-- The reader after one more token, unless the token cannot stand here. -/
def Reader.step (r : Reader) (t : Token) : Option Reader :=
  match r.stage, t, r.outer with
  | .operand, _, _ => r.start t
  | .firstArgument, .symbol .bracketClose, (.call f _, l) :: outer =>
    some { outer, level := l, stage := .complete (.call f []) }
  | .firstArgument, _, _ => r.start t
  | .named n, .symbol .bracketOpen, _ => some (r.enter (.call n []) .firstArgument)
  | .named n, .symbol s, _ => r.follow (.name n) s
  | .complete e, .symbol s, _ => r.follow e s
  | _, _, _ => none

def Reader.result? (r : Reader) : Option Expr :=
  match r.outer with
  | [] => r.stage.operand?.map r.level.total
  | _ :: _ => none

/-- What can follow, among symbols and the end. -/
def Reader.expected (r : Reader) : Expectation where
  symbols := Symbol.all.filter fun s => (r.step (.symbol s)).isSome
  ending := r.result?.isSome

/-- Reads on; an end that comes too early is reported with the span `ending`. -/
def Reader.read (ending : Span) (r : Reader) : List Lexeme → Except Failure Expr
  | [] =>
    match r.result? with
    | some e => .ok e
    | none => .error (.unexpected none ending r.expected)
  | l :: ls =>
    match r.step l.token with
    | some next => next.read ending ls
    | none => .error (.unexpected (some l.token) l.span r.expected)

structure Limits where
  depth : Nat := 64
  tokens : Nat := 1024
deriving DecidableEq, Repr

/-- A token after which a minus is an operator and not a sign. -/
def Token.endsOperand : Token → Bool
  | .number _ | .name _ | .symbol .bracketClose => true
  | .symbol _ => false

/-- The largest sum, over all tokens, of the brackets open there and the signs directly before. -/
def nestingFrom (brackets signs : Nat) (afterOperand : Bool) : List Token → Nat
  | [] => 0
  | t :: ts =>
    let brackets := match t with
      | .symbol .bracketOpen => brackets + 1
      | .symbol .bracketClose => brackets - 1
      | _ => brackets
    let signs := if t = .symbol .minus ∧ !afterOperand then signs + 1 else 0
    max (brackets + signs) (nestingFrom brackets signs t.endsOperand ts)

def nesting (ts : List Token) : Nat := nestingFrom 0 0 false ts

/-- The end of a text: it starts behind the last character and stops behind the last token, so blanks
in between make it run backwards. -/
def endSpan (text : String) (lexemes : List Lexeme) : Span where
  start := text.utf8ByteSize
  stop := (lexemes.getLast?.map (·.span.stop)).getD text.utf8ByteSize

/-- The expression a text stands for. A character that no token begins with is reported first,
then too many tokens, then too deep nesting, then a token out of place. -/
def parse (limits : Limits) (text : String) : Except Failure Expr := do
  let lexemes ← lex text
  if limits.tokens < lexemes.length then .error (.tooLong limits.tokens)
  else if limits.depth < nesting (lexemes.map (·.token)) then .error (.tooDeep limits.depth)
  else Reader.read (endSpan text lexemes) {} lexemes

end FormulaDrawing.Expression
