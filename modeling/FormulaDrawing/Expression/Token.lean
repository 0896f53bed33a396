import FormulaDrawing.Number.Text
import FormulaDrawing.Number.Numeral

/-! The tokens of expressions and the token at the front of a text. -/

namespace FormulaDrawing.Expression

/-- Tokens of one character, in the order of those characters. -/
inductive Symbol where
  | bracketOpen
  | bracketClose
  | times
  | plus
  | comma
  | minus
  | divide
deriving DecidableEq, Repr

def Symbol.all : List Symbol :=
  [.bracketOpen, .bracketClose, .times, .plus, .comma, .minus, .divide]

def Symbol.char : Symbol → Char
  | .bracketOpen => '('
  | .bracketClose => ')'
  | .times => '*'
  | .plus => '+'
  | .comma => ','
  | .minus => '-'
  | .divide => '/'

def Symbol.ofChar? (c : Char) : Option Symbol := Symbol.all.find? (·.char == c)

inductive Token where
  | symbol (s : Symbol)
  | name (n : String)
  | number (x : Float)
deriving DecidableEq

def Token.description : Token → String
  | .symbol s => String.ofList ['\'', s.char, '\'']
  | .name n => "name '" ++ n ++ "'"
  | .number x => "number " ++ Number.text x

structure Span where
  start : Nat
  stop : Nat
deriving DecidableEq, Repr

structure Lexeme where
  token : Token
  span : Span
deriving DecidableEq

def isNameStart (c : Char) : Bool := c.isAlpha || c == '_'

def isNamePart (c : Char) : Bool := c.isAlphanum || c == '_'

/-- The longest token at the front with the text it covers and the rest. -/
def Token.read? (s : List Char) : Option (Token × List Char × List Char) :=
  match Number.numeral? s with
  | some (n, rest) => some (.number n.value, n.written, rest)
  | none =>
    match s with
    | [] => none
    | c :: t =>
      if isNameStart c then
        let word := c :: t.takeWhile isNamePart
        some (.name (String.ofList word), word, t.dropWhile isNamePart)
      else (Symbol.ofChar? c).map fun x => (.symbol x, [c], t)

theorem Token.read?_append {s text rest : List Char} {t : Token}
    (h : Token.read? s = some (t, text, rest)) : text ++ rest = s := by
  unfold Token.read? at h
  split at h
  · rename_i hn
    obtain ⟨-, rfl, rfl⟩ := by simpa using h
    exact Number.numeral?_append hn
  · cases s with
    | nil => simp at h
    | cons c s =>
      simp only at h
      split at h
      · obtain ⟨-, rfl, rfl⟩ := by simpa using h
        simp
      · obtain ⟨_, -, he⟩ := Option.map_eq_some_iff.1 h
        obtain ⟨-, rfl, rfl⟩ := by simpa using he
        simp

theorem Token.read?_text_ne_nil {s text rest : List Char} {t : Token}
    (h : Token.read? s = some (t, text, rest)) : text ≠ [] := by
  unfold Token.read? at h
  split at h
  · rename_i hn
    obtain ⟨-, rfl, -⟩ := by simpa using h
    exact Number.numeral?_written_ne_nil hn
  · cases s with
    | nil => simp at h
    | cons c s =>
      simp only at h
      split at h
      · obtain ⟨-, rfl, -⟩ := by simpa using h
        simp
      · obtain ⟨_, -, he⟩ := Option.map_eq_some_iff.1 h
        obtain ⟨-, rfl, -⟩ := by simpa using he
        simp

theorem Token.length_lt_of_read? {s text rest : List Char} {t : Token}
    (h : Token.read? s = some (t, text, rest)) : rest.length < s.length := by
  rw [← Token.read?_append h, List.length_append]
  have := List.length_pos_iff.2 (Token.read?_text_ne_nil h)
  omega

end FormulaDrawing.Expression
