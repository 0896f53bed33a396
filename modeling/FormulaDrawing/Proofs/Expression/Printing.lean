import FormulaDrawing.Proofs.Expression.Acceptance
import FormulaDrawing.Proofs.Expression.Ending
import FormulaDrawing.Proofs.Expression.Part
import FormulaDrawing.Proofs.Number.Readback

/-! The text of an expression is read back as that expression. Every operation is printed in brackets, so
the tokens of each part are an atom of the grammar; and wherever a part ends, no name and no number goes on,
so the lexer finds just these tokens. -/

namespace FormulaDrawing.Expression

open Text

variable {s text rest : List Char} {c : Char} {t : Token} {ts : List Token}

section Lexing

/-- The text consists of these tokens, wherever it begins. -/
def Lexes (s : List Char) (ts : List Token) : Prop :=
  ∀ offset, ∃ ls, lexFrom offset s = .ok ls ∧ ls.map (·.token) = ts

theorem lexes_nil : Lexes [] [] := fun offset => ⟨[], by rw [lexFrom], rfl⟩

theorem Lexes.gap (h : Lexes s ts) (hc : isGap c = true) : Lexes (c :: s) ts := by
  intro offset
  obtain ⟨ls, hls, hts⟩ := h (offset + c.utf8Size)
  exact ⟨ls, by rw [lexFrom_gap hc, hls], hts⟩

theorem Lexes.token (h : Lexes rest ts) (hr : Token.read? s = some (t, text, rest)) :
    Lexes s (t :: ts) := by
  intro offset
  obtain ⟨rfl, hlongest⟩ := read?_eq_some_iff.1 hr
  obtain ⟨ls, hls, hts⟩ := h (offset + byteLength text)
  refine ⟨⟨t, ⟨offset, offset + byteLength text⟩⟩ :: ls, ?_, by rw [List.map_cons, hts]⟩
  rw [lexFrom_token hlongest, hls]
  rfl

/-- Neither a name nor a number goes on here. -/
def Parted (rest : List Char) : Prop := ∀ c ∈ rest.head?, isNamePart c = false ∧ c ≠ '.'

theorem parted_nil : Parted [] := nofun

theorem parted_cons (hc : isNamePart c = false) (hpoint : c ≠ '.') (rest : List Char) :
    Parted (c :: rest) := by
  rintro _ ⟨⟩
  exact ⟨hc, hpoint⟩

theorem parted_symbol (x : Symbol) (rest : List Char) : Parted (x.char :: rest) :=
  parted_cons (by cases x <;> rfl) (by cases x <;> decide) rest

theorem Parted.ends (h : Parted rest) : Number.Ends rest := by
  intro c hc
  obtain ⟨hpart, hpoint⟩ := h c hc
  refine ⟨?_, hpoint, ?_, ?_⟩
  · simp only [isNamePart, Char.isAlphanum, Bool.or_eq_false_iff] at hpart
    exact hpart.1.2
  · rintro rfl
    cases hpart
  · rintro rfl
    cases hpart

theorem Parted.part (h : Parted rest) : ∀ c ∈ rest.head?, isNamePart c = false :=
  fun c hc => (h c hc).1

theorem char_symbol (op : Operator) : op.symbol.char = op.char := by cases op <;> rfl

theorem Lexes.symbol (h : Lexes rest ts) (x : Symbol) :
    Lexes (x.char :: rest) (.symbol x :: ts) := h.token (read?_symbol x rest)

theorem Lexes.number {x : Float} (h : Lexes rest ts) (hx : x.isFinite = true)
    (hs : Number.isNegative x = false) (hrest : Parted rest) :
    Lexes (Number.chars x ++ rest) (.number x :: ts) := by
  obtain ⟨n, hnumeral, -, hvalue⟩ := Number.numeral?_chars hx hs hrest.ends
  have hread : Token.read? (Number.chars x ++ rest) = some (.number x, n.written, rest) := by
    unfold Token.read?
    rw [hnumeral]
    dsimp only
    rw [hvalue]
  exact h.token hread

/-- A name as expressions spell it. -/
def isIdentifier (n : String) : Bool :=
  match n.toList with
  | [] => false
  | c :: w => isNameStart c && w.all isNamePart

theorem Lexes.name {n : String} (h : Lexes rest ts) (hn : isIdentifier n = true)
    (hrest : Parted rest) : Lexes (n.toList ++ rest) (.name n :: ts) := by
  have hword : String.ofList n.toList = n := String.ofList_toList
  rw [isIdentifier] at hn
  generalize n.toList = cs at *
  cases cs with
  | nil => cases hn
  | cons c w =>
    obtain ⟨hstart, hpart⟩ := (Bool.and_eq_true ..).mp hn
    have hpart := List.all_eq_true.1 hpart
    have hread : Token.read? (c :: w ++ rest) = some (.name n, c :: w, rest) := by
      rw [List.cons_append, read?_name hstart, takeWhile_run hpart hrest.part,
        dropWhile_run hpart hrest.part, hword]
    exact h.token hread

end Lexing

end FormulaDrawing.Expression

namespace FormulaDrawing.Expr

open Expression

mutual

def tokens : Expr → List Token
  | number x => [.number x]
  | name n => [.name n]
  | neg e => .symbol .bracketOpen :: .symbol .minus :: tokens e ++ [.symbol .bracketClose]
  | binary op l r =>
    .symbol .bracketOpen :: tokens l ++ .symbol op.symbol :: tokens r ++ [.symbol .bracketClose]
  | call f args => .name f :: .symbol .bracketOpen :: argumentTokens args

def argumentTokens : List Expr → List Token
  | [] => [.symbol .bracketClose]
  | e :: es => tokens e ++ furtherTokens es

def furtherTokens : List Expr → List Token
  | [] => [.symbol .bracketClose]
  | e :: es => .symbol .comma :: tokens e ++ furtherTokens es

end

/-- The numbers are finite and without a sign, and the names are spelled as such: others are not read. -/
structure Printable (e : Expr) : Prop where
  number : ∀ x, .number x ∈ e.parts → x.isFinite = true ∧ Number.isNegative x = false
  name : ∀ n, .name n ∈ e.parts → isIdentifier n = true
  function : ∀ f args, .call f args ∈ e.parts → isIdentifier f = true

variable {e o : Expr} {es : List Expr} {rest : List Char} {ts us : List Token}

theorem Printable.operand (h : e.Printable) (ho : o ∈ e.operands) : o.Printable where
  number x hx := h.number x (mem_parts_iff.2 (.inr ⟨o, ho, hx⟩))
  name n hn := h.name n (mem_parts_iff.2 (.inr ⟨o, ho, hn⟩))
  function f args hf := h.function f args (mem_parts_iff.2 (.inr ⟨o, ho, hf⟩))

section Lexing

/-- The lexer finds the tokens in front of anything that no name and no number goes on with. -/
def Found (e : Expr) : Prop :=
  ∀ rest ts, Parted rest → Lexes rest ts → Lexes (e.chars ++ rest) (e.tokens ++ ts)

theorem lexes_furtherChars (hes : ∀ e ∈ es, e.Found) (h : Lexes rest ts) :
    Lexes (furtherChars es ++ rest) (furtherTokens es ++ ts) ∧ Parted (furtherChars es ++ rest) := by
  induction es with
  | nil => exact ⟨h.symbol .bracketClose, parted_symbol .bracketClose rest⟩
  | cons e es ih =>
    rw [List.forall_mem_cons] at hes
    obtain ⟨hlex, hparted⟩ := ih hes.2
    have hfirst := ((hes.1 _ _ hparted hlex).gap (c := ' ') rfl).symbol .comma
    rw [furtherChars, furtherTokens]
    exact ⟨by simpa [Symbol.char] using hfirst, parted_symbol .comma _⟩

theorem lexes_argumentChars (hes : ∀ e ∈ es, e.Found) (h : Lexes rest ts) :
    Lexes (argumentChars es ++ rest) (argumentTokens es ++ ts) := by
  cases es with
  | nil => exact h.symbol .bracketClose
  | cons e es =>
    rw [List.forall_mem_cons] at hes
    obtain ⟨hlex, hparted⟩ := lexes_furtherChars hes.2 h
    rw [argumentChars, argumentTokens, List.append_assoc, List.append_assoc]
    exact hes.1 _ _ hparted hlex

theorem Printable.found (h : e.Printable) : e.Found := by
  induction e using induct with
  | step e ih =>
    have hoperands : ∀ o ∈ e.operands, o.Found := fun o ho => ih o ho (h.operand ho)
    intro rest ts hrest hlex
    cases e with
    | number x =>
      obtain ⟨hx, hs⟩ := h.number x (self_mem_parts _)
      exact hlex.number hx hs hrest
    | name n => exact hlex.name (h.name n (self_mem_parts _)) hrest
    | neg e =>
      have hclose := hlex.symbol .bracketClose
      have he := hoperands e (List.mem_singleton_self e) _ _ (parted_symbol .bracketClose rest) hclose
      simpa [chars, tokens, Symbol.char] using (he.symbol .minus).symbol .bracketOpen
    | binary op l r =>
      -- from the closing bracket to the opening one
      have hclose := hlex.symbol .bracketClose
      have hr := hoperands r (by simp [operands]) _ _ (parted_symbol .bracketClose rest) hclose
      have hop := (hr.gap (c := ' ') rfl).symbol op.symbol
      have hl := hoperands l (by simp [operands]) _ _ (parted_cons rfl (by decide) _)
        (hop.gap (c := ' ') rfl)
      rw [char_symbol] at hl
      simpa [chars, tokens, Symbol.char] using hl.symbol .bracketOpen
    | call f args =>
      have hargs := (lexes_argumentChars hoperands hlex).symbol .bracketOpen
      have hf := hargs.name (h.function f args (self_mem_parts _)) (parted_symbol .bracketOpen _)
      simpa [chars, tokens, operands, Symbol.char] using hf

theorem Printable.lex_text (h : e.Printable) :
    ∃ ls, lex e.text = .ok ls ∧ ls.map (·.token) = e.tokens := by
  have := h.found [] [] parted_nil lexes_nil 0
  rw [List.append_nil, List.append_nil] at this
  rw [lex, text, String.toList_ofList]
  exact this

end Lexing

section Grammar

theorem exists_areArguments {before : List Expr} (hus : AreArguments us before)
    (hes : ∀ e ∈ es, IsAtom e.tokens e) :
    ∃ vs, us ++ furtherTokens es = vs ++ [.symbol .bracketClose] ∧ AreArguments vs (before ++ es) := by
  induction es generalizing us before with
  | nil => exact ⟨us, rfl, by rwa [List.append_nil]⟩
  | cons e es ih =>
    rw [List.forall_mem_cons] at hes
    obtain ⟨vs, hvs, hargs⟩ := ih (hus.more (.term (.factor (.atom hes.1)))) hes.2
    refine ⟨vs, ?_, by simpa using hargs⟩
    rw [furtherTokens, ← hvs]
    simp

theorem isAtom_tokens (e : Expr) : IsAtom e.tokens e := by
  induction e using induct with
  | step e ih =>
    cases e with
    | number x => exact .number x
    | name n => exact .name n
    | neg e =>
      have he := ih e (List.mem_singleton_self e)
      -- Signs and operations are printed in brackets, which makes them atoms again.
      exact .group (.term (.factor (.minus (.atom he))))
    | binary op l r =>
      have hl := ih l (by simp [operands])
      have hr := ih r (by simp [operands])
      have hsum : IsSum (l.tokens ++ .symbol op.symbol :: r.tokens) (.binary op l r) := by
        rcases joinsTerms_or_joinsFactors op with hop | hop
        · exact .join op (.term (.factor (.atom hl))) hop (.factor (.atom hr))
        · exact .term (.join op (.factor (.atom hl)) hop (.atom hr))
      exact .group hsum
    | call f args =>
      cases args with
      | nil => exact .emptyCall f
      | cons e es =>
        have hes := List.forall_mem_cons.1 ih
        obtain ⟨vs, hvs, hargs⟩ := exists_areArguments (.one (.term (.factor (.atom hes.1)))) hes.2
        rw [tokens, argumentTokens, hvs]
        exact .call f hargs

end Grammar

/-- The text of an expression is read as that expression wherever its tokens are within the limits. -/
theorem parse_text_eq_ok_iff (h : e.Printable) (limits : Limits) :
    parse limits e.text = .ok e ↔
      e.tokens.length ≤ limits.tokens ∧ nesting e.tokens ≤ limits.depth := by
  obtain ⟨ls, hlex, hts⟩ := h.lex_text
  have hlength : ls.length = e.tokens.length := by rw [← hts, List.length_map]
  have hread : Reader.read (endSpan e.text ls) {} ls = .ok e := by
    rw [read_eq_ok_iff, hts]
    exact tree?_of_isSum (.term (.factor (.atom (isAtom_tokens e))))
  simp only [parse, hlex, bind, Except.bind, hlength, hts, hread]
  split_ifs with hlong hdeep
  · exact iff_of_false (by simp) fun hroom => absurd hroom.1 (not_le.2 hlong)
  · exact iff_of_false (by simp) fun hroom => absurd hroom.2 (not_le.2 hdeep)
  · exact iff_of_true rfl ⟨not_lt.1 hlong, not_lt.1 hdeep⟩

/-- Minus signs, operators and calls inside each other. -/
def nested : Expr :=
  .neg (.neg (.binary .sub (.call "max" [.number 0.5, .call "f" [], .name "_b2"])
    (.neg (.number 2))))

theorem printable_nested : nested.Printable where
  number x hx := by
    have hx : x = 0.5 ∨ x = 2 := by simpa [nested, parts, partsOf] using hx
    rcases hx with rfl | rfl <;> decide +kernel
  name n hn := by
    have hn : n = "_b2" := by simpa [nested, parts, partsOf] using hn
    subst hn
    decide
  function f args hf := by
    have hf : f = "max" ∧ args = [.number 0.5, .call "f" [], .name "_b2"] ∨ f = "f" ∧ args = [] := by
      simpa [nested, parts, partsOf] using hf
    rcases hf with ⟨rfl, -⟩ | ⟨rfl, -⟩ <;> decide

/-- The brackets around signs and operations do not become part of the expression. -/
theorem parse_text_eq_ok_iff_nested :
    nested.Printable ∧ nested.text = "(-(-(max(0.5, f(), _b2) - (-2))))" ∧
      parse {} "(-(-(max(0.5, f(), _b2) - (-2))))" = .ok nested := by
  have htext : nested.text = "(-(-(max(0.5, f(), _b2) - (-2))))" := by decide +kernel
  refine ⟨printable_nested, htext, ?_⟩
  rw [← htext]
  exact (parse_text_eq_ok_iff printable_nested {}).2 ⟨by decide +kernel, by decide +kernel⟩

end FormulaDrawing.Expr
