import FormulaDrawing.Proofs.Expression.Acceptance
import FormulaDrawing.Proofs.Expression.Ending

/-! Where a list of tokens that is no expression is refused, and what is said to be expected there.
A reader can always be brought to an end, so the lists it gets through are exactly those that some
expression begins with, and a symbol it takes is one that can follow. -/

namespace FormulaDrawing.Expression

theorem isExpression_iff {ts : List Token} : IsExpression ts ↔ (tree? ts).isSome := by
  simp only [Option.isSome_iff_exists, tree?_eq_some_iff]
  rfl

theorem exists_close {r : Reader} {a : Expr} (ha : r.stage.operand? = some a) :
    ∃ rest r', r.run rest = some r' ∧ r'.result?.isSome := by
  obtain ⟨outer, level, stage⟩ := r
  induction outer generalizing level stage a with
  | nil => exact ⟨[], _, rfl, by simp [Reader.result?, ha]⟩
  | cons p outer ih =>
    obtain ⟨b, l⟩ := p
    have hstep : ∃ e, Reader.step ⟨(b, l) :: outer, level, stage⟩ (.symbol .bracketClose) =
        some ⟨outer, l, .complete e⟩ := by
      rw [step_of_operand? ha (by simp)]
      cases b with
      | group => exact ⟨_, rfl⟩
      | call f before => exact ⟨_, rfl⟩
    obtain ⟨e, he⟩ := hstep
    obtain ⟨rest, r', hr, hres⟩ := ih l (.complete e) rfl
    exact ⟨.symbol .bracketClose :: rest, r',
      by rw [Reader.run_cons, he, Option.bind_some, hr], hres⟩

theorem exists_completion (r : Reader) : ∃ rest r', r.run rest = some r' ∧ r'.result?.isSome := by
  cases ha : r.stage.operand? with
  | some a => exact exists_close ha
  | none =>
    have hs : r.stage.Starts := by
      cases hstage : r.stage with
      | operand => exact .inl rfl
      | firstArgument => exact .inr rfl
      | named n => simp [hstage, Stage.operand?] at ha
      | complete e => simp [hstage, Stage.operand?] at ha
    obtain ⟨rest, r', hr, hres⟩ := exists_close (r := ⟨r.outer, r.level, .named "x"⟩) rfl
    refine ⟨.name "x" :: rest, r', ?_, hres⟩
    rw [Reader.run_cons, step_of_starts hs (by simp)]
    exact hr

theorem viable_iff {ts : List Token} : Viable ts ↔ (Reader.run {} ts).isSome := by
  constructor
  · rintro ⟨rest, he⟩
    rw [isExpression_iff, tree?, Reader.run_append] at he
    cases hr : Reader.run {} ts with
    | none => simp [hr] at he
    | some r => rfl
  · intro h
    obtain ⟨r, hr⟩ := Option.isSome_iff_exists.1 h
    obtain ⟨rest, r', hrest, hres⟩ := exists_completion r
    refine ⟨rest, isExpression_iff.2 ?_⟩
    rw [tree?, Reader.run_append, hr, Option.bind_some, hrest, Option.bind_some]
    exact hres

theorem viable_snoc_iff {ts : List Token} {r : Reader} (hr : Reader.run {} ts = some r)
    (t : Token) : Viable (ts ++ [t]) ↔ (r.step t).isSome := by
  rw [viable_iff, Reader.run_append, hr, Option.bind_some, Reader.run_cons]
  cases r.step t <;> simp

/-- The texts are in ascending order without repetition, and are those of the symbols that can
follow `ts` and of the end, where `ts` can end. -/
structure Expectation.Describes (x : Expectation) (ts : List Token) : Prop where
  ascending : x.texts.Pairwise (· < ·)
  exact : ∀ text, text ∈ x.texts ↔
    (∃ s : Symbol, Viable (ts ++ [.symbol s]) ∧ text = Token.description (.symbol s)) ∨
      (IsExpression ts ∧ text = "end of expression")

theorem mem_symbolAll (s : Symbol) : s ∈ Symbol.all := by
  cases s <;> decide

theorem texts_ascending (p : Symbol → Bool) (b : Bool) :
    (Expectation.texts ⟨Symbol.all.filter p, b⟩).Pairwise (· < ·) := by
  have hall : (Symbol.all.map (Token.description ∘ .symbol) ++ ["end of expression"]).Pairwise
      (· < ·) := by decide
  refine hall.sublist (List.Sublist.append ?_ ?_)
  · exact (List.filter_sublist).map _
  · cases b <;> simp

theorem describes_expected {ts : List Token} {r : Reader} (hr : Reader.run {} ts = some r) :
    r.expected.Describes ts := by
  refine ⟨texts_ascending _ _, fun text => ?_⟩
  have hend : IsExpression ts ↔ r.result?.isSome := by
    rw [isExpression_iff, tree?, hr, Option.bind_some]
  simp only [Reader.expected, Expectation.texts, List.mem_append, List.mem_map, List.mem_filter,
    mem_symbolAll, true_and, viable_snoc_iff hr, hend, Function.comp_apply]
  constructor
  · rintro (⟨s, hs, rfl⟩ | h)
    · exact .inl ⟨s, hs, rfl⟩
    · cases hres : r.result?.isSome <;> simp_all
  · rintro (⟨s, hs, rfl⟩ | ⟨hres, rfl⟩)
    · exact .inl ⟨s, hs, rfl⟩
    · simp [hres]

theorem read_refused (ending : Span) {r : Reader} {ls : List Lexeme}
    (h : (r.run (ls.map (·.token))).bind (·.result?) = none) :
    (∃ before l after r', ls = before ++ l :: after ∧ r.run (before.map (·.token)) = some r' ∧
      r'.step l.token = none ∧
      r.read ending ls = .error (.unexpected (some l.token) l.span r'.expected)) ∨
    (∃ r', r.run (ls.map (·.token)) = some r' ∧
      r.read ending ls = .error (.unexpected none ending r'.expected)) := by
  induction ls generalizing r with
  | nil =>
    refine .inr ⟨r, rfl, ?_⟩
    have hres : r.result? = none := by simpa using h
    simp [Reader.read, hres]
  | cons l ls ih =>
    cases hl : r.step l.token with
    | none => exact .inl ⟨[], l, ls, r, rfl, rfl, hl, by simp [Reader.read, hl]⟩
    | some next =>
      rw [List.map_cons, Reader.run_cons, hl, Option.bind_some] at h
      rcases ih h with ⟨before, l', after, r', rfl, hr, hstep, hread⟩ | ⟨r', hr, hread⟩
      · refine .inl ⟨l :: before, l', after, r', rfl, ?_, hstep, ?_⟩
        · rw [List.map_cons, Reader.run_cons, hl, Option.bind_some, hr]
        · simp [Reader.read, hl, hread]
      · refine .inr ⟨r', ?_, ?_⟩
        · rw [List.map_cons, Reader.run_cons, hl, Option.bind_some, hr]
        · simp [Reader.read, hl, hread]

theorem endSpan_eq_iff {text : String} {ls : List Lexeme} (h : lex text = .ok ls) :
    endSpan text ls = ⟨text.utf8ByteSize, text.utf8ByteSize⟩ ↔
      ls = [] ∨ ∀ c, text.toList.getLast? = some c → Text.isGap c = false := by
  cases hl : ls.getLast? with
  | none =>
    have hnil : ls = [] := by simpa using hl
    simp [endSpan, hnil]
  | some l =>
    have hne : ls ≠ [] := by rintro rfl; simp at hl
    have := stop_eq_iff h hl
    simp only [endSpan, hl, Option.map_some, Option.getD_some, Span.mk.injEq, true_and, hne,
      false_or, Text.utf8ByteSize_eq, ← this, Nat.zero_add]

/-- A list of tokens within the limits that is no expression is refused at the first token with
which no expression begins, or at the end if all of it begins one. What is expected there is
exactly what can follow. At the end the span starts behind the last character but stops behind the
last token, so it is the empty range there exactly if no gap lies in between. -/
theorem parse_unexpected (limits : Limits) (text : String) (ls : List Lexeme)
    (hlex : lex text = .ok ls) (hlong : ls.length ≤ limits.tokens)
    (hdeep : nesting (ls.map (·.token)) ≤ limits.depth)
    (hno : ¬ IsExpression (ls.map (·.token))) :
    ∃ found span expected, parse limits text = .error (.unexpected found span expected) ∧
      ((∃ i l, ls[i]? = some l ∧ (∀ j ≤ i, Viable ((ls.map (·.token)).take j)) ∧
          ¬ Viable ((ls.map (·.token)).take (i + 1)) ∧ found = some l.token ∧ span = l.span ∧
          expected.Describes ((ls.map (·.token)).take i)) ∨
        (Viable (ls.map (·.token)) ∧ found = none ∧ span.start = text.utf8ByteSize ∧
          span.stop = (ls.getLast?.map (·.span.stop)).getD text.utf8ByteSize ∧
          (span = ⟨text.utf8ByteSize, text.utf8ByteSize⟩ ↔
            ls = [] ∨ ∀ c, text.toList.getLast? = some c → Text.isGap c = false) ∧
          expected.Describes (ls.map (·.token)))) := by
  have hparse : parse limits text = Reader.read (endSpan text ls) {} ls := by
    simp only [parse, hlex, bind, Except.bind]
    rw [if_neg (by omega), if_neg (by omega)]
  have htree : (Reader.run {} (ls.map (·.token))).bind (·.result?) = none := by
    rw [isExpression_iff, tree?] at hno
    simpa using hno
  rw [hparse]
  rcases read_refused (endSpan text ls) htree with
    ⟨before, l, after, r, rfl, hr, hstep, hread⟩ | ⟨r, hr, hread⟩
  -- Every reader can be brought to an end, so what it has taken begins an expression.
  · refine ⟨_, _, _, hread, .inl ⟨before.length, l, by simp, ?_, ?_, rfl, rfl, ?_⟩⟩
    · intro j hj
      have hv : Viable (before.map (·.token)) := viable_iff.2 (by rw [hr]; rfl)
      rw [← List.take_append_drop j (before.map (·.token))] at hv
      have htake : ((before ++ l :: after).map (·.token)).take j =
          (before.map (·.token)).take j := by
        rw [List.map_append, List.take_append_of_le_length (by simpa using hj)]
      rw [htake]
      exact hv.of_append
    · have hmap : (before ++ l :: after).map (·.token) =
          before.map (·.token) ++ [l.token] ++ after.map (·.token) := by simp
      rw [hmap, List.take_left' (by simp), viable_snoc_iff hr, hstep]
      simp
    · rw [List.map_append, List.take_left' (by simp)]
      exact describes_expected hr
  · exact ⟨_, _, _, hread, .inr ⟨viable_iff.2 (by rw [hr]; rfl), rfl, rfl, rfl,
      endSpan_eq_iff hlex, describes_expected hr⟩⟩

/-- Behind an operator at the end an operand has to start. -/
theorem parse_unexpected_operator :
    parse {} "-a*" = .error (.unexpected none ⟨3, 3⟩ ⟨[.bracketOpen, .minus], false⟩) ∧
      Expectation.Describes ⟨[.bracketOpen, .minus], false⟩
        [.symbol .minus, .name "a", .symbol .times] := by
  have hlex : lex "-a*" = .ok [⟨.symbol .minus, ⟨0, 1⟩⟩, ⟨.name "a", ⟨1, 2⟩⟩,
      ⟨.symbol .times, ⟨2, 3⟩⟩] := by cbv
  have hno : ¬ IsExpression [.symbol .minus, .name "a", .symbol .times] := by
    rw [isExpression_iff]
    decide
  have hparse : parse {} "-a*" =
      .error (.unexpected none ⟨3, 3⟩ ⟨[.bracketOpen, .minus], false⟩) := by cbv
  obtain ⟨found, span, expected, h, hcases⟩ :=
    parse_unexpected {} "-a*" _ hlex (by decide) (by decide) hno
  rw [hparse] at h
  obtain ⟨rfl, rfl, rfl⟩ := by simpa using h
  rcases hcases with ⟨i, l, -, -, -, hfound, -⟩ | ⟨-, -, -, -, -, hx⟩
  · simp at hfound
  · exact ⟨hparse, hx⟩

/-- With a blank behind the last token the span at the end runs backwards. -/
theorem parse_blank_ending :
    ∃ ls, lex "a + " = .ok ls ∧ Viable (ls.map (·.token)) ∧ ¬ IsExpression (ls.map (·.token)) ∧
      parse {} "a + " = .error (.unexpected none ⟨4, 3⟩ ⟨[.bracketOpen, .minus], false⟩) ∧
      "a + ".utf8ByteSize = 4 := by
  refine ⟨[⟨.name "a", ⟨0, 1⟩⟩, ⟨.symbol .plus, ⟨2, 3⟩⟩], by cbv, ?_, ?_, by cbv, by decide⟩
  · rw [viable_iff]
    decide
  · rw [isExpression_iff]
    decide

end FormulaDrawing.Expression
