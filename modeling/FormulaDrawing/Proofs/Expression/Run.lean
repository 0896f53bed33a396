import FormulaDrawing.Proofs.Expression.Grammar

/-! A reader that may start an operand gets through the tokens of each part of the grammar and ends
with its tree complete, whatever is open around it. -/

namespace FormulaDrawing.Expression

/-- The reader after a list of tokens, unless it refuses one. -/
def Reader.run (r : Reader) (ts : List Token) : Option Reader := ts.foldlM Reader.step r

@[simp] theorem Reader.run_nil (r : Reader) : r.run [] = some r := rfl

@[simp] theorem Reader.run_cons (r : Reader) (t : Token) (ts : List Token) :
    r.run (t :: ts) = (r.step t).bind (·.run ts) := rfl

theorem Reader.run_append (r : Reader) (ts us : List Token) :
    r.run (ts ++ us) = (r.run ts).bind (·.run us) := by
  simp [Reader.run, List.foldlM_append]

/-- The tree of a list of tokens that the reader accepts. -/
def tree? (ts : List Token) : Option Expr := (Reader.run {} ts).bind (·.result?)

/-- The level with further minus signs before the operand. -/
def Level.behindSigns (l : Level) (n : Nat) : Level := { l with signs := l.signs + n }

/-- An operand may start at this stage. -/
def Stage.Starts (s : Stage) : Prop := s = .operand ∨ s = .firstArgument

theorem step_of_starts {r : Reader} {t : Token} (hs : r.stage.Starts)
    (ht : t ≠ .symbol .bracketClose) : r.step t = r.start t := by
  obtain ⟨outer, level, stage⟩ := r
  rcases hs with rfl | rfl
  · rfl
  · simp only [Reader.step]
    split <;> simp_all

theorem step_of_operand? {r : Reader} {s : Symbol} {a : Expr} (ha : r.stage.operand? = some a)
    (hs : s ≠ .bracketOpen) : r.step (.symbol s) = r.follow a s := by
  obtain ⟨outer, level, stage⟩ := r
  cases stage <;> simp [Stage.operand?] at ha <;> subst ha
  · cases s <;> first | rfl | exact absurd rfl hs
  · rfl

theorem step_operator {r : Reader} {a : Expr} (ha : r.stage.operand? = some a) (op : Operator) :
    r.step (.symbol op.symbol) =
      some ⟨r.outer, r.level.extend a op, .operand⟩ := by
  rw [step_of_operand? ha (symbol_ne_bracketOpen op)]
  simp [Reader.follow]

theorem step_minus {r : Reader} (hs : r.stage.Starts) :
    r.step (.symbol .minus) =
      some ⟨r.outer, r.level.behindSigns 1, .operand⟩ :=
  step_of_starts hs (by simp)

theorem extend_of_joinsTerms {op : Operator} (h : op.joinsTerms) (l : Level) (a : Expr) :
    l.extend a op = { sum := some (l.total a, op) } := by
  rcases h with rfl | rfl <;> rfl

theorem extend_of_joinsFactors {op : Operator} (h : op.joinsFactors) (l : Level) (a : Expr) :
    l.extend a op = { sum := l.sum, product := some (l.term a, op) } := by
  rcases h with rfl | rfl <;> rfl

mutual

theorem IsSum.run {ts : List Token} {e : Expr} : IsSum ts e → ∀ r : Reader,
    r.stage.Starts → r.level = {} → ∃ l s a, r.run ts = some ⟨r.outer, l, s⟩ ∧
      s.operand? = some a ∧ l.total a = e
  | .term h => by
    intro r hs hl
    obtain ⟨l, s, a, hr, ha, hsum, he⟩ := h.run r hs (by rw [hl]) (by rw [hl])
    refine ⟨l, s, a, hr, ha, ?_⟩
    simp [Level.total, hsum, hl, joinLeft, he]
  | .join op h hop hp => by
    intro r hs hl
    obtain ⟨l, s, a, hr, ha, rfl⟩ := h.run r hs hl
    have hx := extend_of_joinsTerms hop l a
    obtain ⟨m, u, b, hr', hb, hsum, he⟩ := hp.run ⟨r.outer, l.extend a op, .operand⟩ (.inl rfl)
      (by rw [hx]) (by rw [hx])
    refine ⟨m, u, b, ?_, hb, ?_⟩
    · rw [Reader.run_append, hr, Option.bind_some, Reader.run_cons, step_operator ha,
        Option.bind_some]
      exact hr'
    · rw [hx] at hsum
      rw [Level.total, hsum, joinLeft, he]

theorem IsProduct.run {ts : List Token} {e : Expr} : IsProduct ts e → ∀ r : Reader,
    r.stage.Starts → r.level.product = none → r.level.signs = 0 →
      ∃ l s a, r.run ts = some ⟨r.outer, l, s⟩ ∧ s.operand? = some a ∧
        l.sum = r.level.sum ∧ l.term a = e
  | .factor h => by
    intro r hs hp hn
    obtain ⟨n, s, a, hr, ha, he⟩ := h.run r hs
    refine ⟨r.level.behindSigns n, s, a, hr, ha, rfl, ?_⟩
    simp [Level.term, Level.behindSigns, hp, hn, joinLeft, he]
  | .join op h hop hg => by
    intro r hs hp hn
    obtain ⟨l, s, a, hr, ha, hsum, he⟩ := h.run r hs hp hn
    obtain ⟨n, u, b, hr', hb, hg'⟩ := hg.run ⟨r.outer, l.extend a op, .operand⟩ (.inl rfl)
    refine ⟨(l.extend a op).behindSigns n, u, b, ?_, hb, ?_, ?_⟩
    · rw [Reader.run_append, hr, Option.bind_some, Reader.run_cons, step_operator ha,
        Option.bind_some]
      exact hr'
    · rw [extend_of_joinsFactors hop]
      exact hsum
    · rw [extend_of_joinsFactors hop]
      simp [Level.term, Level.behindSigns, joinLeft, ← he, hg']

theorem IsSigned.run {ts : List Token} {e : Expr} : IsSigned ts e → ∀ r : Reader,
    r.stage.Starts → ∃ n s a,
      r.run ts = some ⟨r.outer, r.level.behindSigns n, s⟩ ∧
        s.operand? = some a ∧ negate n a = e
  | .atom h => by
    intro r hs
    obtain ⟨s, hr, ha⟩ := h.run r hs
    exact ⟨0, s, e, hr, ha, rfl⟩
  | .minus h => by
    intro r hs
    obtain ⟨n, s, a, hr, ha, he⟩ := h.run ⟨r.outer, r.level.behindSigns 1, .operand⟩ (.inl rfl)
    refine ⟨n + 1, s, a, ?_, ha, congrArg _ he⟩
    rw [Reader.run_cons, step_minus hs, Option.bind_some, hr]
    simp [Level.behindSigns, Nat.add_assoc, Nat.add_comm n 1]

theorem IsAtom.run {ts : List Token} {e : Expr} : IsAtom ts e → ∀ r : Reader,
    r.stage.Starts → ∃ s, r.run ts = some ⟨r.outer, r.level, s⟩ ∧ s.operand? = some e
  | .number x => by
    intro r hs
    exact ⟨.complete (.number x), by simp [step_of_starts hs, Reader.start], rfl⟩
  | .name n => by
    intro r hs
    exact ⟨.named n, by simp [step_of_starts hs, Reader.start], rfl⟩
  | .group h => by
    intro r hs
    obtain ⟨l, s, a, hr, ha, rfl⟩ := h.run (r.enter .group .operand) (.inl rfl) rfl
    refine ⟨.complete (l.total a), ?_, rfl⟩
    rw [List.cons_append, Reader.run_cons, step_of_starts hs (by simp), Reader.start,
      Option.bind_some, Reader.run_append, hr, Option.bind_some, Reader.run_cons, step_of_operand? ha (by simp)]
    rfl
  | .emptyCall f => by
    intro r hs
    refine ⟨.complete (.call f []), ?_, rfl⟩
    rw [Reader.run_cons, step_of_starts hs (by simp)]
    rfl
  | .call f h => by
    intro r hs
    obtain ⟨before, l, s, a, hr, ha, rfl⟩ := h.run f r.level r.outer
    refine ⟨.complete (.call f (before ++ [l.total a])), ?_, rfl⟩
    have hcall : (r.step (.name f)).bind (·.step (.symbol .bracketOpen)) =
        some ⟨(.call f [], r.level) :: r.outer, {}, .firstArgument⟩ := by
      rw [step_of_starts hs (by simp)]
      rfl
    rw [List.cons_append, List.cons_append, Reader.run_cons]
    simp only [Reader.run_cons]
    rw [← Option.bind_assoc, hcall, Option.bind_some, Reader.run_append, hr, Option.bind_some,
      Reader.run_cons, step_of_operand? ha (by simp)]
    rfl

theorem AreArguments.run {ts : List Token} {es : List Expr} : AreArguments ts es →
    ∀ (f : String) (level : Level) (outer : List (Bracket × Level)), ∃ before l s a,
      Reader.run ⟨(.call f [], level) :: outer, {}, .firstArgument⟩ ts =
          some ⟨(.call f before, level) :: outer, l, s⟩ ∧
        s.operand? = some a ∧ before ++ [l.total a] = es
  | .one h => by
    intro f level outer
    obtain ⟨l, s, a, hr, ha, rfl⟩ :=
      h.run ⟨(.call f [], level) :: outer, {}, .firstArgument⟩ (.inr rfl) rfl
    exact ⟨[], l, s, a, hr, ha, rfl⟩
  | .more h hs => by
    intro f level outer
    obtain ⟨before, l, s, a, hr, ha, rfl⟩ := h.run f level outer
    obtain ⟨m, u, b, hr', hb, rfl⟩ :=
      hs.run ⟨(.call f (before ++ [l.total a]), level) :: outer, {}, .operand⟩ (.inl rfl) rfl
    refine ⟨_, m, u, b, ?_, hb, rfl⟩
    rw [Reader.run_append, hr, Option.bind_some, Reader.run_cons, step_of_operand? ha (by simp)]
    exact hr'

end

theorem tree?_of_isSum {ts : List Token} {e : Expr} (h : IsSum ts e) : tree? ts = some e := by
  obtain ⟨l, s, a, hr, ha, rfl⟩ := h.run {} (.inl rfl) rfl
  simp [tree?, hr, Reader.result?, ha]

end FormulaDrawing.Expression
