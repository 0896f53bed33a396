import FormulaDrawing.Proofs.Expression.Run

/-! The reader accepts exactly the expressions of the grammar. What it holds spells the tokens it has
taken, which each step keeps; so what it accepts is an expression with that tree. The other way
round it gets through every expression. As it has one run on each list of tokens, no list stands
for two trees. -/

namespace FormulaDrawing.Expression

/-- The tokens of an operation that waits for its right operand. -/
def Begun (Is : List Token → Expr → Prop) (joins : Operator → Prop) :
    Option (Expr × Operator) → List Token → Prop
  | none, ts => ts = []
  | some (e, op), ts => joins op ∧ ∃ us, Is us e ∧ ts = us ++ [.symbol op.symbol]

def Level.Spells (l : Level) (ts : List Token) : Prop :=
  ∃ us vs, Begun IsSum Operator.joinsTerms l.sum us ∧
    Begun IsProduct Operator.joinsFactors l.product vs ∧
    ts = us ++ vs ++ List.replicate l.signs (.symbol .minus)

def Bracket.Spells : Bracket → List Token → Prop
  | .group, ts => ts = [.symbol .bracketOpen]
  | .call f before, ts =>
    (before = [] ∧ ts = [.name f, .symbol .bracketOpen]) ∨
      ∃ us, AreArguments us before ∧
        ts = .name f :: .symbol .bracketOpen :: us ++ [.symbol .comma]

def Stage.Spells : Stage → List Token → Prop
  | .operand, ts => ts = []
  | .firstArgument, ts => ts = []
  | .named n, ts => ts = [.name n]
  | .complete e, ts => IsAtom ts e

/-- The tokens in front of the innermost open bracket, that bracket included. -/
def OuterSpells : List (Bracket × Level) → List Token → Prop
  | [], ts => ts = []
  | (b, l) :: outer, ts =>
    ∃ us vs ws, OuterSpells outer us ∧ l.Spells vs ∧ b.Spells ws ∧ ts = us ++ vs ++ ws

/-- Directly after the bracket of a call there are no arguments and nothing is begun. -/
structure Reader.Spells (r : Reader) (ts : List Token) : Prop where
  tokens : ∃ us vs ws, OuterSpells r.outer us ∧ r.level.Spells vs ∧ r.stage.Spells ws ∧
    ts = us ++ vs ++ ws
  first : r.stage = .firstArgument →
    r.level = {} ∧ ∃ f l outer, r.outer = (.call f [], l) :: outer

@[simp] theorem level_spells_empty {ts : List Token} : Level.Spells {} ts ↔ ts = [] := by
  simp [Level.Spells, Begun]

theorem Stage.Spells.atom {s : Stage} {ts : List Token} {a : Expr} (h : s.Spells ts)
    (ha : s.operand? = some a) : IsAtom ts a := by
  cases s <;> simp [Stage.operand?] at ha <;> subst ha
  · subst h; exact .name _
  · exact h

theorem isSigned_negate {ts : List Token} {a : Expr} (h : IsAtom ts a) (n : Nat) :
    IsSigned (List.replicate n (.symbol .minus) ++ ts) (negate n a) := by
  induction n with
  | zero => exact .atom h
  | succ n ih => exact .minus ih

theorem Begun.isProduct {p : Option (Expr × Operator)} {ts us : List Token} {e : Expr}
    (h : Begun IsProduct Operator.joinsFactors p ts) (he : IsSigned us e) :
    IsProduct (ts ++ us) (joinLeft p e) := by
  rcases p with - | ⟨l, op⟩
  · subst h; exact .factor he
  · obtain ⟨hop, vs, hl, rfl⟩ := h
    simpa [joinLeft] using IsProduct.join op hl hop he

theorem Begun.isSum {p : Option (Expr × Operator)} {ts us : List Token} {e : Expr}
    (h : Begun IsSum Operator.joinsTerms p ts) (he : IsProduct us e) :
    IsSum (ts ++ us) (joinLeft p e) := by
  rcases p with - | ⟨l, op⟩
  · subst h; exact .term he
  · obtain ⟨hop, vs, hl, rfl⟩ := h
    simpa [joinLeft] using IsSum.join op hl hop he

theorem Level.Spells.total {l : Level} {ts us : List Token} {a : Expr} (h : l.Spells ts)
    (ha : IsAtom us a) : IsSum (ts ++ us) (l.total a) := by
  obtain ⟨vs, ws, hsum, hproduct, rfl⟩ := h
  have ht := hsum.isSum (hproduct.isProduct (isSigned_negate ha l.signs))
  simpa only [List.append_assoc, Level.total, Level.term] using ht

theorem Level.Spells.extend {l : Level} {ts us : List Token} {a : Expr} (h : l.Spells ts)
    (ha : IsAtom us a) (op : Operator) :
    (l.extend a op).Spells (ts ++ us ++ [.symbol op.symbol]) := by
  rcases joinsTerms_or_joinsFactors op with hop | hop
  · rw [extend_of_joinsTerms hop]
    exact ⟨_, [], ⟨hop, ts ++ us, h.total ha, rfl⟩, rfl, by simp⟩
  · rw [extend_of_joinsFactors hop]
    obtain ⟨vs, ws, hsum, hproduct, rfl⟩ := h
    have ht := hproduct.isProduct (isSigned_negate ha l.signs)
    exact ⟨vs, _, hsum, ⟨hop, _, ht, rfl⟩, by simp⟩

theorem Bracket.Spells.arguments {f : String} {before : List Expr} {ts us : List Token} {e : Expr}
    (h : (Bracket.call f before).Spells ts) (he : IsSum us e) :
    ∃ vs, AreArguments vs (before ++ [e]) ∧
      ts ++ us = .name f :: .symbol .bracketOpen :: vs := by
  rcases h with ⟨rfl, rfl⟩ | ⟨vs, hvs, rfl⟩
  · exact ⟨us, .one he, rfl⟩
  · exact ⟨_, .more hvs he, by simp⟩

theorem start_cases {r r' : Reader} {t : Token} (h : r.start t = some r') :
    (∃ x, t = .number x ∧ r' = ⟨r.outer, r.level, .complete (.number x)⟩) ∨
    (∃ n, t = .name n ∧ r' = ⟨r.outer, r.level, .named n⟩) ∨
    (t = .symbol .bracketOpen ∧ r' = r.enter .group .operand) ∨
    (t = .symbol .minus ∧ r' = ⟨r.outer, r.level.behindSigns 1, .operand⟩) := by
  unfold Reader.start at h
  split at h
  · exact .inl ⟨_, rfl, (Option.some.inj h).symm⟩
  · exact .inr (.inl ⟨_, rfl, (Option.some.inj h).symm⟩)
  · exact .inr (.inr (.inl ⟨rfl, (Option.some.inj h).symm⟩))
  · exact .inr (.inr (.inr ⟨rfl, (Option.some.inj h).symm⟩))
  · simp at h

theorem follow_cases {r r' : Reader} {a : Expr} {s : Symbol} (h : r.follow a s = some r') :
    (∃ op : Operator, s = op.symbol ∧ r' = ⟨r.outer, r.level.extend a op, .operand⟩) ∨
    (s = .bracketClose ∧ ∃ l outer, r.outer = (.group, l) :: outer ∧
      r' = ⟨outer, l, .complete (r.level.total a)⟩) ∨
    (∃ f before l outer, r.outer = (.call f before, l) :: outer ∧
      ((s = .bracketClose ∧ r' = ⟨outer, l, .complete (.call f (before ++ [r.level.total a]))⟩) ∨
        (s = .comma ∧
          r' = ⟨(.call f (before ++ [r.level.total a]), l) :: outer, {}, .operand⟩))) := by
  unfold Reader.follow at h
  split at h
  · rename_i op hop
    exact .inl ⟨op, symbol_of_operator? hop, (Option.some.inj h).symm⟩
  · rename_i l outer ho _
    exact .inr (.inl ⟨rfl, l, outer, ho, (Option.some.inj h).symm⟩)
  · rename_i f before l outer ho _
    exact .inr (.inr ⟨f, before, l, outer, ho, .inl ⟨rfl, (Option.some.inj h).symm⟩⟩)
  · rename_i f before l outer ho _
    exact .inr (.inr ⟨f, before, l, outer, ho, .inr ⟨rfl, (Option.some.inj h).symm⟩⟩)
  · simp at h

theorem step_cases {r r' : Reader} {t : Token} (h : r.step t = some r') :
    (r.stage.Starts ∧ r.start t = some r') ∨
    (r.stage = .firstArgument ∧ t = .symbol .bracketClose ∧ ∃ f before l outer,
      r.outer = (.call f before, l) :: outer ∧ r' = ⟨outer, l, .complete (.call f [])⟩) ∨
    (∃ n, r.stage = .named n ∧ t = .symbol .bracketOpen ∧
      r' = r.enter (.call n []) .firstArgument) ∨
    (∃ a s, r.stage.operand? = some a ∧ t = .symbol s ∧ r.follow a s = some r') := by
  obtain ⟨outer, level, stage⟩ := r
  cases stage with
  | operand => exact .inl ⟨.inl rfl, h⟩
  | firstArgument =>
    by_cases ht : t = .symbol .bracketClose
    · subst ht
      rcases outer with - | ⟨⟨b, l⟩, outer⟩
      · simp [Reader.step, Reader.start] at h
      · cases b with
        | group => simp [Reader.step, Reader.start] at h
        | call f before =>
          exact .inr (.inl ⟨rfl, rfl, f, before, l, outer, rfl, (Option.some.inj h).symm⟩)
    · exact .inl ⟨.inr rfl, by rwa [step_of_starts (.inr rfl) ht] at h⟩
  | named n =>
    cases t with
    | symbol s =>
      by_cases hs : s = .bracketOpen
      · subst hs
        exact .inr (.inr (.inl ⟨n, rfl, rfl, (Option.some.inj h).symm⟩))
      · rw [step_of_operand? rfl hs] at h
        exact .inr (.inr (.inr ⟨.name n, s, rfl, rfl, h⟩))
    | _ => simp [Reader.step] at h
  | complete e =>
    cases t with
    | symbol s => exact .inr (.inr (.inr ⟨e, s, rfl, rfl, h⟩))
    | _ => simp [Reader.step] at h

theorem spells_start : Reader.Spells {} [] :=
  ⟨⟨[], [], [], rfl, by simp, rfl, rfl⟩, by simp⟩

theorem Reader.Spells.start {r r' : Reader} {ts : List Token} {t : Token} (h : r.Spells ts)
    (hs : r.stage.Starts) (ht : r.start t = some r') : r'.Spells (ts ++ [t]) := by
  obtain ⟨us, vs, ws, hu, hv, hw, rfl⟩ := h.tokens
  have hnil : ws = [] := by rcases hs with hs | hs <;> rw [hs] at hw <;> exact hw
  subst hnil
  rcases start_cases ht with ⟨x, rfl, rfl⟩ | ⟨n, rfl, rfl⟩ | ⟨rfl, rfl⟩ | ⟨rfl, rfl⟩
  · exact ⟨⟨us, vs, _, hu, hv, .number x, by simp⟩, nofun⟩
  · exact ⟨⟨us, vs, _, hu, hv, rfl, by simp⟩, nofun⟩
  · exact ⟨⟨_, [], [], ⟨us, vs, _, hu, hv, rfl, rfl⟩, level_spells_empty.2 rfl, rfl, by simp⟩,
      nofun⟩
  · obtain ⟨us', vs', hsum, hproduct, rfl⟩ := hv
    refine ⟨⟨us, _, [], hu, ⟨us', vs', hsum, hproduct, rfl⟩, rfl, ?_⟩, nofun⟩
    simp [Level.behindSigns, List.replicate_succ']

theorem Reader.Spells.follow {r r' : Reader} {ts : List Token} {a : Expr} {s : Symbol}
    (h : r.Spells ts) (ha : r.stage.operand? = some a) (hr : r.follow a s = some r') :
    r'.Spells (ts ++ [.symbol s]) := by
  obtain ⟨us, vs, ws, hu, hv, hw, rfl⟩ := h.tokens
  have hatom := hw.atom ha
  rcases follow_cases hr with ⟨op, rfl, rfl⟩ | ⟨rfl, l, outer, ho, rfl⟩ |
    ⟨f, before, l, outer, ho, hcases⟩
  · exact ⟨⟨us, _, [], hu, hv.extend hatom op, rfl, by simp⟩, nofun⟩
  · rw [ho] at hu
    obtain ⟨us', vs', ws', hu', hv', rfl, rfl⟩ := hu
    exact ⟨⟨us', vs', _, hu', hv', .group (hv.total hatom), by simp⟩, nofun⟩
  · rw [ho] at hu
    obtain ⟨us', vs', ws', hu', hv', hb, rfl⟩ := hu
    obtain ⟨xs, hxs, hx⟩ := hb.arguments (hv.total hatom)
    rcases hcases with ⟨rfl, rfl⟩ | ⟨rfl, rfl⟩
    · refine ⟨⟨us', vs', _, hu', hv', .call f hxs, ?_⟩, nofun⟩
      rw [List.append_assoc us', List.append_assoc, List.append_assoc]
      simp [← hx]
    · refine ⟨⟨_, [], [], ⟨us', vs', _, hu', hv', .inr ⟨xs, hxs, rfl⟩, rfl⟩, by simp, rfl, ?_⟩,
        nofun⟩
      simp [← hx]

theorem Reader.Spells.step {r r' : Reader} {ts : List Token} {t : Token} (h : r.Spells ts)
    (ht : r.step t = some r') : r'.Spells (ts ++ [t]) := by
  rcases step_cases ht with ⟨hs, hstart⟩ | ⟨hs, rfl, f, before, l, outer, ho, rfl⟩ |
    ⟨n, hs, rfl, rfl⟩ | ⟨a, s, ha, rfl, hfollow⟩
  · exact h.start hs hstart
  · obtain ⟨us, vs, ws, hu, hv, hw, rfl⟩ := h.tokens
    obtain ⟨hl, f', l', outer', ho'⟩ := h.first hs
    obtain ⟨⟨⟨rfl, rfl⟩, rfl⟩, rfl⟩ : ((f = f' ∧ before = []) ∧ l = l') ∧ outer = outer' := by
      simpa [ho] using ho'
    rw [ho] at hu
    rw [hl, level_spells_empty] at hv
    rw [hs] at hw
    obtain rfl : ws = [] := hw
    obtain ⟨us', vs', ws', hu', hv', hb, rfl⟩ := hu
    rcases hb with ⟨-, rfl⟩ | ⟨xs, hxs, rfl⟩
    · exact ⟨⟨us', vs', _, hu', hv', .emptyCall f, by simp [hv]⟩, by simp⟩
    · exact absurd rfl hxs.ne_nil
  · obtain ⟨us, vs, ws, hu, hv, hw, rfl⟩ := h.tokens
    rw [hs] at hw
    obtain rfl : ws = [.name n] := hw
    refine ⟨⟨_, [], [], ⟨us, vs, _, hu, hv, .inl ⟨rfl, rfl⟩, rfl⟩, level_spells_empty.2 rfl, rfl,
      by simp⟩, ?_⟩
    intro _
    exact ⟨rfl, n, r.level, r.outer, rfl⟩
  · exact h.follow ha hfollow

theorem Reader.Spells.run {r r' : Reader} {ts us : List Token} (h : r.Spells ts)
    (hr : r.run us = some r') : r'.Spells (ts ++ us) := by
  induction us generalizing r ts with
  | nil =>
    obtain rfl : r = r' := by simpa using hr
    simpa using h
  | cons u us ih =>
    obtain ⟨next, hn, hr'⟩ := Option.bind_eq_some_iff.1 hr
    simpa using ih (h.step hn) hr'

theorem isSum_of_tree? {ts : List Token} {e : Expr} (h : tree? ts = some e) : IsSum ts e := by
  obtain ⟨r, hr, he⟩ := Option.bind_eq_some_iff.1 h
  obtain ⟨us, vs, ws, hu, hv, hw, ht⟩ := (spells_start.run hr).tokens
  unfold Reader.result? at he
  split at he
  · rename_i ho
    obtain ⟨a, ha, rfl⟩ := Option.map_eq_some_iff.1 he
    rw [ho] at hu
    obtain rfl : us = [] := hu
    have hts : ts = vs ++ ws := by simpa using ht
    rw [hts]
    exact hv.total (hw.atom ha)
  · simp at he

theorem tree?_eq_some_iff {ts : List Token} {e : Expr} : tree? ts = some e ↔ IsSum ts e :=
  ⟨isSum_of_tree?, tree?_of_isSum⟩

theorem IsSum.unique {ts : List Token} {e e' : Expr} (h : IsSum ts e) (h' : IsSum ts e') :
    e = e' :=
  Option.some.inj ((tree?_of_isSum h).symm.trans (tree?_of_isSum h'))

theorem read_eq_ok_iff {ending : Span} {r : Reader} {ls : List Lexeme} {e : Expr} :
    r.read ending ls = .ok e ↔ (r.run (ls.map (·.token))).bind (·.result?) = some e := by
  induction ls generalizing r with
  | nil =>
    simp only [Reader.read, List.map_nil, Reader.run_nil, Option.bind_some]
    cases r.result? <;> simp
  | cons l ls ih =>
    simp only [Reader.read, List.map_cons, Reader.run_cons]
    cases r.step l.token with
    | none => simp
    | some next => simpa using ih

/-- A text is read as a tree exactly if it consists of few enough tokens, nested little enough,
that are an expression with this tree; and no tokens are an expression with two trees. -/
theorem parse_eq_ok_iff (limits : Limits) (text : String) (e : Expr) :
    (parse limits text = .ok e ↔
      ∃ ls, lex text = .ok ls ∧ ls.length ≤ limits.tokens ∧
        nesting (ls.map (·.token)) ≤ limits.depth ∧ IsSum (ls.map (·.token)) e) ∧
    ∀ (ts : List Token) (e₁ e₂ : Expr), IsSum ts e₁ → IsSum ts e₂ → e₁ = e₂ := by
  refine ⟨?_, fun ts e₁ e₂ => IsSum.unique⟩
  cases hlex : lex text with
  | error cause => simp [parse, hlex, bind, Except.bind]
  | ok ls =>
    simp only [parse, hlex, bind, Except.bind, Except.ok.injEq, exists_eq_left']
    by_cases hlong : limits.tokens < ls.length
    · rw [if_pos hlong]
      refine ⟨nofun, fun h => ?_⟩
      omega
    · by_cases hdeep : limits.depth < nesting (ls.map (·.token))
      · rw [if_neg hlong, if_pos hdeep]
        refine ⟨nofun, fun h => ?_⟩
        omega
      · have htree : (Reader.run {} (ls.map (·.token))).bind (·.result?) = some e ↔
            IsSum (ls.map (·.token)) e := tree?_eq_some_iff
        rw [if_neg hlong, if_neg hdeep, read_eq_ok_iff, htree]
        constructor
        · intro h
          exact ⟨by omega, by omega, h⟩
        · rintro ⟨-, -, h⟩
          exact h

end FormulaDrawing.Expression
