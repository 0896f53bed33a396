import FormulaDrawing.Expression.Lexer
import FormulaDrawing.Proofs.Number.Numeral
import FormulaDrawing.Proofs.Number.Scientific
import FormulaDrawing.Proofs.Text.Blank

/-! Lexing partitions the text. The lexer reads the longest token of the grammar wherever one stands; so its
lexemes lie one behind the other, each of them is the longest where it begins, and only gaps are left in
between. Where neither a gap nor a token begins the text is refused, and up to there it would have been read. -/

namespace FormulaDrawing.Expression

open Text

variable {s w w' rest : List Char} {c : Char} {t t' : Token} {o : Nat} {ls : List Lexeme}

section Grammar

/-- The text spells the token. -/
inductive IsToken : List Char → Token → Prop
  | symbol (x : Symbol) : IsToken [x.char] (.symbol x)
  | name {c : Char} {w : List Char} : isNameStart c = true → (∀ d ∈ w, isNamePart d = true) →
      IsToken (c :: w) (.name (String.ofList (c :: w)))
  | number {w : List Char} {d : Nat} {p : Int} {x : Float} :
      Number.Spells w d p → Number.Denotes (d * 10 ^ p) x → IsToken w (.number x)

/-- The token stands at the front of the text, and no longer one does. -/
structure Longest (s w : List Char) (t : Token) : Prop where
  token : IsToken w t
  leads : w <+: s
  longest : ∀ w' t', IsToken w' t' → w' <+: s → w'.length ≤ w.length

theorem IsToken.ne_nil (h : IsToken w t) : w ≠ [] := by
  cases h with
  | symbol x => exact List.cons_ne_nil _ _
  | name => exact List.cons_ne_nil _ _
  | number hw =>
    obtain ⟨c, w, rfl, -⟩ := hw.exists_head
    exact List.cons_ne_nil _ _

theorem IsToken.isGap_eq_false (h : IsToken w t) (hc : c ∈ w) : isGap c = false := by
  cases h with
  | symbol x =>
    obtain rfl := List.mem_singleton.1 hc
    cases x <;> rfl
  | name hstart hpart =>
    rcases List.mem_cons.1 hc with rfl | hc
    · exact Text.isGap_eq_false (by decide) hstart
    · exact Text.isGap_eq_false (by decide) (hpart c hc)
  | number hw => exact Text.isGap_eq_false (by decide) (hw.part c hc)

theorem Longest.mono {rest' : List Char} (h : Longest (w ++ rest) w t) (hrest : rest' <+: rest) :
    Longest (w ++ rest') w t :=
  ⟨h.token, List.prefix_append _ _, fun w' t' ht' hw' =>
    h.longest w' t' ht' (hw'.trans (List.prefix_append_right_inj w |>.2 hrest))⟩

end Grammar

section Reading

theorem numeral?_eq_none (hdigit : c.isDigit = false) (hpoint : c ≠ '.') (s : List Char) :
    Number.numeral? (c :: s) = none := by
  simp [Number.numeral?, Number.fraction, hdigit, hpoint]

theorem isDigit_of_isNameStart (hc : isNameStart c = true) : c.isDigit = false := by
  rw [Bool.eq_false_iff]
  intro hdigit
  simp only [Char.isDigit, Bool.and_eq_true, decide_eq_true_eq, UInt32.le_iff_toNat_le, ge_iff_le] at hdigit
  simp only [isNameStart, Char.isAlpha, Char.isUpper, Char.isLower, Bool.or_eq_true, Bool.and_eq_true,
    decide_eq_true_eq, beq_iff_eq, UInt32.le_iff_toNat_le, ge_iff_le] at hc
  rcases hc with (⟨hlow, -⟩ | ⟨hlow, -⟩) | rfl
  · exact absurd (hlow.trans hdigit.2) (by decide)
  · exact absurd (hlow.trans hdigit.2) (by decide)
  · exact absurd hdigit.2 (by decide)

theorem read?_symbol (x : Symbol) (rest : List Char) :
    Token.read? (x.char :: rest) = some (.symbol x, [x.char], rest) := by
  have hnone : Number.numeral? (x.char :: rest) = none :=
    numeral?_eq_none (by cases x <;> rfl) (by cases x <;> decide) rest
  rw [Token.read?, hnone]
  cases x <;> rfl

theorem read?_name (hc : isNameStart c = true) (s : List Char) :
    Token.read? (c :: s) = some (.name (String.ofList (c :: s.takeWhile isNamePart)),
      c :: s.takeWhile isNamePart, s.dropWhile isNamePart) := by
  have hnone : Number.numeral? (c :: s) = none :=
    numeral?_eq_none (isDigit_of_isNameStart hc) (by rintro rfl; cases hc) s
  rw [Token.read?, hnone]
  dsimp only
  rw [if_pos hc]

theorem isToken_of_read? (h : Token.read? s = some (t, w, rest)) : IsToken w t := by
  unfold Token.read? at h
  split at h
  next n tail hn =>
    obtain ⟨rfl, rfl, -⟩ := by simpa using h
    exact .number (Number.spells_of_numeral? hn) (Number.denotes_ofScientific n.digits n.scale)
  next =>
    cases s with
    | nil => cases h
    | cons c s =>
      dsimp only at h
      split at h
      next hc =>
        rw [Option.some.injEq, Prod.mk.injEq, Prod.mk.injEq] at h
        obtain ⟨rfl, rfl, -⟩ := h
        exact .name hc fun d hd => List.mem_takeWhile_imp hd
      next =>
        obtain ⟨x, hx, he⟩ := Option.map_eq_some_iff.1 h
        obtain ⟨rfl, rfl, -⟩ := by simpa using he
        obtain rfl : x.char = c := by simpa using List.find?_some hx
        exact .symbol x

theorem read?_of_isToken (h : IsToken w t) (rest : List Char) :
    ∃ t' w' rest', Token.read? (w ++ rest) = some (t', w', rest') ∧ w.length ≤ w'.length ∧
      (rest = [] → t' = t) := by
  cases h with
  | symbol x => exact ⟨_, _, _, read?_symbol x rest, le_refl _, fun _ => rfl⟩
  | @name c w hc hw =>
    refine ⟨_, _, _, read?_name hc (w ++ rest), ?_, ?_⟩
    · simp [List.takeWhile_append_of_pos hw]
    · rintro rfl
      rw [List.takeWhile_append_of_pos hw, List.takeWhile_nil, List.append_nil]
  | @number _ d p x hw hx =>
    obtain ⟨n, tail, hread, hlength, hvalue⟩ := Number.numeral?_of_spells hw rest
    refine ⟨.number n.value, n.written, tail, by unfold Token.read?; rw [hread], hlength, fun hnil => ?_⟩
    obtain ⟨rfl, rfl⟩ := hvalue hnil
    exact congrArg Token.number ((Number.denotes_ofScientific n.digits n.scale).unique hx)

theorem IsToken.unique (h : IsToken w t) (h' : IsToken w t') : t = t' := by
  obtain ⟨_, _, _, hread, -, ht⟩ := read?_of_isToken h []
  obtain ⟨_, _, _, hread', -, ht'⟩ := read?_of_isToken h' []
  rw [hread, Option.some.injEq, Prod.mk.injEq] at hread'
  exact (ht rfl).symm.trans (hread'.1.trans (ht' rfl))

theorem Longest.unique (h : Longest s w t) (h' : Longest s w' t') : w = w' ∧ t = t' := by
  have hlength := le_antisymm (h'.longest w t h.token h.leads) (h.longest w' t' h'.token h'.leads)
  obtain rfl : w = w' := (List.prefix_of_prefix_length_le h.leads h'.leads hlength.le).eq_of_length hlength
  exact ⟨rfl, h.token.unique h'.token⟩

theorem longest_of_read? (h : Token.read? s = some (t, w, rest)) : Longest s w t := by
  refine ⟨isToken_of_read? h, ⟨rest, Token.read?_append h⟩, fun w' t' ht' hw' => ?_⟩
  obtain ⟨rest', rfl⟩ := hw'
  obtain ⟨_, _, _, hread, hlength, -⟩ := read?_of_isToken ht' rest'
  rw [h, Option.some.injEq, Prod.mk.injEq, Prod.mk.injEq] at hread
  exact hread.2.1 ▸ hlength

theorem read?_eq_some_iff :
    Token.read? s = some (t, w, rest) ↔ w ++ rest = s ∧ Longest s w t := by
  refine ⟨fun h => ⟨Token.read?_append h, longest_of_read? h⟩, ?_⟩
  rintro ⟨rfl, h⟩
  obtain ⟨t', w', rest', hread, -⟩ := read?_of_isToken h.token rest
  obtain ⟨rfl, rfl⟩ := (longest_of_read? hread).unique h
  rw [hread, List.append_cancel_left (Token.read?_append hread)]

theorem read?_eq_none_iff : Token.read? s = none ↔ ∀ w t, IsToken w t → ¬ w <+: s := by
  constructor
  · rintro h w t ht ⟨rest, rfl⟩
    obtain ⟨_, _, _, hread, -⟩ := read?_of_isToken ht rest
    rw [h] at hread
    cases hread
  · intro h
    cases hread : Token.read? s with
    | none => rfl
    | some read =>
      obtain ⟨t, w, rest⟩ := read
      have hlongest := longest_of_read? hread
      exact absurd hlongest.leads (h w t hlongest.token)

theorem lexFrom_gap (hc : isGap c = true) (o : Nat) (s : List Char) :
    lexFrom o (c :: s) = lexFrom (o + c.utf8Size) s := by
  rw [lexFrom, if_pos hc]

theorem lexFrom_token (h : Longest (w ++ rest) w t) (o : Nat) :
    lexFrom o (w ++ rest) =
      (lexFrom (o + byteLength w) rest).map (⟨t, ⟨o, o + byteLength w⟩⟩ :: ·) := by
  have hread := read?_eq_some_iff.2 ⟨rfl, h⟩
  obtain ⟨c, w, rfl⟩ := List.exists_cons_of_ne_nil h.token.ne_nil
  have hc := h.token.isGap_eq_false List.mem_cons_self
  rw [List.cons_append] at hread ⊢
  rw [lexFrom, if_neg (Bool.eq_false_iff.1 hc)]
  split
  next hnone =>
    rw [hnone] at hread
    cases hread
  next t' w' rest' hsome =>
    rw [hsome] at hread
    obtain ⟨rfl, rfl, rfl⟩ : t' = t ∧ w' = c :: w ∧ rest' = rest := by simpa using hread
    rfl

end Reading

section Partition

/-- In a text that begins at byte `o` the lexeme covers the longest token where it stands. -/
def Stands (o : Nat) (s : List Char) (l : Lexeme) : Prop :=
  ∃ front w back, s = front ++ (w ++ back) ∧
    l.span = ⟨o + byteLength front, o + byteLength front + byteLength w⟩ ∧ Longest (w ++ back) w l.token

theorem stands_front (h : Longest (w ++ rest) w t) (o : Nat) :
    Stands o (w ++ rest) ⟨t, ⟨o, o + byteLength w⟩⟩ := ⟨[], w, rest, rfl, rfl, h⟩

theorem Stands.behind {l : Lexeme} (h : Stands (o + byteLength w) rest l) : Stands o (w ++ rest) l := by
  obtain ⟨front, v, back, rfl, hspan, hlongest⟩ := h
  refine ⟨w ++ front, v, back, (List.append_assoc ..).symm, ?_, hlongest⟩
  rw [hspan, byteLength_append, ← Nat.add_assoc]

/-- The lexemes partition a text that begins at byte `o`. -/
structure Partitions (o : Nat) (s : List Char) (ls : List Lexeme) : Prop where
  token : ∀ l ∈ ls, Stands o s l
  apart : ls.Pairwise fun l l' => l.span.stop ≤ l'.span.start
  gap : ∀ front c back, s = front ++ c :: back → isGap c = true ∨
    ∃ l ∈ ls, l.span.start ≤ o + byteLength front ∧ o + byteLength front + c.utf8Size ≤ l.span.stop

theorem byteLength_pos (hw : w ≠ []) : 0 < byteLength w := by
  obtain ⟨c, w, rfl⟩ := List.exists_cons_of_ne_nil hw
  rw [byteLength_cons]
  have := c.utf8Size_pos
  omega

theorem Partitions.bounds (h : Partitions o s ls) {l : Lexeme} (hl : l ∈ ls) :
    o ≤ l.span.start ∧ l.span.start < l.span.stop ∧ l.span.stop ≤ o + byteLength s := by
  obtain ⟨front, w, back, rfl, hspan, hlongest⟩ := h.token l hl
  have hpos := byteLength_pos hlongest.token.ne_nil
  rw [hspan, byteLength_append, byteLength_append]
  dsimp only
  omega

theorem partitions_nil (o : Nat) : Partitions o [] [] := by
  refine ⟨nofun, .nil, fun front c back h => ?_⟩
  cases front <;> cases h

theorem Partitions.gap_cons (h : Partitions (o + c.utf8Size) s ls) (hc : isGap c = true) :
    Partitions o (c :: s) ls := by
  constructor
  case token => exact fun l hl => (h.token l hl).behind (w := [c])
  case apart => exact h.apart
  case gap =>
    intro front d back heq
    cases front with
    | nil =>
      obtain ⟨rfl, -⟩ := List.cons.inj heq
      exact .inl hc
    | cons _ front =>
      obtain ⟨rfl, rfl⟩ := List.cons.inj heq
      rw [byteLength_cons, ← Nat.add_assoc]
      exact h.gap front d back rfl

theorem Partitions.token_append (h : Partitions (o + byteLength w) rest ls)
    (hw : Longest (w ++ rest) w t) :
    Partitions o (w ++ rest) (⟨t, ⟨o, o + byteLength w⟩⟩ :: ls) := by
  constructor
  case token =>
    rintro l (- | ⟨-, hl⟩)
    · exact stands_front hw o
    · exact (h.token l hl).behind
  case apart => exact .cons (fun l hl => (h.bounds hl).1) h.apart
  case gap =>
    intro front c back heq
    -- the character lies in the token or in the rest
    have hcases : (∃ v, w = front ++ c :: v) ∨ ∃ v, front = w ++ v ∧ rest = v ++ c :: back := by
      rcases List.append_eq_append_iff.1 heq with ⟨v, rfl, rfl⟩ | ⟨v, rfl, hback⟩
      · exact .inr ⟨v, rfl, rfl⟩
      · cases v with
        | nil => exact .inr ⟨[], by simp, by simpa using hback.symm⟩
        | cons d v =>
          obtain ⟨rfl, -⟩ := List.cons.inj hback
          exact .inl ⟨v, rfl⟩
    rcases hcases with ⟨v, rfl⟩ | ⟨v, rfl, rfl⟩
    · refine .inr ⟨_, List.mem_cons_self, Nat.le_add_right _ _, ?_⟩
      rw [byteLength_append, byteLength_cons]
      dsimp only
      omega
    · rw [byteLength_append, ← Nat.add_assoc]
      exact (h.gap v c back rfl).imp_right fun ⟨l, hl, hspan⟩ => ⟨l, List.mem_cons_of_mem _ hl, hspan⟩

theorem partitions_of_lexFrom (h : lexFrom o s = .ok ls) : Partitions o s ls := by
  fun_induction lexFrom o s generalizing ls with
  | case1 o =>
    obtain rfl : [] = ls := by simpa using h
    exact partitions_nil o
  | case2 o c s hc ih => exact (ih h).gap_cons hc
  | case3 => cases h
  | case4 o c s hc t w rest hread stop =>
    rename_i ih
    cases hls : lexFrom stop rest with
    | error f => simp [hls, Except.map] at h
    | ok later =>
      obtain rfl : ⟨t, ⟨o, stop⟩⟩ :: later = ls := by simpa [hls, Except.map] using h
      obtain ⟨happend, hlongest⟩ := read?_eq_some_iff.1 hread
      rw [← happend] at hlongest ⊢
      exact (ih hls).token_append hlongest

theorem lexFrom_error {f : Failure} (h : lexFrom o s = .error f) :
    ∃ before c after ls, s = before ++ c :: after ∧
      f = .invalidToken c ⟨o + byteLength before, o + byteLength before + c.utf8Size⟩ ∧
      lexFrom o before = .ok ls ∧ (∀ l ∈ ls, Stands o s l) ∧
      isGap c = false ∧ ∀ w t, IsToken w t → ¬ w <+: c :: after := by
  fun_induction lexFrom o s generalizing f with
  | case1 => cases h
  | case2 o c s hc ih =>
    obtain ⟨before, d, after, ls, rfl, rfl, hls, hstands, hd, hnone⟩ := ih h
    refine ⟨c :: before, d, after, ls, rfl, ?_, ?_, fun l hl => (hstands l hl).behind (w := [c]), hd, hnone⟩
    · rw [byteLength_cons, ← Nat.add_assoc]
    · rw [lexFrom_gap hc, hls]
  | case3 o c s hc hread =>
    obtain rfl : Failure.invalidToken c ⟨o, o + c.utf8Size⟩ = f := by simpa using h
    exact ⟨[], c, s, [], rfl, rfl, by rw [lexFrom], nofun, Bool.eq_false_iff.2 hc,
      read?_eq_none_iff.1 hread⟩
  | case4 o c s hc t w rest hread stop =>
    rename_i ih
    cases hrest : lexFrom stop rest with
    | ok later => simp [hrest, Except.map] at h
    | error f' =>
      obtain rfl : f' = f := by simpa [hrest, Except.map] using h
      obtain ⟨before, d, after, ls, rfl, rfl, hls, hstands, hd, hnone⟩ := ih hrest
      obtain ⟨happend, hlongest⟩ := read?_eq_some_iff.1 hread
      rw [← happend] at hlongest ⊢
      refine ⟨w ++ before, d, after, ⟨t, ⟨o, stop⟩⟩ :: ls, (List.append_assoc ..).symm, ?_, ?_,
        List.forall_mem_cons.2 ⟨stands_front hlongest o, fun l hl => (hstands l hl).behind⟩, hd, hnone⟩
      · rw [byteLength_append, ← Nat.add_assoc]
      · rw [lexFrom_token (hlongest.mono (List.prefix_append _ _)), hls]
        rfl

end Partition

/-- Either the lexemes partition the text, or they partition what stands in front of a character at which
neither a gap nor a token begins, and this character is reported. -/
theorem lex_partitions (text : String) :
    match lex text with
    | .ok ls => Partitions 0 text.toList ls ∧
        ∀ l ∈ ls, l.span.start < l.span.stop ∧ l.span.stop ≤ text.utf8ByteSize
    | .error f => ∃ before c after ls, text.toList = before ++ c :: after ∧
        f = .invalidToken c ⟨byteLength before, byteLength before + c.utf8Size⟩ ∧
        lex (String.ofList before) = .ok ls ∧ Partitions 0 before ls ∧
        (∀ l ∈ ls, Stands 0 text.toList l) ∧ isGap c = false ∧ ∀ w t, IsToken w t → ¬ w <+: c :: after := by
  cases h : lex text with
  | ok ls =>
    have hls := partitions_of_lexFrom h
    refine ⟨hls, fun l hl => ?_⟩
    rw [utf8ByteSize_eq]
    obtain ⟨-, hspan, hstop⟩ := hls.bounds hl
    exact ⟨hspan, by omega⟩
  | error f =>
    obtain ⟨before, c, after, ls, hs, hf, hls, hstands, hgap, hnone⟩ := lexFrom_error h
    rw [Nat.zero_add] at hf
    refine ⟨before, c, after, ls, hs, hf, ?_, partitions_of_lexFrom hls, hstands, hgap, hnone⟩
    rw [lex, String.toList_ofList, hls]

-- a mark and a sign without digits behind them are no exponent
example : (lex "1e+.5").toOption.map (·.map (·.span)) = some [⟨0, 1⟩, ⟨1, 2⟩, ⟨2, 3⟩, ⟨3, 5⟩] := by
  decide +kernel

end FormulaDrawing.Expression
