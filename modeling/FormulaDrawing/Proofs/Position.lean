import FormulaDrawing.Position
import FormulaDrawing.Proofs.Number.Readback
import FormulaDrawing.Proofs.Text.Blank

/-! The position of a path. Its coordinates are the first two number literals behind the command letter,
each of them the longest where it begins; where they are not found it is the origin. Either way they are
numbers, so the position can be shifted. -/

namespace FormulaDrawing

namespace Position

open Text Number

variable {s w v rest seps : List Char} {c : Char} {x y : String} {data : String} {p : Position} {e : Element}

theorem isSeparator_of_part (hc : isNumeralPart c = true) : isSeparator c = false := by
  rcases (Bool.or_eq_true ..).mp hc with hc | hc
  · rw [isSeparator, isBlank_of_isAlphanum (by rw [Char.isAlphanum, hc, Bool.or_true]), Bool.false_or,
      beq_eq_false_iff_ne]
    rintro rfl
    cases hc
  · simp only [List.contains_iff_mem, List.mem_cons, List.not_mem_nil, or_false] at hc
    rcases hc with rfl | rfl | rfl | rfl | rfl <;> rfl

section Literal

/-- A number in path data: a numeral with a sign or without one. -/
inductive IsLiteral : List Char → Prop
  | unsigned {w : List Char} {d : Nat} {q : Int} : Spells w d q → IsLiteral w
  | signed {c : Char} {w : List Char} {d : Nat} {q : Int} :
      isSign c = true → Spells w d q → IsLiteral (c :: w)

/-- The literal stands at the front of the text, and no longer one does. -/
structure LongestLiteral (s w : List Char) : Prop where
  literal : IsLiteral w
  leads : w <+: s
  longest : ∀ v, IsLiteral v → v <+: s → v.length ≤ w.length

theorem IsLiteral.isSeparator_eq_false (h : IsLiteral w) : ∀ c ∈ w, isSeparator c = false := by
  cases h with
  | unsigned hw => exact fun c hc => isSeparator_of_part (hw.part c hc)
  | @signed c _ _ _ hsign hw =>
    have hpart : isNumeralPart c = true := by
      rcases (Bool.or_eq_true ..).mp hsign with hc | hc <;> rw [beq_iff_eq] at hc <;> subst hc <;> rfl
    exact List.forall_mem_cons.2
      ⟨isSeparator_of_part hpart, fun c hc => isSeparator_of_part (hw.part c hc)⟩

theorem IsLiteral.head_append (h : IsLiteral w) (rest : List Char) :
    ∀ c ∈ (w ++ rest).head?, isSeparator c = false := by
  have hne : w ≠ [] := by
    cases h with
    | unsigned hw =>
      obtain ⟨c, t, rfl, -⟩ := hw.exists_head
      exact List.cons_ne_nil c t
    | signed => exact List.cons_ne_nil _ _
  obtain ⟨c, t, rfl⟩ := List.exists_cons_of_ne_nil hne
  rintro _ ⟨⟩
  exact h.isSeparator_eq_false c List.mem_cons_self

/-- The literal at the front, and the rest. -/
def literal? (s : List Char) : Option (List Char × List Char) :=
  (numeral? (takeSign s).2).map fun (n, rest) => ((takeSign s).1 ++ n.written, rest)

theorem coordinate?_eq (s : List Char) :
    coordinate? s = (literal? (s.dropWhile isSeparator)).map fun (w, rest) => (String.ofList w, rest) := by
  rw [coordinate?, literal?, Option.map_map]
  rfl

theorem literal?_append (h : literal? s = some (w, rest)) : w ++ rest = s := by
  obtain ⟨⟨n, rest⟩, hn, heq⟩ := Option.map_eq_some_iff.1 h
  obtain ⟨rfl, rfl⟩ := Prod.mk.inj heq
  rw [List.append_assoc, numeral?_append hn, takeSign_append]

theorem isLiteral_of_literal? (h : literal? s = some (w, rest)) : IsLiteral w := by
  obtain ⟨⟨n, rest⟩, hn, heq⟩ := Option.map_eq_some_iff.1 h
  obtain ⟨rfl, rfl⟩ := Prod.mk.inj heq
  have hspells := spells_of_numeral? hn
  rcases takeSign_cases s with hsign | hsign | hsign <;> rw [hsign]
  · exact .unsigned hspells
  · exact .signed rfl hspells
  · exact .signed rfl hspells

theorem literal?_of_isLiteral (h : IsLiteral v) (rest : List Char) :
    ∃ w tail, literal? (v ++ rest) = some (w, tail) ∧ v.length ≤ w.length := by
  cases h with
  | unsigned hv =>
    obtain ⟨n, tail, hread, hlength, -⟩ := numeral?_of_spells hv rest
    exact ⟨n.written, tail, by rw [literal?, hv.takeSign_append, hread]; rfl, hlength⟩
  | @signed c v _ _ hc hv =>
    obtain ⟨n, tail, hread, hlength, -⟩ := numeral?_of_spells hv rest
    have hsign : takeSign (c :: v ++ rest) = ([c], v ++ rest) := by
      rw [List.cons_append, takeSign, hc]
      rfl
    exact ⟨c :: n.written, tail, by rw [literal?, hsign, hread]; rfl, Nat.succ_le_succ hlength⟩

theorem LongestLiteral.unique (h : LongestLiteral s w) (h' : LongestLiteral s v) : w = v := by
  have hlength := le_antisymm (h'.longest w h.literal h.leads) (h.longest v h'.literal h'.leads)
  exact (List.prefix_of_prefix_length_le h.leads h'.leads hlength.le).eq_of_length hlength

theorem longest_of_literal? (h : literal? s = some (w, rest)) : LongestLiteral s w := by
  refine ⟨isLiteral_of_literal? h, ⟨rest, literal?_append h⟩, fun v hv hlead => ?_⟩
  obtain ⟨rest', rfl⟩ := hlead
  obtain ⟨w', tail, hread, hlength⟩ := literal?_of_isLiteral hv rest'
  rw [h, Option.some.injEq, Prod.mk.injEq] at hread
  exact hread.1 ▸ hlength

theorem literal?_eq_some_iff : literal? s = some (w, rest) ↔ w ++ rest = s ∧ LongestLiteral s w := by
  refine ⟨fun h => ⟨literal?_append h, longest_of_literal? h⟩, ?_⟩
  rintro ⟨rfl, h⟩
  obtain ⟨v, tail, hread, -⟩ := literal?_of_isLiteral h.literal rest
  obtain rfl := (longest_of_literal? hread).unique h
  rw [hread, List.append_cancel_left (literal?_append hread)]

theorem exists_ofText? (h : IsLiteral x.toList) : ∃ r, ofText? x = some r := by
  obtain ⟨w, tail, hread, hlength⟩ := literal?_of_isLiteral h []
  have hall := literal?_append hread
  rw [List.append_nil] at hread hall
  -- what was read is not shorter, so it is the whole text
  obtain rfl : tail = [] := by
    rw [← hall, List.length_append] at hlength
    exact List.length_eq_zero_iff.1 (by omega)
  obtain ⟨⟨n, tail⟩, hn, heq⟩ := Option.map_eq_some_iff.1 hread
  obtain ⟨-, rfl⟩ := Prod.mk.inj heq
  refine ⟨if (takeSign x.toList).1 = ['-'] then -n.value else n.value, ?_⟩
  rw [ofText?, ofChars?]
  simp only [magnitude?, hn, Option.map_some, Magnitude.value]

end Literal

section Path

theorem coordinate?_eq_some_iff : coordinate? s = some (x, rest) ↔
    ∃ seps, s = seps ++ (x.toList ++ rest) ∧ (∀ c ∈ seps, isSeparator c = true) ∧
      LongestLiteral (x.toList ++ rest) x.toList := by
  rw [coordinate?_eq]
  constructor
  · intro h
    obtain ⟨⟨w, rest⟩, hread, heq⟩ := Option.map_eq_some_iff.1 h
    obtain ⟨rfl, rfl⟩ := Prod.mk.inj heq
    obtain ⟨hall, hlongest⟩ := literal?_eq_some_iff.1 hread
    rw [String.toList_ofList, hall]
    exact ⟨_, List.takeWhile_append_dropWhile.symm, fun c hc => List.mem_takeWhile_imp hc, hlongest⟩
  · rintro ⟨seps, rfl, hseps, hlongest⟩
    rw [dropWhile_run hseps (hlongest.literal.head_append rest), literal?_eq_some_iff.2 ⟨rfl, hlongest⟩]
    simp

/-- The data begins with blanks, a letter and two longest literals, with separators in front of each. -/
def Begins (data x y : String) : Prop :=
  ∃ blanks c seps seps' rest,
    data.toList = blanks ++ c :: (seps ++ (x.toList ++ (seps' ++ (y.toList ++ rest)))) ∧
      (∀ b ∈ blanks, isBlank b = true) ∧ c.isAlpha = true ∧ (∀ b ∈ seps, isSeparator b = true) ∧
      (∀ b ∈ seps', isSeparator b = true) ∧
      LongestLiteral (x.toList ++ (seps' ++ (y.toList ++ rest))) x.toList ∧
      LongestLiteral (y.toList ++ rest) y.toList

theorem ofPath?_eq_some_iff : ofPath? data = some p ↔ Begins data p.x p.y := by
  constructor
  · intro h
    have hdata := (List.takeWhile_append_dropWhile (p := isBlank) (l := data.toList)).symm
    have hblanks : ∀ b ∈ data.toList.takeWhile isBlank, isBlank b = true :=
      fun b hb => List.mem_takeWhile_imp hb
    rw [ofPath?] at h
    split at h
    next => cases h
    next c s hstart =>
      obtain ⟨_, hguard, h⟩ := Option.bind_eq_some_iff.1 h
      have hletter : c.isAlpha = true := by simpa [guard] using hguard
      obtain ⟨⟨x, s'⟩, hx, h⟩ := Option.bind_eq_some_iff.1 h
      obtain ⟨⟨y, rest⟩, hy, h⟩ := Option.bind_eq_some_iff.1 h
      obtain rfl := Option.some.inj h
      obtain ⟨seps, rfl, hseps, hfirst⟩ := coordinate?_eq_some_iff.1 hx
      obtain ⟨seps', rfl, hseps', hsecond⟩ := coordinate?_eq_some_iff.1 hy
      rw [← trimStart, hstart] at hdata
      exact ⟨_, c, seps, seps', rest, hdata, hblanks, hletter, hseps, hseps', hfirst, hsecond⟩
  · rintro ⟨blanks, c, seps, seps', rest, hdata, hblanks, hc, hseps, hseps', hx, hy⟩
    have hletter : isBlank c = false := isBlank_of_isAlphanum (by rw [Char.isAlphanum, hc, Bool.true_or])
    have hfirst := coordinate?_eq_some_iff.2 ⟨seps, rfl, hseps, hx⟩
    have hsecond := coordinate?_eq_some_iff.2 ⟨seps', rfl, hseps', hy⟩
    rw [ofPath?, hdata, trimStart, dropWhile_run hblanks (by rintro _ ⟨⟩; exact hletter)]
    simp [hc, hfirst, hsecond]

end Path

section Shift

theorem isLiteral_zero : IsLiteral ['0'] :=
  .unsigned (.plain (.whole (List.forall_mem_singleton.2 rfl) nofun))

theorem Begins.isLiteral (h : Begins data x y) : IsLiteral x.toList ∧ IsLiteral y.toList := by
  obtain ⟨_, _, _, _, _, -, -, -, -, -, hx, hy⟩ := h
  exact ⟨hx.literal, hy.literal⟩

theorem trimmed_of_isLiteral (h : IsLiteral x.toList) : trimmed x = x := by
  have hblank : ∀ c ∈ x.toList, isBlank c = false := fun c hc =>
    ((Bool.or_eq_false_iff ..).mp (h.isSeparator_eq_false c hc)).1
  rw [trimmed, trim_of_forall hblank, String.ofList_toList]

theorem shift_of_isLiteral (hx : IsLiteral p.x.toList) (hy : IsLiteral p.y.toList) :
    ∃ x y, ofText? p.x = some x ∧ ofText? p.y = some y ∧
      ∀ dx, p.shift dx = { x := Number.text (x + dx), y := Number.text y } := by
  obtain ⟨x, hxr⟩ := exists_ofText? hx
  obtain ⟨y, hyr⟩ := exists_ofText? hy
  refine ⟨x, y, hxr, hyr, fun dx => ?_⟩
  rw [shift, trimmed_of_isLiteral hx, trimmed_of_isLiteral hy, hxr, hyr]

end Shift

/-- The position of a path is the point that its data begin with, and the origin if they begin with none. Both
coordinates are numbers, and the shifted ones are read as the sum and as the other coordinate. -/
theorem position_of_path (he : e.localName = "path") (hd : e.attr? "d" = some data) :
    (ofElement e = {} ∨ Begins data (ofElement e).x (ofElement e).y) ∧
      (∀ x y, Begins data x y → ofElement e = { x, y }) ∧
      ∃ x y, ofText? (ofElement e).x = some x ∧ ofText? (ofElement e).y = some y ∧
        ∀ dx, (ofElement e).shift dx = { x := Number.text (x + dx), y := Number.text y } ∧
          ofText? ((ofElement e).shift dx).x = some (x + dx) ∧
          ofText? ((ofElement e).shift dx).y = some y := by
  have hpoint : ofElement e = (ofPath? data).getD {} := by
    rw [ofElement, if_pos he, hd, Option.bind_some]
  have hfirst : ofElement e = {} ∨ Begins data (ofElement e).x (ofElement e).y := by
    rw [hpoint]
    cases hp : ofPath? data with
    | none => exact .inl rfl
    | some p => exact .inr (ofPath?_eq_some_iff.1 hp)
  refine ⟨hfirst, fun x y hxy => ?_, ?_⟩
  · rw [hpoint, ofPath?_eq_some_iff (p := { x, y }) |>.2 hxy]
    rfl
  · have hliteral : IsLiteral (ofElement e).x.toList ∧ IsLiteral (ofElement e).y.toList := by
      rcases hfirst with h | h
      · rw [h]
        exact ⟨isLiteral_zero, isLiteral_zero⟩
      · exact h.isLiteral
    obtain ⟨x, y, hx, hy, hshift⟩ := shift_of_isLiteral hliteral.1 hliteral.2
    refine ⟨x, y, hx, hy, fun dx => ⟨hshift dx, ?_, ?_⟩⟩ <;> rw [hshift, ofText?_text]

/-- The point of a path whose numbers stand close together. -/
theorem position_of_path_close :
    let e : Element := { name := "s:path", attributes := [("d", " m-5.5-3e1h 4")] }
    e.localName = "path" ∧ e.attr? "d" = some " m-5.5-3e1h 4" ∧
      ofElement e = { x := "-5.5", y := "-3e1" } ∧
      ∃ x y, ofText? "-5.5" = some x ∧ ofText? "-3e1" = some y ∧
        ofText? ((ofElement e).shift 10).x = some (x + 10) ∧
        ofText? ((ofElement e).shift 10).y = some y := by
  intro e
  have he : e.localName = "path" := by decide
  have hd : e.attr? "d" = some " m-5.5-3e1h 4" := by decide
  have hpoint : ofElement e = { x := "-5.5", y := "-3e1" } := by decide
  obtain ⟨-, -, x, y, hx, hy, hshift⟩ := position_of_path he hd
  rw [hpoint] at hx hy
  exact ⟨he, hd, hpoint, x, y, hx, hy, (hshift 10).2⟩

end Position

end FormulaDrawing
