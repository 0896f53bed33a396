import FormulaDrawing.Number.Numeral
import FormulaDrawing.Proofs.Text.Run

/-! The grammar of numerals, with the decimal that a numeral spells. Behind the digits neither a point nor a
mark need begin anything that belongs to the numeral; reading goes on as long as there is a longer numeral. -/

namespace FormulaDrawing.Number

variable {ds fs w v s mark rest : List Char} {d k : Nat} {n p : Int} {c : Char}

section Grammar

/-- Digits with a point or without one, the number that the digits spell and how many are behind the point. A
digit in front of the point is not needed if there is one behind it. -/
inductive IsMantissa : List Char → Nat → Nat → Prop
  | whole {ds : List Char} : (∀ c ∈ ds, c.isDigit = true) → ds ≠ [] → IsMantissa ds (digitsValue ds) 0
  | point {ds fs : List Char} : (∀ c ∈ ds, c.isDigit = true) → (∀ c ∈ fs, c.isDigit = true) →
      ds ++ fs ≠ [] → IsMantissa (ds ++ '.' :: fs) (digitsValue (ds ++ fs)) fs.length

/-- A mark and an integer with a sign or without one. -/
inductive IsExponent : List Char → Int → Prop
  | unsigned {mark : Char} {ds : List Char} : mark = 'e' ∨ mark = 'E' →
      (∀ c ∈ ds, c.isDigit = true) → ds ≠ [] → IsExponent (mark :: ds) (digitsValue ds)
  | plus {mark : Char} {ds : List Char} : mark = 'e' ∨ mark = 'E' →
      (∀ c ∈ ds, c.isDigit = true) → ds ≠ [] → IsExponent (mark :: '+' :: ds) (digitsValue ds)
  | minus {mark : Char} {ds : List Char} : mark = 'e' ∨ mark = 'E' →
      (∀ c ∈ ds, c.isDigit = true) → ds ≠ [] → IsExponent (mark :: '-' :: ds) (-digitsValue ds)

/-- The text spells the number `d · 10 ^ p`. -/
inductive Spells : List Char → Nat → Int → Prop
  | plain {w : List Char} {d k : Nat} : IsMantissa w d k → Spells w d (-k)
  | scaled {w v : List Char} {d k : Nat} {n : Int} :
      IsMantissa w d k → IsExponent v n → Spells (w ++ v) d (n - k)

theorem IsExponent.exists_mark (h : IsExponent v n) :
    ∃ mark t, v = mark :: t ∧ (mark = 'e' ∨ mark = 'E') := by
  cases h with
  | unsigned hmark | plus hmark | minus hmark => exact ⟨_, _, rfl, hmark⟩

theorem IsMantissa.exists_head (h : IsMantissa w d k) :
    ∃ c t, w = c :: t ∧ (c.isDigit = true ∨ c = '.') := by
  cases h with
  | whole hds hne =>
    obtain ⟨c, t, rfl⟩ := List.exists_cons_of_ne_nil hne
    exact ⟨c, t, rfl, .inl (hds c List.mem_cons_self)⟩
  | @point ds fs hds hfs hne =>
    cases ds with
    | nil => exact ⟨_, _, rfl, .inr rfl⟩
    | cons c t => exact ⟨_, _, rfl, .inl (hds c List.mem_cons_self)⟩

theorem Spells.exists_head (h : Spells w d p) : ∃ c t, w = c :: t ∧ (c.isDigit = true ∨ c = '.') := by
  cases h with
  | plain hm => exact hm.exists_head
  | scaled hm =>
    obtain ⟨c, t, rfl, hc⟩ := hm.exists_head
    exact ⟨c, _, rfl, hc⟩

/-- A character that numerals are written with. -/
def isNumeralPart (c : Char) : Bool := c.isDigit || ['.', 'e', 'E', '+', '-'].contains c

theorem part_of_digits (hds : ∀ c ∈ ds, c.isDigit = true) : ∀ c ∈ ds, isNumeralPart c = true :=
  fun c hc => by rw [isNumeralPart, hds c hc, Bool.true_or]

theorem IsMantissa.part (h : IsMantissa w d k) : ∀ c ∈ w, isNumeralPart c = true := by
  cases h with
  | whole hds => exact part_of_digits hds
  | point hds hfs =>
    exact List.forall_mem_append.2 ⟨part_of_digits hds, List.forall_mem_cons.2 ⟨rfl, part_of_digits hfs⟩⟩

theorem IsExponent.part (h : IsExponent v n) : ∀ c ∈ v, isNumeralPart c = true := by
  obtain ⟨mark, t, rfl, hmark⟩ := h.exists_mark
  have hmark : isNumeralPart mark = true := by rcases hmark with rfl | rfl <;> rfl
  refine List.forall_mem_cons.2 ⟨hmark, ?_⟩
  cases h with
  | unsigned _ hds => exact part_of_digits hds
  | plus _ hds | minus _ hds => exact List.forall_mem_cons.2 ⟨rfl, part_of_digits hds⟩

theorem Spells.part (h : Spells w d p) : ∀ c ∈ w, isNumeralPart c = true := by
  cases h with
  | plain hm => exact hm.part
  | scaled hm hv => exact List.forall_mem_append.2 ⟨hm.part, hv.part⟩

end Grammar

section Exponent

theorem isSign_of_isDigit (hc : c.isDigit = true) : isSign c = false := by
  rw [Bool.eq_false_iff]
  intro hsign
  rcases (Bool.or_eq_true ..).mp hsign with hc' | hc' <;> rw [beq_iff_eq] at hc' <;> subst hc' <;> cases hc

theorem takeSign_of_digits (hds : ∀ c ∈ ds, c.isDigit = true) (hne : ds ≠ []) (rest : List Char) :
    takeSign (ds ++ rest) = ([], ds ++ rest) := by
  obtain ⟨c, t, rfl⟩ := List.exists_cons_of_ne_nil hne
  rw [List.cons_append, takeSign, isSign_of_isDigit (hds c List.mem_cons_self)]
  rfl

theorem takeSign_cases (s : List Char) :
    (takeSign s).1 = [] ∨ (takeSign s).1 = ['+'] ∨ (takeSign s).1 = ['-'] := by
  rcases s with _ | ⟨c, s⟩
  · exact .inl rfl
  · rw [takeSign]
    split
    next hsign =>
      rcases (Bool.or_eq_true ..).mp hsign with hc | hc <;> rw [beq_iff_eq] at hc <;> subst hc
      · exact .inr (.inl rfl)
      · exact .inr (.inr rfl)
    next => exact .inl rfl

theorem isExponent_of_exponent? (h : exponent? s = some (v, n, rest)) : IsExponent v n := by
  cases s with
  | nil => cases h
  | cons mark s =>
    simp only [exponent?] at h
    split at h
    next hread =>
      obtain ⟨hmark, hne⟩ := (Bool.and_eq_true ..).mp hread
      have hmark : mark = 'e' ∨ mark = 'E' := by simpa using hmark
      have hne : (takeSign s).2.takeWhile Char.isDigit ≠ [] := by simpa using hne
      have hdigits : ∀ c ∈ (takeSign s).2.takeWhile Char.isDigit, c.isDigit = true :=
        fun c hc => List.mem_takeWhile_imp hc
      obtain ⟨rfl, rfl, -⟩ := by simpa using h
      rcases takeSign_cases s with hsign | hsign | hsign <;> rw [hsign]
      · exact .unsigned hmark hdigits hne
      · exact .plus hmark hdigits hne
      · exact .minus hmark hdigits hne
    next => cases h

theorem exponent?_digits {mark : Char} (sign : List Char) (hmark : mark = 'e' ∨ mark = 'E')
    (hds : ∀ c ∈ ds, c.isDigit = true) (hne : ds ≠ [])
    (hsign : takeSign (sign ++ (ds ++ rest)) = (sign, ds ++ rest)) :
    exponent? (mark :: (sign ++ (ds ++ rest))) =
      some (mark :: (sign ++ (ds ++ rest.takeWhile Char.isDigit)),
        if sign = ['-'] then -(digitsValue (ds ++ rest.takeWhile Char.isDigit) : Int)
        else digitsValue (ds ++ rest.takeWhile Char.isDigit), rest.dropWhile Char.isDigit) := by
  have hmark : (mark == 'e' || mark == 'E') = true := by simpa using hmark
  simp only [exponent?, hsign, hmark, List.takeWhile_append_of_pos hds, List.dropWhile_append_of_pos hds,
    Bool.true_and]
  rw [if_pos (by simp [hne])]

theorem exponent?_of_isExponent (h : IsExponent v n) (rest : List Char) :
    ∃ v' n' rest', exponent? (v ++ rest) = some (v', n', rest') ∧ v.length ≤ v'.length ∧
      (rest = [] → n' = n) := by
  cases h with
  | unsigned hmark hds hne =>
    refine ⟨_, _, _, exponent?_digits [] hmark hds hne (takeSign_of_digits hds hne rest),
      by simp, ?_⟩
    rintro rfl
    simp
  | plus hmark hds hne =>
    refine ⟨_, _, _, exponent?_digits ['+'] hmark hds hne rfl, by simp, ?_⟩
    rintro rfl
    simp
  | minus hmark hds hne =>
    refine ⟨_, _, _, exponent?_digits ['-'] hmark hds hne rfl, by simp, ?_⟩
    rintro rfl
    simp

end Exponent

section Mantissa

/-- The numeral that begins with a mantissa, and the rest. -/
def withExponent (w : List Char) (d k : Nat) (rest : List Char) : Numeral × List Char :=
  match exponent? rest with
  | some (v, n, tail) => (⟨w ++ v, d, n - k⟩, tail)
  | none => (⟨w, d, -k⟩, rest)

theorem length_le_withExponent (w : List Char) (d k : Nat) (rest : List Char) :
    w.length ≤ (withExponent w d k rest).1.written.length := by
  rw [withExponent]
  split <;> simp

theorem numeral?_whole_append (hds : ∀ c ∈ ds, c.isDigit = true) (hne : ds ≠ [])
    (hrest : ∀ c ∈ rest.head?, c.isDigit = false ∧ c ≠ '.') :
    numeral? (ds ++ rest) = some (withExponent ds (digitsValue ds) 0 rest) := by
  have hdigit : ∀ c ∈ rest.head?, c.isDigit = false := fun c hc => (hrest c hc).1
  have hfraction : fraction rest = ([], [], rest) := by
    cases rest with
    | nil => rfl
    | cons c rest =>
      have hpoint := (hrest c rfl).2
      simp [fraction, hpoint]
  rw [numeral?, Text.takeWhile_run hds hdigit, Text.dropWhile_run hds hdigit, hfraction, withExponent]
  dsimp only
  rw [if_neg (by simp [hne])]
  cases exponent? rest <;> simp

theorem numeral?_point_append (hds : ∀ c ∈ ds, c.isDigit = true) (hfs : ∀ c ∈ fs, c.isDigit = true)
    (hne : ds ++ fs ≠ []) (hrest : ∀ c ∈ rest.head?, c.isDigit = false) :
    numeral? (ds ++ '.' :: (fs ++ rest)) =
      some (withExponent (ds ++ '.' :: fs) (digitsValue (ds ++ fs)) fs.length rest) := by
  have hpoint : ∀ c ∈ ('.' :: (fs ++ rest)).head?, c.isDigit = false := by
    rintro _ ⟨⟩
    rfl
  have hfraction : fraction ('.' :: (fs ++ rest)) = (['.'], fs, rest) := by
    rw [fraction, Text.takeWhile_run hfs hrest, Text.dropWhile_run hfs hrest]
  rw [numeral?, Text.takeWhile_run hds hpoint, Text.dropWhile_run hds hpoint, hfraction, withExponent]
  dsimp only
  rw [if_neg (by simpa [List.isEmpty_iff] using hne)]
  cases exponent? rest <;> simp

theorem isMantissa_fraction (hds : ∀ c ∈ ds, c.isDigit = true) (hne : ds ++ (fraction s).2.1 ≠ []) :
    IsMantissa (ds ++ (fraction s).1 ++ (fraction s).2.1) (digitsValue (ds ++ (fraction s).2.1))
      (fraction s).2.1.length := by
  revert hne
  unfold fraction
  split
  next t =>
    intro hne
    rw [List.append_assoc]
    exact .point hds (fun c hc => List.mem_takeWhile_imp hc) hne
  next =>
    intro hne
    simpa using IsMantissa.whole hds (by simpa using hne)

end Mantissa

section Reading

theorem spells_of_numeral? {x : Numeral} (h : numeral? s = some (x, rest)) :
    Spells x.written x.digits x.scale := by
  have hdigits : ∀ c ∈ s.takeWhile Char.isDigit, c.isDigit = true := fun c hc => List.mem_takeWhile_imp hc
  simp only [numeral?] at h
  split at h
  next => cases h
  next hne =>
    have hm := isMantissa_fraction (s := s.dropWhile Char.isDigit) hdigits (by simpa using hne)
    split at h <;> rw [Option.some.injEq, Prod.mk.injEq] at h <;> obtain ⟨rfl, -⟩ := h
    next hv => exact .scaled hm (isExponent_of_exponent? hv)
    next => exact .plain hm

theorem numeral?_of_scaled (hm : IsMantissa w d k) (hv : IsExponent v n) (rest : List Char) :
    ∃ x tail, numeral? (w ++ v ++ rest) = some (x, tail) ∧ (w ++ v).length ≤ x.written.length ∧
      (rest = [] → x.digits = d ∧ x.scale = n - k) := by
  -- the mark ends the mantissa
  obtain ⟨mark, t, rfl, hmark⟩ := hv.exists_mark
  have hends : ∀ c ∈ (mark :: t ++ rest).head?, c.isDigit = false ∧ c ≠ '.' := by
    rintro _ ⟨⟩
    rcases hmark with rfl | rfl <;> exact ⟨rfl, by decide⟩
  have hread : numeral? (w ++ (mark :: t ++ rest)) = some (withExponent w d k (mark :: t ++ rest)) := by
    cases hm with
    | whole hds hne => exact numeral?_whole_append hds hne hends
    | point hds hfs hne =>
      rw [List.append_assoc, List.cons_append]
      exact numeral?_point_append hds hfs hne fun c hc => (hends c hc).1
  obtain ⟨v', n', tail, hv', hlength, hvalue⟩ := exponent?_of_isExponent hv rest
  rw [withExponent, hv'] at hread
  refine ⟨_, _, List.append_assoc .. ▸ hread, ?_, fun hrest => ⟨rfl, ?_⟩⟩
  · simpa using hlength
  · rw [hvalue hrest]

theorem numeral?_of_mantissa (hm : IsMantissa w d k) (rest : List Char) :
    ∃ x tail, numeral? (w ++ rest) = some (x, tail) ∧ w.length ≤ x.written.length ∧
      (rest = [] → x.digits = d ∧ x.scale = -k) := by
  obtain ⟨es, rest, rfl, hes, hrest⟩ := Text.exists_run Char.isDigit rest
  cases hm with
  | whole hds hne =>
    have hmore : ∀ c ∈ w ++ es, c.isDigit = true := List.forall_mem_append.2 ⟨hds, hes⟩
    have hne : w ++ es ≠ [] := List.append_ne_nil_of_left_ne_nil hne es
    -- The numeral that is read may be longer: it takes in further digits, a point and an exponent.
    by_cases hpoint : rest.head? = some '.'
    · obtain ⟨rest, rfl⟩ : ∃ t, rest = '.' :: t := List.head?_eq_some_iff.1 hpoint
      obtain ⟨fs, rest, rfl, hfs, hrest⟩ := Text.exists_run Char.isDigit rest
      have hread := numeral?_point_append hmore hfs (List.append_ne_nil_of_left_ne_nil hne fs) hrest
      rw [← List.append_assoc]
      refine ⟨_, _, hread, le_trans ?_ (length_le_withExponent ..), by simp⟩
      simp
    · have hread := numeral?_whole_append hmore hne fun c hc =>
        ⟨hrest c hc, fun heq => hpoint (heq ▸ hc)⟩
      rw [← List.append_assoc]
      refine ⟨_, _, hread, le_trans ?_ (length_le_withExponent ..), fun hnil => ?_⟩
      · simp
      · obtain ⟨rfl, rfl⟩ := List.append_eq_nil_iff.1 hnil
        simp [exponent?]
  | @point ds fs hds hfs hne =>
    have hmore : ∀ c ∈ fs ++ es, c.isDigit = true := List.forall_mem_append.2 ⟨hfs, hes⟩
    have hne : ds ++ (fs ++ es) ≠ [] := by
      rw [← List.append_assoc]
      exact List.append_ne_nil_of_left_ne_nil hne es
    have hread := numeral?_point_append hds hmore hne hrest
    rw [List.append_assoc] at hread
    rw [List.append_assoc, List.cons_append]
    refine ⟨_, _, hread, le_trans ?_ (length_le_withExponent ..), fun hnil => ?_⟩
    · simp
    · obtain ⟨rfl, rfl⟩ := List.append_eq_nil_iff.1 hnil
      simp [exponent?]

theorem numeral?_of_spells (h : Spells w d p) (rest : List Char) :
    ∃ x tail, numeral? (w ++ rest) = some (x, tail) ∧ w.length ≤ x.written.length ∧
      (rest = [] → x.digits = d ∧ x.scale = p) := by
  cases h with
  | plain hm => exact numeral?_of_mantissa hm rest
  | scaled hm hv => exact numeral?_of_scaled hm hv rest

end Reading

end FormulaDrawing.Number
