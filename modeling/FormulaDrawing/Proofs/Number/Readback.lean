import FormulaDrawing.Proofs.Number.Inscription
import FormulaDrawing.Proofs.Number.Numeral
import FormulaDrawing.Proofs.Number.Scientific

/-! A finite number without a sign is read back from its text. The text has the digits of the shortest
decimal, which lies in the cell of the number, and reading rounds every decimal in the cell to it. So every
double is read back, as a sign does no harm and the others have names. -/

namespace FormulaDrawing.Number

open Float.Model

variable {m d : Nat} {e p : Int}

section Shortest

theorem exactDecimal_eq (m : Nat) (e : Int) :
    ((exactDecimal m e).digits * 10 ^ (exactDecimal m e).power : ℚ) = m * 2 ^ e := by
  rw [exactDecimal]
  split
  next he =>
    rw [zpow_zero, mul_one, Nat.pow_eq, natCast_mul_zpow m he]
  next he =>
    have hten : (10 : ℚ) ^ e = 5 ^ e * 2 ^ e := by rw [← mul_zpow]; norm_num
    have hfive : (5 : ℚ) ^ (-e).toNat * 5 ^ e = 1 := by
      rw [← zpow_natCast, ← zpow_add₀ (by norm_num), show ((-e).toNat : Int) + e = 0 by omega, zpow_zero]
    rw [Nat.pow_eq, hten]
    push_cast
    linear_combination (m * 2 ^ e : ℚ) * hfive

theorem roundsTo_of_hit? (hm : 0 < m) (h : (Cell.of m e).hit? p = some d) :
    RoundsTo (d * 10 ^ p) m e := by
  obtain ⟨hlow, -, hhigh⟩ := cell_bounds hm e
  have hholds := holds_of_hit? h
  obtain ⟨hl, hh⟩ := holds_bounds hholds
  refine ⟨by rwa [← hlow], by rwa [← hhigh], fun hodd => ?_⟩
  have hopen : ¬ (Cell.of m e).closed = true := by
    simp only [Cell.of, beq_iff_eq]
    omega
  have hstrict := holds_iff.1 hholds
  rw [if_neg hopen, hlow, hhigh] at hstrict
  exact hstrict

theorem roundsTo_shortest (hc : Canonical m e) (hm : 0 < m) :
    RoundsTo ((shortest m e).digits * 10 ^ (shortest m e).power) m e ∧ -1074 ≤ (shortest m e).power := by
  have hpower := exactDecimal_power m e
  have hleast := hc.least
  rw [shortest]
  rcases firstHit_cases (Cell.of m e) (exactDecimal m e)
    (coarsest (m.log2 + 1 + e) - (exactDecimal m e).power).toNat with
    ⟨hexact, -⟩ | ⟨d, k, -, -, hfirst, hhit, -⟩
  · rw [hexact, exactDecimal_eq]
    exact ⟨roundsTo_self m e, by omega⟩
  · rw [hfirst]
    exact ⟨roundsTo_of_hit? hm hhit, by dsimp only; omega⟩

end Shortest

section Reading

variable {ds fs rest : List Char} {x : Float}

/-- A numeral does not go on here. -/
def Ends (rest : List Char) : Prop :=
  ∀ c ∈ rest.head?, c.isDigit = false ∧ c ≠ '.' ∧ c ≠ 'e' ∧ c ≠ 'E'

theorem ends_nil : Ends [] := nofun

theorem Ends.digit (h : Ends rest) : ∀ c ∈ rest.head?, c.isDigit = false := fun c hc => (h c hc).1

theorem Ends.point (h : Ends rest) : ∀ c ∈ rest.head?, c.isDigit = false ∧ c ≠ '.' :=
  fun c hc => ⟨h.digit c hc, (h c hc).2.1⟩

theorem Ends.exponent? (h : Ends rest) : exponent? rest = none := by
  cases rest with
  | nil => rfl
  | cons c rest =>
    obtain ⟨-, -, he, hE⟩ := h c rfl
    simp [Number.exponent?, he, hE]

section Digits

variable (hds : ∀ c ∈ ds, c.isDigit = true) (hrest : Ends rest)
include hds hrest

theorem numeral?_digits (hne : ds ≠ []) : numeral? (ds ++ rest) = some (⟨ds, digitsValue ds, 0⟩, rest) := by
  rw [numeral?_whole_append hds hne hrest.point, withExponent, hrest.exponent?]
  rfl

theorem numeral?_decimals (hne : ds ≠ []) (hfs : ∀ c ∈ fs, c.isDigit = true) :
    numeral? (ds ++ '.' :: (fs ++ rest)) =
      some (⟨ds ++ '.' :: fs, digitsValue (ds ++ fs), -fs.length⟩, rest) := by
  rw [numeral?_point_append hds hfs (List.append_ne_nil_of_left_ne_nil hne fs) hrest.digit, withExponent,
    hrest.exponent?]

theorem numeral?_point {k : ℕ} (hk : k < ds.length) :
    numeral? (ds.take (ds.length - k) ++ '.' :: ds.drop (ds.length - k) ++ rest) =
      some (⟨ds.take (ds.length - k) ++ '.' :: ds.drop (ds.length - k), digitsValue ds, -k⟩, rest) := by
  have hne : ds.take (ds.length - k) ≠ [] := by
    rw [← List.length_pos_iff, List.length_take]
    omega
  have hlength : (ds.drop (ds.length - k)).length = k := by
    rw [List.length_drop]
    omega
  have hfront : ∀ c ∈ ds.take (ds.length - k), c.isDigit = true :=
    fun c hc => hds c (List.mem_of_mem_take hc)
  have hback : ∀ c ∈ ds.drop (ds.length - k), c.isDigit = true :=
    fun c hc => hds c (List.mem_of_mem_drop hc)
  have hread := numeral?_decimals hfront hrest hne hback
  rw [List.take_append_drop, hlength] at hread
  rw [List.append_assoc]
  exact hread

end Digits

theorem isDigit_of_mem_padded {n k : ℕ} :
    ∀ c ∈ List.replicate k '0' ++ Nat.toDigits 10 n, c.isDigit = true := by
  intro c hc
  rcases List.mem_append.1 hc with hc | hc
  · rw [(List.mem_replicate.1 hc).2]
    rfl
  · exact Nat.isDigit_of_mem_toDigits (by decide) (by decide) hc

theorem digitsValue_padded (n k : ℕ) : digitsValue (List.replicate k '0' ++ Nat.toDigits 10 n) = n := by
  rw [digitsValue_eq, Nat.ofDigitChars_append, Nat.ofDigitChars_replicate_zero, mul_zero,
    Nat.ofDigitChars_ten_toDigits]

theorem numeral?_text (d : Decimal) (hrest : Ends rest) :
    ∃ n, numeral? (d.text ++ rest) = some (n, rest) ∧ n.written = d.text ∧
      n.scale = min d.power 0 ∧ (n.digits * 10 ^ n.scale : ℚ) = d.digits * 10 ^ d.power := by
  obtain ⟨digits, power⟩ := d
  rw [Decimal.text]
  dsimp only
  split
  next hp =>
    have hzeros : ∀ c ∈ Nat.toDigits 10 digits ++ List.replicate power.toNat '0', c.isDigit = true :=
      fun c hc => isDigit_of_mem_padded c (List.mem_append.2 (List.mem_append.1 hc).symm)
    have hne : Nat.toDigits 10 digits ++ List.replicate power.toNat '0' ≠ [] :=
      List.append_ne_nil_of_left_ne_nil Nat.toDigits_ne_nil _
    refine ⟨_, numeral?_digits hzeros hrest hne, rfl, (min_eq_right hp).symm, ?_⟩
    dsimp only
    rw [digitsValue_eq, Nat.ofDigitChars_append, Nat.ofDigitChars_ten_toDigits,
      Nat.ofDigitChars_replicate_zero, zpow_zero, mul_one, ← Int.toNat_of_nonneg hp, zpow_natCast,
      Int.toNat_natCast]
    push_cast
    ring
  next hp =>
    set padded := List.replicate ((-power).toNat + 1 - (Nat.toDigits 10 digits).length) '0' ++
      Nat.toDigits 10 digits with hpadded
    have hplaces : (-power).toNat < padded.length := by
      rw [hpadded, List.length_append, List.length_replicate]
      omega
    have hpower : (-(-power).toNat : Int) = power := by omega
    have hread := numeral?_point (hpadded ▸ isDigit_of_mem_padded) hrest hplaces
    rw [hpadded, digitsValue_padded, hpower, ← hpadded] at hread
    exact ⟨_, hread, rfl, (min_eq_left (le_of_not_ge hp)).symm, rfl⟩

theorem numeral?_chars (hx : x.isFinite = true) (hs : isNegative x = false) (hrest : Ends rest) :
    ∃ n, numeral? (chars x ++ rest) = some (n, rest) ∧ n.written = chars x ∧ n.value = x := by
  have hpacked := pack_unpack x
  rcases unsigned_cases hx hs with hzero | ⟨m, e, hm, hfinite, hc⟩
  · have hchars : chars x = ['0'] := by
      rw [chars, hzero]
      rfl
    have hdigit : ∀ c ∈ ['0'], c.isDigit = true := List.forall_mem_singleton.2 rfl
    rw [hchars]
    refine ⟨_, numeral?_digits hdigit hrest (List.cons_ne_nil _ _), rfl, ?_⟩
    rw [← hpacked, hzero]
    rfl
  · have hchars : chars x = (shortest m e).text := by
      rw [chars, hfinite]
      rfl
    obtain ⟨hcell, hleast⟩ := roundsTo_shortest hc hm
    obtain ⟨n, hread, hwritten, hscale, hvalue⟩ := numeral?_text (shortest m e) hrest
    rw [hchars]
    refine ⟨n, hread, hwritten, ?_⟩
    rw [← hvalue] at hcell
    have hdigits : 0 < n.digits := by
      have hpos := hcell.pos hm
      rw [mul_pos_iff_of_pos_right (by positivity)] at hpos
      exact_mod_cast hpos
    have hp : n.scale ≤ 0 := hscale ▸ min_le_right _ _
    have hparts := ofScientific_of_roundsTo hdigits (by omega) (by omega) hc.normal hcell
    rw [ofParts_of_pos _ hm] at hparts
    rw [← hpacked, hfinite, ← hparts]
    rfl

end Reading

section Sign

variable {x : Float} {w : List Char}

/-- The double with this sign in front. -/
def withSign : UnpackedFloat.Sign → Float → Float
  | .positive, x => x
  | .negative, x => -x

theorem ofChars?_signText (hw : takeSign w = ([], w)) (s : UnpackedFloat.Sign) :
    ofChars? (signText s ++ w) = (magnitude? w).map fun r => withSign s r.value := by
  cases s with
  | positive =>
    rw [signText, List.nil_append, ofChars?, hw]
    rfl
  | negative => rfl

theorem exists_unsigned (hx : x.isFinite = true) : ∃ s y, y.isFinite = true ∧ isNegative y = false ∧
    withSign s y = x ∧ chars x = signText s ++ chars y := by
  rcases isFinite_cases hx with ⟨s, hzero⟩ | ⟨s, m, e, hm, hfinite, hc⟩
  · have hy : (Float.ofModel (.pack (.zero .positive))).toModel.unpack = .zero .positive :=
      unpack_pack_zero .positive
    refine ⟨s, _, isFinite_of_zero hy, by rw [isNegative, hy], ?_, ?_⟩
    · rw [← pack_unpack x, hzero]
      cases s <;> rfl
    · rw [chars, chars, hzero, hy]
      rfl
  · have hy : (Float.ofModel (.pack (.finite .positive m e hm))).toModel.unpack =
        .finite .positive m e hm := unpack_pack hc hm
    refine ⟨s, _, isFinite_of_finite hy, by rw [isNegative, hy], ?_, ?_⟩
    · rw [← pack_unpack x, hfinite]
      cases s with
      | positive => rfl
      | negative =>
        show Float.ofModel (.pack (UnpackedFloat.neg _)) = _
        rw [hy]
        rfl
    · rw [chars, chars, hfinite, hy]
      rfl

theorem Spells.takeSign_append {q : Int} (h : Spells w d q) (rest : List Char) :
    takeSign (w ++ rest) = ([], w ++ rest) := by
  obtain ⟨c, t, rfl, hc⟩ := h.exists_head
  have hsign : isSign c = false := by
    rcases hc with hc | rfl
    · exact isSign_of_isDigit hc
    · rfl
  rw [List.cons_append, takeSign, hsign]
  rfl

theorem ofText?_text (x : Float) : ofText? (text x) = some x := by
  rw [ofText?, text, String.toList_ofList]
  cases hx : x.toModel.unpack with
  | notANumber =>
    rw [chars, hx, ← pack_unpack x, hx]
    decide +kernel
  | infinity s =>
    rw [chars, hx, ← pack_unpack x, hx]
    cases s <;> decide +kernel
  | zero | finite =>
    have hfinite : x.isFinite = true := by
      have : x.toModel.unpack.isFinite = true := by rw [hx]; rfl
      exact this
    obtain ⟨s, y, hy, hys, rfl, hchars⟩ := exists_unsigned hfinite
    obtain ⟨n, hread, hwritten, rfl⟩ := numeral?_chars hy hys ends_nil
    have hsign := (spells_of_numeral? hread).takeSign_append []
    rw [hwritten, List.append_nil] at hsign
    rw [List.append_nil] at hread
    rw [hchars, ofChars?_signText hsign, magnitude?, hread]
    rfl

end Sign

end FormulaDrawing.Number
