import FormulaDrawing.Proofs.Number.Nearest

/-! The double that a number denotes is the nearest one; of two that are as near it is the one with the even
significand, and infinity stands for what lies beyond the greatest double. There is only one such double, and
it is the one in whose cell the number lies. -/

namespace FormulaDrawing.Number

open Float.Model

variable {s : UnpackedFloat.Sign} {m : Nat} {e : Int} {q : ℚ} {x y : Float}

/-- Half way between the greatest double and the next power of two. -/
def overflow : ℚ := 2 ^ (1024 : Int) - 2 ^ (970 : Int)

/-- The significand of a finite double is even. -/
def HasEvenSignificand (x : Float) : Prop := ∃ m e, Canonical m e ∧ m % 2 = 0 ∧ |value x| = m * 2 ^ e

/-- A finite double without a sign to which none is nearer. Another one may be as near, if the significand is
even. -/
structure Nearest (q : ℚ) (x : Float) : Prop where
  finite : x.isFinite = true
  unsigned : isNegative x = false
  near : ∀ y, y.isFinite = true → |q - value x| ≤ |q - value y|
  even : ∀ y, y.isFinite = true → value y ≠ value x → |q - value x| = |q - value y| → HasEvenSignificand x

/-- A number without a sign denotes the nearest double, and infinity where it is too large. -/
def Denotes (q : ℚ) (x : Float) : Prop := if q < overflow then Nearest q x else x = 1.0 / 0.0

section Parts

theorem unpack_ofParts (hc : Canonical m e) (s : UnpackedFloat.Sign) :
    (Float.Model.pack (ofParts s m e)).unpack = ofParts s m e := by
  rw [ofParts]
  split
  · exact unpack_pack_zero s
  · exact unpack_pack hc _

theorem ofParts_spec (hc : Canonical m e) :
    (Float.ofModel (.pack (ofParts .positive m e))).isFinite = true ∧
      isNegative (.ofModel (.pack (ofParts .positive m e))) = false ∧
      value (.ofModel (.pack (ofParts .positive m e))) = m * 2 ^ e := by
  set x := Float.ofModel (.pack (ofParts .positive m e))
  have hunpack : x.toModel.unpack = ofParts .positive m e := unpack_ofParts hc _
  rcases Nat.eq_zero_or_pos m with rfl | hm
  · refine ⟨isFinite_of_zero hunpack, ?_, ?_⟩
    · rw [isNegative, hunpack]
      rfl
    · rw [value_of_zero hunpack, Nat.cast_zero, zero_mul]
  · rw [ofParts_of_pos _ hm] at hunpack
    refine ⟨isFinite_of_finite hunpack, ?_, ?_⟩
    · rw [isNegative, hunpack]
    · rw [value_of_finite hunpack, UnpackedFloat.Sign.apply, Int.cast_natCast]

theorem pack_ofParts_of_le (hn : Normal m e) (he : 972 ≤ e) (s : UnpackedFloat.Sign) :
    Float.Model.pack (ofParts s m e) = .pack (.infinity s) := by
  have hfull := hn.full.resolve_left (by omega)
  have hpacked : UnpackedFloat.pack .binary64 (ofParts s m e) =
      UnpackedFloat.pack .binary64 (.infinity s) := by
    rw [ofParts_of_pos s (by omega)]
    change (if (2048 : Nat) ≤ (e + 1023 + (52 : Nat)).toNat + 1 then _ else _) = _
    rw [if_pos (by omega)]
    rfl
  simp only [Float.Model.pack, hpacked]

end Parts

section Cell

theorem nearest_of_roundsTo (hc : Canonical m e) (h : RoundsTo q m e) :
    Nearest q (.ofModel (.pack (ofParts .positive m e))) := by
  obtain ⟨hfinite, hunsigned, hvalue⟩ := ofParts_spec hc
  have hpos : (0 : ℚ) < 2 ^ e := by positivity
  have hgap := gapBelow_pos m e
  refine ⟨hfinite, hunsigned, fun y hy => ?_, fun y hy hne heq => ⟨m, e, hc, ?_, ?_⟩⟩
  · rw [hvalue]
    exact abs_sub_le_of_apart h.low h.high hgap hpos (apart_of_isFinite hc hy (.inl rfl))
  · rw [hvalue] at hne heq
    have hedge := half_of_abs_sub_eq h.low h.high hgap hpos hne (apart_of_isFinite hc hy (.inl rfl)) heq
    by_contra hodd
    obtain ⟨hlow, hhigh⟩ := h.odd (by omega)
    exact hedge.elim hlow.ne' hhigh.ne
  · rw [hvalue]
    exact abs_of_nonneg (by positivity)

theorem overflow_eq : overflow = (2 ^ 53 - 1 / 2) * 2 ^ (971 : Int) := by
  rw [overflow, zpow_eq_mul (show (970 : Int) ≤ 1024 by decide), zpow_eq_mul (show (970 : Int) ≤ 971 by decide)]
  generalize (2 : ℚ) ^ (970 : Int) = unit
  push_cast
  ring

theorem RoundsTo.lt_overflow (h : RoundsTo q m e) (hc : Canonical m e) : q < overflow := by
  have hpos : (0 : ℚ) < 2 ^ e := by positivity
  have hscale : (2 : ℚ) ^ e ≤ 2 ^ (971 : Int) := zpow_le_zpow_right₀ (by norm_num) hc.greatest
  have hwidth := hc.width
  have hless : q < (2 ^ 53 - 1 / 2) * 2 ^ e := by
    rcases Nat.mod_two_eq_zero_or_one m with heven | hodd
    · have hroom : (m : ℚ) + 2 ≤ 2 ^ 53 := by exact_mod_cast (by omega : m + 2 ≤ 2 ^ 53)
      have := h.high
      nlinarith
    · have hroom : (m : ℚ) + 1 ≤ 2 ^ 53 := by exact_mod_cast hwidth
      have := (h.odd hodd).2
      nlinarith
  rw [overflow_eq]
  exact hless.trans_le (mul_le_mul_of_nonneg_left hscale (by norm_num))

theorem RoundsTo.overflow_le (h : RoundsTo q m e) (hn : Normal m e) (he : 972 ≤ e) : overflow ≤ q := by
  have hpos : (0 : ℚ) < 2 ^ e := by positivity
  have hscale : (2 : ℚ) ^ (972 : Int) ≤ 2 ^ e := zpow_le_zpow_right₀ (by norm_num) he
  have hfull := hn.full.resolve_left (by omega)
  have hmore : (2 ^ 52 - 1 / 4 : ℚ) * 2 ^ e ≤ q := by
    refine le_trans ?_ h.low
    rw [gapBelow]
    split
    next hm =>
      have hhalf : (2 : ℚ) ^ e = 2 * 2 ^ (e - 1) := by
        rw [zpow_eq_mul (by omega : e - 1 ≤ e), show (e - (e - 1)).toNat = 1 by omega]
        norm_num
      rw [hm.1, hhalf]
      push_cast
      linarith
    next hm =>
      have hroom : (2 ^ 52 + 1 : ℚ) ≤ m := by
        have : m ≠ 2 ^ 52 := fun heq => hm ⟨heq, by omega⟩
        exact_mod_cast (by omega : 2 ^ 52 + 1 ≤ m)
      nlinarith only [hroom, hpos]
  have htwo : (2 : ℚ) ^ (972 : Int) = 2 * 2 ^ (971 : Int) := by
    rw [show (972 : Int) = 971 + 1 by rfl, zpow_add_one₀ (by norm_num), mul_comm]
  calc overflow = (2 ^ 52 - 1 / 4) * 2 ^ (972 : Int) := by rw [overflow_eq, htwo]; ring
    _ ≤ (2 ^ 52 - 1 / 4) * 2 ^ e := mul_le_mul_of_nonneg_left hscale (by norm_num)
    _ ≤ q := hmore

end Cell

section Unique

/-- Of two doubles without a sign that are as near to a number as any other, not both have an even
significand: the next one above the smaller is odd, and is nearer if it is not the larger one itself. -/
theorem Nearest.value_le (h : Nearest q x) (h' : Nearest q y) : value y ≤ value x := by
  by_contra hle
  have hlt := not_le.1 hle
  have heq : |q - value x| = |q - value y| := le_antisymm (h.near y h'.finite) (h'.near x h.finite)
  -- If both are as near, `q` is half way between them and both significands are even.
  have hmiddle : q - value x = value y - q := by
    rcases abs_eq_abs.1 heq with heq | heq <;> linarith
  obtain ⟨m, e, hc, heven, hvalue⟩ := h.even y h'.finite hlt.ne' heq
  rw [abs_of_nonneg (value_nonneg h.finite h.unsigned)] at hvalue
  have hpos : (0 : ℚ) < 2 ^ e := by positivity
  have hnext : Canonical (m + 1) e :=
    ⟨by have := hc.width; omega, hc.least, hc.greatest, hc.full.imp_right fun hfull => by omega⟩
  obtain ⟨hfinite, -, hnextvalue⟩ := ofParts_spec hnext
  set z := Float.ofModel (.pack (ofParts .positive (m + 1) e))
  have hstep : value z = value x + 2 ^ e := by
    rw [hnextvalue, hvalue]
    push_cast
    ring
  rcases apart_of_isFinite hc h'.finite (.inl rfl) with hsame | habove | hbelow
  · exact hlt.ne (hvalue.trans hsame.symm)
  · rcases habove.eq_or_lt with hsame | habove
    · obtain ⟨m', e', hc', heven', hvalue'⟩ := h'.even x h.finite hlt.ne heq.symm
      rw [abs_of_nonneg (value_nonneg h'.finite h'.unsigned)] at hvalue'
      have hodd := hnext.unique hc' (Nat.succ_pos m) (by rw [← hnextvalue, hstep, hvalue, hsame, hvalue'])
      omega
    · -- the next one lies strictly between the two
      have hnear := h.near z hfinite
      rw [hstep, abs_of_nonneg (by linarith : 0 ≤ q - value x)] at hnear
      rcases abs_choice (q - (value x + 2 ^ e)) with habs | habs <;> rw [habs] at hnear <;> linarith
  · have hgap := gapBelow_pos m e
    linarith

theorem Nearest.unique (h : Nearest q x) (h' : Nearest q y) : x = y :=
  eq_of_value_eq h.finite h.unsigned h'.finite h'.unsigned
    (le_antisymm (h'.value_le h) (h.value_le h'))

theorem Denotes.unique (h : Denotes q x) (h' : Denotes q y) : x = y := by
  rw [Denotes] at h h'
  split_ifs at h h'
  · exact h.unique h'
  · exact h.trans h'.symm

end Unique

end FormulaDrawing.Number
