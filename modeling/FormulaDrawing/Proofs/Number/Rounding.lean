import FormulaDrawing.Proofs.Number.Double

/-! Rounding to an integer is exact. What is below the point is only cut off where the significand has room
for the integer and one more, so that the result is a double again and is the nearest integer itself. -/

namespace FormulaDrawing.Number

open Float.Model

variable {s : UnpackedFloat.Sign} {m n : Nat} {e : Int} {x : Float}

section Scaled

variable {spec : Format}

theorem shiftToTargetExponent_exact
    (h : spec.targetExponent (totalExponent m e) ≤ e) :
    UnpackedFloat.shiftToTargetExponent spec m e .exact = (⟨m, false, false⟩, e) := by
  have hshift : (spec.targetExponent (totalExponent m e) - e).toNat = 0 := by omega
  rw [UnpackedFloat.shiftToTargetExponent, UnpackedFloat.shiftToExponent, hshift]
  simp only [Nat.cast_zero, add_zero]
  rfl

theorem roundWithAccuracy_exact (hm : 0 < m) (h : spec.targetExponent (totalExponent m e) ≤ e) :
    UnpackedFloat.roundWithAccuracy spec s m e .exact = .finite s m e hm := by
  rw [UnpackedFloat.roundWithAccuracy, shiftToTargetExponent_exact h]
  have hrounded : UnpackedFloat.ExtendedMantissa.roundedMantissa ⟨m, false, false⟩ = m := rfl
  simp only [hrounded, shiftToTargetExponent_exact h, dif_neg (ne_of_gt hm)]

theorem targetExponent_binary64 (total : Int) :
    Format.binary64.targetExponent total = max (total - 53) (-1074) := rfl

theorem log2_shiftLeft (hn : 0 < n) (k : Nat) : (n <<< k).log2 = n.log2 + k := by
  rw [Nat.shiftLeft_eq]
  have := Nat.log2_self_le (ne_of_gt hn)
  have := @Nat.lt_log2_self n
  rw [Nat.log2_eq_iff (by positivity)]
  constructor
  · rw [pow_add]; gcongr
  · rw [add_right_comm, pow_add]; gcongr

theorem unpack_scaled (hn : 0 < n) (h : n < 2 ^ 53) :
    ∃ hm, (scaled s n 0).toModel.unpack =
      .finite s (n <<< (52 - n.log2)) ((n.log2 : Int) - 52) hm := by
  have hlog : n.log2 < 53 := (Nat.log2_lt (ne_of_gt hn)).2 h
  have htotal : totalExponent n 0 = n.log2 + 1 := by simp [totalExponent]
  have hshift : (0 - ((n.log2 : Int) - 52)).toNat = 52 - n.log2 := by omega
  have hm : 0 < n <<< (52 - n.log2) := by
    rw [Nat.shiftLeft_eq]; positivity
  have hround : UnpackedFloat.round .binary64 s n 0 =
      .finite s (n <<< (52 - n.log2)) ((n.log2 : Int) - 52) hm := by
    have htarget : Format.binary64.targetExponent (totalExponent n 0) = (n.log2 : Int) - 52 := by
      rw [htotal, targetExponent_binary64]
      omega
    rw [UnpackedFloat.round, htarget]
    simp only [UnpackedFloat.decreaseExponent, hshift]
    have hexp : (0 : Int) - ((52 - n.log2 : Nat) : Int) = (n.log2 : Int) - 52 := by omega
    rw [hexp, roundWithAccuracy_exact hm]
    rw [totalExponent, log2_shiftLeft hn, targetExponent_binary64]
    omega
  refine ⟨hm, ?_⟩
  change (Float.Model.pack (UnpackedFloat.round .binary64 s n 0)).unpack = _
  rw [hround, unpack_pack]
  have hwidth : (n <<< (52 - n.log2)).log2 = 52 := by
    rw [log2_shiftLeft hn]
    omega
  obtain ⟨hlow, hhigh⟩ := (Nat.log2_eq_iff (ne_of_gt hm)).1 hwidth
  exact ⟨hhigh, by omega, by omega, .inr hlow⟩

theorem unpack_scaled_zero (s : UnpackedFloat.Sign) : (scaled s 0 0).toModel.unpack = .zero s :=
  unpack_pack_zero s

theorem value_scaled (s : UnpackedFloat.Sign) (h : n < 2 ^ 53) :
    (scaled s n 0).isFinite = true ∧ value (scaled s n 0) = (s.apply n : ℤ) := by
  rcases Nat.eq_zero_or_pos n with rfl | hn
  · refine ⟨isFinite_of_zero (unpack_scaled_zero s), ?_⟩
    rw [value_of_zero (unpack_scaled_zero s)]
    cases s <;> simp [UnpackedFloat.Sign.apply]
  · obtain ⟨hm, hx⟩ := unpack_scaled (s := s) hn h
    refine ⟨isFinite_of_finite hx, ?_⟩
    rw [value_of_finite hx]
    have hlog : n.log2 < 53 := (Nat.log2_lt (ne_of_gt hn)).2 h
    have hcancel : ((n <<< (52 - n.log2) : ℕ) : ℚ) * 2 ^ ((n.log2 : Int) - 52) = n := by
      rw [Nat.shiftLeft_eq, Nat.cast_mul, Nat.cast_pow, Nat.cast_ofNat, mul_assoc, ← zpow_natCast,
        ← zpow_add₀ (by norm_num)]
      have : ((52 - n.log2 : ℕ) : ℤ) + (n.log2 - 52) = 0 := by omega
      rw [this, zpow_zero, mul_one]
    cases s <;> simp only [UnpackedFloat.Sign.apply, Int.cast_neg, Int.cast_natCast, neg_mul, hcancel]

end Scaled

section Nearest

/-- The integer nearest to a number; of two that are as near the even one. -/
structure NearestEven (q : ℚ) (n : ℤ) : Prop where
  near : |q - n| ≤ 1 / 2
  even : |q - n| = 1 / 2 → Even n

theorem nearestEven_intCast (n : ℤ) : NearestEven n n := by
  constructor <;> simp

theorem NearestEven.unique {q : ℚ} {n n' : ℤ} (h : NearestEven q n) (h' : NearestEven q n') :
    n = n' := by
  have hnear := abs_le.1 h.near
  have hnear' := abs_le.1 h'.near
  have hclose : |((n - n' : ℤ) : ℚ)| ≤ 1 := by
    rw [Int.cast_sub, abs_le]
    constructor <;> linarith
  have hclose : |n - n'| ≤ 1 := by exact_mod_cast hclose
  rw [abs_le] at hclose
  by_contra hne
  have htie : |q - n| = 1 / 2 ∧ |q - n'| = 1 / 2 := by
    rcases (by omega : n' = n + 1 ∨ n = n' + 1) with rfl | rfl
    · push_cast at hnear'
      have hq : q = n + 1 / 2 := by linarith
      rw [hq]
      push_cast
      norm_num [abs_of_nonneg, abs_of_neg]
    · push_cast at hnear
      have hq : q = n' + 1 / 2 := by linarith
      rw [hq]
      push_cast
      norm_num [abs_of_nonneg, abs_of_neg]
  obtain ⟨a, ha⟩ := h.even htie.1
  obtain ⟨b, hb⟩ := h'.even htie.2
  omega

theorem NearestEven.neg {q : ℚ} {n : ℤ} (h : NearestEven q n) : NearestEven (-q) (-n) := by
  have hdistance : |-q - ((-n : ℤ) : ℚ)| = |q - n| := by
    rw [Int.cast_neg, neg_sub_neg, abs_sub_comm]
  exact ⟨hdistance ▸ h.near, fun he => (h.even (hdistance ▸ he)).neg⟩

theorem NearestEven.apply {q : ℚ} {n : ℕ} (h : NearestEven q n) (s : UnpackedFloat.Sign) :
    NearestEven ((s.apply 1 : ℤ) * q) (s.apply n) := by
  cases s with
  | positive => simpa [UnpackedFloat.Sign.apply] using h
  | negative => simpa [UnpackedFloat.Sign.apply] using h.neg

theorem nearestEven_div {unit : ℕ} (hunit : 0 < unit) (m : ℕ) (s : UnpackedFloat.Sign) :
    NearestEven ((m : ℚ) / unit) ((if Rounding.carries .nearestEven s (m / unit) (m % unit) unit
      then m / unit + 1 else m / unit : ℕ)) := by
  have hdecompose : unit * (m / unit) + m % unit = m := Nat.div_add_mod m unit
  have hrest : m % unit < unit := Nat.mod_lt m hunit
  generalize m / unit = whole, m % unit = rest at *
  have hpos : (0 : ℚ) < unit := by exact_mod_cast hunit
  have hm : (m : ℚ) / unit = whole + rest / unit := by
    rw [← hdecompose]
    push_cast
    field_simp
  have hone : (rest : ℚ) / unit < 1 := by
    rw [div_lt_one hpos]
    exact_mod_cast hrest
  -- Only at a tie the parity counts.
  have hhalf : (rest : ℚ) / unit = 1 / 2 → unit = 2 * rest := fun h => by
    rw [div_eq_div_iff (ne_of_gt hpos) (by norm_num)] at h
    have : rest * 2 = 1 * unit := by exact_mod_cast h
    omega
  rw [hm]
  simp only [Rounding.carries, Bool.or_eq_true, Bool.and_eq_true, decide_eq_true_eq, beq_iff_eq]
  split
  next hup =>
    have hmore : (1 : ℚ) / 2 ≤ rest / unit := by
      rw [div_le_div_iff₀ (by norm_num) hpos]
      have : 1 * unit ≤ rest * 2 := by omega
      exact_mod_cast this
    have hdistance : |(whole + rest / unit : ℚ) - ((whole + 1 : ℕ) : ℤ)| = 1 - rest / unit := by
      push_cast
      rw [abs_sub_comm, abs_of_nonneg (by linarith)]
      ring
    refine ⟨by rw [hdistance]; linarith, fun he => ?_⟩
    have htie := hhalf (by rw [hdistance] at he; linarith)
    rw [Int.even_coe_nat, Nat.even_add_one, Nat.not_even_iff]
    omega
  next hdown =>
    have hless : (rest : ℚ) / unit ≤ 1 / 2 := by
      rw [div_le_div_iff₀ hpos (by norm_num)]
      have : rest * 2 ≤ 1 * unit := by omega
      exact_mod_cast this
    have hdistance : |(whole + rest / unit : ℚ) - ((whole : ℕ) : ℤ)| = rest / unit := by
      rw [Int.cast_natCast, add_sub_cancel_left, abs_of_nonneg (by positivity)]
    refine ⟨by rw [hdistance]; exact hless, fun he => ?_⟩
    have htie := hhalf (hdistance ▸ he)
    rw [Int.even_coe_nat, Nat.even_iff]
    omega

theorem nearestEven_round (h : x.isFinite = true) :
    (Rounding.nearestEven.round x).isFinite = true ∧
      ∃ n : ℤ, value (Rounding.nearestEven.round x) = n ∧ NearestEven (value x) n := by
  rcases isFinite_cases h with ⟨s, hx⟩ | ⟨s, m, e, hm, hx, hc⟩
  · have hround : Rounding.nearestEven.round x = x := by rw [Rounding.round, hx]
    rw [hround, value_of_zero hx]
    exact ⟨h, 0, rfl, nearestEven_intCast 0⟩
  · rw [value_of_finite hx]
    -- From exponent zero on a double is an integer; below, the quotient by the unit is rounded.
    by_cases he : 0 ≤ e
    · have hround : Rounding.nearestEven.round x = x := by
        rw [Rounding.round, hx]
        exact if_pos he
      have hinteger : ((s.apply m : ℤ) : ℚ) * 2 ^ e = (s.apply m * 2 ^ e.toNat : ℤ) := by
        rw [← Int.toNat_of_nonneg he]
        push_cast
        rfl
      rw [hround, value_of_finite hx, hinteger]
      exact ⟨h, _, rfl, nearestEven_intCast _⟩
    · set unit := Nat.pow 2 (-e).toNat
      have hunit : 0 < unit := Nat.pow_pos (by decide)
      set n := if Rounding.carries .nearestEven s (m / unit) (m % unit) unit then m / unit + 1
        else m / unit
      have hround : Rounding.nearestEven.round x = scaled s n 0 := by
        rw [Rounding.round, hx]
        exact if_neg he
      -- There is room for the carry because at least one bit has been cut off.
      have hn : n < 2 ^ 53 := by
        have htwo : 2 ≤ unit := 
          Nat.pow_le_pow_right Nat.zero_lt_two (by omega : 1 ≤ (-e).toNat)
        have hwhole : m / unit ≤ m / 2 := Nat.div_le_div_left htwo (by decide)
        have hwidth := hc.width
        have hcarry : n ≤ m / unit + 1 := by
          simp only [n]
          split <;> omega
        omega
      obtain ⟨hfinite, hvalue⟩ := value_scaled s hn
      have hq : ((s.apply m : ℤ) : ℚ) * 2 ^ e = (s.apply 1 : ℤ) * ((m : ℚ) / unit) := by
        have hscale : (2 : ℚ) ^ e = (unit : ℚ)⁻¹ := by
          have hcast : (unit : ℚ) = 2 ^ (-e).toNat := by exact_mod_cast rfl
          rw [hcast, ← zpow_natCast, ← zpow_neg]
          congr 1
          omega
        rw [hscale, div_eq_mul_inv]
        cases s <;> simp [UnpackedFloat.Sign.apply]
      rw [hround, hq]
      exact ⟨hfinite, _, hvalue, (nearestEven_div hunit m s).apply s⟩

end Nearest

end FormulaDrawing.Number
