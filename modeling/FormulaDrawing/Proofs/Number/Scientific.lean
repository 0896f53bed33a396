import FormulaDrawing.Proofs.Number.Denotation

/-! The double that a decimal is read as. Every number lies in the cell of some significand and exponent, and
reading rounds to that cell, however large or small the power of ten is; where the exponent is beyond the
greatest one, the result is infinity. -/

namespace FormulaDrawing.Number

open Float.Model
open UnpackedFloat (ExtendedMantissa)

variable {m n M d den : Nat} {e k p : Int} {r q : ℚ} {x y : Float}

section Cells

theorem roundsTo_self (m : Nat) (e : Int) : RoundsTo (m * 2 ^ e) m e := by
  have hpos : (0 : ℚ) < 2 ^ e := by positivity
  have hgap := gapBelow_pos m e
  exact ⟨by linarith, by linarith, fun _ => ⟨by linarith, by linarith⟩⟩

theorem normal_zero : Normal 0 (-1074) := ⟨by decide, le_refl _, .inl rfl⟩

theorem roundsTo_zero (hq : 0 ≤ q) (h : q ≤ 2 ^ (-1075 : Int)) : RoundsTo q 0 (-1074) := by
  have hhalf : (2 : ℚ) ^ (-1074 : Int) = 2 * 2 ^ (-1075 : Int) := by
    rw [zpow_eq_mul (show (-1075 : Int) ≤ -1074 by decide)]
    norm_num
  have hgap := gapBelow_pos 0 (-1074)
  refine ⟨?_, ?_, nofun⟩ <;> rw [Nat.cast_zero, zero_mul]
  · linarith
  · rw [hhalf]
    linarith

theorem exists_nearestEven (hq : 0 ≤ q) : ∃ n : ℕ, NearestEven q (n : ℕ) := by
  have hnum : (q.num.toNat : ℚ) = q.num := by exact_mod_cast Int.toNat_of_nonneg (Rat.num_nonneg.2 hq)
  have hdiv := nearestEven_div q.den_pos q.num.toNat .positive
  rw [hnum, Rat.num_div_den] at hdiv
  exact ⟨_, hdiv⟩

theorem roundsTo_of_nearestEven (h : NearestEven (q / 2 ^ k) (n : ℕ))
    (hnarrow : n = 2 ^ 52 → k = -1074 ∨ (2 : ℚ) ^ 52 * 2 ^ k ≤ q) : RoundsTo q n k := by
  have hpos : (0 : ℚ) < 2 ^ k := by positivity
  have hgap := gapBelow_pos n k
  have hscale : q = q / 2 ^ k * 2 ^ k := (div_mul_cancel₀ q hpos.ne').symm
  have hnear := abs_le.1 h.near
  have heven := h.even
  rw [Int.cast_natCast] at hnear heven
  by_cases hcell : n = 2 ^ 52 ∧ k ≠ -1074
  · have hq := (hnarrow hcell.1).resolve_left hcell.2
    have hn : (n : ℚ) = 2 ^ 52 := by exact_mod_cast hcell.1
    refine ⟨by rw [hn]; linarith, by nlinarith, fun hodd => ?_⟩
    rw [hcell.1] at hodd
    exact absurd hodd (by decide)
  · have hwide : gapBelow n k = 2 ^ k := if_neg hcell
    refine ⟨by rw [hwide]; nlinarith, by nlinarith, fun hodd => ?_⟩
    have hstrict : |q / 2 ^ k - n| < 1 / 2 := lt_of_le_of_ne (abs_le.2 hnear) fun htie => by
      have := Int.even_coe_nat n |>.1 (heven htie)
      rw [Nat.even_iff] at this
      omega
    have hstrict := abs_lt.1 hstrict
    rw [hwide]
    constructor <;> nlinarith

theorem exists_roundsTo (hq : 0 ≤ q) : ∃ m e, Normal m e ∧ RoundsTo q m e := by
  rcases hq.eq_or_lt with rfl | hq'
  · exact ⟨0, -1074, normal_zero, roundsTo_zero (le_refl _) (by positivity)⟩
  -- the unit in which the number has 53 digits, or the least one
  obtain ⟨k, hk⟩ : ∃ k, k = max (Int.log 2 q - 52) (-1074) := ⟨_, rfl⟩
  have hpos : (0 : ℚ) < 2 ^ k := by positivity
  have hupper : q / 2 ^ k < 2 ^ 53 := by
    rw [div_lt_iff₀ hpos, ← zpow_natCast, ← zpow_add₀ (by norm_num)]
    calc q < 2 ^ (Int.log 2 q + 1) := by exact_mod_cast Int.lt_zpow_succ_log_self (by norm_num) q
      _ ≤ 2 ^ (((53 : ℕ) : Int) + k) := zpow_le_zpow_right₀ (by norm_num) (by push_cast; omega)
  have hlower : k = -1074 ∨ (2 : ℚ) ^ 52 * 2 ^ k ≤ q := by
    by_cases hleast : k = -1074
    · exact .inl hleast
    · right
      rw [← zpow_natCast, ← zpow_add₀ (by norm_num), show ((52 : ℕ) : Int) + k = Int.log 2 q by
        push_cast; omega]
      exact_mod_cast Int.zpow_log_le_self (by norm_num) hq'
  obtain ⟨n, hn⟩ := exists_nearestEven (div_nonneg hq hpos.le)
  have hnear := abs_le.1 hn.near
  rw [Int.cast_natCast] at hnear
  have hwidth : n ≤ 2 ^ 53 := by
    have : (n : ℚ) < 2 ^ 53 + 1 := by linarith
    exact Nat.le_of_lt_succ (by exact_mod_cast this)
  rcases hwidth.eq_or_lt with rfl | hwidth
  · -- rounded up to the next power of two
    have hhalf : (2 : ℚ) ^ (k + 1) = 2 * 2 ^ k := by rw [zpow_add_one₀ (by norm_num), mul_comm]
    refine ⟨2 ^ 52, k + 1, ⟨by decide, by omega, .inr (le_refl _)⟩, ?_⟩
    have hq53 : q < 2 ^ 53 * 2 ^ k := (div_lt_iff₀ hpos).1 hupper
    have hlow : (2 ^ 53 - 1 / 2 : ℚ) * 2 ^ k ≤ q := (le_div_iff₀ hpos).1 (by push_cast at hnear; linarith)
    have hgap : gapBelow (2 ^ 52) (k + 1) = 2 ^ k := by
      rw [gapBelow, if_pos ⟨rfl, by omega⟩, add_sub_cancel_right]
    refine ⟨?_, ?_, fun hodd => absurd hodd (by decide)⟩
    · rw [hgap, hhalf]
      push_cast
      linarith
    · rw [hhalf]
      push_cast
      linarith
  · refine ⟨n, k, ⟨hwidth, by omega, hlower.imp_right fun hq52 => ?_⟩,
      roundsTo_of_nearestEven hn fun _ => hlower⟩
    have hq52 : (2 : ℚ) ^ 52 ≤ q / 2 ^ k := (le_div_iff₀ hpos).2 hq52
    have : (2 : ℚ) ^ 52 < n + 1 := by linarith
    exact Nat.le_of_lt_succ (by exact_mod_cast this)

end Cells

section Scientific

theorem cuts_inexact {o : Ordering} (hlow : (M : ℚ) < r) (hhigh : r < M + 1)
    (hlt : o = .lt ↔ r < M + 1 / 2) (heq : o = .eq ↔ r = M + 1 / 2) :
    Cuts (.ofMantissaAndAccuracy M (.inexact o)) r := by
  have hround : o ≠ .lt ↔ (M + 1 / 2 : ℚ) ≤ r := by rw [ne_eq, hlt, not_lt]
  have hsticky : o ≠ .eq ↔ r ≠ M + 1 / 2 := not_congr heq
  cases o <;>
  · constructor
    · exact hlow.le
    · exact hhigh
    · simpa [ExtendedMantissa.ofMantissaAndAccuracy] using hround
    · simpa [ExtendedMantissa.ofMantissaAndAccuracy, hlow.ne'] using hsticky

theorem cuts_fraction (hden : 0 < den) (n : Nat) :
    Cuts (.ofMantissaAndAccuracy (n / den) (UnpackedFloat.accuracyOfFraction (n % den) den))
      (n / den : ℚ) := by
  have hpos : (0 : ℚ) < den := by exact_mod_cast hden
  have hrest : n % den < den := Nat.mod_lt n hden
  have hsum : (n / den : ℚ) = (n / den : ℕ) + (n % den : ℕ) / den := by
    have hparts : (n : ℚ) = den * (n / den : ℕ) + (n % den : ℕ) := by
      exact_mod_cast (Nat.div_add_mod n den).symm
    rw [hparts]
    field_simp
  generalize n / den = whole, n % den = rest at *
  rw [hsum, UnpackedFloat.accuracyOfFraction]
  split
  next hzero =>
    rw [hzero, Nat.cast_zero, zero_div, add_zero]
    exact cuts_exact whole
  next hzero =>
    have hsome : (0 : ℚ) < rest / den := div_pos (by exact_mod_cast Nat.pos_of_ne_zero hzero) hpos
    have hone : (rest / den : ℚ) < 1 := (div_lt_one hpos).2 (by exact_mod_cast hrest)
    refine cuts_inexact (by linarith) (by linarith) ?_ ?_
    · rw [Nat.compare_eq_lt, add_lt_add_iff_left, div_lt_div_iff₀ hpos (by norm_num)]
      norm_cast
      omega
    · rw [Nat.compare_eq_eq, add_right_inj, div_eq_div_iff hpos.ne' (by norm_num)]
      norm_cast
      omega

theorem ofScientific_of_le (hd : 0 < d) (hleast : -(2048 + d.log2 : Int) ≤ p) (hgreatest : p ≤ 2048) :
    UnpackedFloat.ofScientific .binary64 d p =
      if 0 ≤ p then
        UnpackedFloat.roundWithAccuracy .binary64 .positive (d <<< 53 * 10 ^ p.toNat) (-53) .exact
      else
        let (M, E, acc) := UnpackedFloat.divCore .binary64 d 0 (10 ^ (-p).toNat) 0
        UnpackedFloat.roundWithAccuracy .binary64 .positive M E acc := by
  have hbits : (2 : Int) ^ Format.binary64.exponentBits = 2048 := rfl
  rw [UnpackedFloat.ofScientific, dif_neg (ne_of_gt hd), hbits, if_neg (by omega), if_neg (by omega)]
  rfl

variable (hd : 0 < d) (hleast : -(2048 + d.log2 : Int) ≤ p) (hgreatest : p ≤ 2048) (hn : Normal m e)
  (h : RoundsTo (d * 10 ^ p) m e)

include hd hleast hgreatest hn h in
theorem ofScientific_of_integer (hp : 0 ≤ p) :
    UnpackedFloat.ofScientific .binary64 d p = ofParts .positive m e := by
  have hten : (10 : ℚ) ^ p = (10 ^ p.toNat : ℕ) := by
    rw [Nat.cast_pow, ← zpow_natCast, Int.toNat_of_nonneg hp]
    rfl
  have hscaled : ((d <<< 53 * 10 ^ p.toNat : ℕ) : ℚ) = d * 10 ^ p / 2 ^ (-53 : Int) := by
    rw [hten, Nat.shiftLeft_eq, zpow_neg, div_inv_eq_mul]
    push_cast
    norm_cast
    ring
  have hcut := cuts_exact (d <<< 53 * 10 ^ p.toNat)
  rw [hscaled] at hcut
  have hE : -53 ≤ Format.binary64.targetExponent (totalExponent (d <<< 53 * 10 ^ p.toNat) (-53)) := by
    have hwide : d <<< 53 ≤ d <<< 53 * 10 ^ p.toNat := Nat.le_mul_of_pos_right _ (by positivity)
    have hfull : 2 ^ 53 ≤ d <<< 53 := by
      rw [Nat.shiftLeft_eq]
      exact Nat.le_mul_of_pos_left _ hd
    have hlog := (Nat.le_log2 (by omega)).2 (hfull.trans hwide)
    rw [targetExponent_binary64, totalExponent]
    omega
  rw [ofScientific_of_le hd hleast hgreatest, if_pos hp]
  exact roundWithAccuracy_of_roundsTo hcut hE hn h

theorem le_targetExponent_divCore (hd : 0 < d) (hden : 0 < den) {k : Nat}
    (hk : (-(k : Int)) ≤ max ((d.log2 : Int) - den.log2 - 53) (-1074)) :
    (-(k : Int)) ≤ Format.binary64.targetExponent (totalExponent (d <<< k / den) (-k)) := by
  rw [targetExponent_binary64, totalExponent]
  rcases le_max_iff.1 hk with hwide | hleast
  · have hshift : den.log2 + 53 ≤ d.log2 + k := by omega
    have hfull : 2 ^ 52 ≤ d <<< k / den := by
      rw [Nat.le_div_iff_mul_le hden, Nat.shiftLeft_eq]
      calc 2 ^ 52 * den ≤ 2 ^ 52 * 2 ^ (den.log2 + 1) := by
            gcongr
            exact Nat.lt_log2_self.le
        _ = 2 ^ (den.log2 + 53) := by rw [← pow_add]; congr 1; omega
        _ ≤ 2 ^ (d.log2 + k) := Nat.pow_le_pow_right (by decide) hshift
        _ = 2 ^ d.log2 * 2 ^ k := pow_add ..
        _ ≤ d * 2 ^ k := by
          gcongr
          exact Nat.log2_self_le (ne_of_gt hd)
    have hlog := (Nat.le_log2 (by positivity)).2 hfull
    omega
  · omega

include hd hleast hn h in
theorem ofScientific_of_fraction (hp : p < 0) :
    UnpackedFloat.ofScientific .binary64 d p = ofParts .positive m e := by
  rw [ofScientific_of_le hd hleast (by omega), if_neg (not_le.2 hp)]
  have hten : (d * 10 ^ p : ℚ) = d / (10 ^ (-p).toNat : ℕ) := by
    rw [Nat.cast_pow, ← zpow_natCast, Int.toNat_of_nonneg (by omega), zpow_neg, div_inv_eq_mul]
    rfl
  rw [hten] at h
  have hden : 0 < 10 ^ (-p).toNat := by positivity
  generalize 10 ^ (-p).toNat = den at *
  -- the exponent of the quotient is not positive
  have hk : ∃ k : ℕ, min 0 (max ((d.log2 : Int) - den.log2 - 53) (-1074)) = -k :=
    ⟨(-(min 0 (max ((d.log2 : Int) - den.log2 - 53) (-1074)))).toNat, by omega⟩
  obtain ⟨k, hk⟩ := hk
  have htotal : totalExponent d 0 - totalExponent den 0 - 53 = (d.log2 : Int) - den.log2 - 53 := by
    simp only [totalExponent]
    omega
  have hcore : UnpackedFloat.divCore .binary64 d 0 den 0 =
      (d <<< k / den, (-k : Int), UnpackedFloat.accuracyOfFraction (d <<< k % den) den) := by
    simp only [UnpackedFloat.divCore, targetExponent_binary64, htotal, sub_self, hk, zero_sub, neg_neg,
      Int.toNat_natCast]
  have hscaled : ((d <<< k : ℕ) / den : ℚ) = d / den / 2 ^ (-k : Int) := by
    rw [Nat.shiftLeft_eq, zpow_neg, div_inv_eq_mul, zpow_natCast]
    push_cast
    ring
  have hcut := cuts_fraction hden (d <<< k)
  rw [hscaled] at hcut
  rw [hcore]
  exact roundWithAccuracy_of_roundsTo hcut (le_targetExponent_divCore hd hden (by omega)) hn h

include hd hleast hgreatest hn h in
theorem ofScientific_of_roundsTo :
    UnpackedFloat.ofScientific .binary64 d p = ofParts .positive m e := by
  rcases lt_or_ge p 0 with hp | hp
  · exact ofScientific_of_fraction hd hleast hn h hp
  · exact ofScientific_of_integer hd hleast hgreatest hn h hp

end Scientific

section Reading

theorem overflow_le_of_lt (hd : 0 < d) (hp : 2048 < p) : overflow ≤ d * 10 ^ p := by
  have hone : (1 : ℚ) ≤ d := by exact_mod_cast hd
  calc overflow ≤ 2 ^ (1024 : Int) := sub_le_self _ (by positivity)
    _ ≤ 10 ^ (1024 : Int) := zpow_le_zpow_left₀ (by decide) (by norm_num) (by norm_num)
    _ ≤ 10 ^ p := zpow_le_zpow_right₀ (by norm_num) (by omega)
    _ ≤ d * 10 ^ p := le_mul_of_one_le_left (by positivity) hone

theorem roundsTo_zero_of_lt (hp : p < -(2048 + d.log2 : Int)) : RoundsTo (d * 10 ^ p) 0 (-1074) := by
  refine roundsTo_zero (by positivity) ?_
  have hdigits : (d : ℚ) ≤ 2 ^ (d.log2 + 1) := by exact_mod_cast Nat.lt_log2_self.le
  have hten : (10 : ℚ) ^ p ≤ 2 ^ p := by
    rw [← neg_neg p, zpow_neg, zpow_neg _ (-p)]
    exact inv_anti₀ (by positivity) (zpow_le_zpow_left₀ (by omega) (by norm_num) (by norm_num))
  calc (d * 10 ^ p : ℚ) ≤ 2 ^ (d.log2 + 1) * 2 ^ p := by gcongr
    _ = 2 ^ (((d.log2 + 1 : ℕ) : Int) + p) := by rw [← zpow_natCast, ← zpow_add₀ (by norm_num)]
    _ ≤ 2 ^ (-1075 : Int) := zpow_le_zpow_right₀ (by norm_num) (by push_cast; omega)

theorem ofScientific_cases (d : Nat) (p : Int) :
    (overflow ≤ (d * 10 ^ p : ℚ) ∧ UnpackedFloat.ofScientific .binary64 d p = .infinity .positive) ∨
      ∃ m e, Normal m e ∧ RoundsTo (d * 10 ^ p) m e ∧
        UnpackedFloat.ofScientific .binary64 d p = ofParts .positive m e := by
  have hbits : (2 : Int) ^ Format.binary64.exponentBits = 2048 := rfl
  rcases Nat.eq_zero_or_pos d with rfl | hd
  · refine .inr ⟨0, -1074, normal_zero, ?_, by rw [UnpackedFloat.ofScientific, dif_pos rfl]; rfl⟩
    rw [Nat.cast_zero, zero_mul]
    exact roundsTo_zero (le_refl _) (by positivity)
  -- Far outside the range nothing is worked out, and the result is infinity or zero without it.
  by_cases hgreatest : 2048 < p
  · refine .inl ⟨overflow_le_of_lt hd hgreatest, ?_⟩
    rw [UnpackedFloat.ofScientific, dif_neg (ne_of_gt hd), hbits, if_pos hgreatest]
  by_cases hleast : p < -(2048 + d.log2 : Int)
  · refine .inr ⟨0, -1074, normal_zero, roundsTo_zero_of_lt hleast, ?_⟩
    rw [UnpackedFloat.ofScientific, dif_neg (ne_of_gt hd), hbits, if_neg hgreatest, if_pos hleast]
    rfl
  · obtain ⟨m, e, hn, hcell⟩ := exists_roundsTo (q := d * 10 ^ p) (by positivity)
    exact .inr ⟨m, e, hn, hcell,
      ofScientific_of_roundsTo hd (not_lt.1 hleast) (not_lt.1 hgreatest) hn hcell⟩

theorem denotes_ofScientific (d : Nat) (p : Int) :
    Denotes (d * 10 ^ p) (.ofModel (.ofScientific d p)) := by
  rw [Denotes, Float.Model.ofScientific]
  rcases ofScientific_cases d p with ⟨hlarge, hread⟩ | ⟨m, e, hn, hcell, hread⟩
  · rw [if_neg (not_lt.2 hlarge), hread]
    rfl
  · rw [hread]
    rcases le_or_gt e 971 with he | he
    · have hc := hn.canonical he
      rw [if_pos (hcell.lt_overflow hc)]
      exact nearest_of_roundsTo hc hcell
    · rw [if_neg (not_lt.2 (hcell.overflow_le hn he)), pack_ofParts_of_le hn he]
      rfl

end Reading

end FormulaDrawing.Number
