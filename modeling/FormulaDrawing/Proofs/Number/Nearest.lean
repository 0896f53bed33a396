import FormulaDrawing.Proofs.Number.Rounding

/-! The double that a number is rounded to. While its significand is shifted, two bits remember what has
been cut off, and these suffice to tell which integer is nearest; so every number in the cell of a double,
half way to its neighbours, is rounded to that double. -/

namespace FormulaDrawing.Number

open Float.Model
open UnpackedFloat (ExtendedMantissa Accuracy)

variable {s : UnpackedFloat.Sign} {m M : Nat} {e E : Int} {r q : ℚ} {em : ExtendedMantissa}
  {acc : Accuracy}

section Bits

/-- The number has been cut off to the significand, and the bits tell how far above it lies. -/
structure Cuts (em : ExtendedMantissa) (r : ℚ) : Prop where
  below : (em.mantissa : ℚ) ≤ r
  above : r < em.mantissa + 1
  round : em.roundBit = true ↔ (em.mantissa + 1 / 2 : ℚ) ≤ r
  sticky : em.stickyBit = true ↔ r ≠ em.mantissa ∧ r ≠ em.mantissa + 1 / 2

theorem cuts_exact (m : Nat) : Cuts (.ofMantissaAndAccuracy m .exact) m where
  below := le_refl _
  above := lt_add_one _
  round := by simp [ExtendedMantissa.ofMantissaAndAccuracy]
  sticky := by simp [ExtendedMantissa.ofMantissaAndAccuracy]

theorem Cuts.shiftRightOne (h : Cuts em r) : Cuts em.shiftRightOne (r / 2) := by
  obtain ⟨hbelow, habove, hround, hsticky⟩ := h
  obtain ⟨n, round, sticky⟩ := em
  dsimp only at hbelow habove hround hsticky
  have hn : (n : ℚ) = 2 * (n / 2 : ℕ) + (n % 2 : ℕ) := by exact_mod_cast (Nat.div_add_mod n 2).symm
  -- Together the two bits tell whether anything was cut off at all.
  have hrest : (round || sticky) = true ↔ r ≠ n := by
    rw [Bool.or_eq_true, hround, hsticky]
    constructor
    · rintro (hhalf | ⟨hne, -⟩) heq
      · linarith
      · exact hne heq
    · intro hne
      by_cases hhalf : r = n + 1 / 2
      · exact .inl hhalf.ge
      · exact .inr ⟨hne, hhalf⟩
  rcases Nat.mod_two_eq_zero_or_one n with hbit | hbit <;> rw [hbit] at hn <;> push_cast at hn <;>
    constructor <;> dsimp only [ExtendedMantissa.shiftRightOne]
  case inl.below => linarith
  case inl.above => linarith
  case inl.round =>
    rw [hbit]
    exact ⟨nofun, fun hhalf => by linarith⟩
  case inl.sticky =>
    rw [hrest]
    constructor
    · exact fun hne => ⟨fun heq => hne (by linarith), fun heq => by linarith⟩
    · exact fun hne heq => hne.1 (by linarith)
  case inr.below => linarith
  case inr.above => linarith
  case inr.round =>
    rw [hbit]
    exact ⟨fun _ => by linarith, fun _ => rfl⟩
  case inr.sticky =>
    rw [hrest]
    constructor
    · exact fun hne => ⟨fun heq => by linarith, fun heq => hne (by linarith)⟩
    · exact fun hne heq => hne.2 (by linarith)

theorem Cuts.shiftRight (h : Cuts em r) (k : Nat) : Cuts (em >>> k) (r / 2 ^ k) := by
  induction k with
  | zero =>
    rw [pow_zero, div_one]
    exact h
  | succ k ih =>
    have hstep := ih.shiftRightOne
    rw [div_div, ← pow_succ] at hstep
    exact hstep

theorem nearestEven_of_lt {k : ℤ} (h : |r - k| < 1 / 2) : NearestEven r k :=
  ⟨h.le, fun he => absurd he h.ne⟩

theorem Cuts.nearestEven (h : Cuts em r) : NearestEven r (em.roundedMantissa : ℕ) := by
  obtain ⟨hbelow, habove, hround, hsticky⟩ := h
  obtain ⟨n, round, sticky⟩ := em
  dsimp only at hbelow habove hround hsticky
  cases round with
  | false =>
    have hless : r < n + 1 / 2 := by simpa using hround
    have hrounded : ExtendedMantissa.roundedMantissa ⟨n, false, sticky⟩ = n := by
      cases sticky <;> rfl
    rw [hrounded]
    refine nearestEven_of_lt ?_
    rw [Int.cast_natCast, abs_lt]
    constructor <;> linarith
  | true =>
    have hmore : n + 1 / 2 ≤ r := by simpa using hround
    cases sticky with
    | true =>
      have hrounded : ExtendedMantissa.roundedMantissa ⟨n, true, true⟩ = n + 1 := rfl
      have hne : r ≠ n + 1 / 2 := (hsticky.1 rfl).2
      have hlt : n + 1 / 2 < r := lt_of_le_of_ne hmore hne.symm
      rw [hrounded]
      refine nearestEven_of_lt ?_
      push_cast
      rw [abs_lt]
      constructor <;> linarith
    | false =>
      have hrounded : ExtendedMantissa.roundedMantissa ⟨n, true, false⟩ = n + n % 2 := rfl
      have hhalf : r = n + 1 / 2 := by
        by_contra hne
        exact absurd (hsticky.2 ⟨fun heq => by linarith, hne⟩) Bool.false_ne_true
      rw [hrounded, hhalf]
      constructor
      · rcases Nat.mod_two_eq_zero_or_one n with hbit | hbit <;> rw [hbit] <;> push_cast <;>
          norm_num [abs_le]
      · intro _
        rw [Int.even_coe_nat, Nat.even_iff]
        omega

end Bits

section Rounding

/-- The number lies in the cell of a double, whose ends belong to the cell if the significand is even. -/
structure RoundsTo (q : ℚ) (m : Nat) (e : Int) : Prop where
  low : (m * 2 ^ e - gapBelow m e / 2 : ℚ) ≤ q
  high : q ≤ m * 2 ^ e + 2 ^ e / 2
  odd : m % 2 = 1 → (m * 2 ^ e - gapBelow m e / 2 : ℚ) < q ∧ q < m * 2 ^ e + 2 ^ e / 2

theorem mantissa_ofMantissaAndAccuracy (M : Nat) (acc : Accuracy) :
    (ExtendedMantissa.ofMantissaAndAccuracy M acc).mantissa = M := by
  rcases acc with _ | (_ | _ | _) <;> rfl

variable (hcut : Cuts (.ofMantissaAndAccuracy M acc) (q / 2 ^ E))
include hcut

theorem bounds_of_cuts : (M * 2 ^ E : ℚ) ≤ q ∧ q < (M + 1) * 2 ^ E := by
  have hpos : (0 : ℚ) < 2 ^ E := by positivity
  have hbelow := hcut.below
  have habove := hcut.above
  rw [mantissa_ofMantissaAndAccuracy] at hbelow habove
  exact ⟨(le_div_iff₀ hpos).1 hbelow, (div_lt_iff₀ hpos).1 habove⟩

theorem lt_of_totalExponent : q < 2 ^ totalExponent M E := by
  have hpos : (0 : ℚ) < 2 ^ E := by positivity
  have hwidth : ((M : ℚ) + 1) ≤ 2 ^ (M.log2 + 1) := by exact_mod_cast Nat.lt_log2_self
  calc q < (M + 1) * 2 ^ E := (bounds_of_cuts hcut).2
    _ ≤ 2 ^ (M.log2 + 1) * 2 ^ E := by gcongr
    _ = 2 ^ totalExponent M E := by
      rw [← zpow_natCast, ← zpow_add₀ (by norm_num), totalExponent]
      push_cast
      rfl

theorem le_of_totalExponent (hM : 0 < M) : (2 : ℚ) ^ (totalExponent M E - 1) ≤ q := by
  have hpos : (0 : ℚ) < 2 ^ E := by positivity
  have hfull : ((2 : ℚ) ^ M.log2) ≤ M := by exact_mod_cast Nat.log2_self_le (ne_of_gt hM)
  calc (2 : ℚ) ^ (totalExponent M E - 1) = 2 ^ M.log2 * 2 ^ E := by
        rw [← zpow_natCast, ← zpow_add₀ (by norm_num), totalExponent]
        congr 1
        omega
    _ ≤ M * 2 ^ E := by gcongr
    _ ≤ q := (bounds_of_cuts hcut).1

theorem targetExponent_eq {k : Int} (hk : -1074 ≤ k)
    (hE : E ≤ Format.binary64.targetExponent (totalExponent M E)) (hupper : q < 2 ^ (k + 53))
    (hlower : k = -1074 ∨ (2 : ℚ) ^ (k + 52) ≤ q) :
    Format.binary64.targetExponent (totalExponent M E) = k := by
  rw [targetExponent_binary64] at hE ⊢
  have hless : totalExponent M E - 53 ≤ k := by
    rcases Nat.eq_zero_or_pos M with rfl | hM
    · simp only [totalExponent, Nat.log2_zero] at hE ⊢
      omega
    · have hlt := (zpow_lt_zpow_iff_right₀ (by norm_num)).1
        ((le_of_totalExponent hcut hM).trans_lt hupper)
      omega
  rcases hlower with hleast | hlower
  · omega
  · have hlt := (zpow_lt_zpow_iff_right₀ (by norm_num)).1 (hlower.trans_lt (lt_of_totalExponent hcut))
    omega

theorem shiftToTargetExponent_of_cuts {k : Int} (hk : -1074 ≤ k)
    (hE : E ≤ Format.binary64.targetExponent (totalExponent M E)) (hupper : q < 2 ^ (k + 53))
    (hlower : k = -1074 ∨ (2 : ℚ) ^ (k + 52) ≤ q) : ∃ em : ExtendedMantissa,
      UnpackedFloat.shiftToTargetExponent .binary64 M E acc = (em, k) ∧ Cuts em (q / 2 ^ k) := by
  have htarget := targetExponent_eq hcut hk hE hupper hlower
  rw [htarget] at hE
  refine ⟨ExtendedMantissa.ofMantissaAndAccuracy M acc >>> (k - E).toNat, ?_, ?_⟩
  · have hsum : E + ((k - E).toNat : Int) = k := by omega
    rw [UnpackedFloat.shiftToTargetExponent, htarget, UnpackedFloat.shiftToExponent, hsum]
  · have hunit : (2 : ℚ) ^ k = 2 ^ E * 2 ^ (k - E).toNat := by
      rw [zpow_eq_mul hE, Nat.cast_pow, Nat.cast_ofNat, mul_comm]
    rw [hunit, ← div_div]
    exact hcut.shiftRight _

end Rounding

section Nearest

/-- The number of a significand and an exponent, which is a zero where the significand is. -/
def ofParts (s : UnpackedFloat.Sign) (m : Nat) (e : Int) : UnpackedFloat :=
  if hm : m = 0 then .zero s else .finite s m e (Nat.pos_of_ne_zero hm)

theorem ofParts_of_pos (s : UnpackedFloat.Sign) (hm : 0 < m) (e : Int) : ofParts s m e = .finite s m e hm :=
  dif_neg (ne_of_gt hm)

theorem RoundsTo.pos (h : RoundsTo q m e) (hm : 0 < m) : 0 < q := by
  have hpos : (0 : ℚ) < 2 ^ e := by positivity
  have hone : (1 : ℚ) ≤ m := by exact_mod_cast hm
  have hgap := gapBelow_le m e
  nlinarith [h.low]

theorem RoundsTo.nearestEven (h : RoundsTo q m e) : NearestEven (q / 2 ^ e) (m : ℕ) := by
  have hpos : (0 : ℚ) < 2 ^ e := by positivity
  have hgap := gapBelow_le m e
  have hlow : (m - 1 / 2 : ℚ) ≤ q / 2 ^ e := (le_div_iff₀ hpos).2 (by linarith [h.low])
  have hhigh : q / 2 ^ e ≤ m + 1 / 2 := (div_le_iff₀ hpos).2 (by linarith [h.high])
  rw [← Int.cast_natCast] at hlow hhigh
  refine ⟨abs_le.2 ⟨by linarith, by linarith⟩, fun htie => ?_⟩
  rw [Int.even_coe_nat, Nat.even_iff]
  by_contra hne
  obtain ⟨hl, hh⟩ := h.odd (by omega)
  have hlow : (m - 1 / 2 : ℚ) < q / 2 ^ e := (lt_div_iff₀ hpos).2 (by linarith)
  have hhigh : q / 2 ^ e < m + 1 / 2 := (div_lt_iff₀ hpos).2 (by linarith)
  rw [← Int.cast_natCast] at hlow hhigh
  exact absurd htie (abs_lt.2 ⟨by linarith, by linarith⟩).ne

theorem shiftToTargetExponent_carry (he : -1073 ≤ e) :
    UnpackedFloat.shiftToTargetExponent .binary64 (2 ^ 53) (e - 1) .exact =
      (⟨2 ^ 52, false, false⟩, e) := by
  have htarget : Format.binary64.targetExponent (totalExponent (2 ^ 53) (e - 1)) = e := by
    rw [targetExponent_binary64, totalExponent, Nat.log2_two_pow]
    omega
  have hshift : (e - (e - 1)).toNat = 1 := by omega
  have hsum : e - 1 + ((1 : ℕ) : Int) = e := by omega
  rw [UnpackedFloat.shiftToTargetExponent, htarget, UnpackedFloat.shiftToExponent, hshift, hsum]
  rfl

variable (hcut : Cuts (.ofMantissaAndAccuracy M acc) (q / 2 ^ E))
  (hE : E ≤ Format.binary64.targetExponent (totalExponent M E)) (hn : Normal m e)
  (h : RoundsTo q m e)
include hcut hE hn h

theorem roundWithAccuracy_of_le (hlower : e = -1074 ∨ (2 : ℚ) ^ (e + 52) ≤ q) :
    UnpackedFloat.roundWithAccuracy .binary64 s M E acc = ofParts s m e := by
  have hpos : (0 : ℚ) < 2 ^ e := by positivity
  have hwidth : ((m : ℚ) + 1) ≤ 2 ^ 53 := by exact_mod_cast hn.width
  have hupper : q < 2 ^ (e + 53) := by
    have hsplit : (2 : ℚ) ^ (e + 53) = 2 ^ 53 * 2 ^ e := by
      rw [zpow_add₀ (by norm_num), mul_comm]
      norm_num
    have := h.high
    rw [hsplit]
    nlinarith
  obtain ⟨em, hshift, hem⟩ := shiftToTargetExponent_of_cuts hcut hn.least hE hupper hlower
  have hrounded : em.roundedMantissa = m := by exact_mod_cast hem.nearestEven.unique h.nearestEven
  have hfits : Format.binary64.targetExponent (totalExponent m e) ≤ e := by
    have hlog : m.log2 < 53 := by
      rcases Nat.eq_zero_or_pos m with rfl | hm
      · decide
      · exact (Nat.log2_lt (ne_of_gt hm)).2 hn.width
    have := hn.least
    rw [targetExponent_binary64, totalExponent]
    omega
  rw [UnpackedFloat.roundWithAccuracy, hshift]
  dsimp only
  rw [hrounded, shiftToTargetExponent_exact hfits]
  rfl

theorem roundWithAccuracy_of_gt (hleast : e ≠ -1074) (hlower : q < (2 : ℚ) ^ (e + 52)) :
    UnpackedFloat.roundWithAccuracy .binary64 s M E acc = ofParts s m e := by
  have hpos : (0 : ℚ) < 2 ^ e := by positivity
  have hsplit (k : ℕ) : (2 : ℚ) ^ (e + k) = 2 ^ k * 2 ^ e := by
    rw [zpow_add₀ (by norm_num), zpow_natCast, mul_comm]
  have hhalf : (2 : ℚ) ^ e = 2 * 2 ^ (e - 1) := by
    rw [zpow_eq_mul (by omega : e - 1 ≤ e), show (e - (e - 1)).toNat = 1 by omega]
    norm_num
  have hleast' : -1073 ≤ e := by have := hn.least; omega
  have hlow := h.low
  have hgap := gapBelow_le m e
  have hlower' : q < 2 ^ 52 * 2 ^ e := by rw [← hsplit]; exact_mod_cast hlower
  -- Only below a power of two the cell reaches down to where a narrower exponent is aimed at.
  obtain rfl : m = 2 ^ 52 := by
    by_contra hne
    have hmore : ((2 : ℚ) ^ 52 + 1) ≤ m := by
      have hfull := hn.full.resolve_left hleast
      exact_mod_cast (by omega : 2 ^ 52 + 1 ≤ m)
    nlinarith
  rw [gapBelow, if_pos ⟨rfl, hleast⟩, hhalf] at hlow
  rw [hhalf] at hlower'
  have hpos' : (0 : ℚ) < 2 ^ (e - 1) := by positivity
  push_cast at hlow
  obtain ⟨em, hshift, hem⟩ := shiftToTargetExponent_of_cuts hcut (k := e - 1) (by omega) hE
    (by rwa [show e - 1 + 53 = e + 52 by ring]) (.inr (by
      have hquarter := hsplit 51
      rw [show e - 1 + 52 = e + (51 : ℕ) by push_cast; ring, hquarter, hhalf]
      linarith))
  -- With the extra bit it is rounded up to the power, which carries into the exponent.
  have hnearest : NearestEven (q / 2 ^ (e - 1)) ((2 ^ 53 : ℕ) : ℤ) := by
    have hmore : (2 ^ 53 - 1 / 2 : ℚ) ≤ q / 2 ^ (e - 1) := (le_div_iff₀ hpos').2 (by linarith)
    have hless : q / 2 ^ (e - 1) < 2 ^ 53 := (div_lt_iff₀ hpos').2 (by linarith)
    refine ⟨?_, fun _ => by decide⟩
    push_cast
    rw [abs_le]
    constructor <;> linarith
  have hrounded : em.roundedMantissa = 2 ^ 53 := by exact_mod_cast hem.nearestEven.unique hnearest
  rw [UnpackedFloat.roundWithAccuracy, hshift]
  dsimp only
  rw [hrounded, shiftToTargetExponent_carry hleast']
  rfl

theorem roundWithAccuracy_of_roundsTo :
    UnpackedFloat.roundWithAccuracy .binary64 s M E acc = ofParts s m e := by
  by_cases hleast : e = -1074
  · exact roundWithAccuracy_of_le hcut hE hn h (.inl hleast)
  · rcases le_or_gt ((2 : ℚ) ^ (e + 52)) q with hlower | hlower
    · exact roundWithAccuracy_of_le hcut hE hn h (.inr hlower)
    · exact roundWithAccuracy_of_gt hcut hE hn h hleast hlower

end Nearest

end FormulaDrawing.Number
