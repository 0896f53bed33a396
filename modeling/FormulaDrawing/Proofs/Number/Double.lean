import Mathlib
import FormulaDrawing.Number.Rounding

/-! The exact value of a double, and how far the doubles lie apart. A finite double is a significand of at
most 53 bits with the least exponent that leaves room for it, so the values on either side of it are one
unit of its last place away, or half a unit below a power of two. -/

namespace FormulaDrawing.Number

open Float.Model

/-- The significand and the exponent of a finite double. -/
structure Canonical (m : Nat) (e : Int) : Prop where
  width : m < 2 ^ 53
  least : -1074 ≤ e
  greatest : e ≤ 971
  full : e = -1074 ∨ 2 ^ 52 ≤ m

/-- A significand with the least exponent that leaves room for it. Nothing bounds the exponent above, where
no double has it. -/
structure Normal (m : Nat) (e : Int) : Prop where
  width : m < 2 ^ 53
  least : -1074 ≤ e
  full : e = -1074 ∨ 2 ^ 52 ≤ m

variable {s : UnpackedFloat.Sign} {m m' : Nat} {e e' : Int} {x y : Float}

theorem Canonical.normal (h : Canonical m e) : Normal m e := ⟨h.width, h.least, h.full⟩

theorem Normal.canonical (h : Normal m e) (he : e ≤ 971) : Canonical m e :=
  ⟨h.width, h.least, he, h.full⟩

section Packing

theorem log2_eq_iff_full (h : m < 2 ^ 53) : m.log2 = 52 ↔ 2 ^ 52 ≤ m := by
  constructor
  · intro hlog
    have hm : m ≠ 0 := by
      rintro rfl
      cases hlog
    exact hlog ▸ Nat.log2_self_le hm
  · intro hm
    exact (Nat.log2_eq_iff (by omega)).2 ⟨hm, h⟩

theorem bias_add : (Format.binary64.exponentBias : Int) + (52 : Nat) = 1075 := rfl

theorem toNat_implicit_append (b : BitVec 52) : (1#1 ++ b).toNat = 2 ^ 52 + b.toNat := by
  rw [BitVec.toNat_append, ← Nat.shiftLeft_add_eq_or_of_lt b.isLt]
  rfl

theorem canonical_of_unpack_eq {b : BitVec Format.binary64.numBits} {hm : 0 < m}
    (h : UnpackedFloat.unpack .binary64 b = .finite s m e hm) : Canonical m e := by
  have hmantissa : (UnpackedFloat.unpackMantissa b).toNat < 2 ^ 52 := BitVec.isLt _
  have hexponent : (UnpackedFloat.unpackExponent b).toNat < 2 ^ 11 := BitVec.isLt _
  unfold UnpackedFloat.unpack at h
  dsimp only at h
  split_ifs at h with hmax hnone hzero hnone
  · obtain ⟨-, rfl, rfl⟩ := UnpackedFloat.finite.inj h
    rw [hzero, bias_add]
    exact ⟨by omega, by decide, by decide, .inl (by decide)⟩
  · have hlast : (UnpackedFloat.unpackExponent b).toNat ≠ 2047 := fun he =>
      hmax (BitVec.eq_of_toNat_eq he)
    have hfirst : (UnpackedFloat.unpackExponent b).toNat ≠ 0 := fun he =>
      hzero (BitVec.eq_of_toNat_eq he)
    obtain ⟨-, rfl, rfl⟩ := UnpackedFloat.finite.inj h
    rw [toNat_implicit_append, bias_add]
    exact ⟨by omega, by omega, by omega, .inr (by omega)⟩

theorem unpack_normal (hm : 0 < m) (hwidth : m < 2 ^ 53) (hfull : 2 ^ 52 ≤ m) {b : Nat}
    (hfirst : 0 < b) (hlast : b < 2047) :
    UnpackedFloat.unpack .binary64 (UnpackedFloat.packComponents .binary64 s (.ofNat 11 b)
      (.ofNat 52 m)) = .finite s m (b - 1075) hm := by
  have hexponent : (BitVec.ofNat 11 b).toNat = b := by
    rw [BitVec.toNat_ofNat, Nat.mod_eq_of_lt (by omega)]
  have hmax : BitVec.ofNat 11 b ≠ -1#11 := fun he =>
    absurd (hexponent.symm.trans (congrArg BitVec.toNat he)) (ne_of_lt hlast)
  have hzero : BitVec.ofNat 11 b ≠ 0#11 := fun he =>
    absurd (hexponent.symm.trans (congrArg BitVec.toNat he)) (ne_of_gt hfirst)
  have hmantissa : (1#1 ++ BitVec.ofNat 52 m).toNat = m := by
    rw [toNat_implicit_append, BitVec.toNat_ofNat]
    omega
  unfold UnpackedFloat.unpack
  simp only [UnpackedFloat.unpackMantissa_packComponents,
    UnpackedFloat.unpackExponent_packComponents, UnpackedFloat.unpackSign_packComponents,
    UnpackedFloat.Sign.ofBitVec_toBitVec, if_neg hmax, if_neg hzero, hexponent, hmantissa]
  rfl

theorem unpack_subnormal (hm : 0 < m) (hpart : m < 2 ^ 52) :
    UnpackedFloat.unpack .binary64 (UnpackedFloat.packComponents .binary64 s 0#11 (.ofNat 52 m)) =
      .finite s m (-1074) hm := by
  have hmantissa : (BitVec.ofNat 52 m).toNat = m := by
    rw [BitVec.toNat_ofNat, Nat.mod_eq_of_lt hpart]
  have hnone : BitVec.ofNat 52 m ≠ 0#52 := fun he =>
    absurd (hmantissa.symm.trans (congrArg BitVec.toNat he)) (ne_of_gt hm)
  unfold UnpackedFloat.unpack
  simp only [UnpackedFloat.unpackMantissa_packComponents,
    UnpackedFloat.unpackExponent_packComponents, UnpackedFloat.unpackSign_packComponents,
    UnpackedFloat.Sign.ofBitVec_toBitVec, dif_neg hnone, hmantissa]
  rfl

theorem unpack_pack (h : Canonical m e) (hm : 0 < m) :
    (Float.Model.pack (.finite s m e hm)).unpack = .finite s m e hm := by
  have hbits : Format.binary64.mantissaBits = 53 := rfl
  obtain ⟨hwidth, hleast, hgreatest, hfull⟩ := h
  change UnpackedFloat.unpack .binary64 (UnpackedFloat.pack .binary64 (.finite s m e hm)) = _
  unfold UnpackedFloat.pack
  dsimp only
  rw [add_assoc, bias_add, hbits, if_neg (by omega)]
  split
  next hlog =>
    have hm52 := (log2_eq_iff_full hwidth).1 (Nat.add_right_cancel hlog)
    rw [unpack_normal hm hwidth hm52 (by omega) (by omega)]
    congr 1
    omega
  next hlog =>
    have hm52 : ¬ 2 ^ 52 ≤ m := fun hm52 => hlog (by rw [(log2_eq_iff_full hwidth).2 hm52])
    obtain rfl : e = -1074 := hfull.resolve_right hm52
    exact unpack_subnormal hm (not_le.1 hm52)

theorem unpack_pack_zero (s : UnpackedFloat.Sign) : (Float.Model.pack (.zero s)).unpack = .zero s :=
  UnpackedFloat.unpack_packedZero

theorem pack_unpack (x : Float) : Float.ofModel (.pack x.toModel.unpack) = x := by
  obtain ⟨⟨⟨b⟩, hvalid⟩⟩ := x
  simp only [Float.Model.pack, Float.Model.unpack, UnpackedFloat.pack_unpack_of_valid hvalid]

end Packing

section Value

/-- The number that a finite double is; others count as zero. -/
def value (x : Float) : ℚ :=
  match x.toModel.unpack with
  | .finite s m e _ => (s.apply m : ℤ) * 2 ^ e
  | _ => 0

theorem isFinite_cases (h : x.isFinite = true) :
    (∃ s, x.toModel.unpack = .zero s) ∨
      ∃ s m e hm, x.toModel.unpack = .finite s m e hm ∧ Canonical m e := by
  have h : x.toModel.unpack.isFinite = true := h
  cases hx : x.toModel.unpack with
  | notANumber => rw [hx] at h; cases h
  | infinity s => rw [hx] at h; cases h
  | zero s => exact .inl ⟨s, rfl⟩
  | finite s m e hm => exact .inr ⟨s, m, e, hm, rfl, canonical_of_unpack_eq hx⟩

theorem isFinite_of_zero (h : x.toModel.unpack = .zero s) : x.isFinite = true := by
  have : x.toModel.unpack.isFinite = true := by rw [h]; rfl
  exact this

theorem isFinite_of_finite {hm : 0 < m} (h : x.toModel.unpack = .finite s m e hm) :
    x.isFinite = true := by
  have : x.toModel.unpack.isFinite = true := by rw [h]; rfl
  exact this

theorem value_of_zero (h : x.toModel.unpack = .zero s) : value x = 0 := by rw [value, h]

theorem value_of_finite {hm : 0 < m} (h : x.toModel.unpack = .finite s m e hm) :
    value x = (s.apply m : ℤ) * 2 ^ e := by rw [value, h]

theorem isFinite_neg (h : x.isFinite = true) : (-x).isFinite = true := by
  have hneg : (-x).toModel.unpack = (Float.Model.pack x.toModel.unpack.neg).unpack := rfl
  rcases isFinite_cases h with ⟨s, hx⟩ | ⟨s, m, e, hm, hx, hc⟩
  · rw [hx, UnpackedFloat.neg, unpack_pack_zero] at hneg
    exact isFinite_of_zero hneg
  · rw [hx, UnpackedFloat.neg, unpack_pack hc] at hneg
    exact isFinite_of_finite hneg

theorem isFinite_neg_iff : (-x).isFinite = true ↔ x.isFinite = true := by
  refine ⟨fun h => ?_, isFinite_neg⟩
  have h : (Float.Model.pack x.toModel.unpack.neg).unpack.isFinite = true := h
  have hfinite : x.toModel.unpack.isFinite = true := by
    cases hx : x.toModel.unpack with
    | notANumber => rw [hx] at h; cases h
    | infinity s => rw [hx] at h; cases s <;> cases h
    | zero s => rfl
    | finite s m e hm => rfl
  exact hfinite

theorem nonneg_of_isFinite (h : x.isFinite = true) (hx : ¬ x < 0) : 0 ≤ x := by
  have hzero : (0 : Float).toModel.unpack = .zero .positive := rfl
  have hlt : UnpackedFloat.lt x.toModel.unpack (0 : Float).toModel.unpack ≠ true := fun hlt =>
    hx (decide_eq_true hlt)
  refine decide_eq_true (show UnpackedFloat.le (0 : Float).toModel.unpack x.toModel.unpack = true from ?_)
  rw [hzero] at hlt ⊢
  rcases isFinite_cases h with ⟨s, hx⟩ | ⟨s, m, e, hm, hx, -⟩ <;> rw [hx] at hlt ⊢
  · rfl
  · cases s with
    | positive => rfl
    | negative => exact absurd rfl hlt

theorem unsigned_cases (hx : x.isFinite = true) (hs : isNegative x = false) :
    x.toModel.unpack = .zero .positive ∨
      ∃ m e hm, x.toModel.unpack = .finite .positive m e hm ∧ Canonical m e := by
  rw [isNegative] at hs
  rcases isFinite_cases hx with ⟨s, hzero⟩ | ⟨s, m, e, hm, hfinite, hc⟩
  · rw [hzero] at hs
    cases s with
    | positive => exact .inl hzero
    | negative => cases hs
  · rw [hfinite] at hs
    cases s with
    | positive => exact .inr ⟨m, e, hm, hfinite, hc⟩
    | negative => cases hs

theorem value_nonneg (hx : x.isFinite = true) (hs : isNegative x = false) : 0 ≤ value x := by
  rcases unsigned_cases hx hs with hx | ⟨m, e, hm, hx, -⟩
  · rw [value_of_zero hx]
  · rw [value_of_finite hx, UnpackedFloat.Sign.apply]
    positivity

end Value

section Spacing

/-- How far below a value of this significand and exponent the next one lies. -/
def gapBelow (m : Nat) (e : Int) : ℚ := if m = 2 ^ 52 ∧ e ≠ -1074 then 2 ^ (e - 1) else 2 ^ e

theorem gapBelow_le (m : Nat) (e : Int) : gapBelow m e ≤ 2 ^ e := by
  rw [gapBelow]
  split
  · exact zpow_le_zpow_right₀ (by norm_num) (by omega)
  · exact le_refl _

theorem gapBelow_pos (m : Nat) (e : Int) : 0 < gapBelow m e := by
  rw [gapBelow]
  split <;> positivity

theorem zpow_eq_mul (h : e ≤ e') : (2 : ℚ) ^ e' = (2 ^ (e' - e).toNat : ℕ) * 2 ^ e := by
  rw [Nat.cast_pow, Nat.cast_ofNat, ← zpow_natCast, ← zpow_add₀ (by norm_num)]
  congr 1
  omega

theorem apart_of_canonical (h : Canonical m e) (h' : Canonical m' e') :
    (m' * 2 ^ e' : ℚ) = m * 2 ^ e ∨ (m * 2 ^ e + 2 ^ e : ℚ) ≤ m' * 2 ^ e' ∨
      (m' * 2 ^ e' : ℚ) ≤ m * 2 ^ e - gapBelow m e := by
  have hpos : (0 : ℚ) < 2 ^ e := by positivity
  rcases le_or_gt e e' with he | he
  · -- both are multiples of the smaller unit
    set k := m' * 2 ^ (e' - e).toNat
    have hk : (m' * 2 ^ e' : ℚ) = k * 2 ^ e := by
      rw [zpow_eq_mul he, ← mul_assoc, Nat.cast_mul]
    rw [hk]
    rcases lt_trichotomy k m with hlt | rfl | hgt
    · right; right
      have hstep : ((k : ℚ) + 1) ≤ m := by exact_mod_cast hlt
      have hgap := gapBelow_le m e
      nlinarith
    · exact .inl rfl
    · right; left
      have hstep : ((m : ℚ) + 1) ≤ k := by exact_mod_cast hgt
      nlinarith
  · -- the significand is full, since the exponent is not the least one
    right; right
    have hfull : 2 ^ 52 ≤ m := h.full.resolve_left (by have := h'.least; omega)
    have hhalf : (2 : ℚ) ^ e = 2 * 2 ^ (e - 1) := by
      rw [zpow_eq_mul (e := e - 1) (by omega)]
      norm_num
    have hm' : ((m' : ℚ) + 1) ≤ 2 ^ 53 := by exact_mod_cast h'.width
    have he' : (2 : ℚ) ^ e' ≤ 2 ^ (e - 1) := zpow_le_zpow_right₀ (by norm_num) (by omega)
    have hbelow : (m' * 2 ^ e' : ℚ) ≤ (2 ^ 53 - 1) * 2 ^ (e - 1) :=
      mul_le_mul (by linarith) he' (by positivity) (by norm_num)
    have hpos' : (0 : ℚ) < 2 ^ (e - 1) := by positivity
    rw [gapBelow]
    split
    next hm =>
      rw [hm.1, hhalf]
      push_cast
      linarith
    next hm =>
      have hmore : ((2 : ℚ) ^ 52 + 1) ≤ m := by
        have : 2 ^ 52 + 1 ≤ m := by
          have := h'.least
          by_contra hcontra
          exact hm ⟨by omega, by omega⟩
        exact_mod_cast this
      rw [hhalf]
      nlinarith

theorem Canonical.unique (h : Canonical m e) (h' : Canonical m' e') (hm : 0 < m)
    (hv : (m * 2 ^ e : ℚ) = m' * 2 ^ e') : m = m' ∧ e = e' := by
  have hm' : 0 < m' := by
    have hpos : (0 : ℚ) < m' * 2 ^ e' := by rw [← hv]; positivity
    rw [mul_pos_iff_of_pos_right (by positivity)] at hpos
    exact_mod_cast hpos
  have hle {m m' : Nat} {e e' : Int} (h : Canonical m e) (h' : Canonical m' e')
      (hv : (m * 2 ^ e : ℚ) = m' * 2 ^ e') : e' ≤ e := by
    by_contra hlt
    have hfull := h'.full.resolve_left (by have := h.least; omega)
    have hscaled : m = m' * 2 ^ (e' - e).toNat := by
      have hpos : (0 : ℚ) < 2 ^ e := by positivity
      rw [zpow_eq_mul (by omega : e ≤ e'), ← mul_assoc] at hv
      exact_mod_cast mul_right_cancel₀ hpos.ne' hv
    have htwo : 2 ≤ 2 ^ (e' - e).toNat := Nat.pow_le_pow_right Nat.zero_lt_two (by omega : 1 ≤ (e' - e).toNat)
    have := Nat.mul_le_mul hfull htwo
    have := h.width
    omega
  obtain rfl : e = e' := le_antisymm (hle h' h hv.symm) (hle h h' hv)
  have hpos : (0 : ℚ) < 2 ^ e := by positivity
  exact ⟨by exact_mod_cast mul_right_cancel₀ hpos.ne' hv, rfl⟩

theorem eq_of_value_eq (hx : x.isFinite = true) (hxs : isNegative x = false) (hy : y.isFinite = true)
    (hys : isNegative y = false) (hv : value x = value y) : x = y := by
  rw [← pack_unpack x, ← pack_unpack y]
  rcases unsigned_cases hx hxs with hx | ⟨m, e, hm, hx, hc⟩ <;>
    rcases unsigned_cases hy hys with hy | ⟨m', e', hm', hy, hc'⟩
  · rw [hx, hy]
  · rw [value_of_zero hx, value_of_finite hy, UnpackedFloat.Sign.apply] at hv
    have hpos : (0 : ℚ) < (m' : ℤ) * 2 ^ e' := by positivity
    exact absurd hv hpos.ne
  · rw [value_of_finite hx, value_of_zero hy, UnpackedFloat.Sign.apply] at hv
    have hpos : (0 : ℚ) < (m : ℤ) * 2 ^ e := by positivity
    exact absurd hv hpos.ne'
  · rw [value_of_finite hx, value_of_finite hy, UnpackedFloat.Sign.apply, UnpackedFloat.Sign.apply,
      Int.cast_natCast, Int.cast_natCast] at hv
    obtain ⟨rfl, rfl⟩ := hc.unique hc' hm hv
    rw [hx, hy]

theorem exists_canonical_value (h : x.isFinite = true) :
    ∃ m e, Canonical m e ∧ (value x = m * 2 ^ e ∨ value x = -(m * 2 ^ e)) := by
  rcases isFinite_cases h with ⟨s, hx⟩ | ⟨s, m, e, hm, hx, hc⟩
  · refine ⟨0, -1074, ⟨by decide, by decide, by decide, .inl rfl⟩, .inl ?_⟩
    rw [value_of_zero hx, Nat.cast_zero, zero_mul]
  · refine ⟨m, e, hc, ?_⟩
    rw [value_of_finite hx]
    cases s <;> simp [UnpackedFloat.Sign.apply]

theorem apart_of_isFinite (h : Canonical m e) (hy : y.isFinite = true) {t : ℚ}
    (ht : t = value y ∨ t = -value y) :
    t = m * 2 ^ e ∨ (m * 2 ^ e + 2 ^ e : ℚ) ≤ t ∨ t ≤ m * 2 ^ e - gapBelow m e := by
  obtain ⟨m', e', hc', hvalue⟩ := exists_canonical_value hy
  have ht : t = m' * 2 ^ e' ∨ t = -(m' * 2 ^ e') := by
    rcases ht with rfl | rfl
    · exact hvalue
    · exact hvalue.symm.imp neg_eq_iff_eq_neg.2 (congrArg Neg.neg)
  rcases ht with rfl | rfl
  · exact apart_of_canonical h hc'
  · -- the mirrored value lies below unless both are zero
    have hpos : (0 : ℚ) < 2 ^ e := by positivity
    have hgap := gapBelow_le m e
    rcases Nat.eq_zero_or_pos m with rfl | hm
    · rcases Nat.eq_zero_or_pos m' with rfl | hm'
      · exact .inl (by simp)
      · right; right
        obtain rfl : e = -1074 := h.full.resolve_right (by decide)
        have hone : (1 : ℚ) ≤ m' := by exact_mod_cast hm'
        have hunit : (2 : ℚ) ^ (-1074 : Int) ≤ 2 ^ e' := zpow_le_zpow_right₀ (by norm_num) hc'.least
        rw [Nat.cast_zero, zero_mul]
        nlinarith
    · right; right
      have hone : (1 : ℚ) ≤ m := by exact_mod_cast hm
      have hnonneg : (0 : ℚ) ≤ m' * 2 ^ e' := by positivity
      nlinarith

section Half

variable {q v t below above : ℚ} (hlow : v - below / 2 ≤ q) (hhigh : q ≤ v + above / 2)
include hlow hhigh

theorem abs_sub_le_of_apart (hbelow : 0 < below) (habove : 0 < above)
    (ht : t = v ∨ v + above ≤ t ∨ t ≤ v - below) : |q - v| ≤ |q - t| := by
  rcases ht with rfl | hup | hdown
  · exact le_refl _
  · rw [abs_sub_comm q t, abs_of_nonneg (by linarith : 0 ≤ t - q), abs_le]
    constructor <;> linarith
  · rw [abs_of_nonneg (by linarith : 0 ≤ q - t), abs_le]
    constructor <;> linarith

theorem half_of_abs_sub_eq (hbelow : 0 < below) (habove : 0 < above) (hne : t ≠ v)
    (ht : t = v ∨ v + above ≤ t ∨ t ≤ v - below) (heq : |q - v| = |q - t|) :
    q = v - below / 2 ∨ q = v + above / 2 := by
  rcases ht.resolve_left hne with hup | hdown
  · right
    rw [abs_sub_comm q t, abs_of_nonneg (by linarith : 0 ≤ t - q)] at heq
    rcases abs_choice (q - v) with habs | habs <;> linarith
  · left
    rw [abs_of_nonneg (by linarith : 0 ≤ q - t)] at heq
    rcases abs_choice (q - v) with habs | habs <;> linarith

end Half

theorem nearest_of_between {hm : 0 < m} (hx : x.toModel.unpack = .finite s m e hm) {r : ℕ}
    (hlow : (m * 2 ^ e - gapBelow m e / 2 : ℚ) ≤ r) (hhigh : (r : ℚ) ≤ m * 2 ^ e + 2 ^ e / 2)
    (hy : y.isFinite = true) :
    |((s.apply r : ℤ) : ℚ) - value x| ≤ |((s.apply r : ℤ) : ℚ) - value y| := by
  have hside {t : ℚ} (ht : t = value y ∨ t = -value y) : |(r : ℚ) - m * 2 ^ e| ≤ |r - t| :=
    abs_sub_le_of_apart hlow hhigh (gapBelow_pos m e) (by positivity)
      (apart_of_isFinite (canonical_of_unpack_eq hx) hy ht)
  rw [value_of_finite hx]
  cases s with
  | positive => simpa [UnpackedFloat.Sign.apply] using hside (.inl rfl)
  | negative =>
    have hx' : ((UnpackedFloat.Sign.negative.apply r : ℤ) : ℚ) -
        (UnpackedFloat.Sign.negative.apply m : ℤ) * 2 ^ e = -(r - m * 2 ^ e) := by
      simp only [UnpackedFloat.Sign.apply, Int.cast_neg, Int.cast_natCast]
      ring
    have hy' : ((UnpackedFloat.Sign.negative.apply r : ℤ) : ℚ) - value y = -(r - -value y) := by
      simp only [UnpackedFloat.Sign.apply, Int.cast_neg, Int.cast_natCast]
      ring
    rw [hx', hy', abs_neg, abs_neg]
    exact hside (.inr rfl)

end Spacing

end FormulaDrawing.Number
