import FormulaDrawing.Number.Text
import FormulaDrawing.Proofs.Number.Rounding

/-! The shortest decimal of an integer. The grid of the integers holds the integer itself, so that no grid
of fractions is tried and the decimal is an integer, too; it rounds to the same double, and is the same
integer as long as the doubles are at most two apart. -/

namespace FormulaDrawing.Number

variable {m d v : Nat} {e p : Int} {c : Cell}

section Cell

theorem commonUnit_pos (exponent power : Int) : 0 < (commonUnit exponent power).2 :=
  Nat.mul_pos (Nat.pow_pos (by decide)) (Nat.pow_pos (by decide))

theorem zpow_toNat {b : ℚ} (hb : b ≠ 0) (k : Int) : b ^ k = b ^ k.toNat / b ^ (-k).toNat := by
  rw [← zpow_natCast, ← zpow_natCast, ← zpow_sub₀ hb]
  congr 1
  omega

theorem commonUnit_eq (exponent power : Int) : ∃ u : ℚ, 0 < u ∧
    ((commonUnit exponent power).1 : ℚ) = u * 2 ^ exponent ∧
      ((commonUnit exponent power).2 : ℚ) = u * 10 ^ power := by
  refine ⟨2 ^ (-exponent).toNat * 10 ^ (-power).toNat, by positivity, ?_, ?_⟩
  · rw [zpow_toNat (by norm_num) exponent]
    simp only [commonUnit, Nat.pow_eq]
    push_cast
    field_simp
  · rw [zpow_toNat (by norm_num) power]
    simp only [commonUnit, Nat.pow_eq]
    push_cast
    field_simp

theorem holds_iff : c.holds p d = true ↔
    if c.closed then (c.low * 2 ^ c.exponent : ℚ) ≤ d * 10 ^ p ∧ (d * 10 ^ p : ℚ) ≤ c.high * 2 ^ c.exponent
    else (c.low * 2 ^ c.exponent : ℚ) < d * 10 ^ p ∧ (d * 10 ^ p : ℚ) < c.high * 2 ^ c.exponent := by
  obtain ⟨u, hu, ha, hb⟩ := commonUnit_eq c.exponent p
  rw [Cell.holds]
  dsimp only
  generalize (commonUnit c.exponent p).1 = a, (commonUnit c.exponent p).2 = b at *
  have hunit (x : ℕ) : (x * 2 ^ c.exponent * u : ℚ) = x * a := by rw [ha]; ring
  have hten : (d * 10 ^ p * u : ℚ) = d * b := by rw [hb]; ring
  cases c.closed with
  | true =>
    rw [if_pos rfl, if_pos rfl, Bool.and_eq_true, decide_eq_true_eq, decide_eq_true_eq]
    refine and_congr ?_ ?_ <;>
    · rw [← mul_le_mul_iff_left₀ hu, hunit, hten]
      norm_cast
  | false =>
    rw [if_neg Bool.false_ne_true, if_neg Bool.false_ne_true, Bool.and_eq_true, decide_eq_true_eq,
      decide_eq_true_eq]
    refine and_congr ?_ ?_ <;>
    · rw [← mul_lt_mul_iff_left₀ hu, hunit, hten]
      norm_cast

theorem holds_bounds (h : c.holds p d = true) :
    (c.low * 2 ^ c.exponent : ℚ) ≤ d * 10 ^ p ∧ (d * 10 ^ p : ℚ) ≤ c.high * 2 ^ c.exponent := by
  have hbounds := holds_iff.1 h
  split at hbounds
  · exact hbounds
  · exact hbounds.imp le_of_lt le_of_lt

theorem holds_of_hit? (h : c.hit? p = some d) : c.holds p d = true := by
  rw [Cell.hit?] at h
  dsimp only at h
  split at h
  next hd hd' =>
    obtain rfl := Option.some.inj h
    split
    · exact hd
    · exact hd'
  next hd _ => exact Option.some.inj h ▸ hd
  next _ hd' => exact Option.some.inj h ▸ hd'
  next => cases h

theorem hit?_of_eq (hlow : c.low < c.value) (hhigh : c.value < c.high)
    (h : (d * 10 ^ p : ℚ) = c.value * 2 ^ c.exponent) : c.hit? p = some d := by
  have hholds : c.holds p d = true := by
    have hpos : (0 : ℚ) < 2 ^ c.exponent := by positivity
    have hl : (c.low * 2 ^ c.exponent : ℚ) < c.value * 2 ^ c.exponent := by gcongr
    have hh : (c.value * 2 ^ c.exponent : ℚ) < c.high * 2 ^ c.exponent := by gcongr
    rw [holds_iff, h]
    split
    · exact ⟨hl.le, hh.le⟩
    · exact ⟨hl, hh⟩
  have hscaled : c.value * (commonUnit c.exponent p).1 = d * (commonUnit c.exponent p).2 := by
    obtain ⟨u, -, hua, hub⟩ := commonUnit_eq c.exponent p
    have : (c.value * (commonUnit c.exponent p).1 : ℚ) = d * (commonUnit c.exponent p).2 := by
      rw [hua, hub, mul_left_comm, ← h]
      ring
    exact_mod_cast this
  have hdiv : c.value * (commonUnit c.exponent p).1 / (commonUnit c.exponent p).2 = d := by
    rw [hscaled, Nat.mul_div_cancel _ (commonUnit_pos c.exponent p)]
  rw [Cell.hit?]
  dsimp only
  rw [hdiv, hholds]
  cases c.holds p (d + 1) with
  | false => rfl
  | true =>
    dsimp only
    rw [if_pos]
    rw [hscaled, Nat.sub_self, Nat.add_mul, Nat.one_mul, Nat.add_sub_cancel_left]
    exact commonUnit_pos c.exponent p

theorem firstHit_cases (c : Cell) (exact : Decimal) (n : Nat) :
    (firstHit c exact n = exact ∧ ∀ k, 0 < k → k ≤ n → c.hit? (exact.power + k) = none) ∨
      ∃ d k, 0 < k ∧ k ≤ n ∧ firstHit c exact n = ⟨d, exact.power + k⟩ ∧
        c.hit? (exact.power + k) = some d ∧
        ∀ j, k < j → j ≤ n → c.hit? (exact.power + j) = none := by
  induction n with
  | zero => exact .inl ⟨rfl, fun k hk hn => absurd hn (by omega)⟩
  | succ n ih =>
    rw [firstHit]
    cases hhit : c.hit? (exact.power + (n + 1)) with
    | some d =>
      refine .inr ⟨d, n + 1, n.succ_pos, le_refl _, rfl, ?_, fun j hj hn => absurd hn (by omega)⟩
      exact_mod_cast hhit
    | none =>
      have hlast : c.hit? (exact.power + ((n + 1 : ℕ) : Int)) = none := by exact_mod_cast hhit
      dsimp only
      rcases ih with ⟨hexact, hnone⟩ | ⟨d, k, hk, hn, hfirst, hd, hnone⟩
      · refine .inl ⟨hexact, fun k hk hn => ?_⟩
        rcases Nat.lt_or_eq_of_le hn with hlt | rfl
        · exact hnone k hk (by omega)
        · exact hlast
      · refine .inr ⟨d, k, hk, by omega, hfirst, hd, fun j hj hn => ?_⟩
        rcases Nat.lt_or_eq_of_le hn with hlt | rfl
        · exact hnone j hj (by omega)
        · exact hlast

end Cell

section Shortest

theorem low_cell_lt (hm : 0 < m) (e : Int) :
    0 < (Cell.of m e).low ∧ (Cell.of m e).low < (Cell.of m e).value := by
  simp only [Cell.of]
  split <;> omega

theorem cell_bounds (hm : 0 < m) (e : Int) :
    ((Cell.of m e).low * 2 ^ (Cell.of m e).exponent : ℚ) = m * 2 ^ e - gapBelow m e / 2 ∧
      ((Cell.of m e).value * 2 ^ (Cell.of m e).exponent : ℚ) = m * 2 ^ e ∧
      ((Cell.of m e).high * 2 ^ (Cell.of m e).exponent : ℚ) = m * 2 ^ e + 2 ^ e / 2 := by
  have hquarter : (2 : ℚ) ^ e = 4 * 2 ^ (e - 2) := by
    rw [zpow_eq_mul (by omega : e - 2 ≤ e), show (e - (e - 2)).toNat = 2 by omega]
    norm_num
  have hhalf : (2 : ℚ) ^ (e - 1) = 2 * 2 ^ (e - 2) := by
    rw [zpow_eq_mul (by omega : e - 2 ≤ e - 1), show (e - 1 - (e - 2)).toNat = 1 by omega]
    norm_num
  have hgap : gapBelow m e =
      if m = 0x10000000000000 ∧ e ≠ -1074 then (2 : ℚ) ^ (e - 1) else 2 ^ e := rfl
  refine ⟨?_, ?_, ?_⟩
  · by_cases hpower : m = 0x10000000000000 ∧ e ≠ -1074
    · simp only [Cell.of, hgap, if_pos hpower]
      rw [Nat.cast_sub (by omega), hquarter, hhalf]
      push_cast
      ring
    · simp only [Cell.of, hgap, if_neg hpower]
      rw [Nat.cast_sub (by omega), hquarter]
      push_cast
      ring
  · simp only [Cell.of]
    rw [hquarter]
    push_cast
    ring
  · simp only [Cell.of]
    rw [hquarter]
    push_cast
    ring

theorem hit?_cell_of_integer (hm : 0 < m) (hv : (m * 2 ^ e : ℚ) = v) : (Cell.of m e).hit? 0 = some v := by
  obtain ⟨-, hlow⟩ := low_cell_lt hm e
  obtain ⟨-, hvalue, -⟩ := cell_bounds hm e
  refine hit?_of_eq hlow (by simp [Cell.of]) ?_
  rw [hvalue, hv, zpow_zero, mul_one]

theorem coarsest_nonneg {v : ℕ} (hm : 0 < m) (hv : (m * 2 ^ e : ℚ) = v) :
    0 ≤ coarsest (m.log2 + 1 + e) := by
  have hbits : 0 ≤ (m.log2 + 1 + e : Int) := by
    by_contra hneg
    have hone : (1 : ℚ) ≤ v := by
      have hpos : (0 : ℚ) < v := by rw [← hv]; positivity
      have : 0 < v := by exact_mod_cast hpos
      exact_mod_cast this
    have hsmall : (m * 2 ^ e : ℚ) < 1 := by
      have hwidth : (m : ℚ) < 2 ^ (m.log2 + 1) := by exact_mod_cast Nat.lt_log2_self
      calc (m * 2 ^ e : ℚ) < 2 ^ (m.log2 + 1) * 2 ^ e := by gcongr
        _ = 2 ^ ((m.log2 + 1 : ℕ) + e : Int) := by rw [zpow_add₀ (by norm_num), zpow_natCast]
        _ ≤ 2 ^ (0 : Int) := zpow_le_zpow_right₀ (by norm_num) (by push_cast; omega)
        _ = 1 := zpow_zero _
    linarith
  rw [coarsest, if_pos hbits]
  omega

theorem exactDecimal_power (m : Nat) (e : Int) : (exactDecimal m e).power = min e 0 := by
  rw [exactDecimal]
  split
  next he => exact (min_eq_right he).symm
  next he => exact (min_eq_left (le_of_not_ge he)).symm

theorem natCast_mul_zpow (m : Nat) (he : 0 ≤ e) : (m * 2 ^ e : ℚ) = (m * 2 ^ e.toNat : ℕ) := by
  rw [zpow_eq_mul he, sub_zero, zpow_zero, mul_one, Nat.cast_mul]

theorem shortest_cases (hm : 0 < m) (hv : (m * 2 ^ e : ℚ) = v) :
    (0 ≤ e ∧ shortest m e = ⟨v, 0⟩) ∨
      ∃ d p : ℕ, shortest m e = ⟨d, p⟩ ∧ (Cell.of m e).hit? p = some d ∧ (0 < e → 0 < p) := by
  have hcoarsest := coarsest_nonneg hm hv
  have hpower := exactDecimal_power m e
  have hinteger := hit?_cell_of_integer hm hv
  rw [shortest]
  rcases firstHit_cases (Cell.of m e) (exactDecimal m e)
    (coarsest (m.log2 + 1 + e) - (exactDecimal m e).power).toNat with
    ⟨hexact, hnone⟩ | ⟨d, k, hk, hn, hfirst, hd, hnone⟩
  · by_cases he : 0 ≤ e
    · refine .inl ⟨he, ?_⟩
      rw [natCast_mul_zpow m he] at hv
      rw [hexact, exactDecimal, if_pos he, ← Nat.cast_injective hv]
      rfl
    · have hmiss := hnone (-e).toNat (by omega) (by omega)
      rw [hpower, show min e 0 + ((-e).toNat : Int) = 0 by omega, hinteger] at hmiss
      cases hmiss
  · right
    rw [hpower] at hn hfirst hd hnone ⊢
    by_cases hp : 0 ≤ min e 0 + (k : Int)
    · refine ⟨d, (min e 0 + (k : Int)).toNat, ?_, ?_, by omega⟩
      · rw [hfirst, Int.toNat_of_nonneg hp]
      · rw [Int.toNat_of_nonneg hp, hd]
    · have hmiss := hnone (-e).toNat (by omega) (by omega)
      rw [show min e 0 + ((-e).toNat : Int) = 0 by omega, hinteger] at hmiss
      cases hmiss

theorem le_one_of_lt (hc : Canonical m e) (hv : (m * 2 ^ e : ℚ) = v) (hsmall : v < 2 ^ 54) : e ≤ 1 := by
  by_contra hlarge
  have hfull : 2 ^ 52 ≤ m := hc.full.resolve_left (by omega)
  have hm : (2 : ℚ) ^ 52 ≤ m := by exact_mod_cast hfull
  have he : (2 : ℚ) ^ (2 : Int) ≤ 2 ^ e := zpow_le_zpow_right₀ (by norm_num) (by omega)
  have hbig : (2 : ℚ) ^ 54 ≤ v := by
    rw [← hv]
    calc (2 : ℚ) ^ 54 = 2 ^ 52 * 2 ^ (2 : Int) := by norm_num
      _ ≤ (m * 2 ^ e : ℚ) := by gcongr
  exact absurd hsmall (not_lt.2 (by exact_mod_cast hbig))

theorem eq_of_near {r : ℕ} (hv : (m * 2 ^ e : ℚ) = v) (he : e ≤ 1) (heven : 0 < e → 2 ∣ r)
    (hnear : |(r : ℚ) - v| ≤ 2 ^ e / 2) : r = v := by
  rcases lt_or_ge 0 e with hpos | hneg
  · obtain rfl : e = 1 := by omega
    obtain ⟨j, rfl⟩ := heven hpos
    have hvm : v = 2 * m := by
      have : m * 2 = v := by exact_mod_cast (zpow_one (2 : ℚ)) ▸ hv
      omega
    have hint : |((2 * j : ℕ) : ℤ) - v| ≤ 1 := by
      have : |((2 * j : ℕ) : ℚ) - v| ≤ 1 := by simpa using hnear
      exact_mod_cast this
    rw [abs_le] at hint
    omega
  · have hone : (2 : ℚ) ^ e ≤ 1 := zpow_le_one_of_nonpos₀ (by norm_num) hneg
    have hint : |(r : ℤ) - v| < 1 := by
      have : |(r : ℚ) - v| < 1 := by linarith
      exact_mod_cast this
    have := Int.abs_lt_one_iff.1 hint
    omega

theorem shortest_of_integer (hc : Canonical m e) (hm : 0 < m) (hv : (m * 2 ^ e : ℚ) = v) :
    ∃ d p : ℕ, shortest m e = ⟨d, p⟩ ∧ 0 < d ∧
      (m * 2 ^ e - gapBelow m e / 2 : ℚ) ≤ (d * 10 ^ p : ℕ) ∧
      ((d * 10 ^ p : ℕ) : ℚ) ≤ m * 2 ^ e + 2 ^ e / 2 ∧ (v < 2 ^ 54 → d * 10 ^ p = v) := by
  have hpos : (0 : ℚ) < 2 ^ e := by positivity
  rcases shortest_cases hm hv with ⟨he, hshortest⟩ | ⟨d, p, hshortest, hhit, hcoarse⟩
  · have hgap : 0 < gapBelow m e := by rw [gapBelow]; split <;> positivity
    have hvpos : (0 : ℚ) < v := by rw [← hv]; positivity
    refine ⟨v, 0, hshortest, by exact_mod_cast hvpos, ?_, ?_, fun _ => by simp⟩ <;>
    · rw [hv, pow_zero, mul_one]
      linarith
  · obtain ⟨hlow, hhigh⟩ := holds_bounds (holds_of_hit? hhit)
    obtain ⟨hcelllow, -, hcellhigh⟩ := cell_bounds hm e
    have hzpow : (d * 10 ^ (p : Int) : ℚ) = (d * 10 ^ p : ℕ) := by
      rw [zpow_natCast]
      push_cast
      rfl
    have hdpos : 0 < d := by
      have hlowpos : (0 : ℚ) < (Cell.of m e).low := by exact_mod_cast (low_cell_lt hm e).1
      have hdten : (0 : ℚ) < (d * 10 ^ p : ℕ) := by
        rw [← hzpow]
        exact lt_of_lt_of_le (by positivity) hlow
      exact Nat.pos_of_mul_pos_right (by exact_mod_cast hdten)
    rw [hzpow, hcelllow] at hlow
    rw [hzpow, hcellhigh] at hhigh
    refine ⟨d, p, hshortest, hdpos, hlow, hhigh, fun hsmall => ?_⟩
    have hdistance : |((d * 10 ^ p : ℕ) : ℚ) - v| ≤ 2 ^ e / 2 := by
      have hgap := gapBelow_le m e
      rw [← hv, abs_le]
      constructor <;> linarith
    -- Where doubles are two apart a coarser grid was hit, so the decimal is even like the value.
    refine eq_of_near hv (le_one_of_lt hc hv hsmall) (fun he => ?_) hdistance
    have hten : 10 ∣ 10 ^ p := dvd_pow_self 10 (ne_of_gt (hcoarse he))
    exact (Nat.dvd_trans (by decide) hten).mul_left d

end Shortest
end FormulaDrawing.Number
