import FormulaDrawing.Expression.Value
import FormulaDrawing.Number.Numeral
import FormulaDrawing.Proofs.Number.Shortest

/-! What is written into a drawing for a number: an integer numeral. It is the nearest integer as long as
the doubles lie close enough, and beyond that an integer that stands for the same double. -/

namespace FormulaDrawing.Number

open Float.Model

variable {s : UnpackedFloat.Sign} {m n v : Nat} {e : Int} {k : ℤ} {x y : Float} {ds : List Char}

/-- Digits without a zero in front. -/
structure IsNumeral (ds : List Char) : Prop where
  digits : ds.all Char.isDigit = true
  leading : ds.head?.any (· != '0') = true

/-- The text of an integer: zero has no sign, and no other integer has a zero in front. -/
inductive Writes : ℤ → List Char → Prop
  | zero : Writes 0 ['0']
  | positive {ds : List Char} (h : IsNumeral ds) : Writes (digitsValue ds) ds
  | negative {ds : List Char} (h : IsNumeral ds) : Writes (-digitsValue ds) ('-' :: ds)

theorem Writes.unique {k k' : ℤ} (h : Writes k ds) (h' : Writes k' ds) : k = k' := by
  cases h with
  | zero =>
    cases h' with
    | zero => rfl
    | positive h' => exact nomatch h'.leading
  | positive h =>
    cases h' with
    | zero => exact nomatch h.leading
    | positive => rfl
    | negative => exact nomatch h.digits
  | negative h =>
    cases h' with
    | positive h' => exact nomatch h'.digits
    | negative => rfl

section Digits

theorem digitsValue_eq (ds : List Char) : digitsValue ds = Nat.ofDigitChars 10 ds 0 := rfl

theorem leading_toDigits (hn : 0 < n) : (Nat.toDigits 10 n).head?.any (· != '0') = true := by
  induction n using Nat.strongRecOn with
  | ind n ih =>
    rcases lt_or_ge n 10 with hlt | hge
    · rw [Nat.toDigits_of_lt_base hlt]
      interval_cases n <;> decide
    · obtain ⟨c, hc, hne⟩ := (Option.any_eq_true _ _).1 (ih (n / 10) (by omega) (by omega))
      rw [Nat.toDigits_of_base_le (by decide) hge, List.head?_append, hc]
      exact hne

theorem isNumeral_toDigits_append (hn : 0 < n) (p : ℕ) :
    IsNumeral (Nat.toDigits 10 n ++ List.replicate p '0') ∧
      digitsValue (Nat.toDigits 10 n ++ List.replicate p '0') = n * 10 ^ p := by
  refine ⟨⟨List.all_eq_true.2 fun c hc => ?_, ?_⟩, ?_⟩
  · rcases List.mem_append.1 hc with hc | hc
    · exact Nat.isDigit_of_mem_toDigits (by decide) (by decide) hc
    · rw [(List.mem_replicate.1 hc).2]
      rfl
  · obtain ⟨c, hc, hne⟩ := (Option.any_eq_true _ _).1 (leading_toDigits hn)
    rw [List.head?_append, hc]
    exact hne
  · rw [digitsValue_eq, Nat.ofDigitChars_append, Nat.ofDigitChars_ten_toDigits,
      Nat.ofDigitChars_replicate_zero, Nat.mul_comm]

theorem writes_apply (h : IsNumeral ds) (s : UnpackedFloat.Sign) :
    Writes (s.apply (digitsValue ds)) (signText s ++ ds) := by
  cases s with
  | positive => exact .positive h
  | negative => exact .negative h

end Digits

section Text

theorem writes_text_of_integer {hm : 0 < m} (hx : x.toModel.unpack = .finite s m e hm)
    (hv : (m * 2 ^ e : ℚ) = v) : ∃ r : ℕ, Writes (s.apply r) (text x).toList ∧
      (v < 2 ^ 54 → r = v) ∧ ∀ y : Float, y.isFinite = true →
        |((s.apply r : ℤ) : ℚ) - value x| ≤ |((s.apply r : ℤ) : ℚ) - value y| := by
  obtain ⟨d, p, hshortest, hd, hlow, hhigh, hsmall⟩ :=
    shortest_of_integer (canonical_of_unpack_eq hx) hm hv
  obtain ⟨hnumeral, hvalue⟩ := isNumeral_toDigits_append hd p
  refine ⟨d * 10 ^ p, ?_, hsmall, fun y hy => nearest_of_between hx hlow hhigh hy⟩
  have htext : (text x).toList = signText s ++ (Nat.toDigits 10 d ++ List.replicate p '0') := by
    rw [text, String.toList_ofList, chars, hx]
    dsimp only
    rw [hshortest, Decimal.text, if_pos (Int.natCast_nonneg p), Int.toNat_natCast]
  rw [htext, ← hvalue]
  exact writes_apply hnumeral s

theorem beq_zero_iff (h : x.isFinite = true) : (x == 0) = true ↔ value x = 0 := by
  have hbeq : (x == 0) = x.toModel.unpack.beq (.zero .positive) := by
    have hpacked : (0 : Float).toModel = .pack (.zero .positive) := by decide +kernel
    rw [← unpack_pack_zero, ← hpacked]
    rfl
  rw [hbeq]
  rcases isFinite_cases h with ⟨s, hx⟩ | ⟨s, m, e, hm, hx, hc⟩
  · rw [hx, value_of_zero hx]
    exact iff_of_true rfl rfl
  · rw [hx, value_of_finite hx]
    refine iff_of_false ?_ ?_
    · cases s <;> exact nofun
    · have hpos : (0 : ℚ) < 2 ^ e := by positivity
      cases s <;> simp [UnpackedFloat.Sign.apply, hpos.ne', hm.ne']

theorem natAbs_of_value (hvalue : ((s.apply m : ℤ) * 2 ^ e : ℚ) = k) :
    (m * 2 ^ e : ℚ) = k.natAbs ∧ k = s.apply k.natAbs := by
  have hnonneg : (0 : ℚ) ≤ m * 2 ^ e := by positivity
  cases s with
  | positive =>
    have hvalue : (m * 2 ^ e : ℚ) = k := by simpa [UnpackedFloat.Sign.apply] using hvalue
    have hk : 0 ≤ k := by
      rw [hvalue] at hnonneg
      exact_mod_cast hnonneg
    have habs : (k.natAbs : ℤ) = k := Int.natAbs_of_nonneg hk
    refine ⟨?_, habs.symm⟩
    rw [hvalue, ← Int.cast_natCast, habs]
  | negative =>
    have hvalue : (m * 2 ^ e : ℚ) = (-k : ℤ) := by
      rw [Int.cast_neg, ← hvalue]
      simp [UnpackedFloat.Sign.apply]
    have hk : 0 ≤ -k := by
      rw [hvalue] at hnonneg
      exact_mod_cast hnonneg
    have habs : (k.natAbs : ℤ) = -k := by rw [← Int.natAbs_neg, Int.natAbs_of_nonneg hk]
    refine ⟨?_, by rw [UnpackedFloat.Sign.apply, habs, neg_neg]⟩
    rw [hvalue, ← Int.cast_natCast, habs]

end Text

end FormulaDrawing.Number

namespace FormulaDrawing

open Number

/-- What is written for a finite number. The nearest integer is a double, and what is written is an integer
to which no double is nearer than that one; below `2 ^ 54` it is that integer. -/
theorem Value.inscription_of_finite {x : Float} (h : x.isFinite = true) :
    ∃ n k : ℤ, NearestEven (value x) n ∧ Writes k (Value.number x).inscription.toList ∧
      (|n| < 2 ^ 54 → k = n) ∧ (∃ y : Float, y.isFinite = true ∧ value y = n) ∧
      ∀ y : Float, y.isFinite = true → |(k : ℚ) - n| ≤ |k - value y| := by
  obtain ⟨hfinite, n, hvalue, hnearest⟩ := nearestEven_round h
  by_cases hzero : (Rounding.nearestEven.round x == 0) = true
  · have hn : n = 0 := by
      have := (beq_zero_iff hfinite).1 hzero
      rw [hvalue] at this
      exact_mod_cast this
    subst hn
    refine ⟨0, 0, hnearest, ?_, fun _ => rfl, ⟨_, hfinite, hvalue⟩, fun y _ => by simp⟩
    rw [Value.inscription, if_pos hzero]
    exact .zero
  · rcases isFinite_cases hfinite with ⟨s, hx⟩ | ⟨s, m, e, hm, hx, hc⟩
    · exact absurd ((beq_zero_iff hfinite).2 (value_of_zero hx)) hzero
    · obtain ⟨hv, hn⟩ := natAbs_of_value ((value_of_finite hx).symm.trans hvalue)
      obtain ⟨r, hwrites, hsmall, hnear⟩ := writes_text_of_integer hx hv
      rw [hvalue] at hnear
      refine ⟨n, s.apply r, hnearest, ?_, fun hlt => ?_, ⟨_, hfinite, hvalue⟩, hnear⟩
      · rw [Value.inscription, if_neg hzero]
        exact hwrites
      · have habs := Int.natCast_natAbs n
        rw [hsmall (by omega), ← hn]

end FormulaDrawing
