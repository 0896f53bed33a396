import FormulaDrawing.Price
import FormulaDrawing.Proofs.Expression.Finiteness

/-! What a price formula can come to. Literals, operations and calls are checked on their way, but its two
variables are not: a formula that is one of them, after any number of signs, passes on what it is given. -/

namespace FormulaDrawing.Price

open Number

/-- What a price can be raised by. -/
def Usable (x : Float) : Prop := x.isFinite = true ∧ 0 ≤ x

/-- The formula is a variable with signs in front of it, which is not finite and comes to this. -/
def LetsThrough (f : String) (customValue soFar x : Float) : Prop :=
  ∃ k n y, Expression.parse {} f = .ok (Expr.neg^[k] (.name n)) ∧
    (vars customValue soFar).find? n = some (.number y) ∧ y.isFinite = false ∧
    x = Neg.neg^[k] y ∧ ¬ x < 0

variable {text f n : String} {customValue soFar extra x y : Float} {v : Value}

theorem find?_vars (h : (vars customValue soFar).find? n = some v) :
    v = .number customValue ∨ v = .number soFar := by
  rw [vars, Variables.find?, List.lookup_cons] at h
  split at h
  next => exact .inl (Option.some.inj h).symm
  next =>
    rw [List.lookup_cons] at h
    split at h
    next => exact .inr (Option.some.inj h).symm
    next => cases h

theorem allFinite_vars (hcustom : customValue.isFinite = true) (hsoFar : soFar.isFinite = true) :
    (vars customValue soFar).AllFinite := by
  intro n v hv
  rcases find?_vars hv with rfl | rfl
  · exact ⟨_, rfl, hcustom⟩
  · exact ⟨_, rfl, hsoFar⟩

theorem number_of_evaluate (h : evaluate {} (vars customValue soFar) f = .ok v) :
    (∃ x, v = .number x ∧ x.isFinite = true) ∨
      ∃ k n y, Expression.parse {} f = .ok (Expr.neg^[k] (.name n)) ∧
        (vars customValue soFar).find? n = some (.number y) ∧ y.isFinite = false ∧
        v = .number (Neg.neg^[k] y) := by
  rw [evaluate, bind_eq_ok_iff] at h
  obtain ⟨e, hparse, heval⟩ := h
  rcases Expr.isFinite_or_signed heval with ⟨x, hx⟩ | ⟨k, n, w, rfl, hw, hfinite⟩
  · exact .inl ⟨x, hx⟩
  obtain ⟨y, rfl⟩ : ∃ y, w = .number y := by
    rcases find?_vars hw with h | h
    · exact ⟨_, h⟩
    · exact ⟨_, h⟩
  have hvalue := Except.ok.inj (heval.symm.trans (Expr.eval_signed hw k))
  refine .inr ⟨k, n, y, hparse, hw, ?_, hvalue⟩
  exact Bool.eq_false_iff.2 fun hy => hfinite ⟨y, rfl, hy⟩

theorem usable_of_isFinite (h : x.isFinite = true) : Usable (if x < 0 then 0 else x) := by
  split
  next => exact ⟨by decide +kernel, by decide +kernel⟩
  next hx => exact ⟨h, nonneg_of_isFinite h hx⟩

theorem isFinite_signs_iff (k : ℕ) :
    (Neg.neg^[k] y : Float).isFinite = true ↔ y.isFinite = true := by
  induction k with
  | zero => rfl
  | succ k ih => rw [Function.iterate_succ_apply', isFinite_neg_iff, ih]

theorem increment_cases (h : Text.nonBlank? text = some f) (extra customValue soFar : Float) :
    (∃ x, evaluate {} (vars customValue soFar) f = .ok (.number x) ∧
      increment (some text) extra customValue soFar = .ok (if x < 0 then 0 else x)) ∨
    ∃ cause, evaluate {} (vars customValue soFar) f = .error cause ∧
      increment (some text) extra customValue soFar = .error (.evaluation f cause) := by
  have hincrement : (some text).bind Text.nonBlank? = some f := h
  rw [increment, hincrement]
  dsimp only
  cases heval : evaluate {} (vars customValue soFar) f with
  | error cause => exact .inr ⟨cause, rfl, rfl⟩
  | ok v =>
    rcases number_of_evaluate heval with ⟨x, rfl, -⟩ | ⟨k, n, y, -, -, -, rfl⟩
    · exact .inl ⟨x, rfl, rfl⟩
    · exact .inl ⟨_, rfl, rfl⟩

theorem letsThrough_of_not_usable (h : evaluate {} (vars customValue soFar) f = .ok (.number x))
    (hx : ¬ Usable (if x < 0 then 0 else x)) :
    LetsThrough f customValue soFar (if x < 0 then 0 else x) := by
  rcases number_of_evaluate h with ⟨y, hy, hfinite⟩ | ⟨k, n, y, hparse, hfind, hfinite, hy⟩
  · cases hy
    exact absurd (usable_of_isFinite hfinite) hx
  · obtain rfl := Value.number.inj hy
    have hsign : ¬ Neg.neg^[k] y < 0 := fun hsign => hx (by
      rw [if_pos hsign]
      exact ⟨by decide +kernel, by decide +kernel⟩)
    rw [if_neg hsign]
    exact ⟨k, n, y, hparse, hfind, hfinite, rfl, hsign⟩

theorem LetsThrough.not_usable (h : LetsThrough f customValue soFar x) : ¬ Usable x := by
  obtain ⟨k, n, y, -, -, hfinite, rfl, -⟩ := h
  intro husable
  rw [(isFinite_signs_iff k).1 husable.1] at hfinite
  cases hfinite

theorem LetsThrough.evaluate (h : LetsThrough f customValue soFar x) :
    evaluate {} (vars customValue soFar) f = .ok (.number x) := by
  obtain ⟨k, n, y, hparse, hfind, -, rfl, -⟩ := h
  rw [FormulaDrawing.evaluate, hparse]
  exact Expr.eval_signed hfind k

/-- A formula that is not blank raises the price by a number or fails with its trimmed text and the cause.
The number is finite and not negative, unless the formula is a variable with signs in front of it that
comes to something not finite and not negative; of finite numbers none does. -/
theorem increment_of_nonBlank (h : Text.nonBlank? text = some f) (extra customValue soFar : Float) :
    ((∃ x, increment (some text) extra customValue soFar = .ok x) ∨
      ∃ cause, evaluate {} (vars customValue soFar) f = .error cause ∧
        increment (some text) extra customValue soFar = .error (.evaluation f cause)) ∧
    (∀ x, (increment (some text) extra customValue soFar = .ok x ∧ ¬ Usable x) ↔
      LetsThrough f customValue soFar x) ∧
    (customValue.isFinite = true → soFar.isFinite = true →
      ∀ x, increment (some text) extra customValue soFar = .ok x → Usable x) := by
  have hthrough : ∀ x, (increment (some text) extra customValue soFar = .ok x ∧ ¬ Usable x) ↔
      LetsThrough f customValue soFar x := by
    rcases increment_cases h extra customValue soFar with ⟨y, heval, hy⟩ | ⟨cause, heval, hcause⟩
    · refine fun x => ⟨fun ⟨hx, husable⟩ => ?_, fun hx => ⟨?_, hx.not_usable⟩⟩
      · obtain rfl := Except.ok.inj (hy.symm.trans hx)
        exact letsThrough_of_not_usable heval husable
      · obtain rfl : x = y := by simpa [heval] using hx.evaluate.symm
        obtain ⟨-, -, -, -, -, -, -, hsign⟩ := hx
        rw [hy, if_neg hsign]
    · refine fun x => ⟨fun ⟨hx, _⟩ => ?_, fun hx => ?_⟩
      · cases hcause.symm.trans hx
      · cases heval.symm.trans hx.evaluate
  refine ⟨?_, hthrough, fun hcustom hsoFar x hx => ?_⟩
  · exact (increment_cases h extra customValue soFar).imp (fun ⟨_, _, hx⟩ => ⟨_, hx⟩) id
  · by_contra husable
    obtain ⟨k, n, y, -, hfind, hfinite, -, -⟩ := (hthrough x).1 ⟨hx, husable⟩
    obtain ⟨z, hz, hy⟩ := allFinite_vars hcustom hsoFar n _ hfind
    cases hz
    rw [hy] at hfinite
    cases hfinite

/-- Of a finite number the formula makes a price; an infinite one it passes on behind two signs. -/
theorem increment_of_signs :
    Text.nonBlank? " --custom_value " = some "--custom_value" ∧
      increment (some " --custom_value ") 1 2.5 0 = .ok 2.5 ∧ Usable 2.5 ∧
      increment (some " --custom_value ") 1 (1 / 0) 0 = .ok (1 / 0) ∧ ¬ Usable (1 / 0) ∧
      LetsThrough "--custom_value" (1 / 0) 0 (1 / 0) := by
  have htext : Text.nonBlank? " --custom_value " = some "--custom_value" := by decide +kernel
  have hfinite : increment (some " --custom_value ") 1 2.5 0 = .ok 2.5 := by decide +kernel
  have husable : Usable 2.5 := (increment_of_nonBlank htext 1 2.5 0).2.2 (by decide +kernel)
    (by decide +kernel) _ hfinite
  have hinfinite : increment (some " --custom_value ") 1 (1 / 0) 0 = .ok (1 / 0) := by decide +kernel
  have hnot : ¬ Usable (1 / 0) := fun h => absurd h.1 (by decide +kernel)
  have hthrough := ((increment_of_nonBlank htext 1 (1 / 0) 0).2.1 (1 / 0)).1 ⟨hinfinite, hnot⟩
  exact ⟨htext, hfinite, husable, hinfinite, hnot, hthrough⟩

/-- What is not a number goes through as the price. -/
theorem increment_not_usable :
    ¬ ∀ (text f : String) (extra customValue soFar : Float), Text.nonBlank? text = some f →
      (∃ x, increment (some text) extra customValue soFar = .ok x ∧ Usable x) ∨
        ∃ cause, increment (some text) extra customValue soFar = .error (.evaluation f cause) := by
  intro h
  have hok : increment (some "custom_value") 0 (0 / 0) 0 = .ok (0 / 0) := by decide +kernel
  rcases h "custom_value" "custom_value" 0 (0 / 0) 0 (by decide +kernel) with ⟨x, hx, husable⟩ | ⟨cause, hx⟩
  · obtain rfl := Except.ok.inj (hok.symm.trans hx)
    exact absurd husable.1 (by decide +kernel)
  · cases hok.symm.trans hx

end FormulaDrawing.Price
