import FormulaDrawing.Proofs.Expression.Sandbox
import FormulaDrawing.Proofs.Number.Double

/-! Evaluation stays among the finite numbers. Literals, operations and calls check their results, signs
keep a number finite, and a text can only come from a variable. -/

namespace FormulaDrawing

open Expression Number

def Value.IsFinite (v : Value) : Prop := ∃ x : Float, v = .number x ∧ x.isFinite = true

/-- Each variable is a finite number. -/
def Variables.AllFinite (vs : Variables) : Prop := ∀ n v, vs.find? n = some v → v.IsFinite

namespace Expression

variable {vs : Variables} {n : String} {v : Value} {f : Function} {xs : List Float} {x y : Float}

theorem isFinite_of_finite_eq_ok (h : finite x = .ok y) : y.isFinite = true := by
  rw [finite] at h
  split at h
  next hx =>
    cases h
    exact hx
  next => cases h

theorem isFinite_of_operator {op : Operator} {z : Float} (h : op.apply x y = .ok z) :
    z.isFinite = true := by
  cases op with
  | add => exact isFinite_of_finite_eq_ok h
  | sub => exact isFinite_of_finite_eq_ok h
  | mul => exact isFinite_of_finite_eq_ok h
  | div =>
    rw [Operator.apply] at h
    split at h
    next => cases h
    next => exact isFinite_of_finite_eq_ok h

theorem isFinite_of_not (hnan : ¬ x.isNaN = true) (hinf : ¬ x.isInf = true) : x.isFinite = true := by
  have hnan : ¬ x.toModel.unpack.isNaN = true := hnan
  have hinf : ¬ x.toModel.unpack.isInf = true := hinf
  have hfinite : x.toModel.unpack.isFinite = true := by
    cases hx : x.toModel.unpack with
    | notANumber => rw [hx] at hnan; exact absurd rfl hnan
    | infinity s => rw [hx] at hinf; exact absurd rfl hinf
    | zero s => rfl
    | finite s m e hm => rfl
  exact hfinite

theorem isFinite_of_function (h : f.apply xs = .ok y) : y.isFinite = true := by
  rw [Function.apply] at h
  split at h
  next =>
    split at h
    next => cases h
    next z _ =>
      split at h
      next => cases h
      next hnan =>
        split at h
        next => cases h
        next hinf =>
          cases h
          exact isFinite_of_not hnan hinf
  next => cases h

theorem isFinite_of_constant (h : constant? n = some x) : x.isFinite = true := by
  rw [constant?] at h
  split_ifs at h <;> obtain rfl := Option.some.inj h <;> decide +kernel

theorem isFinite_or_of_readName (h : readName vs n = .ok v) :
    v.IsFinite ∨ ∃ w, vs.find? n = some w ∧ ¬ w.IsFinite := by
  unfold readName at h
  split at h
  next hv =>
    cases h
    by_cases hfinite : v.IsFinite
    · exact .inl hfinite
    · exact .inr ⟨v, hv, hfinite⟩
  next x _ hx =>
    cases h
    exact .inl ⟨_, rfl, isFinite_of_constant hx⟩
  next => split at h <;> cases h

end Expression

namespace Expr

variable {vs : Variables} {e : Expr} {v : Value}

theorem isFinite_or_signed (h : e.eval vs = .ok v) :
    v.IsFinite ∨ ∃ k n w, e = neg^[k] (.name n) ∧ vs.find? n = some w ∧ ¬ w.IsFinite := by
  induction e using induct generalizing v with
  | step e ih =>
    cases e with
    | number x =>
      rw [eval] at h
      cases hx : finite x with
      | error cause => rw [hx] at h; cases h
      | ok y =>
        rw [hx] at h
        cases h
        exact .inl ⟨y, rfl, isFinite_of_finite_eq_ok hx⟩
    | name n =>
      rcases isFinite_or_of_readName h with hfinite | ⟨w, hw, hfinite⟩
      · exact .inl hfinite
      · exact .inr ⟨0, n, w, rfl, hw, hfinite⟩
    | neg e =>
      rw [eval] at h
      obtain ⟨x, hx, h⟩ := operand_eq_ok h
      cases h
      -- A sign is the one operation whose result is not checked, so the exception goes on.
      rcases ih e (List.mem_singleton_self e) hx with ⟨y, hy, hfinite⟩ | ⟨k, n, w, rfl, hw, hfinite⟩
      · cases hy
        exact .inl ⟨-x, rfl, isFinite_neg hfinite⟩
      · exact .inr ⟨k + 1, n, w, (Function.iterate_succ_apply' neg k _).symm, hw, hfinite⟩
    | binary op l r =>
      rw [eval] at h
      obtain ⟨x, -, h⟩ := operand_eq_ok h
      obtain ⟨y, -, h⟩ := operand_eq_ok h
      rw [bind_eq_ok_iff] at h
      obtain ⟨z, hz, h⟩ := h
      cases h
      exact .inl ⟨z, rfl, isFinite_of_operator hz⟩
    | call f args =>
      rw [eval, bind_eq_ok_iff] at h
      obtain ⟨g, -, h⟩ := h
      rw [bind_eq_ok_iff] at h
      obtain ⟨xs, -, h⟩ := h
      rw [bind_eq_ok_iff] at h
      obtain ⟨y, hy, h⟩ := h
      cases h
      exact .inl ⟨y, rfl, isFinite_of_function hy⟩

/-- Over finite numbers an expression has a finite number for a value or none at all. -/
theorem isFinite_of_eval (hvs : vs.AllFinite) (h : e.eval vs = .ok v) : v.IsFinite := by
  rcases isFinite_or_signed h with hfinite | ⟨-, n, w, -, hw, hfinite⟩
  · exact hfinite
  · exact absurd (hvs n w hw) hfinite

theorem eval_signed {n : String} {x : Float} (h : vs.find? n = some (.number x)) (k : ℕ) :
    (neg^[k] (.name n)).eval vs = .ok (.number (Neg.neg^[k] x)) := by
  induction k with
  | zero => rw [Function.iterate_zero_apply, eval, readName, h]; rfl
  | succ k ih => rw [Function.iterate_succ_apply', eval, ih, Function.iterate_succ_apply']; rfl

end Expr

end FormulaDrawing
