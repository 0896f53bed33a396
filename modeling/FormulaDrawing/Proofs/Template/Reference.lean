import FormulaDrawing.Proofs.Attempt
import FormulaDrawing.Template.Basic

/-! The names that templates let through to their formulas. They are found by reading each expression
within the standard limits, and another reading of the same expression differs from that one only in
what its limits refuse. -/

namespace FormulaDrawing

open Expression

section Limits

variable {limits : Limits} {text : String} {e : Expr}

theorem parse_within (h : parse limits text = .ok e) (others : Limits) :
    parse others text = .ok e ∨
      (others.tokens < limits.tokens ∧ parse others text = .error (.tooLong others.tokens)) ∨
      (others.depth < limits.depth ∧ parse others text = .error (.tooDeep others.depth)) := by
  rw [parse, bind_eq_ok_iff] at h
  obtain ⟨ls, hls, h⟩ := h
  split at h
  · cases h
  next hshort =>
  split at h
  · cases h
  next hflat =>
  have hother : parse others text =
      if others.tokens < ls.length then .error (.tooLong others.tokens)
      else if others.depth < nesting (ls.map (·.token)) then .error (.tooDeep others.depth)
      else .ok e := by
    rw [parse, hls, ← h]
    rfl
  rw [hother]
  by_cases hlong : others.tokens < ls.length
  · rw [if_pos hlong]
    exact .inr (.inl ⟨by omega, rfl⟩)
  · rw [if_neg hlong]
    by_cases hdeep : others.depth < nesting (ls.map (·.token))
    · rw [if_pos hdeep]
      exact .inr (.inr ⟨by omega, rfl⟩)
    · rw [if_neg hdeep]
      exact .inl rfl

end Limits

variable {f : Formula} {fs : List Formula} {e : Expr} {n : String}

theorem Formula.mem_referencedNames_of_parse (hf : f.attributes = none)
    (he : parse {} f.expression = .ok e) :
    n ∈ f.referencedNames ↔ n ∈ e.names ∧ isBuiltin n = false := by
  rw [referencedNames, hf]
  dsimp only
  rw [expressionNames, he]
  simp

theorem mem_referencedNames : n ∈ referencedNames fs ↔ ∃ f ∈ fs, n ∈ f.referencedNames := by
  rw [referencedNames, Text.mem_nameSet, List.mem_flatMap]

end FormulaDrawing
