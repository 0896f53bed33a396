import FormulaDrawing.Proofs.Binding.Resolution
import FormulaDrawing.Proofs.Expression.Sandbox
import FormulaDrawing.Proofs.Template.Reference

/-! A formula alone and in the company of others. The others let further variables through, and those are
neither read by it nor named like anything built in, so that they can only matter to a call of something
that is no function. Such a call fails in either case. -/

namespace FormulaDrawing

open Expression

section References

variable {f : Formula} {fs : List Formula} {n : String}

theorem Formula.isBuiltin_of_mem_referencedNames (hf : f.attributes = none)
    (hn : n ∈ f.referencedNames) : isBuiltin n = false := by
  rw [referencedNames, hf] at hn
  dsimp only at hn
  unfold expressionNames at hn
  split at hn
  next e _ => simpa using (List.mem_filter.1 hn).2
  next => cases hn

theorem isBuiltin_of_mem_referencedNames (hfs : ∀ f ∈ fs, f.attributes = none)
    (hn : n ∈ referencedNames fs) : isBuiltin n = false := by
  obtain ⟨f, hf, hn⟩ := mem_referencedNames.1 hn
  exact f.isBuiltin_of_mem_referencedNames (hfs f hf) hn

end References

section Expressions

variable {vs : Variables} {e : Expr} {v : Value}

theorem evaluate_eq_ok_iff {limits : Limits} {text : String} :
    evaluate limits vs text = .ok v ↔ ∃ e, parse limits text = .ok e ∧ e.eval vs = .ok v :=
  bind_eq_ok_iff

theorem Expr.isBuiltin_of_call (h : e.eval vs = .ok v) {f : String} {args : List Expr}
    (hf : .call f args ∈ e.parts) : isBuiltin f = true := by
  obtain ⟨w, hw⟩ := eval_part h hf
  obtain ⟨g, xs, hg, -, -⟩ := eval_call_eq_ok hw
  rw [isBuiltin, ofName?_eq_some_iff.2 (readFunction_eq_ok_iff.1 hg).2]
  simp

end Expressions

section Company

variable {f : Formula} {fs : List Formula} {e : Expr} {n : String} {v : Value}

theorem find?_among (hfs : ∀ f ∈ fs, f.attributes = none) (hf : f ∈ fs)
    (he : parse {} f.expression = .ok e) (bs : List Binding) (hn : n ∈ e.names) :
    (Resolution.ofBindings bs (referencedNames fs)).vars.find? n =
      (Resolution.ofBindings bs f.referencedNames).vars.find? n := by
  have hsame : n ∈ referencedNames fs ↔ n ∈ f.referencedNames := by
    constructor
    · intro h
      have hbuiltin := isBuiltin_of_mem_referencedNames hfs h
      exact (Formula.mem_referencedNames_of_parse (hfs f hf) he).2 ⟨hn, hbuiltin⟩
    · exact fun h => mem_referencedNames.2 ⟨f, hf, h⟩
  rw [Resolution.find?_ofBindings, Resolution.find?_ofBindings]
  simp only [hsame]

theorem binds_builtin {referenced : List String} (h : ∀ n ∈ referenced, isBuiltin n = false)
    (bs : List Binding) (hn : isBuiltin n = true) :
    (Resolution.ofBindings bs referenced).vars.binds n = false := by
  rw [Bool.eq_false_iff, ne_eq, Resolution.binds_ofBindings_iff]
  rintro ⟨hmem, -⟩
  rw [h n hmem] at hn
  cases hn

theorem eval_among (hfs : ∀ f ∈ fs, f.attributes = none) (hf : f ∈ fs)
    (he : parse {} f.expression = .ok e) (bs : List Binding)
    (hcalls : ∀ g args, .call g args ∈ e.parts → isBuiltin g = true) :
    e.eval (Resolution.ofBindings bs (referencedNames fs)).vars =
      e.eval (Resolution.ofBindings bs f.referencedNames).vars := by
  refine Expr.eval_congr (fun n hn => find?_among hfs hf he bs (Expr.mem_names_iff.2 hn)) ?_
  intro g args hg
  have hbuiltin := hcalls g args hg
  rw [binds_builtin (fun _ => isBuiltin_of_mem_referencedNames hfs) bs hbuiltin,
    binds_builtin (fun _ => f.isBuiltin_of_mem_referencedNames (hfs f hf)) bs hbuiltin]

/-- Among formulas that say nothing of what they read, each has the value that it has alone, if any. -/
theorem evaluate_among_iff (hfs : ∀ f ∈ fs, f.attributes = none) (hf : f ∈ fs) (bs : List Binding)
    (v : Value) :
    evaluate {} (Resolution.ofBindings bs (referencedNames fs)).vars f.expression = .ok v ↔
      evaluate {} (Resolution.ofBindings bs f.referencedNames).vars f.expression = .ok v := by
  rw [evaluate_eq_ok_iff, evaluate_eq_ok_iff]
  -- An expression with a value calls nothing but functions, whichever side has the value.
  refine exists_congr fun e => and_congr_right fun he => ?_
  constructor
  · intro h
    rwa [← eval_among hfs hf he bs fun _ _ => Expr.isBuiltin_of_call h]
  · intro h
    rwa [eval_among hfs hf he bs fun _ _ => Expr.isBuiltin_of_call h]

/-- Other formulas read a variable more, and a binding is named like the function that the formula calls. -/
theorem evaluate_among_iff_called :
    ∃ (fs : List Formula) (bs : List Binding) (f : Formula), f ∈ fs ∧
      (∀ g ∈ fs, g.attributes = none) ∧ f.referencedNames = ["x", "y"] ∧
      referencedNames fs = ["w", "x", "y"] ∧ (∃ b ∈ bs, b.varName = some "ceil") ∧
      evaluate {} (Resolution.ofBindings bs f.referencedNames).vars f.expression = .ok (.number 6) ∧
      evaluate {} (Resolution.ofBindings bs (referencedNames fs)).vars f.expression =
        .ok (.number 6) := by
  let f : Formula := { name := "f", expression := "ceil(x) * y" }
  let fs : List Formula :=
    [{ name := "g", expression := "ceil + w" }, f, { name := "h", expression := "x / w" }]
  let bs : List Binding :=
    [{ attr := "a", value := "1.5", varName := some "x" },
      { attr := "b", value := "9", varName := some "ceil" },
      { attr := "c", value := "n/a", varName := some "y", custom := true },
      { attr := "c", value := "3", varName := some "y" },
      { attr := "d", value := "2", varName := some "w" }]
  have hf : f ∈ fs := by simp [fs]
  have hfs : ∀ g ∈ fs, g.attributes = none := by simp [fs, f]
  have halone : evaluate {} (Resolution.ofBindings bs f.referencedNames).vars f.expression =
      .ok (.number 6) := by decide +kernel
  exact ⟨fs, bs, f, hf, hfs, by decide +kernel, by decide +kernel, ⟨bs[1], by simp [bs], rfl⟩, halone,
    (evaluate_among_iff hfs hf bs _).2 halone⟩

end Company

end FormulaDrawing
