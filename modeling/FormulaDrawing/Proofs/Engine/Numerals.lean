import FormulaDrawing.Proofs.Engine.Starvation
import FormulaDrawing.Proofs.Expression.Finiteness
import FormulaDrawing.Proofs.Number.Inscription

/-! What a generation writes for formulas. The variables of a request are finite numbers and so are the
values of the formulas, so that nothing but integers is written. -/

namespace FormulaDrawing

open Number

theorem Expression.isFinite_of_evaluate {limits : Limits} {vs : Variables} {text : String} {v : Value}
    (hvs : vs.AllFinite) (h : evaluate limits vs text = .ok v) : v.IsFinite := by
  rw [evaluate, bind_eq_ok_iff] at h
  obtain ⟨x, -, h⟩ := h
  exact Expr.isFinite_of_eval hvs h

namespace Engine

variable {e : Engine} {r : Request} {t : Template} {p : Output} {f : Formula} {v : Value} {text : String}
  {entry : Substitution.NodeReport}

theorem allFinite_supply (r : Request) (t : Template) : (r.supply t).AllFinite := by
  intro n v hv
  rw [Request.supply, Resolution.find?_ofBindings] at hv
  split at hv
  next =>
    obtain ⟨x, hx, rfl⟩ := Option.map_eq_some_iff.1 hv
    obtain ⟨b, -, hb⟩ := List.exists_of_findSome?_eq_some hx
    rw [Binding.valueFor?] at hb
    split at hb
    next => exact ⟨x, rfl, (Option.filter_eq_some_iff.1 hb).2⟩
    next => cases hb
  next => cases hv

theorem exists_formula_of_output (hp : p ∈ (e.generate r).outputs) (hentry : entry ∈ p.report)
    (hs : entry.outcome = .substituted text) :
    ∃ t ∈ e.registry.templates, t.id = p.template ∧ ∃ name f v, entry.formula = some name ∧
      t.lastFormula? name = some f ∧ e.evaluation r t f = .ok v ∧ v.inscription = text := by
  obtain ⟨t, ht, hproduced⟩ := mem_outputs hp
  have hbecomes := becomes_outcome e r t
  rw [hproduced] at hbecomes
  cases hbecomes with
  | produced _ _ hrun _ =>
    obtain ⟨d, -, -, rfl⟩ := Substitution.run_eq_ok_iff.1 hrun
    obtain ⟨node, element, -, -, rfl⟩ := Substitution.exists_node_of_mem_report hentry
    obtain ⟨name, id, v, -, -, hfind, htext, hnode⟩ := Substitution.planNode_of_substituted hs
    obtain ⟨f, hf, -, -, hv⟩ := Substitution.evaluate_of_find? hfind
    exact ⟨t, ht, rfl, name, f, v, by rw [hnode], hf, hv, htext⟩

/-- Variables and values of formulas are finite numbers, and what is written for one is an integer numeral:
that of the nearest integer, of two the even one, below `2 ^ 54`, and from there on that of an integer to
which no double is nearer than the value. -/
theorem numerals_of_generate (e : Engine) (r : Request) :
    (∀ t, (r.supply t).AllFinite ∧ ∀ f v, e.evaluation r t f = .ok v → v.IsFinite) ∧
    ∀ p ∈ (e.generate r).outputs, ∀ entry ∈ p.report, ∀ text, entry.outcome = .substituted text →
      ∃ t ∈ e.registry.templates, t.id = p.template ∧ ∃ name f x, entry.formula = some name ∧
        t.lastFormula? name = some f ∧ e.evaluation r t f = .ok (.number x) ∧ x.isFinite = true ∧
        ∃ n k : ℤ, NearestEven (value x) n ∧ Writes k text.toList ∧ (|n| < 2 ^ 54 → k = n) ∧
          (∃ y : Float, y.isFinite = true ∧ value y = n) ∧
          ∀ y : Float, y.isFinite = true → |(k : ℚ) - n| ≤ |k - value y| := by
  have hall : ∀ t f v, e.evaluation r t f = .ok v → v.IsFinite := fun t f v hv =>
    Expression.isFinite_of_evaluate (allFinite_supply r t) hv
  refine ⟨fun t => ⟨allFinite_supply r t, hall t⟩, fun p hp entry hentry text hs => ?_⟩
  obtain ⟨t, ht, hid, name, f, v, hname, hf, hv, rfl⟩ := exists_formula_of_output hp hentry hs
  obtain ⟨x, rfl, hx⟩ := hall t f v hv
  exact ⟨t, ht, hid, name, f, x, hname, hf, hv, hx, Value.inscription_of_finite hx⟩

/-- Half way between two integers the even one is written. -/
theorem numerals_of_generate_half :
    ∃ (e : Engine) (r : Request) (p : Output), e.Reachable ∧ p ∈ (e.generate r).outputs ∧
      p.report = [⟨some "a", some "f", .substituted "-2"⟩] ∧
      ∃ t ∈ e.registry.templates, ∃ f x, t.lastFormula? "f" = some f ∧
        e.evaluation r t f = .ok (.number x) ∧ NearestEven (value x) (-2) := by
  let t : Template :=
    { id := "t", name := "t", formulas := [{ name := "f", expression := "w / 2" }],
      source := "<svg><text class=\"formula\" id=\"a\">f</text></svg>" }
  obtain ⟨e, he, hengine⟩ : ∃ e : Engine, e.Reachable ∧
      e = [Action.add t].foldl after { rasterizer := fun _ => .ok .empty } := ⟨_, ⟨_, _, _, rfl⟩, rfl⟩
  let r : Request :=
    { context := "7", bindings := [{ attr := "a", value := "-5", varName := some "w" }] }
  have hreports : (e.generate r).outputs.map (·.report) =
      [[⟨some "a", some "f", .substituted "-2"⟩]] := by
    rw [hengine]
    decide +kernel
  obtain ⟨p, hp, hreport⟩ := List.mem_map.1 (hreports ▸ List.mem_singleton_self _)
  obtain ⟨t', ht, -, name, f, x, hname, hf, hv, -, n, k, hn, hk, -, -, hnear⟩ :=
    (numerals_of_generate e r).2 p hp _ (hreport ▸ List.mem_singleton_self _) _ rfl
  obtain rfl : "f" = name := Option.some.inj hname
  have hnumeral : IsNumeral ['2'] := ⟨by decide, by decide⟩
  obtain rfl : -2 = k := (Writes.negative hnumeral).unique hk
  obtain ⟨htwo, hvalue⟩ := value_scaled (n := 2) .negative (by decide)
  have hzero := hnear _ htwo
  rw [hvalue] at hzero
  obtain rfl : n = -2 := by
    have : |(-2 : ℚ) - n| ≤ 0 := by simpa [Float.Model.UnpackedFloat.Sign.apply] using hzero
    have : (-2 : ℚ) - n = 0 := abs_nonpos_iff.1 this
    exact_mod_cast (sub_eq_zero.1 this).symm
  exact ⟨e, r, p, he, hp, hreport, t', ht, f, x, hf, hv, hn⟩

/-- The value is an integer, but the shortest decimal for it is another one. -/
theorem numeral_of_another_integer :
    ∃ (e : Engine) (r : Request) (t : Template) (f : Formula) (x : Float), e.Reachable ∧
      e.registry.templates = [t] ∧ t.formulas = [f] ∧ e.evaluation r t f = .ok (.number x) ∧
      value x = 18446744073709551616 ∧
      (e.generate r).outputs.map (·.report) =
        [[⟨some "a", some f.name, .substituted "18446744073709552000"⟩]] ∧
      ∀ n, NearestEven (value x) n → ¬ Writes n "18446744073709552000".toList := by
  let f : Formula := { name := "f", expression := "x" }
  let t : Template :=
    { id := "t", name := "t", formulas := [f],
      source := "<svg><text class=\"formula\" id=\"a\">f</text></svg>" }
  let r : Request :=
    { context := "7", bindings := [{ attr := "w", value := "18446744073709551616", varName := some "x" }] }
  let e := [Action.add t].foldl after
    { settings := { errorStyle := false }, rasterizer := fun _ => .ok .empty }
  let x : Float := .ofModel (.pack (.finite .positive 4503599627370496 12 (by decide)))
  have hvalue : value x = (18446744073709551616 : ℤ) := by
    have hx : x.toModel.unpack = .finite .positive 4503599627370496 12 (by decide) :=
      unpack_pack ⟨by decide, by decide, by decide, .inr (by decide)⟩ _
    rw [value_of_finite hx]
    norm_num [Float.Model.UnpackedFloat.Sign.apply]
  refine ⟨e, r, t, f, x, ⟨_, _, _, rfl⟩, by decide +kernel, rfl, by decide +kernel, hvalue,
    by decide +kernel, fun n hn hwrites => ?_⟩
  have hnumeral : IsNumeral "18446744073709552000".toList := ⟨by decide +kernel, by decide +kernel⟩
  have hother : (digitsValue "18446744073709552000".toList : ℤ) = n :=
    (Writes.positive hnumeral).unique hwrites
  have hsame : 18446744073709551616 = n := (nearestEven_intCast _).unique (hvalue ▸ hn)
  rw [← hsame] at hother
  exact absurd hother (by decide)
end Engine

end FormulaDrawing
