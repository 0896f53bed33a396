import FormulaDrawing.Proofs.Binding.Resolution
import FormulaDrawing.Proofs.Engine.History
import FormulaDrawing.Proofs.Engine.Outcome
import FormulaDrawing.Proofs.Expression.Sandbox
import FormulaDrawing.Proofs.Substitution.Reported
import FormulaDrawing.Proofs.Template.Reference

/-! Whether the bindings of a request reach the formulas that read them. A template lets those names
through that its formulas read within the standard limits. A formula that only wider limits admit gets
its names through other formulas or not at all. -/

namespace FormulaDrawing

open Expression

namespace Substitution

variable {s : Settings} {t : Template} {declarations : List Declaration} {vs : Variables}
  {document : String} {report : Report} {entry : NodeReport} {cause : Expression.Failure}

theorem evaluate_of_reported (h : run s t declarations vs = .ok (document, report))
    (hentry : entry ∈ report) (hfailed : entry.outcome = .failed cause) : ∃ f ∈ t.formulas,
      entry.formula = some f.name ∧ evaluate s.limits vs f.expression = .error cause := by
  obtain ⟨d, -, -, rfl⟩ := run_eq_ok_iff.1 h
  obtain ⟨node, element, -, -, rfl⟩ := exists_node_of_mem_report hentry
  obtain ⟨name, hname, hfind⟩ := planNode_of_failed hfailed
  obtain ⟨f, -, hf, rfl, hcause⟩ := evaluate_of_find? hfind
  exact ⟨f, hf, hname, hcause⟩

end Substitution

namespace Engine

/-- What a formula of the template is worked out to in a generation. -/
def evaluation (e : Engine) (r : Request) (t : Template) (f : Formula) :
    Except Expression.Failure Value :=
  evaluate e.settings.limits (r.supply t) f.expression

/-- Every name that the expression reads and that is not built in has a number among the bindings. -/
def Request.Feeds (r : Request) (x : Expr) : Prop :=
  ∀ n ∈ x.names, isBuiltin n = false → ∃ b ∈ r.bindings, (b.valueFor? n).isSome = true

/-- The expression reads a name that no formula of the template lets through. -/
def Starves (t : Template) (x : Expr) : Prop :=
  ∃ n ∈ x.names, isBuiltin n = false ∧ n ∉ t.referencedNames

variable {e : Engine} {r : Request} {t : Template} {f : Formula} {x : Expr} {p : Output} {n : String}
  {cause : Expression.Failure} {entry : Substitution.NodeReport}

theorem evaluation_of_reported (h : e.outcome r t = .produced p) (hentry : entry ∈ p.report)
    (hfailed : entry.outcome = .failed cause) :
    ∃ f ∈ t.formulas, entry.formula = some f.name ∧ e.evaluation r t f = .error cause := by
  have hbecomes := becomes_outcome e r t
  rw [h] at hbecomes
  cases hbecomes with
  | produced _ _ hrun _ => exact Substitution.evaluate_of_reported hrun hentry hfailed

theorem evaluation_eq (hparse : parse e.settings.limits f.expression = .ok x) :
    e.evaluation r t f = x.eval (r.supply t) := by
  rw [evaluation, evaluate, hparse]
  rfl

theorem binds_supply_iff (hfed : r.Feeds x) (hn : n ∈ x.names) (hbuiltin : isBuiltin n = false) :
    (r.supply t).binds n = true ↔ n ∈ t.referencedNames := by
  rw [Request.supply, Resolution.binds_ofBindings_iff, and_iff_left (hfed n hn hbuiltin)]

theorem not_starves (hf : f ∈ t.formulas) (hattr : f.attributes = none)
    (hparse : parse {} f.expression = .ok x) : ¬ Starves t x := by
  rintro ⟨n, hn, hbuiltin, hnot⟩
  refine hnot (mem_referencedNames.2 ⟨f, hf, ?_⟩)
  exact (Formula.mem_referencedNames_of_parse hattr hparse).2 ⟨hn, hbuiltin⟩

theorem eval_ne_undefined (hfed : r.Feeds x) (hlet : ¬ Starves t x) (n : String) :
    x.eval (r.supply t) ≠ .error (.undefinedName n) := by
  intro hundefined
  obtain ⟨hn, hunbound, hbuiltin⟩ := Expr.eval_eq_undefined hundefined
  refine hlet ⟨n, hn, hbuiltin, fun href => ?_⟩
  rw [(binds_supply_iff hfed hn hbuiltin).2 href] at hunbound
  cases hunbound

theorem exists_eval_error (hfed : r.Feeds x) (hstarves : Starves t x) :
    ∃ cause, x.eval (r.supply t) = .error cause := by
  obtain ⟨n, hn, hbuiltin, hnot⟩ := hstarves
  cases heval : x.eval (r.supply t) with
  | error cause => exact ⟨cause, rfl⟩
  | ok v =>
    -- the name has a value as well, which no constant and no variable gives it
    obtain ⟨w, hw⟩ := Expr.eval_part heval (Expr.mem_names_iff.1 hn)
    rcases readName_eq_ok hw with hbound | hconstant
    · exact absurd ((binds_supply_iff hfed hn hbuiltin).1 hbound) hnot
    · rw [isBuiltin, hconstant] at hbuiltin
      cases hbuiltin

/-- A formula whose names have numbers finds none of them undefined, unless it exceeds a standard limit
that was raised and reads a name that no formula lets through; then it has no value. -/
theorem starved_beyond_standard (e : Engine) (hf : f ∈ t.formulas) (hattr : f.attributes = none)
    (hparse : parse e.settings.limits f.expression = .ok x) (hfed : r.Feeds x) :
    (¬ Starves t x → (∀ n, e.evaluation r t f ≠ .error (.undefinedName n)) ∧
      ((∀ g ∈ t.formulas, g.name = f.name → g = f) → ∀ p, e.outcome r t = .produced p →
        ∀ entry ∈ p.report, entry.formula = some f.name →
          ∀ n, entry.outcome ≠ .failed (.undefinedName n))) ∧
    (Starves t x → (∃ cause, e.evaluation r t f = .error cause) ∧
      (1024 < e.settings.limits.tokens ∧ parse {} f.expression = .error (.tooLong 1024) ∨
        64 < e.settings.limits.depth ∧ parse {} f.expression = .error (.tooDeep 64))) := by
  rw [evaluation_eq hparse]
  refine ⟨fun hlet => ⟨eval_ne_undefined hfed hlet, ?_⟩,
    fun hstarves => ⟨exists_eval_error hfed hstarves, ?_⟩⟩
  · intro hunique p hp entry hentry hname n hfailed
    obtain ⟨g, hg, hgname, hcause⟩ := evaluation_of_reported hp hentry hfailed
    obtain rfl := hunique g hg (Option.some.inj (hgname.symm.trans hname))
    rw [evaluation_eq hparse] at hcause
    exact eval_ne_undefined hfed hlet n hcause
  · rcases parse_within hparse {} with hstandard | hbeyond
    · exact absurd hstarves (not_starves hf hattr hstandard)
    · exact hbeyond

theorem exists_parse_signs :
    ∃ x, parse { depth := 66 } (String.ofList (List.replicate 66 '-' ++ ['x'])) = .ok x ∧
      x.names = ["x"] ∧ Request.Feeds
        { context := "7", bindings := [{ attr := "w", value := "5", varName := some "x" }] } x := by
  obtain ⟨x, hparse, hx⟩ :
      ∃ x, parse { depth := 66 } (String.ofList (List.replicate 66 '-' ++ ['x'])) = .ok x ∧
        x.names = ["x"] := ⟨_, by cbv, by decide +kernel⟩
  refine ⟨x, hparse, hx, fun n hn _ => ?_⟩
  obtain rfl : n = "x" := by simpa [hx] using hn
  exact ⟨_, List.mem_singleton.2 rfl, by decide +kernel⟩

/-- The variable behind the signs is let through by another formula. -/
theorem starved_beyond_standard_let_through :
    ∃ (e : Engine) (r : Request) (t : Template) (f : Formula) (x : Expr),
      e.Reachable ∧ t ∈ e.registry.templates ∧ f ∈ t.formulas ∧
      parse e.settings.limits f.expression = .ok x ∧
      parse {} f.expression = .error (.tooDeep 64) ∧ r.Feeds x ∧ ¬ Starves t x ∧
      ∀ n, e.evaluation r t f ≠ .error (.undefinedName n) := by
  let f : Formula :=
    { name := "f", expression := String.ofList (List.replicate 66 '-' ++ ['x']) }
  let t : Template :=
    { id := "t", name := "t", source := "<svg/>", formulas := [f, { name := "g", expression := "x" }] }
  let r : Request :=
    { context := "7", bindings := [{ attr := "w", value := "5", varName := some "x" }] }
  let e := [Action.add t].foldl after
    { settings := { limits := { depth := 66 } }, rasterizer := Raster.unavailable }
  obtain ⟨x, hparse, hx, hfed⟩ := exists_parse_signs
  have hlimits : e.settings.limits = { depth := 66 } := by decide +kernel
  rw [← hlimits] at hparse
  have hlet : ¬ Starves t x := by
    rintro ⟨n, hn, -, hnot⟩
    obtain rfl : n = "x" := by simpa [hx] using hn
    exact hnot (by decide +kernel)
  have hf : f ∈ t.formulas := List.mem_cons_self
  have hattr : f.attributes = none := rfl
  exact ⟨e, r, t, f, x, ⟨_, _, _, rfl⟩, by decide +kernel, hf, hparse, by cbv, hfed, hlet,
    ((starved_beyond_standard e hf hattr hparse hfed).1 hlet).1⟩

/-- Where no other formula reads the variable it has a number but is not let through, as the report of the
generation says. -/
theorem starves_behind_signs :
    ∃ (e : Engine) (r : Request) (t : Template) (f : Formula) (x : Expr),
      e.Reachable ∧ e.registry.templates = [t] ∧ t.formulas = [f] ∧ f.attributes = none ∧
      parse e.settings.limits f.expression = .ok x ∧ r.Feeds x ∧
      e.evaluation r t f = .error (.undefinedName "x") ∧
      (e.generate r).outputs.map (·.report) =
        [[⟨some "a", some f.name, .failed (.undefinedName "x")⟩]] := by
  let f : Formula :=
    { name := "f", expression := String.ofList (List.replicate 66 '-' ++ ['x']) }
  let t : Template :=
    { id := "t", name := "t", formulas := [f],
      source := "<svg><text class=\"formula\" id=\"a\">f</text></svg>" }
  let r : Request :=
    { context := "7", bindings := [{ attr := "w", value := "5", varName := some "x" }] }
  let e := [Action.add t].foldl after
    { settings := { limits := { depth := 66 } }, rasterizer := fun _ => .ok .empty }
  obtain ⟨x, hparse, -, hfed⟩ := exists_parse_signs
  have hlimits : e.settings.limits = { depth := 66 } := by decide +kernel
  rw [← hlimits] at hparse
  exact ⟨e, r, t, f, x, ⟨_, _, _, rfl⟩, by decide +kernel, rfl, rfl, hparse, hfed, by decide +kernel,
    by decide +kernel⟩

end Engine

end FormulaDrawing
