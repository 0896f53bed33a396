import FormulaDrawing.Proofs.Substitution.Reported

/-! Which formula a replaced element is written from. Where formulas share a name, the value is that of
the last of them and the style that of the first, so that value and style are sure to belong together
only where there is one formula of the name. -/

namespace FormulaDrawing

theorem Template.formula?_eq_some {t : Template} {name : String} {f : Formula}
    (hf : f ∈ t.formulas) (hname : f.name = name) : ∃ first, t.formula? name = some first :=
  Option.isSome_iff_exists.1 (List.find?_isSome.2 ⟨f, hf, beq_iff_eq.2 hname⟩)

namespace Substitution

variable {s : Settings} {t : Template} {declarations : List Declaration} {vs : Variables}
  {document : String} {report : Report}

/-- What is reported to be replaced is replaced by the value of the last formula of its name, in the style
of the first one. -/
theorem sources_of_substituted (hrun : run s t declarations vs = .ok (document, report)) :
    ∃ d, Drawing.read t.source = .ok d ∧
      document = (apply (.ofTemplate s t declarations vs) d).1.write ∧
      ∀ entry ∈ report, ∀ text, entry.outcome = .substituted text →
        ∃ node e id name first last v, d.element? node = some e ∧
          entry = ⟨some id, some name, .substituted text⟩ ∧
          (some (.replace node (replacement e id (first.styleOver
            (baseStyle (.ofTemplate s t declarations vs) d node name id))) text), entry) ∈
              plan (.ofTemplate s t declarations vs) d ∧
          t.formula? name = some first ∧ t.lastFormula? name = some last ∧
          evaluate s.limits vs last.expression = .ok v ∧ v.inscription = text ∧
          ((∀ f ∈ t.formulas, f.name = name → f = first) → last = first) := by
  obtain ⟨d, hread, hdocument, rfl⟩ := run_eq_ok_iff.1 hrun
  refine ⟨d, hread, hdocument, fun entry hentry text houtcome => ?_⟩
  obtain ⟨node, e, he, hstep, rfl⟩ := exists_node_of_mem_report hentry
  obtain ⟨name, id, v, -, -, hfind, rfl, hnode⟩ := planNode_of_substituted houtcome
  obtain ⟨last, hlast, hmem, hname, hv⟩ := evaluate_of_find? hfind
  obtain ⟨first, hfirst⟩ := Template.formula?_eq_some hmem hname
  have hstyle : textStyle (.ofTemplate s t declarations vs) d node name id =
      first.styleOver (baseStyle (.ofTemplate s t declarations vs) d node name id) := by
    rw [textStyle, Input.ofTemplate, ← Template.formula?, hfirst]
    rfl
  rw [hnode, hstyle] at hstep
  rw [hnode]
  exact ⟨node, e, id, name, first, last, v, he, rfl, hstep, hfirst, hlast, hv, rfl,
    fun honly => honly last hmem hname⟩

/-- Two formulas of one name around another: the value of the last one is written, in the fill and the
font size of the first. -/
theorem sources_of_substituted_shared :
    let t : Template :=
      { id := "t", name := "t", source := "<svg><text class=\"formula\" id=\"a\">f</text></svg>"
        formulas := [{ name := "f", expression := "1", fill := some "red" },
          { name := "g", expression := "3" }, { name := "f", expression := "2", fontSize := some "9px" }] }
    ∃ document d, run { errorStyle := false } t [] [] =
        .ok (document, [⟨some "a", some "f", .substituted "2"⟩]) ∧
      Drawing.read t.source = .ok d ∧
      ∃ node e id name first last, d.element? node = some e ∧
        (some (.replace node (replacement e id (first.styleOver
          (baseStyle (.ofTemplate { errorStyle := false } t [] []) d node name id))) "2"),
            ⟨some "a", some "f", .substituted "2"⟩) ∈
              plan (.ofTemplate { errorStyle := false } t [] []) d ∧
        t.formula? name = some first ∧ t.lastFormula? name = some last ∧ last ≠ first := by
  intro t
  have hrun : run { errorStyle := false } t [] [] = .ok ("<svg><text id=\"a\" x=\"0\" y=\"0\" " ++
      "style=\"fill:red;font-size:12px\" font-family=\"Arial\">2</text></svg>",
        [⟨some "a", some "f", .substituted "2"⟩]) := by
    decide +kernel
  obtain ⟨d, hread, -, hall⟩ := sources_of_substituted hrun
  obtain ⟨node, e, id, name, first, last, v, he, hentry, hplan, hfirst, hlast, -⟩ :=
    hall _ List.mem_cons_self "2" rfl
  obtain rfl : "f" = name := Option.some.inj (congrArg (·.formula) hentry)
  have hdistinct : t.lastFormula? "f" ≠ t.formula? "f" := by decide +kernel
  refine ⟨_, d, hrun, hread, node, e, id, "f", first, last, he, hplan, hfirst, hlast, ?_⟩
  rintro rfl
  exact hdistinct (hlast.trans hfirst.symm)

/-- The first of two formulas of one name has the value 1 and is red; what is written is red and is not 1. -/
theorem value_and_style_disagree :
    ∃ (t : Template) (f : Formula) (document : String),
      t.formula? "f" = some f ∧ f.fill = some "red" ∧
      (evaluate {} [] f.expression).map Value.inscription = .ok "1" ∧
      run { errorStyle := false } t [] [] =
        .ok (document, [⟨some "a", some "f", .substituted "2"⟩]) ∧
      document = "<svg><text id=\"a\" x=\"0\" y=\"0\" style=\"fill:red;font-size:12px\" " ++
        "font-family=\"Arial\">2</text></svg>" := by
  let f : Formula := { name := "f", expression := "1", fill := some "red" }
  let t : Template :=
    { id := "t", name := "t", source := "<svg><text class=\"formula\" id=\"a\">f</text></svg>"
      formulas := [f, { name := "f", expression := "2", fill := some "blue" }] }
  exact ⟨t, f, _, by decide +kernel, rfl, by decide +kernel, by decide +kernel, rfl⟩

end Substitution

end FormulaDrawing
