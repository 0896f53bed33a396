import FormulaDrawing.Proofs.Attempt
import FormulaDrawing.Proofs.Drawing.Spelling
import FormulaDrawing.Substitution.Basic

/-! What the report of a run says of the run. Every entry is that of one element, and a value or a
failure in it is what the last formula of its name was worked out to. -/

namespace FormulaDrawing

/-- The last formula of that name. -/
def Template.lastFormula? (t : Template) (name : String) : Option Formula :=
  t.formulas.reverse.find? (·.name == name)

theorem Evaluations.find?_ofFormulas (limits : Expression.Limits) (vs : Variables) (t : Template)
    (name : String) : (ofFormulas limits vs t.formulas).find? name =
      (t.lastFormula? name).map fun f => evaluate limits vs f.expression := by
  rw [find?, ofFormulas, ← List.map_reverse, Template.lastFormula?]
  induction t.formulas.reverse with
  | nil => rfl
  | cons f fs ih =>
    rw [List.map_cons, List.lookup_cons, List.find?_cons, Bool.beq_comm (a := name)]
    cases f.name == name with
    | true => rfl
    | false => exact ih

namespace Substitution

variable {s : Settings} {t : Template} {declarations : List Declaration} {vs : Variables}
  {document name text : String} {report : Report} {i : Input} {d : Drawing} {h : Handle} {e : Element}
  {cause : Expression.Failure}

/-- What the plan for a template rests on when it is run. -/
def Input.ofTemplate (s : Settings) (t : Template) (declarations : List Declaration)
    (vs : Variables) : Input :=
  { settings := s, formulas := t.formulas, declarations
    evaluations := .ofFormulas s.limits vs t.formulas }

/-- Nothing but reading the source can fail. -/
theorem run_eq (s : Settings) (t : Template) (declarations : List Declaration) (vs : Variables) :
    run s t declarations vs = (Drawing.read t.source).map fun d =>
      ((apply (.ofTemplate s t declarations vs) d).1.write,
        (plan (.ofTemplate s t declarations vs) d).map (·.2)) := by
  rw [run]
  cases Drawing.read t.source with
  | error cause => rfl
  | ok d =>
    have hwritten := Drawing.writeTo_memory (apply (.ofTemplate s t declarations vs) d).1
    exact congrArg (· >>= fun document => pure (document, _)) hwritten

theorem run_eq_ok_iff : run s t declarations vs = .ok (document, report) ↔
    ∃ d, Drawing.read t.source = .ok d ∧
      document = (apply (.ofTemplate s t declarations vs) d).1.write ∧
      report = (plan (.ofTemplate s t declarations vs) d).map (·.2) := by
  rw [run_eq, map_eq_ok_iff]
  refine exists_congr fun d => and_congr_right fun _ => ?_
  rw [Prod.mk.injEq, eq_comm, eq_comm (a := report)]

theorem read_of_run {cause : Drawing.Failure} (h : run s t declarations vs = .error cause) :
    Drawing.read t.source = .error cause := by
  rwa [run_eq, map_eq_error_iff] at h

theorem exists_node_of_mem_report {entry : NodeReport} (hentry : entry ∈ (plan i d).map (·.2)) :
    ∃ node e, d.element? node = some e ∧ planNode i d node e ∈ plan i d ∧
      (planNode i d node e).2 = entry := by
  obtain ⟨step, hstep, rfl⟩ := List.mem_map.1 hentry
  obtain ⟨node, -, hplan⟩ := List.mem_filterMap.1 hstep
  obtain ⟨e, he, rfl⟩ := Option.map_eq_some_iff.1 hplan
  exact ⟨node, e, he, hstep, rfl⟩

theorem planNode_of_substituted (hs : (planNode i d h e).2.outcome = .substituted text) :
    ∃ name id v, d.formulaName? i.settings.labels h = some name ∧ e.id? = some id ∧
      i.evaluations.find? name = some (.ok v) ∧ v.inscription = text ∧
      planNode i d h e = (some (.replace h (replacement e id (textStyle i d h name id)) text),
        ⟨some id, some name, .substituted text⟩) := by
  unfold planNode at hs ⊢
  dsimp only at hs ⊢
  split at hs
  next name id hname hid =>
    rw [hname, hid]
    split at hs
    next v hv =>
      obtain rfl := Outcome.substituted.inj hs
      exact ⟨name, id, v, rfl, rfl, hv, rfl, rfl⟩
    · cases hs
    · cases hs
  next => cases hs

theorem planNode_of_failed (hfailed : (planNode i d h e).2.outcome = .failed cause) :
    ∃ name, (planNode i d h e).2.formula = some name ∧
      i.evaluations.find? name = some (.error cause) := by
  unfold planNode at hfailed ⊢
  dsimp only at hfailed ⊢
  split at hfailed
  next name id hname hid =>
    split at hfailed
    next => cases hfailed
    next other hfind =>
      obtain rfl := Outcome.failed.inj hfailed
      exact ⟨name, rfl, hfind⟩
    next => cases hfailed
  next => cases hfailed

theorem evaluate_of_find? {result : Except Expression.Failure Value}
    (h : (Input.ofTemplate s t declarations vs).evaluations.find? name = some result) :
    ∃ f, t.lastFormula? name = some f ∧ f ∈ t.formulas ∧ f.name = name ∧
      evaluate s.limits vs f.expression = result := by
  rw [Input.ofTemplate, Evaluations.find?_ofFormulas] at h
  obtain ⟨f, hf, hresult⟩ := Option.map_eq_some_iff.1 h
  exact ⟨f, hf, List.mem_reverse.1 (List.mem_of_find?_eq_some hf),
    beq_iff_eq.1 (List.find?_some hf :), hresult⟩

end Substitution

end FormulaDrawing
