import FormulaDrawing.Engine.Basic
import FormulaDrawing.Proofs.Drawing.Taking
import FormulaDrawing.Proofs.Substitution.Reported

/-! What can become of a template in a generation, each with what has led to it. -/

namespace FormulaDrawing.Engine

def Request.supply (r : Request) (t : Template) : Variables :=
  (Resolution.ofBindings r.bindings t.referencedNames).vars

/-- The template is of the kind that is asked for, and its filter accepts what is selected. -/
def Request.Chooses (r : Request) (t : Template) : Prop :=
  t.kind = r.kind ∧ t.applies r.allSelections = true

inductive Becomes (e : Engine) (r : Request) (t : Template) : Outcome → Prop
  | otherKind (hkind : t.kind ≠ r.kind) : Becomes e r t (.skipped t.id .otherKind)
  | notApplicable (hkind : t.kind = r.kind) (happlies : t.applies r.allSelections = false) :
    Becomes e r t (.skipped t.id .notApplicable)
  | notFound {cause : Registry.Failure} (hchosen : r.Chooses t)
    (hdeclarations : e.registry.declarations t.id = .error cause) :
    Becomes e r t (.failed ⟨t.id, .extracted, .registry cause⟩)
  | malformed {ds : List Declaration} {cause : Drawing.Failure} (hchosen : r.Chooses t)
    (hdeclarations : e.registry.declarations t.id = .ok ds)
    (hrun : Substitution.run e.settings t ds (r.supply t) = .error cause) :
    Becomes e r t (.failed ⟨t.id, .parsed, .malformed t.id cause⟩)
  | notRasterized {ds : List Declaration} {document : String} {report : Substitution.Report}
    {cause : Raster.Failure} (hchosen : r.Chooses t)
    (hdeclarations : e.registry.declarations t.id = .ok ds)
    (hrun : Substitution.run e.settings t ds (r.supply t) = .ok (document, report))
    (himage : e.rasterizer document = .error cause) :
    Becomes e r t (.failed ⟨t.id, .serialized, .rasterization t.id document cause⟩)
  | produced {ds : List Declaration} {document : String} {report : Substitution.Report}
    {image : ByteArray} (hchosen : r.Chooses t)
    (hdeclarations : e.registry.declarations t.id = .ok ds)
    (hrun : Substitution.run e.settings t ds (r.supply t) = .ok (document, report))
    (himage : e.rasterizer document = .ok image) :
    Becomes e r t
      (.produced { template := t.id, name := Artifact.name t.id r.context, document, image, report })

/-- What is written in memory is always written, so a run that fails has come as far as reading. -/
theorem Stage.ofFailure_of_run {s : Settings} {t : Template} {ds : List Declaration} {vs : Variables}
    {cause : Drawing.Failure} (h : Substitution.run s t ds vs = .error cause) :
    Stage.ofFailure cause = .parsed := by
  cases cause with
  | unwritten cause => exact absurd (Substitution.read_of_run h) Drawing.read_ne_unwritten
  | malformed place fault => rfl
  | unclosed name => rfl
  | severalRoots => rfl
  | noRoot => rfl

theorem becomes_outcome (e : Engine) (r : Request) (t : Template) :
    e.Becomes r t (e.outcome r t) := by
  unfold outcome
  split
  next hkind => exact .otherKind hkind
  next hkind =>
  split
  next happlies => exact .notApplicable (Decidable.not_not.1 hkind) (by simpa using happlies)
  next happlies =>
  have hchosen : r.Chooses t := ⟨Decidable.not_not.1 hkind, by simpa using happlies⟩
  split
  next cause hdeclarations => exact .notFound hchosen hdeclarations
  next ds hdeclarations =>
  unfold produce
  dsimp only
  split
  next cause hrun =>
    rw [fail, Stage.ofFailure_of_run hrun]
    exact .malformed hchosen hdeclarations hrun
  next document report hrun =>
  split
  next cause himage => exact .notRasterized hchosen hdeclarations hrun himage
  next image himage => exact .produced hchosen hdeclarations hrun himage

section Lists

variable {o : Outcome} {p : Output} {id : String} {reason : SkipReason} {f : TemplateFailure}

theorem Outcome.output?_eq_some_iff : o.output? = some p ↔ o = .produced p := by
  cases o <;> simp [output?]

theorem Outcome.skipped?_eq_some_iff : o.skipped? = some (id, reason) ↔ o = .skipped id reason := by
  cases o <;> simp [skipped?]

theorem Outcome.failure?_eq_some_iff : o.failure? = some f ↔ o = .failed f := by
  cases o <;> simp [failure?]

variable {e : Engine} {r : Request}

theorem mem_outputs (hp : p ∈ (e.generate r).outputs) :
    ∃ t ∈ e.registry.templates, e.outcome r t = .produced p := by
  obtain ⟨o, ho, houtput⟩ := List.mem_filterMap.1 hp
  obtain ⟨t, ht, rfl⟩ := List.mem_map.1 ho
  exact ⟨t, ht, Outcome.output?_eq_some_iff.1 houtput⟩

end Lists

end FormulaDrawing.Engine
