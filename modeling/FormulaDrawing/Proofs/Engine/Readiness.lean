import FormulaDrawing.Proofs.Engine.History
import FormulaDrawing.Proofs.Engine.Outcome

/-! What is left to fail where every template is ready: its source can be read and its declarations are
there, so all that remains is the rasterizer. -/

namespace FormulaDrawing

namespace Substitution

/-- Every element that is replaced has a declared style, so none is looked up in the drawing. -/
def Declares (i : Input) (d : Drawing) : Prop :=
  ∀ h ∈ d.marked i.settings.markerClass, ∀ e text, d.element? h = some e →
    (planNode i d h e).2.outcome = .substituted text →
    ∃ name id x, (planNode i d h e).2 = ⟨some id, some name, .substituted text⟩ ∧
      i.declarations.find? (fun x => x.name == name && x.id == id) = some x ∧
      baseStyle i d h name id = x.style

variable {i : Input} {d : Drawing} {t : Template}

theorem declares_of_listed {template : String}
    (hall : ∀ found ∈ (Extraction.ofDrawing i.settings template d).declarations,
      found.listed i.declarations = true) : Declares i d := by
  intro h hh e text he hs
  obtain ⟨name, id, -, hname, hid, -, -, hplan⟩ := planNode_of_substituted hs
  have hid' : d.id? h = some id := by rw [Drawing.id?, he, Option.bind_some, hid]
  obtain ⟨found, hfound, hkey⟩ := Extraction.key_mem_ofDrawing template hh hname hid'
  obtain ⟨y, hy, hyk⟩ := Declaration.listed_iff.1 (hall found hfound)
  have hyname : y.name = name := (congrArg (·.1) (hyk.trans hkey) :)
  have hyid : y.id = id := (congrArg (·.2.1) (hyk.trans hkey) :)
  have hsome : (i.declarations.find? fun x => x.name == name && x.id == id).isSome = true :=
    List.find?_isSome.2 ⟨y, hy, by simp [hyname, hyid]⟩
  obtain ⟨x, hx⟩ := Option.isSome_iff_exists.1 hsome
  exact ⟨name, id, x, by rw [hplan], hx, by rw [baseStyle, hx]⟩

theorem exists_run (hd : Drawing.read t.source = .ok d) (s : Settings)
    (declarations : List Declaration) (vs : Variables) : ∃ p, run s t declarations vs = .ok p := by
  rw [run_eq, hd]
  exact ⟨_, rfl⟩

end Substitution

namespace Engine

variable {e : Engine} {r : Request} {x : Entry} {f : TemplateFailure}

theorem mem_failures (hf : f ∈ (e.generate r).failures) :
    ∃ x ∈ e.registry.entries, e.outcome r x.template = .failed f := by
  obtain ⟨o, ho, hfailure⟩ := List.mem_filterMap.1 hf
  obtain ⟨t, ht, rfl⟩ := List.mem_map.1 ho
  obtain ⟨x, hx, rfl⟩ := List.mem_map.1 ht
  exact ⟨x, hx, Outcome.failure?_eq_some_iff.1 hfailure⟩

/-- The image could not be made from the document that was written. -/
def TemplateFailure.IsRaster (rasterizer : Raster.Rasterizer) (f : TemplateFailure) : Prop :=
  f.stage = .serialized ∧ ∃ document cause,
    f.cause = .rasterization f.template document cause ∧ rasterizer document = .error cause

theorem declarations_of_mem (he : e.Sound) (hx : x ∈ e.registry.entries) :
    e.registry.declarations x.template.id = .ok x.declarations := by
  rw [Registry.declarations, Registry.find_of_mem he.nodup hx]
  rfl

theorem isRaster_of_failed (he : e.Sound) (hx : x ∈ e.registry.entries)
    (hf : e.outcome r x.template = .failed f) : f.IsRaster e.rasterizer := by
  obtain ⟨d, hd, -⟩ := he.ready x hx
  have hbecomes := becomes_outcome e r x.template
  rw [hf] at hbecomes
  cases hbecomes with
  | notFound _ hdeclarations =>
    rw [declarations_of_mem he hx] at hdeclarations
    cases hdeclarations
  | malformed _ _ hrun =>
    obtain ⟨_, hok⟩ := Substitution.exists_run hd e.settings _ (r.supply x.template)
    rw [hok] at hrun
    cases hrun
  | notRasterized _ _ _ himage => exact ⟨rfl, _, _, rfl, himage⟩

/-- In every engine with a history each source can be read, what it declares is declared, and no style is
looked up in the drawing; whatever is requested, nothing fails but the rasterizer. -/
theorem ready_of_reachable (h : e.Reachable) :
    (∀ x ∈ e.registry.entries, e.registry.declarations x.template.id = .ok x.declarations ∧
      ∃ d, Drawing.read x.template.source = .ok d ∧
        (∀ found ∈ (Extraction.ofDrawing e.settings x.template.id d).declarations,
          ∃ y ∈ x.declarations, y.name = found.name ∧ y.id = found.id) ∧
        ∀ formulas evaluations, Substitution.Declares
          { settings := e.settings, formulas, declarations := x.declarations, evaluations } d) ∧
    ∀ r, ∀ f ∈ (e.generate r).failures, f.IsRaster e.rasterizer := by
  have he := h.sound
  refine ⟨fun x hx => ⟨declarations_of_mem he hx, ?_⟩, fun r f hf => ?_⟩
  · obtain ⟨d, hd, hall⟩ := he.ready x hx
    refine ⟨d, hd, fun found hfound => ?_, fun _ _ => Substitution.declares_of_listed hall⟩
    obtain ⟨y, hy, hkey⟩ := Declaration.listed_iff.1 (hall found hfound)
    exact ⟨y, hy, congrArg (·.1) hkey, congrArg (·.2.1) hkey⟩
  · obtain ⟨x, hx, hfailed⟩ := mem_failures hf
    exact isRaster_of_failed he hx hfailed

/-- A template gets a new source with a marked element, then another that cannot be read, and there is
no rasterizer. -/
theorem ready_of_reachable_updated :
    ∃ e : Engine, e.Reachable ∧
      e.registry.entries.map (fun x => x.declarations.map (·.key)) = [[("x", "a", "t")]] ∧
      (e.generate { context := "7" }).failures.map (·.template) = ["t"] ∧
      ∀ r, ∀ f ∈ (e.generate r).failures, f.IsRaster e.rasterizer := by
  have hreach : Reachable ([Action.add { id := "t", name := "t", source := "<svg/>" },
      .update "t" "<svg><g class=\"formula\" id=\"a\">x</g></svg>", .update "t" "<svg>"].foldl after
        { rasterizer := Raster.unavailable }) := ⟨_, _, _, rfl⟩
  exact ⟨_, hreach, by decide +kernel, by decide +kernel, (ready_of_reachable hreach).2⟩

end Engine

end FormulaDrawing
