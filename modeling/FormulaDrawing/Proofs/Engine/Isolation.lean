import FormulaDrawing.Proofs.Engine.History
import FormulaDrawing.Proofs.Engine.Outcome

/-! What becomes of the templates in a generation. Every template comes out once, and how it comes out is
decided by its own entry. -/

namespace FormulaDrawing.Engine

def Outcome.template : Outcome → String
  | produced p => p.template
  | skipped template _ => template
  | failed f => f.template

/-- Each identifier is in one of the three lists, once, and each list is in their order. -/
structure Generation.Sorts (g : Generation) (ids : List String) : Prop where
  perm : (g.outputs.map (·.template) ++ g.skipped.map (·.1) ++ g.failures.map (·.template)).Perm ids
  outputs : (g.outputs.map (·.template)).Sublist ids
  skipped : (g.skipped.map (·.1)).Sublist ids
  failures : (g.failures.map (·.template)).Sublist ids

/-- What there is about one template. -/
def Generation.about (g : Generation) (id : String) : Generation where
  outputs := g.outputs.filter (·.template == id)
  skipped := g.skipped.filter (·.1 == id)
  failures := g.failures.filter (·.template == id)

/-- One of the explicit selections, or the value of a binding. -/
def Request.Selects (r : Request) (attr value : String) : Prop :=
  ⟨attr, value⟩ ∈ r.selections ∨ ∃ b ∈ r.bindings, b.attr = attr ∧ b.value = value

variable {e other : Engine} {r : Request} {t : Template} {id : String} {reason : SkipReason}

section Outcomes

theorem Generation.sorts_ofOutcomes (os : List Outcome) :
    (Generation.ofOutcomes os).Sorts (os.map (·.template)) := by
  induction os with
  | nil => exact ⟨.nil, .slnil, .slnil, .slnil⟩
  | cons o os ih =>
    cases o with
    | produced p =>
      exact ⟨ih.perm.cons _, ih.outputs.cons_cons _, ih.skipped.cons _, ih.failures.cons _⟩
    | skipped template reason =>
      refine ⟨?_, ih.outputs.cons _, ih.skipped.cons_cons _, ih.failures.cons _⟩
      have hmiddle := ih.perm.cons template
      rw [List.append_assoc] at hmiddle
      refine .trans ?_ hmiddle
      rw [List.append_assoc]
      exact List.perm_middle
    | failed f =>
      exact ⟨List.perm_middle.trans (ih.perm.cons _), ih.outputs.cons _, ih.skipped.cons _,
        ih.failures.cons_cons _⟩

theorem filter_filterMap {α : Type} {f : Outcome → Option α} {key : α → String}
    (hkey : ∀ o a, f o = some a → key a = o.template) (os : List Outcome) (id : String) :
    (os.filterMap f).filter (key · == id) = (os.filter (·.template == id)).filterMap f := by
  rw [List.filter_filterMap, List.filterMap_filter]
  refine List.filterMap_congr fun o _ => ?_
  cases h : f o with
  | none => simp
  | some a => simp [Option.filter, hkey o a h]

theorem Generation.about_ofOutcomes (os : List Outcome) (id : String) :
    (Generation.ofOutcomes os).about id = .ofOutcomes (os.filter (·.template == id)) := by
  rw [about, ofOutcomes, ofOutcomes, Generation.mk.injEq]
  refine ⟨filter_filterMap ?_ os id, filter_filterMap ?_ os id, filter_filterMap ?_ os id⟩
  all_goals
    rintro (_ | _ | _) a ⟨⟩
    rfl

theorem template_outcome (e : Engine) (r : Request) (t : Template) :
    (e.outcome r t).template = t.id := by
  have hbecomes := becomes_outcome e r t
  generalize e.outcome r t = o at hbecomes ⊢
  cases hbecomes <;> rfl

theorem sorts_generate (e : Engine) (r : Request) : (e.generate r).Sorts e.registry.ids := by
  have hids : (e.registry.templates.map (e.outcome r)).map (·.template) = e.registry.ids := by
    rw [List.map_map, Registry.templates, List.map_map]
    exact List.map_congr_left fun x _ => template_outcome e r x.template
  exact hids ▸ Generation.sorts_ofOutcomes _

end Outcomes

section Skipped

theorem Request.mem_allSelections_iff {attr value : String} :
    ⟨attr, value⟩ ∈ r.allSelections ↔ r.Selects attr value := by
  simp [allSelections, Selects, Binding.selection]

theorem applies_eq_false_iff : t.applies r.allSelections = false ↔
    ∃ f, t.filter = some f ∧ ∀ v ∈ f.values, ¬ r.Selects f.attr v := by
  have haccepts : ∀ f : Filter, f.accepts r.allSelections = false ↔
      ∀ v ∈ f.values, ¬ r.Selects f.attr v := by
    intro f
    rw [Filter.accepts, List.any_eq_false]
    constructor
    · intro h v hv hselects
      refine h _ (Request.mem_allSelections_iff.2 hselects) ?_
      simpa using hv
    · rintro h ⟨attr, v⟩ hs hmatch
      obtain ⟨rfl, hv⟩ : attr = f.attr ∧ v ∈ f.values := by simpa using hmatch
      exact h v hv (Request.mem_allSelections_iff.1 hs)
  unfold Template.applies
  cases t.filter with
  | none => simp
  | some f => simp [haccepts f]

theorem outcome_eq_otherKind_iff :
    e.outcome r t = .skipped t.id .otherKind ↔ t.kind ≠ r.kind := by
  have hbecomes := becomes_outcome e r t
  generalize e.outcome r t = o at hbecomes ⊢
  cases hbecomes with
  | otherKind hkind => simp [hkind]
  | notApplicable hkind _ => simp [hkind]
  | notFound hchosen _ => simp [hchosen.1]
  | malformed hchosen _ _ => simp [hchosen.1]
  | notRasterized hchosen _ _ _ => simp [hchosen.1]
  | produced hchosen _ _ _ => simp [hchosen.1]

theorem outcome_eq_notApplicable_iff : e.outcome r t = .skipped t.id .notApplicable ↔
    t.kind = r.kind ∧ t.applies r.allSelections = false := by
  have hbecomes := becomes_outcome e r t
  generalize e.outcome r t = o at hbecomes ⊢
  cases hbecomes with
  | otherKind hkind => simp [hkind]
  | notApplicable hkind happlies => simp [hkind, happlies]
  | notFound hchosen _ => simp [hchosen.2]
  | malformed hchosen _ _ => simp [hchosen.2]
  | notRasterized hchosen _ _ _ => simp [hchosen.2]
  | produced hchosen _ _ _ => simp [hchosen.2]

theorem mem_skipped_iff (hn : e.registry.ids.Nodup) (ht : t ∈ e.registry.templates) :
    (t.id, reason) ∈ (e.generate r).skipped ↔ e.outcome r t = .skipped t.id reason := by
  have hids : (e.registry.templates.map (·.id)).Nodup := by
    rw [Registry.templates, List.map_map]
    exact hn
  constructor
  · intro h
    obtain ⟨o, ho, hskipped⟩ := List.mem_filterMap.1 h
    obtain ⟨u, hu, rfl⟩ := List.mem_map.1 ho
    have hout : e.outcome r u = .skipped t.id reason := Outcome.skipped?_eq_some_iff.1 hskipped
    have hid : u.id = t.id := by rw [← template_outcome e r u, hout, Outcome.template]
    rwa [List.inj_on_of_nodup_map hids hu ht hid] at hout
  · intro h
    exact List.mem_filterMap.2
      ⟨_, List.mem_map_of_mem ht, Outcome.skipped?_eq_some_iff.2 h⟩

end Skipped

section Isolation

theorem outcome_congr (hsettings : other.settings = e.settings)
    (hrasterizer : other.rasterizer = e.rasterizer)
    (hentry : other.registry.entry? t.id = e.registry.entry? t.id) :
    other.outcome r t = e.outcome r t := by
  unfold outcome produce Registry.declarations Registry.find
  rw [hsettings, hrasterizer, hentry]

theorem filter_templates {r : Registry} (hn : r.ids.Nodup) (id : String) :
    r.templates.filter (·.id == id) = (r.get? id).toList := by
  have hall : ∀ xs : List Entry, (xs.map (·.template.id)).Nodup →
      (xs.map (·.template)).filter (·.id == id) =
        ((xs.find? (·.template.id == id)).map (·.template)).toList := by
    intro xs hxs
    induction xs with
    | nil => rfl
    | cons x xs ih =>
      obtain ⟨hx, hxs⟩ := List.nodup_cons.1 hxs
      rw [List.map_cons, List.filter_cons, List.find?_cons, ih hxs]
      cases hid : x.template.id == id with
      | false => rfl
      | true =>
        have hnone : xs.find? (·.template.id == id) = none := by
          refine List.find?_eq_none.2 fun y hy hyid => hx ?_
          exact List.mem_map.2 ⟨y, hy, (beq_iff_eq.1 hyid).trans (beq_iff_eq.1 hid).symm⟩
        rw [hnone]
        rfl
  exact hall r.entries hn

theorem about_generate (hn : e.registry.ids.Nodup) (r : Request) (id : String) :
    (e.generate r).about id = .ofOutcomes ((e.registry.get? id).map (e.outcome r)).toList := by
  have hsame : ((·.template == id) ∘ e.outcome r) = fun t : Template => t.id == id := by
    funext t
    rw [Function.comp_apply, template_outcome]
  rw [generate, Generation.about_ofOutcomes, List.filter_map, hsame, filter_templates hn]
  cases e.registry.get? id <;> rfl

theorem about_congr (hn : e.registry.ids.Nodup) (hn' : other.registry.ids.Nodup)
    (hsettings : other.settings = e.settings) (hrasterizer : other.rasterizer = e.rasterizer)
    (hentry : other.registry.entry? id = e.registry.entry? id) :
    (other.generate r).about id = (e.generate r).about id := by
  rw [about_generate hn, about_generate hn', Registry.get?, Registry.get?, hentry]
  cases hx : e.registry.entry? id with
  | none => rfl
  | some x =>
    have hid : x.template.id = id := by simpa using List.find?_some hx
    rw [← hid] at hentry
    rw [Option.map_some, Option.map_some, Option.map_some,
      outcome_congr hsettings hrasterizer hentry]

end Isolation

/-- In an engine with a history every template comes out of a generation once: skipped if it is of another
kind, or else if it has a filter and none of the values that it accepts is selected, and otherwise as an
output or a failure. Other templates make no difference to that. -/
theorem sorts_of_reachable (he : e.Reachable) (r : Request) :
    e.registry.ids.Nodup ∧ (e.generate r).Sorts e.registry.ids ∧
      (∀ t ∈ e.registry.templates,
        ((t.id, .otherKind) ∈ (e.generate r).skipped ↔ t.kind ≠ r.kind) ∧
        ((t.id, .notApplicable) ∈ (e.generate r).skipped ↔ t.kind = r.kind ∧
          ∃ f, t.filter = some f ∧ ∀ v ∈ f.values, ¬ r.Selects f.attr v)) ∧
      ∀ other : Engine, other.Reachable → other.settings = e.settings →
        other.rasterizer = e.rasterizer → ∀ id, other.registry.entry? id = e.registry.entry? id →
          (other.generate r).about id = (e.generate r).about id := by
  have hn := he.sound.nodup
  refine ⟨hn, sorts_generate e r, fun t ht => ⟨?_, ?_⟩,
    fun other hother hsettings hrasterizer id => ?_⟩
  · rw [mem_skipped_iff hn ht, outcome_eq_otherKind_iff]
  · rw [mem_skipped_iff hn ht, outcome_eq_notApplicable_iff, applies_eq_false_iff]
  · exact about_congr hn hother.sound.nodup hsettings hrasterizer

/-- One template is of another kind, one is refused by its filter and one by the rasterizer. The one that
comes through does so alike when the others are gone. -/
theorem sorts_of_reachable_mixed :
    ∃ (e other : Engine) (r : Request), e.Reachable ∧ other.Reachable ∧
      ((e.generate r).outputs.map (·.template) = ["a"] ∧
        (e.generate r).skipped = [("b", .otherKind), ("c", .notApplicable)] ∧
        (e.generate r).failures.map (·.template) = ["d"]) ∧
      (e.generate r).Sorts e.registry.ids ∧ other.registry.ids = ["a"] ∧
      (other.generate r).about "a" = (e.generate r).about "a" := by
  let start : Engine :=
    { rasterizer := fun document =>
        if document.toList.contains 'q' then .error (.unavailable "q") else .ok .empty }
  let add : List Action :=
    [.add { id := "a", name := "a", source := "<svg/>" },
      .add { id := "b", name := "b", kind := .procurement, source := "<svg/>" },
      .add { id := "c", name := "c", source := "<svg/>", filter := some ⟨"w", ["5"]⟩ },
      .add { id := "d", name := "d", source := "<svg q=\"\"/>" }]
  let e := add.foldl after start
  let other := [.remove "b", .remove "c", .remove "d"].foldl after e
  let r : Request := { context := "7", bindings := [{ attr := "w", value := "6" }] }
  have he : e.Reachable := ⟨_, _, add, rfl⟩
  have hother : other.Reachable :=
    ⟨_, _, add ++ [.remove "b", .remove "c", .remove "d"], by rw [List.foldl_append]⟩
  have hsettings : other.settings = e.settings := by dsimp only [other, List.foldl, after, remove]
  have hrasterizer : other.rasterizer = e.rasterizer := by
    dsimp only [other, List.foldl, after, remove]
  have hentry : other.registry.entry? "a" = e.registry.entry? "a" := by decide +kernel
  obtain ⟨-, hsorts, -, hisolated⟩ := sorts_of_reachable he r
  exact ⟨e, other, r, he, hother, by decide +kernel, hsorts, by decide +kernel,
    hisolated other hother hsettings hrasterizer "a" hentry⟩

end FormulaDrawing.Engine
