import FormulaDrawing.Proofs.Substitution.Recursion

/-! The plan decides what the recursion decides: everything that is looked up in a drawing is found in
the tree that it shows. -/

namespace FormulaDrawing

open Drawing

namespace Tree

theorem element?_contents (b : Layout) : b.contents.element? = b.label.2.element? := by
  rw [element?, label_contents]

theorem elementsBelow_contents (b : Layout) : b.contents.elementsBelow =
    ((b.children.flatMap subtrees).filter fun c => c.contents.element?.isSome).map contents := by
  have hbelow : (b.children.map contents).flatMap subtrees =
      (b.children.flatMap subtrees).map contents := by
    rw [List.flatMap_map, List.map_flatMap]
    exact List.flatMap_congr fun c _ => subtrees_contents c
  rw [elementsBelow, children_contents, hbelow, List.filter_map]
  rfl

end Tree

namespace Drawing

variable {d : Drawing} {p : Option Handle} {b : Layout}

theorem Branch.element?_eq (hb : d.Branch p b) : d.element? b.handle = b.contents.element? := by
  rw [hb.element?, Tree.element?_contents]

theorem Branch.attr? (hb : d.Branch p b) (name : String) :
    d.attr? b.handle name = b.contents.attr? name := by
  rw [Drawing.attr?, hb.element?_eq, Tree.attr?]

theorem leadingText_children {cs : List Layout} (hcs : ∀ c ∈ cs, ∃ q, d.Branch q c) :
    ((cs.map Tree.handle).takeWhile fun h => (d.element? h).isNone).filterMap d.text? =
      ((cs.map Tree.contents).takeWhile fun u => u.element?.isNone).filterMap (·.label.text?) := by
  induction cs with
  | nil => rfl
  | cons c cs ih =>
    obtain ⟨q, hc⟩ := hcs c (by simp)
    rw [List.map_cons, List.map_cons, List.takeWhile_cons, List.takeWhile_cons, hc.element?_eq]
    split
    · rw [List.filterMap_cons, List.filterMap_cons, hc.text?, Tree.label_contents,
        ih fun c hc => hcs c (by simp [hc])]
    · rfl

theorem Branch.leadingText (hb : d.Branch p b) :
    d.leadingText b.handle = b.contents.leadingText := by
  rw [Drawing.leadingText, hb.children, Tree.leadingText, Tree.children_contents,
    leadingText_children fun c hc => ⟨_, hb.of_mem_children hc⟩]

theorem Branch.nameTexts (hb : d.Branch p b) (labels : List String) :
    d.nameTexts labels b.handle = b.contents.nameTexts labels := by
  rw [Drawing.nameTexts, hb.leadingText, Tree.nameTexts]
  congr 2
  exact funext hb.attr?

theorem Branch.of_mem_below (hb : d.Branch p b) {c : Layout}
    (hc : c ∈ b.children.flatMap Tree.subtrees) : ∃ q, d.Branch q c := by
  obtain ⟨u, hu, hc⟩ := List.mem_flatMap.1 hc
  exact (hb.of_mem_children hu).of_mem_subtrees hc

theorem descendantElements_branch (hb : d.Branch p b) (hn : b.handles.Nodup) :
    d.descendantElements b.handle =
      ((b.children.flatMap Tree.subtrees).filter fun c => c.contents.element?.isSome).map
        Tree.handle := by
  rw [descendantElements, descendants_branch hb hn, List.filter_map]
  congr 1
  refine List.filter_congr fun c hc => ?_
  obtain ⟨q, hc⟩ := hb.of_mem_below hc
  rw [Function.comp_apply, hc.element?_eq]

theorem formulaName?_branch (hb : d.Branch p b) (hn : b.handles.Nodup) (labels : List String) :
    d.formulaName? labels b.handle = b.contents.formulaName? labels := by
  have hbelow : ((b.children.flatMap Tree.subtrees).filter fun c =>
        c.contents.element?.isSome).flatMap (fun c => d.nameTexts labels c.handle) =
      ((b.children.flatMap Tree.subtrees).filter fun c =>
        c.contents.element?.isSome).flatMap fun c => c.contents.nameTexts labels := by
    refine List.flatMap_congr fun c hc => ?_
    obtain ⟨q, hc⟩ := hb.of_mem_below (List.mem_of_mem_filter hc)
    exact hc.nameTexts labels
  rw [Drawing.formulaName?, descendantElements_branch hb hn, Tree.formulaName?,
    Tree.elementsBelow_contents, List.flatMap_cons, List.flatMap_cons, hb.nameTexts,
    List.flatMap_map, List.flatMap_map, hbelow]

theorem styleFrom?_branch (hb : d.Branch p b) (hn : b.handles.Nodup) (property : Style.Property)
    (source : Style.Source) :
    source.find? d b.handle property = b.contents.styleFrom? property source := by
  cases source with
  | presentation => rw [Style.Source.find?, hb.element?_eq, Tree.styleFrom?]
  | inline => rw [Style.Source.find?, hb.element?_eq, Tree.styleFrom?]
  | below =>
    rw [Style.Source.find?, descendantElements_branch hb hn, Tree.styleFrom?,
      Tree.elementsBelow_contents, List.findSome?_map, List.findSome?_map,
      ← List.head?_filterMap, ← List.head?_filterMap]
    congr 1
    refine List.filterMap_congr fun c hc => ?_
    obtain ⟨q, hc⟩ := hb.of_mem_below (List.mem_of_mem_filter hc)
    rw [Function.comp_apply, Function.comp_apply, hc.element?_eq]

theorem resolve_branch (hb : d.Branch p b) (hn : b.handles.Nodup) (r : Style.Resolver) :
    r.resolve d b.handle = b.contents.style r := by
  have hlookup : ∀ property, r.lookup? d b.handle property =
      r.order.findSome? (b.contents.styleFrom? property) := fun property => by
    rw [Style.Resolver.lookup?]
    congr 1
    exact funext (styleFrom?_branch hb hn property)
  rw [Style.Resolver.resolve, hlookup, hlookup, hlookup]
  rfl

end Drawing

namespace Substitution

variable {d : Drawing} {p : Option Handle} {b : Layout}

theorem replacement_eq (e : Element) (id : String) (style : Style) : replacement e id style =
    { name := "text"
      attributes := [("id", id), ("x", (Position.ofElement e).x), ("y", (Position.ofElement e).y),
        ("style", style.inline), ("font-family", style.fontFamily)] ++
        (transform? e).toList.map ("transform", ·) } := by
  rw [replacement]
  cases transform? e <;> rfl

theorem warning_eq (s : Settings) (e : Element) : warning s e =
    { name := "text"
      attributes := [("x", ((Position.ofElement e).shift s.warningOffset).x),
        ("y", ((Position.ofElement e).shift s.warningOffset).y), ("fill", s.warningFill),
        ("font-size", s.warningFontSize), ("font-weight", "bold")] } := rfl

section New

variable {t : Tree Content} {e : Element} (i : Input) (name id : String)

theorem place_eq (he : t.element? = some e) : t.place = Position.ofElement e := by
  simp only [Tree.place, Tree.coordinate, Tree.attr?, he, Option.map_some, Option.bind_some,
    Option.some.injEq]
  rfl

/-- The style that the values of the recursion make up. -/
def styleOf (t : Tree Content) : Style where
  fill := styleValue i t name id .fill
  fontSize := styleValue i t name id .fontSize
  fontFamily := styleValue i t name id .fontFamily

theorem newText_eq (he : t.element? = some e) :
    newText i t name id = replacement e id (styleOf i name id t) := by
  rw [newText, replacement_eq, place_eq he, Tree.attr?, he]
  rfl

theorem newWarning_eq (s : Settings) (he : t.element? = some e) : newWarning s t = warning s e := by
  rw [newWarning, warning_eq, place_eq he]

theorem newRule_eq (s : Settings) :
    newRule s = .holding { name := "style" } (styleRule s.errorClass) := rfl

end New

theorem textStyle_branch (hb : d.Branch p b) (hn : b.handles.Nodup) (i : Input)
    (name id : String) : textStyle i d b.handle name id = styleOf i name id b.contents := by
  rw [textStyle, baseStyle, resolve_branch hb hn, styleOf]
  simp only [styleValue, override?]
  cases i.declarations.find? fun x => x.name == name && x.id == id <;>
    cases i.formulas.find? (·.name == name) <;> rfl

theorem planNode_branch (hb : d.Branch p b) (hn : b.handles.Nodup) (i : Input) {e : Element}
    (he : b.contents.element? = some e) (hm : e.hasClass i.settings.markerClass = true) :
    (planNode i d b.handle e).1 = (verdict i b.contents).edit? b.handle := by
  unfold planNode verdict
  rw [formulaName?_branch hb hn, he]
  simp only [hm, if_true, textStyle_branch hb hn, newText_eq i _ _ he, newWarning_eq _ he]
  cases b.contents.formulaName? i.settings.labels with
  | none => rfl
  | some name =>
    cases e.id? with
    | none => rfl
    | some id =>
      dsimp only
      cases i.evaluations.find? name with
      | none => rfl
      | some result => cases result <;> rfl

/-- The edit planned for a node, marked or not. -/
def editAt (i : Input) (d : Drawing) (h : Handle) : Option Edit :=
  (d.element? h).bind fun e =>
    if e.hasClass i.settings.markerClass then (planNode i d h e).1 else none

theorem edits_elements (i : Input) (d : Drawing) :
    (plan i d).filterMap (·.1) = d.elements.filterMap (editAt i d) := by
  rw [plan, marked, List.filterMap_filterMap, List.filterMap_filter]
  refine List.filterMap_congr fun h _ => ?_
  rw [editAt]
  cases d.element? h with
  | none => rfl
  | some e => simp only [Option.any_some, Option.map_some, Option.bind_some]

theorem editAt_branch (hb : d.Branch p b) (hn : b.handles.Nodup) (i : Input) :
    editAt i d b.handle = (verdict i b.contents).edit? b.handle := by
  rw [editAt, hb.element?_eq]
  cases he : b.contents.element? with
  | none => rw [verdict, he]; rfl
  | some e =>
    by_cases hm : e.hasClass i.settings.markerClass = true
    · rw [Option.bind_some, if_pos hm, planNode_branch hb hn i he hm]
    · rw [Option.bind_some, if_neg hm, verdict, he]
      simp [hm, Verdict.edit?]

/-- The edits of the plan, in document order. It does not matter that texts and comments are left out,
since nothing is planned for them. -/
theorem edits_plan (hb : d.Laid b) (i : Input) :
    (plan i d).filterMap (·.1) =
      b.subtrees.filterMap fun c => (verdict i c.contents).edit? c.handle := by
  have hnone : ∀ c ∈ b.children.flatMap Tree.subtrees,
      (if c.contents.element?.isSome then editAt i d c.handle else none) = editAt i d c.handle := by
    intro c hc
    obtain ⟨q, hq⟩ := hb.branch.of_mem_below hc
    rw [editAt, hq.element?_eq]
    cases c.contents.element? with
    | none => rfl
    | some e => rw [Option.isSome_some, if_pos rfl]
  have helements : d.elements.filterMap (editAt i d) =
      b.subtrees.filterMap fun c => editAt i d c.handle := by
    rw [elements, ← hb.top, descendantElements_branch hb.branch hb.nodup, Tree.subtrees_eq,
      List.filterMap_cons, List.filterMap_cons, List.filterMap_map, List.filterMap_filter]
    simp only [Function.comp_apply]
    rw [List.filterMap_congr hnone]
  rw [edits_elements, helements]
  refine List.filterMap_congr fun c hc => ?_
  obtain ⟨q, hq⟩ := hb.branch.of_mem_subtrees hc
  exact editAt_branch hq (hb.nodup.sublist (Tree.handles_sublist hc)) i

end Substitution

end FormulaDrawing
