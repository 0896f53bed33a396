import FormulaDrawing.Proofs.Style.Inline
import FormulaDrawing.Proofs.Substitution.Faithfulness

/-! The style of a replacement, resolved again. Its values are written one behind the other into a style
attribute, as they are: they come back if none of them has a semicolon, and otherwise what follows the
semicolon counts as written there. -/

namespace FormulaDrawing

open Drawing

namespace Style

open Text

/-- What can be written for a property and is read back: it is trimmed, nothing stands for nothing, and
there is no semicolon in it, which does not matter for the font family. -/
structure Writable (defaults : Style) (p : Property) (v : String) : Prop where
  trimmed : Text.trimmed v = v
  given : v = "" → defaults.get p = ""
  whole : p ≠ .fontFamily → ';' ∉ v.toList

variable {d : Drawing} {h : Handle} {p : Property} {e : Element} {v id : String} {s defaults : Style}
  {source : Source} {r : Resolver}

theorem value_of_ofElement? (hv : ofElement? p e = some v) : v ≠ "" ∧ trimmed v = v := by
  rw [ofElement?] at hv
  split at hv
  next w hw =>
    obtain ⟨t, -, ht⟩ := Option.bind_eq_some_iff.1 hw
    obtain rfl := Option.some.inj hv
    exact ⟨(nonBlank?_eq_some_iff.1 ht).1, trimmed_of_nonBlank? ht⟩
  next =>
    obtain ⟨t, -, ht⟩ := Option.bind_eq_some_iff.1 hv
    obtain ⟨hne, htrimmed, -⟩ := value_of_inlineValue? ht
    exact ⟨hne, htrimmed⟩

theorem ofElement?_of_ofAttribute? (hv : ofAttribute? p e = some v) : ofElement? p e = some v := by
  rw [ofElement?, hv]

theorem value_of_find? (hv : source.find? d h p = some v) : v ≠ "" ∧ trimmed v = v := by
  cases source with
  | presentation =>
    obtain ⟨e, -, hv⟩ := Option.bind_eq_some_iff.1 hv
    exact value_of_ofElement? (ofElement?_of_ofAttribute? hv)
  | inline =>
    obtain ⟨e, -, hv⟩ := Option.bind_eq_some_iff.1 hv
    obtain ⟨t, -, ht⟩ := Option.bind_eq_some_iff.1 hv
    obtain ⟨hne, htrimmed, -⟩ := value_of_inlineValue? ht
    exact ⟨hne, htrimmed⟩
  | below =>
    obtain ⟨n, -, hv⟩ := List.exists_of_findSome?_eq_some hv
    obtain ⟨e, -, hv⟩ := Option.bind_eq_some_iff.1 hv
    exact value_of_ofElement? hv

theorem get_resolve (r : Resolver) (d : Drawing) (h : Handle) (p : Property) :
    (r.resolve d h).get p = (r.lookup? d h p).getD (r.defaults.get p) := by
  cases p <;> rfl

theorem writable_resolve (hdefault : Writable r.defaults p (r.defaults.get p)) (d : Drawing) (h : Handle) :
    Writable r.defaults p ((r.resolve d h).get p) ↔
      (p ≠ .fontFamily → ';' ∉ ((r.resolve d h).get p).toList) := by
  refine ⟨Writable.whole, fun hwhole => ?_⟩
  rw [get_resolve] at hwhole ⊢
  cases hv : r.lookup? d h p with
  | none => exact hdefault
  | some v =>
    rw [hv] at hwhole
    obtain ⟨source, -, hfind⟩ := List.exists_of_findSome?_eq_some hv
    obtain ⟨hne, htrimmed⟩ := value_of_find? hfind
    exact ⟨htrimmed, fun h => absurd h hne, hwhole⟩

section Replacement

variable (e id s)

theorem attr?_replacement {name : String} (hname : name ≠ "transform") :
    (Substitution.replacement e id s).attr? name =
      [("id", id), ("x", (Position.ofElement e).x), ("y", (Position.ofElement e).y),
        ("style", s.inline), ("font-family", s.fontFamily)].lookup name := by
  have htransform : ((Substitution.transform? e).toList.map ("transform", ·)).lookup name = none := by
    rw [List.lookup_eq_none_iff]
    intro q hq
    obtain ⟨t, -, rfl⟩ := List.mem_map.1 hq
    exact bne_iff_ne.2 hname
  rw [Substitution.replacement_eq, Element.attr?, List.lookup_append, htransform, Option.or_none]

theorem ofElement?_replacement (p : Property) : ofElement? p (Substitution.replacement e id s) =
    (if p = .fontFamily then nonBlank? s.fontFamily else none).or (inlineValue? s.inline p.name) := by
  have hname : p.name ≠ "transform" := by cases p <;> decide
  have hinline : ofInline? p (Substitution.replacement e id s) = inlineValue? s.inline p.name := by
    rw [ofInline?, attr?_replacement e id s (by decide)]
    rfl
  have hattribute : ofAttribute? p (Substitution.replacement e id s) =
      if p = .fontFamily then nonBlank? s.fontFamily else none := by
    rw [ofAttribute?, attr?_replacement e id s hname]
    cases p <;> rfl
  rw [ofElement?, hattribute, hinline]
  split
  next v hv => rw [hv, Option.some_or]
  next hnone => rw [hnone, Option.none_or]

theorem writable_replacement (hdefaults : ∀ p, Writable defaults p (defaults.get p)) (p : Property) :
    Writable defaults p ((ofElement? p (Substitution.replacement e id s)).getD (defaults.get p)) := by
  cases hv : ofElement? p (Substitution.replacement e id s) with
  | none => exact hdefaults p
  | some v =>
    obtain ⟨hne, htrimmed⟩ := value_of_ofElement? hv
    refine ⟨htrimmed, fun h => absurd h hne, fun hp => ?_⟩
    rw [ofElement?_replacement, if_neg hp, Option.none_or] at hv
    exact (value_of_inlineValue? hv).2.2

theorem getD_nonBlank? {v : String} (h : Writable defaults p v) :
    (nonBlank? v).getD (defaults.get p) = v := by
  rw [nonBlank?_of_trimmed h.trimmed]
  split
  next he => rw [Option.getD_none, h.given he, he]
  next => rfl

theorem replacement_iff (hdefaults : ∀ p, Writable defaults p (defaults.get p)) :
    (∀ p, (ofElement? p (Substitution.replacement e id s)).getD (defaults.get p) = s.get p) ↔
      ∀ p, Writable defaults p (s.get p) := by
  refine ⟨fun h p => ?_, fun h p => ?_⟩
  · rw [← h p]
    exact writable_replacement e id s hdefaults p
  have hfill : ';' ∉ s.fill.toList := (h .fill).whole (by decide)
  have hsize : ';' ∉ s.fontSize.toList := (h .fontSize).whole (by decide)
  rw [ofElement?_replacement, inlineValue?_inline hfill hsize]
  cases p with
  | fill =>
    rw [if_neg (by decide), Option.none_or]
    exact getD_nonBlank? (h .fill)
  | fontSize =>
    rw [if_neg (by decide), Option.none_or]
    exact getD_nonBlank? (h .fontSize)
  | fontFamily =>
    rw [if_pos rfl, Option.or_none]
    exact getD_nonBlank? (h .fontFamily)

end Replacement

end Style

namespace Substitution

open Text

variable {i : Input} {d : Drawing} {p : Option Handle} {b u : Layout} {h : Handle} {e x : Element}
  {name id text : String}

/-- The value a replacement should have: what the formula sets for it comes before what is declared or,
without a declaration, resolved on the element. -/
def wanted (i : Input) (d : Drawing) (h : Handle) (name id : String) (p : Style.Property) : String :=
  (override? i name p).getD ((baseStyle i d h name id).get p)

theorem textStyle_get (i : Input) (d : Drawing) (h : Handle) (name id : String) (p : Style.Property) :
    (textStyle i d h name id).get p = wanted i d h name id p := by
  rw [textStyle, wanted]
  cases hf : i.formulas.find? (·.name == name) with
  | none => cases p <;> simp [override?, hf]
  | some f => cases p <;> simp [override?, hf, Formula.styleOver, Style.get]

theorem style_holding (s : Settings) (e : Element) (text : String) (p : Style.Property) :
    ((Tree.holding e text).style s.resolver).get p =
      (Style.ofElement? p e).getD (s.defaultStyle.get p) := by
  have hvalue : ((Tree.holding e text).style s.resolver).get p =
      (Tree.holding e text).styleValue s.resolver p := by cases p <;> rfl
  have helement : (Tree.holding e text).element? = some e := rfl
  have hbelow : (Tree.holding e text).styleFrom? p .below = none := rfl
  rw [hvalue, Tree.styleValue, Settings.resolver]
  simp only [List.findSome?_cons, List.findSome?_nil, hbelow]
  rw [Tree.styleFrom?, Tree.styleFrom?, helement, Style.ofElement?]
  cases hattribute : Style.ofAttribute? p e <;> cases hinline : Style.ofInline? p e <;>
    simp [hattribute, hinline]

theorem planNode_of_replace (hb : d.Branch p b) (hn : b.handles.Nodup)
    (he : b.contents.element? = some e) (hv : verdict i b.contents = .replace x text) :
    ∃ id name v, e.id? = some id ∧ d.formulaName? i.settings.labels b.handle = some name ∧
      i.evaluations.find? name = some (.ok v) ∧
      x = replacement e id (textStyle i d b.handle name id) ∧ text = v.inscription := by
  rw [verdict, he] at hv
  dsimp only at hv
  split at hv
  next =>
    split at hv
    next name id hname hid =>
      split at hv
      next v hfind =>
        obtain ⟨rfl, rfl⟩ := Verdict.replace.inj hv
        refine ⟨id, name, v, hid, ?_, hfind, ?_, rfl⟩
        · rw [formulaName?_branch hb hn, hname]
        · rw [newText_eq i name id he, textStyle_branch hb hn]
      next => cases hv
      next => cases hv
    next => cases hv
  next => cases hv

theorem writable_wanted {p : Style.Property}
    (hdefault : Style.Writable i.settings.defaultStyle p (i.settings.defaultStyle.get p))
    (hdeclared : ∀ y ∈ i.declarations, ∃ d' h', y.style = i.settings.resolver.resolve d' h') :
    Style.Writable i.settings.defaultStyle p (wanted i d h name id p) ↔
      (p ≠ .fontFamily → ';' ∉ (wanted i d h name id p).toList) := by
  rw [wanted]
  cases hv : override? i name p with
  | some v =>
    obtain ⟨o, ho⟩ : ∃ o : Option String, o.bind nonBlank? = some v := by
      cases p with
      | fill => obtain ⟨f, -, hf⟩ := Option.bind_eq_some_iff.1 hv; exact ⟨_, hf⟩
      | fontSize => obtain ⟨f, -, hf⟩ := Option.bind_eq_some_iff.1 hv; exact ⟨_, hf⟩
      | fontFamily => cases hv
    obtain ⟨t, -, ht⟩ := Option.bind_eq_some_iff.1 ho
    refine ⟨Style.Writable.whole, fun hwhole => ⟨trimmed_of_nonBlank? ht, fun he => ?_, hwhole⟩⟩
    exact absurd he (nonBlank?_eq_some_iff.1 ht).1
  | none =>
    obtain ⟨d', h', hbase⟩ : ∃ d' h', baseStyle i d h name id = i.settings.resolver.resolve d' h' := by
      rw [baseStyle]
      split
      next y hy => exact hdeclared y (List.mem_of_find?_eq_some hy)
      next => exact ⟨d, h, rfl⟩
    rw [Option.getD_none, hbase]
    exact Style.writable_resolve (r := i.settings.resolver) hdefault d' h'

theorem exists_replacements (hb : d.Laid b) (i : Input) :
    ∃ b', (apply i d).1.Laid b' ∧ ∃ place : Handle → Handle,
      Set.InjOn place {h | h ∈ d.marked i.settings.markerClass ∧ Replaced i d h ∧ ¬ Covered i d h} ∧
      ∀ h ∈ d.marked i.settings.markerClass, Replaced i d h → ¬ Covered i d h →
        ∃ e name id v, d.element? h = some e ∧ e.id? = some id ∧
          d.formulaName? i.settings.labels h = some name ∧ i.evaluations.find? name = some (.ok v) ∧
          ∃ c ∈ b'.subtrees, c.handle = place h ∧
            c.contents = .holding (replacement e id (textStyle i d h name id)) v.inscription := by
  obtain ⟨b', hb', place, hinj, hplace⟩ := exists_places hb i
  refine ⟨b', hb', place, hinj.mono fun h ⟨hh, _, hcovered⟩ => ?_, fun h hh hreplaced hcovered => ?_⟩
  · obtain ⟨u, hu, rfl, -⟩ := exists_of_mem_marked hb hh
    exact List.mem_map_of_mem ((mem_standing_iff hb hu).2 hcovered)
  · obtain ⟨u, hu, rfl, e, he, hm⟩ := exists_of_mem_marked hb hh
    obtain ⟨q, hq⟩ := hb.branch.of_mem_subtrees hu
    obtain ⟨hroot, x, text, hv⟩ := (replaced_iff hb hu he hm).1 hreplaced
    obtain ⟨id, name, v, hid, hname, hfind, rfl, rfl⟩ :=
      planNode_of_replace hq (hb.nodup.sublist (Tree.handles_sublist hu)) he hv
    obtain ⟨c, hc, hcu, hcontents⟩ := hplace u ((mem_standing_iff hb hu).2 hcovered)
    rw [becomeIn, if_neg (hb.top ▸ hroot), become, hv] at hcontents
    exact ⟨e, name, id, v, hq.element?_eq.trans he, hid, hname, hfind, c, hc, hcu, hcontents⟩

/-- A replacement that stands in the result is resolved to the style it should have exactly if each value
of it can be written; if what is declared was resolved with the same defaults, exactly if its fill and its
font size have no semicolons. -/
theorem style_of_replacement {source : String} (hread : Drawing.read source = .ok d) (i : Input)
    (hdefaults : ∀ p, Style.Writable i.settings.defaultStyle p (i.settings.defaultStyle.get p)) :
    ∃ place : Handle → Handle,
      Set.InjOn place {h | h ∈ d.marked i.settings.markerClass ∧ Replaced i d h ∧ ¬ Covered i d h} ∧
      ∀ h ∈ d.marked i.settings.markerClass, Replaced i d h → ¬ Covered i d h →
        ∃ e name id v, d.element? h = some e ∧ e.id? = some id ∧
          d.formulaName? i.settings.labels h = some name ∧ i.evaluations.find? name = some (.ok v) ∧
          place h ∈ (apply i d).1.elements ∧
          (apply i d).1.element? (place h) = some (replacement e id (textStyle i d h name id)) ∧
          (apply i d).1.ownText (place h) = v.inscription ∧
          ((∀ p, (i.settings.resolver.resolve (apply i d).1 (place h)).get p =
              wanted i d h name id p) ↔
            ∀ p, Style.Writable i.settings.defaultStyle p (wanted i d h name id p)) ∧
          ((∀ y ∈ i.declarations, ∃ d' h', y.style = i.settings.resolver.resolve d' h') →
            ((∀ p, (i.settings.resolver.resolve (apply i d).1 (place h)).get p =
                wanted i d h name id p) ↔
              ∀ p ≠ .fontFamily, ';' ∉ (wanted i d h name id p).toList)) := by
  obtain ⟨b, hb, -⟩ := laid_of_read hread
  obtain ⟨b', hb', place, hinj, hplace⟩ := exists_replacements hb i
  refine ⟨place, hinj, fun h hh hreplaced hcovered => ?_⟩
  obtain ⟨e, name, id, v, he, hid, hname, hfind, c, hc, hch, hcontents⟩ := hplace h hh hreplaced hcovered
  obtain ⟨q, hq⟩ := hb'.branch.of_mem_subtrees hc
  have helement : c.contents.element? = some (replacement e id (textStyle i d h name id)) := by
    rw [hcontents]
    rfl
  -- There is no element below a replacement, so that its style is read off its own attributes.
  have hfound : (∀ p, (i.settings.resolver.resolve (apply i d).1 (place h)).get p =
      wanted i d h name id p) ↔ ∀ p, Style.Writable i.settings.defaultStyle p (wanted i d h name id p) := by
    have hresolve := resolve_branch hq (hb'.nodup.sublist (Tree.handles_sublist hc)) i.settings.resolver
    rw [← hch, hresolve, hcontents]
    simp only [style_holding, ← textStyle_get]
    exact Style.replacement_iff e id _ hdefaults
  refine ⟨e, name, id, v, he, hid, hname, hfind, ?_, ?_, ?_, hfound, fun hdeclared => hfound.trans ?_⟩
  · exact hch ▸ mem_elements hb' hc (by rw [helement]; rfl)
  · rw [← hch, hq.element?_eq, helement]
  · rw [← hch, hq.ownText, hcontents]
    exact String.empty_append
  · exact forall_congr' fun p => writable_wanted (hdefaults p) hdeclared

/-- The element has its fill from an attribute, with blanks around and a colon in it, and its font size from
the formula. -/
theorem style_of_replacement_colon :
    let source :=
      "<svg><g class=\"formula\" id=\"a\" fill=\" url(a:b) \" style=\"font-size:3mm\">f</g></svg>"
    let i : Input :=
      { settings := {}, formulas := [{ name := "f", expression := "1", fontSize := some " 4mm" }]
        declarations := [], evaluations := [("f", .ok (.number 1))] }
    ∃ d k, Drawing.read source = .ok d ∧ k ∈ (apply i d).1.elements ∧ (apply i d).1.ownText k = "1" ∧
      ∀ p, (i.settings.resolver.resolve (apply i d).1 k).get p =
        Style.get { fill := "url(a:b)", fontSize := "4mm" } p := by
  intro source i
  let e : Element :=
    { name := "g"
      attributes := [("class", "formula"), ("id", "a"), ("fill", " url(a:b) "), ("style", "font-size:3mm")] }
  let d : Drawing :=
    { nodes := #[{ content := .element { name := "svg" }, children := [1] },
        { content := .element e, parent := some 0, children := [2] },
        { content := .text "f", parent := some 1 }] }
  have hread : Drawing.read source = .ok d := by decide +kernel
  have hdefaults : ∀ p, Style.Writable {} p (Style.get {} p) := by
    intro p
    cases p <;> exact ⟨by decide, by decide, by decide⟩
  have hwanted : ∀ p, wanted i d 1 "f" "a" p = Style.get { fill := "url(a:b)", fontSize := "4mm" } p := by
    intro p
    cases p <;> decide +kernel
  have hwritable : ∀ p, Style.Writable {} p (wanted i d 1 "f" "a" p) := by
    intro p
    rw [hwanted]
    cases p <;> exact ⟨by decide, by decide, by decide⟩
  obtain ⟨place, -, hplace⟩ := style_of_replacement hread i hdefaults
  obtain ⟨e', name, id, v, he, hid, hname, hfind, hmem, -, htext, hstyle, -⟩ :=
    hplace 1 (by decide +kernel) (by decide +kernel) (by decide +kernel)
  obtain rfl : e' = e := Option.some.inj (he.symm.trans (by decide +kernel))
  obtain rfl : id = "a" := Option.some.inj (hid.symm.trans (by decide +kernel))
  obtain rfl : name = "f" := Option.some.inj (hname.symm.trans (by decide +kernel))
  obtain rfl : v = .number 1 := Except.ok.inj (Option.some.inj (hfind.symm.trans (by decide +kernel)))
  refine ⟨d, place 1, hread, hmem, htext.trans (by decide +kernel), fun p => ?_⟩
  rw [hstyle.2 hwritable p, hwanted]

/-- A semicolon in an attribute ends the fill, and what follows it comes before the font size that the
formula sets. -/
theorem style_lost_behind_semicolon :
    let source := "<svg><text class=\"formula\" id=\"a\" fill=\"red;font-size:99px\">f</text></svg>"
    let i : Input :=
      { settings := { errorStyle := false }
        formulas := [{ name := "f", expression := "1", fontSize := some "4mm" }]
        declarations := [{ name := "f", id := "a", template := "t", style := { fill := "red;font-size:99px" } }]
        evaluations := [("f", .ok (.number 1))] }
    ∃ d, Drawing.read source = .ok d ∧ (Extraction.ofDrawing i.settings "t" d).declarations = i.declarations ∧
      d.marked i.settings.markerClass = [1] ∧ Replaced i d 1 ∧ ¬ Covered i d 1 ∧
      wanted i d 1 "f" "a" .fill = "red;font-size:99px" ∧ wanted i d 1 "f" "a" .fontSize = "4mm" ∧
      (∃ k ∈ (apply i d).1.elements, (apply i d).1.attr? k "id" = some "a") ∧
      ∀ k ∈ (apply i d).1.elements, i.settings.resolver.resolve (apply i d).1 k =
        { fill := "red", fontSize := "99px" } := by
  intro source i
  have hread : Drawing.read source = .ok
      { nodes := #[{ content := .element { name := "svg" }, children := [1] },
          { content := .element
              { name := "text"
                attributes := [("class", "formula"), ("id", "a"), ("fill", "red;font-size:99px")] },
            parent := some 0, children := [2] },
          { content := .text "f", parent := some 1 }] } := by
    decide +kernel
  exact ⟨_, hread, by decide +kernel, by decide +kernel, by decide +kernel, by decide +kernel,
    by decide +kernel, by decide +kernel, by decide +kernel, by decide +kernel⟩

end Substitution

end FormulaDrawing
