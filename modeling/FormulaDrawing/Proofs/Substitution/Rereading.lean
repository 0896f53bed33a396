import FormulaDrawing.Proofs.Drawing.Class
import FormulaDrawing.Proofs.Drawing.Legibility
import FormulaDrawing.Proofs.Substitution.Refinement
import FormulaDrawing.Proofs.Substitution.Reported

/-! Whether the result of a substitution can be read. What substitution adds is legible, whatever the
settings and the values are, and so is what it leaves as it was, if the tags of the template are clear.
Of other templates the writer makes documents that cannot be read: names are written as they stand,
with their quotes, and an element with no name and no attributes as an end tag. -/

namespace FormulaDrawing

open Markup Drawing

namespace Element

variable {name : String}

theorem forall_names_setFirst {P : String → Prop} {l : List (String × String)}
    (hl : ∀ a ∈ l, P a.1) (hname : P name) (value : String) : ∀ a ∈ setFirst name value l, P a.1 := by
  rw [← List.forall_mem_map (f := Prod.fst) (P := P)] at hl ⊢
  rcases names_setFirst name value l with h | ⟨-, h⟩
  · rwa [h]
  · rw [h, List.forall_mem_append, List.forall_mem_singleton]
    exact ⟨hl, hname⟩

theorem setFirst_ne_nil (name value : String) (l : List (String × String)) :
    setFirst name value l ≠ [] := by
  cases l with
  | nil => exact List.cons_ne_nil _ _
  | cons a l =>
    rw [setFirst]
    split <;> exact List.cons_ne_nil _ _

end Element

namespace Markup

variable {e : Element}

theorem PlainTag.of_names (name : String) (names : List String) (he : e.name = name)
    (has : e.attributes.map Prod.fst = names)
    (hplain : ∀ n ∈ name :: names, isPlainName n.toList = true) (hdistinct : names.Nodup) :
    PlainTag e where
  name := he ▸ hplain name List.mem_cons_self
  attributes := fun _ ha => hplain _ (List.mem_cons_of_mem _ (has ▸ List.mem_map_of_mem ha))
  distinct := has ▸ hdistinct

theorem LegibleTag.setAttr (he : LegibleTag e) {name : String}
    (hname : isPlainName name.toList = true) (value : String) :
    LegibleTag (e.setAttr name value) where
  read.name := he.read.name
  read.attributes := Element.forall_names_setFirst (P := fun n => isAttributeName n.toList = true)
    he.read.attributes (isAttributeName_of_isPlainName hname) value
  read.distinct := Element.nodup_names_setFirst he.read.distinct name value
  clear.name := he.clear.name
  clear.attributes := Element.forall_names_setFirst (P := fun n => Crossed n.toList)
    he.clear.attributes (.of_isDelimiter fun _ hc => isDelimiter_of_mem_name hname hc) value
  clear.alone := fun h => absurd h (Element.setFirst_ne_nil name value e.attributes)

theorem LegibleTag.addClass (he : LegibleTag e) (c : String) : LegibleTag (e.addClass c) := by
  rcases Element.addClass_eq_or e c with h | ⟨value, h⟩ <;> rw [h]
  · exact he
  · exact he.setAttr (by decide) value

end Markup

namespace Substitution

variable {i : Input} {t : Tree Content} {ts : List (Tree Content)}

theorem plainTag_newText (i : Input) (t : Tree Content) (name id : String) :
    PlainTag (newText i t name id) := by
  rw [newText]
  cases (t.attr? "transform").filter fun v => (Text.nonBlank? v).isSome with
  | none =>
    exact .of_names "text" ["id", "x", "y", "style", "font-family"] rfl rfl (by decide) (by decide)
  | some v =>
    exact .of_names "text" ["id", "x", "y", "style", "font-family", "transform"] rfl rfl (by decide)
      (by decide)

theorem plainTag_newWarning (s : Settings) (t : Tree Content) : PlainTag (newWarning s t) :=
  .of_names "text" ["x", "y", "fill", "font-size", "font-weight"] rfl rfl (by decide) (by decide)

def Verdict.added? : Verdict → Option Element
  | .replace e _ => some e
  | .flag w => some w
  | .keep => none

theorem plainTag_of_added? {e : Element} (h : (verdict i t).added? = some e) : PlainTag e := by
  unfold verdict at h
  split at h
  · cases h
  split at h
  · split at h
    · split at h
      · obtain rfl := Option.some.inj h
        exact plainTag_newText ..
      · obtain rfl := Option.some.inj h
        exact plainTag_newWarning ..
      · cases h
    · cases h
  · cases h

theorem legible_holding {e : Element} (he : LegibleTag e) (text : String) :
    (Tree.holding e text).Legible := by
  rw [Tree.holding, Tree.legible_node_iff, List.forall_mem_singleton, Tree.leaf,
    Tree.legible_node_iff]
  exact ⟨he, trivial, List.forall_mem_nil _⟩

theorem legible_label {c : Content} (hc : c.Legible) (s : Settings) (v : Verdict) :
    (v.label s c).Legible := by
  cases v with
  | flag w =>
    cases c with
    | element e => exact LegibleTag.addClass hc _
    | text s => exact hc
    | comment s => exact hc
  | replace e text => exact hc
  | keep => exact hc

theorem legible_tree (h : (kept i t).Legible) : ((verdict i t).tree (kept i t)).Legible := by
  cases hv : verdict i t with
  | replace e text =>
    exact legible_holding (plainTag_of_added? (i := i) (t := t) (by rw [hv]; rfl)).legible text
  | flag w => exact h
  | keep => exact h

theorem legible_marker {m : Tree Content} (h : (verdict i t).marker? i.settings = some m) :
    m.Legible := by
  cases hv : verdict i t with
  | flag w =>
    rw [hv] at h
    obtain rfl := Option.some.inj h
    exact legible_holding (plainTag_of_added? (i := i) (t := t) (by rw [hv]; rfl)).legible _
  | replace e text => rw [hv] at h; cases h
  | keep => rw [hv] at h; cases h

theorem rewrittenAll_eq (i : Input) (ts : List (Tree Content)) :
    rewrittenAll i ts = ts.map fun t => (verdict i t).tree (kept i t) := by
  induction ts with
  | nil => rw [rewrittenAll, List.map_nil]
  | cons t ts ih => rw [rewrittenAll, ih, List.map_cons]

theorem legible_kept (i : Input) (ht : t.Legible) : (kept i t).Legible := by
  induction t using Tree.induct with
  | node c ts ih =>
    obtain ⟨hc, hts⟩ := Tree.legible_node_iff.1 ht
    rw [kept, Tree.legible_node_iff, rewrittenAll_eq, List.forall_mem_append, List.forall_mem_map]
    refine ⟨legible_label hc _ _, fun t ht => legible_tree (ih t ht (hts t ht)), fun m hm => ?_⟩
    obtain ⟨t, -, hmarker⟩ := List.mem_filterMap.1 hm
    exact legible_marker hmarker

/-- What the recursion makes of a legible tree is legible, for all settings and values. -/
theorem legible_rewritten (i : Input) (ht : t.Legible) : (rewritten i t).Legible := by
  have hkept := legible_kept i ht
  unfold rewritten
  dsimp only
  split
  · cases hu : kept i t with
    | node c us =>
      rw [hu, Tree.legible_node_iff] at hkept
      have hstyle : PlainTag { name := "style" } :=
        .of_names "style" [] rfl rfl (by decide) List.nodup_nil
      rw [Tree.legible_node_iff, List.forall_mem_cons]
      exact ⟨hkept.1, legible_holding hstyle.legible _, hkept.2⟩
  · exact hkept

theorem exists_element_rewritten (i : Input) (e : Element) (ts : List (Tree Content)) :
    ∃ e' us, rewritten i (.node (.element e) ts) = .node (.element e') us := by
  have hkept : ∃ e' us, kept i (.node (.element e) ts) = .node (.element e') us := by
    rw [kept]
    cases verdict i (.node (.element e) ts) with
    | flag w => exact ⟨_, _, rfl⟩
    | replace x text => exact ⟨_, _, rfl⟩
    | keep => exact ⟨_, _, rfl⟩
  obtain ⟨e', us, hkept⟩ := hkept
  unfold rewritten
  dsimp only
  rw [hkept]
  split
  · exact ⟨_, _, rfl⟩
  · exact ⟨_, _, rfl⟩

/-- Every template whose tags are clear gives a document that can be read: it shows what the template
shows with the results in their places, neighbouring texts joined. -/
theorem readable_of_run {t : Template} {d : Drawing} (hread : Drawing.read t.source = .ok d)
    (hclear : d.Clear) (s : Settings) (declarations : List Declaration) (vs : Variables) :
    ∃ document report tree d', run s t declarations vs = .ok (document, report) ∧ d.Shows tree ∧
      Drawing.read document = .ok d' ∧
      d'.Shows (rewritten (.ofTemplate s t declarations vs) tree).joined := by
  obtain ⟨b, hb, -⟩ := laid_of_read hread
  have hshows := shows_apply hb (.ofTemplate s t declarations vs)
  obtain ⟨hlegible, e, ts, htree⟩ := legible_of_read hread hclear ⟨b, hb, rfl⟩
  obtain ⟨d', hread', hshows'⟩ := shows_joined_of_legible hshows (legible_rewritten _ hlegible)
    (htree ▸ exists_element_rewritten _ e ts)
  exact ⟨_, _, b.contents, d', run_eq_ok_iff.2 ⟨d, hread, rfl, rfl⟩, ⟨b, hb, rfl⟩, hread', hshows'⟩

/-- An empty name, a name with quotes and a `>` in them, and texts that are kept otherwise than they
were written, around a formula that has a value and one that fails. -/
theorem readable_of_run_odd_names :
    let t : Template :=
      { id := "t", name := "t",
        source := "<svg>< a='1'/><b\">\" ><![CDATA[<&]]>&#62;</b\">\"><text class='formula' " ++
          "id='q'>f</text><c class='formula' id='r'>g</c></svg>",
        formulas := [{ name := "f", expression := "1" }, { name := "g", expression := "x" }] }
    ∃ d document report d', Drawing.read t.source = .ok d ∧
      d.element? 1 = some { name := "", attributes := [("a", "1")] } ∧
      d.element? 2 = some { name := "b\">\"" } ∧ d.Clear ∧
      run {} t [] [] = .ok (document, report) ∧ Drawing.read document = .ok d' := by
  intro t
  obtain ⟨d, hread, hempty, hquoted, hclear⟩ : ∃ d, Drawing.read t.source = .ok d ∧
      d.element? 1 = some { name := "", attributes := [("a", "1")] } ∧
      d.element? 2 = some { name := "b\">\"" } ∧ d.Clear :=
    ⟨{ nodes := #[{ content := .element { name := "svg" }, children := [1, 2, 5, 7] },
        { content := .element { name := "", attributes := [("a", "1")] }, parent := some 0 },
        { content := .element { name := "b\">\"" }, parent := some 0, children := [3, 4] },
        { content := .text "<&", parent := some 2 }, { content := .text ">", parent := some 2 },
        { content := .element { name := "text", attributes := [("class", "formula"), ("id", "q")] },
          parent := some 0, children := [6] },
        { content := .text "f", parent := some 5 },
        { content := .element { name := "c", attributes := [("class", "formula"), ("id", "r")] },
          parent := some 0, children := [8] },
        { content := .text "g", parent := some 7 }] },
      by decide +kernel, rfl, rfl, by decide +kernel⟩
  obtain ⟨document, report, -, d', hrun, -, hread', -⟩ := readable_of_run hread hclear {} [] []
  exact ⟨d, document, report, d', hread, hempty, hquoted, hclear, hrun, hread'⟩

/-- An element without name and attributes is written as an end tag, a name on its own that ends in `/`
as an empty tag, and the quotes in the names of attributes enclose the wrong part of the tag. -/
theorem unreadable_of_run :
    (["<svg><></></svg>", "<svg><a/ >x</a/></svg>", "<svg><a b'=\"x'y\" c\"=\"z\"/></svg>"].map
      fun source => (run { errorStyle := false } { id := "t", name := "t", source } [] []).map
        fun (document, _) => (document, (Drawing.read document).isOk)) =
      [.ok ("<svg></></svg>", false), .ok ("<svg><a/>x</a/></svg>", false),
        .ok ("<svg><a b'=\"x&apos;y\" c\"=\"z\"/></svg>", false)] := by
  decide +kernel

end Substitution

end FormulaDrawing
