import FormulaDrawing.Proofs.Drawing.Order
import FormulaDrawing.Proofs.Drawing.Subtree
import FormulaDrawing.Proofs.Style.Inline
import FormulaDrawing.Proofs.Substitution.Planning

/-! The style of an element by recursion over the tree that hangs from it. What an attribute offers for a
property and what the pieces of a style attribute offer form one list in document order, of which the first
value that is not blank counts. -/

namespace FormulaDrawing

namespace Style

open Text

variable {kept ps : List (String × String)} {p : String × String} {piece : List Char}
  {style key : String} {property : Property} {e : Element}

section Inline

/-- The value of a piece with a colon and with this key, which is trimmed and may be in any case. -/
def keyedValue? (key : String) (piece : List Char) : Option String :=
  (splitFirst? [':'] piece).bind fun (k, v) =>
    if equalIgnoringCase (trimmed (String.ofList k)) key then some (String.ofList v) else none

/-- What the pieces of a style attribute offer for a key, the blank values among them. -/
def keyedValues (key style : String) : List String :=
  (pieces ';' style.toList).filterMap (keyedValue? key)

theorem equalIgnoringCase_iff {a b : String} :
    equalIgnoringCase a b = true ↔ a.toList.map Char.toLower = b.toList.map Char.toLower := beq_iff_eq

theorem find?_foldl_keepFirst (key : String) (ps kept : List (String × String)) :
    (ps.foldl keepFirst kept).find? (fun q => equalIgnoringCase q.1 key) =
      (kept ++ ps).find? fun q => equalIgnoringCase q.1 key := by
  induction ps generalizing kept with
  | nil => rw [List.foldl_nil, List.append_nil]
  | cons p ps ih =>
    rw [List.foldl_cons, ih, keepFirst]
    split
    next hany =>
      obtain ⟨q, hq, hqp⟩ := List.any_eq_true.1 hany
      rw [List.find?_append, List.find?_append, List.find?_cons]
      cases hp : equalIgnoringCase p.1 key with
      | false => rfl
      | true =>
        have hqkey : equalIgnoringCase q.1 key = true :=
          equalIgnoringCase_iff.2 ((equalIgnoringCase_iff.1 hqp).trans (equalIgnoringCase_iff.1 hp))
        -- The pair that is left out has the key of a pair in front of it.
        have hfound : (kept.find? fun q => equalIgnoringCase q.1 key).isSome = true :=
          List.find?_isSome.2 ⟨q, hq, hqkey⟩
        obtain ⟨r, hr⟩ := Option.isSome_iff_exists.1 hfound
        rw [hr]
        rfl
    next => rw [List.append_assoc, List.singleton_append]

theorem equalIgnoringCase_empty (hkey : key ≠ "") : equalIgnoringCase "" key = false := by
  rw [Bool.eq_false_iff, ne_eq, equalIgnoringCase_iff]
  intro h
  exact hkey (String.toList_inj.1 (List.map_eq_nil_iff.1 h.symm))

theorem value_pair? (hkey : key ≠ "") (piece : List Char) :
    ((pair? piece).filter fun q => equalIgnoringCase q.1 key).map (·.2) =
      (keyedValue? key piece).bind nonBlank? := by
  rw [pair?, keyedValue?]
  cases splitFirst? [':'] piece with
  | none => rfl
  | some kv =>
    obtain ⟨k, v⟩ := kv
    simp only [Option.bind_eq_bind, Option.bind_some]
    cases hk : nonBlank? (String.ofList k) with
    | none =>
      rw [nonBlank?_eq_none_iff.1 hk, equalIgnoringCase_empty hkey]
      rfl
    | some t =>
      rw [(nonBlank?_eq_some_iff.1 hk).2]
      cases hmatch : equalIgnoringCase t key <;> cases hv : nonBlank? (String.ofList v) <;>
        simp [hmatch, hv, Option.filter]

theorem inlineValue?_eq (hkey : key ≠ "") (style : String) :
    inlineValue? style key = (keyedValues key style).findSome? nonBlank? := by
  rw [inlineValue?, inlinePairs, find?_foldl_keepFirst, List.nil_append, ← List.head?_filter,
    ← List.head?_map, List.filter_filterMap, List.map_filterMap, keyedValues, ← List.head?_filterMap,
    List.filterMap_filterMap]
  exact congrArg List.head? (List.filterMap_congr fun piece _ => value_pair? hkey piece)

end Inline

section Elements

/-- What an element says about a property: its attribute of that name, and its style attribute. -/
def stated (p : Property) (e : Element) : Option String × Option String :=
  (e.attr? p.name, e.attr? "style")

/-- The values that are offered there, in order. -/
def offered (p : Property) (x : Option String × Option String) : List String :=
  x.1.toList ++ x.2.toList.flatMap (keyedValues p.name)

theorem ofElement?_eq (p : Property) (e : Element) :
    ofElement? p e = (offered p (stated p e)).findSome? nonBlank? := by
  have hkey : p.name ≠ "" := by cases p <;> decide
  have hattribute : (e.attr? p.name).toList.findSome? nonBlank? = ofAttribute? p e := by
    rw [ofAttribute?]
    cases e.attr? p.name <;> simp
  have hinline : ((e.attr? "style").toList.flatMap (keyedValues p.name)).findSome? nonBlank? =
      ofInline? p e := by
    rw [ofInline?]
    cases e.attr? "style" <;> simp [inlineValue?_eq hkey]
  rw [offered, stated, List.findSome?_append, hattribute, hinline, ofElement?]
  cases ofAttribute? p e <;> rfl

end Elements

end Style

namespace Tree

open Style Text

variable {p : Property} {t : Tree Content}

mutual

/-- What the elements of a tree say about a property: the top one, and then those of each tree below it. -/
def stated (p : Property) : Tree Content → List (Option String × Option String)
  | node c ts => (c.element?.map (Style.stated p)).toList ++ statedOf p ts

def statedOf (p : Property) : List (Tree Content) → List (Option String × Option String)
  | [] => []
  | t :: ts => t.stated p ++ statedOf p ts

end

theorem statedOf_eq (p : Property) (ts : List (Tree Content)) : statedOf p ts = ts.flatMap (stated p) := by
  induction ts with
  | nil => rfl
  | cons t ts ih => rw [statedOf, ih, List.flatMap_cons]

theorem stated_eq (p : Property) (t : Tree Content) :
    t.stated p = t.subtrees.flatMap fun u => (u.element?.map (Style.stated p)).toList := by
  induction t using induct with
  | node c ts ih =>
    rw [stated, statedOf_eq, subtrees_node, List.flatMap_cons, List.flatMap_assoc]
    exact congrArg _ (List.flatMap_congr ih)

theorem findSome?_stated (p : Property) (t : Tree Content) :
    ((t.stated p).flatMap (offered p)).findSome? nonBlank? =
      t.subtrees.findSome? fun u => u.element?.bind (ofElement? p) := by
  rw [stated_eq, List.flatMap_assoc, ← List.head?_filterMap, List.filterMap_flatMap, List.head?_flatMap]
  congr 1
  funext u
  rw [List.head?_filterMap]
  cases u.element? with
  | none => rfl
  | some e =>
    rw [Option.map_some, Option.toList_some, List.flatMap_singleton, Option.bind_some, ofElement?_eq]

theorem styleValue_eq (defaults : Style) (p : Property) (t : Tree Content) :
    t.styleValue { defaults } p =
      (((t.stated p).flatMap (offered p)).findSome? nonBlank?).getD (defaults.get p) := by
  have hbelow : (t.elementsBelow.findSome? fun u => u.element?.bind (ofElement? p)) =
      (t.children.flatMap subtrees).findSome? fun u => u.element?.bind (ofElement? p) := by
    rw [elementsBelow, ← List.head?_filterMap, ← List.head?_filterMap, List.filterMap_filter]
    congr 2
    funext u
    cases u.element? <;> rfl
  rw [findSome?_stated, subtrees_eq, styleValue]
  simp only [List.findSome?_cons, List.findSome?_nil, styleFrom?, hbelow]
  congr 1
  cases t.element? with
  | none => cases (t.children.flatMap subtrees).findSome? fun u => u.element?.bind (ofElement? p) <;> rfl
  | some e =>
    simp only [Option.bind_some, ofElement?]
    cases ofAttribute? p e <;> cases ofInline? p e <;>
      cases (t.children.flatMap subtrees).findSome? fun u => u.element?.bind (ofElement? p) <;> rfl

end Tree

namespace Style

open Text Drawing

variable {d : Drawing} {h : Handle} {t : Tree Content}

theorem get_resolve_of_hangs (hd : d.Forest) (ht : d.Hangs h t) (defaults : Style) (p : Property) :
    (({ defaults } : Resolver).resolve d h).get p =
      (((t.stated p).flatMap (offered p)).findSome? nonBlank?).getD (defaults.get p) := by
  obtain ⟨q, b, hb, rfl, rfl⟩ := ht
  rw [resolve_branch hb (hd.nodup_handles hb), ← Tree.styleValue_eq]
  cases p <;> rfl

/-- From every node of a forest hangs a tree, and each property of the style of the node is the first value
that is not blank of all that are offered for the property in this tree, and otherwise the default. So it
depends on nothing but what the elements of the tree say about this property. -/
theorem resolve_of_offered (hd : d.Forest) (hh : h < d.nodes.size) (defaults : Style) :
    ∃ t, d.Hangs h t ∧ ∀ p : Property,
      (({ defaults } : Resolver).resolve d h).get p =
        (((t.stated p).flatMap (offered p)).findSome? nonBlank?).getD (defaults.get p) ∧
      ∀ (d' : Drawing) (h' : Handle) (t' : Tree Content) (defaults' : Style), d'.Forest →
        d'.Hangs h' t' → t'.stated p = t.stated p → defaults'.get p = defaults.get p →
        (({ defaults := defaults' } : Resolver).resolve d' h').get p =
          (({ defaults } : Resolver).resolve d h).get p := by
  obtain ⟨t, ht⟩ := hd.exists_hangs hh
  refine ⟨t, ht, fun p => ⟨get_resolve_of_hangs hd ht defaults p, ?_⟩⟩
  intro d' h' t' defaults' hd' ht' hstated hdefault
  rw [get_resolve_of_hangs hd' ht', get_resolve_of_hangs hd ht, hstated, hdefault]

/-- A blank attribute, a blank value and a key in another case, with values further down; and the same said
about the fill in another drawing. -/
theorem resolve_of_offered_blank :
    let outer : List (String × String) := [("fill", " "), ("style", ";fill: ;FILL : red ")]
    let g : Content := .element { name := "g", attributes := outer }
    let a : Content := .element { name := "a", attributes := [("fill", "blue"), ("font-family", "Mono")] }
    let d : Drawing := { nodes := #[{ content := .element { name := "svg" }, children := [1] },
      { content := g, parent := some 0, children := [2] }, { content := a, parent := some 1 }] }
    let g' : Content := .element { name := "g", attributes := ("id", "b") :: outer }
    let c : Content := .element { name := "c", attributes := [("fill", "blue")] }
    let d' : Drawing := { nodes := #[{ content := g', children := [1, 2] },
      { content := .text "x", parent := some 0 }, { content := c, parent := some 0 }] }
    d.Forest ∧ d'.Forest ∧ (({} : Resolver).resolve d 1).get .fill = "red" ∧
      (({} : Resolver).resolve d 1).get .fontFamily = "Mono" ∧
      (({} : Resolver).resolve d' 0).get .fill = (({} : Resolver).resolve d 1).get .fill := by
  intro outer g a d g' c d'
  have hread : read ("<svg><g fill=\" \" style=\";fill: ;FILL : red \">" ++
      "<a fill=\"blue\" font-family=\"Mono\"/></g></svg>") = .ok d := by cbv
  have hread' : read ("<g id=\"b\" fill=\" \" style=\";fill: ;FILL : red \">" ++
      "x<c fill=\"blue\"/></g>") = .ok d' := by cbv
  obtain ⟨b, hb⟩ := numbered_of_read hread
  obtain ⟨b', hb'⟩ := numbered_of_read hread'
  have ht : d.Hangs 1 (.node g [.leaf a]) :=
    ⟨some 0, .node (1, g) [.leaf (2, a)], .node rfl (List.forall_mem_singleton.2 (.leaf rfl)), rfl, rfl⟩
  have ht' : d'.Hangs 0 (.node g' [.leaf (.text "x"), .leaf c]) :=
    ⟨none, .node (0, g') [.leaf (1, .text "x"), .leaf (2, c)], .node rfl (List.forall_mem_cons.2
      ⟨.leaf rfl, List.forall_mem_singleton.2 (.leaf rfl)⟩), rfl, rfl⟩
  obtain ⟨t, hu, hfirst⟩ := resolve_of_offered hb.forest (h := 1) (by decide) {}
  obtain rfl := ht.unique hu
  exact ⟨hb.forest, hb'.forest, (hfirst .fill).1.trans (by decide),
    (hfirst .fontFamily).1.trans (by decide), (hfirst .fill).2 d' 0 _ {} hb'.forest ht' rfl rfl⟩

end Style

end FormulaDrawing
