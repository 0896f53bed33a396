import FormulaDrawing.Proofs.Drawing.Rebuilding
import FormulaDrawing.Proofs.Substitution.Planning

/-! Carrying the plan out edit by edit comes to the same as the recursion. The edits for what is below a
node stay in its territory, whether the node still stands in the tree or has been replaced. -/

namespace FormulaDrawing.Substitution

open Drawing

variable {i : Input} {hs : List Handle} {d₀ d : Drawing} {p : Option Handle} {h : Handle}
  {c : Content} {t : Layout} {xs ys ts ms : List Layout}

def editsOf (i : Input) (t : Layout) : List Edit :=
  t.subtrees.filterMap fun u => (verdict i u.contents).edit? u.handle

def carryOut (i : Input) (d : Drawing) (edits : List Edit) : Drawing :=
  edits.foldl (Edit.apply i.settings) d

theorem carryOut_append (d : Drawing) (es fs : List Edit) :
    carryOut i d (es ++ fs) = carryOut i (carryOut i d es) fs := List.foldl_append

theorem carryOut_singleton (d : Drawing) (edit : Edit) :
    carryOut i d [edit] = Edit.apply i.settings d edit := rfl

theorem editsOf_eq (i : Input) (t : Layout) : editsOf i t =
    ((verdict i t.contents).edit? t.handle).toList ++ t.children.flatMap (editsOf i) := by
  rw [editsOf, Tree.subtrees_eq, List.filterMap_cons, List.filterMap_flatMap]
  cases (verdict i t.contents).edit? t.handle <;> rfl

section Edits

variable (s : Settings) (e : Element)

theorem apply_replace_eq (d : Drawing) (node : Handle) (text : String) :
    Edit.apply s d (.replace node e text) =
      ((d.createElement e (some text)).1.replace? node d.nodes.size).getD
        (d.createElement e (some text)).1 := rfl

theorem apply_flag_eq (d : Drawing) (node : Handle) :
    Edit.apply s d (.flag node e) =
      match (d.modifyElement node (·.addClass s.errorClass)).parent? node with
      | none => d.modifyElement node (·.addClass s.errorClass)
      | some parent =>
        ((d.modifyElement node (·.addClass s.errorClass)).createElement e
          (some s.warningGlyph)).1.append parent d.nodes.size := by
  rw [← size_modify d node]
  rfl

theorem apply_replace (text : String) (hr : Rebuilt hs d₀ d p (.node (h, c) (xs ++ t :: ys))) :
    Rebuilt hs d₀ (Edit.apply s d (.replace t.handle e text)) p
      (.node (h, c) (xs ++ .holdingAt d.nodes.size e text :: ys)) ∧
    (Edit.apply s d (.replace t.handle e text)).Branch none t := by
  obtain ⟨d₁, hok, hr₁, ht⟩ := hr.replace e text
  rw [apply_replace_eq, hok, Option.getD_some]
  exact ⟨hr₁, ht⟩

theorem apply_flag (hr : Rebuilt hs d₀ d p (.node (h, c) (xs ++ t :: ys))) :
    Rebuilt hs d₀ (Edit.apply s d (.flag t.handle e)) p
      (.node (h, c) (xs ++ .node (t.handle, t.label.2.mapElement (·.addClass s.errorClass))
        t.children :: (ys ++ [.holdingAt d.nodes.size e s.warningGlyph]))) := by
  have ht := hr.branch_child
  have hn := hr.nodup_child
  obtain ⟨⟨k, x⟩, ts⟩ := t
  have hflag := ht.modifyElement hn (·.addClass s.errorClass)
  have happend := (hr.child hflag rfl).append e s.warningGlyph
  have hparent : (d.modifyElement k (·.addClass s.errorClass)).parent? k = some h :=
    hflag.branch.parent?
  have hsize : (d.modifyElement k (·.addClass s.errorClass)).nodes.size = d.nodes.size :=
    size_modify ..
  rw [hsize, List.append_assoc, List.cons_append] at happend
  rw [apply_flag_eq, Tree.handle_node, hparent]
  exact happend

end Edits

/-- Carrying out what is planned below a node does to the trees there what the recursion does, and puts
the warnings behind them; the node itself may have been changed. -/
def FollowsBelow (i : Input) (t : Layout) : Prop :=
  ∀ (d : Drawing) (p : Option Handle) (c : Content),
    d.Branch p (.node (t.handle, c) t.children) → t.handles.Nodup →
    ∃ us ms : List Layout,
      Rebuilt t.handles d (carryOut i d (t.children.flatMap (editsOf i))) p
        (.node (t.handle, c) (us ++ ms)) ∧
      us.map Tree.contents = rewrittenAll i (t.children.map Tree.contents) ∧
      ms.map Tree.contents = (t.children.map Tree.contents).filterMap fun u =>
        (verdict i u).marker? i.settings

theorem FollowsBelow.child (ht : FollowsBelow i t)
    (hr : Rebuilt hs d₀ d p (.node (h, c) (xs ++ t :: ys))) :
    ∃ (u : Layout) (ms : List Layout),
      Rebuilt hs d₀ (carryOut i d (editsOf i t)) p (.node (h, c) (xs ++ u :: (ys ++ ms))) ∧
      u.contents = (verdict i t.contents).tree (kept i t.contents) ∧
      ms.map Tree.contents = ((verdict i t.contents).marker? i.settings).toList := by
  have hb := hr.branch_child
  have hn := hr.nodup_child
  obtain ⟨⟨k, x⟩, ts⟩ := t
  rw [editsOf_eq, carryOut_append, Tree.contents_node, kept]
  cases hv : verdict i (.node x (ts.map Tree.contents)) with
  | keep =>
    obtain ⟨us, ms, hbelow, hus, hms⟩ := ht d (some h) x hb hn
    refine ⟨.node (k, x) (us ++ ms), [], ?_, ?_, rfl⟩
    · rw [List.append_nil]
      exact hr.child hbelow rfl
    · rw [Tree.contents_node, List.map_append, hus, hms]
      rfl
  | flag w =>
    rw [Verdict.edit?, Option.toList_some, carryOut_singleton]
    have hflag := apply_flag i.settings w hr
    obtain ⟨us, ms, hbelow, hus, hms⟩ := ht _ (some h) _ hflag.branch_child hn
    refine ⟨_, [.holdingAt d.nodes.size w i.settings.warningGlyph], hflag.child hbelow rfl, ?_, ?_⟩
    · rw [Tree.contents_node, List.map_append, hus, hms]
      rfl
    · rw [List.map_singleton, Tree.contents_holdingAt]
      rfl
  | replace e text =>
    rw [Verdict.edit?, Option.toList_some, carryOut_singleton]
    obtain ⟨hreplaced, hcut⟩ := apply_replace i.settings e text hr
    -- The edits below are carried out although the old node is out of the tree; they stay within it.
    obtain ⟨us, ms, hbelow, -, -⟩ := ht _ none x hcut hn
    refine ⟨.holdingAt d.nodes.size e text, [], ?_, ?_, rfl⟩
    · rw [List.append_nil]
      refine hreplaced.idle hbelow.confined (fun y hy => ?_) (hr.not_mem_replaced e text)
      exact hr.inside y (mem_handles_iff.2 (.inl hy))
    · rw [Tree.contents_holdingAt]
      rfl

theorem FollowsBelow.children (hts : ∀ t ∈ ts, FollowsBelow i t)
    (hr : Rebuilt hs d₀ d p (.node (h, c) (xs ++ (ts ++ ms)))) :
    ∃ us ns : List Layout,
      Rebuilt hs d₀ (carryOut i d (ts.flatMap (editsOf i))) p
        (.node (h, c) (xs ++ (us ++ (ms ++ ns)))) ∧
      us.map Tree.contents = rewrittenAll i (ts.map Tree.contents) ∧
      ns.map Tree.contents = (ts.map Tree.contents).filterMap fun u =>
        (verdict i u).marker? i.settings := by
  -- In front of `ts` is what is done already, behind it the warnings that were put there.
  induction ts generalizing d xs ms with
  | nil => exact ⟨[], [], by simpa [carryOut] using hr, by rw [List.map_nil, rewrittenAll], rfl⟩
  | cons t ts ih =>
    rw [List.cons_append] at hr
    obtain ⟨u, ns, hchild, hu, hns⟩ := (hts t (by simp)).child hr
    rw [List.append_assoc, List.append_cons] at hchild
    obtain ⟨us, ns', hrest, hus, hns'⟩ := ih (fun t ht => hts t (by simp [ht])) hchild
    refine ⟨u :: us, ns ++ ns', ?_, ?_, ?_⟩
    · rw [List.flatMap_cons, carryOut_append]
      simpa using hrest
    · rw [List.map_cons, List.map_cons, rewrittenAll, hu, hus]
    · rw [List.map_append, hns, hns', List.map_cons, List.filterMap_cons]
      cases (verdict i t.contents).marker? i.settings <;> rfl

theorem followsBelow (i : Input) (t : Layout) : FollowsBelow i t := by
  induction t using Tree.induct with
  | node a ts ih =>
    intro d p c hb hn
    have hstart : Rebuilt (Tree.handles (.node a ts)) d d p
        (.node (Tree.handle (.node a ts), c) ([] ++ (ts ++ []))) := by
      rw [List.nil_append, List.append_nil]
      exact hb.rebuilt hn
    exact FollowsBelow.children ih hstart

theorem carryOut_root (hb : d.Laid t) :
    Rebuilt t.handles d (carryOut i d ((verdict i t.contents).edit? t.handle).toList) none
      (.node (t.handle, (verdict i t.contents).label i.settings t.label.2) t.children) := by
  obtain ⟨hb, -, hn⟩ := hb
  obtain ⟨⟨k, x⟩, ts⟩ := t
  cases verdict i (Tree.contents (.node (k, x) ts)) with
  | keep => exact hb.rebuilt hn
  | flag w =>
    have hflag := hb.modifyElement hn (·.addClass i.settings.errorClass)
    have hparent : (d.modifyElement k (·.addClass i.settings.errorClass)).parent? k = none :=
      hflag.branch.parent?
    have happly := apply_flag_eq i.settings w d k
    rw [hparent] at happly
    rw [Verdict.edit?, Option.toList_some, carryOut_singleton, Tree.handle_node, happly]
    exact hflag
  | replace e text =>
    have hcreate := confined_createElement d e text
    have hnone : (d.createElement e (some text)).1.parent? k = none :=
      (hb.of_confined hcreate (by simp)).parent?
    have happly := apply_replace_eq i.settings e d k text
    rw [replace?, hnone, Option.map_none, Option.getD_none] at happly
    rw [Verdict.edit?, Option.toList_some, carryOut_singleton, Tree.handle_node, happly]
    exact (hb.rebuilt hn).idle hcreate (by simp) (by simp)

theorem addStyleRule_eq (s : Settings) (d : Drawing) : addStyleRule s d =
    (d.createElement { name := "style" } (some (styleRule s.errorClass))).1.insert d.root 0
      d.nodes.size := by
  rw [← (confined_createElement d { name := "style" } (styleRule s.errorClass)).root]
  rfl

theorem shows_apply (hb : d.Laid t) (i : Input) :
    (apply i d).1.Shows (rewritten i t.contents) := by
  have hroot := carryOut_root (i := i) hb
  obtain ⟨us, ms, hbelow, hus, hms⟩ := followsBelow i t _ none _ hroot.branch hb.nodup
  have hedits : (plan i d).filterMap (·.1) = editsOf i t := edits_plan hb i
  rw [editsOf_eq] at hedits
  set d₁ := carryOut i d ((verdict i t.contents).edit? t.handle).toList
  set d₂ := carryOut i d₁ (t.children.flatMap (editsOf i))
  have hedited : ((plan i d).filterMap (·.1)).foldl (Edit.apply i.settings) d = d₂ := by
    rw [hedits]
    exact carryOut_append d _ _
  have htop : t.handle = d₁.root := hb.top.trans hroot.confined.root.symm
  have hkept : Tree.contents (.node (t.handle, (verdict i t.contents).label i.settings t.label.2)
      (us ++ ms)) = kept i t.contents := by
    obtain ⟨⟨k, x⟩, ts⟩ := t
    rw [Tree.contents_node, List.map_append, hus, hms, Tree.contents_node, kept]
    rfl
  rw [apply, hedited, rewritten, ← hkept]
  -- The rule for the error class is put in when all edits are done.
  by_cases hstyle : i.settings.errorStyle = true
  · have hinsert := hbelow.insert { name := "style" } (styleRule i.settings.errorClass)
    have hrule := addStyleRule_eq i.settings d₂
    rw [hbelow.confined.root, ← htop] at hrule
    rw [if_pos hstyle, if_pos hstyle, hrule]
    refine ⟨_, hinsert.laid htop, ?_⟩
    rw [Tree.contents_node, List.map_cons, Tree.contents_holdingAt, Tree.contents_node, newRule_eq]
    rfl
  · rw [if_neg hstyle, if_neg hstyle]
    exact ⟨_, hbelow.laid htop, rfl⟩

/-- For every source that can be read and everything the plan rests on, the result shows just the tree that
the recursion makes of the one that was read. -/
theorem apply_refines {source : String} (h : Drawing.read source = .ok d) :
    ∃ t, d.Shows t ∧ ∀ (i : Input) (u : Tree Content), (apply i d).1.Shows u ↔ u = rewritten i t := by
  obtain ⟨b, hb, -⟩ := laid_of_read h
  refine ⟨b.contents, ⟨b, hb, rfl⟩, fun i u => ⟨fun hu => hu.unique (shows_apply hb i), ?_⟩⟩
  rintro rfl
  exact shows_apply hb i

/-- A marked element inside one that is replaced, and beside it a path whose formula fails. -/
theorem apply_refines_nested :
    let source := "<svg><g class=\"formula\" id=\"a\" x=\" 1\" fill=\"red\" transform=\"rotate(9)\">x" ++
      "<b class=\"formula\" id=\"b\">y</b></g><path class=\"formula\" id=\"c\" d=\"M3 4\">z</path></svg>"
    let i : Input :=
      { settings := {}, declarations := []
        formulas := [{ name := "x", expression := "1", fontSize := some "4mm" }]
        evaluations := [("x", .ok (.text "v")), ("y", .ok (.text "w")), ("z", .error .divisionByZero)] }
    ∃ d, Drawing.read source = .ok d ∧ ∀ u, (apply i d).1.Shows u ↔ u =
      .node (.element { name := "svg" })
        [.holding { name := "style" }
          ".formula-eval-error \x7bfont-style: italic; text-decoration: underline;\x7d",
        .holding
          { name := "text"
            attributes := [("id", "a"), ("x", "1"), ("y", "0"), ("style", "fill:red;font-size:4mm"),
              ("font-family", "Arial"), ("transform", "rotate(9)")] } "v",
        .holding
          { name := "path"
            attributes := [("class", "formula formula-eval-error"), ("id", "c"), ("d", "M3 4")] } "z",
        .holding
          { name := "text"
            attributes := [("x", "13"), ("y", "4"), ("fill", "red"), ("font-size", "10px"),
              ("font-weight", "bold")] } "!"] := by
  intro source i
  let g : Element :=
    { name := "g"
      attributes := [("class", "formula"), ("id", "a"), ("x", " 1"), ("fill", "red"),
        ("transform", "rotate(9)")] }
  let inner : Element := { name := "b", attributes := [("class", "formula"), ("id", "b")] }
  let path : Element :=
    { name := "path", attributes := [("class", "formula"), ("id", "c"), ("d", "M3 4")] }
  let d : Drawing :=
    { nodes := #[{ content := .element { name := "svg" }, children := [1, 5] },
        { content := .element g, parent := some 0, children := [2, 3] },
        { content := .text "x", parent := some 1 },
        { content := .element inner, parent := some 1, children := [4] },
        { content := .text "y", parent := some 3 },
        { content := .element path, parent := some 0, children := [6] },
        { content := .text "z", parent := some 5 }] }
  have hread : Drawing.read source = .ok d := by decide +kernel
  let replaced : Tree Content := .node (.element g) [.leaf (.text "x"), .holding inner "y"]
  have hinner : d.Branch (some 1) (.holdingAt 3 inner "y") :=
    .node rfl (List.forall_mem_singleton.2 (.node rfl (List.forall_mem_nil _)))
  have hg : d.Branch (some 0) (.node (1, .element g) [.leaf (2, .text "x"), .holdingAt 3 inner "y"]) :=
    .node rfl (List.forall_mem_cons.2
      ⟨.node rfl (List.forall_mem_nil _), List.forall_mem_singleton.2 hinner⟩)
  have hpath : d.Branch (some 0) (.holdingAt 5 path "z") :=
    .node rfl (List.forall_mem_singleton.2 (.node rfl (List.forall_mem_nil _)))
  have hshows : d.Shows (.node (.element { name := "svg" }) [replaced, .holding path "z"]) :=
    ⟨_, ⟨.node rfl (List.forall_mem_cons.2 ⟨hg, List.forall_mem_singleton.2 hpath⟩), rfl,
      by decide +kernel⟩, rfl⟩
  have hreplaced : verdict i replaced = .replace
      { name := "text"
        attributes := [("id", "a"), ("x", "1"), ("y", "0"), ("style", "fill:red;font-size:4mm"),
          ("font-family", "Arial"), ("transform", "rotate(9)")] } "v" := by
    decide +kernel
  have hflagged : verdict i (.holding path "z") = .flag
      { name := "text"
        attributes := [("x", "13"), ("y", "4"), ("fill", "red"), ("font-size", "10px"),
          ("font-weight", "bold")] } := by
    decide +kernel
  have hclass : path.addClass "formula-eval-error" =
      { name := "path"
        attributes := [("class", "formula formula-eval-error"), ("id", "c"), ("d", "M3 4")] } := by
    decide +kernel
  obtain ⟨t, ht, happly⟩ := apply_refines hread
  obtain rfl := ht.unique hshows
  refine ⟨d, hread, fun u => (happly i u).trans ?_⟩
  have hkept : kept i (.holding path "z") =
      .holding (path.addClass "formula-eval-error") "z" := by
    rw [Tree.holding, kept, ← Tree.holding, hflagged]
    rfl
  have hroot : verdict i (.node (.element { name := "svg" }) [replaced, .holding path "z"]) = .keep := by
    decide +kernel
  rw [rewritten, kept, rewrittenAll, rewrittenAll, rewrittenAll, List.filterMap_cons,
    List.filterMap_cons, List.filterMap_nil, hroot, hreplaced, hflagged, hkept, hclass]
  rfl

end FormulaDrawing.Substitution
