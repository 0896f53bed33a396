import FormulaDrawing.Proofs.Drawing.Edits
import FormulaDrawing.Proofs.Drawing.Spelling
import FormulaDrawing.Proofs.Drawing.Subtree

/-! The two loops over a drawing as they run, each on a stack of its own with the next job on top: one visits
the nodes below a node, the other writes the drawing. Where the links agree both come to their end, and
what they give out is what recursion over the tree gives. -/

namespace FormulaDrawing

section Loop

variable {σ α : Type} {work : σ → Option (List α × List σ)} {job : σ} {jobs stack : List σ}
  {out more xs ys : List α} {outs : List (List α)}

/-- The loop comes to its end and gives this out in all. The last job on the stack is done first; the jobs that
it leads to go on the stack in reverse order, so the first of them is next. A job that cannot be done
would stop the loop before its end. -/
inductive Loop (work : σ → Option (List α × List σ)) : List σ → List α → Prop
  | done : Loop work [] []
  | turn {stack : List σ} {job : σ} {jobs : List σ} {out more : List α}
      (top : work job = some (out, jobs)) (rest : Loop work (stack ++ jobs.reverse) more) :
      Loop work (stack ++ [job]) (out ++ more)

theorem Loop.unique (hxs : Loop work stack xs) (hys : Loop work stack ys) : xs = ys := by
  induction hxs generalizing ys with
  | done =>
    generalize hs : ([] : List σ) = s at hys
    cases hys with
    | done => rfl
    | turn top rest => exact absurd hs (List.append_ne_nil_of_right_ne_nil _ (List.cons_ne_nil _ _)).symm
  | @turn stack job jobs out more top _ ih =>
    generalize hs : stack ++ [job] = s at hys
    cases hys with
    | done => exact absurd hs (List.append_ne_nil_of_right_ne_nil _ (List.cons_ne_nil _ _))
    | turn top' rest =>
      obtain ⟨rfl, hjob⟩ := List.append_inj' hs rfl
      obtain rfl := List.singleton_inj.1 hjob
      obtain ⟨rfl, rfl⟩ := Prod.mk.inj (Option.some.inj (top.symm.trans top'))
      rw [ih rest]

theorem Loop.iff_eq (h : Loop work stack xs) : Loop work stack ys ↔ ys = xs :=
  ⟨fun hys => hys.unique h, fun he => he ▸ h⟩

/-- The job gives this out, with all that it leads to, before the stack below it is looked at. -/
def Finishes (work : σ → Option (List α × List σ)) (job : σ) (out : List α) : Prop :=
  ∀ stack more, Loop work stack more → Loop work (stack ++ [job]) (out ++ more)

theorem Finishes.loop (h : Finishes work job out) : Loop work [job] out := by
  simpa using h [] [] .done

theorem Loop.finish (h : List.Forall₂ (Finishes work) jobs outs) (hmore : Loop work stack more) :
    Loop work (stack ++ jobs.reverse) (outs.flatten ++ more) := by
  induction h with
  | nil => simpa using hmore
  | cons first _ ih =>
    rw [List.reverse_cons, ← List.append_assoc, List.flatten_cons, List.append_assoc _ _ more]
    exact first _ _ ih

theorem finishes_map {β : Type} {l : List β} {f : β → σ} {g : β → List α}
    (h : ∀ b ∈ l, Finishes work (f b) (g b)) : List.Forall₂ (Finishes work) (l.map f) (l.map g) := by
  rw [List.forall₂_map_left_iff, List.forall₂_map_right_iff, List.forall₂_same]
  exact h

theorem Finishes.of_jobs (top : work job = some (out, jobs))
    (h : List.Forall₂ (Finishes work) jobs outs) : Finishes work job (out ++ outs.flatten) := by
  intro stack more hmore
  rw [List.append_assoc]
  exact .turn top (hmore.finish h)

theorem Finishes.of_alone (top : work job = some (out, [])) : Finishes work job out := by
  simpa using Finishes.of_jobs top .nil

end Loop

open Markup Drawing Relation

namespace Drawing

variable {d d' : Drawing} {p : Option Handle} {h x : Handle} {b : Layout} {xs ys : List Construct}

/-- Every start tag has the end tag of its element, and what is between the two is balanced too. -/
inductive Balanced : List Construct → Prop
  | nil : Balanced []
  | alone {x : Construct} {xs : List Construct} (tagless : ∀ tag, x ≠ .opening tag ∧ x ≠ .closing tag)
      (rest : Balanced xs) : Balanced (x :: xs)
  | element (e : Element) {ys xs : List Construct} (inner : Balanced ys) (rest : Balanced xs) :
      Balanced (.opening (tagChars e) :: (ys ++ .closing e.name.toList :: xs))

theorem Balanced.append (hxs : Balanced xs) (hys : Balanced ys) : Balanced (xs ++ ys) := by
  induction hxs with
  | nil => exact hys
  | alone tagless _ ih => exact .alone tagless ih
  | element e inner _ _ ih =>
    rw [List.cons_append, List.append_assoc, List.cons_append]
    exact .element e inner ih

theorem balanced_flatMap {ts : List (Tree Content)} (h : ∀ t ∈ ts, Balanced t.serial) :
    Balanced (ts.flatMap Tree.serial) := by
  induction ts with
  | nil => exact .nil
  | cons t ts ih =>
    rw [List.forall_mem_cons] at h
    exact h.1.append (ih h.2)

theorem balanced_serial (t : Tree Content) : Balanced t.serial := by
  induction t using Tree.induct with
  | node c ts ih =>
    cases c with
    | text s => exact .alone (fun _ => ⟨nofun, nofun⟩) .nil
    | comment s => exact .alone (fun _ => ⟨nofun, nofun⟩) .nil
    | element e =>
      by_cases hts : ts = []
      · subst hts
        exact .alone (fun _ => ⟨nofun, nofun⟩) .nil
      · rw [Tree.serial_element_cons e hts]
        exact .element e (balanced_flatMap ih) .nil

section Jobs

/-- To visit a node is to give it out; its children come next. -/
def visit (d : Drawing) (h : Handle) : Option (List Handle × List Handle) := some ([h], d.children h)

theorem finishes_visit (hb : d.Branch p b) : Finishes d.visit b.handle b.handles := by
  induction hb with
  | @node p h c bs top below ih =>
    have hchildren : d.children h = bs.map Tree.handle := (Branch.node top below).children
    have hvisit : d.visit h = some ([h], bs.map Tree.handle) := by rw [visit, hchildren]
    rw [Tree.handles_node, List.flatMap_def]
    exact .of_jobs hvisit (finishes_map ih)

inductive Job where
  | opening (h : Handle)
  | closing (h : Handle)

/-- A node that there is not cannot be written. -/
def job (d : Drawing) : Job → Option (List Construct × List Job)
  | .opening h =>
    match d.content? h with
    | none => none
    | some (.text s) => some ([.text (escape s.toList)], [])
    | some (.comment s) => some ([.comment s.toList], [])
    | some (.element e) =>
      match d.children h with
      | [] => some ([.empty (tagChars e)], [])
      | hs => some ([.opening (tagChars e)], hs.map .opening ++ [.closing h])
  | .closing h => some ((d.element? h).toList.map fun e => .closing e.name.toList, [])

variable {e : Element}

theorem job_opening (he : d.content? h = some (.element e)) (hne : d.children h ≠ []) :
    d.job (.opening h) =
      some ([.opening (tagChars e)], (d.children h).map .opening ++ [.closing h]) := by
  obtain ⟨c, cs, hc⟩ := List.exists_cons_of_ne_nil hne
  rw [job, he, hc]

theorem job_empty (he : d.content? h = some (.element e)) (hnil : d.children h = []) :
    d.job (.opening h) = some ([.empty (tagChars e)], []) := by
  rw [job, he, hnil]

theorem finishes_closing (he : d.content? h = some (.element e)) :
    Finishes d.job (.closing h) [.closing e.name.toList] := by
  refine .of_alone ?_
  rw [job, element?, he]
  rfl

theorem finishes_job (hb : d.Branch p b) : Finishes d.job (.opening b.handle) b.contents.serial := by
  induction hb with
  | @node p h c bs top below ih =>
    have hb : d.Branch p (.node (h, c) bs) := .node top below
    have hcontent : d.content? h = some c := hb.content?
    have hchildren : d.children h = bs.map Tree.handle := hb.children
    rw [Tree.handle_node, Tree.contents_node]
    cases c with
    | text s => exact .of_alone (by rw [job, hcontent, Tree.serial])
    | comment s => exact .of_alone (by rw [job, hcontent, Tree.serial])
    | element e =>
      by_cases hbs : bs = []
      · subst hbs
        exact .of_alone (job_empty hcontent hchildren)
      · have hne : d.children h ≠ [] := by simpa [hchildren] using hbs
        have hopening := job_opening hcontent hne
        rw [hchildren, List.map_map] at hopening
        -- the end tag lies below the children on the stack, so it is the last of the jobs
        have hjobs := List.rel_append (finishes_map ih) (.cons (finishes_closing hcontent) .nil)
        rw [Tree.serial_element_cons e (by simpa using hbs), List.flatMap_map]
        simpa [List.flatMap_def] using Finishes.of_jobs hopening hjobs

end Jobs

section Below

namespace Linked

theorem branch_or_absent (hd : d.Linked) (h : Handle) :
    (∃ b, d.Branch (d.parent? h) b ∧ b.handle = h) ∨ d.children h = [] ∧ d.descendants h = [] := by
  by_cases hh : h < d.nodes.size
  · exact .inl (hd.exists_branch hh)
  · have hnil : d.children h = [] := children_eq_nil (Nat.not_lt.1 hh)
    exact .inr ⟨hnil, by rw [descendants, hnil, walk_nil]⟩

theorem descendants_branch (hd : d.Linked) (hb : d.Branch p b) :
    d.descendants b.handle = b.children.flatMap Tree.handles := by
  rw [Drawing.descendants_branch hb (hd.nodup_handles hb), List.map_flatMap]
  rfl

theorem descendants_eq (hd : d.Linked) (h : Handle) :
    d.descendants h = (d.children h).flatMap fun c => c :: d.descendants c := by
  rcases hd.branch_or_absent h with ⟨b, hb, rfl⟩ | ⟨hnil, hnone⟩
  · rw [hd.descendants_branch hb, hb.children, List.flatMap_map]
    refine List.flatMap_congr fun c hc => ?_
    rw [hd.descendants_branch (hb.of_mem_children hc), ← Tree.handles_eq]
  · rw [hnone, hnil, List.flatMap_nil]

theorem nodup_descendants (hd : d.Linked) (h : Handle) : (d.descendants h).Nodup := by
  rcases hd.branch_or_absent h with ⟨b, hb, rfl⟩ | ⟨-, hnone⟩
  · have hn := hd.nodup_handles hb
    rw [Tree.handles_eq, List.nodup_cons] at hn
    rw [hd.descendants_branch hb]
    exact hn.2
  · rw [hnone]
    exact List.nodup_nil

theorem mem_handles_iff (hd : d.Linked) (hb : d.Branch p b) : x ∈ b.handles ↔ d.Contains b.handle x := by
  refine ⟨hb.contains, fun hx => ?_⟩
  -- down the links, along which the branch holds every child of what it holds
  induction hx with
  | refl => exact b.handle_mem_handles
  | @tail y z _ hyz ih =>
    obtain ⟨c, hc, rfl⟩ := List.mem_map.1 ih
    obtain ⟨q, hq⟩ := hb.of_mem_subtrees hc
    have hz := (hd.mem_children _ _).2 hyz
    rw [hq.children] at hz
    obtain ⟨e, he, rfl⟩ := List.mem_map.1 hz
    refine List.mem_map_of_mem (Tree.mem_subtrees_trans hc ?_)
    exact Tree.mem_subtrees_of_below (List.mem_flatMap.2 ⟨e, he, e.mem_subtrees_self⟩)

theorem mem_descendants_iff (hd : d.Linked) : x ∈ d.descendants h ↔ d.Above h x := by
  rcases hd.branch_or_absent h with ⟨b, hb, rfl⟩ | ⟨hnil, hnone⟩
  · have hx := hd.mem_handles_iff hb (x := x)
    have hn := hd.nodup_handles hb
    rw [Tree.handles_eq, List.nodup_cons, ← hd.descendants_branch hb] at hn
    rw [Tree.handles_eq, ← hd.descendants_branch hb, List.mem_cons, Contains,
      reflTransGen_iff_eq_or_transGen] at hx
    constructor
    · intro hbelow
      rcases hx.1 (.inr hbelow) with rfl | habove
      · exact absurd hbelow hn.1
      · exact habove
    · intro habove
      rcases hx.2 (.inr habove) with rfl | hbelow
      · exact absurd habove (hd.acyclic _)
      · exact hbelow
  · rw [hnone]
    refine ⟨fun hx => absurd hx List.not_mem_nil, fun habove => ?_⟩
    obtain ⟨y, hy, -⟩ := TransGen.head'_iff.1 habove
    have hmem := (hd.mem_children h y).2 hy
    rw [hnil] at hmem
    cases hmem

theorem loop_visit (hd : d.Linked) (h : Handle) :
    Loop d.visit (d.children h).reverse (d.descendants h) := by
  rcases hd.branch_or_absent h with ⟨b, hb, rfl⟩ | ⟨hnil, hnone⟩
  · rw [hd.descendants_branch hb, hb.children, List.flatMap_def]
    simpa using Loop.done.finish (finishes_map fun c hc => finishes_visit (hb.of_mem_children hc))
  · rw [hnone, hnil]
    exact .done

theorem write_congr (hd : d.Linked) (hroot : d'.root = d.root) (hdeclared : d'.declared = d.declared)
    (hsame : ∀ h, d.Contains d.root h → d'.node? h = d.node? h) : d'.write = d.write := by
  obtain ⟨b, hb, htop⟩ := hd.exists_branch hd.present
  have hn := hd.nodup_handles hb
  have hb' : d'.Branch (d.parent? d.root) b := hb.congr fun h hh => hsame h (htop ▸ hb.contains hh)
  rw [write_of_branch hb htop hn, write_of_branch hb' (htop.trans hroot.symm) hn, hdeclared]

end Linked

end Below

structure VisitsBelow (d : Drawing) (h : Handle) : Prop where
  /-- The loop ends, and this is what it gives out. -/
  loop : ∀ hs, Loop d.visit (d.children h).reverse hs ↔ hs = d.descendants h
  /-- Nothing is cut off. -/
  whole : ∀ more, d.walk (d.nodes.size + more) (d.children h) = d.descendants h
  /-- Each child comes with what is below it. -/
  order : d.descendants h = (d.children h).flatMap fun c => c :: d.descendants c
  once : (d.descendants h).Nodup
  apart : h ∉ d.descendants h
  below : ∀ x, x ∈ d.descendants h ↔ d.Above h x

/-- What the loop that writes a drawing comes to, whose tree this is. -/
structure WritesTree (d : Drawing) (t : Tree Content) : Prop where
  loop : ∀ xs, Loop d.job [.opening d.root] xs ↔ xs = t.serial
  whole : ∀ more, d.emit (2 * d.nodes.size + more) [.node d.root] = t.serial.flatMap Construct.written
  written : d.write = (if d.declared then declarationText else "") ++
    String.ofList (t.serial.flatMap Construct.written)
  balanced : Balanced t.serial
  /-- Whatever else is kept in the drawing, what does not hang from the root is not written. -/
  attached : ∀ d' : Drawing, d'.root = d.root → d'.declared = d.declared →
    (∀ h, d.Contains d.root h → d'.node? h = d.node? h) → d'.write = d.write

theorem Linked.visitsBelow (hd : d.Linked) (h : Handle) : d.VisitsBelow h where
  loop := fun hs => (hd.loop_visit h).iff_eq
  whole := fun more => by
    rcases hd.branch_or_absent h with ⟨b, hb, rfl⟩ | ⟨hnil, hnone⟩
    · have hn := hd.nodup_handles hb
      rw [walk_children hb hn, Drawing.descendants_branch hb hn]
    · rw [hnone, hnil, walk_nil]
  order := hd.descendants_eq h
  once := hd.nodup_descendants h
  apart := fun hh => hd.acyclic h (hd.mem_descendants_iff.1 hh)
  below := fun x => hd.mem_descendants_iff

theorem Linked.writesTree (hd : d.Linked) (hb : d.Branch p b) (htop : b.handle = d.root) :
    d.WritesTree b.contents where
  loop := fun xs => by
    rw [← htop]
    exact (finishes_job hb).loop.iff_eq
  whole := fun more => by rw [Tree.written_serial, ← htop, emit_node hb (hd.nodup_handles hb)]
  written := by rw [Tree.written_serial, write_of_branch hb htop (hd.nodup_handles hb)]
  balanced := balanced_serial _
  attached := fun d' => hd.write_congr

/-- The loop over the nodes below a node ends and visits them as recursion does, each once. The loop that
writes a drawing ends too and writes the tree at the root by recursion, with balanced tags and nothing of
what does not hang from the root. -/
theorem loops_of_linked (hd : d.Linked) :
    (∀ h, d.VisitsBelow h) ∧ ∃ t, d.Hangs d.root t ∧ d.WritesTree t := by
  obtain ⟨b, hb, htop⟩ := hd.exists_branch hd.present
  exact ⟨hd.visitsBelow, b.contents, ⟨_, b, hb, htop, rfl⟩, hd.writesTree hb htop⟩

/-- An element with a text below it has been put in the place of another one. -/
theorem loops_of_linked_replaced :
    let svg : Content := .element { name := "svg" }
    let text : Content := .element { name := "text" }
    let d : Drawing := { nodes := #[{ content := svg, children := [3] },
      { content := text, children := [2] }, { content := .text "x", parent := some 1 },
      { content := text, parent := some 0, children := [4] },
      { content := .text "<", parent := some 3 }] }
    d.Linked ∧ Loop d.visit [3] [3, 4] ∧ Loop d.visit [2] [2] ∧
      ∃ t, d.Hangs 0 t ∧ Loop d.job [.opening 0] t.serial ∧
        String.ofList (t.serial.flatMap Construct.written) = "<svg><text>&lt;</text></svg>" := by
  intro svg text d
  let bare : Drawing := { nodes := #[{ content := svg }] }
  let one : Drawing := { nodes := #[{ content := svg }, { content := text, children := [2] },
    { content := .text "x", parent := some 1 }] }
  let held : Drawing := { nodes := #[{ content := svg, children := [1] },
    { content := text, parent := some 0, children := [2] }, { content := .text "x", parent := some 1 }] }
  let two : Drawing := { nodes := #[{ content := svg, children := [1] },
    { content := text, parent := some 0, children := [2] }, { content := .text "x", parent := some 1 },
    { content := text, children := [4] }, { content := .text "<", parent := some 3 }] }
  have hone : Step bare one := ⟨.createElement { name := "text" } (some "x"), trivial, rfl⟩
  have hheld : Step one held := ⟨.append 0 1, ⟨by decide, by decide, by decide,
    not_contains_of_parent?_none rfl (by decide)⟩, rfl⟩
  have htwo : Step held two := ⟨.createElement { name := "text" } (some "<"), trivial, rfl⟩
  have hadmits : two.Admits (.replace 1 3) := by
    rintro p hp
    obtain rfl : 0 = p := Option.some.inj hp
    exact ⟨by decide, by decide, by decide, by decide, not_contains_of_parent?_none rfl (by decide)⟩
  have hd : d.Forest := forest_of_steps (forest_single _ _)
    (.head hone (.head hheld (.head htwo (.single ⟨.replace 1 3, hadmits, rfl⟩))))
  obtain ⟨hvisits, t, ht, hwrites⟩ := loops_of_linked hd.linked
  have hwritten : d.write = "<svg><text>&lt;</text></svg>" := rfl
  exact ⟨hd.linked, ((hvisits 0).loop _).2 rfl, ((hvisits 1).loop _).2 rfl, t, ht, (hwrites.loop _).2 rfl,
    hwrites.written.symm.trans hwritten⟩

end Drawing

end FormulaDrawing
