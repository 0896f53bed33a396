import FormulaDrawing.Drawing.Basic
import FormulaDrawing.Proofs.Drawing.Tree

/-! The trees that stand in a drawing. A layout says where each node of a tree is kept; it is a branch
of a drawing if the nodes there have these contents and are linked both ways. What a drawing shows is
the tree that hangs from its root. -/

namespace FormulaDrawing

abbrev Layout := Tree (Handle × Content)

namespace Tree

def handle (b : Layout) : Handle := b.label.1

def handles (b : Layout) : List Handle := b.subtrees.map handle

def contents (b : Layout) : Tree Content := b.map Prod.snd

@[simp] theorem handle_node (h : Handle) (c : Content) (bs : List Layout) :
    handle (node (h, c) bs) = h := rfl

@[simp] theorem handles_node (h : Handle) (c : Content) (bs : List Layout) :
    handles (node (h, c) bs) = h :: bs.flatMap handles := by
  rw [handles, subtrees_node, List.map_cons, List.map_flatMap]
  rfl

@[simp] theorem contents_node (h : Handle) (c : Content) (bs : List Layout) :
    contents (node (h, c) bs) = node c (bs.map contents) := by
  rw [contents, map_node]
  rfl

theorem handle_mem_handles (b : Layout) : b.handle ∈ b.handles := by
  obtain ⟨⟨h, c⟩, bs⟩ := b
  simp

theorem handles_eq (b : Layout) : b.handles = b.handle :: b.children.flatMap handles := by
  obtain ⟨⟨h, c⟩, bs⟩ := b
  exact handles_node h c bs

theorem handles_sublist {b c : Layout} (hc : c ∈ b.subtrees) : c.handles.Sublist b.handles := by
  induction b using induct with
  | node a bs ih =>
    obtain ⟨h, x⟩ := a
    rw [subtrees_node, List.mem_cons, List.mem_flatMap] at hc
    rcases hc with rfl | ⟨b, hb, hc⟩
    · exact .refl _
    · have hbs : b.handles.Sublist (bs.flatMap handles) :=
        List.sublist_flatten_of_mem (List.mem_map_of_mem hb)
      rw [handles_node]
      exact ((ih b hb hc).trans hbs).cons h

theorem label_contents (b : Layout) : b.contents.label = b.label.2 := label_map ..

theorem children_contents (b : Layout) : b.contents.children = b.children.map contents :=
  children_map ..

theorem subtrees_contents (b : Layout) : b.contents.subtrees = b.subtrees.map contents :=
  subtrees_map ..

end Tree

namespace Drawing

/-- Parent and child links agree along the whole layout, whose top has the parent given. -/
inductive Branch (d : Drawing) : Option Handle → Layout → Prop
  | node {p : Option Handle} {h : Handle} {c : Content} {bs : List Layout}
      (top : d.node? h = some { content := c, parent := p, children := bs.map Tree.handle })
      (below : ∀ b ∈ bs, Branch d (some h) b) : Branch d p (.node (h, c) bs)

/-- The layout hangs from the root and no node occurs twice in it. -/
structure Laid (d : Drawing) (b : Layout) : Prop where
  branch : d.Branch none b
  top : b.handle = d.root
  nodup : b.handles.Nodup

def Shows (d : Drawing) (t : Tree Content) : Prop := ∃ b, d.Laid b ∧ b.contents = t

variable {d d' : Drawing} {p q : Option Handle} {b : Layout}

namespace Branch

theorem node? (hb : d.Branch p b) :
    d.node? b.handle =
      some { content := b.label.2, parent := p, children := b.children.map Tree.handle } := by
  cases hb with
  | node top _ => exact top

theorem of_mem_children (hb : d.Branch p b) {c : Layout} (hc : c ∈ b.children) :
    d.Branch (some b.handle) c := by
  cases hb with
  | node _ below => exact below c hc

theorem content? (hb : d.Branch p b) : d.content? b.handle = some b.label.2 := by
  rw [Drawing.content?, hb.node?, Option.map_some]

theorem element? (hb : d.Branch p b) : d.element? b.handle = b.label.2.element? := by
  rw [Drawing.element?, hb.content?, Option.bind_some]

theorem text? (hb : d.Branch p b) : d.text? b.handle = b.label.2.text? := by
  rw [Drawing.text?, hb.content?, Option.bind_some]

theorem parent? (hb : d.Branch p b) : d.parent? b.handle = p := by
  rw [Drawing.parent?, hb.node?, Option.bind_some]

theorem children (hb : d.Branch p b) : d.children b.handle = b.children.map Tree.handle := by
  rw [Drawing.children, hb.node?, Option.map_some, Option.getD_some]

theorem of_mem_subtrees (hb : d.Branch p b) {c : Layout} (hc : c ∈ b.subtrees) :
    ∃ q, d.Branch q c := by
  induction hb with
  | @node p h x bs top below ih =>
    rw [Tree.subtrees_node, List.mem_cons, List.mem_flatMap] at hc
    rcases hc with rfl | ⟨b, hb, hc⟩
    · exact ⟨p, .node top below⟩
    · exact ih b hb hc

theorem lt_size (hb : d.Branch p b) {h : Handle} (hh : h ∈ b.handles) : h < d.nodes.size := by
  obtain ⟨c, hc, rfl⟩ := List.mem_map.1 hh
  obtain ⟨q, hq⟩ := hb.of_mem_subtrees hc
  exact (Array.getElem?_eq_some_iff.1 hq.node?).1

theorem congr (hb : d.Branch p b) (hn : ∀ h ∈ b.handles, d'.node? h = d.node? h) :
    d'.Branch p b := by
  induction hb with
  | @node p h c bs top below ih =>
    rw [Tree.handles_node] at hn
    refine .node ?_ fun b hb => ih b hb fun x hx => ?_
    · rw [hn h (by simp), top]
    · exact hn x (List.mem_cons_of_mem _ (List.mem_flatMap.2 ⟨b, hb, hx⟩))

theorem length_handles_le (hb : d.Branch p b) (hn : b.handles.Nodup) :
    b.handles.length ≤ d.nodes.size := by
  have hs : b.handles ⊆ List.range d.nodes.size := fun h hh => List.mem_range.2 (hb.lt_size hh)
  simpa using (hn.subperm hs).length_le

theorem unique (hb : d.Branch p b) {c : Layout} (hc : d.Branch q c) (he : b.handle = c.handle) :
    b = c := by
  induction hb generalizing q c with
  | @node p h x bs top below ih =>
    cases hc with
    | @node _ k y cs htop hbelow =>
      obtain rfl : h = k := he
      rw [top, Option.some.injEq, Node.mk.injEq] at htop
      obtain ⟨rfl, -, hm⟩ := htop
      congr 1
      refine List.ext_getElem (by simpa using congrArg List.length hm) fun i hi hj => ?_
      refine ih _ (List.getElem_mem hi) (hbelow _ (List.getElem_mem hj)) ?_
      simpa [hi, hj] using congrArg (·[i]?) hm

end Branch

theorem Shows.unique {t u : Tree Content} (ht : d.Shows t) (hu : d.Shows u) : t = u := by
  obtain ⟨b, hb, rfl⟩ := ht
  obtain ⟨c, hc, rfl⟩ := hu
  rw [hb.branch.unique hc.branch (hb.top.trans hc.top.symm)]

@[simp] theorem walk_nil (d : Drawing) (n : Nat) : d.walk n [] = [] := by cases n <;> rfl

theorem walk_branch (hb : d.Branch p b) (n : Nat) (agenda : List Handle) :
    d.walk (b.handles.length + n) (b.handle :: agenda) = b.handles ++ d.walk n agenda := by
  induction hb generalizing n agenda with
  | @node p h c bs top below ih =>
    have hall : ∀ cs : List Layout, (∀ b ∈ cs, b ∈ bs) → ∀ n agenda,
        d.walk ((cs.flatMap Tree.handles).length + n) (cs.map Tree.handle ++ agenda) =
          cs.flatMap Tree.handles ++ d.walk n agenda := by
      intro cs
      induction cs with
      | nil => simp
      | cons b cs ihs =>
        intro hcs n agenda
        rw [List.flatMap_cons, List.length_append, Nat.add_assoc, List.map_cons, List.cons_append,
          ih b (hcs b (by simp)), ihs (fun c hc => hcs c (by simp [hc])), List.append_assoc]
    have hc : d.children h = bs.map Tree.handle := (Branch.node top below).children
    rw [Tree.handles_node, List.length_cons, Tree.handle_node, Nat.add_right_comm, walk, hc,
      hall bs (fun _ hb => hb), List.cons_append]

theorem walk_children (hb : d.Branch p b) (hn : b.handles.Nodup) (more : Nat) :
    d.walk (d.nodes.size + more) (d.children b.handle) =
      (b.children.flatMap Tree.subtrees).map Tree.handle := by
  have hle := hb.length_handles_le hn
  have hw := walk_branch hb (d.nodes.size + more + 1 - b.handles.length) []
  rw [walk_nil, Nat.add_sub_cancel' (by omega), walk, Tree.handles_eq, List.append_nil, List.append_nil,
    List.cons.injEq] at hw
  rw [hw.2, List.map_flatMap]
  rfl

theorem descendants_branch (hb : d.Branch p b) (hn : b.handles.Nodup) :
    d.descendants b.handle = (b.children.flatMap Tree.subtrees).map Tree.handle :=
  walk_children hb hn 0

end Drawing

end FormulaDrawing
