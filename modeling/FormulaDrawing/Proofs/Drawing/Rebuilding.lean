import FormulaDrawing.Proofs.Drawing.Change

/-! Branches while a drawing is worked over. What is done to a branch stays in a territory, the nodes it
was first made of; all else in it is new. So work on one child leaves its siblings alone, and work on a
branch that has been cut off leaves the tree alone. -/

namespace FormulaDrawing.Drawing

/-- The branch stands in `d`, which came from `d₀` by changes to the nodes `hs`; it is made of these
and of nodes that are new. -/
structure Rebuilt (hs : List Handle) (d₀ d : Drawing) (p : Option Handle) (b : Layout) : Prop where
  branch : d.Branch p b
  nodup : b.handles.Nodup
  inside : ∀ x ∈ b.handles, x ∈ hs ∨ d₀.nodes.size ≤ x
  confined : Confined hs d₀ d

variable {hs ks : List Handle} {d₀ d d₁ : Drawing} {p : Option Handle} {h : Handle} {c : Content}
  {b t t' : Layout} {xs ys cs : List Layout}

theorem Branch.rebuilt (hb : d.Branch p b) (hn : b.handles.Nodup) : Rebuilt b.handles d d p b :=
  ⟨hb, hn, fun _ hx => .inl hx, .refl _ _⟩

theorem Rebuilt.laid (hr : Rebuilt hs d₀ d none b) (ht : b.handle = d₀.root) : d.Laid b :=
  ⟨hr.branch, ht.trans hr.confined.root.symm, hr.nodup⟩

theorem Rebuilt.idle (hr : Rebuilt hs d₀ d p b) (hd : Confined ks d d₁)
    (hks : ∀ k ∈ ks, k ∈ hs ∨ d₀.nodes.size ≤ k) (hdisjoint : ∀ x ∈ b.handles, x ∉ ks) :
    Rebuilt hs d₀ d₁ p b where
  branch := hr.branch.of_confined hd hdisjoint
  nodup := hr.nodup
  inside := hr.inside
  confined := hr.confined.trans hd hks

section Child

theorem perm_handles (h : Handle) (c : Content) (xs ys : List Layout) (t : Layout) :
    (Tree.node (h, c) (xs ++ t :: ys)).handles.Perm
      (t.handles ++ (Tree.node (h, c) (xs ++ ys)).handles) := by
  rw [Tree.handles_node, Tree.handles_node, List.flatMap_append, List.flatMap_cons,
    List.flatMap_append]
  exact ((List.perm_append_comm_assoc _ _ _).cons h).trans List.perm_middle.symm

theorem mem_handles_iff {x : Handle} : x ∈ (Tree.node (h, c) (xs ++ t :: ys)).handles ↔
    x ∈ t.handles ∨ x ∈ (Tree.node (h, c) (xs ++ ys)).handles := by
  rw [(perm_handles h c xs ys t).mem_iff, List.mem_append]

theorem nodup_handles_iff : (Tree.node (h, c) (xs ++ t :: ys)).handles.Nodup ↔
    t.handles.Nodup ∧ (Tree.node (h, c) (xs ++ ys)).handles.Nodup ∧
      t.handles.Disjoint (Tree.node (h, c) (xs ++ ys)).handles := by
  rw [(perm_handles h c xs ys t).nodup_iff, List.nodup_append']

theorem mem_handles_of_mem {cs : List Layout} (hb : b ∈ cs) {x : Handle} (hx : x ∈ b.handles) :
    x ∈ (Tree.node (h, c) cs).handles := by
  rw [Tree.handles_node]
  exact List.mem_cons_of_mem h (List.mem_flatMap.2 ⟨b, hb, hx⟩)

theorem Rebuilt.lt_size (hr : Rebuilt hs d₀ d p b) {x : Handle} (hx : x ∈ b.handles) :
    x < d.nodes.size := hr.branch.lt_size hx

theorem Rebuilt.branch_child (hr : Rebuilt hs d₀ d p (.node (h, c) (xs ++ t :: ys))) :
    d.Branch (some h) t := hr.branch.of_mem_children (by simp)

theorem Rebuilt.nodup_child (hr : Rebuilt hs d₀ d p (.node (h, c) (xs ++ t :: ys))) :
    t.handles.Nodup := (nodup_handles_iff.1 hr.nodup).1

theorem Rebuilt.child (hr : Rebuilt hs d₀ d p (.node (h, c) (xs ++ t :: ys)))
    (ht : Rebuilt t.handles d d₁ (some h) t') (he : t'.handle = t.handle) :
    Rebuilt hs d₀ d₁ p (.node (h, c) (xs ++ t' :: ys)) := by
  obtain ⟨-, hrest, hdisjoint⟩ := nodup_handles_iff.1 hr.nodup
  have hlt : ∀ x ∈ (Tree.node (h, c) (xs ++ ys)).handles, x < d.nodes.size := fun x hx =>
    hr.lt_size (mem_handles_iff.2 (.inr hx))
  -- The work stays within the child, whose nodes are none of the others.
  have hkept : ∀ x ∈ (Tree.node (h, c) (xs ++ ys)).handles, d₁.node? x = d.node? x := fun x hx =>
    ht.confined.kept x (hlt x hx) fun hxt => hdisjoint hxt hx
  have hothers : ∀ b ∈ xs ++ ys, d₁.Branch (some h) b := fun b hb => by
    have hmem : b ∈ xs ++ t :: ys := by
      rw [List.mem_append] at hb
      rw [List.mem_append, List.mem_cons]
      exact hb.imp_right .inr
    exact (hr.branch.of_mem_children hmem).congr fun x hx => hkept x (mem_handles_of_mem hb hx)
  refine ⟨.node ?_ fun b hb => ?_, nodup_handles_iff.2 ⟨ht.nodup, hrest, fun x hxt hx => ?_⟩,
    fun x hx => ?_, hr.confined.trans ht.confined fun k hk => ?_⟩
  · refine (hkept h (by simp)).trans (hr.branch.node?.trans ?_)
    simp [he]
  · rw [List.mem_append, List.mem_cons] at hb
    rcases hb with hb | rfl | hb
    · exact hothers b (List.mem_append_left _ hb)
    · exact ht.branch
    · exact hothers b (List.mem_append_right _ hb)
  · rcases ht.inside x hxt with hxt | hnew
    · exact hdisjoint hxt hx
    · exact (hlt x hx).not_ge hnew
  · rcases mem_handles_iff.1 hx with hx | hx
    · rcases ht.inside x hx with hx | hx
      · exact hr.inside x (mem_handles_iff.2 (.inl hx))
      · exact .inr (hr.confined.size.trans hx)
    · exact hr.inside x (mem_handles_iff.2 (.inr hx))
  · exact hr.inside k (mem_handles_iff.2 (.inl hk))

end Child

theorem Rebuilt.graft (hr : Rebuilt hs d₀ d p (.node (h, c) cs)) (e : Element) (s : String)
    (ks : List Handle) (hcs : (xs ++ ys).Sublist cs)
    (hd : Confined (h :: d.nodes.size :: ks) (d.createElement e (some s)).1 d₁)
    (hks : ∀ k ∈ ks, k ∈ (Tree.node (h, c) cs).handles ∧
      k ∉ (Tree.node (h, c) (xs ++ ys)).handles)
    (htop : d₁.node? h =
      some { content := c, parent := p,
             children := (xs ++ .holdingAt d.nodes.size e s :: ys).map Tree.handle })
    (hnew : d₁.node? d.nodes.size =
      some { content := .element e, parent := some h, children := [d.nodes.size + 1] }) :
    Rebuilt hs d₀ d₁ p (.node (h, c) (xs ++ .holdingAt d.nodes.size e s :: ys)) := by
  set n := d.nodes.size
  have hcreate := confined_createElement d e s
  have hrest : (Tree.node (h, c) (xs ++ ys)).handles.Sublist (Tree.node (h, c) cs).handles := by
    rw [Tree.handles_node, Tree.handles_node]
    exact (hcs.flatMap Tree.handles).cons_cons h
  have hlt : ∀ x ∈ (Tree.node (h, c) cs).handles, x < n := fun x hx => hr.lt_size hx
  have hnodup := hr.nodup.sublist hrest
  -- What is changed is the top, the new element and nodes that are no longer in the tree.
  have hothers : ∀ b ∈ xs ++ ys, d₁.Branch (some h) b := fun b hb => by
    have hbelow := (hr.branch.of_mem_children (hcs.subset hb)).of_confined hcreate (by simp)
    refine hbelow.of_confined hd fun x hx hxd => ?_
    have hmem : x ∈ (Tree.node (h, c) (xs ++ ys)).handles := mem_handles_of_mem hb hx
    rw [List.mem_cons, List.mem_cons] at hxd
    rcases hxd with rfl | rfl | hk
    · rw [Tree.handles_node, List.nodup_cons] at hnodup
      exact hnodup.1 (List.mem_flatMap.2 ⟨b, hb, hx⟩)
    · exact (hlt n (hrest.subset hmem)).false
    · exact (hks x hk).2 hmem
  have hleaf : d₁.Branch (some h) (.holdingAt n e s) := by
    refine .node hnew fun b hb => ?_
    have hbelow := (branch_createElement d e s).of_mem_children hb
    obtain rfl := List.mem_singleton.1 hb
    refine hbelow.of_confined hd fun x hx hxd => ?_
    obtain rfl : x = n + 1 := by simpa [Tree.leaf] using hx
    rw [List.mem_cons, List.mem_cons] at hxd
    rcases hxd with hh | hn | hk
    · exact (hlt h (by simp)).not_ge (hh ▸ n.le_succ)
    · exact n.succ_ne_self hn
    · exact (hlt _ (hks _ hk).1).not_ge n.le_succ
  -- New handles are above all old ones, so nothing can occur twice.
  have hfresh : ∀ x ∈ (Tree.holdingAt n e s).handles, n ≤ x := fun x hx => by
    rw [Tree.handles_holdingAt, List.mem_cons, List.mem_singleton] at hx
    rcases hx with rfl | rfl
    · exact le_rfl
    · exact Nat.le_succ _
  refine ⟨.node htop fun b hb => ?_, nodup_handles_iff.2 ⟨?_, hnodup, fun x hx hxr => ?_⟩,
    fun x hx => ?_, (hr.confined.trans hcreate (by simp)).trans hd fun k hk => ?_⟩
  · rw [List.mem_append, List.mem_cons] at hb
    rcases hb with hb | rfl | hb
    · exact hothers b (List.mem_append_left _ hb)
    · exact hleaf
    · exact hothers b (List.mem_append_right _ hb)
  · rw [Tree.handles_holdingAt]
    simp
  · exact (hlt x (hrest.subset hxr)).not_ge (hfresh x hx)
  · rcases mem_handles_iff.1 hx with hx | hx
    · exact .inr (hr.confined.size.trans (hfresh x hx))
    · exact hr.inside x (hrest.subset hx)
  · rw [List.mem_cons, List.mem_cons] at hk
    rcases hk with rfl | rfl | hk
    · exact hr.inside k (by simp)
    · exact .inr hr.confined.size
    · exact hr.inside k (hks k hk).1

section Operations

variable (e : Element) (s : String)

theorem parent?_createElement (d : Drawing) :
    (d.createElement e (some s)).1.parent? d.nodes.size = none :=
  (branch_createElement d e s).parent?

theorem Rebuilt.node?_createElement (hr : Rebuilt hs d₀ d p (.node (h, c) cs)) :
    (d.createElement e (some s)).1.node? h =
      some { content := c, parent := p, children := cs.map Tree.handle } :=
  ((confined_createElement d e s).kept h (hr.lt_size (by simp)) (by simp)).trans hr.branch.node?

theorem Rebuilt.append (hr : Rebuilt hs d₀ d p (.node (h, c) cs)) :
    Rebuilt hs d₀ ((d.createElement e (some s)).1.append h d.nodes.size) p
      (.node (h, c) (cs ++ [.holdingAt d.nodes.size e s])) := by
  have hne : d.nodes.size ≠ h := (hr.lt_size (by simp)).ne'
  have hparent := parent?_createElement e s d
  refine hr.graft e s [] (by simp) (confined_append hparent hne) nofun ?_ ?_
  · rw [node?_append hparent hne, if_neg hne.symm, if_pos rfl, hr.node?_createElement]
    simp [Tree.holdingAt]
  · rw [node?_append hparent hne, if_pos rfl]
    exact congrArg _ (branch_createElement d e s).node?

theorem Rebuilt.insert (hr : Rebuilt hs d₀ d p (.node (h, c) cs)) :
    Rebuilt hs d₀ ((d.createElement e (some s)).1.insert h 0 d.nodes.size) p
      (.node (h, c) (.holdingAt d.nodes.size e s :: cs)) := by
  have hne : d.nodes.size ≠ h := (hr.lt_size (by simp)).ne'
  have hparent := parent?_createElement e s d
  rw [← List.nil_append (_ :: cs)]
  refine hr.graft e s [] (.refl cs) (confined_insert hparent hne 0) nofun ?_ ?_
  · rw [node?_insert hparent hne, if_neg hne.symm, if_pos rfl, hr.node?_createElement]
    simp [Tree.holdingAt]
  · rw [node?_insert hparent hne, if_pos rfl]
    exact congrArg _ (branch_createElement d e s).node?

theorem Rebuilt.replace (hr : Rebuilt hs d₀ d p (.node (h, c) (xs ++ t :: ys))) :
    ∃ d₁, (d.createElement e (some s)).1.replace? t.handle d.nodes.size = some d₁ ∧
      Rebuilt hs d₀ d₁ p (.node (h, c) (xs ++ .holdingAt d.nodes.size e s :: ys)) ∧
      d₁.Branch none t := by
  obtain ⟨htn, -, hdisjoint⟩ := nodup_handles_iff.1 hr.nodup
  have hmem := t.handle_mem_handles
  have hb := hr.branch_child
  have hb' := hb.of_confined (confined_createElement d e s) (by simp)
  have hnt : ∀ x ∈ t.handles, x ≠ d.nodes.size := fun x hx => (hb.lt_size hx).ne
  have hht : h ∉ t.handles := fun hh => hdisjoint hh (by simp)
  have htop : h ≠ t.handle := fun he => hht (he ▸ hmem)
  have hsize : h ≠ d.nodes.size := (hr.lt_size (by simp)).ne
  have hxs : t.handle ∉ xs.map Tree.handle := fun hx => by
    obtain ⟨b, hb, he⟩ := List.mem_map.1 hx
    exact hdisjoint hmem (mem_handles_of_mem (List.mem_append_left _ hb)
      (he ▸ b.handle_mem_handles))
  obtain ⟨d₁, hok, hconfined, hnode⟩ := replace?_eq_some hb'.parent? (parent?_createElement e s d)
    (hnt _ hmem).symm htop hsize
  refine ⟨d₁, hok, hr.graft e s [t.handle] ?_ hconfined (fun k hk => ?_) ?_ ?_, ?_⟩
  · exact (List.Sublist.refl xs).append (List.sublist_cons_self t ys)
  · rw [List.mem_singleton.1 hk]
    exact ⟨mem_handles_iff.2 (.inl hmem), fun hx => hdisjoint hmem hx⟩
  · rw [hnode, if_neg htop, if_neg hsize, if_pos rfl, hr.node?_createElement, List.map_append,
      List.map_cons, List.map_append, List.map_cons, Option.map_some, replaceFirst_append hxs]
    rfl
  · rw [hnode, if_neg (hnt _ hmem).symm, if_pos rfl]
    exact congrArg _ (branch_createElement d e s).node?
  -- The old child has lost its parent, and what is below it was not touched.
  · obtain ⟨⟨k, x⟩, bs⟩ := t
    rw [Tree.handles_node, List.nodup_cons] at htn
    refine .node ?_ fun b hbs => ?_
    · rw [hnode, Tree.handle_node, if_pos rfl]
      exact congrArg _ hb'.node?
    · refine (hb'.of_mem_children hbs).of_confined hconfined fun y hy hyd => ?_
      have hymem := mem_handles_of_mem (h := k) (c := x) hbs hy
      simp only [List.mem_cons, List.not_mem_nil, or_false] at hyd
      rcases hyd with rfl | rfl | rfl
      · exact hht hymem
      · exact hnt _ hymem rfl
      · exact htn.1 (List.mem_flatMap.2 ⟨b, hbs, hy⟩)

theorem Rebuilt.not_mem_replaced (hr : Rebuilt hs d₀ d p (.node (h, c) (xs ++ t :: ys))) :
    ∀ x ∈ (Tree.node (h, c) (xs ++ .holdingAt d.nodes.size e s :: ys)).handles,
      x ∉ t.handles := by
  obtain ⟨-, -, hdisjoint⟩ := nodup_handles_iff.1 hr.nodup
  intro x hx hxt
  have hlt : x < d.nodes.size := hr.branch_child.lt_size hxt
  rcases mem_handles_iff.1 hx with hx | hx
  · rw [Tree.handles_holdingAt, List.mem_cons, List.mem_singleton] at hx
    rcases hx with rfl | rfl
    · exact hlt.false
    · exact hlt.not_ge (Nat.le_succ _)
  · exact hdisjoint hxt hx

theorem Branch.modifyElement (hb : d.Branch p (.node (h, c) cs))
    (hn : (Tree.node (h, c) cs).handles.Nodup) (f : Element → Element) :
    Rebuilt (Tree.node (h, c) cs).handles d (d.modifyElement h f) p
      (.node (h, c.mapElement f) cs) := by
  have hconfined : Confined [h] d (d.modifyElement h f) := confined_modify ..
  have hn' := hn
  rw [Tree.handles_node, List.nodup_cons] at hn'
  refine ⟨.node ?_ fun b hbs => ?_, ?_, fun x hx => .inl ?_, ?_⟩
  · rw [node?_modifyElement, if_pos rfl]
    exact congrArg _ hb.node?
  · refine (hb.of_mem_children hbs).of_confined hconfined fun x hx hxh => hn'.1 ?_
    rw [← List.mem_singleton.1 hxh]
    exact List.mem_flatMap.2 ⟨b, hbs, hx⟩
  · rwa [Tree.handles_node] at hn ⊢
  · rwa [Tree.handles_node] at hx ⊢
  · exact (Confined.refl _ d).trans hconfined (by simp)

end Operations

end FormulaDrawing.Drawing
