import FormulaDrawing.Proofs.Drawing.Forest
import FormulaDrawing.Proofs.Drawing.Legibility
import FormulaDrawing.Proofs.Drawing.Verdict

/-! The nodes of a drawing that has been read are numbered in document order. They form one branch whose
handles count up, so all links between nodes are read off that branch, a parent has a smaller number than
its children, and a walk below the root meets the numbers one after another. -/

namespace FormulaDrawing

open Markup Relation

namespace Tree

variable {t u : Tree Content} {b c e : Layout}

/-- Only elements have anything below them. -/
def InElements (t : Tree Content) : Prop :=
  ∀ u ∈ t.subtrees, u.children ≠ [] → (u.label.element?).isSome

theorem inElements_leaf (c : Content) : (leaf c).InElements := by
  rintro u hu hne
  rw [leaf, subtrees_node, List.flatMap_nil, List.mem_singleton] at hu
  subst hu
  exact absurd rfl hne

theorem inElements_node {c : Content} {ts : List (Tree Content)} (hc : c.element?.isSome)
    (hts : ∀ t ∈ ts, t.InElements) : (node c ts).InElements := by
  rintro u hu hne
  rw [subtrees_node, List.mem_cons, List.mem_flatMap] at hu
  rcases hu with rfl | ⟨t, ht, hu⟩
  · exact hc
  · exact hts t ht u hu hne

theorem eq_or_mem_children {α : Type} {t u : Tree α} (hu : u ∈ t.subtrees) :
    u = t ∨ ∃ v ∈ t.subtrees, u ∈ v.children := by
  induction t using induct with
  | node a ts ih =>
    rw [subtrees_node, List.mem_cons, List.mem_flatMap] at hu
    rcases hu with rfl | ⟨t, ht, hu⟩
    · exact .inl rfl
    · refine .inr ?_
      rcases ih t ht hu with rfl | ⟨v, hv, hu⟩
      · exact ⟨_, mem_subtrees_self _, ht⟩
      · exact ⟨v, mem_subtrees_of_below (List.mem_flatMap.2 ⟨t, ht, hv⟩), hu⟩

theorem map_handle_sublist (bs : List Layout) : (bs.map handle).Sublist (bs.flatMap handles) := by
  induction bs with
  | nil => exact .refl _
  | cons b bs ih =>
    rw [List.map_cons, List.flatMap_cons, handles_eq, List.cons_append]
    exact (ih.trans (List.sublist_append_right ..)).cons_cons _

end Tree

namespace Drawing

variable {d : Drawing} {b c e : Layout} {h p : Handle} {o : Option Handle}

theorem Spells.inElements {xs : List Construct} {ts : List (Tree Content)} (h : Spells xs ts) :
    ∀ t ∈ ts, t.InElements := by
  induction h with
  | nil => nofun
  | shown first rest ih =>
    refine List.forall_mem_append.2 ⟨fun t ht => ?_, ih⟩
    obtain ⟨c, rfl⟩ := eq_leaf_of_shown first ht
    exact Tree.inElements_leaf c
  | empty first rest ih => exact List.forall_mem_cons.2 ⟨Tree.inElements_leaf _, ih⟩
  | element first inner last rest ihinner ih =>
    exact List.forall_mem_cons.2 ⟨Tree.inElements_node rfl ihinner, ih⟩

theorem Whole.inElements {xs : List Construct} {t : Tree Content} (h : Whole xs t) : t.InElements := by
  cases h with
  | empty before root behind => exact Tree.inElements_leaf _
  | element before root inner last behind => exact Tree.inElements_node rfl inner.inElements

/-- The layout holds all nodes, in the order of their numbers. -/
structure Numbered (d : Drawing) (b : Layout) : Prop where
  laid : d.Laid b
  order : b.handles = List.range d.nodes.size

namespace Numbered

theorem exists_subtree (hb : d.Numbered b) (hh : h < d.nodes.size) :
    ∃ c ∈ b.subtrees, c.handle = h := by
  rw [← List.mem_range, ← hb.order] at hh
  exact List.mem_map.1 hh

theorem branch (hb : d.Numbered b) (he : e ∈ b.subtrees) (hc : c ∈ e.children) :
    d.Branch (some e.handle) c := by
  obtain ⟨q, hq⟩ := hb.laid.branch.of_mem_subtrees he
  exact hq.of_mem_children hc

theorem parent?_eq_some_iff (hb : d.Numbered b) :
    d.parent? h = some p ↔ ∃ e ∈ b.subtrees, ∃ c ∈ e.children, e.handle = p ∧ c.handle = h := by
  constructor
  · intro hp
    obtain ⟨c, hc, rfl⟩ := hb.exists_subtree (Forest.lt_size hp)
    rcases Tree.eq_or_mem_children hc with rfl | ⟨e, he, hce⟩
    · rw [hb.laid.branch.parent?] at hp
      cases hp
    · rw [(hb.branch he hce).parent?, Option.some.injEq] at hp
      exact ⟨e, he, c, hce, hp, rfl⟩
  · rintro ⟨e, he, c, hc, rfl, rfl⟩
    exact (hb.branch he hc).parent?

theorem exists_parent (hb : d.Numbered b) (hne : h ≠ d.root) (hlt : h < d.nodes.size) :
    ∃ p, d.parent? h = some p := by
  obtain ⟨c, hc, rfl⟩ := hb.exists_subtree hlt
  rcases Tree.eq_or_mem_children hc with rfl | ⟨e, he, hce⟩
  · exact absurd hb.laid.top hne
  · exact ⟨_, (hb.branch he hce).parent?⟩

theorem mem_children_iff (hb : d.Numbered b) :
    h ∈ d.children p ↔ ∃ e ∈ b.subtrees, ∃ c ∈ e.children, e.handle = p ∧ c.handle = h := by
  constructor
  · intro hh
    have hp : p < d.nodes.size := by
      by_contra hlt
      rw [children_eq_nil (Nat.not_lt.1 hlt)] at hh
      cases hh
    obtain ⟨e, he, rfl⟩ := hb.exists_subtree hp
    obtain ⟨q, hq⟩ := hb.laid.branch.of_mem_subtrees he
    rw [hq.children, List.mem_map] at hh
    obtain ⟨c, hc, rfl⟩ := hh
    exact ⟨e, he, c, hc, rfl, rfl⟩
  · rintro ⟨e, he, c, hc, rfl, rfl⟩
    obtain ⟨q, hq⟩ := hb.laid.branch.of_mem_subtrees he
    rw [hq.children]
    exact List.mem_map_of_mem hc

theorem lt_of_parent? (hb : d.Numbered b) (hp : d.parent? h = some p) : p < h := by
  obtain ⟨e, he, c, hc, rfl, rfl⟩ := hb.parent?_eq_some_iff.1 hp
  have hincreasing : e.handles.Pairwise (· < ·) :=
    (hb.order ▸ List.pairwise_lt_range).sublist (Tree.handles_sublist he)
  rw [Tree.handles_eq, List.pairwise_cons] at hincreasing
  exact hincreasing.1 _ (List.mem_flatMap.2 ⟨c, hc, c.handle_mem_handles⟩)

theorem nodup_children (hb : d.Numbered b) (p : Handle) : (d.children p).Nodup := by
  by_cases hp : p < d.nodes.size
  · obtain ⟨e, he, rfl⟩ := hb.exists_subtree hp
    obtain ⟨q, hq⟩ := hb.laid.branch.of_mem_subtrees he
    have hn : e.handles.Nodup := hb.laid.nodup.sublist (Tree.handles_sublist he)
    rw [Tree.handles_eq, List.nodup_cons] at hn
    rw [hq.children]
    exact hn.2.sublist (Tree.map_handle_sublist _)
  · rw [children_eq_nil (Nat.not_lt.1 hp)]
    exact List.nodup_nil

theorem root_lt_size (hb : d.Numbered b) : d.root < d.nodes.size := by
  rw [← hb.laid.top]
  exact hb.laid.branch.lt_size b.handle_mem_handles

theorem root_eq (hb : d.Numbered b) : d.root = 0 := by
  obtain ⟨n, hn⟩ := Nat.exists_eq_succ_of_ne_zero (Nat.ne_zero_of_lt hb.root_lt_size)
  have ho := hb.order
  rw [hn, Tree.handles_eq, List.range_succ_eq_map, List.cons.injEq] at ho
  rw [← hb.laid.top, ho.1]

theorem parent?_root (hb : d.Numbered b) : d.parent? d.root = none := by
  rw [← hb.laid.top]
  exact hb.laid.branch.parent?

theorem forest (hb : d.Numbered b) : d.Forest where
  present := hb.root_lt_size
  root := hb.parent?_root
  mem_children := fun p h => by rw [hb.mem_children_iff, hb.parent?_eq_some_iff]
  nodup := hb.nodup_children
  acyclic := fun h hh => by
    have hlt : ∀ x y, d.Above x y → x < y := fun x y hxy => by
      induction hxy with
      | single hp => exact hb.lt_of_parent? hp
      | tail _ hp ih => exact ih.trans (hb.lt_of_parent? hp)
    exact lt_irrefl h (hlt h h hh)

theorem walk_root (hb : d.Numbered b) (more : Nat) :
    d.walk (d.nodes.size + more) (d.children d.root) = List.range' 1 (d.nodes.size - 1) := by
  have hw := walk_children hb.laid.branch hb.laid.nodup more
  have horder := hb.order
  obtain ⟨n, hn⟩ := Nat.exists_eq_succ_of_ne_zero (Nat.ne_zero_of_lt hb.root_lt_size)
  rw [Tree.handles_eq, hn, List.range_eq_range', List.range'_succ, List.cons.injEq] at horder
  rw [hb.laid.top, List.map_flatMap] at hw
  rw [hw, hn]
  exact horder.2

end Numbered

variable {source : String}

theorem numbered_of_read (h : read source = .ok d) : ∃ b, d.Numbered b := by
  obtain ⟨b, hb, horder⟩ := laid_of_read h
  exact ⟨b, hb, horder⟩

theorem element_of_mem_children (hread : read source = .ok d) (hh : h ∈ d.children p) :
    (d.element? p).isSome := by
  obtain ⟨b, hb⟩ := numbered_of_read hread
  obtain ⟨ps, -, -, hwhole, b', hb', rfl⟩ := whole_of_read hread
  obtain rfl : b = b' := hb.laid.branch.unique hb'.branch (hb.laid.top.trans hb'.top.symm)
  obtain ⟨e, he, c, hc, rfl, rfl⟩ := hb.mem_children_iff.1 hh
  have hmem : e.contents ∈ b.contents.subtrees := by
    rw [Tree.subtrees_contents]
    exact List.mem_map_of_mem he
  have hne : e.contents.children ≠ [] := by
    rw [Tree.children_contents]
    exact List.ne_nil_of_mem (List.mem_map_of_mem hc)
  obtain ⟨q, hq⟩ := hb.laid.branch.of_mem_subtrees he
  rw [hq.element?, ← Tree.label_contents]
  exact hwhole.inElements _ hmem hne

/-- A drawing that has been read is a tree of which only elements are inner nodes, and its nodes have the
numbers in which a walk below the root meets them, which ends by itself. -/
theorem document_order (hread : read source = .ok d) :
    d.root = 0 ∧ (d.element? 0).isSome ∧ d.parent? 0 = none ∧
      (∀ h, h ≠ 0 → h < d.nodes.size → ∃ p < h, d.parent? h = some p ∧ (d.element? p).isSome) ∧
      (∀ p h, d.parent? h = some p ↔ (d.children p).count h = 1 ∧ ∀ q ≠ p, h ∉ d.children q) ∧
      (∀ h c, d.content? h = some c → c.element? = none → d.children h = []) ∧
      (∀ h e, d.element? h = some e → (e.attributes.map Prod.fst).Nodup) ∧
      d.descendants d.root = List.range' 1 (d.nodes.size - 1) ∧
      ∀ more, d.walk (d.nodes.size + more) (d.children d.root) = d.descendants d.root := by
  obtain ⟨b, hb⟩ := numbered_of_read hread
  obtain ⟨hcontents, e, he⟩ := sound_of_read hread
  have hroot := hb.root_eq
  have hwalk := hb.walk_root 0
  refine ⟨hroot, ?_, ?_, fun h hne hlt => ?_, fun p h => hb.forest.parent?_eq_some_iff,
    fun h c hc hnone => ?_, fun h e he => ?_, hwalk, fun more => (hb.walk_root more).trans hwalk.symm⟩
  · rw [← hroot, element?, he]
    rfl
  · rw [← hroot]
    exact hb.parent?_root
  · obtain ⟨p, hp⟩ := hb.exists_parent (hroot ▸ hne) hlt
    exact ⟨p, hb.lt_of_parent? hp, hp,
      element_of_mem_children hread ((hb.forest.mem_children p h).2 hp)⟩
  · refine List.eq_nil_iff_forall_not_mem.2 fun x hx => ?_
    have hsome := element_of_mem_children hread hx
    rw [element?, hc, Option.bind_some, hnone] at hsome
    cases hsome
  · obtain ⟨c, hc, hce⟩ := Option.bind_eq_some_iff.1 he
    have hread := hcontents h c hc
    cases c with
    | element e' =>
      obtain rfl := Option.some.inj hce
      exact hread.distinct
    | text s => cases hce
    | comment s => cases hce

/-- Elements within elements, and what stands between and around them. -/
theorem document_order_nested :
    let a : Content := .element { name := "a", attributes := [("k", ""), ("l", "")] }
    let b : Content := .element { name := "b" }
    let c : Content := .element { name := "c" }
    let d : Drawing := { nodes := #[{ content := a, children := [1, 5] },
      { content := b, parent := some 0, children := [2, 3] }, { content := .text "x", parent := some 1 },
      { content := c, parent := some 1, children := [4] }, { content := .text "<", parent := some 3 },
      { content := .comment "y", parent := some 0 }] }
    read " <a k=\"\" l=\"\"><b>x<c><![CDATA[<]]></c></b><!--y--></a>z" = .ok d ∧
      d.descendants 0 = [1, 2, 3, 4, 5] ∧ (d.children 1).count 3 = 1 ∧ ∀ q ≠ 1, 3 ∉ d.children q := by
  intro a b c d
  have hread : read " <a k=\"\" l=\"\"><b>x<c><![CDATA[<]]></c></b><!--y--></a>z" = .ok d := by cbv
  obtain ⟨-, -, -, -, hlinks, -, -, hdescendants, -⟩ := document_order hread
  exact ⟨hread, hdescendants, (hlinks 1 3).1 rfl⟩

end Drawing

end FormulaDrawing
