import FormulaDrawing.Proofs.Drawing.Forest

/-! The tree that hangs from a node. Where the links agree there is one at every node, and no node occurs twice
in it: what is below two children of one node is apart, as nothing has two parents and nothing is above
itself. -/

namespace FormulaDrawing.Drawing

open Relation

variable {d : Drawing} {p q : Option Handle} {h x y z : Handle} {b c : Layout} {t u : Tree Content}

/-- The tree that hangs from a node is this one. -/
def Hangs (d : Drawing) (h : Handle) (t : Tree Content) : Prop :=
  ∃ p b, d.Branch p b ∧ b.handle = h ∧ b.contents = t

theorem Hangs.unique (ht : d.Hangs h t) (hu : d.Hangs h u) : t = u := by
  obtain ⟨p, b, hb, rfl, rfl⟩ := ht
  obtain ⟨q, c, hc, hbc, rfl⟩ := hu
  rw [hb.unique hc hbc.symm]

theorem Branch.leaf {a : Content} (hnode : d.node? h = some { content := a, parent := p }) :
    d.Branch p (.leaf (h, a)) := .node hnode (List.forall_mem_nil _)

theorem Branch.isParent (hb : d.Branch p b) (hc : c ∈ b.children) : d.IsParent b.handle c.handle :=
  (hb.of_mem_children hc).parent?

theorem Branch.contains (hb : d.Branch p b) (hx : x ∈ b.handles) : d.Contains b.handle x := by
  induction b using Tree.induct generalizing p with
  | node a bs ih =>
    obtain ⟨h, a⟩ := a
    rw [Tree.handles_node, List.mem_cons, List.mem_flatMap] at hx
    rcases hx with rfl | ⟨c, hc, hx⟩
    · exact .refl
    · exact .head (hb.isParent hc) (ih c hc (hb.of_mem_children hc) hx)

theorem Contains.total (hy : d.Contains y x) (hz : d.Contains z x) :
    d.Contains y z ∨ d.Contains z y := by
  induction hy with
  | refl => exact .inr hz
  | @tail w x hyw hwx ih =>
    rcases hz.cases_tail with rfl | ⟨v, hzv, hvx⟩
    · exact .inl (hyw.tail hwx)
    · obtain rfl : w = v := Option.some.inj (hwx.symm.trans hvx)
      exact ih hzv

namespace Linked

theorem disjoint (hd : d.Linked) (hb : d.Branch (some h) b) (hc : d.Branch (some h) c)
    (hne : b.handle ≠ c.handle) : b.handles.Disjoint c.handles := by
  intro x hxb hxc
  rcases (hb.contains hxb).total (hc.contains hxc) with hbc | hcb
  · exact hd.not_contains hb.parent? (hbc.of_parent? hc.parent? hne)
  · exact hd.not_contains hc.parent? (hcb.of_parent? hb.parent? hne.symm)

theorem nodup_handles (hd : d.Linked) (hb : d.Branch p b) : b.handles.Nodup := by
  induction b using Tree.induct generalizing p with
  | node a bs ih =>
    obtain ⟨h, a⟩ := a
    have hchildren : (bs.map Tree.handle).Nodup := by
      have hn := hd.nodup h
      rwa [show d.children h = bs.map Tree.handle from hb.children] at hn
    rw [Tree.handles_node, List.nodup_cons, List.nodup_flatMap]
    refine ⟨fun hh => ?_, fun c hc => ih c hc (hb.of_mem_children hc), ?_⟩
    · obtain ⟨c, hc, hh⟩ := List.mem_flatMap.1 hh
      exact hd.not_contains (hb.isParent hc) ((hb.of_mem_children hc).contains hh)
    · refine (List.pairwise_map.1 hchildren).imp_of_mem fun hb' hc' hne => ?_
      exact hd.disjoint (hb.of_mem_children hb') (hb.of_mem_children hc') hne

theorem wellFounded (hd : d.Linked) :
    WellFounded fun x y : Fin d.nodes.size => d.Above y x := by
  have htrans : IsTrans (Fin d.nodes.size) fun x y => d.Above y x :=
    ⟨fun _ _ _ hxy hyz => hyz.trans hxy⟩
  have hirrefl : Std.Irrefl fun x y : Fin d.nodes.size => d.Above y x := ⟨fun x => hd.acyclic x⟩
  exact Finite.wellFounded_of_trans_of_irrefl _

theorem exists_branch (hd : d.Linked) (hh : h < d.nodes.size) :
    ∃ b, d.Branch (d.parent? h) b ∧ b.handle = h := by
  have hall : ∀ h : Fin d.nodes.size, ∃ b, d.Branch (d.parent? h) b ∧ b.handle = h := by
    intro h
    induction h using hd.wellFounded.induction with
    | _ h ih =>
      have hnode : d.node? h = some d.nodes[h] := Array.getElem?_eq_getElem h.isLt
      have hparent : d.parent? h = d.nodes[h].parent := by rw [parent?, hnode, Option.bind_some]
      have hchildren : d.children h = d.nodes[h].children := by
        rw [children, hnode, Option.map_some, Option.getD_some]
      -- the branches at the children, which exist by induction
      have hbelow : ∀ x ∈ d.nodes[h].children,
          x ∈ Set.range fun c : {c // d.Branch (some h) c} => c.1.handle := by
        intro x hx
        have hp := (hd.mem_children h x).1 (hchildren ▸ hx)
        obtain ⟨c, hc, hcx⟩ := ih ⟨x, Forest.lt_size hp⟩ (.single hp)
        rw [hp] at hc
        exact ⟨⟨c, hc⟩, hcx⟩
      obtain ⟨cs, hcs⟩ : d.nodes[h].children ∈
          Set.range (List.map fun c : {c // d.Branch (some h) c} => c.1.handle) := by
        rwa [Set.range_list_map]
      refine ⟨.node (h, d.nodes[h].content) (cs.map Subtype.val), .node ?_ fun c hc => ?_, rfl⟩
      · rw [List.map_map, hnode, hparent]
        exact congrArg some (congrArg (Node.mk _ _) hcs.symm)
      · obtain ⟨c, -, rfl⟩ := List.mem_map.1 hc
        exact c.2
  exact hall ⟨h, hh⟩

theorem exists_hangs (hd : d.Linked) (hh : h < d.nodes.size) : ∃ t, d.Hangs h t := by
  obtain ⟨b, hb, hbh⟩ := hd.exists_branch hh
  exact ⟨b.contents, _, b, hb, hbh, rfl⟩

end Linked

theorem Forest.nodup_handles (hd : d.Forest) (hb : d.Branch p b) : b.handles.Nodup :=
  hd.linked.nodup_handles hb

theorem Forest.exists_hangs (hd : d.Forest) (hh : h < d.nodes.size) : ∃ t, d.Hangs h t :=
  hd.linked.exists_hangs hh

end FormulaDrawing.Drawing
