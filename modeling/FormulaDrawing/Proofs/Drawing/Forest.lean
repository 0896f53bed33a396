import FormulaDrawing.Proofs.Drawing.Change

/-! Drawings whose nodes form a forest: parent and child links agree and nothing is above itself. Taking a
node out keeps this, and so does hanging a node that has no parent below one that it does not
contain. -/

namespace FormulaDrawing.Drawing

open Relation

variable {d d₁ : Drawing} {p q h c x : Handle}

def IsParent (d : Drawing) (p h : Handle) : Prop := d.parent? h = some p

/-- The first node is the parent of the second, or a parent of that parent, and so on. -/
def Above (d : Drawing) : Handle → Handle → Prop := TransGen d.IsParent

/-- The second node is the first or below it. -/
def Contains (d : Drawing) : Handle → Handle → Prop := ReflTransGen d.IsParent

structure Forest (d : Drawing) : Prop where
  present : d.root < d.nodes.size
  root : d.parent? d.root = none
  mem_children : ∀ p h, h ∈ d.children p ↔ d.parent? h = some p
  nodup : ∀ p, (d.children p).Nodup
  acyclic : ∀ h, ¬ d.Above h h

/-- The links of a forest, with a root of which nothing is known but that it is a node. -/
structure Linked (d : Drawing) : Prop where
  present : d.root < d.nodes.size
  mem_children : ∀ p h, h ∈ d.children p ↔ d.parent? h = some p
  nodup : ∀ p, (d.children p).Nodup
  acyclic : ∀ h, ¬ d.Above h h

theorem Forest.linked (hd : d.Forest) : d.Linked := ⟨hd.present, hd.mem_children, hd.nodup, hd.acyclic⟩

theorem Linked.not_contains (hd : d.Linked) (hp : d.parent? h = some p) : ¬ d.Contains h p := fun hc =>
  hd.acyclic p (TransGen.head' hp hc)

theorem children_eq_nil (hh : d.nodes.size ≤ h) : d.children h = [] := by
  rw [children, node?, Array.getElem?_eq_none hh]
  rfl

theorem not_contains_of_parent?_none (hp : d.parent? p = none) (hne : c ≠ p) : ¬ d.Contains c p := by
  intro hc
  rcases hc.cases_tail with rfl | ⟨q, -, hq⟩
  · exact hne rfl
  · rw [IsParent, hp] at hq
    cases hq

theorem Contains.of_parent? (hc : d.Contains c x) (hx : d.parent? x = some p) (hne : c ≠ x) :
    d.Contains c p := by
  rcases hc.cases_tail with rfl | ⟨q, hcq, hq⟩
  · exact absurd rfl hne
  · obtain rfl : p = q := Option.some.inj (hx.symm.trans hq)
    exact hcq

namespace Forest

theorem not_contains (hd : d.Forest) (hp : d.parent? h = some p) : ¬ d.Contains h p :=
  hd.linked.not_contains hp

theorem lt_size (hp : d.parent? h = some p) : h < d.nodes.size := by
  obtain ⟨n, hn, -⟩ := Option.bind_eq_some_iff.1 hp
  exact (Array.getElem?_eq_some_iff.1 hn).1

theorem parent_lt_size (hd : d.Forest) (hp : d.parent? h = some p) : p < d.nodes.size := by
  by_contra hlt
  have hmem := (hd.mem_children p h).2 hp
  rw [children_eq_nil (Nat.not_lt.1 hlt)] at hmem
  cases hmem

theorem parent?_eq_some_iff (hd : d.Forest) : d.parent? h = some p ↔
    (d.children p).count h = 1 ∧ ∀ q ≠ p, h ∉ d.children q := by
  constructor
  · intro hp
    refine ⟨List.count_eq_one_of_mem (hd.nodup p) ((hd.mem_children p h).2 hp), fun q hq hmem => ?_⟩
    exact hq (Option.some.inj (((hd.mem_children q h).1 hmem).symm.trans hp))
  · rintro ⟨hone, -⟩
    exact (hd.mem_children p h).1 (List.one_le_count_iff.1 hone.ge)

theorem filter_children (hd : d.Forest) (hx : d.parent? h ≠ some x) :
    (d.children x).filter (· != h) = d.children x := by
  refine List.filter_eq_self.2 fun y hy => bne_iff_ne.2 ?_
  rintro rfl
  exact hx ((hd.mem_children x y).1 hy)

end Forest

section Links

variable {g : List Handle → List Handle} {o : Option Handle}

theorem parent?_setParent (hh : h < d.nodes.size) (x : Handle) :
    (d.modify h ({ · with parent := o })).parent? x = if x = h then o else d.parent? x := by
  rw [parent?, node?_modify]
  by_cases hx : x = h
  · subst hx
    rw [if_pos rfl, if_pos rfl, node?, Array.getElem?_eq_getElem hh]
    rfl
  · rw [if_neg hx, if_neg hx, parent?]

theorem children_setParent (x : Handle) :
    (d.modify h ({ · with parent := o })).children x = d.children x := by
  rw [children, node?_modify, children]
  split
  · rw [Option.map_map]
    rfl
  · rfl

theorem parent?_setChildren (x : Handle) :
    (d.modify h fun n => { n with children := g n.children }).parent? x = d.parent? x := by
  rw [parent?, node?_modify, parent?]
  split
  · cases d.node? x <;> rfl
  · rfl

theorem children_setChildren (hh : h < d.nodes.size) (x : Handle) :
    (d.modify h fun n => { n with children := g n.children }).children x =
      if x = h then g (d.children x) else d.children x := by
  rw [children, node?_modify, children]
  by_cases hx : x = h
  · subst hx
    rw [if_pos rfl, if_pos rfl, node?, Array.getElem?_eq_getElem hh]
    rfl
  · rw [if_neg hx, if_neg hx]

theorem content?_setParent (x : Handle) :
    (d.modify h ({ · with parent := o })).content? x = d.content? x := by
  rw [content?, node?_modify, content?]
  split
  · rw [Option.map_map]
    rfl
  · rfl

theorem content?_setChildren (x : Handle) :
    (d.modify h fun n => { n with children := g n.children }).content? x = d.content? x := by
  rw [content?, node?_modify, content?]
  split
  · rw [Option.map_map]
    rfl
  · rfl

end Links

section Detach

theorem root_detach (d : Drawing) (h : Handle) : (d.detach h).root = d.root := by
  unfold detach
  split <;> rfl

theorem size_detach (d : Drawing) (h : Handle) : (d.detach h).nodes.size = d.nodes.size := by
  unfold detach
  split
  · rfl
  · rw [size_modify, size_modify]

theorem content?_detach (d : Drawing) (h x : Handle) : (d.detach h).content? x = d.content? x := by
  unfold detach
  split
  · rfl
  · rw [content?_setChildren, content?_setParent]

theorem parent?_detach (d : Drawing) (h x : Handle) :
    (d.detach h).parent? x = if x = h then none else d.parent? x := by
  unfold detach
  split
  next hp =>
    split
    next hx => rw [hx, hp]
    next => rfl
  next p hp => rw [parent?_setChildren, parent?_setParent (Forest.lt_size hp)]

theorem Forest.children_detach (hd : d.Forest) (h x : Handle) :
    (d.detach h).children x = (d.children x).filter (· != h) := by
  cases hp : d.parent? h with
  | none => rw [detach_of_parent? hp, hd.filter_children (by simp [hp])]
  | some p =>
    have hlt : p < (d.modify h ({ · with parent := none })).nodes.size := by
      rw [size_modify]
      exact hd.parent_lt_size hp
    rw [detach, hp]
    simp only
    rw [children_setChildren hlt, children_setParent]
    split
    next => rfl
    next hx =>
      refine (hd.filter_children fun he => hx ?_).symm
      exact (Option.some.inj (hp.symm.trans he)).symm

theorem IsParent.of_detach (hx : (d.detach h).IsParent p x) : d.IsParent p x := by
  rw [IsParent, parent?_detach] at hx
  split at hx
  · cases hx
  · exact hx

theorem Contains.of_detach (hc : (d.detach h).Contains p x) : d.Contains p x :=
  ReflTransGen.mono (fun _ _ => IsParent.of_detach) _ _ hc

theorem Forest.detach (hd : d.Forest) (h : Handle) : (d.detach h).Forest where
  present := by
    rw [root_detach, size_detach]
    exact hd.present
  root := by
    rw [root_detach, parent?_detach, hd.root, ite_self]
  mem_children := fun p x => by
    rw [hd.children_detach, List.mem_filter, hd.mem_children, parent?_detach, bne_iff_ne]
    by_cases hx : x = h <;> simp [hx]
  nodup := fun p => by
    rw [hd.children_detach]
    exact (hd.nodup p).filter _
  acyclic := fun x hx => hd.acyclic x (TransGen.mono (fun _ _ => IsParent.of_detach) _ _ hx)

end Detach

section Attach

/-- What is above in the drawing where `c` hangs below `p`: a way up either does not pass the new link,
or reaches `p` on one side of it and `c` on the other. -/
theorem above_cases (hparent : ∀ x, d₁.parent? x = if x = c then some p else d.parent? x)
    (hx : d₁.Above q x) : d.Above q x ∨ d.Contains q p ∧ d.Contains c x := by
  -- A way up passes the new link or is an old one.
  have hstep : ∀ y z, d₁.IsParent y z → d.IsParent y z ∨ z = c ∧ y = p := by
    intro y z hyz
    rw [IsParent, hparent] at hyz
    split at hyz
    next hz => exact .inr ⟨hz, (Option.some.inj hyz).symm⟩
    next => exact .inl hyz
  induction hx with
  | single hqx =>
    rcases hstep _ _ hqx with hold | ⟨rfl, rfl⟩
    · exact .inl (.single hold)
    · exact .inr ⟨.refl, .refl⟩
  | tail _ hyx ih =>
    rcases hstep _ _ hyx with hold | ⟨rfl, rfl⟩
    · exact ih.imp (·.tail hold) fun ⟨hqp, hcy⟩ => ⟨hqp, hcy.tail hold⟩
    · rcases ih with hqy | ⟨hqp, -⟩
      · exact .inr ⟨hqy.to_reflTransGen, .refl⟩
      · exact .inr ⟨hqp, .refl⟩

theorem Forest.attach (hd : d.Forest) (hc : d.parent? c = none) (hroot : c ≠ d.root)
    (hcp : ¬ d.Contains c p) (hsame : d₁.root = d.root) (hsize : d₁.nodes.size = d.nodes.size)
    (hparent : ∀ x, d₁.parent? x = if x = c then some p else d.parent? x)
    (hplace : (d₁.children p).Perm (c :: d.children p))
    (hothers : ∀ x, x ≠ p → d₁.children x = d.children x) : d₁.Forest where
  present := by
    rw [hsame, hsize]
    exact hd.present
  root := by rw [hsame, hparent, if_neg hroot.symm, hd.root]
  mem_children := fun x y => by
    rw [hparent]
    by_cases hx : x = p
    · subst hx
      rw [hplace.mem_iff, List.mem_cons, hd.mem_children]
      by_cases hy : y = c <;> simp [hy]
    · rw [hothers x hx, hd.mem_children]
      by_cases hy : y = c
      · simp [hy, hc, Ne.symm hx]
      · simp [hy]
  nodup := fun x => by
    by_cases hx : x = p
    · subst hx
      rw [hplace.nodup_iff, List.nodup_cons, hd.mem_children, hc]
      exact ⟨nofun, hd.nodup x⟩
    · rw [hothers x hx]
      exact hd.nodup x
  acyclic := fun x hx => by
    rcases above_cases hparent hx with hold | ⟨hxp, hcx⟩
    · exact hd.acyclic x hold
    -- A way through the new link would have led from `c` to `p` before.
    · exact hcp (hcx.trans hxp)

end Attach

theorem Forest.congr (hd : d.Forest) (hroot : d₁.root = d.root) (hsize : d.nodes.size ≤ d₁.nodes.size)
    (hparent : ∀ x, d₁.parent? x = d.parent? x) (hchildren : ∀ x, d₁.children x = d.children x) :
    d₁.Forest where
  present := by
    rw [hroot]
    exact hd.present.trans_le hsize
  root := by rw [hroot, hparent, hd.root]
  mem_children := fun p h => by rw [hchildren, hparent, hd.mem_children]
  nodup := fun p => by
    rw [hchildren]
    exact hd.nodup p
  acyclic := fun h hh => hd.acyclic h (TransGen.mono (fun _ _ hxy => (hparent _).symm.trans hxy) _ _ hh)

theorem forest_single (a : Content) (declared : Bool) :
    Forest { nodes := #[{ content := a }], declared } := by
  set d : Drawing := { nodes := #[{ content := a }], declared }
  have hnode : ∀ x, d.node? x = if x = 0 then some { content := a } else none := by
    intro x
    cases x <;> rfl
  have hparent : ∀ x, d.parent? x = none := by
    intro x
    rw [parent?, hnode]
    split <;> rfl
  have hchildren : ∀ x, d.children x = [] := by
    intro x
    rw [children, hnode]
    split <;> rfl
  refine ⟨Nat.zero_lt_one, hparent 0, fun p h => ?_, fun p => ?_, fun h hh => ?_⟩
  · simp [hchildren, hparent]
  · rw [hchildren]
    exact List.nodup_nil
  · obtain ⟨p, -, hp⟩ := TransGen.tail'_iff.1 hh
    rw [IsParent, hparent] at hp
    cases hp

end FormulaDrawing.Drawing
