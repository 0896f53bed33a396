import FormulaDrawing.Proofs.Drawing.Growth

/-! What the operations on a drawing change. Each touches a few nodes only, and a branch stands as it
stood as long as none of its nodes is among them. -/

namespace FormulaDrawing

/-- An element with one text below it. -/
def Tree.holding (e : Element) (s : String) : Tree Content :=
  .node (.element e) [.leaf (.text s)]

def Tree.holdingAt (h : Handle) (e : Element) (s : String) : Layout :=
  .node (h, .element e) [.leaf (h + 1, .text s)]

theorem Tree.handles_holdingAt (h : Handle) (e : Element) (s : String) :
    (holdingAt h e s).handles = [h, h + 1] := by
  simp [holdingAt, leaf]

theorem Tree.contents_holdingAt (h : Handle) (e : Element) (s : String) :
    (holdingAt h e s).contents = holding e s := by
  simp [holdingAt, holding, leaf]

def Content.mapElement (f : Element → Element) : Content → Content
  | .element e => .element (f e)
  | c => c

namespace Drawing

variable {d d₁ d₂ : Drawing} {hs ks : List Handle} {p : Option Handle} {b : Layout}

/-- Nothing but the nodes `hs` is changed, and nodes are added. -/
structure Confined (hs : List Handle) (d d₁ : Drawing) : Prop where
  root : d₁.root = d.root
  declared : d₁.declared = d.declared
  size : d.nodes.size ≤ d₁.nodes.size
  kept : ∀ x < d.nodes.size, x ∉ hs → d₁.node? x = d.node? x

theorem Confined.refl (hs : List Handle) (d : Drawing) : Confined hs d d :=
  ⟨rfl, rfl, le_rfl, fun _ _ _ => rfl⟩

theorem Confined.trans (h₁ : Confined hs d d₁) (h₂ : Confined ks d₁ d₂)
    (hks : ∀ k ∈ ks, k ∈ hs ∨ d.nodes.size ≤ k) : Confined hs d d₂ where
  root := h₂.root.trans h₁.root
  declared := h₂.declared.trans h₁.declared
  size := h₁.size.trans h₂.size
  kept := fun x hx hxs => by
    rw [h₂.kept x (hx.trans_le h₁.size), h₁.kept x hx hxs]
    intro hk
    rcases hks x hk with h | h
    · exact hxs h
    · omega

theorem Branch.of_confined (hb : d.Branch p b) (hd : Confined hs d d₁)
    (hdisjoint : ∀ x ∈ b.handles, x ∉ hs) : d₁.Branch p b :=
  hb.congr fun x hx => hd.kept x (hb.lt_size hx) (hdisjoint x hx)

theorem node?_create (d : Drawing) (c : Content) (x : Handle) :
    (d.create c).1.node? x = if x = d.nodes.size then some { content := c } else d.node? x := by
  simp only [create, node?, Array.getElem?_push]

theorem node?_modify (d : Drawing) (h : Handle) (f : Node → Node) (x : Handle) :
    (d.modify h f).node? x = if x = h then (d.node? x).map f else d.node? x := by
  simp only [modify, node?, Array.getElem?_modify, eq_comm (a := h)]

theorem size_create (d : Drawing) (c : Content) :
    (d.create c).1.nodes.size = d.nodes.size + 1 := Array.size_push _

theorem size_modify (d : Drawing) (h : Handle) (f : Node → Node) :
    (d.modify h f).nodes.size = d.nodes.size := Array.size_modify

theorem confined_create (d : Drawing) (c : Content) : Confined [] d (d.create c).1 where
  root := rfl
  declared := rfl
  size := by rw [size_create]; omega
  kept := fun x hx _ => by rw [node?_create, if_neg hx.ne]

theorem confined_modify (d : Drawing) (h : Handle) (f : Node → Node) :
    Confined [h] d (d.modify h f) where
  root := rfl
  declared := rfl
  size := (size_modify d h f).ge
  kept := fun x _ hx => by rw [node?_modify, if_neg (by simpa using hx)]

theorem node?_modifyElement (d : Drawing) (h : Handle) (f : Element → Element) (x : Handle) :
    (d.modifyElement h f).node? x =
      if x = h then (d.node? x).map fun n => { n with content := n.content.mapElement f }
      else d.node? x := by
  rw [modifyElement, node?_modify]
  congr 2
  funext n
  cases hc : n.content <;> simp [Content.mapElement, ← hc]

theorem detach_of_parent? {h : Handle} (hp : d.parent? h = none) : d.detach h = d := by
  rw [detach, hp]

section Parentless

variable {parent child : Handle}

theorem node?_append (hp : d.parent? child = none) (hne : child ≠ parent) (x : Handle) :
    (d.append parent child).node? x =
      if x = child then (d.node? x).map ({ · with parent := some parent })
      else if x = parent then
        (d.node? x).map fun n => { n with children := n.children ++ [child] }
      else d.node? x := by
  rw [append, detach_of_parent? hp, node?_modify, node?_modify]
  by_cases hx : x = child
  · rw [if_pos hx, if_pos hx, if_neg (hx ▸ hne)]
  · rw [if_neg hx, if_neg hx]

theorem node?_insert (hp : d.parent? child = none) (hne : child ≠ parent) (index : Nat)
    (x : Handle) :
    (d.insert parent index child).node? x =
      if x = child then (d.node? x).map ({ · with parent := some parent })
      else if x = parent then
        (d.node? x).map fun n =>
          { n with children := n.children.take index ++ child :: n.children.drop index }
      else d.node? x := by
  rw [insert, detach_of_parent? hp, node?_modify, node?_modify]
  by_cases hx : x = child
  · rw [if_pos hx, if_pos hx, if_neg (hx ▸ hne)]
  · rw [if_neg hx, if_neg hx]

theorem confined_append (hp : d.parent? child = none) (hne : child ≠ parent) :
    Confined [parent, child] d (d.append parent child) where
  root := by
    rw [append, detach_of_parent? hp]
    rfl
  declared := by
    rw [append, detach_of_parent? hp]
    rfl
  size := by rw [append, detach_of_parent? hp, size_modify, size_modify]
  kept := fun x _ hx => by
    rw [List.mem_cons, List.mem_singleton, not_or] at hx
    rw [node?_append hp hne, if_neg hx.2, if_neg hx.1]

theorem confined_insert (hp : d.parent? child = none) (hne : child ≠ parent) (index : Nat) :
    Confined [parent, child] d (d.insert parent index child) where
  root := by
    rw [insert, detach_of_parent? hp]
    rfl
  declared := by
    rw [insert, detach_of_parent? hp]
    rfl
  size := by rw [insert, detach_of_parent? hp, size_modify, size_modify]
  kept := fun x _ hx => by
    rw [List.mem_cons, List.mem_singleton, not_or] at hx
    rw [node?_insert hp hne, if_neg hx.2, if_neg hx.1]

end Parentless

section CreateElement

variable (d : Drawing) (e : Element) (s : String)

theorem createElement_eq : d.createElement e (some s) =
    ((((d.create (.element e)).1.create (.text s)).1.append d.nodes.size (d.nodes.size + 1)),
      d.nodes.size) := by
  rw [createElement]
  simp [create]

theorem parent?_create_text : ((d.create (.element e)).1.create (.text s)).1.parent?
    (d.nodes.size + 1) = none := by
  rw [parent?, node?_create, size_create, if_pos rfl]
  rfl

theorem branch_createElement :
    (d.createElement e (some s)).1.Branch none (.holdingAt d.nodes.size e s) := by
  have happend := node?_append (parent?_create_text d e s) (Nat.succ_ne_self d.nodes.size)
  rw [createElement_eq]
  refine .node ?_ fun b hb => ?_
  · rw [happend, if_neg (Nat.succ_ne_self _).symm, if_pos rfl, node?_create, size_create,
      if_neg (Nat.succ_ne_self _).symm, node?_create, if_pos rfl]
    rfl
  · obtain rfl := List.mem_singleton.1 hb
    refine .node ?_ nofun
    rw [happend, if_pos rfl, node?_create, size_create, if_pos rfl]
    rfl

theorem confined_createElement : Confined [] d (d.createElement e (some s)).1 := by
  have hcreate := (confined_create d (.element e)).trans (confined_create _ (.text s)) (by simp)
  have happend := confined_append (parent?_create_text d e s) (Nat.succ_ne_self d.nodes.size)
  rw [createElement_eq]
  refine hcreate.trans happend fun k hk => .inr ?_
  rw [List.mem_cons, List.mem_singleton] at hk
  rcases hk with rfl | rfl
  · exact le_rfl
  · exact Nat.le_succ _

end CreateElement

theorem replaceFirst_append {l m : List Handle} {old new : Handle} (h : old ∉ l) :
    replaceFirst old new (l ++ old :: m) = l ++ new :: m := by
  induction l with
  | nil => simp [replaceFirst]
  | cons x l ih =>
    rw [List.mem_cons, not_or] at h
    rw [List.cons_append, replaceFirst, if_neg (Ne.symm h.1), ih h.2, List.cons_append]

theorem replace?_eq_some {old new parent : Handle} (hold : d.parent? old = some parent)
    (hnew : d.parent? new = none) (hne : new ≠ old) (hparent : parent ≠ old) (hp : parent ≠ new) :
    ∃ d₁, d.replace? old new = some d₁ ∧ Confined [parent, new, old] d d₁ ∧ ∀ x,
      d₁.node? x =
        if x = old then (d.node? x).map ({ · with parent := none })
        else if x = new then (d.node? x).map ({ · with parent := some parent })
        else if x = parent then
          (d.node? x).map fun n => { n with children := replaceFirst old new n.children }
        else d.node? x := by
  have heq : d.replace? old new = some (((d.modify parent fun n =>
      { n with children := replaceFirst old new n.children }).modify
        new ({ · with parent := some parent })).modify old ({ · with parent := none })) := by
    rw [replace?, hold, detach_of_parent? hnew, Option.map_some]
  refine ⟨_, heq, ⟨rfl, rfl, ?_, fun x _ hx => ?_⟩, fun x => ?_⟩
  · rw [size_modify, size_modify, size_modify]
  · simp only [List.mem_cons, List.not_mem_nil, or_false, not_or] at hx
    rw [node?_modify, if_neg hx.2.2, node?_modify, if_neg hx.2.1, node?_modify, if_neg hx.1]
  · rw [node?_modify, node?_modify, node?_modify]
    by_cases h1 : x = old
    · rw [if_pos h1, if_pos h1, if_neg (h1 ▸ hne.symm), if_neg (h1 ▸ hparent.symm)]
    · rw [if_neg h1, if_neg h1]
      by_cases h2 : x = new
      · rw [if_pos h2, if_pos h2, if_neg (h2 ▸ hp.symm)]
      · rw [if_neg h2, if_neg h2]

end Drawing

end FormulaDrawing
