import Mathlib

/-! Trees with a label at every node and any number of trees below it, and their nodes in document
order: a node stands in front of what is below it. -/

namespace FormulaDrawing

inductive Tree (α : Type) where
  | node (label : α) (children : List (Tree α))

namespace Tree

variable {α β : Type}

def label : Tree α → α
  | node a _ => a

def children : Tree α → List (Tree α)
  | node _ ts => ts

@[simp] theorem label_node (a : α) (ts : List (Tree α)) : (node a ts).label = a := rfl

@[simp] theorem children_node (a : α) (ts : List (Tree α)) : (node a ts).children = ts := rfl

/-- A tree of one node. -/
def leaf (a : α) : Tree α := node a []

def push (t u : Tree α) : Tree α := node t.label (t.children ++ [u])

mutual

/-- The tree itself and every tree below it, in document order. -/
def subtrees : Tree α → List (Tree α)
  | node a ts => node a ts :: subtreesOf ts

def subtreesOf : List (Tree α) → List (Tree α)
  | [] => []
  | t :: ts => t.subtrees ++ subtreesOf ts

end

mutual

def map (f : α → β) : Tree α → Tree β
  | node a ts => node (f a) (mapOf f ts)

def mapOf (f : α → β) : List (Tree α) → List (Tree β)
  | [] => []
  | t :: ts => t.map f :: mapOf f ts

end

theorem subtreesOf_eq (ts : List (Tree α)) : subtreesOf ts = ts.flatMap subtrees := by
  induction ts with
  | nil => rfl
  | cons t ts ih => rw [subtreesOf, ih, List.flatMap_cons]

theorem mapOf_eq (f : α → β) (ts : List (Tree α)) : mapOf f ts = ts.map (map f) := by
  induction ts with
  | nil => rfl
  | cons t ts ih => rw [mapOf, ih, List.map_cons]

@[simp] theorem subtrees_node (a : α) (ts : List (Tree α)) :
    (node a ts).subtrees = node a ts :: ts.flatMap subtrees := by
  rw [subtrees, subtreesOf_eq]

theorem subtrees_eq (t : Tree α) : t.subtrees = t :: t.children.flatMap subtrees := by
  cases t
  exact subtrees_node ..

@[simp] theorem map_node (f : α → β) (a : α) (ts : List (Tree α)) :
    (node a ts).map f = node (f a) (ts.map (map f)) := by
  rw [map, mapOf_eq]

mutual

theorem induct {P : Tree α → Prop} (node : ∀ a ts, (∀ t ∈ ts, P t) → P (.node a ts)) :
    ∀ t, P t
  | .node a ts => node a ts (inductAll node ts)

theorem inductAll {P : Tree α → Prop} (node : ∀ a ts, (∀ t ∈ ts, P t) → P (.node a ts)) :
    ∀ ts : List (Tree α), ∀ t ∈ ts, P t
  | [] => fun _ h => absurd h List.not_mem_nil
  | t :: ts => fun u h =>
    (List.mem_cons.1 h).elim (fun hu => hu ▸ induct node t) (inductAll node ts u)

end

/-- Induction over the trees in a list and those below them. -/
theorem inductForest {P : List (Tree α) → Prop} (nil : P [])
    (cons : ∀ t ts, P t.children → P ts → P (t :: ts)) (ts : List (Tree α)) : P ts := by
  have hlist : ∀ ts : List (Tree α), (∀ t ∈ ts, P t.children) → P ts := by
    intro ts
    induction ts with
    | nil => exact fun _ => nil
    | cons t ts ih =>
      intro h
      rw [List.forall_mem_cons] at h
      exact cons t ts h.1 (ih h.2)
  have hbelow : ∀ t : Tree α, P t.children := by
    intro t
    induction t using induct with
    | node a us ih => exact hlist us ih
  exact hlist ts fun t _ => hbelow t

section Subtrees

variable {t u v : Tree α} {ts : List (Tree α)}

theorem mem_subtrees_iff : u ∈ t.subtrees ↔ u = t ∨ u ∈ t.children.flatMap subtrees := by
  rw [subtrees_eq, List.mem_cons]

theorem mem_subtrees_self (t : Tree α) : t ∈ t.subtrees := mem_subtrees_iff.2 (.inl rfl)

theorem mem_subtrees_of_below (h : u ∈ t.children.flatMap subtrees) : u ∈ t.subtrees :=
  mem_subtrees_iff.2 (.inr h)

theorem mem_subtrees_trans (hu : u ∈ t.subtrees) (hv : v ∈ u.subtrees) : v ∈ t.subtrees := by
  induction t using induct with
  | node a bs ih =>
    rw [mem_subtrees_iff, List.mem_flatMap] at hu
    rcases hu with rfl | ⟨b, hb, hu⟩
    · exact hv
    · exact mem_subtrees_of_below (List.mem_flatMap.2 ⟨b, hb, ih b hb hu⟩)

theorem mem_forest_trans (hu : u ∈ ts.flatMap subtrees) (hv : v ∈ u.children.flatMap subtrees) :
    v ∈ ts.flatMap subtrees := by
  obtain ⟨t, ht, hu⟩ := List.mem_flatMap.1 hu
  exact List.mem_flatMap.2 ⟨t, ht, mem_subtrees_trans hu (mem_subtrees_of_below hv)⟩

end Subtrees

theorem label_map (f : α → β) (t : Tree α) : (t.map f).label = f t.label := by
  cases t; simp

theorem children_map (f : α → β) (t : Tree α) : (t.map f).children = t.children.map (map f) := by
  cases t; simp

theorem subtrees_map (f : α → β) (t : Tree α) : (t.map f).subtrees = t.subtrees.map (map f) := by
  induction t using induct with
  | node a ts ih =>
    rw [map_node, subtrees_node, subtrees_node, List.map_cons, map_node, List.flatMap_map,
      List.map_flatMap]
    congr 1
    exact List.flatMap_congr ih

end Tree

end FormulaDrawing
