import FormulaDrawing.Proofs.Drawing.Taking

/-! Reading in two layers, each with a stack of its own. One hands over the constructs and keeps the names
of the open tags, by which it refuses end tags; the other builds the nodes and keeps those that are open,
with a guard of its own against an end tag where none is. The stacks stay in step, so the guard is never
needed, and the layers together read what `read` reads. -/

namespace FormulaDrawing.Drawing

open Markup

open Reading (closingName nameOf isDeclaration)

/-- Hands a construct over, with the names that are open behind it. -/
def announce (names : List String) :
    Except (ConstructFault × Nat) Placed → Except Failure (List String × Placed)
  | .error (fault, place) => .error (.malformed place (.construct fault))
  | .ok p =>
    match p.construct with
    | .opening tag => .ok (String.ofList (tagName tag) :: names, p)
    | .closing tag =>
      let found := String.ofList (closingName tag)
      match names with
      | [] => .error (.malformed p.start (.unmatched found))
      | expected :: outer =>
        if found = expected then .ok (outer, p)
        else .error (.malformed p.start (.mismatched expected found))
    | _ => .ok (names, p)

inductive Halt where
  | failure (f : Failure)
  /-- An end tag where no node is open. -/
  | unexpectedEnd (place : Nat)
deriving DecidableEq, Repr

/-- The nodes so far, those that are open with the innermost first, and the root. -/
structure Building where
  nodes : Array Node := #[]
  stack : List Handle := []
  root : Option Handle := none
  declared : Bool := false

namespace Building

def attach (b : Building) (parent : Handle) (c : Content) : Building :=
  let nodes := b.nodes.push { content := c, parent := some parent }
  { b with nodes := nodes.modify parent fun n => { n with children := n.children ++ [b.nodes.size] } }

def attachInside (b : Building) (c : Content) : Building :=
  match b.stack with
  | [] => b
  | parent :: _ => b.attach parent c

/-- The new node is the root if none is open, of which there may be one only. -/
def addElement (b : Building) (tag : List Char) : Except Halt (Building × Handle) :=
  match tagAttributes tag with
  | .error fault => .error (.failure (.malformed 0 (.attributes fault)))
  | .ok as =>
    match b.stack with
    | parent :: _ => .ok (b.attach parent (elementOf tag as), b.nodes.size)
    | [] =>
      if b.root.isSome then .error (.failure .severalRoots)
      else
        .ok ({ b with nodes := b.nodes.push { content := elementOf tag as },
                      root := some b.nodes.size }, b.nodes.size)

def take (b : Building) : Placed → Except Halt Building
  | ⟨.opening tag, _, _⟩ =>
    (b.addElement tag).map fun (next, h) => { next with stack := h :: next.stack }
  | ⟨.empty tag, _, _⟩ => (b.addElement tag).map (·.1)
  | ⟨.closing _, _, stop⟩ =>
    match b.stack with
    | [] => .error (.unexpectedEnd stop)
    | _ :: outer => .ok { b with stack := outer }
  | ⟨.text raw, _, stop⟩ =>
    match unescape raw with
    | .error fault => .error (.failure (.malformed stop (.text fault)))
    | .ok s => .ok (b.attachInside (.text (.ofList s)))
  | ⟨.verbatim s, _, _⟩ => .ok (b.attachInside (.text (.ofList s)))
  | ⟨.comment s, _, _⟩ => .ok (b.attachInside (.comment (.ofList s)))
  | ⟨.instruction s, _, _⟩ => .ok { b with declared := b.declared || isDeclaration s }
  | ⟨.doctype _, _, _⟩ => .ok b

def finish (b : Building) : Except Halt Drawing :=
  match b.stack with
  | h :: _ => .error (.failure (.unclosed (nameOf b.nodes h)))
  | [] =>
    match b.root with
    | none => .error (.failure .noRoot)
    | some root => .ok { nodes := b.nodes, root, declared := b.declared }

end Building

def turn (s : List String × Building) (x : Except (ConstructFault × Nat) Placed) :
    Except Halt (List String × Building) :=
  (announce s.1 x).mapError .failure >>= fun (names, p) => (s.2.take p).map (names, ·)

def assemble (source : String) : Except Halt Drawing :=
  (constructs 0 (dropMark source.toList)).foldlM turn ([], {}) >>= (·.2.finish)

namespace Reading

variable {r : Reading} {o : Outline} {u : Tree Content} {us : List (Tree Content)}

def building (r : Reading) : Building where
  nodes := r.nodes
  stack := r.stack
  root := if r.nodes.isEmpty then none else some 0
  declared := r.declared

theorem Draws.exists_open (hr : r.Draws (.inside u us)) :
    ∃ h stack, r.stack = h :: stack ∧ h < r.nodes.size := by
  obtain ⟨bs, hi, hbs⟩ := hr
  obtain ⟨b, bs, rfl, -, -⟩ := List.map_eq_cons_iff.1 hbs
  refine ⟨b.handle, bs.map Tree.handle, hi.stack, hi.mem_handles.1 ?_⟩
  rw [List.flatMap_cons]
  exact List.mem_append_left _ b.handle_mem_handles

theorem modify_push {α : Type} {xs : Array α} {i : Nat} (hi : i < xs.size) (x : α) (f : α → α) :
    (xs.push x).modify i f = (xs.modify i f).push x := by
  refine Array.ext (by simp) fun j hj hj' => ?_
  simp only [Array.getElem_push, Array.getElem_modify, Array.size_modify]
  grind

theorem building_attach {h : Handle} {stack : List Handle} (hs : r.stack = h :: stack)
    (hlt : h < r.nodes.size) (c : Content) : (r.attach c).building = r.building.attach h c := by
  have hne : r.nodes.isEmpty = false := by
    rw [Array.isEmpty_eq_false_iff]
    intro hnil
    simp [hnil] at hlt
  simp [building, Building.attach, Reading.attach, hs, hne, modify_push hlt]

theorem Draws.building_attach (hr : r.Draws o) (c : Content) :
    (r.attach c).building = r.building.attachInside c := by
  cases hs : r.stack with
  | nil => simp [Reading.attach, Building.attachInside, building, hs]
  | cons h stack =>
    cases o with
    | blank => simp [hr.2] at hs
    | inside u us =>
      obtain ⟨h', stack', hs', hlt⟩ := hr.exists_open
      obtain ⟨rfl, rfl⟩ := List.cons.inj (hs.symm.trans hs')
      rw [Reading.building_attach hs hlt, Building.attachInside, building, hs]
    | whole t => simp [hr.1] at hs

theorem Draws.building_addElement (hr : r.Draws o) (tag : List Char) :
    r.building.addElement tag =
      ((r.addElement tag).mapError .failure).map fun next => (next.building, r.nodes.size) := by
  unfold Building.addElement Reading.addElement
  cases tagAttributes tag with
  | error fault => rfl
  | ok as =>
    cases o with
    | blank =>
      simp [building, hr.1, hr.2, elementOf, Except.mapError, Except.map]
    | inside u us =>
      obtain ⟨h, stack, hs, hlt⟩ := hr.exists_open
      have hstack : r.building.stack = h :: stack := hs
      simp only [hstack, hs]
      rw [← Reading.building_attach hs hlt]
      rfl
    | whole t =>
      simp [building, hr.1, hr.isEmpty_of_whole, Except.mapError, Except.map]

theorem turn_handed {names names' : List String} {p : Placed} (b : Building)
    (h : announce names (.ok p) = .ok (names', p)) :
    Drawing.turn (names, b) (.ok p) = (b.take p).map (names', ·) := by
  rw [Drawing.turn, h]
  rfl

theorem Draws.turn (hr : r.Draws o) (x : Except (ConstructFault × Nat) Placed) :
    (∃ f, r.take x = .error f ∧ Drawing.turn (o.names, r.building) x = .error (.failure f)) ∨
      ∃ r' o', r.take x = .ok r' ∧ r'.Draws o' ∧
        Drawing.turn (o.names, r.building) x = .ok (o'.names, r'.building) := by
  obtain ⟨fault, place⟩ | ⟨x, start, stop⟩ := x
  · exact .inl ⟨_, rfl, rfl⟩
  cases x with
  | text raw =>
    rw [turn_handed _ rfl, Building.take]
    cases hu : unescape raw with
    | error fault => exact .inl ⟨_, by rw [Reading.take, hu], rfl⟩
    | ok s =>
      refine .inr ⟨_, _, by rw [Reading.take, hu], hr.attach _, ?_⟩
      rw [hr.building_attach, Outline.names_add]
      rfl
  | verbatim s =>
    refine .inr ⟨_, _, rfl, hr.attach _, ?_⟩
    rw [hr.building_attach, Outline.names_add]
    rfl
  | comment s =>
    refine .inr ⟨_, _, rfl, hr.attach _, ?_⟩
    rw [hr.building_attach, Outline.names_add]
    rfl
  | instruction s => exact .inr ⟨_, o, rfl, hr.declare _, rfl⟩
  | doctype s => exact .inr ⟨_, o, rfl, hr, rfl⟩
  | opening tag =>
    -- Both sides open the element by its name, which is that of the next node.
    rw [turn_handed _ rfl, Building.take, hr.building_addElement, Reading.take]
    cases hok : r.addElement tag with
    | error f => exact .inl ⟨f, rfl, rfl⟩
    | ok next =>
      obtain ⟨as, ho, hs, hr'⟩ := hr.of_addElement hok
      refine .inr ⟨_, _, rfl, hr', ?_⟩
      rw [Outline.names_opened ho, ← hs]
      rfl
  | empty tag =>
    rw [turn_handed _ rfl, Building.take, hr.building_addElement, Reading.take]
    cases hok : r.addElement tag with
    | error f => exact .inl ⟨f, rfl, rfl⟩
    | ok next =>
      obtain ⟨as, ho, hs, hr'⟩ := hr.of_addElement hok
      rw [← hs] at hr'
      refine .inr ⟨_, _, rfl, .empty ho hr', ?_⟩
      rw [Outline.names_closed, Outline.names_opened ho]
      rfl
  | closing tag =>
    rw [Reading.take_closing, hr.names]
    cases o with
    | blank => exact .inl ⟨_, rfl, rfl⟩
    | whole t => exact .inl ⟨_, rfl, rfl⟩
    | inside u us =>
      rw [Outline.names, List.map_cons]
      -- The layer in front looks at the names, the builder only at the handles: `hr` ties the two.
      by_cases hname : String.ofList (closingName tag) = u.name
      · obtain ⟨h, stack, hs, -⟩ := hr.exists_open
        have hpassed : announce (u.name :: us.map Tree.name) (.ok ⟨.closing tag, start, stop⟩) =
          .ok (us.map Tree.name, ⟨.closing tag, start, stop⟩) := if_pos hname
        have hstack : r.building.stack = h :: stack := hs
        refine .inr ⟨_, _, if_pos hname, hr.close, ?_⟩
        rw [turn_handed _ hpassed, Outline.names_closed, Building.take, hstack, hs]
        rfl
      · have hrefused : announce (u.name :: us.map Tree.name) (.ok ⟨.closing tag, start, stop⟩) =
          .error (.malformed start (.mismatched u.name (.ofList (closingName tag)))) := if_neg hname
        refine .inl ⟨_, if_neg hname, ?_⟩
        rw [Drawing.turn, hrefused]
        rfl

theorem building_finish (r : Reading) : r.building.finish = r.finish.mapError .failure := by
  cases hs : r.stack with
  | nil =>
    cases hn : r.nodes.isEmpty <;>
      simp [Building.finish, Reading.finish, building, hs, hn, Except.mapError]
  | cons h stack => simp [Building.finish, Reading.finish, building, hs, Except.mapError]

theorem Draws.turns (hr : r.Draws o) (xs : List (Except (ConstructFault × Nat) Placed)) :
    xs.foldlM Drawing.turn (o.names, r.building) >>= (·.2.finish) =
      (xs.foldlM Reading.take r >>= (·.finish)).mapError .failure := by
  induction xs generalizing r o with
  | nil => exact building_finish r
  | cons x xs ih =>
    rw [List.foldlM_cons, List.foldlM_cons]
    rcases hr.turn x with ⟨f, htake, hturn⟩ | ⟨r', o', htake, hr', hturn⟩
    · rw [htake, hturn]
      rfl
    · rw [htake, hturn]
      exact ih hr'

end Reading

theorem assemble_eq (source : String) : assemble source = (read source).mapError .failure := by
  have hblank : Reading.Draws {} .blank := ⟨rfl, rfl⟩
  exact hblank.turns _

theorem assemble_ne_unexpectedEnd (source : String) (place : Nat) :
    assemble source ≠ .error (.unexpectedEnd place) := by
  rw [assemble_eq]
  cases read source <;> simp [Except.mapError]

end FormulaDrawing.Drawing
