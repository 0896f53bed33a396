import FormulaDrawing.Proofs.Drawing.Growth

/-! What one construct does to a reading whose outline is known: which outline it leads to, or which failure
it ends in. None of these failures is one of writing. -/

namespace FormulaDrawing

open Markup

def Tree.name (t : Tree Content) : String := t.label.element?.elim "" (·.name)

namespace Drawing

/-- What a construct that is no tag shows inside an element, if it can be read. -/
def shown? : Construct → Option (List (Tree Content))
  | .text raw => (unescape raw).toOption.map fun s => [.leaf (.text (.ofList s))]
  | .verbatim s => some [.leaf (.text (.ofList s))]
  | .comment s => some [.leaf (.comment (.ofList s))]
  | .instruction _ | .doctype _ => some []
  | .opening _ | .empty _ | .closing _ => none

theorem eq_leaf_of_shown {x : Construct} {t : Tree Content} {ts : List (Tree Content)}
    (h : shown? x = some ts) (ht : t ∈ ts) : ∃ c, t = .leaf c := by
  cases x with
  | text raw =>
    obtain ⟨s, -, rfl⟩ := Option.map_eq_some_iff.1 h
    exact ⟨_, List.mem_singleton.1 ht⟩
  | verbatim s =>
    obtain rfl := Option.some.inj h
    exact ⟨_, List.mem_singleton.1 ht⟩
  | comment s =>
    obtain rfl := Option.some.inj h
    exact ⟨_, List.mem_singleton.1 ht⟩
  | instruction s =>
    obtain rfl := Option.some.inj h
    cases ht
  | doctype s =>
    obtain rfl := Option.some.inj h
    cases ht
  | opening tag => cases h
  | empty tag => cases h
  | closing tag => cases h

namespace Outline

def addAll (o : Outline) (ts : List (Tree Content)) : Outline := ts.foldl (fun o t => o.add t) o

theorem addAll_append (o : Outline) (ts us : List (Tree Content)) :
    o.addAll (ts ++ us) = (o.addAll ts).addAll us := List.foldl_append

theorem addAll_inside (u : Tree Content) (us ts : List (Tree Content)) :
    (inside u us).addAll ts = inside (.node u.label (u.children ++ ts)) us := by
  induction ts generalizing u with
  | nil =>
    obtain ⟨c, vs⟩ := u
    simp [addAll]
  | cons t ts ih =>
    have hcons : (inside u us).addAll (t :: ts) = (inside (u.push t) us).addAll ts := rfl
    rw [hcons, ih]
    simp [Tree.push]

theorem addAll_leaf (c : Content) (us ts : List (Tree Content)) :
    (inside (.leaf c) us).addAll ts = inside (.node c ts) us := addAll_inside ..

theorem closed_addAll_opened (u : Tree Content) (us ts : List (Tree Content)) (c : Content) :
    (((inside u us).opened c).addAll ts).closed = (inside u us).add (.node c ts) := by
  rw [opened, addAll_leaf, closed, add]

theorem opened_eq_inside {o : Outline} (ho : o.isWhole = false) (c : Content) :
    ∃ us, o.opened c = inside (.leaf c) us := by
  cases o with
  | blank => exact ⟨[], rfl⟩
  | inside u us => exact ⟨u :: us, rfl⟩
  | whole t => simp [isWhole] at ho

/-- The names of the open elements, innermost first. -/
def names : Outline → List String
  | inside u us => (u :: us).map Tree.name
  | _ => []

theorem names_add (o : Outline) (t : Tree Content) : (o.add t).names = o.names := by
  cases o <;> rfl

theorem names_opened {o : Outline} (ho : o.isWhole = false) (tag : List Char)
    (as : List (String × String)) :
    (o.opened (elementOf tag as)).names = String.ofList (tagName tag) :: o.names := by
  cases o with
  | blank => rfl
  | inside u us => rfl
  | whole t => simp [isWhole] at ho

theorem names_closed (o : Outline) : o.closed.names = o.names.tail := by
  cases o with
  | blank => rfl
  | inside u us => cases us <;> rfl
  | whole t => rfl

end Outline

namespace Reading

variable {r r' : Reading} {o : Outline} {t u : Tree Content} {us ts : List (Tree Content)}
  {tag : List Char} {as : List (String × String)} {start stop : Nat}

theorem Draws.names (hr : r.Draws o) : r.stack.map (nameOf r.nodes) = o.names := by
  cases o with
  | blank =>
    rw [hr.2]
    rfl
  | inside u us =>
    obtain ⟨bs, hi, hbs⟩ := hr
    have hnode : ∀ (bs : List Layout) (inner : List Handle), r.drawing.Open inner bs →
        ∀ b ∈ bs, nameOf r.nodes b.handle = b.contents.name := by
      intro bs
      induction bs with
      | nil => exact fun _ _ _ hb => absurd hb List.not_mem_nil
      | cons c bs ih =>
        rintro inner ⟨hc, -, hrest⟩ b hb
        rcases List.mem_cons.1 hb with rfl | hb
        · have hc' : r.nodes[b.handle]? = _ := hc
          rw [nameOf, hc', Tree.name, Tree.label_contents]
          rfl
        · exact ih _ hrest b hb
    rw [hi.stack, Outline.names, ← hbs, List.map_map, List.map_map]
    exact List.map_congr_left fun b hb => hnode bs [] hi.links b hb
  | whole t =>
    rw [hr.1]
    rfl

theorem Draws.take_shown (hr : r.Draws o) {x : Construct} (hx : shown? x = some ts) :
    ∃ r', r.take (.ok ⟨x, start, stop⟩) = .ok r' ∧ r'.Draws (o.addAll ts) := by
  cases x with
  | text raw =>
    cases hu : unescape raw with
    | error fault => simp [shown?, hu, Except.toOption] at hx
    | ok s =>
      obtain rfl : [.leaf (.text (.ofList s))] = ts := by simpa [shown?, hu, Except.toOption] using hx
      exact ⟨r.attach (.text (.ofList s)), by simp [Reading.take, hu], hr.attach _⟩
  | verbatim s =>
    obtain rfl := Option.some.inj hx
    exact ⟨_, rfl, hr.attach _⟩
  | comment s =>
    obtain rfl := Option.some.inj hx
    exact ⟨_, rfl, hr.attach _⟩
  | instruction s =>
    obtain rfl := Option.some.inj hx
    exact ⟨_, rfl, hr.declare _⟩
  | doctype s =>
    obtain rfl := Option.some.inj hx
    exact ⟨_, rfl, hr⟩
  | opening tag => cases hx
  | empty tag => cases hx
  | closing tag => cases hx

theorem Draws.take_opening (hr : r.Draws o) (ho : o.isWhole = false)
    (ha : tagAttributes tag = .ok as) :
    ∃ r', r.take (.ok ⟨.opening tag, start, stop⟩) = .ok r' ∧ r'.declared = r.declared ∧
      r'.Draws (o.opened (elementOf tag as)) := by
  obtain ⟨r', hok, hdeclared, -, hr'⟩ := hr.addElement ho ha
  exact ⟨{ r' with stack := r.nodes.size :: r.stack }, by rw [Reading.take, hok]; rfl, hdeclared, hr'⟩

theorem Draws.take_empty (hr : r.Draws o) (ho : o.isWhole = false)
    (ha : tagAttributes tag = .ok as) :
    ∃ r', r.take (.ok ⟨.empty tag, start, stop⟩) = .ok r' ∧ r'.declared = r.declared ∧
      r'.Draws (o.opened (elementOf tag as)).closed := by
  obtain ⟨r', hok, hdeclared, hs, hr'⟩ := hr.addElement ho ha
  rw [← hs] at hr'
  exact ⟨r', hok, hdeclared, .empty ho hr'⟩

theorem Draws.addElement_whole (hr : r.Draws (.whole t)) (ha : tagAttributes tag = .ok as) :
    r.addElement tag = .error .severalRoots := by
  simp [Reading.addElement, ha, hr.1, hr.isEmpty_of_whole]

theorem take_closing (r : Reading) (tag : List Char) (start stop : Nat) :
    r.take (.ok ⟨.closing tag, start, stop⟩) =
      match r.stack.map (nameOf r.nodes) with
      | [] => .error (.malformed start (.unmatched (.ofList (closingName tag))))
      | name :: _ =>
        if String.ofList (closingName tag) = name then .ok { r with stack := r.stack.tail }
        else .error (.malformed start (.mismatched name (.ofList (closingName tag)))) := by
  rw [take, Reading.close]
  cases r.stack <;> rfl

theorem Draws.take_closing (hr : r.Draws (.inside u us))
    (hname : String.ofList (closingName tag) = u.name) :
    ∃ r', r.take (.ok ⟨.closing tag, start, stop⟩) = .ok r' ∧ r'.declared = r.declared ∧
      r'.Draws (Outline.inside u us).closed := by
  refine ⟨{ r with stack := r.stack.tail }, ?_, rfl, hr.close⟩
  rw [Reading.take_closing, hr.names, Outline.names, List.map_cons]
  exact if_pos hname

theorem Draws.take_mismatched (hr : r.Draws (.inside u us))
    (hname : String.ofList (closingName tag) ≠ u.name) :
    r.take (.ok ⟨.closing tag, start, stop⟩) =
      .error (.malformed start (.mismatched u.name (.ofList (closingName tag)))) := by
  rw [Reading.take_closing, hr.names, Outline.names, List.map_cons]
  exact if_neg hname

theorem Draws.take_unmatched (hr : r.Draws o) (ho : o.names = []) :
    r.take (.ok ⟨.closing tag, start, stop⟩) =
      .error (.malformed start (.unmatched (.ofList (closingName tag)))) := by
  rw [Reading.take_closing, hr.names, ho]

theorem Draws.finish_inside (hr : r.Draws (.inside u us)) : r.finish = .error (.unclosed u.name) := by
  have hnames := hr.names
  rw [Outline.names, List.map_cons] at hnames
  obtain ⟨h, stack, hs, hname, -⟩ := List.map_eq_cons_iff.1 hnames
  simp [Reading.finish, hs, hname]

theorem Draws.finish_whole (hr : r.Draws (.whole t)) :
    ∃ d, r.finish = .ok d ∧ d.declared = r.declared ∧ d.Shows t := by
  have hok : r.finish = .ok { nodes := r.nodes, declared := r.declared } := by
    simp [Reading.finish, hr.1, hr.isEmpty_of_whole]
  obtain ⟨b, hb, -, ht, hd⟩ := hr.finish hok
  rw [Outline.whole.injEq] at ht
  exact ⟨_, hok, hd, b, hb, ht.symm⟩

theorem Draws.finish_blank (hr : r.Draws .blank) : r.finish = .error .noRoot := by
  simp [Reading.finish, hr.1, hr.2]

end Reading

section Failing

variable {r : Reading} {tag : List Char} {cause source : String}

namespace Reading

theorem addElement_ne_unwritten : r.addElement tag ≠ .error (.unwritten cause) := by
  intro h
  unfold addElement at h
  split at h
  · cases h
  · dsimp only at h
    split at h
    · cases h
    · split at h <;> cases h

theorem close_ne_unwritten {place : Nat} : r.close place tag ≠ .error (.unwritten cause) := by
  intro h
  unfold close at h
  dsimp only at h
  split at h
  · cases h
  · split at h <;> cases h

theorem take_ne_unwritten {x : Except (ConstructFault × Nat) Placed} :
    r.take x ≠ .error (.unwritten cause) := by
  intro h
  obtain ⟨fault, place⟩ | ⟨construct, start, stop⟩ := x
  · cases h
  · cases construct with
    | text raw =>
      simp only [take] at h
      split at h <;> cases h
    | empty tag => exact addElement_ne_unwritten h
    | opening tag => exact addElement_ne_unwritten (map_eq_error_iff.1 h)
    | closing tag => exact close_ne_unwritten h
    | verbatim s => cases h
    | comment s => cases h
    | instruction s => cases h
    | doctype s => cases h

theorem finish_ne_unwritten : r.finish ≠ .error (.unwritten cause) := by
  intro h
  unfold finish at h
  split at h
  · cases h
  · split at h <;> cases h

end Reading

/-- What can be wrong with a source is never that it cannot be written. -/
theorem read_ne_unwritten : read source ≠ .error (.unwritten cause) := by
  intro h
  rcases bind_eq_error_iff.1 h with htake | ⟨r, -, hfinish⟩
  · obtain ⟨r, x, hx⟩ := exists_of_foldlM_error htake
    exact Reading.take_ne_unwritten hx
  · exact Reading.finish_ne_unwritten hfinish

end Failing

end Drawing

end FormulaDrawing
