import FormulaDrawing.Drawing.Reading
import FormulaDrawing.Proofs.Attempt
import FormulaDrawing.Proofs.Drawing.Branch

/-! How a drawing grows while its source is read. The open elements are the last children of one
another, so a construct changes only the innermost of them, and nodes are numbered in document
order. -/

namespace FormulaDrawing

namespace Tree

theorem handle_push (b c : Layout) : (b.push c).handle = b.handle := rfl

theorem handles_push (b c : Layout) : (b.push c).handles = b.handles ++ c.handles := by
  obtain ⟨⟨h, x⟩, bs⟩ := b
  simp [push]

theorem contents_push (b c : Layout) : (b.push c).contents = b.contents.push c.contents := by
  obtain ⟨⟨h, x⟩, bs⟩ := b
  simp [push]

end Tree

namespace Drawing

def elementOf (tag : List Char) (as : List (String × String)) : Content :=
  .element { name := String.ofList (Markup.tagName tag), attributes := as }

/-- The layouts are open, innermost first: each is the last child of the next, and of the first the
nodes `inner` are. -/
def Open (d : Drawing) : List Handle → List Layout → Prop
  | _, [] => True
  | inner, b :: bs =>
    d.node? b.handle =
        some { content := b.label.2, parent := bs.head?.map Tree.handle,
               children := b.children.map Tree.handle ++ inner } ∧
      (∀ c ∈ b.children, d.Branch (some b.handle) c) ∧ d.Open [b.handle] bs

section Open

variable {d d' : Drawing} {inner : List Handle} {b c : Layout} {bs : List Layout}

theorem Open.congr (ho : d.Open inner bs)
    (hn : ∀ h ∈ bs.flatMap Tree.handles, d'.node? h = d.node? h) : d'.Open inner bs := by
  induction bs generalizing inner with
  | nil => trivial
  | cons b bs ih =>
    obtain ⟨htop, hbelow, hrest⟩ := ho
    rw [List.flatMap_cons] at hn
    refine ⟨?_, fun c hc => ?_, ih hrest fun h hh => hn h (List.mem_append_right _ hh)⟩
    · rw [hn _ (List.mem_append_left _ b.handle_mem_handles), htop]
    · refine (hbelow c hc).congr fun h hh => hn h (List.mem_append_left _ ?_)
      obtain ⟨⟨k, x⟩, cs⟩ := b
      rw [Tree.handles_node]
      exact List.mem_cons_of_mem _ (List.mem_flatMap.2 ⟨c, hc, hh⟩)

theorem Open.close (ho : d.Open [] (c :: b :: bs)) : d.Open [] (b.push c :: bs) := by
  obtain ⟨hc, hcs, hb, hbs, hrest⟩ := ho
  rw [List.append_nil] at hc
  refine ⟨?_, fun e he => ?_, hrest⟩
  · rw [Tree.handle_push, hb]
    simp [Tree.push]
  · rcases List.mem_append.1 he with he | he
    · exact hbs e he
    · rw [List.mem_singleton.1 he]
      obtain ⟨⟨h, x⟩, cs⟩ := c
      exact .node hc hcs

theorem Open.branch (ho : d.Open [] [b]) : d.Branch none b := by
  obtain ⟨hb, hbs, -⟩ := ho
  rw [List.append_nil] at hb
  obtain ⟨⟨h, x⟩, cs⟩ := b
  exact .node hb hbs

end Open

namespace Reading

def drawing (r : Reading) : Drawing := { nodes := r.nodes }

/-- Elements are open, and all nodes so far stand in them in document order. -/
structure Inside (r : Reading) (bs : List Layout) : Prop where
  links : r.drawing.Open [] bs
  stack : r.stack = bs.map Tree.handle
  order : bs.reverse.flatMap Tree.handles = List.range r.nodes.size

variable {r r' : Reading} {b c : Layout} {bs : List Layout} {x : Content}

theorem stack_attach (r : Reading) (x : Content) : (r.attach x).stack = r.stack := by
  unfold attach
  split <;> rfl

theorem declared_attach (r : Reading) (x : Content) : (r.attach x).declared = r.declared := by
  unfold attach
  split <;> rfl

namespace Inside

theorem mem_handles (hr : r.Inside bs) {h : Handle} :
    h ∈ bs.flatMap Tree.handles ↔ h < r.nodes.size := by
  rw [← List.mem_range, ← hr.order]
  simp

theorem nodup (hr : r.Inside bs) : (bs.flatMap Tree.handles).Nodup := by
  have hn : (bs.reverse.flatMap Tree.handles).Nodup := hr.order ▸ List.nodup_range
  rw [List.nodup_flatMap] at hn ⊢
  refine ⟨fun b hb => hn.1 b (List.mem_reverse.2 hb), ?_⟩
  exact (List.pairwise_reverse.1 hn.2).imp fun h => h.symm

theorem node?_attach (hr : r.Inside (b :: bs)) (h : Handle) :
    (r.attach x).drawing.node? h =
      if h = r.nodes.size then some { content := x, parent := some b.handle }
      else if h = b.handle then
        (r.drawing.node? h).map fun n => { n with children := n.children ++ [r.nodes.size] }
      else r.drawing.node? h := by
  have hs : r.stack = b.handle :: bs.map Tree.handle := hr.stack
  simp only [attach, hs, drawing, Drawing.node?, Array.getElem?_push, Array.size_modify,
    Array.getElem?_modify, eq_comm (a := b.handle)]

theorem size_attach (hr : r.Inside (b :: bs)) :
    (r.attach x).nodes.size = r.nodes.size + 1 := by
  have hs : r.stack = b.handle :: bs.map Tree.handle := hr.stack
  simp [attach, hs]

theorem open_attach (hr : r.Inside (b :: bs)) :
    (r.attach x).drawing.Open [] (.leaf (r.nodes.size, x) :: b :: bs) := by
  obtain ⟨hb, hbs, hrest⟩ := hr.links
  have hnew : ∀ h ∈ (b :: bs).flatMap Tree.handles, h ≠ r.nodes.size := fun h hh =>
    (hr.mem_handles.1 hh).ne
  have hnodup := hr.nodup
  obtain ⟨⟨k, y⟩, cs⟩ := b
  rw [List.flatMap_cons, Tree.handles_node] at hnew hnodup
  rw [List.cons_append, List.nodup_cons] at hnodup
  -- every other node of the open elements is as it was
  have hold : ∀ h, h ∈ cs.flatMap Tree.handles ++ bs.flatMap Tree.handles →
      (r.attach x).drawing.node? h = r.drawing.node? h := fun h hh => by
    rw [hr.node?_attach, if_neg (hnew h (List.mem_cons_of_mem _ hh)), if_neg]
    rintro rfl
    exact hnodup.1 hh
  refine ⟨?_, nofun, ?_, fun c hc => ?_,
    hrest.congr fun h hh => hold h (List.mem_append_right _ hh)⟩
  · rw [hr.node?_attach]
    simp [Tree.leaf, Tree.handle]
  · rw [hr.node?_attach, if_neg (hnew _ (by simp)), if_pos rfl, hb]
    simp [Tree.leaf, Tree.handle]
  · refine (hbs c hc).congr fun h hh => hold h (List.mem_append_left _ ?_)
    exact List.mem_flatMap.2 ⟨c, hc, hh⟩

theorem opening (hr : r.Inside (b :: bs)) :
    Inside { r.attach x with stack := r.nodes.size :: r.stack }
      (.leaf (r.nodes.size, x) :: b :: bs) where
  links := hr.open_attach
  stack := by rw [hr.stack]; rfl
  order := by
    rw [List.reverse_cons, List.flatMap_append, hr.order, hr.size_attach, List.range_succ]
    rfl

theorem closing (hr : r.Inside (c :: b :: bs)) :
    Inside { r with stack := (b :: bs).map Tree.handle } (b.push c :: bs) where
  links := hr.links.close
  stack := rfl
  order := by
    rw [← hr.order]
    simp [Tree.handles_push]

theorem attach (hr : r.Inside (b :: bs)) :
    (r.attach x).Inside (b.push (.leaf (r.nodes.size, x)) :: bs) := by
  have hc := hr.opening (x := x).closing
  have hs : (r.attach x).stack = (b :: bs).map Tree.handle := by rw [stack_attach, hr.stack]
  refine ⟨hc.links, hs, hc.order⟩

end Inside

end Reading

/-- What has been read, without the places of the nodes: nothing, open elements with the innermost
first, or the whole tree. -/
inductive Outline where
  | blank
  | inside (inner : Tree Content) (outer : List (Tree Content))
  | whole (t : Tree Content)

namespace Outline

def add (t : Tree Content) : Outline → Outline
  | inside u us => inside (u.push t) us
  | o => o

def opened (c : Content) : Outline → Outline
  | blank => inside (.leaf c) []
  | inside u us => inside (.leaf c) (u :: us)
  | whole t => whole t

def closed : Outline → Outline
  | inside u [] => whole u
  | inside u (v :: us) => inside (v.push u) us
  | o => o

def isWhole : Outline → Bool
  | whole _ => true
  | _ => false

end Outline

namespace Reading

def Draws (r : Reading) : Outline → Prop
  | .blank => r.nodes = #[] ∧ r.stack = []
  | .inside u us => ∃ bs, r.Inside bs ∧ bs.map Tree.contents = u :: us
  | .whole t => r.stack = [] ∧ ∃ b, r.drawing.Branch none b ∧
      b.handles = List.range r.nodes.size ∧ b.contents = t

variable {r r' : Reading} {o : Outline} {u : Tree Content} {us : List (Tree Content)}

theorem Draws.declare (hr : r.Draws o) (d : Bool) : Draws { r with declared := d } o := by
  cases o with
  | blank => exact hr
  | inside u us =>
    obtain ⟨bs, hi, hbs⟩ := hr
    exact ⟨bs, ⟨hi.links, hi.stack, hi.order⟩, hbs⟩
  | whole t => exact hr

theorem Draws.attach (hr : r.Draws o) (c : Content) : (r.attach c).Draws (o.add (.leaf c)) := by
  cases o with
  | blank =>
    have he : r.attach c = r := by rw [Reading.attach, hr.2]
    rw [he]
    exact hr
  | inside u us =>
    obtain ⟨bs, hi, hbs⟩ := hr
    obtain ⟨b, bs, rfl, rfl, rfl⟩ := List.map_eq_cons_iff.1 hbs
    exact ⟨_, hi.attach, by rw [List.map_cons, Tree.contents_push]; rfl⟩
  | whole t =>
    have he : r.attach c = r := by rw [Reading.attach, hr.1]
    rw [he]
    exact hr

theorem Draws.close (hr : r.Draws (.inside u us)) :
    Draws { r with stack := r.stack.tail } (Outline.inside u us).closed := by
  obtain ⟨bs, hi, hbs⟩ := hr
  obtain ⟨c, bs, rfl, rfl, rfl⟩ := List.map_eq_cons_iff.1 hbs
  rw [hi.stack]
  cases bs with
  | nil =>
    refine ⟨rfl, c, hi.links.branch, ?_, rfl⟩
    have ho := hi.order
    rwa [List.reverse_singleton, List.flatMap_singleton] at ho
  | cons b bs =>
    exact ⟨_, hi.closing, by rw [List.map_cons, Tree.contents_push]⟩

theorem Draws.empty {c : Content} {h : Handle} (ho : o.isWhole = false)
    (hr : Draws { r with stack := h :: r.stack } (o.opened c)) : r.Draws (o.opened c).closed := by
  cases o with
  | blank => exact hr.close
  | inside u us => exact hr.close
  | whole t => simp [Outline.isWhole] at ho

theorem Inside.root (d : Bool) (c : Content) :
    Inside { nodes := #[{ content := c }], stack := [0], declared := d } [.leaf (0, c)] where
  links := ⟨rfl, nofun, trivial⟩
  stack := rfl
  order := rfl

theorem Draws.isEmpty_of_whole {t : Tree Content} (hr : r.Draws (.whole t)) :
    r.nodes.isEmpty = false := by
  obtain ⟨-, b, hb, -⟩ := hr
  have hl : b.handle < r.nodes.size := hb.lt_size b.handle_mem_handles
  rw [Array.isEmpty_eq_false_iff]
  intro he
  simp [he] at hl

theorem Draws.addElement (hr : r.Draws o) (ho : o.isWhole = false) {tag : List Char}
    {as : List (String × String)} (ha : Markup.tagAttributes tag = .ok as) :
    ∃ r', r.addElement tag = .ok r' ∧ r'.declared = r.declared ∧ r'.stack = r.stack ∧
      Draws { r' with stack := r.nodes.size :: r.stack } (o.opened (elementOf tag as)) := by
  cases o with
  | blank =>
    obtain ⟨hn, hs⟩ := hr
    refine ⟨{ r with nodes := #[{ content := elementOf tag as }] }, ?_, rfl, rfl, ?_⟩
    · simp only [Reading.addElement, ha, hs, hn]
      rfl
    · rw [hn, hs]
      exact ⟨_, .root _ _, rfl⟩
  | inside u us =>
    obtain ⟨bs, hi, hbs⟩ := hr
    obtain ⟨b, bs, rfl, rfl, rfl⟩ := List.map_eq_cons_iff.1 hbs
    have hs : r.stack = b.handle :: bs.map Tree.handle := hi.stack
    refine ⟨r.attach (elementOf tag as), ?_, declared_attach .., stack_attach .., _, hi.opening, rfl⟩
    simp only [Reading.addElement, ha, hs]
    rfl
  | whole t => simp [Outline.isWhole] at ho

theorem Draws.of_addElement (hr : r.Draws o) {tag : List Char} (hok : r.addElement tag = .ok r') :
    ∃ as, o.isWhole = false ∧ r'.stack = r.stack ∧
      Draws { r' with stack := r.nodes.size :: r.stack } (o.opened (elementOf tag as)) := by
  cases ha : Markup.tagAttributes tag with
  | error fault => simp [Reading.addElement, ha] at hok
  | ok as =>
    by_cases ho : o.isWhole = true
    · cases o with
      | blank => simp [Outline.isWhole] at ho
      | inside u us => simp [Outline.isWhole] at ho
      | whole t => simp [Reading.addElement, ha, hr.1, hr.isEmpty_of_whole] at hok
    · obtain ⟨r'', hok', -, hs, hd⟩ := hr.addElement (by simpa using ho) ha
      obtain rfl : r'' = r' := by simpa [hok'] using hok
      exact ⟨_, by simpa using ho, hs, hd⟩

/-- What taking a construct comes to where it does not fail. -/
inductive Taken (r : Reading) : Markup.Construct → Reading → Prop
  | text {raw s : List Char} (read : Markup.unescape raw = .ok s) :
      Taken r (.text raw) (r.attach (.text (.ofList s)))
  | verbatim (s : List Char) : Taken r (.verbatim s) (r.attach (.text (.ofList s)))
  | comment (s : List Char) : Taken r (.comment s) (r.attach (.comment (.ofList s)))
  | instruction (s : List Char) (declared : Bool) : Taken r (.instruction s) { r with declared }
  | doctype (s : List Char) : Taken r (.doctype s) r
  | empty {tag : List Char} {next : Reading} (added : r.addElement tag = .ok next) :
      Taken r (.empty tag) next
  | opening {tag : List Char} {next : Reading} (added : r.addElement tag = .ok next) :
      Taken r (.opening tag) { next with stack := r.nodes.size :: r.stack }
  | closing {tag : List Char} {h : Handle} {stack : List Handle} (top : r.stack = h :: stack) :
      Taken r (.closing tag) { r with stack }

theorem taken_of_take {x : Except (Markup.ConstructFault × Nat) Markup.Placed}
    (hok : r.take x = .ok r') : ∃ p, x = .ok p ∧ r.Taken p.construct r' := by
  obtain fault | ⟨x, start, stop⟩ := x
  · cases hok
  refine ⟨_, rfl, ?_⟩
  cases x with
  | text raw =>
    cases hu : Markup.unescape raw with
    | error fault => simp [Reading.take, hu] at hok
    | ok s =>
      obtain rfl : r.attach (.text (String.ofList s)) = r' := by simpa [Reading.take, hu] using hok
      exact .text hu
  | verbatim s =>
    obtain rfl : r.attach (.text (String.ofList s)) = r' := Except.ok.inj hok
    exact .verbatim s
  | comment s =>
    obtain rfl : r.attach (.comment (String.ofList s)) = r' := Except.ok.inj hok
    exact .comment s
  | instruction s =>
    obtain rfl : _ = r' := Except.ok.inj hok
    exact .instruction s _
  | doctype s =>
    obtain rfl : r = r' := Except.ok.inj hok
    exact .doctype s
  | empty tag => exact .empty hok
  | opening tag =>
    cases ha : r.addElement tag with
    | error fault => simp [Reading.take, ha, Except.map] at hok
    | ok next =>
      obtain rfl : { next with stack := r.nodes.size :: r.stack } = r' := by
        simpa [Reading.take, ha, Except.map] using hok
      exact .opening ha
  | closing tag =>
    simp only [Reading.take, Reading.close] at hok
    split at hok
    · cases hok
    · rename_i h stack hs
      split at hok
      · obtain rfl : { r with stack } = r' := Except.ok.inj hok
        exact .closing hs
      · cases hok

theorem Draws.take (hr : r.Draws o) {x : Except (Markup.ConstructFault × Nat) Markup.Placed}
    (hok : r.take x = .ok r') : ∃ o', r'.Draws o' := by
  obtain ⟨⟨x, start, stop⟩, rfl, htaken⟩ := taken_of_take hok
  cases htaken with
  | text read => exact ⟨_, hr.attach _⟩
  | verbatim s => exact ⟨_, hr.attach _⟩
  | comment s => exact ⟨_, hr.attach _⟩
  | instruction s declared => exact ⟨_, hr.declare _⟩
  | doctype s => exact ⟨_, hr⟩
  | empty added =>
    obtain ⟨as, ho, hs, hd⟩ := hr.of_addElement added
    exact ⟨_, .empty ho (hs ▸ hd)⟩
  | opening added =>
    obtain ⟨as, -, -, hd⟩ := hr.of_addElement added
    exact ⟨_, hd⟩
  | closing top =>
    cases o with
    | blank => simp [hr.2] at top
    | inside u us => exact ⟨_, by simpa [top] using hr.close⟩
    | whole t => simp [hr.1] at top

theorem Draws.foldlM {xs : List (Except (Markup.ConstructFault × Nat) Markup.Placed)}
    (hr : r.Draws o) (hok : xs.foldlM Reading.take r = .ok r') : ∃ o', r'.Draws o' := by
  refine foldlM_preserves (P := fun r => ∃ o, r.Draws o) (fun r x _ next hr hx => ?_) ⟨o, hr⟩ hok
  obtain ⟨o, ho⟩ := hr
  exact ho.take hx

theorem Draws.finish {d : Drawing} (hr : r.Draws o) (hok : r.finish = .ok d) :
    ∃ b, d.Laid b ∧ b.handles = List.range d.nodes.size ∧ o = .whole b.contents ∧
      d.declared = r.declared := by
  cases o with
  | blank => simp [Reading.finish, hr.1, hr.2] at hok
  | inside u us =>
    obtain ⟨bs, hi, hbs⟩ := hr
    obtain ⟨b, bs, rfl, -, -⟩ := List.map_eq_cons_iff.1 hbs
    have hs : r.stack = b.handle :: bs.map Tree.handle := hi.stack
    simp [Reading.finish, hs] at hok
  | whole t =>
    have he := hr.isEmpty_of_whole
    obtain ⟨hs, b, hb, ho, rfl⟩ := hr
    obtain rfl : { nodes := r.nodes, declared := r.declared } = d := by
      simpa [Reading.finish, hs, he] using hok
    refine ⟨b, ⟨hb.congr fun _ _ => rfl, ?_, ho ▸ List.nodup_range⟩, ho, rfl, rfl⟩
    obtain ⟨⟨h, c⟩, bs⟩ := b
    obtain ⟨n, hn⟩ : ∃ n, r.nodes.size = n + 1 :=
      Nat.exists_eq_succ_of_ne_zero (by simpa using he)
    rw [hn, List.range_succ_eq_map, Tree.handles_node, List.cons.injEq] at ho
    exact ho.1

end Reading

/-- A drawing that has been read is a tree whose nodes are numbered in document order. -/
theorem laid_of_read {source : String} {d : Drawing} (h : read source = .ok d) :
    ∃ b, d.Laid b ∧ b.handles = List.range d.nodes.size := by
  obtain ⟨r, hr, hfinish⟩ := bind_eq_ok_iff.1 h
  have hblank : Reading.Draws {} .blank := ⟨rfl, rfl⟩
  obtain ⟨o, ho⟩ := hblank.foldlM hr
  obtain ⟨b, hb, hn, -, -⟩ := ho.finish hfinish
  exact ⟨b, hb, hn⟩

end Drawing

end FormulaDrawing
