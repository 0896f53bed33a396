import FormulaDrawing.Proofs.Drawing.Taking

/-! How start and end tags bracket what stands between them. Said without reading: which constructs spell
trees side by side, which make up one whole element with nothing but other constructs around it, and which
leave elements open. -/

namespace FormulaDrawing.Drawing

open Markup

open Reading (closingName)

/-- The construct can be read by itself. -/
def Readable : Construct → Prop
  | .text raw => ∃ s, unescape raw = .ok s
  | .opening tag | .empty tag => ∃ as, tagAttributes tag = .ok as
  | _ => True

/-- There are no tags. -/
def Tagless (xs : List Construct) : Prop := ∀ x ∈ xs, (shown? x).isSome

/-- Inside an element the constructs spell trees side by side: every start tag has an end tag of its
name, with trees between them. -/
inductive Spells : List Construct → List (Tree Content) → Prop
  | nil : Spells [] []
  | shown {x : Construct} {xs : List Construct} {us ts : List (Tree Content)}
      (first : shown? x = some us) (rest : Spells xs ts) : Spells (x :: xs) (us ++ ts)
  | empty {tag : List Char} {as : List (String × String)} {xs : List Construct}
      {ts : List (Tree Content)} (first : tagAttributes tag = .ok as) (rest : Spells xs ts) :
      Spells (.empty tag :: xs) (.leaf (elementOf tag as) :: ts)
  | element {tag tail : List Char} {as : List (String × String)} {ys xs : List Construct}
      {us ts : List (Tree Content)} (first : tagAttributes tag = .ok as) (inner : Spells ys us)
      (last : closingName tail = tagName tag) (rest : Spells xs ts) :
      Spells (.opening tag :: (ys ++ .closing tail :: xs)) (.node (elementOf tag as) us :: ts)

/-- There is one element at the outside, and no other tag. -/
inductive Whole : List Construct → Tree Content → Prop
  | empty {front back : List Construct} {tag : List Char} {as : List (String × String)}
      (before : Tagless front) (root : tagAttributes tag = .ok as) (behind : Tagless back) :
      Whole (front ++ .empty tag :: back) (.leaf (elementOf tag as))
  | element {front ys back : List Construct} {tag tail : List Char} {as : List (String × String)}
      {us : List (Tree Content)} (before : Tagless front) (root : tagAttributes tag = .ok as)
      (inner : Spells ys us) (last : closingName tail = tagName tag) (behind : Tagless back) :
      Whole (front ++ .opening tag :: (ys ++ .closing tail :: back)) (.node (elementOf tag as) us)

/-- Start tags that have no end tag: the element of the last one, and those of the others from the
inside out, each with what it holds so far. -/
inductive Pending : List Construct → Tree Content → List (Tree Content) → Prop
  | root {front ys : List Construct} {tag : List Char} {as : List (String × String)}
      {us : List (Tree Content)} (before : Tagless front) (first : tagAttributes tag = .ok as)
      (inner : Spells ys us) :
      Pending (front ++ .opening tag :: ys) (.node (elementOf tag as) us) []
  | inner {front ys : List Construct} {tag : List Char} {as : List (String × String)}
      {u : Tree Content} {us outer : List (Tree Content)} (before : Pending front u outer)
      (first : tagAttributes tag = .ok as) (inner : Spells ys us) :
      Pending (front ++ .opening tag :: ys) (.node (elementOf tag as) us) (u :: outer)

/-- What has been spelled by constructs of which none offends. -/
def Standing (xs : List Construct) : Outline → Prop
  | .blank => Tagless xs
  | .inside u us => Pending xs u us
  | .whole t => Whole xs t

/-- The construct cannot stand behind what the outline shows, which is the failure. -/
inductive Offends : Outline → Placed → Failure → Prop
  | opening (t : Tree Content) (tag : List Char) (start stop : Nat) :
      Offends (.whole t) ⟨.opening tag, start, stop⟩ .severalRoots
  | empty (t : Tree Content) (tag : List Char) (start stop : Nat) :
      Offends (.whole t) ⟨.empty tag, start, stop⟩ .severalRoots
  | mismatched (u : Tree Content) (us : List (Tree Content)) (tag : List Char) (start stop : Nat)
      (name : String.ofList (closingName tag) ≠ u.name) :
      Offends (.inside u us) ⟨.closing tag, start, stop⟩
        (.malformed start (.mismatched u.name (.ofList (closingName tag))))
  | unmatched {o : Outline} (outside : o.names = []) (tag : List Char) (start stop : Nat) :
      Offends o ⟨.closing tag, start, stop⟩
        (.malformed start (.unmatched (.ofList (closingName tag))))

/-- What is wrong with constructs that can each be read: the first that offends, or else what is missing
at the end. -/
inductive Blames : List Placed → Failure → Prop
  | offence {front back : List Placed} {p : Placed} {o : Outline} {f : Failure}
      (before : Standing (front.map (·.construct)) o) (here : Offends o p f) :
      Blames (front ++ p :: back) f
  | unclosed {ps : List Placed} {u : Tree Content} {us : List (Tree Content)}
      (all : Pending (ps.map (·.construct)) u us) : Blames ps (.unclosed u.name)
  | noRoot {ps : List Placed} (all : Tagless (ps.map (·.construct))) : Blames ps .noRoot

variable {xs ys : List Construct} {x : Construct} {p : Placed} {t u : Tree Content}
  {us ts : List (Tree Content)} {tag tail : List Char} {as : List (String × String)} {o : Outline}

section Spells

theorem Spells.append (h : Spells xs ts) (hys : Spells ys us) : Spells (xs ++ ys) (ts ++ us) := by
  induction h with
  | nil => exact hys
  | shown first _ ih =>
    rw [List.cons_append, List.append_assoc]
    exact .shown first ih
  | empty first _ ih => exact .empty first ih
  | element first inner last _ _ ih =>
    rw [List.cons_append, List.append_assoc, List.cons_append]
    exact .element first inner last ih

theorem spells_shown (h : shown? x = some us) : Spells [x] us := by
  simpa using Spells.shown h .nil

theorem spells_empty (h : tagAttributes tag = .ok as) :
    Spells [.empty tag] [.leaf (elementOf tag as)] := .empty h .nil

theorem spells_element (h : tagAttributes tag = .ok as) (hys : Spells ys us)
    (hname : closingName tail = tagName tag) :
    Spells (.opening tag :: (ys ++ [.closing tail])) [.node (elementOf tag as) us] :=
  .element h hys hname .nil

theorem tagless_nil : Tagless [] := List.forall_mem_nil _

theorem Tagless.append (hxs : Tagless xs) (hys : Tagless ys) : Tagless (xs ++ ys) :=
  List.forall_mem_append.2 ⟨hxs, hys⟩

theorem tagless_singleton (h : shown? x = some us) : Tagless [x] := by
  rw [Tagless, List.forall_mem_singleton, h]
  rfl

theorem Pending.append (h : Pending xs u us) (hys : Spells ys ts) :
    Pending (xs ++ ys) (.node u.label (u.children ++ ts)) us := by
  cases h with
  | root before first inner =>
    rw [List.append_assoc, List.cons_append]
    exact .root before first (inner.append hys)
  | inner before first inner =>
    rw [List.append_assoc, List.cons_append]
    exact .inner before first (inner.append hys)

theorem Whole.append (h : Whole xs t) (hys : Tagless ys) : Whole (xs ++ ys) t := by
  cases h with
  | empty before root behind =>
    rw [List.append_assoc, List.cons_append]
    exact .empty before root (behind.append hys)
  | element before root inner last behind =>
    rw [List.append_assoc, List.cons_append, List.append_assoc, List.cons_append]
    exact .element before root inner last (behind.append hys)

theorem Pending.close (h : Pending xs u us) (hname : String.ofList (closingName tail) = u.name) :
    Standing (xs ++ [.closing tail]) (Outline.inside u us).closed := by
  have hlast : ∀ tag as ts, u = .node (elementOf tag as) ts → closingName tail = tagName tag := by
    rintro tag as ts rfl
    exact String.ofList_injective hname
  cases h with
  | root before first inner =>
    rw [List.append_assoc, List.cons_append]
    exact .element before first inner (hlast _ _ _ rfl) tagless_nil
  | inner before first inner =>
    rw [List.append_assoc, List.cons_append]
    exact before.append (spells_element first inner (hlast _ _ _ rfl))

end Spells

theorem Standing.take (h : Standing xs o) (hp : Readable p.construct) :
    (∃ f, Offends o p f) ∨ ∃ o', Standing (xs ++ [p.construct]) o' := by
  obtain ⟨x, start, stop⟩ := p
  cases hshown : shown? x with
  | some us =>
    -- What is no tag offends nowhere.
    refine .inr ?_
    cases o with
    | blank => exact ⟨.blank, Tagless.append h (tagless_singleton hshown)⟩
    | inside u outer => exact ⟨.inside _ outer, Pending.append h (spells_shown hshown)⟩
    | whole t => exact ⟨.whole t, Whole.append h (tagless_singleton hshown)⟩
  | none =>
    cases x with
    | text raw =>
      obtain ⟨s, hs⟩ := hp
      simp [shown?, hs, Except.toOption] at hshown
    | opening tag =>
      obtain ⟨as, has⟩ := hp
      cases o with
      | blank => exact .inr ⟨.inside _ [], .root h has .nil⟩
      | inside u outer => exact .inr ⟨.inside _ (u :: outer), .inner h has .nil⟩
      | whole t => exact .inl ⟨_, .opening t tag start stop⟩
    | empty tag =>
      obtain ⟨as, has⟩ := hp
      cases o with
      | blank => exact .inr ⟨.whole _, .empty h has tagless_nil⟩
      | inside u outer => exact .inr ⟨.inside _ outer, Pending.append h (spells_empty has)⟩
      | whole t => exact .inl ⟨_, .empty t tag start stop⟩
    | closing tag =>
      cases o with
      | blank => exact .inl ⟨_, .unmatched rfl tag start stop⟩
      | inside u outer =>
        by_cases hname : String.ofList (closingName tag) = u.name
        · exact .inr ⟨_, Pending.close h hname⟩
        · exact .inl ⟨_, .mismatched u outer tag start stop hname⟩
      | whole t => exact .inl ⟨_, .unmatched rfl tag start stop⟩
    | comment s => cases hshown
    | verbatim s => cases hshown
    | instruction s => cases hshown
    | doctype s => cases hshown

theorem standing_or_offends {ps : List Placed} (hps : ∀ p ∈ ps, Readable p.construct) :
    (∃ o, Standing (ps.map (·.construct)) o) ∨
      ∃ front p back o f, ps = front ++ p :: back ∧ Standing (front.map (·.construct)) o ∧
        Offends o p f := by
  induction ps using List.reverseRecOn with
  | nil => exact .inl ⟨.blank, tagless_nil⟩
  | append_singleton ps p ih =>
    rw [List.forall_mem_append, List.forall_mem_singleton] at hps
    rcases ih hps.1 with ⟨o, ho⟩ | ⟨front, q, back, o, f, rfl, ho, hq⟩
    · rcases ho.take hps.2 with ⟨f, hoffends⟩ | hstands
      · exact .inr ⟨ps, p, [], o, f, rfl, ho, hoffends⟩
      · rw [List.map_append]
        exact .inl hstands
    · exact .inr ⟨front, q, back ++ [p], o, f, by simp, ho, hq⟩

theorem whole_or_blamed {ps : List Placed} (hps : ∀ p ∈ ps, Readable p.construct) :
    (∃ t, Whole (ps.map (·.construct)) t) ∨ ∃ f, Blames ps f := by
  rcases standing_or_offends hps with ⟨o, ho⟩ | ⟨front, p, back, o, f, rfl, ho, hp⟩
  · cases o with
    | blank => exact .inr ⟨_, .noRoot ho⟩
    | inside u us => exact .inr ⟨_, .unclosed ho⟩
    | whole t => exact .inl ⟨t, ho⟩
  · exact .inr ⟨f, .offence ho hp⟩

end FormulaDrawing.Drawing
