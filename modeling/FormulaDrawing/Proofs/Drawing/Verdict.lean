import FormulaDrawing.Proofs.Drawing.Bracketing
import FormulaDrawing.Proofs.Drawing.Layers

/-! Reading accepts what is bracketed and blames the rest. Constructs that lead from one outline to another
do so wherever they stand, so a reading follows the derivation of what has been spelled. -/

namespace FormulaDrawing.Drawing

open Markup

open Reading (closingName)

/-- The reading goes on with constructs that are all there. -/
def Reading.takeAll (r : Reading) (ps : List Placed) : Except Failure Reading :=
  ps.foldlM (fun r p => r.take (.ok p)) r

/-- Reading the constructs leads from one outline to the other, wherever they stand. -/
def Takes (xs : List Construct) (o o' : Outline) : Prop :=
  ∀ ps : List Placed, ps.map (·.construct) = xs → ∀ r : Reading, r.Draws o →
    ∃ r', r.takeAll ps = .ok r' ∧ r'.Draws o'

variable {xs ys : List Construct} {x : Construct} {p : Placed} {ps : List Placed} {f : Failure}
  {r : Reading} {t u : Tree Content} {us ts : List (Tree Content)} {tag tail : List Char}
  {as : List (String × String)} {o o₁ o₂ : Outline}

theorem Reading.takeAll_cons (r : Reading) (p : Placed) (ps : List Placed) :
    r.takeAll (p :: ps) = r.take (.ok p) >>= (·.takeAll ps) := List.foldlM_cons

theorem Reading.takeAll_append (r : Reading) (ps qs : List Placed) :
    r.takeAll (ps ++ qs) = r.takeAll ps >>= (·.takeAll qs) := List.foldlM_append

section Takes

theorem takes_nil (o : Outline) : Takes [] o o := by
  rintro ps hps r hr
  obtain rfl := List.map_eq_nil_iff.1 hps
  exact ⟨r, rfl, hr⟩

theorem Takes.append (h₁ : Takes xs o o₁) (h₂ : Takes ys o₁ o₂) : Takes (xs ++ ys) o o₂ := by
  intro ps hps r hr
  obtain ⟨ps₁, ps₂, rfl, hps₁, hps₂⟩ := List.map_eq_append_iff.1 hps
  obtain ⟨r₁, hok₁, hr₁⟩ := h₁ ps₁ hps₁ r hr
  obtain ⟨r₂, hok₂, hr₂⟩ := h₂ ps₂ hps₂ r₁ hr₁
  refine ⟨r₂, ?_, hr₂⟩
  rw [Reading.takeAll_append, hok₁]
  exact hok₂

theorem takes_of_take (h : ∀ (r : Reading) (start stop : Nat), r.Draws o →
    ∃ r', r.take (.ok ⟨x, start, stop⟩) = .ok r' ∧ r'.Draws o₁) (hxs : Takes xs o₁ o₂) :
    Takes (x :: xs) o o₂ := by
  intro ps hps r hr
  obtain ⟨⟨y, start, stop⟩, rest, rfl, rfl, hrest⟩ := List.map_eq_cons_iff.1 hps
  obtain ⟨r₁, hok₁, hr₁⟩ := h r start stop hr
  obtain ⟨r₂, hok₂, hr₂⟩ := hxs rest hrest r₁ hr₁
  refine ⟨r₂, ?_, hr₂⟩
  rw [Reading.takeAll_cons, hok₁]
  exact hok₂

theorem takes_opening (ho : o.isWhole = false) (has : tagAttributes tag = .ok as)
    (hxs : Takes xs (o.opened (elementOf tag as)) o₂) : Takes (.opening tag :: xs) o o₂ := by
  refine takes_of_take (fun r start stop hr => ?_) hxs
  exact (hr.take_opening ho has).imp fun _ h => ⟨h.1, h.2.2⟩

theorem takes_empty (ho : o.isWhole = false) (has : tagAttributes tag = .ok as)
    (hxs : Takes xs (o.opened (elementOf tag as)).closed o₂) : Takes (.empty tag :: xs) o o₂ := by
  refine takes_of_take (fun r start stop hr => ?_) hxs
  exact (hr.take_empty ho has).imp fun _ h => ⟨h.1, h.2.2⟩

theorem takes_closing (hname : String.ofList (closingName tail) = u.name)
    (hxs : Takes xs (Outline.inside u us).closed o₂) :
    Takes (.closing tail :: xs) (.inside u us) o₂ := by
  refine takes_of_take (fun r start stop hr => ?_) hxs
  exact (hr.take_closing hname).imp fun _ h => ⟨h.1, h.2.2⟩

theorem Tagless.takes (h : Tagless xs) (ho : o.names = []) : Takes xs o o := by
  have hsame : ∀ ts, o.addAll ts = o := by
    intro ts
    induction ts with
    | nil => rfl
    | cons t ts ih =>
      cases o with
      | blank => exact ih
      | inside u us => cases ho
      | whole t => exact ih
  induction xs with
  | nil => exact takes_nil o
  | cons x xs ih =>
    obtain ⟨hx, hxs⟩ := List.forall_mem_cons.1 h
    obtain ⟨ts, hts⟩ := Option.isSome_iff_exists.1 hx
    refine takes_of_take (fun r start stop hr => ?_) (ih hxs)
    exact (hr.take_shown hts).imp fun _ h => ⟨h.1, hsame ts ▸ h.2⟩

theorem Spells.takes (h : Spells xs ts) (u : Tree Content) (us : List (Tree Content)) :
    Takes xs (.inside u us) ((Outline.inside u us).addAll ts) := by
  induction h generalizing u us with
  | nil => exact takes_nil _
  | shown first _ ih =>
    rw [Outline.addAll_append, Outline.addAll_inside]
    refine takes_of_take (fun r start stop hr => ?_) (ih _ us)
    rw [← Outline.addAll_inside]
    exact hr.take_shown first
  | empty first _ ih => exact takes_empty rfl first (ih _ us)
  | element first inner last _ ihinner ih =>
    refine takes_opening rfl first ((ihinner _ _).append ?_)
    rw [Outline.addAll_leaf]
    exact takes_closing (congrArg String.ofList last) (ih _ us)

theorem Spells.takes_leaf (h : Spells xs ts) (c : Content) (us : List (Tree Content)) :
    Takes xs (.inside (.leaf c) us) (.inside (.node c ts) us) := by
  rw [← Outline.addAll_leaf]
  exact h.takes _ us

theorem Pending.takes (h : Pending xs u us) : Takes xs .blank (.inside u us) := by
  induction h with
  | root before first inner =>
    exact (before.takes rfl).append (takes_opening rfl first (inner.takes_leaf _ []))
  | inner _ first inner ih => exact ih.append (takes_opening rfl first (inner.takes_leaf _ _))

theorem Whole.takes (h : Whole xs t) : Takes xs .blank (.whole t) := by
  cases h with
  | empty before root behind =>
    exact (before.takes rfl).append (takes_empty rfl root (behind.takes rfl))
  | element before root inner last behind =>
    refine (before.takes rfl).append (takes_opening rfl root ?_)
    exact (inner.takes_leaf _ []).append
      (takes_closing (congrArg String.ofList last) (behind.takes rfl))

theorem Standing.takes (h : Standing xs o) : Takes xs .blank o := by
  cases o with
  | blank => exact Tagless.takes h rfl
  | inside u us => exact Pending.takes h
  | whole t => exact Whole.takes h

end Takes

theorem Offends.take (h : Offends o p f) (hp : Readable p.construct) (hr : r.Draws o) :
    r.take (.ok p) = .error f := by
  cases h with
  | opening t tag start stop =>
    obtain ⟨as, has⟩ := hp
    rw [Reading.take, hr.addElement_whole has]
    rfl
  | empty t tag start stop =>
    obtain ⟨as, has⟩ := hp
    exact hr.addElement_whole has
  | mismatched u us tag start stop name => exact hr.take_mismatched name
  | unmatched outside tag start stop => exact hr.take_unmatched outside

section Read

variable {source : String} {d : Drawing}

theorem read_eq_takeAll (hps : constructs 0 (dropMark source.toList) = ps.map .ok) :
    read source = Reading.takeAll {} ps >>= (·.finish) := by
  rw [Drawing.read, hps, List.foldlM_map]
  rfl

theorem Standing.takeAll (h : Standing (ps.map (·.construct)) o) :
    ∃ r : Reading, r.Draws o ∧ Reading.takeAll {} ps = .ok r := by
  obtain ⟨r, hok, hr⟩ := h.takes ps rfl {} ⟨rfl, rfl⟩
  exact ⟨r, hr, hok⟩

theorem Whole.read (hps : constructs 0 (dropMark source.toList) = ps.map .ok)
    (h : Whole (ps.map (·.construct)) t) : ∃ d, read source = .ok d ∧ d.Shows t := by
  obtain ⟨r, hr, hok⟩ := Standing.takeAll (o := .whole t) h
  obtain ⟨d, hd, -, hshows⟩ := hr.finish_whole
  refine ⟨d, ?_, hshows⟩
  rw [read_eq_takeAll hps, hok]
  exact hd

theorem Blames.read (hps : constructs 0 (dropMark source.toList) = ps.map .ok)
    (hreadable : ∀ p ∈ ps, Readable p.construct) (h : Blames ps f) : read source = .error f := by
  rw [read_eq_takeAll hps]
  cases h with
  | @offence front back p o f before here =>
    obtain ⟨r, hr, hok⟩ := before.takeAll
    have htake := here.take (hreadable p (by simp)) hr
    rw [Reading.takeAll_append, hok]
    change r.takeAll (p :: back) >>= (·.finish) = .error f
    rw [Reading.takeAll_cons, htake]
    rfl
  | unclosed all =>
    obtain ⟨r, hr, hok⟩ := Standing.takeAll (o := .inside _ _) all
    rw [hok]
    exact hr.finish_inside
  | noRoot all =>
    obtain ⟨r, hr, hok⟩ := Standing.takeAll (o := .blank) all
    rw [hok]
    exact hr.finish_blank

theorem read_cases (hps : constructs 0 (dropMark source.toList) = ps.map .ok)
    (hreadable : ∀ p ∈ ps, Readable p.construct) :
    (∃ t d, Whole (ps.map (·.construct)) t ∧ read source = .ok d ∧ d.Shows t) ∨
      ∃ f, Blames ps f ∧ read source = .error f := by
  rcases whole_or_blamed hreadable with ⟨t, ht⟩ | ⟨f, hf⟩
  · obtain ⟨d, hd, hshows⟩ := ht.read hps
    exact .inl ⟨t, d, ht, hd, hshows⟩
  · exact .inr ⟨f, hf, hf.read hps hreadable⟩

theorem readable_of_addElement {r' : Reading} (hok : r.addElement tag = .ok r') :
    ∃ as, tagAttributes tag = .ok as := by
  cases has : tagAttributes tag with
  | error fault => simp [Reading.addElement, has] at hok
  | ok as => exact ⟨as, rfl⟩

theorem readable_of_taken {r' : Reading} (h : r.Taken x r') : Readable x := by
  cases h with
  | text read => exact ⟨_, read⟩
  | opening added => exact readable_of_addElement added
  | empty added => exact readable_of_addElement added
  | closing top => trivial
  | comment s => trivial
  | verbatim s => trivial
  | instruction s declared => trivial
  | doctype s => trivial

theorem readable_of_foldlM {xs : List (Except (ConstructFault × Nat) Placed)} {r' : Reading}
    (hok : xs.foldlM Reading.take r = .ok r') :
    ∃ ps : List Placed, xs = ps.map .ok ∧ ∀ p ∈ ps, Readable p.construct := by
  induction xs generalizing r with
  | nil => exact ⟨[], rfl, nofun⟩
  | cons x xs ih =>
    rw [List.foldlM_cons] at hok
    obtain ⟨next, hx, hxs⟩ := bind_eq_ok_iff.1 hok
    obtain ⟨p, rfl, hp⟩ := Reading.taken_of_take hx
    obtain ⟨ps, rfl, hps⟩ := ih hxs
    exact ⟨p :: ps, rfl, List.forall_mem_cons.2 ⟨readable_of_taken hp, hps⟩⟩

theorem whole_of_read (h : read source = .ok d) :
    ∃ (ps : List Placed) (t : Tree Content), constructs 0 (dropMark source.toList) = ps.map .ok ∧
      Whole (ps.map (·.construct)) t ∧ d.Shows t := by
  obtain ⟨r, hr, -⟩ := bind_eq_ok_iff.1 h
  obtain ⟨ps, hps, hreadable⟩ := readable_of_foldlM hr
  rcases read_cases hps hreadable with ⟨t, d', ht, hd', hshows⟩ | ⟨f, -, hf⟩
  · obtain rfl : d' = d := Except.ok.inj (hd'.symm.trans h)
    exact ⟨ps, t, hps, ht, hshows⟩
  · rw [hf] at h
    cases h

end Read

/-- A source of constructs that can each be read is a drawing exactly if they make up one whole element,
which is then what the drawing shows; otherwise it fails for what is to blame. Where the open names and the
open nodes are kept apart, the builder finds a node open at every end tag that is handed over. -/
theorem read_of_readable {source : String} {ps : List Placed}
    (hps : constructs 0 (dropMark source.toList) = ps.map .ok)
    (hreadable : ∀ p ∈ ps, Readable p.construct) :
    ((∃ d, read source = .ok d) ↔ ∃ t, Whole (ps.map (·.construct)) t) ∧
      (∀ d t, read source = .ok d → (d.Shows t ↔ Whole (ps.map (·.construct)) t)) ∧
      (∀ f, read source = .error f ↔ Blames ps f) ∧
      assemble source = (read source).mapError .failure ∧
      ∀ place, assemble source ≠ .error (.unexpectedEnd place) := by
  refine ⟨?_, fun d t hd => ?_, fun f => ⟨fun hf => ?_, (·.read hps hreadable)⟩, assemble_eq source,
    assemble_ne_unexpectedEnd source⟩
  -- The constructs make up a whole or something is to blame, and either way reading is known.
  · constructor
    · rintro ⟨d, hd⟩
      rcases read_cases hps hreadable with ⟨t, -, ht, -⟩ | ⟨f, -, hf⟩
      · exact ⟨t, ht⟩
      · rw [hf] at hd
        cases hd
    · rintro ⟨t, ht⟩
      obtain ⟨d, hd, -⟩ := ht.read hps
      exact ⟨d, hd⟩
  · rcases read_cases hps hreadable with ⟨u, d', hu, hd', hshows⟩ | ⟨f, -, hf⟩
    · obtain rfl : d' = d := Except.ok.inj (hd'.symm.trans hd)
      constructor
      · intro ht
        rwa [ht.unique hshows]
      · intro ht
        obtain ⟨d, hd'', hshows'⟩ := ht.read hps
        rwa [← Except.ok.inj (hd''.symm.trans hd)]
    · rw [hf] at hd
      cases hd
  · rcases read_cases hps hreadable with ⟨t, d, -, hd, -⟩ | ⟨g, hg, hread⟩
    · rw [hf] at hd
      cases hd
    · rwa [Except.error.inj (hf.symm.trans hread)]

/-- A second element and an end tag behind a whole drawing: the element offends first. -/
theorem read_of_readable_severalRoots :
    let whole : List Placed :=
      [⟨.comment ['p'], 0, 8⟩, ⟨.opening ['a'], 8, 11⟩, ⟨.text ['x'], 11, 12⟩,
        ⟨.opening "b k=\"v\"".toList, 12, 21⟩, ⟨.verbatim ['<'], 21, 34⟩, ⟨.closing ['b'], 34, 38⟩,
        ⟨.empty ['c'], 38, 42⟩, ⟨.closing ['a', ' '], 42, 47⟩]
    let more : List Placed := [⟨.empty ['d'], 47, 51⟩, ⟨.closing ['e'], 51, 55⟩]
    let source := "<!--p--><a>x<b k=\"v\"><![CDATA[<]]></b><c/></a >"
    (constructs 0 (dropMark source.toList) = whole.map .ok ∧
        (∀ p ∈ whole, Readable p.construct) ∧ ∃ d, read source = .ok d ∧
          d.Shows (.node (elementOf ['a'] []) [.leaf (.text "x"),
            .node (.element { name := "b", attributes := [("k", "v")] }) [.leaf (.text "<")],
            .leaf (.element { name := "c" })])) ∧
      constructs 0 (dropMark (source ++ "<d/></e>").toList) = (whole ++ more).map .ok ∧
        (∀ p ∈ whole ++ more, Readable p.construct) ∧
          read (source ++ "<d/></e>") = .error .severalRoots := by
  intro whole more source
  have hx : unescape ['x'] = .ok ['x'] := by cbv
  have ha : tagAttributes ['a'] = .ok [] := by cbv
  have hb : tagAttributes "b k=\"v\"".toList = .ok [("k", "v")] := by cbv
  have hc : tagAttributes ['c'] = .ok [] := by cbv
  have hd : tagAttributes ['d'] = .ok [] := by cbv
  have hinner : Spells [.text ['x'], .opening "b k=\"v\"".toList, .verbatim ['<'], .closing ['b'],
      .empty ['c']] [.leaf (.text "x"), .node (elementOf "b k=\"v\"".toList [("k", "v")])
        [.leaf (.text "<")], .leaf (elementOf ['c'] [])] := by
    have hshown : Spells [.verbatim ['<']] [.leaf (.text "<")] := spells_shown rfl
    have htext : Spells [.text ['x']] [.leaf (.text "x")] := spells_shown (by rw [shown?, hx]; rfl)
    exact htext.append (.element hb hshown rfl (spells_empty hc))
  have hbefore : Tagless [.comment ['p']] := tagless_singleton rfl
  have hwhole : Whole (whole.map (·.construct)) _ :=
    .element hbefore ha hinner (rfl : closingName ['a', ' '] = tagName ['a']) tagless_nil
  have hreadable : ∀ p ∈ whole, Readable p.construct := by
    simp only [whole, List.forall_mem_cons]
    exact ⟨trivial, ⟨_, ha⟩, ⟨_, hx⟩, ⟨_, hb⟩, trivial, trivial, ⟨_, hc⟩, trivial, List.forall_mem_nil _⟩
  have hmore : ∀ p ∈ whole ++ more, Readable p.construct := by
    rw [List.forall_mem_append]
    refine ⟨hreadable, ?_⟩
    simp only [more, List.forall_mem_cons]
    exact ⟨⟨_, hd⟩, trivial, List.forall_mem_nil _⟩
  have hps : constructs 0 (dropMark source.toList) = whole.map .ok := by cbv
  have hpsMore : constructs 0 (dropMark (source ++ "<d/></e>").toList) = (whole ++ more).map .ok := by
    cbv
  obtain ⟨hok, hshows, -⟩ := read_of_readable hps hreadable
  obtain ⟨-, -, herror, -⟩ := read_of_readable hpsMore hmore
  obtain ⟨d, hread⟩ := hok.2 ⟨_, hwhole⟩
  refine ⟨⟨hps, hreadable, d, hread, (hshows d _ hread).2 hwhole⟩, hpsMore, hmore, ?_⟩
  exact (herror _).2 (.offence (o := .whole _) hwhole (.empty _ _ _ _))

end FormulaDrawing.Drawing
