import FormulaDrawing.Proofs.Drawing.RoundTrip
import FormulaDrawing.Proofs.Markup.Found

/-! What is written can be read again if all that stands in the drawing is legible. Of a drawing that
has been read, only the tags are left to be looked at. -/

namespace FormulaDrawing

open Markup

/-- What is sure of a node that has been read. -/
def Content.Read : Content → Prop
  | .element e => ReadTag e
  | .text _ => True
  | .comment s => ¬ commentEnd <:+: s.toList

theorem Content.Read.legible {c : Content} (hc : c.Read)
    (hclear : ∀ e, c = .element e → ClearTag e) : c.Legible := by
  cases c with
  | element e => exact ⟨hc, hclear e rfl⟩
  | text s => trivial
  | comment s => exact hc

theorem Tree.legible_node_iff {c : Content} {ts : List (Tree Content)} :
    Tree.Legible (.node c ts) ↔ c.Legible ∧ ∀ t ∈ ts, t.Legible := by
  simp only [Tree.Legible, Tree.subtrees_node, List.forall_mem_cons, Tree.label_node,
    List.forall_mem_flatMap]

namespace Drawing

namespace Reading

/-- Every node so far is as a reader leaves it, and the first one is an element. -/
structure Sound (r : Reading) : Prop where
  contents : ∀ h c, r.drawing.content? h = some c → c.Read
  first : r.nodes.isEmpty = true ∧ r.stack = [] ∨ ∃ e, r.drawing.content? 0 = some (.element e)

variable {r r' : Reading} {c : Content}

theorem content?_attach (r : Reading) (c : Content) (h : Handle) :
    (r.attach c).drawing.content? h =
      if r.stack ≠ [] ∧ h = r.nodes.size then some c else r.drawing.content? h := by
  cases hs : r.stack with
  | nil => simp [attach, hs]
  | cons parent stack =>
    simp only [attach, hs, drawing, content?, node?, Array.getElem?_push, Array.size_modify,
      Array.getElem?_modify]
    by_cases hsize : h = r.nodes.size
    · simp [hsize]
    · by_cases hparent : parent = h
      · simp [hsize, hparent, Function.comp_def]
      · simp [hsize, hparent]

namespace Sound

theorem attach (hr : r.Sound) (hc : c.Read) : (r.attach c).Sound where
  contents := fun h x hx => by
    rw [content?_attach] at hx
    split at hx
    · rwa [← Option.some.inj hx]
    · exact hr.contents h x hx
  first := by
    rcases hr.first with ⟨hn, hs⟩ | ⟨e, he⟩
    · have hsame : r.attach c = r := by rw [Reading.attach, hs]
      rw [hsame]
      exact .inl ⟨hn, hs⟩
    · refine .inr ⟨e, ?_⟩
      rw [content?_attach, if_neg, he]
      rintro ⟨-, hsize⟩
      simp [drawing, content?, node?, ← hsize] at he

theorem addElement (hr : r.Sound) {tag : List Char} (hbegins : beginsTag tag = true)
    (hok : r.addElement tag = .ok r') (stack : List Handle) : Sound { r' with stack } := by
  cases ha : tagAttributes tag with
  | error fault => simp [Reading.addElement, ha] at hok
  | ok as =>
    have hread : Content.Read (.element { name := String.ofList (tagName tag), attributes := as }) :=
      readTag_of_tagAttributes hbegins ha
    cases hs : r.stack with
    | nil =>
      simp only [Reading.addElement, ha, hs] at hok
      split at hok
      · obtain rfl := Except.ok.inj hok
        refine ⟨fun h c hc => ?_, .inr ⟨_, rfl⟩⟩
        cases h with
        | zero =>
          obtain rfl := Option.some.inj hc
          exact hread
        | succ h => cases hc
      · cases hok
    | cons parent outer =>
      simp only [Reading.addElement, ha, hs] at hok
      obtain rfl := Except.ok.inj hok
      obtain ⟨hcontents, hfirst⟩ := hr.attach hread
      refine ⟨hcontents, .inr (hfirst.resolve_left ?_)⟩
      rintro ⟨-, hnil⟩
      rw [stack_attach, hs] at hnil
      cases hnil

theorem take (hr : r.Sound) {x : Except (ConstructFault × Nat) Placed}
    (hx : ∀ p, x = .ok p → p.construct.Found) (hok : r.take x = .ok r') : r'.Sound := by
  obtain ⟨⟨x, start, stop⟩, rfl, htaken⟩ := taken_of_take hok
  have hfound : x.Found := hx _ rfl
  cases htaken with
  | text read => exact hr.attach trivial
  | verbatim s => exact hr.attach trivial
  | comment s => exact hr.attach (by rwa [Content.Read, String.toList_ofList])
  | instruction s declared => exact ⟨hr.contents, hr.first⟩
  | doctype s => exact hr
  | empty added => exact hr.addElement hfound added r'.stack
  | opening added => exact hr.addElement hfound added _
  | closing top =>
    refine ⟨hr.contents, .inr (hr.first.resolve_left ?_)⟩
    rintro ⟨-, hnil⟩
    rw [top] at hnil
    cases hnil

theorem foldlM {xs : List (Except (ConstructFault × Nat) Placed)}
    (hxs : ∀ p, .ok p ∈ xs → p.construct.Found) (hr : r.Sound)
    (hok : xs.foldlM Reading.take r = .ok r') : r'.Sound := by
  refine foldlM_preserves (fun r x hx next hr htake => ?_) hr hok
  exact hr.take (fun p hp => hxs p (hp ▸ hx)) htake

end Sound

end Reading

variable {source : String} {d : Drawing}

theorem sound_of_read (h : read source = .ok d) :
    (∀ k c, d.content? k = some c → c.Read) ∧ ∃ e, d.content? d.root = some (.element e) := by
  obtain ⟨r, hr, hfinish⟩ := bind_eq_ok_iff.1 h
  have hempty : Reading.Sound {} := ⟨fun k c hc => by simp [Reading.drawing, content?, node?] at hc,
    .inl ⟨rfl, rfl⟩⟩
  obtain ⟨hcontents, hfirst⟩ := hempty.foldlM (fun p hp => found_of_mem_constructs hp) hr
  unfold Reading.finish at hfinish
  split at hfinish
  · cases hfinish
  · split at hfinish
    · cases hfinish
    · rename_i hne
      obtain rfl := Except.ok.inj hfinish
      exact ⟨hcontents, hfirst.resolve_left fun hn => hne hn.1⟩

def Clear (d : Drawing) : Prop := ∀ n ∈ d.nodes.toList, ∀ e ∈ n.content.element?, ClearTag e

instance : Decidable d.Clear := inferInstanceAs (Decidable (∀ n ∈ _, ∀ e ∈ _, _))

theorem Clear.of_content? (hd : d.Clear) {h : Handle} {e : Element}
    (he : d.content? h = some (.element e)) : ClearTag e := by
  obtain ⟨n, hn, hcontent⟩ := Option.map_eq_some_iff.1 he
  refine hd n (Array.mem_toList_iff.2 (Array.mem_of_getElem? hn)) e ?_
  rw [hcontent]
  rfl

theorem legible_of_read {t : Tree Content} (hread : read source = .ok d) (hclear : d.Clear)
    (hshows : d.Shows t) :
    t.Legible ∧ ∃ e ts, t = .node (.element e) ts := by
  obtain ⟨b, hb, rfl⟩ := hshows
  obtain ⟨hcontents, e, he⟩ := sound_of_read hread
  constructor
  · intro u hu
    rw [Tree.subtrees_contents] at hu
    obtain ⟨c, hc, rfl⟩ := List.mem_map.1 hu
    obtain ⟨q, hq⟩ := hb.branch.of_mem_subtrees hc
    rw [Tree.label_contents]
    exact (hcontents _ _ hq.content?).legible fun e he => hclear.of_content? (he ▸ hq.content?)
  · rw [← hb.top, hb.branch.content?, Option.some.injEq] at he
    obtain ⟨⟨h, c⟩, bs⟩ := b
    obtain rfl : c = .element e := he
    exact ⟨e, bs.map Tree.contents, Tree.contents_node ..⟩

theorem read_write_eq {e : Element} {ts : List (Tree Content)}
    (hd : d.Shows (.node (.element e) ts)) : ∃ place, read d.write =
      Reading.through { declared := d.declared } place (Tree.spelled (.node (.element e) ts)) >>=
        (·.finish) := by
  obtain ⟨s, hs⟩ : ∃ s, Tree.spelled (.node (.element e) ts) = '<' :: s := by
    cases ts with
    | nil => exact ⟨_, by rw [Tree.spelled]; rfl⟩
    | cons t ts => exact ⟨_, by rw [Tree.spelled]; rfl⟩
  rw [write_of_shows hd, hs, read, String.toList_append, String.toList_ofList]
  cases d.declared with
  | false => exact ⟨0, rfl⟩
  | true =>
    obtain ⟨place, hplace⟩ := Reading.through_declaration s
    exact ⟨place, by rw [← hplace]; rfl⟩

theorem shows_joined_of_legible {t : Tree Content} (hd : d.Shows t) (ht : t.Legible)
    (hroot : ∃ e ts, t = .node (.element e) ts) :
    ∃ d', read d.write = .ok d' ∧ d'.Shows t.joined := by
  obtain ⟨e, ts, rfl⟩ := hroot
  obtain ⟨place, hread⟩ := read_write_eq hd
  have hblank : Reading.Draws { declared := d.declared } .blank := ⟨rfl, rfl⟩
  obtain ⟨r, place', hr, -, hthrough⟩ := Reading.leads_legible ht rfl rfl [] _ place hblank
  rw [Outline.opened, Outline.addAll_leaf, Outline.closed] at hr
  obtain ⟨d', hfinish, -, hshows⟩ := hr.finish_whole
  refine ⟨d', ?_, hshows⟩
  rw [List.append_nil] at hthrough
  rw [hread, hthrough, ← hfinish, Reading.through, constructs]
  rfl

end Drawing

end FormulaDrawing
