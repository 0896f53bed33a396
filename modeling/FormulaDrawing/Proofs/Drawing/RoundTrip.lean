import FormulaDrawing.Proofs.Drawing.Spelling
import FormulaDrawing.Proofs.Drawing.Taking
import FormulaDrawing.Proofs.Markup.Tag

/-! Reading undoes writing, but for texts: those that stand side by side come back as one, and empty
ones do not come back. -/

namespace FormulaDrawing

open Markup

namespace Tree

/-- A text as a tree of its own, unless it is empty. -/
def ofText (s : String) : List (Tree Content) := if s = "" then [] else [leaf (.text s)]

mutual

/-- Neighbouring texts joined and empty ones left out, at every depth. -/
def joined : Tree Content → Tree Content
  | node (.element e) ts => node (.element e) (joinedBehind "" ts)
  | node (.text s) _ => leaf (.text s)
  | node (.comment s) _ => leaf (.comment s)

/-- The same for trees side by side, behind the text `s`. -/
def joinedBehind (s : String) : List (Tree Content) → List (Tree Content)
  | [] => ofText s
  | node (.text s') _ :: ts => joinedBehind (s ++ s') ts
  | node (.element e) us :: ts =>
    ofText s ++ node (.element e) (joinedBehind "" us) :: joinedBehind "" ts
  | node (.comment s') _ :: ts => ofText s ++ leaf (.comment s') :: joinedBehind "" ts

end

end Tree

/-- Tags can be read again, and no comment ends early. -/
def Content.Plain : Content → Prop
  | .element e => PlainTag e
  | .text _ => True
  | .comment s => ¬ commentEnd <:+: s.toList

def Tree.Plain (t : Tree Content) : Prop := ∀ u ∈ t.subtrees, u.label.Plain

/-- The same with no more of a tag than is needed to read it again. -/
def Content.Legible : Content → Prop
  | .element e => LegibleTag e
  | .text _ => True
  | .comment s => ¬ commentEnd <:+: s.toList

def Tree.Legible (t : Tree Content) : Prop := ∀ u ∈ t.subtrees, u.label.Legible

theorem Content.Plain.legible {c : Content} (hc : c.Plain) : c.Legible := by
  cases c with
  | element e => exact PlainTag.legible hc
  | text s => trivial
  | comment s => exact hc

theorem Tree.Plain.legible {t : Tree Content} (ht : t.Plain) : t.Legible :=
  fun u hu => (ht u hu).legible

namespace Drawing

open Text

namespace Reading

/-- The reading that goes on with `s`, which stands at byte `place`. -/
def through (r : Reading) (place : Nat) (s : List Char) : Except Failure Reading :=
  (constructs place s).foldlM take r

theorem through_read {s rest : List Char} {x : Construct} (hx : Construct.read s = .ok (x, rest))
    (hs : s ≠ []) (r : Reading) (place : Nat) :
    ∃ start stop, r.through place s = r.take (.ok ⟨x, start, stop⟩) >>= (·.through stop rest) := by
  obtain ⟨c, s, rfl⟩ := List.exists_cons_of_ne_nil hs
  refine ⟨place, place + byteLength x.written, ?_⟩
  rw [through, constructs]
  split
  · rename_i h
    simp [hx] at h
  · rename_i h
    obtain ⟨rfl, rfl⟩ : x = _ ∧ rest = _ := by simpa [hx] using h
    rw [List.foldlM_cons]
    rfl

/-- Reading `s` where `rest` follows leads from one outline to the other. -/
def Leads (s rest : List Char) (o o' : Outline) : Prop :=
  ∀ (r : Reading) (place : Nat), r.Draws o → ∃ (r' : Reading) (place' : Nat), r'.Draws o' ∧
    r'.declared = r.declared ∧ r.through place (s ++ rest) = r'.through place' rest

variable {s t rest : List Char} {o o₁ o₂ : Outline} {e : Element}

theorem Leads.refl (rest : List Char) (o : Outline) : Leads [] rest o o := fun r place hr =>
  ⟨r, place, hr, rfl, rfl⟩

theorem Leads.trans (h₁ : Leads s (t ++ rest) o o₁) (h₂ : Leads t rest o₁ o₂) :
    Leads (s ++ t) rest o o₂ := by
  intro r place hr
  obtain ⟨r₁, place₁, hr₁, hd₁, he₁⟩ := h₁ r place hr
  obtain ⟨r₂, place₂, hr₂, hd₂, he₂⟩ := h₂ r₁ place₁ hr₁
  exact ⟨r₂, place₂, hr₂, hd₂.trans hd₁, by rw [List.append_assoc, he₁, he₂]⟩

theorem Leads.of_take {x : Construct} (hx : Construct.read (s ++ rest) = .ok (x, rest))
    (hs : s ≠ [])
    (h : ∀ (r : Reading), r.Draws o → ∀ start stop, ∃ r', r.take (.ok ⟨x, start, stop⟩) = .ok r' ∧
      r'.Draws o' ∧ r'.declared = r.declared) : Leads s rest o o' := by
  intro r place hr
  obtain ⟨start, stop, ht⟩ := through_read hx (by simp [hs]) r place
  obtain ⟨r', hok, hr', hd⟩ := h r hr start stop
  exact ⟨r', stop, hr', hd, by rw [ht, hok]; rfl⟩

theorem elementOf_tagChars (he : ReadTag e) : elementOf (tagChars e) e.attributes = .element e := by
  rw [elementOf, tagName_tagChars he, String.ofList_toList]

theorem leads_opening (he : LegibleTag e) (ho : o.isWhole = false) (rest : List Char) :
    Leads ('<' :: tagChars e ++ ['>']) rest o (o.opened (.element e)) := by
  refine .of_take (x := .opening (tagChars e)) (by simpa using read_opening he rest) (by simp)
    fun r hr start stop => ?_
  obtain ⟨r', hok, hd, hr'⟩ := hr.take_opening ho (tagAttributes_tagChars he.read)
  rw [elementOf_tagChars he.read] at hr'
  exact ⟨r', hok, hr', hd⟩

theorem leads_empty (he : LegibleTag e) (ho : o.isWhole = false) (rest : List Char) :
    Leads ('<' :: tagChars e ++ ['/', '>']) rest o (o.opened (.element e)).closed := by
  refine .of_take (x := .empty (tagChars e)) (by simpa using read_empty he rest) (by simp)
    fun r hr start stop => ?_
  obtain ⟨r', hok, hd, hr'⟩ := hr.take_empty ho (tagAttributes_tagChars he.read)
  rw [elementOf_tagChars he.read] at hr'
  exact ⟨r', hok, hr', hd⟩

theorem closingName_of_isTagName {name : List Char} (hn : isTagName name = true) :
    closingName name = name := by
  have hgap : ∀ x ∈ name.reverse, isGap x = false := fun x hx =>
    isGap_of_mem_tagName hn (List.mem_reverse.1 hx)
  have hdrop : name.reverse.dropWhile isGap = name.reverse := by
    cases h : name.reverse with
    | nil => rfl
    | cons x l => rw [List.dropWhile_cons, hgap x (by simp [h])]; rfl
  rw [closingName, hdrop, List.reverse_reverse, ite_self]

theorem leads_closing (he : LegibleTag e) (ts us : List (Tree Content)) (rest : List Char) :
    Leads ('<' :: '/' :: e.name.toList ++ ['>']) rest
      (.inside (.node (.element e) ts) us) (Outline.inside (.node (.element e) ts) us).closed := by
  refine .of_take (x := .closing e.name.toList) (by simpa using read_closing he.clear.name rest)
    (by simp)
    fun r hr start stop => ?_
  have hname : String.ofList (closingName e.name.toList) = Tree.name (.node (.element e) ts) := by
    rw [closingName_of_isTagName he.read.name, String.ofList_toList]
    rfl
  obtain ⟨r', hok, hd, hr'⟩ := hr.take_closing hname
  exact ⟨r', hok, hr', hd⟩

theorem leads_comment {c : String} (hc : ¬ commentEnd <:+: c.toList) (rest : List Char)
    (o : Outline) : Leads ('<' :: '!' :: '-' :: '-' :: c.toList ++ ['-', '-', '>']) rest o
      (o.add (.leaf (.comment c))) := by
  have hcontains : contains commentEnd c.toList = false := by
    rw [contains, Option.isSome_eq_false_iff, Option.isNone_iff_eq_none,
      Option.eq_none_iff_forall_ne_some]
    rintro ⟨front, back⟩ h
    exact hc ⟨front, back, (eq_append_of_splitFirst? h).symm⟩
  refine .of_take (x := .comment c.toList) (by simpa [commentEnd] using read_comment hcontains rest)
    (by simp) fun r hr start stop => ?_
  refine ⟨_, rfl, ?_, ?_⟩
  · rw [String.ofList_toList]
    exact hr.attach _
  · exact declared_attach ..

theorem leads_text (s : String) (rest : List Char) (o : Outline) :
    Leads (escape s.toList) ('<' :: rest) o (o.addAll (Tree.ofText s)) := by
  unfold Tree.ofText
  split
  · rename_i h
    rw [h]
    exact .refl _ _
  · rename_i h
    have hne : escape s.toList ≠ [] := fun he => h (by simpa using escape_eq_nil_iff.1 he)
    refine .of_take (x := .text (escape s.toList)) (read_text hne (fun hc => ?_) rest) hne
      fun r hr start stop => ?_
    · exact absurd (isDelimiter_of_mem_escape hc) (by decide)
    · refine ⟨r.attach (.text s), ?_, hr.attach _, declared_attach ..⟩
      rw [take]
      simp [unescape_escape]

theorem Leads.behind {t : Tree Content} {u : Tree Content} {us ts : List (Tree Content)}
    {s : String} {rest : List Char} (hspelled : t.spelled.head? = some '<')
    (ht : ∀ w ws rest, Leads t.spelled rest (.inside w ws) ((Outline.inside w ws).add t.joined))
    (hts : ∀ w, Leads (escape "".toList ++ Tree.spelledAll ts) ('<' :: rest) (.inside w us)
      ((Outline.inside w us).addAll (Tree.joinedBehind "" ts))) :
    Leads (escape s.toList ++ (t.spelled ++ Tree.spelledAll ts)) ('<' :: rest) (.inside u us)
      ((Outline.inside u us).addAll (Tree.ofText s ++ t.joined :: Tree.joinedBehind "" ts)) := by
  have hfirst : Leads (escape s.toList) (t.spelled ++ Tree.spelledAll ts ++ '<' :: rest)
      (.inside u us) ((Outline.inside u us).addAll (Tree.ofText s)) := by
    obtain ⟨c, body, hbody⟩ := List.exists_cons_of_ne_nil (l := t.spelled) (by
      rintro he
      simp [he] at hspelled)
    obtain rfl : c = '<' := by simpa [hbody] using hspelled
    rw [hbody]
    exact leads_text _ _ _
  rw [Outline.addAll_append]
  refine hfirst.trans ?_
  rw [Outline.addAll_inside]
  exact (ht _ us _).trans (hts _)

theorem leads_spelledAll {ts : List (Tree Content)} (hp : ∀ t ∈ ts, t.label.Legible)
    (helements : ∀ e us, Tree.node (.element e) us ∈ ts → ∀ w ws rest,
      Leads (Tree.spelled (.node (.element e) us)) rest (.inside w ws)
        ((Outline.inside w ws).add (Tree.joined (.node (.element e) us))))
    (s : String) (u : Tree Content) (us : List (Tree Content)) (rest : List Char) :
    Leads (escape s.toList ++ Tree.spelledAll ts) ('<' :: rest) (.inside u us)
      ((Outline.inside u us).addAll (Tree.joinedBehind s ts)) := by
  -- `s` is the text that waits, so a text only makes it longer and anything else hands it over.
  induction ts generalizing s u with
  | nil =>
    rw [Tree.spelledAll, List.append_nil, Tree.joinedBehind]
    exact leads_text _ _ _
  | cons t ts ih =>
    have hps : ∀ t ∈ ts, t.label.Legible := fun t ht => hp t (by simp [ht])
    have hes := fun e us he => helements e us (List.mem_cons_of_mem t he)
    obtain ⟨c, vs⟩ := t
    rw [Tree.spelledAll]
    cases c with
    | text s' =>
      have h := ih hps hes (s ++ s') u
      rw [String.toList_append, escape_append, List.append_assoc] at h
      rwa [Tree.spelled, Tree.joinedBehind]
    | comment c =>
      rw [Tree.joinedBehind]
      refine Leads.behind (t := .node (.comment c) vs) ?_ (fun w ws rest => ?_)
        fun w => ih hps hes "" w
      · rw [Tree.spelled]
        rfl
      · rw [Tree.spelled, Tree.joined]
        exact leads_comment (hp _ List.mem_cons_self) rest _
    | element e =>
      rw [Tree.joinedBehind, ← Tree.joined]
      refine Leads.behind ?_ (helements e vs List.mem_cons_self) fun w => ih hps hes "" w
      cases vs with
      | nil =>
        rw [Tree.spelled]
        rfl
      | cons v vs =>
        rw [Tree.spelled]
        rfl

theorem leads_legible {t : Tree Content} (hp : t.Legible) {e : Element}
    {ts : List (Tree Content)} (ht : t = .node (.element e) ts) {o : Outline}
    (ho : o.isWhole = false) (rest : List Char) : Leads t.spelled rest o
      ((o.opened (.element e)).addAll (Tree.joinedBehind "" ts)).closed := by
  induction t using Tree.induct generalizing e ts o rest with
  | node c us ih =>
    obtain ⟨rfl, rfl⟩ : c = .element e ∧ us = ts := by simpa using ht
    have he : LegibleTag e := hp (.node (.element e) us) (by simp)
    obtain ⟨outer, hopened⟩ := Outline.opened_eq_inside ho (.element e)
    by_cases hus : us = []
    · rw [hus, Tree.spelled, Tree.joinedBehind]
      exact leads_empty he ho rest
    · have hbelow : ∀ t ∈ us, t.Legible := fun t ht v hv => hp v (by
        rw [Tree.subtrees_node]
        exact List.mem_cons_of_mem _ (List.mem_flatMap.2 ⟨t, ht, hv⟩))
      have hall := leads_spelledAll (fun t ht => hbelow t ht t (by cases t; simp))
        (fun e' us' ht w ws rest => by
          rw [Tree.joined, ← Outline.closed_addAll_opened]
          exact ih _ ht (hbelow _ ht) rfl rfl rest)
        "" (.leaf (.element e)) outer ('/' :: e.name.toList ++ ['>'] ++ rest)
      have hclosing := leads_closing he (Tree.joinedBehind "" us) outer rest
      rw [Outline.addAll_leaf] at hall
      rw [Tree.spelled_element_cons e hus, hopened, Outline.addAll_leaf]
      have hopening := leads_opening he ho
        (Tree.spelledAll us ++ ('<' :: '/' :: e.name.toList ++ ['>']) ++ rest)
      rw [hopened] at hopening
      have h := hopening.trans (Leads.trans (by simpa using hall) hclosing)
      simpa using h

theorem leads_spelled {t : Tree Content} (hp : t.Plain) {e : Element} {ts : List (Tree Content)}
    (ht : t = .node (.element e) ts) {o : Outline} (ho : o.isWhole = false) (rest : List Char) :
    Leads t.spelled rest o ((o.opened (.element e)).addAll (Tree.joinedBehind "" ts)).closed :=
  leads_legible hp.legible ht ho rest

theorem through_declaration (rest : List Char) :
    ∃ place, through {} 0 (declarationText.toList ++ '<' :: rest) =
      through { declared := true } place ('<' :: rest) := by
  have hx : Construct.read (declarationText.toList ++ '<' :: rest) =
      .ok (.instruction "xml version=\"1.0\" encoding=\"UTF-8\"".toList, '\n' :: '<' :: rest) := rfl
  have hy : Construct.read (['\n'] ++ '<' :: rest) = .ok (.text ['\n'], '<' :: rest) :=
    read_text (by simp) (by decide) rest
  have hdeclaration : isDeclaration "xml version=\"1.0\" encoding=\"UTF-8\"".toList = true := rfl
  have hbreak : unescape ['\n'] = .ok ['\n'] := unescape_escape ['\n']
  obtain ⟨start, stop, h₁⟩ := through_read hx (by simp [declarationText]) {} 0
  obtain ⟨start', stop', h₂⟩ := through_read hy (by simp) { declared := true } stop
  refine ⟨stop', ?_⟩
  rw [h₁, take, hdeclaration]
  refine h₂.trans ?_
  rw [take]
  simp only [hbreak]
  rfl

end Reading

/-- A drawing whose root is an element is written in memory, and what is written can be read and shows the
same tree with its texts joined. -/
theorem read_write {d : Drawing} {e : Element} {ts : List (Tree Content)}
    (hd : d.Shows (.node (.element e) ts)) (hp : Tree.Plain (.node (.element e) ts)) :
    ∃ source d', d.writeTo .memory = .ok source ∧ read source = .ok d' ∧ d'.declared = d.declared ∧
      d'.Shows (Tree.joined (.node (.element e) ts)) := by
  obtain ⟨s, hs⟩ : ∃ s, Tree.spelled (.node (.element e) ts) = '<' :: s := by
    cases ts with
    | nil => exact ⟨_, by rw [Tree.spelled]; rfl⟩
    | cons t ts => exact ⟨_, by rw [Tree.spelled]; rfl⟩
  -- the first character is no byte order mark, with the declaration or without it
  obtain ⟨place, hread⟩ : ∃ place, read d.write =
      Reading.through { declared := d.declared } place ('<' :: s) >>= (·.finish) := by
    rw [write_of_shows hd, hs, read, String.toList_append, String.toList_ofList]
    cases d.declared with
    | false => exact ⟨0, rfl⟩
    | true =>
      obtain ⟨place, hplace⟩ := Reading.through_declaration s
      exact ⟨place, by rw [← hplace]; rfl⟩
  have hblank : Reading.Draws { declared := d.declared } .blank := ⟨rfl, rfl⟩
  obtain ⟨r, place', hr, hdeclared, hthrough⟩ :=
    Reading.leads_spelled hp rfl rfl [] _ place hblank
  rw [Outline.opened, Outline.addAll_leaf, Outline.closed] at hr
  obtain ⟨d', hfinish, hd', hshows⟩ := hr.finish_whole
  refine ⟨d.write, d', writeTo_memory d, ?_, hd'.trans hdeclared, hshows⟩
  rw [List.append_nil, hs] at hthrough
  rw [hread, hthrough, ← hfinish, Reading.through, constructs]
  rfl

/-- Every kind of string that is written otherwise than it is kept. -/
theorem read_write_strings :
    let e : Element := { name := "a", attributes := [("k", "<\"&'>")] }
    let d : Drawing :=
      { nodes := #[{ content := .element e, children := [1, 2, 3, 4] },
          { content := .text "]]>", parent := some 0 }, { content := .text "", parent := some 0 },
          { content := .text "\r&", parent := some 0 },
          { content := .comment "x-", parent := some 0 }],
        declared := true }
    ∃ source d', d.writeTo .memory = .ok source ∧ read source = .ok d' ∧ d'.declared = true ∧
      d'.Shows (.node (.element e) [.leaf (.text "]]>\r&"), .leaf (.comment "x-")]) := by
  intro e d
  have hshows : d.Shows (.node (.element e) [.leaf (.text "]]>"), .leaf (.text ""),
      .leaf (.text "\r&"), .leaf (.comment "x-")]) := by
    refine ⟨.node (0, .element e) [.leaf (1, .text "]]>"), .leaf (2, .text ""),
      .leaf (3, .text "\r&"), .leaf (4, .comment "x-")], ⟨.node rfl fun b hb => ?_, rfl, ?_⟩, ?_⟩
    · simp only [List.mem_cons, List.not_mem_nil, or_false] at hb
      rcases hb with rfl | rfl | rfl | rfl <;> exact .node rfl nofun
    · simp [Tree.leaf]
    · simp [Tree.leaf]
  have hplain : Tree.Plain (.node (.element e) [.leaf (.text "]]>"), .leaf (.text ""),
      .leaf (.text "\r&"), .leaf (.comment "x-")]) := by
    intro u hu
    simp only [Tree.leaf, Tree.subtrees_node, List.flatMap_cons, List.flatMap_nil, List.append_nil,
      List.cons_append, List.nil_append, List.mem_cons, List.not_mem_nil, or_false] at hu
    rcases hu with rfl | rfl | rfl | rfl | rfl
    · refine ⟨by decide, fun a ha => ?_, by decide⟩
      obtain rfl := List.mem_singleton.1 ha
      decide
    · trivial
    · trivial
    · trivial
    · change ¬ commentEnd <:+: "x-".toList
      decide
  have hjoined : Tree.joined (.node (.element e) [.leaf (.text "]]>"), .leaf (.text ""),
      .leaf (.text "\r&"), .leaf (.comment "x-")]) =
        .node (.element e) [.leaf (.text "]]>\r&"), .leaf (.comment "x-")] := by
    simp [Tree.leaf, Tree.joined, Tree.joinedBehind, Tree.ofText]
  obtain ⟨source, d', hwritten, hok, hd, hs⟩ := read_write hshows hplain
  exact ⟨source, d', hwritten, hok, hd, hjoined ▸ hs⟩

end Drawing

end FormulaDrawing
