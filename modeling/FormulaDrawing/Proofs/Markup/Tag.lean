import FormulaDrawing.Drawing.Writing
import FormulaDrawing.Markup.Attribute
import FormulaDrawing.Markup.Construct
import FormulaDrawing.Proofs.Markup.Entity
import FormulaDrawing.Proofs.Text.Part

/-! Constructs read as they were written. Names have to be told from what stands around them in a tag;
values may hold anything, since they are quoted and none of their quotes is written as such. -/

namespace FormulaDrawing.Markup

open Text Drawing

/-- The characters that cannot stand in a name. -/
def endsName (c : Char) : Bool := isGap c || isDelimiter c || c == '=' || c == '/'

/-- Not empty, and neither a declaration nor an instruction behind `<`. -/
def isPlainName (name : List Char) : Bool :=
  name.all (!endsName ·) && name.head?.any fun c => c != '!' && c != '?'

/-- Behind `<`, neither a declaration nor an instruction nor an end tag. -/
def beginsTag (s : List Char) : Bool := s.head?.all fun c => c != '!' && c != '?' && c != '/'

/-- The name of a tag, as far as a reader checks it. -/
def isTagName (name : List Char) : Bool := name.all (!isGap ·) && beginsTag name

/-- The name of an attribute, as far as a reader checks it: only the first character can be `=`. -/
def isAttributeName : List Char → Bool
  | [] => false
  | c :: s => !isGap c && s.all isNameChar

/-- All names are plain and none is the name of two attributes. -/
structure PlainTag (e : Element) : Prop where
  name : isPlainName e.name.toList = true
  attributes : ∀ a ∈ e.attributes, isPlainName a.1.toList = true
  distinct : (e.attributes.map Prod.fst).Nodup

section Names

variable {name : List Char}

theorem endsName_of_mem (hn : isPlainName name = true) {c : Char} (hc : c ∈ name) :
    endsName c = false := by
  rw [isPlainName, Bool.and_eq_true] at hn
  simpa using List.all_eq_true.1 hn.1 c hc

theorem exists_cons_of_isPlainName (hn : isPlainName name = true) :
    ∃ c s, name = c :: s ∧ c ≠ '!' ∧ c ≠ '?' ∧ c ≠ '/' := by
  cases name with
  | nil => simp [isPlainName] at hn
  | cons c s =>
    have hc := endsName_of_mem hn List.mem_cons_self
    rw [isPlainName, Bool.and_eq_true] at hn
    refine ⟨c, s, rfl, ?_, ?_, ?_⟩
    · rintro rfl
      simp at hn
    · rintro rfl
      simp at hn
    · rintro rfl
      simp [endsName] at hc

theorem isGap_of_mem_name (hn : isPlainName name = true) {c : Char} (hc : c ∈ name) :
    isGap c = false := by
  have := endsName_of_mem hn hc
  simp only [endsName, Bool.or_eq_false_iff] at this
  exact this.1.1.1

theorem isDelimiter_of_mem_name (hn : isPlainName name = true) {c : Char} (hc : c ∈ name) :
    isDelimiter c = false := by
  have := endsName_of_mem hn hc
  simp only [endsName, Bool.or_eq_false_iff] at this
  exact this.1.1.2

theorem isNameChar_of_mem_name (hn : isPlainName name = true) {c : Char} (hc : c ∈ name) :
    isNameChar c = true := by
  have := endsName_of_mem hn hc
  simp only [endsName, Bool.or_eq_false_iff, beq_eq_false_iff_ne] at this
  simp [isNameChar, this.1.1.1, this.1.2]

theorem isTagName_of_isPlainName (hn : isPlainName name = true) : isTagName name = true := by
  obtain ⟨c, s, rfl, h1, h2, h3⟩ := exists_cons_of_isPlainName hn
  have hgaps : (c :: s).all (!isGap ·) = true := List.all_eq_true.2 fun x hx => by
    rw [isGap_of_mem_name hn hx]
    rfl
  rw [isTagName, hgaps, beginsTag]
  simp [h1, h2, h3]

theorem isAttributeName_of_isPlainName (hn : isPlainName name = true) :
    isAttributeName name = true := by
  obtain ⟨c, s, rfl, -⟩ := exists_cons_of_isPlainName hn
  have hall : s.all isNameChar = true := List.all_eq_true.2 fun x hx =>
    isNameChar_of_mem_name hn (List.mem_cons_of_mem c hx)
  rw [isAttributeName, isGap_of_mem_name hn List.mem_cons_self, hall]
  rfl

theorem isGap_of_mem_tagName (hn : isTagName name = true) {c : Char} (hc : c ∈ name) :
    isGap c = false := by
  rw [isTagName, Bool.and_eq_true] at hn
  simpa using List.all_eq_true.1 hn.1 c hc

theorem exists_cons_of_isAttributeName (hn : isAttributeName name = true) :
    ∃ c s, name = c :: s ∧ isGap c = false ∧ ∀ x ∈ s, isNameChar x = true := by
  cases name with
  | nil => cases hn
  | cons c s =>
    rw [isAttributeName, Bool.and_eq_true, Bool.not_eq_true', List.all_eq_true] at hn
    exact ⟨c, s, rfl, hn⟩

end Names

/-- A part of a tag in which every quote is closed and no `>` stands outside quotes: the search for
the end of the tag goes through it. -/
def Crossed (a : List Char) : Prop :=
  ∀ s, tagEnd? none (a ++ s) = (tagEnd? none s).map fun (tag, rest) => (a ++ tag, rest)

namespace Crossed

theorem nil : Crossed [] := fun s => by simp

theorem append {a b : List Char} (ha : Crossed a) (hb : Crossed b) : Crossed (a ++ b) := fun s => by
  rw [List.append_assoc, ha, hb, Option.map_map]
  simp [Function.comp_def]

theorem flatMap {α : Type} {f : α → List Char} {l : List α} (h : ∀ a ∈ l, Crossed (f a)) :
    Crossed (l.flatMap f) := by
  induction l with
  | nil => exact nil
  | cons a l ih =>
    rw [List.flatMap_cons]
    exact (h a (by simp)).append (ih fun b hb => h b (by simp [hb]))

theorem of_isDelimiter {a : List Char} (h : ∀ c ∈ a, isDelimiter c = false) : Crossed a := by
  induction a with
  | nil => exact nil
  | cons c a ih =>
    intro s
    have hc := h c (by simp)
    simp only [isDelimiter, Bool.or_eq_false_iff, beq_eq_false_iff_ne] at hc
    have ha := ih (fun x hx => h x (by simp [hx])) s
    simp [tagEnd?, hc, ha, Function.comp_def]

theorem quoted {a : List Char} (h : '"' ∉ a) : Crossed ('"' :: a ++ ['"']) := by
  have hinside : ∀ s, tagEnd? (some '"') (a ++ '"' :: s) =
      (tagEnd? none s).map fun (tag, rest) => (a ++ '"' :: tag, rest) := by
    intro s
    induction a with
    | nil => simp [tagEnd?]
    | cons c a ih =>
      rw [List.mem_cons, not_or] at h
      simp [tagEnd?, ih h.2, Ne.symm h.1, Function.comp_def]
  intro s
  simp [tagEnd?, hinside, Function.comp_def]

theorem tagEnd? {a : List Char} (ha : Crossed a) (rest : List Char) :
    tagEnd? none (a ++ '>' :: rest) = some (a, rest) := by
  rw [ha]
  simp [Markup.tagEnd?]

theorem of_tagEnd? {a : List Char} (h : Markup.tagEnd? none (a ++ ['>']) = some (a, [])) :
    Crossed a := by
  have hany : ∀ (quote : Option Char) (a : List Char),
      Markup.tagEnd? quote (a ++ ['>']) = some (a, []) → ∀ s, Markup.tagEnd? quote (a ++ s) =
        (Markup.tagEnd? none s).map fun (tag, rest) => (a ++ tag, rest) := by
    intro quote a
    induction a generalizing quote with
    | nil =>
      intro h s
      cases quote with
      | none => simp
      | some q => simp [Markup.tagEnd?] at h
    | cons c a ih =>
      intro h s
      simp only [List.cons_append, Markup.tagEnd?] at h ⊢
      split at h
      · simp at h
      · rename_i hend
        obtain ⟨⟨tag, rest⟩, htag, hcons⟩ := Option.map_eq_some_iff.1 h
        obtain ⟨rfl, rfl⟩ : tag = a ∧ rest = [] := by simpa using hcons
        rw [if_neg hend, ih _ htag, Option.map_map]
        rfl
  exact hany none a h

end Crossed

theorem crossed_iff {a : List Char} :
    Crossed a ↔ tagEnd? none (a ++ ['>']) = some (a, []) :=
  ⟨fun h => h.tagEnd? [], .of_tagEnd?⟩

instance (a : List Char) : Decidable (Crossed a) := decidable_of_iff _ crossed_iff.symm

/-- What is sure of a tag that has been read. -/
structure ReadTag (e : Element) : Prop where
  name : isTagName e.name.toList = true
  attributes : ∀ a ∈ e.attributes, isAttributeName a.1.toList = true
  distinct : (e.attributes.map Prod.fst).Nodup

/-- What is not sure of it: the quotes in a name are closed there, and a name without attributes makes
neither an end tag nor an empty one. -/
structure ClearTag (e : Element) : Prop where
  name : Crossed e.name.toList
  attributes : ∀ a ∈ e.attributes, Crossed a.1.toList
  alone : e.attributes = [] → e.name ≠ "" ∧ ¬ ['/'] <:+ e.name.toList

theorem clearTag_iff {e : Element} : ClearTag e ↔ Crossed e.name.toList ∧
    (∀ a ∈ e.attributes, Crossed a.1.toList) ∧
      (e.attributes = [] → e.name ≠ "" ∧ ¬ ['/'] <:+ e.name.toList) :=
  ⟨fun h => ⟨h.name, h.attributes, h.alone⟩, fun h => ⟨h.1, h.2.1, h.2.2⟩⟩

instance (e : Element) : Decidable (ClearTag e) := decidable_of_iff _ clearTag_iff.symm

/-- The tag can be read again when it is written. -/
structure LegibleTag (e : Element) : Prop where
  read : ReadTag e
  clear : ClearTag e

theorem PlainTag.legible {e : Element} (he : PlainTag e) : LegibleTag e where
  read := ⟨isTagName_of_isPlainName he.name,
    fun a ha => isAttributeName_of_isPlainName (he.attributes a ha), he.distinct⟩
  clear.name := .of_isDelimiter fun _ hc => isDelimiter_of_mem_name he.name hc
  clear.attributes := fun a ha => .of_isDelimiter fun _ hc =>
    isDelimiter_of_mem_name (he.attributes a ha) hc
  clear.alone := fun _ => by
    obtain ⟨c, s, hname, -⟩ := exists_cons_of_isPlainName he.name
    refine ⟨fun hempty => by simp [hempty] at hname, fun hslash => ?_⟩
    have := endsName_of_mem he.name (hslash.subset List.mem_cons_self)
    simp [endsName] at this

theorem quote_not_mem_escape (s : List Char) : '"' ∉ escape s := fun h => by
  have := isDelimiter_of_mem_escape h
  simp [isDelimiter] at this

theorem attributeChars_eq (a : String × String) :
    attributeChars a = ' ' :: (a.1.toList ++ '=' :: '"' :: (escape a.2.toList ++ ['"'])) := by
  simp [attributeChars]

theorem crossed_attributeChars {a : String × String} (ha : Crossed a.1.toList) :
    Crossed (attributeChars a) := by
  have hgap : Crossed [' '] := .of_isDelimiter (by simp [isDelimiter])
  have hequals : Crossed ['='] := .of_isDelimiter (by simp [isDelimiter])
  have hv := ((hgap.append ha).append hequals).append (.quoted (quote_not_mem_escape a.2.toList))
  simpa [attributeChars_eq] using hv

section Tags

variable {e : Element}

theorem crossed_tagChars (he : ClearTag e) : Crossed (tagChars e) :=
  he.name.append (.flatMap fun a ha => crossed_attributeChars (he.attributes a ha))

theorem tagChars_ne_slash (he : ClearTag e) (front : List Char) : tagChars e ≠ front ++ ['/'] := by
  intro h
  rw [tagChars] at h
  rcases List.eq_nil_or_concat e.attributes with hnil | ⟨as, a, has⟩
  · rw [hnil, List.flatMap_nil, List.append_nil] at h
    exact (he.alone hnil).2 ⟨front, h.symm⟩
  · have hl := congrArg List.getLast? h
    rw [has, List.concat_eq_append, List.flatMap_append, List.flatMap_singleton, attributeChars,
      ← List.append_assoc, ← List.append_assoc, List.getLast?_append, List.getLast?_singleton,
      Option.some_or, List.getLast?_append, List.getLast?_singleton, Option.some_or] at hl
    simp at hl

theorem tagConstruct_tagChars (he : ClearTag e) :
    tagConstruct (tagChars e) = .opening (tagChars e) := by
  unfold tagConstruct
  split
  · rename_i front h
    exact absurd (before?_eq_some_iff.1 h) (tagChars_ne_slash he front)
  · rfl

theorem tagConstruct_slash (tag : List Char) : tagConstruct (tag ++ ['/']) = .empty tag := by
  have h : before? ['/'] (tag ++ ['/']) = some tag := before?_eq_some_iff.2 rfl
  rw [tagConstruct, h]

theorem readMarkup_tag {c : Char} {s : List Char} (h1 : c ≠ '!') (h2 : c ≠ '?') (h3 : c ≠ '/') :
    readMarkup (c :: s) = finish .tag tagConstruct (tagEnd? none (c :: s)) := by
  unfold readMarkup
  split
  · rename_i h
    exact absurd (List.cons.inj h).1 h1
  · rename_i h
    exact absurd (List.cons.inj h).1 h2
  · rename_i h
    exact absurd (List.cons.inj h).1 h3
  · rfl

theorem exists_cons_tagChars (he : LegibleTag e) :
    ∃ c s, tagChars e = c :: s ∧ c ≠ '!' ∧ c ≠ '?' ∧ c ≠ '/' := by
  obtain ⟨hread, hclear⟩ := he
  have hn := hread.name
  rw [isTagName, Bool.and_eq_true] at hn
  rw [tagChars]
  cases hname : e.name.toList with
  | nil =>
    obtain ⟨a, as, has⟩ := List.exists_cons_of_ne_nil fun hnil =>
      (hclear.alone hnil).1 (String.toList_eq_nil_iff.1 hname)
    exact ⟨' ', _, by rw [has, List.flatMap_cons, attributeChars_eq]; rfl, by decide⟩
  | cons c s =>
    have hc : c != '!' && c != '?' && c != '/' := by simpa [hname, beginsTag] using hn.2
    simp only [Bool.and_eq_true, bne_iff_ne, and_assoc] at hc
    exact ⟨c, _, rfl, hc⟩

theorem readMarkup_tagChars (he : LegibleTag e) (s : List Char) :
    readMarkup (tagChars e ++ s) = finish .tag tagConstruct (tagEnd? none (tagChars e ++ s)) := by
  obtain ⟨c, name, hn, h1, h2, h3⟩ := exists_cons_tagChars he
  rw [hn]
  exact readMarkup_tag h1 h2 h3

theorem read_opening (he : LegibleTag e) (rest : List Char) :
    Construct.read ('<' :: tagChars e ++ '>' :: rest) = .ok (.opening (tagChars e), rest) := by
  rw [List.cons_append, Construct.read, readMarkup_tagChars he, (crossed_tagChars he.clear).tagEnd?,
    finish, tagConstruct_tagChars he.clear]

theorem read_empty (he : LegibleTag e) (rest : List Char) :
    Construct.read ('<' :: tagChars e ++ '/' :: '>' :: rest) =
      .ok (.empty (tagChars e), rest) := by
  have hc : Crossed (tagChars e ++ ['/']) :=
    (crossed_tagChars he.clear).append (.of_isDelimiter (by simp [isDelimiter]))
  have ht := hc.tagEnd? rest
  rw [List.append_assoc, List.singleton_append] at ht
  rw [List.cons_append, Construct.read, readMarkup_tagChars he, ht, finish, tagConstruct_slash]

end Tags

theorem read_closing {name : List Char} (hn : Crossed name) (rest : List Char) :
    Construct.read ('<' :: '/' :: name ++ '>' :: rest) = .ok (.closing name, rest) := by
  rw [List.cons_append, List.cons_append, Construct.read, readMarkup, hn.tagEnd?, finish]

theorem splitFirst?_commentEnd {s : List Char} (hs : contains commentEnd s = false)
    (rest : List Char) : splitFirst? commentEnd (s ++ commentEnd ++ rest) = some (s, rest) := by
  have hnot : ¬ commentEnd <:+: s := by
    rw [← contains_eq_true_iff, hs]
    exact Bool.false_ne_true
  have hborder : ∀ a ∈ commentEnd.inits, commentEnd.drop a.length <+: commentEnd.dropLast →
      a = commentEnd := by decide
  refine splitFirst?_append (fun hi => ?_) rest
  rcases infix_append_cases hi with hi | hi | ⟨a, b, hab, ha, hb⟩
  · exact hnot hi
  · exact absurd hi.length_le (by decide)
  · have hrest : commentEnd.drop a.length = b := by rw [hab, List.drop_left]
    have hinit : a ∈ commentEnd.inits := (List.mem_inits _ _).2 ⟨b, hab.symm⟩
    obtain rfl := hborder a hinit (hrest ▸ hb)
    exact hnot ha.isInfix

theorem read_comment {s : List Char} (hs : contains commentEnd s = false) (rest : List Char) :
    Construct.read ('<' :: '!' :: '-' :: '-' :: s ++ commentEnd ++ rest) =
      .ok (.comment s, rest) := by
  have h : (after? ['-'] ('-' :: s ++ commentEnd ++ rest)).bind (splitFirst? commentEnd) =
      some (s, rest) := by
    rw [← splitFirst?_commentEnd hs rest]
    rfl
  exact congrArg (finish .comment .comment) h

theorem read_text {raw : List Char} (hne : raw ≠ []) (hraw : '<' ∉ raw) (rest : List Char) :
    Construct.read (raw ++ '<' :: rest) = .ok (.text raw, '<' :: rest) := by
  have hall : ∀ c ∈ raw, (c != '<') = true := fun c hc => by
    rw [bne_iff_ne]
    rintro rfl
    exact hraw hc
  unfold Construct.read
  split
  · rename_i s hs
    obtain ⟨c, raw, rfl⟩ := List.exists_cons_of_ne_nil hne
    rw [List.cons_append, List.cons.injEq] at hs
    exact absurd hs.1.symm (fun h => hraw (h ▸ List.mem_cons_self))
  · rw [List.takeWhile_append_of_pos hall, List.dropWhile_append_of_pos hall]
    simp

theorem quoted?_escape (v rest : List Char) :
    quoted? '"' (escape v ++ '"' :: rest) = some (escape v, rest) := by
  have hall : ∀ c ∈ escape v, (c != '"') = true := fun c hc => by
    rw [bne_iff_ne]
    rintro rfl
    exact quote_not_mem_escape v hc
  rw [quoted?, List.dropWhile_append_of_pos hall, List.takeWhile_append_of_pos hall]
  simp

theorem readAttribute_written {seen : List WrittenAttribute} {v s : List Char} {c : Char}
    (hn : ∀ x ∈ s, isNameChar x = true) (hseen : ∀ w ∈ seen, w.name ≠ c :: s) (p : Nat)
    (rest : List Char) :
    ∃ next, readAttribute seen p c (s ++ '=' :: '"' :: (escape v ++ '"' :: rest)) =
      .ok (⟨c :: s, p, escape v⟩, next, rest) := by
  have htake : (s ++ '=' :: '"' :: (escape v ++ '"' :: rest)).takeWhile isNameChar = s := by
    rw [List.takeWhile_append_of_pos hn]
    simp [isNameChar]
  have hdrop : (s ++ '=' :: '"' :: (escape v ++ '"' :: rest)).dropWhile isNameChar =
      '=' :: '"' :: (escape v ++ '"' :: rest) := by
    rw [List.dropWhile_append_of_pos hn]
    simp [isNameChar]
  have hfind : seen.find? (·.name == c :: s) = none := by
    rw [List.find?_eq_none]
    intro w hw
    simpa using hseen w hw
  simp [readAttribute, htake, hdrop, isGap, hfind, readValue, quoted?_escape]

theorem attributesFrom_gap {c : Char} (hc : isGap c = true) (seen : List WrittenAttribute) (p : Nat)
    (s : List Char) : attributesFrom seen p (c :: s) = attributesFrom seen (p + 1) s := by
  rw [attributesFrom, if_pos hc]

theorem attributesFrom_cons {c : Char} {s rest value : List Char} {seen : List WrittenAttribute}
    {p next : Nat} {a : WrittenAttribute} (hc : isGap c = false)
    (ha : readAttribute seen p c s = .ok (a, next, rest)) (hv : unescape a.raw = .ok value) :
    attributesFrom seen p (c :: s) =
      (attributesFrom (a :: seen) next rest).map
        ((String.ofList a.name, String.ofList value) :: ·) := by
  rw [attributesFrom, if_neg (by simp [hc])]
  split
  · rename_i h
    simp [ha] at h
  · rename_i h
    obtain ⟨rfl, rfl, rfl⟩ : a = _ ∧ next = _ ∧ rest = _ := by simpa [ha] using h
    simp only [hv]

theorem attributesFrom_written {as : List (String × String)}
    (hn : ∀ a ∈ as, isAttributeName a.1.toList = true) (hd : (as.map Prod.fst).Nodup)
    (seen : List WrittenAttribute) (hs : ∀ w ∈ seen, ∀ a ∈ as, w.name ≠ a.1.toList) (p : Nat) :
    attributesFrom seen p (as.flatMap attributeChars) = .ok as := by
  induction as generalizing seen p with
  | nil => rw [List.flatMap_nil, attributesFrom]
  | cons a as ih =>
    obtain ⟨name, v⟩ := a
    obtain ⟨c, s, hc, hgap, hchars⟩ := exists_cons_of_isAttributeName (hn (name, v) (by simp))
    have hname : name.toList = c :: s := hc
    obtain ⟨next, hread⟩ := readAttribute_written (v := v.toList) hchars
      (fun w hw => hname ▸ hs w hw (name, v) (by simp)) (p + 1) (as.flatMap attributeChars)
    rw [List.map_cons, List.nodup_cons] at hd
    have hseen : ∀ w ∈ ⟨c :: s, p + 1, escape v.toList⟩ :: seen, ∀ b ∈ as,
        w.name ≠ b.1.toList := by
      intro w hw b hb
      rcases List.mem_cons.1 hw with rfl | hw
      · intro he
        exact hd.1 (List.mem_map.2 ⟨b, hb, (String.toList_inj.1 (hname.trans he)).symm⟩)
      · exact hs w hw b (by simp [hb])
    have hrest := ih (fun b hb => hn b (by simp [hb])) hd.2 _ hseen next
    rw [List.flatMap_cons, attributeChars_eq, List.cons_append, attributesFrom_gap rfl, hname,
      List.cons_append, List.cons_append, List.append_assoc, List.cons_append, List.cons_append,
      List.append_assoc, List.singleton_append,
      attributesFrom_cons hgap hread (unescape_escape v.toList), hrest]
    simp [Except.map, ← hname]

theorem tagName_tagChars {e : Element} (he : ReadTag e) : tagName (tagChars e) = e.name.toList := by
  have hall : ∀ c ∈ e.name.toList, (!isGap c) = true := fun c hc => by
    rw [isGap_of_mem_tagName he.name hc]
    rfl
  rw [tagName, tagChars, List.takeWhile_append_of_pos hall]
  cases e.attributes with
  | nil => simp
  | cons a as => simp [attributeChars_eq, isGap]

theorem tagAttributes_tagChars {e : Element} (he : ReadTag e) :
    tagAttributes (tagChars e) = .ok e.attributes := by
  have hall : ∀ c ∈ e.name.toList, (!isGap c) = true := fun c hc => by
    rw [isGap_of_mem_tagName he.name hc]
    rfl
  have hdrop : (tagChars e).dropWhile (!isGap ·) = e.attributes.flatMap attributeChars := by
    rw [tagChars, List.dropWhile_append_of_pos hall]
    cases e.attributes with
    | nil => rfl
    | cons a as => simp [attributeChars_eq, isGap]
  rw [tagAttributes, hdrop]
  exact attributesFrom_written he.attributes he.distinct [] (by simp) _

end FormulaDrawing.Markup
