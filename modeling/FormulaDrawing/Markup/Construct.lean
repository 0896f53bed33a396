import FormulaDrawing.Text.Blank
import FormulaDrawing.Text.Pieces

/-! The constructs that markup is made of, in the order in which they are written. Each keeps all of
its characters, so the constructs of a source, put together again, are the source. -/

namespace FormulaDrawing.Markup

inductive Construct where
  | text (raw : List Char)
  | opening (tag : List Char)
  | empty (tag : List Char)
  | closing (tag : List Char)
  | comment (content : List Char)
  | verbatim (content : List Char)
  | instruction (content : List Char)
  | doctype (content : List Char)
deriving DecidableEq, Repr

def commentEnd : List Char := ['-', '-', '>']

def verbatimWord : List Char := ['C', 'D', 'A', 'T', 'A', '[']

def verbatimEnd : List Char := [']', ']', '>']

def Construct.written : Construct → List Char
  | text raw => raw
  | opening tag => '<' :: tag ++ ['>']
  | empty tag => '<' :: tag ++ ['/', '>']
  | closing tag => '<' :: '/' :: tag ++ ['>']
  | comment content => '<' :: '!' :: '-' :: '-' :: content ++ commentEnd
  | verbatim content => '<' :: '!' :: '[' :: verbatimWord ++ content ++ verbatimEnd
  | instruction content => '<' :: '?' :: content ++ ['?', '>']
  | doctype content => '<' :: '!' :: content ++ ['>']

inductive ConstructFault where
  | tag
  | comment
  | verbatim
  | doctype
  | doctypeName
  | instruction
  | symbol
deriving DecidableEq, Repr

def ConstructFault.message : ConstructFault → String
  | .tag => "syntax error: tag not closed: `>` not found before end of input"
  | .comment => "syntax error: comment not closed: `-->` not found before end of input"
  | .verbatim => "syntax error: CDATA not closed: `]]>` not found before end of input"
  | .doctype => "syntax error: DOCTYPE not closed: `>` not found before end of input"
  | .doctypeName =>
    "ill-formed document: `<!DOCTYPE>` declaration does not contain a name of a document type"
  | .instruction =>
    "syntax error: processing instruction or xml declaration not closed: `?>` not found before end of input"
  | .symbol => "syntax error: unknown or missed symbol in markup"

/-- The characters before the first `>` that is not inside quotes, and those behind it. -/
def tagEnd? (quote : Option Char) : List Char → Option (List Char × List Char)
  | [] => none
  | c :: s =>
    let within := match quote with
      | some q => if c = q then none else some q
      | none => if c = '"' ∨ c = '\'' then some c else none
    if quote = none ∧ c = '>' then some ([], s)
    else (tagEnd? within s).map fun (tag, rest) => (c :: tag, rest)

/-- The same for a DOCTYPE, where `<` and `>` come in pairs. -/
def doctypeEnd? (depth : Nat) : List Char → Option (List Char × List Char)
  | [] => none
  | '>' :: s =>
    match depth with
    | 0 => some ([], s)
    | d + 1 => (doctypeEnd? d s).map fun (content, rest) => ('>' :: content, rest)
  | c :: s =>
    (doctypeEnd? (if c = '<' then depth + 1 else depth) s).map fun (content, rest) =>
      (c :: content, rest)

/-- The word DOCTYPE in any case, and a name. -/
def doctypeFault? (content : List Char) : Option ConstructFault :=
  if (content.take 7).map Char.toLower ≠ "doctype".toList then some .doctype
  else if (content.drop 7).all Text.isGap then some .doctypeName
  else none

/-- A tag is empty when it ends in a slash. -/
def tagConstruct (tag : List Char) : Construct :=
  match Text.before? ['/'] tag with
  | some front => .empty front
  | none => .opening tag

/-- A fault is at the first character of the construct, or so many bytes behind it. -/
abbrev Read := Except (ConstructFault × Nat) (Construct × List Char)

def finish (fault : ConstructFault) (make : List Char → Construct) :
    Option (List Char × List Char) → Read
  | some (content, rest) => .ok (make content, rest)
  | none => .error (fault, 0)

/-- After `<!`, where the word is neither that of a comment nor of a verbatim section. -/
def readDoctype (s : List Char) : Read :=
  if s.head? = some 'D' ∨ s.head? = some 'd' then
    match doctypeEnd? 0 s with
    | none => .error (.doctype, 0)
    | some (content, rest) =>
      match doctypeFault? content with
      | some .doctypeName => .error (.doctypeName, 2 + Text.byteLength content)
      | some fault => .error (fault, 0)
      | none => .ok (.doctype content, rest)
  else .error (.symbol, 0)

def readDeclaration : List Char → Read
  | '-' :: s => finish .comment .comment ((Text.after? ['-'] s).bind (Text.splitFirst? commentEnd))
  | '[' :: s =>
    finish .verbatim .verbatim ((Text.after? verbatimWord s).bind (Text.splitFirst? verbatimEnd))
  | s => readDoctype s

/-- After `<?`: a `>` there does not close. -/
def readInstruction (s : List Char) : Read :=
  if s.head? = some '>' then .error (.instruction, 0)
  else finish .instruction .instruction (Text.splitFirst? ['?', '>'] s)

def readMarkup : List Char → Read
  | '!' :: s => readDeclaration s
  | '?' :: s => readInstruction s
  | '/' :: s => finish .tag .closing (tagEnd? none s)
  | s => finish .tag tagConstruct (tagEnd? none s)

def Construct.read : List Char → Read
  | '<' :: s => readMarkup s
  | s => .ok (.text (s.takeWhile (· != '<')), s.dropWhile (· != '<'))

theorem tagEnd?_append {quote : Option Char} {s tag rest : List Char}
    (h : tagEnd? quote s = some (tag, rest)) : tag ++ '>' :: rest = s := by
  induction s generalizing quote tag with
  | nil => simp [tagEnd?] at h
  | cons c s ih =>
    simp only [tagEnd?] at h
    split at h
    · rename_i hc
      obtain ⟨rfl, rfl⟩ := by simpa using h
      simp [hc.2]
    · obtain ⟨⟨t, r⟩, hs, he⟩ := Option.map_eq_some_iff.1 h
      obtain ⟨rfl, rfl⟩ := by simpa using he
      simp [ih hs]

theorem doctypeEnd?_append {depth : Nat} {s content rest : List Char}
    (h : doctypeEnd? depth s = some (content, rest)) : content ++ '>' :: rest = s := by
  induction s generalizing depth content with
  | nil => simp [doctypeEnd?] at h
  | cons c s ih =>
    unfold doctypeEnd? at h
    split at h
    · simp at h
    · rename_i he
      obtain ⟨rfl, rfl⟩ := List.cons.inj he
      split at h
      · obtain ⟨rfl, rfl⟩ := by simpa using h
        simp
      · obtain ⟨⟨t, r⟩, hs, hn⟩ := Option.map_eq_some_iff.1 h
        obtain ⟨rfl, rfl⟩ := by simpa using hn
        simp [ih hs]
    · rename_i he
      obtain ⟨rfl, rfl⟩ := List.cons.inj he
      obtain ⟨⟨t, r⟩, hs, hn⟩ := Option.map_eq_some_iff.1 h
      obtain ⟨rfl, rfl⟩ := by simpa using hn
      simp [ih hs]

theorem written_tagConstruct (tag : List Char) :
    (tagConstruct tag).written = '<' :: tag ++ ['>'] := by
  unfold tagConstruct
  split
  · rename_i front h
    rw [Text.before?_eq_some_iff.1 h]
    simp [Construct.written]
  · rfl

theorem finish_eq_ok {fault : ConstructFault} {make : List Char → Construct}
    {found : Option (List Char × List Char)} {c : Construct} {rest : List Char}
    (h : finish fault make found = .ok (c, rest)) :
    ∃ content, found = some (content, rest) ∧ c = make content := by
  cases found with
  | none => simp [finish] at h
  | some p =>
    obtain ⟨rfl, rfl⟩ := by simpa [finish] using h
    exact ⟨p.1, rfl, rfl⟩

/-- A construct that was read behind `<` is written with `<` and what was read. -/
def Follows (s : List Char) (c : Construct) (rest : List Char) : Prop :=
  ∃ w, c.written = '<' :: w ∧ w ++ rest = s

theorem follows_readDoctype {s rest : List Char} {c : Construct}
    (h : readDoctype s = .ok (c, rest)) : Follows ('!' :: s) c rest := by
  unfold readDoctype at h
  split at h
  · split at h
    · simp at h
    · rename_i content r hs
      split at h
      · simp at h
      · simp at h
      · obtain ⟨rfl, rfl⟩ := by simpa using h
        exact ⟨_, rfl, by simp [← doctypeEnd?_append hs]⟩
  · simp at h

theorem follows_readDeclaration {s rest : List Char} {c : Construct}
    (h : readDeclaration s = .ok (c, rest)) : Follows ('!' :: s) c rest := by
  unfold readDeclaration at h
  split at h
  · obtain ⟨content, hs, rfl⟩ := finish_eq_ok h
    obtain ⟨u, hu, hc⟩ := Option.bind_eq_some_iff.1 hs
    rw [Text.after?_eq_some_iff.1 hu, Text.eq_append_of_splitFirst? hc]
    exact ⟨_, rfl, by simp⟩
  · obtain ⟨content, hs, rfl⟩ := finish_eq_ok h
    obtain ⟨u, hu, hc⟩ := Option.bind_eq_some_iff.1 hs
    rw [Text.after?_eq_some_iff.1 hu, Text.eq_append_of_splitFirst? hc]
    exact ⟨_, rfl, by simp⟩
  · exact follows_readDoctype h

theorem follows_readMarkup {s rest : List Char} {c : Construct}
    (h : readMarkup s = .ok (c, rest)) : Follows s c rest := by
  unfold readMarkup at h
  split at h
  · exact follows_readDeclaration h
  · unfold readInstruction at h
    split at h
    · simp at h
    · obtain ⟨content, hs, rfl⟩ := finish_eq_ok h
      exact ⟨_, rfl, by simp [Text.eq_append_of_splitFirst? hs]⟩
  · obtain ⟨content, hs, rfl⟩ := finish_eq_ok h
    exact ⟨_, rfl, by simp [← tagEnd?_append hs]⟩
  · obtain ⟨content, hs, rfl⟩ := finish_eq_ok h
    exact ⟨_, written_tagConstruct content, by simp [← tagEnd?_append hs]⟩

theorem Construct.read_append {s rest : List Char} {c : Construct}
    (h : Construct.read s = .ok (c, rest)) : c.written ++ rest = s := by
  unfold Construct.read at h
  split at h
  · obtain ⟨w, hw, hs⟩ := follows_readMarkup h
    simp [hw, hs]
  · obtain ⟨rfl, rfl⟩ := by simpa using h
    simp [Construct.written]

theorem Construct.written_ne_nil {a : Char} {s rest : List Char} {c : Construct}
    (h : Construct.read (a :: s) = .ok (c, rest)) : c.written ≠ [] := by
  unfold Construct.read at h
  split at h
  · obtain ⟨w, hw, -⟩ := follows_readMarkup h
    simp [hw]
  · rename_i hne
    have ha : a ≠ '<' := fun he => hne s (by rw [he])
    obtain ⟨rfl, -⟩ := by simpa using h
    simp [Construct.written, ha]

theorem Construct.length_lt_of_read {a : Char} {s rest : List Char} {c : Construct}
    (h : Construct.read (a :: s) = .ok (c, rest)) : rest.length < (a :: s).length := by
  rw [← Construct.read_append h, List.length_append]
  have := List.length_pos_iff.2 (Construct.written_ne_nil h)
  omega

structure Placed where
  construct : Construct
  start : Nat
  stop : Nat
deriving DecidableEq, Repr

/-- The constructs of `s`, which begins at byte `offset`. The last entry may be a fault with its
place. -/
def constructs (offset : Nat) (s : List Char) : List (Except (ConstructFault × Nat) Placed) :=
  match s with
  | [] => []
  | c :: t =>
    match _h : Construct.read (c :: t) with
    | .error (fault, further) => [.error (fault, offset + further)]
    | .ok (x, rest) =>
      let stop := offset + Text.byteLength x.written
      .ok ⟨x, offset, stop⟩ :: constructs stop rest
termination_by s.length
decreasing_by exact Construct.length_lt_of_read _h

end FormulaDrawing.Markup
