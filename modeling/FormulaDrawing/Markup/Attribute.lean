import FormulaDrawing.Markup.Entity
import FormulaDrawing.Text.Blank

/-! The attributes of a tag. A tag is the text between `<` and `>`: a name up to the first gap, then
attributes. Places are byte offsets into the tag. -/

namespace FormulaDrawing.Markup

open Text

inductive AttributeFault where
  | noEquals (place : Nat)
  | noValue (place : Nat)
  | noQuote (place : Nat)
  | unclosed (place : Nat) (quote : Char)
  | duplicate (place first : Nat)
  | value (name : String) (fault : EntityFault)
deriving DecidableEq, Repr

def AttributeFault.message : AttributeFault → String
  | .noEquals p =>
    s!"invalid attribute: position {p}: attribute key must be directly followed by `=` or space"
  | .noValue p => s!"invalid attribute: position {p}: `=` must be followed by an attribute value"
  | .noQuote p =>
    s!"invalid attribute: position {p}: attribute value must be enclosed in `\"` or `'`"
  | .unclosed p quote =>
    s!"invalid attribute: position {p}: missing closing quote `{quote}` in attribute value"
  | .duplicate p first =>
    s!"invalid attribute: position {p}: duplicated attribute, previous declaration at position {first}"
  | .value name fault => s!"invalid value for attribute '{name}': " ++ fault.message

/-- An attribute as it is written: its name and place, and the text between the quotes. -/
structure WrittenAttribute where
  name : List Char
  place : Nat
  raw : List Char

def isNameChar (c : Char) : Bool := !isGap c && c != '='

/-- The text before the closing quote, and what follows the quote. -/
def quoted? (q : Char) (s : List Char) : Option (List Char × List Char) :=
  match s.dropWhile (· != q) with
  | [] => none
  | _ :: rest => some (s.takeWhile (· != q), rest)

/-- The value after the equals sign, with its place behind it and the rest. -/
def readValue (p : Nat) (s : List Char) :
    Except AttributeFault (List Char × Nat × List Char) :=
  let start := p + (s.takeWhile isGap).length
  match s.dropWhile isGap with
  | [] => .error (.noValue start)
  | q :: t =>
    if q = '"' ∨ q = '\'' then
      match quoted? q t with
      | none => .error (.unclosed (start + 1 + byteLength t) q)
      | some (raw, rest) => .ok (raw, start + 2 + byteLength raw, rest)
    else .error (.noQuote start)

/-- The attribute whose name starts with `c` at place `p`. A name that has been read before is
reported before its value is looked at. -/
def readAttribute (seen : List WrittenAttribute) (p : Nat) (c : Char) (s : List Char) :
    Except AttributeFault (WrittenAttribute × Nat × List Char) :=
  let name := c :: s.takeWhile isNameChar
  let behind := s.dropWhile isNameChar
  let equals := p + byteLength name + (behind.takeWhile isGap).length
  match behind.dropWhile isGap with
  | '=' :: t =>
    match seen.find? (·.name == name) with
    | some first => .error (.duplicate p first.place)
    | none =>
      match readValue (equals + 1) t with
      | .error fault => .error fault
      | .ok (raw, next, rest) => .ok (⟨name, p, raw⟩, next, rest)
  | _ => .error (.noEquals equals)

theorem length_lt_of_quoted? {q : Char} {s raw rest : List Char}
    (h : quoted? q s = some (raw, rest)) : rest.length < s.length := by
  unfold quoted? at h
  have hle := (List.dropWhile_sublist (l := s) (· != q)).length_le
  split at h
  · simp at h
  · rename_i hd
    obtain ⟨-, rfl⟩ := by simpa using h
    rw [hd, List.length_cons] at hle
    omega

theorem length_lt_of_readValue {p next : Nat} {s raw rest : List Char}
    (h : readValue p s = .ok (raw, next, rest)) : rest.length < s.length := by
  have hle := (List.dropWhile_sublist (l := s) isGap).length_le
  unfold readValue at h
  simp only at h
  split at h
  · simp at h
  · rename_i q t hd
    rw [hd, List.length_cons] at hle
    split at h
    · split at h
      · simp at h
      · rename_i hq
        have := length_lt_of_quoted? hq
        obtain ⟨-, -, rfl⟩ := by simpa using h
        omega
    · simp at h

theorem length_lt_of_readAttribute {seen : List WrittenAttribute} {p next : Nat} {c : Char}
    {s rest : List Char} {a : WrittenAttribute}
    (h : readAttribute seen p c s = .ok (a, next, rest)) : rest.length < s.length := by
  have h1 := (List.dropWhile_sublist (l := s) isNameChar).length_le
  have h2 := (List.dropWhile_sublist (l := s.dropWhile isNameChar) isGap).length_le
  unfold readAttribute at h
  simp only at h
  split at h
  · rename_i t hd
    rw [hd, List.length_cons] at h2
    split at h
    · simp at h
    · split at h
      · simp at h
      · rename_i hv
        have := length_lt_of_readValue hv
        obtain ⟨-, -, rfl⟩ := by simpa using h
        omega
  · simp at h

/-- The attributes of `s`, which starts at place `p` of the tag, in order. -/
def attributesFrom (seen : List WrittenAttribute) (p : Nat) (s : List Char) :
    Except AttributeFault (List (String × String)) :=
  match s with
  | [] => .ok []
  | c :: t =>
    if isGap c then attributesFrom seen (p + 1) t
    else
      match _h : readAttribute seen p c t with
      | .error fault => .error fault
      | .ok (a, next, rest) =>
        let name := String.ofList a.name
        match unescape a.raw with
        | .error fault => .error (.value name fault)
        | .ok value => (attributesFrom (a :: seen) next rest).map ((name, String.ofList value) :: ·)
termination_by s.length
decreasing_by
  · simp
  · have := length_lt_of_readAttribute _h
    simp only [List.length_cons]
    omega

def tagName (tag : List Char) : List Char := tag.takeWhile (!isGap ·)

def tagAttributes (tag : List Char) : Except AttributeFault (List (String × String)) :=
  attributesFrom [] (byteLength (tagName tag)) (tag.dropWhile (!isGap ·))

end FormulaDrawing.Markup
