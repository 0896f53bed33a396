import FormulaDrawing.Text.Pieces

/-! Characters written as entities. Writing replaces the five characters with a meaning of their own;
reading also takes references by number. -/

namespace FormulaDrawing.Markup

def escapeChar : Char → List Char
  | '&' => "&amp;".toList
  | '<' => "&lt;".toList
  | '>' => "&gt;".toList
  | '"' => "&quot;".toList
  | '\'' => "&apos;".toList
  | c => [c]

def escape (s : List Char) : List Char := s.flatMap escapeChar

/-- Why a reference cannot be read. Places are byte offsets into the text that holds it. -/
inductive EntityFault where
  | unknown (start stop : Nat) (name : List Char)
  /-- No semicolon before the next ampersand or the end. -/
  | unterminated (start stop : Nat)
  | badDigit
  | noDigits
  | tooLarge
  | sign
  | notACharacter (code : Nat)
  | zero
deriving DecidableEq, Repr

def EntityFault.message : EntityFault → String
  | .unknown start stop name =>
    s!"at {start}..{stop}: unrecognized entity `{String.ofList name}`"
  | .unterminated start stop =>
    s!"Error while escaping character at range {start}..{stop}: Cannot find ';' after '&'"
  | .badDigit => "invalid character reference: invalid digit found in string"
  | .noDigits => "invalid character reference: cannot parse integer from empty string"
  | .tooLarge => "invalid character reference: number too large to fit in target type"
  | .sign => "invalid character reference: unexpected number sign"
  | .notACharacter code => s!"invalid character reference: `{code}` is not a valid codepoint"
  | .zero => "invalid character reference: 0x0 character is not permitted in XML"

def digitValue? (radix : Nat) (c : Char) : Option Nat :=
  let n := c.toNat
  let d :=
    if '0' ≤ c ∧ c ≤ '9' then n - '0'.toNat
    else if 'a' ≤ c ∧ c ≤ 'z' then n - 'a'.toNat + 10
    else if 'A' ≤ c ∧ c ≤ 'Z' then n - 'A'.toNat + 10
    else radix
  if d < radix then some d else none

/-- A number of 32 bits, read from left to right. -/
def codeFrom (radix value : Nat) : List Char → Except EntityFault Nat
  | [] => .ok value
  | c :: s =>
    match digitValue? radix c with
    | none => .error .badDigit
    | some d =>
      let next := value * radix + d
      if next < 0x100000000 then codeFrom radix next s else .error .tooLarge

def code (radix : Nat) : List Char → Except EntityFault Nat
  | [] => .error .noDigits
  | c :: s => if c = '+' ∨ c = '-' then .error .sign else codeFrom radix 0 (c :: s)

def ofCode (n : Nat) : Except EntityFault Char :=
  if n = 0 then .error .zero
  else if n.isValidChar then .ok (Char.ofNat n)
  else .error (.notACharacter n)

def character (start : Nat) (name : List Char) : Except EntityFault Char :=
  match name with
  | '#' :: 'x' :: digits => code 16 digits >>= ofCode
  | '#' :: digits => code 10 digits >>= ofCode
  | _ =>
    if name = "amp".toList then .ok '&'
    else if name = "lt".toList then .ok '<'
    else if name = "gt".toList then .ok '>'
    else if name = "quot".toList then .ok '"'
    else if name = "apos".toList then .ok '\''
    else .error (.unknown start (start + Text.byteLength name) name)

/-- The name in front of the next semicolon, unless an ampersand comes first. -/
def entityName? : List Char → Option (List Char × List Char)
  | [] => none
  | ';' :: s => some ([], s)
  | '&' :: _ => none
  | c :: s => (entityName? s).map fun (name, rest) => (c :: name, rest)

theorem entityName?_append {s name rest : List Char} (h : entityName? s = some (name, rest)) :
    name ++ ';' :: rest = s := by
  induction s generalizing name with
  | nil => simp [entityName?] at h
  | cons c s ih =>
    unfold entityName? at h
    split at h
    · simp at h
    · rename_i he
      obtain ⟨rfl, rfl⟩ := by simpa using h
      simpa using he.symm
    · simp at h
    · rename_i c' s' _ _ he
      obtain ⟨rfl, rfl⟩ := List.cons.inj he
      obtain ⟨⟨n, r⟩, hs, hn⟩ := Option.map_eq_some_iff.1 h
      obtain ⟨rfl, rfl⟩ := by simpa using hn
      simp [ih hs]

/-- The text with every reference replaced; `s` begins at byte `offset` of `total`. -/
def unescapeFrom (total offset : Nat) (s : List Char) : Except EntityFault (List Char) :=
  match s with
  | [] => .ok []
  | c :: t =>
    if c = '&' then
      match _h : entityName? t with
      | none => .error (.unterminated offset total)
      | some (name, rest) => do
        let x ← character (offset + 1) name
        return x :: (← unescapeFrom total (offset + 2 + Text.byteLength name) rest)
    else (unescapeFrom total (offset + c.utf8Size) t).map (c :: ·)
termination_by s.length
decreasing_by
  · have := congrArg List.length (entityName?_append _h)
    simp only [List.length_append, List.length_cons] at this ⊢
    omega
  · simp

def unescape (s : List Char) : Except EntityFault (List Char) :=
  unescapeFrom (Text.byteLength s) 0 s

end FormulaDrawing.Markup
