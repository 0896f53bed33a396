/-! Taking texts apart at given parts. A part is matched from the left and matches do not
overlap. -/

namespace FormulaDrawing.Text

def after? : List Char → List Char → Option (List Char)
  | [], s => some s
  | _ :: _, [] => none
  | a :: head, c :: s => if a = c then after? head s else none

def before? (tail s : List Char) : Option (List Char) :=
  (after? tail.reverse s.reverse).map List.reverse

def splitFirst? (part : List Char) : List Char → Option (List Char × List Char)
  | [] => (after? part []).map ([], ·)
  | c :: s =>
    match after? part (c :: s) with
    | some rest => some ([], rest)
    | none => (splitFirst? part s).map fun (front, back) => (c :: front, back)

def contains (part s : List Char) : Bool := (splitFirst? part s).isSome

/-- The pieces between the characters `sep`, of which there is always at least one. -/
def pieces (sep : Char) : List Char → List (List Char)
  | [] => [[]]
  | c :: s =>
    if c = sep then [] :: pieces sep s
    else
      match pieces sep s with
      | [] => [[c]]
      | p :: ps => (c :: p) :: ps

/-- The text without the pairs `c c`. -/
def erasePairs (c : Char) : List Char → List Char
  | a :: b :: s => if a = c ∧ b = c then erasePairs c s else a :: erasePairs c (b :: s)
  | s => s

def byteLength : List Char → Nat
  | [] => 0
  | c :: s => c.utf8Size + byteLength s

/-- The case of ASCII letters does not count. -/
def equalIgnoringCase (a b : String) : Bool :=
  a.toList.map Char.toLower == b.toList.map Char.toLower

@[simp] theorem byteLength_nil : byteLength [] = 0 := rfl

@[simp] theorem byteLength_cons (c : Char) (s : List Char) :
    byteLength (c :: s) = c.utf8Size + byteLength s := rfl

@[simp] theorem byteLength_append (a b : List Char) :
    byteLength (a ++ b) = byteLength a + byteLength b := by
  induction a with
  | nil => simp
  | cons c a ih => simp [ih, Nat.add_assoc]

theorem after?_eq_some_iff {head s rest : List Char} :
    after? head s = some rest ↔ s = head ++ rest := by
  induction head generalizing s with
  | nil => simp [after?]
  | cons a head ih =>
    cases s with
    | nil => simp [after?]
    | cons c s =>
      by_cases h : a = c
      · subst h; simp [after?, ih]
      · simp [after?, h, Ne.symm h]

theorem before?_eq_some_iff {tail s front : List Char} :
    before? tail s = some front ↔ s = front ++ tail := by
  simp only [before?, Option.map_eq_some_iff, after?_eq_some_iff]
  constructor
  · rintro ⟨r, hr, rfl⟩
    rw [← List.reverse_reverse s, hr]; simp
  · rintro rfl
    exact ⟨front.reverse, by simp, by simp⟩

theorem pieces_ne_nil (sep : Char) (s : List Char) : pieces sep s ≠ [] := by
  cases s with
  | nil => simp [pieces]
  | cons c s => simp only [pieces]; split <;> (try split) <;> simp

theorem eq_append_of_splitFirst? {part s front back : List Char}
    (h : splitFirst? part s = some (front, back)) : s = front ++ part ++ back := by
  induction s generalizing front with
  | nil =>
    simp only [splitFirst?, Option.map_eq_some_iff, Prod.mk.injEq] at h
    obtain ⟨rest, hr, rfl, rfl⟩ := h
    simpa using after?_eq_some_iff.1 hr
  | cons c s ih =>
    simp only [splitFirst?] at h
    split at h
    · rename_i rest hr
      obtain ⟨rfl, rfl⟩ := by simpa using h
      simpa using after?_eq_some_iff.1 hr
    · obtain ⟨⟨b, a⟩, hs, he⟩ := Option.map_eq_some_iff.1 h
      obtain ⟨rfl, rfl⟩ := by simpa using he
      simp [ih hs]

end FormulaDrawing.Text
