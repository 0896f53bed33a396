/-! Sets of names as ascending lists without repetition. -/

namespace FormulaDrawing.Text

def insertName (n : String) : List String → List String
  | [] => [n]
  | m :: ms => if n < m then n :: m :: ms else if n = m then m :: ms else m :: insertName n ms

def nameSet (ns : List String) : List String := ns.foldr insertName []

@[simp] theorem mem_insertName {a n : String} {ms : List String} :
    a ∈ insertName n ms ↔ a = n ∨ a ∈ ms := by
  induction ms with
  | nil => simp [insertName]
  | cons m ms ih =>
    simp only [insertName]
    split
    · simp
    · split
      · rename_i h; subst h; simp
      · simp only [List.mem_cons, ih]
        constructor
        · rintro (h | h | h) <;> simp [h]
        · rintro (h | h | h) <;> simp [h]

@[simp] theorem mem_nameSet {a : String} {ns : List String} : a ∈ nameSet ns ↔ a ∈ ns := by
  induction ns with
  | nil => simp [nameSet]
  | cons n ns ih =>
    show a ∈ insertName n (nameSet ns) ↔ _
    simp [ih]

end FormulaDrawing.Text
