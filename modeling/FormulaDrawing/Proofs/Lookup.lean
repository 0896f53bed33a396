import Mathlib

/-! What is found under a key in a list of keys with values, of which some are left out. -/

namespace FormulaDrawing

variable {α β : Type} [BEq α] [LawfulBEq α] {k k' : α}

theorem lookup_cons_of_ne (h : k ≠ k') (v : β) (l : List (α × β)) :
    List.lookup k ((k', v) :: l) = l.lookup k := by
  rw [List.lookup_cons, beq_false_of_ne h]

theorem lookup_filter (keep : α → Bool) (l : List (α × β)) (k : α) :
    (l.filter fun x => keep x.1).lookup k = if keep k then l.lookup k else none := by
  induction l with
  | nil => simp
  | cons x l ih =>
    obtain ⟨k', v⟩ := x
    by_cases hk : k = k'
    · subst hk
      by_cases hkeep : keep k = true
      · simp [hkeep]
      · simp [hkeep, ih]
    · rw [lookup_cons_of_ne hk, List.filter_cons]
      split
      · rw [lookup_cons_of_ne hk, ih]
      · exact ih

end FormulaDrawing
