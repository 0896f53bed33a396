import Mathlib
import FormulaDrawing.Binding.Resolution

/-! The variables that bindings resolve to. A name that is let through has the value of the first binding,
custom ones in front, that gives it a number. -/

namespace FormulaDrawing

open Text

/-- The number that the binding gives to the variable `n`. -/
def Binding.valueFor? (b : Binding) (n : String) : Option Float :=
  if b.varName.bind nonBlank? = some n then b.number? else none

namespace Resolution

variable {referenced : List String} {bs : List Binding} {n : String}

theorem find?_take (referenced : List String) (r : Resolution) (b : Binding) (n : String) :
    (take referenced r b).vars.find? n = (r.vars.find? n).or
      (if n ∈ referenced then (b.valueFor? n).map .number else none) := by
  unfold take Binding.valueFor?
  cases b.varName.bind nonBlank? with
  | none => simp
  | some name =>
    by_cases hname : name = n
    · subst hname
      by_cases href : name ∈ referenced
      · cases hold : r.vars.find? name with
        | some v => simp [Variables.binds, hold]
        | none => cases hx : b.number? <;> simp [Variables.binds, href, hold]
      · simp [href]
    · dsimp only
      split
      · simp [hname]
      · cases b.number? <;> simp [hname, Ne.symm hname]

theorem find?_foldl_take (referenced : List String) (bs : List Binding) (r : Resolution)
    (n : String) : (bs.foldl (take referenced) r).vars.find? n = (r.vars.find? n).or
      (if n ∈ referenced then (bs.findSome? (·.valueFor? n)).map .number else none) := by
  induction bs generalizing r with
  | nil => simp
  | cons b bs ih =>
    rw [List.foldl_cons, ih, find?_take, Option.or_assoc, List.findSome?_cons]
    congr 1
    split
    · cases b.valueFor? n <;> simp
    · rfl

theorem find?_ofBindings (bs : List Binding) (referenced : List String) (n : String) :
    (ofBindings bs referenced).vars.find? n =
      if n ∈ referenced then
        ((bs.filter (·.custom) ++ bs.filter (!·.custom)).findSome? (·.valueFor? n)).map .number
      else none := by
  rw [ofBindings, find?_foldl_take]
  rfl

theorem binds_ofBindings_iff : (ofBindings bs referenced).vars.binds n = true ↔
    n ∈ referenced ∧ ∃ b ∈ bs, (b.valueFor? n).isSome = true := by
  have hall : ∀ b, b ∈ bs.filter (·.custom) ++ bs.filter (!·.custom) ↔ b ∈ bs := by
    intro b
    rw [List.mem_append, List.mem_filter, List.mem_filter, ← and_or_left]
    cases b.custom <;> simp
  rw [Variables.binds, find?_ofBindings]
  split
  next href => simp only [Option.isSome_map, List.findSome?_isSome_iff, hall, href, true_and]
  next href => simp [href]

end Resolution

end FormulaDrawing
