import FormulaDrawing.Expression.Evaluation
import FormulaDrawing.Proofs.Expression.Part

/-! How many calls evaluation and printing nest. Both go down to the operands, so for a tree of `n` levels
calls that are nested `n` times at most come to the same. -/

namespace FormulaDrawing.Expr

open Expression

variable {e : Expr} {es : List Expr} {n : Nat}

section Height

mutual

/-- The levels of the tree. -/
def height : Expr → Nat
  | number _ => 1
  | name _ => 1
  | neg e => e.height + 1
  | binary _ l r => max l.height r.height + 1
  | call _ args => heightOf args + 1

def heightOf : List Expr → Nat
  | [] => 0
  | e :: es => max e.height (heightOf es)

end

theorem heightOf_le_iff : heightOf es ≤ n ↔ ∀ e ∈ es, e.height ≤ n := by
  induction es with
  | nil => simp [heightOf]
  | cons e es ih => rw [heightOf, max_le_iff, ih, List.forall_mem_cons]

theorem height_eq (e : Expr) : e.height = heightOf e.operands + 1 := by
  cases e <;> simp [height, heightOf, operands]

theorem height_le_succ_iff : e.height ≤ n + 1 ↔ ∀ o ∈ e.operands, o.height ≤ n := by
  rw [height_eq, Nat.add_le_add_iff_right, heightOf_le_iff]

theorem height_pos (e : Expr) : 0 < e.height := by
  rw [height_eq]
  exact Nat.succ_pos _

theorem height_le_length_parts (e : Expr) : e.height ≤ e.parts.length := by
  induction e using induct with
  | step e ih =>
    rw [parts_eq, List.length_cons, height_le_succ_iff]
    intro o ho
    exact (ih o ho).trans (List.sublist_flatten_of_mem (List.mem_map_of_mem ho)).length_le

end Height

section Evaluation

/-- Evaluation where no more than so many calls are nested; it has no result where more are needed. -/
def evalWithin (vs : Variables) : Nat → Expr → ExceptT Failure Option Value
  | 0, _ => ExceptT.mk none
  | _ + 1, number x => liftExcept ((finite x).map .number)
  | _ + 1, name n => liftExcept (readName vs n)
  | n + 1, neg e => do
    let x ← liftExcept (← evalWithin vs n e).toNumber
    return .number (-x)
  | n + 1, binary op l r => do
    let x ← liftExcept (← evalWithin vs n l).toNumber
    let y ← liftExcept (← evalWithin vs n r).toNumber
    return .number (← liftExcept (op.apply x y))
  | n + 1, call f args => do
    let g ← liftExcept (readFunction vs f)
    let xs ← args.mapM fun e => do liftExcept (← evalWithin vs n e).toNumber
    return .number (← liftExcept (g.apply xs))

variable {vs : Variables} {α β : Type}

theorem liftExcept_bind (x : Except Failure α) (f : α → Except Failure β) :
    (liftExcept (x >>= f) : ExceptT Failure Option β) = liftExcept x >>= fun a => liftExcept (f a) := by
  cases x <;> rfl

theorem liftExcept_pure (a : α) :
    (liftExcept (pure a : Except Failure α) : ExceptT Failure Option α) = pure a := rfl

theorem mapM_evalWithin (h : ∀ e ∈ es, evalWithin vs n e = liftExcept (e.eval vs)) :
    (es.mapM fun e => do liftExcept (← evalWithin vs n e).toNumber) = liftExcept (evalAll vs es) := by
  induction es with
  | nil => rfl
  | cons e es ih =>
    rw [List.forall_mem_cons] at h
    rw [List.mapM_cons, h.1, ih h.2, evalAll]
    simp only [liftExcept_bind, liftExcept_pure, bind_assoc]

theorem evalWithin_eq (h : e.height ≤ n) : evalWithin vs n e = liftExcept (e.eval vs) := by
  induction n generalizing e with
  | zero => exact absurd e.height_pos (by omega)
  | succ n ih =>
    rw [height_le_succ_iff] at h
    cases e with
    | number x => rfl
    | name n => rfl
    | neg e =>
      have he := ih (h e (by simp [operands]))
      simp only [evalWithin, he, eval, liftExcept_bind, liftExcept_pure]
    | binary op l r =>
      have hl := ih (h l (by simp [operands]))
      have hr := ih (h r (by simp [operands]))
      simp only [evalWithin, hl, hr, eval, liftExcept_bind, liftExcept_pure]
    | call f args =>
      have hargs := mapM_evalWithin (show ∀ e ∈ args, _ from fun e he => ih (h e he))
      simp only [evalWithin, hargs, eval, liftExcept_bind, liftExcept_pure]

theorem run_evalWithin (h : e.height ≤ n) : (evalWithin vs n e).run = some (e.eval vs) := by
  rw [evalWithin_eq h]
  cases e.eval vs <;> rfl

end Evaluation

section Printing

/-- Printing where no more than so many calls are nested. -/
def charsWithin : Nat → Expr → Option (List Char)
  | 0, _ => none
  | _ + 1, number x => some (Number.chars x)
  | _ + 1, name n => some n.toList
  | n + 1, neg e => do return '(' :: '-' :: (← charsWithin n e) ++ [')']
  | n + 1, binary op l r => do
    let s ← charsWithin n l
    let t ← charsWithin n r
    return '(' :: s ++ [' ', op.char, ' '] ++ t ++ [')']
  | n + 1, call f args => do
    let ss ← args.mapM (charsWithin n)
    return f.toList ++ '(' :: (List.intercalate [',', ' '] ss ++ [')'])

theorem argumentChars_eq (es : List Expr) :
    argumentChars es = List.intercalate [',', ' '] (es.map chars) ++ [')'] := by
  induction es with
  | nil => rfl
  | cons e es ih =>
    cases es with
    | nil => simp [argumentChars, furtherChars]
    | cons o os =>
      rw [argumentChars] at ih
      rw [argumentChars, furtherChars, List.cons_append, List.cons_append, ih]
      simp only [List.map_cons, List.intercalate_cons_cons, List.append_assoc, List.cons_append,
        List.nil_append]

theorem mapM_charsWithin (h : ∀ e ∈ es, charsWithin n e = some e.chars) :
    es.mapM (charsWithin n) = some (es.map chars) := by
  induction es with
  | nil => rfl
  | cons e es ih =>
    rw [List.forall_mem_cons] at h
    rw [List.mapM_cons, h.1, ih h.2]
    rfl

theorem charsWithin_eq (h : e.height ≤ n) : charsWithin n e = some e.chars := by
  induction n generalizing e with
  | zero => exact absurd e.height_pos (by omega)
  | succ n ih =>
    rw [height_le_succ_iff] at h
    cases e with
    | number x => rfl
    | name n => rfl
    | neg e => rw [charsWithin, ih (h e (by simp [operands]))]; rfl
    | binary op l r =>
      rw [charsWithin, ih (h l (by simp [operands])), ih (h r (by simp [operands]))]
      rfl
    | call f args =>
      have hargs := mapM_charsWithin (show ∀ e ∈ args, _ from fun e he => ih (h e he))
      rw [charsWithin, hargs, chars, argumentChars_eq]
      rfl

end Printing

end FormulaDrawing.Expr
