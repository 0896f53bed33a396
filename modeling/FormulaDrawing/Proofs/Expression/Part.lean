import Mathlib
import FormulaDrawing.Expression.Expr

/-! The parts of an expression: the expression itself, its operands, and theirs. The names that are gathered
with a stack are the parts that are names. -/

namespace FormulaDrawing.Expr

/-- What the expression is put together from directly; for a call, its arguments. -/
def operands : Expr → List Expr
  | number _ => []
  | name _ => []
  | neg e => [e]
  | binary _ l r => [l, r]
  | call _ args => args

mutual

/-- The names read as values, in order. -/
def reads : Expr → List String
  | number _ => []
  | name n => [n]
  | neg e => reads e
  | binary _ l r => reads l ++ reads r
  | call _ args => readsAll args

def readsAll : List Expr → List String
  | [] => []
  | e :: es => reads e ++ readsAll es

end

mutual

/-- The expression and everything inside it. -/
def parts : Expr → List Expr
  | number x => [number x]
  | name n => [name n]
  | neg e => neg e :: e.parts
  | binary op l r => binary op l r :: (l.parts ++ r.parts)
  | call f args => call f args :: partsOf args

def partsOf : List Expr → List Expr
  | [] => []
  | e :: es => e.parts ++ partsOf es

end

variable {e p : Expr} {n : String}

theorem partsOf_eq (es : List Expr) : partsOf es = es.flatMap parts := by
  induction es with
  | nil => rfl
  | cons e es ih => rw [partsOf, ih, List.flatMap_cons]

theorem readsAll_eq (es : List Expr) : readsAll es = es.flatMap reads := by
  induction es with
  | nil => rfl
  | cons e es ih => rw [readsAll, ih, List.flatMap_cons]

theorem parts_eq (e : Expr) : e.parts = e :: e.operands.flatMap parts := by
  cases e <;> simp [parts, operands, partsOf_eq]

theorem mem_parts_iff : p ∈ e.parts ↔ p = e ∨ ∃ o ∈ e.operands, p ∈ o.parts := by
  rw [parts_eq, List.mem_cons, List.mem_flatMap]

theorem self_mem_parts (e : Expr) : e ∈ e.parts := mem_parts_iff.2 (.inl rfl)

mutual

theorem induct {P : Expr → Prop} (step : ∀ e, (∀ o ∈ e.operands, P o) → P e) : ∀ e, P e
  | number _ => step _ fun _ h => absurd h List.not_mem_nil
  | name _ => step _ fun _ h => absurd h List.not_mem_nil
  | neg e => step _ fun _ h => List.mem_singleton.1 h ▸ induct step e
  | binary _ l r => step _ fun _ h =>
    (List.mem_pair.1 h).elim (fun hl => hl ▸ induct step l) (fun hr => hr ▸ induct step r)
  | call _ args => step _ (inductAll step args)

theorem inductAll {P : Expr → Prop} (step : ∀ e, (∀ o ∈ e.operands, P o) → P e) :
    ∀ es : List Expr, ∀ e ∈ es, P e
  | [] => fun _ h => absurd h List.not_mem_nil
  | e :: es => fun u h =>
    (List.mem_cons.1 h).elim (fun hu => hu ▸ induct step e) (inductAll step es u)

end

theorem mem_reads_iff : n ∈ e.reads ↔ .name n ∈ e.parts := by
  induction e using induct with
  | step e ih =>
    have hbelow : (∃ o ∈ e.operands, n ∈ o.reads) ↔ ∃ o ∈ e.operands, .name n ∈ o.parts :=
      exists_congr fun o => and_congr_right fun ho => ih o ho
    rw [mem_parts_iff, ← hbelow]
    cases e <;> simp [reads, operands, readsAll_eq]

section Gathering

variable {es stack : List Expr} {found : List String}

/-- The expression on top is done, with all that it leads to, before the stack below it is looked at. -/
def Gathers (e : Expr) : Prop :=
  ∀ n stack found,
    gather (e.size + n) (e :: stack) found = gather n stack (e.reads.foldr Text.insertName found)

theorem gather_reverse (h : ∀ e ∈ es, e.Gathers) (n : Nat) (stack : List Expr) (found : List String) :
    gather (sizeAll es + n) (es.reverse ++ stack) found =
      gather n stack ((readsAll es).foldr Text.insertName found) := by
  -- The last expression is on top, so the first of the list is done last.
  induction es generalizing n stack with
  | nil => rw [sizeAll, Nat.zero_add]; rfl
  | cons e es ih =>
    rw [List.forall_mem_cons] at h
    have hfuel : sizeAll (e :: es) + n = sizeAll es + (e.size + n) := by
      rw [sizeAll]
      omega
    rw [hfuel, List.reverse_cons, List.append_assoc, ih h.2, List.singleton_append, h.1, readsAll,
      List.foldr_append]

theorem gathers (e : Expr) : e.Gathers := by
  induction e using induct with
  | step e ih =>
    intro n stack found
    cases e with
    | number x => rw [size, Nat.add_comm, gather]; rfl
    | name m => rw [size, Nat.add_comm, gather]; rfl
    | neg e =>
      have he := ih e (List.mem_singleton_self e)
      rw [size, Nat.add_right_comm, gather, he, reads]
    | binary op l r =>
      have hl := ih l (by simp [operands])
      have hr := ih r (by simp [operands])
      have hfuel : size (binary op l r) + n = r.size + (l.size + n) + 1 := by
        rw [size]
        omega
      rw [hfuel, gather, hr, hl, reads, List.foldr_append]
    | call f args =>
      have hargs : ∀ o ∈ args, o.Gathers := ih
      rw [size, Nat.add_right_comm, gather, gather_reverse hargs, reads]

/-- What is gathered is what recursion reads, and no expression is left on the stack. -/
theorem gather_eq (e : Expr) (more : Nat) : gather (e.size + more) [e] [] = Text.nameSet e.reads := by
  rw [gathers e, Text.nameSet]
  cases more <;> rfl

theorem names_eq (e : Expr) : e.names = Text.nameSet e.reads := gather_eq e 0

end Gathering

theorem mem_names_iff : n ∈ e.names ↔ .name n ∈ e.parts := by
  rw [names_eq, Text.mem_nameSet, mem_reads_iff]

end FormulaDrawing.Expr
