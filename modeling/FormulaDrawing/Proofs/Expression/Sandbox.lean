import FormulaDrawing.Expression.Evaluation
import FormulaDrawing.Proofs.Attempt
import FormulaDrawing.Proofs.Expression.Part

/-! What an expression can see of the variables. An expression has a value only if each of its parts has
one, so its names have to be bound or constant and its calls have to fit. Its result depends on nothing
but the values of the names it reads and on which of the names it calls are bound. -/

namespace FormulaDrawing

open Expression

theorem Value.toNumber_eq_ok_iff {v : Value} {x : Float} : v.toNumber = .ok x ↔ v = .number x := by
  cases v <;> simp [toNumber]

namespace Expression

variable {vs : Variables} {m n : String} {v : Value} {f : Function} {xs : List Float} {x y : Float}

theorem ofName?_eq_some_iff : Function.ofName? n = some f ↔ f.name = n := by
  constructor
  · intro h
    simpa using List.find?_some h
  · rintro rfl
    cases f <;> decide +kernel

theorem readName_eq_ok (h : readName vs n = .ok v) :
    vs.binds n = true ∨ (constant? n).isSome = true := by
  unfold readName at h
  split at h
  next w hw => exact .inl (by rw [Variables.binds, hw]; rfl)
  next hc => exact .inr (by rw [hc]; rfl)
  next =>
    split at h <;> cases h

theorem readFunction_eq_ok_iff :
    readFunction vs n = .ok f ↔ vs.binds n = false ∧ f.name = n := by
  unfold readFunction
  rw [← ofName?_eq_some_iff]
  cases vs.binds n <;> cases Function.ofName? n <;> simp

theorem accepts_of_apply (h : f.apply xs = .ok x) : f.arity.accepts xs.length = true := by
  unfold Function.apply at h
  split at h
  next ha => exact ha
  next => cases h

theorem readName_eq_undefined (h : readName vs m = .error (.undefinedName n)) :
    m = n ∧ vs.binds n = false ∧ isBuiltin n = false := by
  unfold readName at h
  split at h
  next => cases h
  next => cases h
  next hfind hconst =>
    split at h
    next => cases h
    next hf =>
      cases h
      exact ⟨rfl, by rw [Variables.binds, hfind]; rfl, by simp [isBuiltin, hconst, hf]⟩

theorem toNumber_ne_undefined (v : Value) (n : String) :
    v.toNumber ≠ .error (.undefinedName n) := by
  cases v <;> simp [Value.toNumber]

theorem operator_ne_undefined (op : Operator) (x y : Float) (n : String) :
    op.apply x y ≠ .error (.undefinedName n) := by
  cases op <;> simp only [Operator.apply, finite] <;> (repeat' split) <;> simp

theorem function_ne_undefined (f : Function) (xs : List Float) (n : String) :
    f.apply xs ≠ .error (.undefinedName n) := by
  unfold Function.apply
  (repeat' split) <;> simp

theorem readFunction_ne_undefined (vs : Variables) (m n : String) :
    readFunction vs m ≠ .error (.undefinedName n) := by
  unfold readFunction
  (repeat' split) <;> simp

end Expression

namespace Expr

variable {vs ws : Variables} {e o p : Expr} {es args : List Expr} {v : Value} {xs : List Float}
  {n : String} {β : Type} {f : Float → Except Failure β} {b : β}

section Strictness

theorem operand_eq_ok (h : (e.eval vs >>= fun v => v.toNumber >>= f) = .ok b) :
    ∃ x, e.eval vs = .ok (.number x) ∧ f x = .ok b := by
  rw [bind_eq_ok_iff] at h
  obtain ⟨v, hv, h⟩ := h
  rw [bind_eq_ok_iff] at h
  obtain ⟨x, hx, h⟩ := h
  obtain rfl := Value.toNumber_eq_ok_iff.1 hx
  exact ⟨x, hv, h⟩

theorem evalAll_eq_ok (h : evalAll vs es = .ok xs) :
    xs.length = es.length ∧ ∀ e ∈ es, ∃ x, e.eval vs = .ok (.number x) := by
  induction es generalizing xs with
  | nil =>
    cases h
    exact ⟨rfl, nofun⟩
  | cons e es ih =>
    rw [evalAll] at h
    obtain ⟨x, hx, h⟩ := operand_eq_ok h
    rw [bind_eq_ok_iff] at h
    obtain ⟨ys, hys, h⟩ := h
    cases h
    obtain ⟨hlength, hall⟩ := ih hys
    exact ⟨congrArg Nat.succ hlength, List.forall_mem_cons.2 ⟨⟨x, hx⟩, hall⟩⟩

theorem eval_call_eq_ok {f : String} (h : (call f args).eval vs = .ok v) :
    ∃ g xs, readFunction vs f = .ok g ∧ evalAll vs args = .ok xs ∧
      g.arity.accepts xs.length = true := by
  rw [eval, bind_eq_ok_iff] at h
  obtain ⟨g, hg, h⟩ := h
  rw [bind_eq_ok_iff] at h
  obtain ⟨xs, hxs, h⟩ := h
  rw [bind_eq_ok_iff] at h
  obtain ⟨y, hy, -⟩ := h
  exact ⟨g, xs, hg, hxs, accepts_of_apply hy⟩

theorem eval_operand (h : e.eval vs = .ok v) (ho : o ∈ e.operands) :
    ∃ x, o.eval vs = .ok (.number x) := by
  cases e with
  | number x => cases ho
  | name n => cases ho
  | neg e =>
    obtain rfl := List.mem_singleton.1 ho
    rw [eval] at h
    obtain ⟨x, hx, -⟩ := operand_eq_ok h
    exact ⟨x, hx⟩
  | binary op l r =>
    rw [eval] at h
    obtain ⟨x, hx, h⟩ := operand_eq_ok h
    obtain ⟨y, hy, -⟩ := operand_eq_ok h
    rcases List.mem_pair.1 ho with rfl | rfl
    · exact ⟨x, hx⟩
    · exact ⟨y, hy⟩
  | call f args =>
    obtain ⟨g, xs, -, hxs, -⟩ := eval_call_eq_ok h
    exact (evalAll_eq_ok hxs).2 o ho

theorem eval_part (h : e.eval vs = .ok v) (hp : p ∈ e.parts) : ∃ w, p.eval vs = .ok w := by
  induction e using induct generalizing v with
  | step e ih =>
    rcases mem_parts_iff.1 hp with rfl | ⟨o, ho, hp⟩
    · exact ⟨v, h⟩
    · obtain ⟨x, hx⟩ := eval_operand h ho
      exact ih o ho hx hp

end Strictness

section Agreement

theorem evalAll_congr (h : ∀ e ∈ es, e.eval vs = e.eval ws) : evalAll vs es = evalAll ws es := by
  induction es with
  | nil => rfl
  | cons e es ih =>
    rw [List.forall_mem_cons] at h
    rw [evalAll, evalAll, h.1, ih h.2]

theorem eval_step_congr (hname : ∀ n, e = .name n → vs.find? n = ws.find? n)
    (hcall : ∀ f args, e = .call f args → vs.binds f = ws.binds f)
    (h : ∀ o ∈ e.operands, o.eval vs = o.eval ws) : e.eval vs = e.eval ws := by
  cases e with
  | number x => rfl
  | name n => rw [eval, eval, readName, readName, hname n rfl]
  | neg e => rw [eval, eval, h e (List.mem_singleton_self e)]
  | binary op l r => rw [eval, eval, h l (by simp [operands]), h r (by simp [operands])]
  | call f args =>
    have hargs : evalAll vs args = evalAll ws args := evalAll_congr h
    rw [eval, eval, readFunction, readFunction, hcall f args rfl, hargs]

theorem eval_congr (hnames : ∀ n, .name n ∈ e.parts → vs.find? n = ws.find? n)
    (hcalls : ∀ f args, .call f args ∈ e.parts → vs.binds f = ws.binds f) :
    e.eval vs = e.eval ws := by
  induction e using induct with
  | step e ih =>
    have hbelow : ∀ o ∈ e.operands, ∀ p ∈ o.parts, p ∈ e.parts :=
      fun o ho p hp => mem_parts_iff.2 (.inr ⟨o, ho, hp⟩)
    refine eval_step_congr (fun n he => hnames n (he ▸ self_mem_parts e))
      (fun f args he => hcalls f args (he ▸ self_mem_parts e)) fun o ho => ?_
    exact ih o ho (fun n hn => hnames n (hbelow o ho _ hn))
      fun f args hf => hcalls f args (hbelow o ho _ hf)

end Agreement

section Undefined

theorem operand_eq_undefined
    (h : (e.eval vs >>= fun v => v.toNumber >>= f) = .error (.undefinedName n)) :
    e.eval vs = .error (.undefinedName n) ∨ ∃ x, f x = .error (.undefinedName n) := by
  rw [bind_eq_error_iff] at h
  rcases h with h | ⟨v, -, h⟩
  · exact .inl h
  rw [bind_eq_error_iff] at h
  rcases h with h | ⟨x, -, h⟩
  · exact absurd h (toNumber_ne_undefined v n)
  · exact .inr ⟨x, h⟩

theorem evalAll_eq_undefined (h : evalAll vs es = .error (.undefinedName n)) :
    ∃ e ∈ es, e.eval vs = .error (.undefinedName n) := by
  induction es with
  | nil => cases h
  | cons e es ih =>
    rw [evalAll] at h
    rcases operand_eq_undefined h with h | ⟨x, h⟩
    · exact ⟨e, List.mem_cons_self, h⟩
    rw [bind_eq_error_iff] at h
    rcases h with h | ⟨xs, -, h⟩
    · obtain ⟨u, hu, hfail⟩ := ih h
      exact ⟨u, List.mem_cons_of_mem e hu, hfail⟩
    · cases h

theorem eval_step_eq_undefined (h : e.eval vs = .error (.undefinedName n)) :
    (∃ m, e = .name m ∧ readName vs m = .error (.undefinedName n)) ∨
      ∃ o ∈ e.operands, o.eval vs = .error (.undefinedName n) := by
  cases e with
  | number x =>
    rw [eval, finite] at h
    split at h <;> cases h
  | name m => exact .inl ⟨m, rfl, h⟩
  | neg e =>
    rw [eval] at h
    rcases operand_eq_undefined h with h | ⟨x, h⟩
    · exact .inr ⟨e, List.mem_singleton_self e, h⟩
    · cases h
  | binary op l r =>
    rw [eval] at h
    rcases operand_eq_undefined h with h | ⟨x, h⟩
    · exact .inr ⟨l, by simp [operands], h⟩
    rcases operand_eq_undefined h with h | ⟨y, h⟩
    · exact .inr ⟨r, by simp [operands], h⟩
    rw [bind_eq_error_iff] at h
    rcases h with h | ⟨z, -, h⟩
    · exact absurd h (operator_ne_undefined op x y n)
    · cases h
  | call f args =>
    rw [eval, bind_eq_error_iff] at h
    rcases h with h | ⟨g, -, h⟩
    · exact absurd h (readFunction_ne_undefined vs f n)
    rw [bind_eq_error_iff] at h
    rcases h with h | ⟨xs, -, h⟩
    · exact .inr (evalAll_eq_undefined h)
    rw [bind_eq_error_iff] at h
    rcases h with h | ⟨y, -, h⟩
    · exact absurd h (function_ne_undefined g xs n)
    · cases h

theorem eval_eq_undefined (h : e.eval vs = .error (.undefinedName n)) :
    n ∈ e.names ∧ vs.binds n = false ∧ isBuiltin n = false := by
  rw [mem_names_iff]
  induction e using induct with
  | step e ih =>
    rcases eval_step_eq_undefined h with ⟨m, rfl, hm⟩ | ⟨o, ho, hfail⟩
    · obtain ⟨rfl, hunbound⟩ := readName_eq_undefined hm
      exact ⟨self_mem_parts _, hunbound⟩
    · obtain ⟨hmem, hunbound⟩ := ih o ho hfail
      exact ⟨mem_parts_iff.2 (.inr ⟨o, ho, hmem⟩), hunbound⟩

end Undefined

/-- An expression with a value reads only names that are bound or constant, and everything it calls is a
function, not hidden by a variable, with as many arguments as it takes. What the names read stand for
and which of the names called are bound decides its result, whether a value or a failure. -/
theorem eval_sandboxed (e : Expr) :
    (∀ (vs : Variables) (v : Value), e.eval vs = .ok v →
      (∀ n ∈ e.names, vs.binds n = true ∨ (constant? n).isSome = true) ∧
      ∀ f args, .call f args ∈ e.parts → vs.binds f = false ∧
        ∃ g ∈ Function.all, g.name = f ∧ g.arity.accepts args.length = true) ∧
    ∀ vs ws : Variables, (∀ n ∈ e.names, vs.find? n = ws.find? n) →
      (∀ f args, .call f args ∈ e.parts → vs.binds f = ws.binds f) → e.eval vs = e.eval ws := by
  refine ⟨fun vs v h => ⟨fun n hn => ?_, fun f args hcall => ?_⟩, fun vs ws hnames hcalls => ?_⟩
  · obtain ⟨w, hw⟩ := eval_part h (mem_names_iff.1 hn)
    exact readName_eq_ok hw
  · obtain ⟨w, hw⟩ := eval_part h hcall
    obtain ⟨g, xs, hg, hxs, haccepts⟩ := eval_call_eq_ok hw
    obtain ⟨hbinds, hname⟩ := readFunction_eq_ok_iff.1 hg
    rw [(evalAll_eq_ok hxs).1] at haccepts
    exact ⟨hbinds, g, List.mem_of_find?_eq_some (ofName?_eq_some_iff.2 hname), hname, haccepts⟩
  · exact eval_congr (fun n hn => hnames n (mem_names_iff.2 hn)) hcalls

/-- A variable hides the constant `pi`. With two variables more, one of them called like a function that
the expression does not call, the result is the same. -/
theorem eval_sandboxed_hidden_constant :
    ∃ (e : Expr) (vs ws : Variables), e.eval vs = .ok (.number 19) ∧ e.names = ["pi", "tau", "x"] ∧
      (∀ n ∈ e.names, vs.binds n = true ∨ (constant? n).isSome = true) ∧
      (∀ f args, .call f args ∈ e.parts → vs.binds f = false ∧
        ∃ g ∈ Function.all, g.name = f ∧ g.arity.accepts args.length = true) ∧
      ws.binds "sin" = true ∧ e.eval ws = .ok (.number 19) := by
  let e : Expr := .call "fabs"
    [.binary .sub (.name "x") (.binary .mul (.name "pi") (.call "ceil" [.name "tau"]))]
  let vs : Variables := [("x", .number 2), ("pi", .number 3)]
  let ws : Variables := [("w", .text "a"), ("sin", .number 0)] ++ vs
  have heval : e.eval vs = .ok (.number 19) := by decide +kernel
  obtain ⟨hnames, hcalls⟩ := (eval_sandboxed e).1 vs _ heval
  have hsame : e.eval vs = e.eval ws := by
    refine (eval_sandboxed e).2 vs ws (by decide +kernel) fun f args hf => ?_
    obtain ⟨rfl, -⟩ | ⟨rfl, -⟩ : f = "fabs" ∧ _ ∨ f = "ceil" ∧ _ := by simpa [e, parts, partsOf] using hf
    · decide
    · decide
  exact ⟨e, vs, ws, heval, by decide +kernel, hnames, hcalls, by decide, hsame ▸ heval⟩

end Expr

end FormulaDrawing
