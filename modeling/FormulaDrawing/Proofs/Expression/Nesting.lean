import FormulaDrawing.Proofs.Attempt
import FormulaDrawing.Proofs.Expression.Acceptance
import FormulaDrawing.Proofs.Expression.Levels
import FormulaDrawing.Proofs.Expression.Place

/-! The limits bound what is nested in an expression. Its tokens are scanned from left to right without
regard to the grammar; but in front of each phrase the scan has counted the brackets around it and the
signs directly before it, and behind a phrase it is back at those brackets. -/

namespace FormulaDrawing.Expression

/-- What is counted where the nesting of tokens is measured. -/
structure Scan where
  brackets : Nat := 0
  signs : Nat := 0
  afterOperand : Bool := false

namespace Scan

variable {c c' : Scan} {ts us : List Token} {n : Nat}

def step (c : Scan) (t : Token) : Scan where
  brackets :=
    match t with
    | .symbol .bracketOpen => c.brackets + 1
    | .symbol .bracketClose => c.brackets - 1
    | _ => c.brackets
  signs := if t = .symbol .minus ∧ !c.afterOperand then c.signs + 1 else 0
  afterOperand := t.endsOperand

def depth (c : Scan) : Nat := c.brackets + c.signs

/-- The greatest depth on the way through the tokens. -/
def deepest (c : Scan) (ts : List Token) : Nat := nestingFrom c.brackets c.signs c.afterOperand ts

theorem deepest_cons (c : Scan) (t : Token) (ts : List Token) :
    c.deepest (t :: ts) = max (c.step t).depth ((c.step t).deepest ts) := rfl

theorem deepest_append (c : Scan) (ts us : List Token) :
    c.deepest (ts ++ us) = max (c.deepest ts) ((ts.foldl step c).deepest us) := by
  induction ts generalizing c with
  | nil => exact (max_eq_right (Nat.zero_le _)).symm
  | cons t ts ih => rw [List.cons_append, deepest_cons, ih, deepest_cons, List.foldl_cons, max_assoc]

theorem depth_step {t : Token} (h : c.step t = c') (ts : List Token) :
    c'.depth ≤ c.deepest (t :: ts) := h ▸ le_max_left _ _

theorem deepest_step {t : Token} (h : c.step t = c') (ts : List Token) :
    c'.deepest ts ≤ c.deepest (t :: ts) := h ▸ le_max_right _ _

theorem deepest_left (c : Scan) (ts us : List Token) : c.deepest ts ≤ c.deepest (ts ++ us) := by
  rw [deepest_append]
  exact le_max_left _ _

theorem deepest_right (h : ts.foldl step c = c') (us : List Token) :
    c'.deepest us ≤ c.deepest (ts ++ us) := by
  rw [deepest_append, h]
  exact le_max_right _ _

theorem deepest_behind {c'' : Scan} {t : Token} (h : ts.foldl step c = c') (ht : c'.step t = c'')
    (us : List Token) : c''.deepest us ≤ c.deepest (ts ++ t :: us) :=
  (deepest_step ht us).trans (deepest_right h _)

theorem step_operator (op : Operator) (b s : Nat) :
    step ⟨b, s, true⟩ (.symbol op.symbol) = ⟨b, 0, false⟩ := by
  cases op <;> simp [step, Operator.symbol, Token.endsOperand]

theorem depth_add_signs (hc : c.afterOperand = false) (n : Nat) (us : List Token) :
    c.depth + n ≤ max c.depth (c.deepest (List.replicate n (.symbol .minus) ++ us)) := by
  induction n generalizing c with
  | zero => exact le_max_left _ _
  | succ n ih =>
    obtain ⟨b, s, _⟩ := c
    obtain rfl := hc
    have hstep : step ⟨b, s, false⟩ (.symbol .minus) = ⟨b, s + 1, false⟩ := rfl
    have hih := ih (c := ⟨b, s + 1, false⟩) rfl
    rw [List.replicate_succ, List.cons_append, deepest_cons, hstep]
    simp only [depth] at hih ⊢
    omega

end Scan

section Phrases

open Scan (step)

mutual

theorem scan_isSum {ts : List Token} {e : Expr} :
    IsSum ts e → ∀ b s, ts.foldl step ⟨b, s, false⟩ = ⟨b, 0, true⟩
  | .term h => scan_isProduct h
  | .join op hl _ hr => fun b s => by
    rw [List.foldl_append, scan_isSum hl, List.foldl_cons, Scan.step_operator, scan_isProduct hr]

theorem scan_isProduct {ts : List Token} {e : Expr} :
    IsProduct ts e → ∀ b s, ts.foldl step ⟨b, s, false⟩ = ⟨b, 0, true⟩
  | .factor h => scan_isSigned h
  | .join op hl _ hr => fun b s => by
    rw [List.foldl_append, scan_isProduct hl, List.foldl_cons, Scan.step_operator, scan_isSigned hr]

theorem scan_isSigned {ts : List Token} {e : Expr} :
    IsSigned ts e → ∀ b s, ts.foldl step ⟨b, s, false⟩ = ⟨b, 0, true⟩
  | .atom h => scan_isAtom h
  | .minus h => fun b s => scan_isSigned h b (s + 1)

theorem scan_isAtom {ts : List Token} {e : Expr} :
    IsAtom ts e → ∀ b s, ts.foldl step ⟨b, s, false⟩ = ⟨b, 0, true⟩
  | .number _ => fun _ _ => rfl
  | .name _ => fun _ _ => rfl
  | .group h => fun b s => by
    have hopen : step ⟨b, s, false⟩ (.symbol .bracketOpen) = ⟨b + 1, 0, false⟩ := rfl
    rw [List.cons_append, List.foldl_cons, hopen, List.foldl_append, scan_isSum h]
    rfl
  | .emptyCall _ => fun _ _ => rfl
  | .call f h => fun b s => by
    have hopen : step (step ⟨b, s, false⟩ (.name f)) (.symbol .bracketOpen) = ⟨b + 1, 0, false⟩ := rfl
    rw [List.cons_append, List.cons_append, List.foldl_cons, List.foldl_cons, hopen, List.foldl_append,
      scan_areArguments h]
    rfl

theorem scan_areArguments {ts : List Token} {es : List Expr} :
    AreArguments ts es → ∀ b s, ts.foldl step ⟨b, s, false⟩ = ⟨b, 0, true⟩
  | .one h => scan_isSum h
  | .more hs h => fun b s => by
    have hcomma : step ⟨b, 0, true⟩ (.symbol .comma) = ⟨b, 0, false⟩ := rfl
    rw [List.foldl_append, scan_areArguments hs, List.foldl_cons, hcomma, scan_isSum h]

end

end Phrases

section Places

open Phrase

variable {c : Scan} {p q : Phrase} {v w : List Wrap} {d : Nat}

def Scan.enter (c : Scan) : Wrap → Scan
  | .brackets => ⟨c.brackets + 1, 0, false⟩
  | .sign => ⟨c.brackets, c.signs + 1, false⟩

theorem brackets_enter (c : Scan) (w : List Wrap) :
    (w.foldl Scan.enter c).brackets = c.brackets + w.count .brackets := by
  induction w generalizing c with
  | nil => rfl
  | cons x w ih =>
    rw [List.foldl_cons, ih, List.count_cons]
    cases x <;> simp [Scan.enter, Nat.add_assoc, Nat.add_comm 1]

/-- The scan may come to the front of the phrase: it is not behind an operand, and only a phrase that can
itself begin with a sign continues signs. -/
def Phrase.Fits (c : Scan) : Phrase → Prop
  | signed _ _ | atom _ _ => c.afterOperand = false
  | _ => c.afterOperand = false ∧ c.signs = 0

theorem Phrase.Fits.afterOperand (h : p.Fits c) : c.afterOperand = false := by
  cases p with
  | signed | atom => exact h
  | sum | product | arguments => exact h.1

/-- What the scan finds in front of a phrase inside another one. -/
structure Phrase.Reached (p : Phrase) (c : Scan) (w : List Wrap) (q : Phrase) : Prop where
  fits : q.Fits (w.foldl Scan.enter c)
  deepest : (w.foldl Scan.enter c).deepest q.tokens ≤ c.deepest p.tokens
  depth : (w.foldl Scan.enter c).depth ≤ max c.depth (c.deepest p.tokens)

theorem Phrase.Has.reached (h : p.Has v q) (hp : p.Fits c) : p.Reached c v q := by
  obtain ⟨b, s, after⟩ := c
  obtain rfl : after = false := hp.afterOperand
  cases h with
  | term h => exact ⟨hp, le_rfl, le_max_left _ _⟩
  | factor h => exact ⟨hp.1, le_rfl, le_max_left _ _⟩
  | unsigned h => exact ⟨hp, le_rfl, le_max_left _ _⟩
  | one h => exact ⟨hp, le_rfl, le_max_left _ _⟩
  | sumLeft hl hop hr => exact ⟨hp, Scan.deepest_left _ _ _, le_max_left _ _⟩
  | productLeft hl hop hr => exact ⟨hp, Scan.deepest_left _ _ _, le_max_left _ _⟩
  | before hs h => exact ⟨hp, Scan.deepest_left _ _ _, le_max_left _ _⟩
  | sumRight hl hop hr =>
    -- Behind the left operand the scan is back where it was, and the operator is no sign.
    obtain rfl : s = 0 := hp.2
    exact ⟨⟨rfl, rfl⟩, Scan.deepest_behind (scan_isSum hl b 0) (Scan.step_operator ..) _,
      le_max_left _ _⟩
  | productRight hl hop hr =>
    obtain rfl : s = 0 := hp.2
    exact ⟨rfl, Scan.deepest_behind (scan_isProduct hl b 0) (Scan.step_operator ..) _, le_max_left _ _⟩
  | last hs h =>
    obtain rfl : s = 0 := hp.2
    have hcomma : Scan.step ⟨b, 0, true⟩ (.symbol .comma) = ⟨b, 0, false⟩ := rfl
    exact ⟨⟨rfl, rfl⟩, Scan.deepest_behind (scan_areArguments hs b 0) hcomma _, le_max_left _ _⟩
  | minus h =>
    have hminus : Scan.step ⟨b, s, false⟩ (.symbol .minus) = ⟨b, s + 1, false⟩ := rfl
    exact ⟨rfl, Scan.deepest_step hminus _, le_max_of_le_right (Scan.depth_step hminus _)⟩
  | group h =>
    have hopen : Scan.step ⟨b, s, false⟩ (.symbol .bracketOpen) = ⟨b + 1, 0, false⟩ := rfl
    exact ⟨⟨rfl, rfl⟩, (Scan.deepest_left _ _ _).trans (Scan.deepest_step hopen _),
      le_max_of_le_right (Scan.depth_step hopen _)⟩
  | @call f ts es h =>
    have hname : Scan.step ⟨b, s, false⟩ (.name f) = ⟨b, 0, true⟩ := rfl
    have hopen : Scan.step ⟨b, 0, true⟩ (.symbol .bracketOpen) = ⟨b + 1, 0, false⟩ := rfl
    exact ⟨⟨rfl, rfl⟩,
      ((Scan.deepest_left _ _ _).trans (Scan.deepest_step hopen _)).trans (Scan.deepest_step hname _),
      le_max_of_le_right ((Scan.depth_step hopen _).trans (Scan.deepest_step hname _))⟩

theorem Phrase.Has.wraps (h : p.Has v q) : v = [] ∨ v = [.sign] ∨ v = [.brackets] := by
  cases h <;> simp

theorem Phrase.Reached.trans {r : Phrase} (hq : p.Reached c v q)
    (hr : q.Reached (v.foldl Scan.enter c) w r) : p.Reached c (v ++ w) r where
  fits := by
    rw [List.foldl_append]
    exact hr.fits
  deepest := by
    rw [List.foldl_append]
    exact hr.deepest.trans hq.deepest
  depth := by
    rw [List.foldl_append]
    exact hr.depth.trans (max_le hq.depth (le_max_of_le_right hq.deepest))

theorem Phrase.Encloses.reached (h : p.Encloses w q) (hp : p.Fits c) : p.Reached c w q := by
  induction h generalizing c with
  | self p => exact ⟨hp, le_rfl, le_max_left _ _⟩
  | step hhas _ ih => exact (hhas.reached hp).trans (ih (hhas.reached hp).fits)

/-- How much can be around a phrase where `n` levels are left. -/
def allowance (n : Nat) : Nat := n * (n + 3) / 2

theorem allowance_succ (n : Nat) : allowance (n + 1) = allowance n + (n + 2) := by
  have h : (n + 1) * (n + 1 + 3) = n * (n + 3) + 2 * (n + 2) := by ring
  rw [allowance, h, Nat.add_mul_div_left _ _ Nat.two_pos, allowance]

theorem le_allowance (n : Nat) : n ≤ allowance n := by
  induction n with
  | zero => exact Nat.zero_le _
  | succ n ih =>
    rw [allowance_succ]
    omega

/-- Every bracket starts the signs anew, and leaves one sign fewer on the next level. -/
theorem Phrase.Encloses.length_le (h : p.Encloses w q) (hp : p.Fits c) (hc : c.depth ≤ d)
    (hd : c.deepest p.tokens ≤ d) : w.length + c.signs ≤ allowance (d - c.brackets) := by
  induction h generalizing c with
  | self p =>
    have hroom := le_allowance (d - c.brackets)
    rw [Scan.depth] at hc
    rw [List.length_nil]
    omega
  | @step p q r v w hhas _ ih =>
    have hq := hhas.reached hp
    have hle := ih hq.fits (hq.depth.trans (max_le hc hd)) (hq.deepest.trans hd)
    have hdepth := hq.depth.trans (max_le hc hd)
    rw [List.length_append]
    rcases hhas.wraps with rfl | rfl | rfl
    · simpa using hle
    · simp only [List.foldl_cons, List.foldl_nil, Scan.enter] at hle
      rw [List.length_singleton]
      omega
    -- A bracket starts the signs anew, with one level less to spend.
    · simp only [List.foldl_cons, List.foldl_nil, Scan.enter, Scan.depth] at hle hdepth hc
      have hroom := allowance_succ (d - (c.brackets + 1))
      rw [show d - (c.brackets + 1) + 1 = d - c.brackets by omega] at hroom
      rw [List.length_singleton]
      omega

end Places

section Size

mutual

theorem length_parts_of_isSum {ts : List Token} {e : Expr} : IsSum ts e → e.parts.length ≤ ts.length
  | .term h => length_parts_of_isProduct h
  | .join op hl _ hr => by
    have := length_parts_of_isSum hl
    have := length_parts_of_isProduct hr
    simp only [Expr.parts, List.length_cons, List.length_append]
    omega

theorem length_parts_of_isProduct {ts : List Token} {e : Expr} :
    IsProduct ts e → e.parts.length ≤ ts.length
  | .factor h => length_parts_of_isSigned h
  | .join op hl _ hr => by
    have := length_parts_of_isProduct hl
    have := length_parts_of_isSigned hr
    simp only [Expr.parts, List.length_cons, List.length_append]
    omega

theorem length_parts_of_isSigned {ts : List Token} {e : Expr} :
    IsSigned ts e → e.parts.length ≤ ts.length
  | .atom h => length_parts_of_isAtom h
  | .minus h => Nat.succ_le_succ (length_parts_of_isSigned h)

theorem length_parts_of_isAtom {ts : List Token} {e : Expr} : IsAtom ts e → e.parts.length ≤ ts.length
  | .number _ => le_rfl
  | .name _ => le_rfl
  | .group h => by
    have := length_parts_of_isSum h
    simp only [List.length_cons, List.length_append]
    omega
  | .emptyCall _ => Nat.succ_le_succ (Nat.zero_le _)
  | .call f h => by
    have := length_parts_of_areArguments h
    simp only [Expr.parts, Expr.partsOf_eq, List.length_cons, List.length_append]
    omega

theorem length_parts_of_areArguments {ts : List Token} {es : List Expr} :
    AreArguments ts es → (es.flatMap Expr.parts).length ≤ ts.length
  | .one h => by
    rw [List.flatMap_singleton]
    exact length_parts_of_isSum h
  | .more hs h => by
    have := length_parts_of_areArguments hs
    have := length_parts_of_isSum h
    simp only [List.flatMap_append, List.flatMap_singleton, List.length_append, List.length_cons]
    omega

end

end Size

variable {limits : Limits} {text : String} {e : Expr}

theorem exists_isSum_of_parse (h : parse limits text = .ok e) :
    ∃ ls, lex text = .ok ls ∧ ls.length ≤ limits.tokens ∧
      nesting (ls.map (·.token)) ≤ limits.depth ∧ IsSum (ls.map (·.token)) e := by
  rw [parse, bind_eq_ok_iff] at h
  obtain ⟨ls, hlex, h⟩ := h
  split at h
  · cases h
  next hshort =>
  split at h
  · cases h
  next hflat => exact ⟨ls, hlex, by omega, by omega, tree?_eq_some_iff.1 (read_eq_ok_iff.1 h)⟩

/-- A tree that is read within the limits has no more nodes than tokens are allowed, so that as many nested
calls are enough to evaluate or to print it. Each part of it has a place. Around a place there are no
more brackets than levels are allowed, and the signs that begin there take one of the remaining levels each;
brackets and signs together are bounded as every pair of brackets leaves room for one sign fewer. -/
theorem recursion_bounded (h : parse limits text = .ok e) :
    e.parts.length ≤ limits.tokens ∧
    (∀ vs, (e.evalWithin vs limits.tokens).run = some (e.eval vs)) ∧
    e.charsWithin limits.tokens = some e.chars ∧
    ∃ ls, lex text = .ok ls ∧ IsSum (ls.map (·.token)) e ∧
      (∀ a ∈ e.parts, Phrase.Shown a (.sum (ls.map (·.token)) e)) ∧
      ∀ w q, Phrase.Encloses (.sum (ls.map (·.token)) e) w q →
        w.count .brackets ≤ limits.depth ∧
        (∀ n us, q.tokens = List.replicate n (.symbol .minus) ++ us →
          n ≤ limits.depth - w.count .brackets) ∧
        w.length ≤ limits.depth * (limits.depth + 3) / 2 := by
  obtain ⟨ls, hlex, htokens, hdepth, hsum⟩ := exists_isSum_of_parse h
  have hsize : e.parts.length ≤ limits.tokens := by
    have := length_parts_of_isSum hsum
    rw [List.length_map] at this
    omega
  have hheight := e.height_le_length_parts.trans hsize
  refine ⟨hsize, fun vs => Expr.run_evalWithin hheight, Expr.charsWithin_eq hheight, ls, hlex, hsum,
    Phrase.shown_of_isSum hsum, fun w q hq => ?_⟩
  have hfits : (Phrase.sum (ls.map (·.token)) e).Fits {} := ⟨rfl, rfl⟩
  obtain ⟨hfit, hdeep, hreach⟩ := hq.reached hfits
  have hstart : Scan.depth {} ≤ limits.depth := Nat.zero_le _
  have hwhole : Scan.deepest {} (ls.map (·.token)) ≤ limits.depth := hdepth
  have hplace := hreach.trans (max_le hstart hwhole)
  -- The scan counts the brackets around the place and the signs in front of it together.
  have hbrackets := brackets_enter {} w
  have hsigns : ∀ n us, q.tokens = List.replicate n (.symbol .minus) ++ us →
      (w.foldl Scan.enter {}).depth + n ≤ limits.depth := fun n us hus =>
    (Scan.depth_add_signs hfit.afterOperand n us).trans (max_le hplace (hus ▸ hdeep.trans hwhole))
  simp only [Scan.depth] at hplace hsigns
  refine ⟨by omega, fun n us hus => ?_, hq.length_le hfits hstart hwhole⟩
  have := hsigns n us hus
  omega

/-- As many signs as there may be on each level. -/
theorem recursion_bounded_full :
    let limits : Limits := { depth := 3, tokens := 14 }
    let call : Expr := .call "f" [.name "x"]
    let e : Expr := .neg (.neg (.neg (.neg (.neg (.neg call)))))
    parse limits "---(--(-f(x)))" = .ok e ∧ e.parts.length ≤ 14 ∧
      ∃ ls, lex "---(--(-f(x)))" = .ok ls ∧ Phrase.Shown (.name "x") (.sum (ls.map (·.token)) e) ∧
        ∀ w q, Phrase.Encloses (.sum (ls.map (·.token)) e) w q →
          w.count .brackets ≤ 3 ∧ w.length ≤ 3 * (3 + 3) / 2 := by
  intro limits call e
  have hparse : parse limits "---(--(-f(x)))" = .ok e := by cbv
  obtain ⟨hsize, -, -, ls, hlex, -, hshown, hplaces⟩ := recursion_bounded hparse
  refine ⟨hparse, hsize, ls, hlex, hshown _ (by simp [e, call, Expr.parts, Expr.partsOf]),
    fun w q hq => ?_⟩
  obtain ⟨hbrackets, -, hlength⟩ := hplaces w q hq
  exact ⟨hbrackets, hlength⟩

end FormulaDrawing.Expression
