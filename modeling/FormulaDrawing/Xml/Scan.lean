import FormulaDrawing.Text.Blank
import FormulaDrawing.Text.Pieces

/-! Scanners take something from the front of a text or refuse it. A scanner leaves no more than it was
given, which is part of its type, so that a reader which has taken a character of its own and then
scans is known to come to an end. -/

namespace FormulaDrawing.Xml

structure Scan (α : Type) where
  run : List Char → Option (α × List Char)
  le : ∀ {s a rest}, run s = some (a, rest) → rest.length ≤ s.length

namespace Scan

variable {α β : Type}

def done (a : α) : Scan α where
  run s := some (a, s)
  le h := by
    obtain ⟨-, rfl⟩ := by simpa using h
    exact Nat.le_refl _

def andThen (x : Scan α) (f : α → Scan β) : Scan β where
  run s := (x.run s).bind fun (a, rest) => (f a).run rest
  le h := by
    obtain ⟨⟨a, rest⟩, hx, hf⟩ := Option.bind_eq_some_iff.1 h
    exact Nat.le_trans ((f a).le hf) (x.le hx)

instance : Monad Scan where
  pure := done
  bind := andThen

def refuse : Scan α where
  run _ := none
  le h := by simp at h

def require (b : Bool) : Scan Unit := if b then done () else refuse

def ofOption : Option α → Scan α
  | some a => done a
  | none => refuse

def look (f : List Char → α) : Scan α where
  run s := some (f s, s)
  le h := by
    obtain ⟨-, rfl⟩ := by simpa using h
    exact Nat.le_refl _

def next? : Scan (Option Char) := look List.head?

def begins (word : String) : Scan Bool := look fun s => (Text.after? word.toList s).isSome

def word (w : String) : Scan Unit where
  run s := (Text.after? w.toList s).map ((), ·)
  le h := by
    obtain ⟨rest, hw, he⟩ := Option.map_eq_some_iff.1 h
    obtain ⟨-, rfl⟩ := by simpa using he
    rw [Text.after?_eq_some_iff.1 hw, List.length_append]
    omega

def takeWhile (p : Char → Bool) : Scan (List Char) where
  run s := some (s.takeWhile p, s.dropWhile p)
  le h := by
    obtain ⟨-, rfl⟩ := by simpa using h
    exact (List.dropWhile_sublist p).length_le

def upTo (part : String) : Scan (List Char) where
  run s := Text.splitFirst? part.toList s
  le h := by
    rw [Text.eq_append_of_splitFirst? h]
    simp only [List.length_append]
    omega

def gaps : Scan Unit := do discard (takeWhile Text.isGap)

def someGap : Scan Unit := do
  require (! (← takeWhile Text.isGap).isEmpty)

/-- Behind a character that has been taken, a scanner leaves less than there was. -/
theorem lt_cons {x : Scan α} {c : Char} {s rest : List Char} {a : α}
    (h : x.run s = some (a, rest)) : rest.length < (c :: s).length :=
  Nat.lt_succ_of_le (x.le h)

def manyFrom (step : Scan (Option α)) (s : List Char) : Option (List α × List Char) :=
  match step.run s with
  | none => none
  | some (none, rest) => some ([], rest)
  | some (some a, rest) =>
    if rest.length < s.length then (manyFrom step rest).map fun (as, rest) => (a :: as, rest)
    else none
termination_by s.length

theorem le_of_manyFrom {step : Scan (Option α)} {s rest : List Char} {as : List α}
    (h : manyFrom step s = some (as, rest)) : rest.length ≤ s.length := by
  fun_induction manyFrom step s generalizing as with
  | case1 s hs => simp at h
  | case2 s r hs =>
    obtain ⟨-, rfl⟩ := by simpa using h
    exact step.le hs
  | case3 s a r hs hlt ih =>
    obtain ⟨⟨bs, r'⟩, hm, he⟩ := Option.map_eq_some_iff.1 h
    obtain ⟨-, rfl⟩ := by simpa using he
    have := ih hm
    omega
  | case4 s a r hs hlt => simp at h

/-- Repeats a step until it gives nothing. A step that gives something has to take something. -/
def many (step : Scan (Option α)) : Scan (List α) where
  run := manyFrom step
  le := le_of_manyFrom

end Scan

end FormulaDrawing.Xml
