import Mathlib

/-! When a chain of steps that may fail comes through, and what a chain leaves behind that works on a
state. -/

namespace FormulaDrawing

variable {ε ε' α β : Type} {x : Except ε α} {a : α} {b : β}

theorem bind_eq_ok_iff {f : α → Except ε β} :
    x >>= f = .ok b ↔ ∃ a, x = .ok a ∧ f a = .ok b := by
  cases x <;> simp [bind, Except.bind]

theorem bind_eq_error_iff {f : α → Except ε β} {c : ε} :
    x >>= f = .error c ↔ x = .error c ∨ ∃ a, x = .ok a ∧ f a = .error c := by
  cases x <;> simp [bind, Except.bind]

theorem foldlM_preserves {σ : Type} {f : σ → α → Except ε σ} {P : σ → Prop} {xs : List α} {s s' : σ}
    (hstep : ∀ s, ∀ x ∈ xs, ∀ s', P s → f s x = .ok s' → P s') (hs : P s)
    (hok : xs.foldlM f s = .ok s') : P s' := by
  induction xs generalizing s with
  | nil =>
    obtain rfl : s = s' := Except.ok.inj hok
    exact hs
  | cons x xs ih =>
    rw [List.foldlM_cons] at hok
    obtain ⟨next, hx, hxs⟩ := bind_eq_ok_iff.1 hok
    have hnext : P next := hstep s x List.mem_cons_self next hs hx
    exact ih (fun s y hy => hstep s y (List.mem_cons_of_mem x hy)) hnext hxs

theorem exists_of_foldlM_error {σ : Type} {f : σ → α → Except ε σ} {xs : List α} {s : σ} {c : ε}
    (h : xs.foldlM f s = .error c) : ∃ s' x, f s' x = .error c := by
  induction xs generalizing s with
  | nil => cases h
  | cons x xs ih =>
    rw [List.foldlM_cons] at h
    rcases bind_eq_error_iff.1 h with hx | ⟨s', -, hxs⟩
    · exact ⟨s, x, hx⟩
    · exact ih hxs

theorem run_bind {σ : Type} (x : ExceptT ε (StateM σ) α) (f : α → ExceptT ε (StateM σ) β) (s : σ) :
    (x >>= f).run.run s =
      match x.run.run s with
      | (.ok a, s') => (f a).run.run s'
      | (.error c, s') => (.error c, s') := by
  rw [ExceptT.run_bind, StateT.run_bind]
  obtain ⟨y, s'⟩ := x.run.run s
  cases y <;> rfl

theorem map_eq_ok_iff {f : α → β} : x.map f = .ok b ↔ ∃ a, x = .ok a ∧ f a = b := by
  cases x <;> simp [Except.map]

theorem map_eq_error_iff {f : α → β} {c : ε} : x.map f = .error c ↔ x = .error c := by
  cases x <;> simp [Except.map]

theorem mapError_eq_ok_iff {f : ε → ε'} : x.mapError f = .ok a ↔ x = .ok a := by
  cases x <;> simp [Except.mapError]

end FormulaDrawing
