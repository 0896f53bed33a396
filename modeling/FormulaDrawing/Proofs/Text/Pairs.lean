import Mathlib
import FormulaDrawing.Text.Pieces

/-! What is left of a text without the pairs of a character. No such pair is left, but what stood on the two
sides of an erased run comes together, and so a pair of another character may arise. -/

namespace FormulaDrawing.Text

variable {a c : Char} {s t front back : List Char}

/-- Induction along the erasing of pairs. -/
@[elab_as_elim]
theorem pairInduction {motive : List Char → Prop} (c : Char) (nil : motive [])
    (last : ∀ x, motive [x]) (pair : ∀ s, motive s → motive (c :: c :: s))
    (other : ∀ x y s, ¬ (x = c ∧ y = c) → motive (y :: s) → motive (x :: y :: s)) (s : List Char) :
    motive s := by
  induction s using erasePairs.induct c with
  | case1 x y s hxy ih =>
    obtain ⟨rfl, rfl⟩ := hxy
    exact pair s ih
  | case2 x y s hxy ih => exact other x y s hxy ih
  | case3 s hlast =>
    match s, hlast with
    | [], _ => exact nil
    | [x], _ => exact last x
    | x :: y :: s, hlast => exact absurd rfl (hlast x y s)

@[simp] theorem erasePairs_pair (c : Char) (s : List Char) : erasePairs c (c :: c :: s) = erasePairs c s := by
  rw [erasePairs, if_pos ⟨rfl, rfl⟩]

theorem erasePairs_cons (h : a ≠ c) (s : List Char) : erasePairs c (a :: s) = a :: erasePairs c s := by
  cases s with
  | nil => rfl
  | cons b s => rw [erasePairs, if_neg fun hab => h hab.1]

theorem erasePairs_append_cons (h : a ≠ c) (s t : List Char) :
    erasePairs c (s ++ a :: t) = erasePairs c s ++ a :: erasePairs c t := by
  induction s using pairInduction c with
  | nil => exact erasePairs_cons h t
  | last x =>
    rw [List.singleton_append, erasePairs, if_neg fun hxa => h hxa.2, erasePairs_cons h]
    rfl
  | pair s ih => rw [List.cons_append, List.cons_append, erasePairs_pair, erasePairs_pair, ih]
  | other x y s hxy ih =>
    rw [List.cons_append, List.cons_append, erasePairs, if_neg hxy, erasePairs, if_neg hxy,
      ← List.cons_append, ih, List.cons_append]

theorem exists_of_erasePairs (h : a ≠ c) (hs : erasePairs c s = front ++ a :: back) :
    ∃ u v, s = u ++ a :: v ∧ erasePairs c u = front ∧ erasePairs c v = back := by
  induction s using pairInduction c generalizing front with
  | nil => exact absurd hs.symm (List.append_ne_nil_of_right_ne_nil front (List.cons_ne_nil a back))
  | last x =>
    obtain ⟨rfl, hx⟩ | ⟨-, hx⟩ := List.singleton_eq_append_iff.1 hs
    · obtain ⟨rfl, rfl⟩ := List.cons.inj hx
      exact ⟨[], [], rfl, rfl, rfl⟩
    · exact absurd hx (List.cons_ne_nil a back)
  | pair s ih =>
    rw [erasePairs_pair] at hs
    obtain ⟨u, v, rfl, rfl, hv⟩ := ih hs
    exact ⟨c :: c :: u, v, rfl, erasePairs_pair c u, hv⟩
  | other x y s hxy ih =>
    rw [erasePairs, if_neg hxy] at hs
    cases front with
    | nil =>
      obtain ⟨rfl, rfl⟩ := List.cons.inj hs
      exact ⟨[], y :: s, rfl, rfl, rfl⟩
    | cons z front =>
      obtain ⟨rfl, hrest⟩ := List.cons.inj hs
      obtain ⟨u, v, hys, rfl, hv⟩ := ih hrest
      refine ⟨x :: u, v, by rw [hys, List.cons_append], ?_, hv⟩
      cases u with
      | nil => rfl
      | cons y' u =>
        obtain ⟨rfl, -⟩ := List.cons.inj hys
        rw [erasePairs, if_neg hxy]

theorem erasePairs_replicate (c : Char) (k : ℕ) : erasePairs c (List.replicate (2 * k) c) = [] := by
  induction k with
  | zero => rfl
  | succ k ih => rw [Nat.mul_succ, List.replicate_succ, List.replicate_succ, erasePairs_pair, ih]

theorem erasePairs_eq_nil_iff : erasePairs c s = [] ↔ ∃ k, s = List.replicate (2 * k) c := by
  constructor
  · intro hs
    induction s using pairInduction c with
    | nil => exact ⟨0, rfl⟩
    | last x => exact absurd hs (List.cons_ne_nil x [])
    | pair s ih =>
      rw [erasePairs_pair] at hs
      obtain ⟨k, rfl⟩ := ih hs
      exact ⟨k + 1, rfl⟩
    | other x y s hxy ih =>
      rw [erasePairs, if_neg hxy] at hs
      exact absurd hs (List.cons_ne_nil x _)
  · rintro ⟨k, rfl⟩
    exact erasePairs_replicate c k

theorem not_infix_erasePairs (c : Char) (s : List Char) : ¬ [c, c] <:+: erasePairs c s := by
  induction s using pairInduction c with
  | nil => exact fun hp => List.cons_ne_nil c _ (List.infix_nil.1 hp)
  | last x => exact fun hp => absurd hp.length_le (by simp [erasePairs])
  | pair s ih => rwa [erasePairs_pair]
  | other x y s hxy ih =>
    rw [erasePairs, if_neg hxy, List.infix_cons_iff, not_or]
    refine ⟨fun hp => ?_, ih⟩
    -- the first of the pair is `x`, so `y` is another character and stays in front
    rw [List.cons_prefix_cons] at hp
    obtain ⟨rfl, hp⟩ := hp
    have hy : y ≠ c := fun hy => hxy ⟨rfl, hy⟩
    rw [erasePairs_cons hy, List.cons_prefix_cons] at hp
    exact hy hp.1.symm

theorem infix_erasePairs_iff (h : a ≠ c) :
    [a, a] <:+: erasePairs c s ↔ ∃ k, a :: (List.replicate (2 * k) c ++ [a]) <:+: s := by
  constructor
  · rintro ⟨front, back, hs⟩
    rw [List.append_assoc, List.cons_append] at hs
    -- The text is parted at both characters, and nothing is left of what is between them.
    obtain ⟨u, v, rfl, -, hv⟩ := exists_of_erasePairs h hs.symm
    obtain ⟨w, v, rfl, hw, -⟩ := exists_of_erasePairs h (show _ = [] ++ a :: back from hv)
    obtain ⟨k, rfl⟩ := erasePairs_eq_nil_iff.1 hw
    exact ⟨k, u, v, by simp⟩
  · rintro ⟨k, u, v, rfl⟩
    rw [List.append_assoc, List.cons_append, erasePairs_append_cons h, List.append_assoc,
      List.singleton_append, erasePairs_append_cons h, erasePairs_replicate]
    exact ⟨erasePairs c u, erasePairs c v, by simp⟩

end FormulaDrawing.Text
