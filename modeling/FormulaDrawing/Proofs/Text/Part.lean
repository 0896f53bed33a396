import Mathlib
import FormulaDrawing.Text.Pieces

/-! Where a part stands first in a text. An occurrence in front of the one that was put there lies in
what precedes it or overlaps it. And the pieces that a text falls into at a character. -/

namespace FormulaDrawing.Text

variable {part s t : List Char}

theorem after?_eq_none_iff : after? part s = none ↔ ¬ part <+: s := by
  rw [Option.eq_none_iff_forall_ne_some]
  constructor
  · rintro h ⟨rest, rfl⟩
    exact h rest (after?_eq_some_iff.2 rfl)
  · rintro h rest hr
    exact h ⟨rest, (after?_eq_some_iff.1 hr).symm⟩

theorem splitFirst?_eq_none_iff : splitFirst? part s = none ↔ ¬ part <:+: s := by
  induction s with
  | nil => rw [splitFirst?, Option.map_eq_none_iff, after?_eq_none_iff, List.prefix_nil, List.infix_nil]
  | cons c s ih =>
    rw [splitFirst?, List.infix_cons_iff, not_or, ← ih, ← after?_eq_none_iff]
    cases after? part (c :: s) <;> simp

theorem contains_eq_true_iff : contains part s = true ↔ part <:+: s := by
  rw [contains, Option.isSome_iff_ne_none, ne_eq, splitFirst?_eq_none_iff, not_not]

theorem not_infix_of_splitFirst? (hpart : part ≠ []) {front back : List Char}
    (h : splitFirst? part s = some (front, back)) : ¬ part <:+: front := by
  have hnil : ¬ part <:+: [] := fun hi => hpart (List.infix_nil.1 hi)
  induction s generalizing front with
  | nil =>
    obtain ⟨rest, -, hfront⟩ := Option.map_eq_some_iff.1 h
    rwa [← (Prod.mk.inj hfront).1]
  | cons c s ih =>
    rw [splitFirst?] at h
    cases hafter : after? part (c :: s) with
    | some rest =>
      rw [hafter, Option.some.injEq, Prod.mk.injEq] at h
      rwa [← h.1]
    | none =>
      rw [hafter] at h
      obtain ⟨⟨front, back⟩, hs, hcons⟩ := Option.map_eq_some_iff.1 h
      obtain ⟨rfl, rfl⟩ := Prod.mk.inj hcons
      rw [List.infix_cons_iff, not_or]
      refine ⟨fun hpre => after?_eq_none_iff.1 hafter (hpre.trans ?_), ih hs⟩
      rw [eq_append_of_splitFirst? hs, List.append_assoc]
      exact List.prefix_append (c :: front) _

theorem splitFirst?_append (h : ¬ part <:+: s ++ part.dropLast) (rest : List Char) :
    splitFirst? part (s ++ part ++ rest) = some (s, rest) := by
  induction s with
  | nil =>
    obtain ⟨a, p, rfl⟩ := List.exists_cons_of_ne_nil fun hp : part = [] => h (by simp [hp])
    have hfound : after? (a :: p) (a :: (p ++ rest)) = some rest := after?_eq_some_iff.2 rfl
    rw [List.nil_append, List.cons_append, splitFirst?, hfound]
  | cons c s ih =>
    have hlate : after? part (c :: s ++ part ++ rest) = none := by
      rw [after?_eq_none_iff]
      intro hpre
      have hshort : c :: s ++ part.dropLast <+: c :: s ++ part ++ rest := by
        rw [List.append_assoc, List.prefix_append_right_inj]
        exact (List.dropLast_prefix part).trans (List.prefix_append part rest)
      refine h (List.prefix_of_prefix_length_le hpre hshort ?_).isInfix
      rw [List.length_append, List.length_dropLast, List.length_cons]
      omega
    have hs : ¬ part <:+: s ++ part.dropLast := fun hi =>
      h (List.infix_cons_iff.2 (.inr hi))
    rw [List.cons_append, List.cons_append] at hlate ⊢
    rw [splitFirst?, hlate, ih hs]
    rfl

theorem infix_append_cases (h : part <:+: s ++ t) :
    part <:+: s ∨ part <:+: t ∨ ∃ a b, part = a ++ b ∧ a <:+ s ∧ b <+: t := by
  obtain ⟨front, back, hst⟩ := h
  rcases List.append_eq_append_iff.1 hst with ⟨u, rfl, -⟩ | ⟨b, hs, rfl⟩
  · exact .inl ⟨front, u, rfl⟩
  · rcases List.append_eq_append_iff.1 hs with ⟨a, rfl, hp⟩ | ⟨u, -, rfl⟩
    · exact .inr (.inr ⟨a, b, hp, List.suffix_append front a, List.prefix_append b back⟩)
    · exact .inr (.inl ⟨u, back, rfl⟩)

section Pieces

theorem pieces_append_cons (sep : Char) (s t : List Char) :
    pieces sep (s ++ sep :: t) = pieces sep s ++ pieces sep t := by
  induction s with
  | nil => simp [pieces]
  | cons c s ih =>
    rw [List.cons_append, pieces, pieces, ih]
    split
    · rfl
    · obtain ⟨p, ps, hp⟩ := List.exists_cons_of_ne_nil (pieces_ne_nil sep s)
      rw [hp]
      rfl

theorem pieces_of_not_mem {sep : Char} {s : List Char} (h : sep ∉ s) : pieces sep s = [s] := by
  induction s with
  | nil => rfl
  | cons c s ih =>
    obtain ⟨hc, hs⟩ := List.ne_and_not_mem_of_not_mem_cons h
    rw [pieces, if_neg (Ne.symm hc), ih hs]

theorem not_mem_of_mem_pieces {sep : Char} {piece : List Char} (h : piece ∈ pieces sep s) :
    sep ∉ piece := by
  induction s generalizing piece with
  | nil =>
    obtain rfl := List.mem_singleton.1 h
    exact List.not_mem_nil
  | cons c s ih =>
    rw [pieces] at h
    split at h
    next =>
      rcases List.mem_cons.1 h with rfl | h
      · exact List.not_mem_nil
      · exact ih h
    next hc =>
      obtain ⟨p, ps, hp⟩ := List.exists_cons_of_ne_nil (pieces_ne_nil sep s)
      rw [hp] at h ih
      rcases List.mem_cons.1 h with rfl | h
      · rw [List.mem_cons, not_or]
        exact ⟨Ne.symm hc, ih List.mem_cons_self⟩
      · exact ih (List.mem_cons_of_mem p h)

end Pieces

end FormulaDrawing.Text
