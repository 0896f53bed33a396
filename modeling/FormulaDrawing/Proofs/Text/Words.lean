import FormulaDrawing.Proofs.Text.Blank

/-! The words of a text. A blank between two texts keeps their words apart, and trimming takes away no word. -/

namespace FormulaDrawing.Text

variable {a b s w : List Char} {ws : List (List Char)} {c d : Char}

section Words

theorem words_blank (hc : isBlank c = true) (s : List Char) : words (c :: s) = words s := by
  rw [words.eq_def]
  exact if_pos hc

theorem words_letter (hc : isBlank c = false) : words [c] = [[c]] := by
  rw [words.eq_def]
  dsimp only
  rw [hc]
  rfl

theorem words_letter_blank (hc : isBlank c = false) (hd : isBlank d = true) (s : List Char) :
    words (c :: d :: s) = [c] :: words (d :: s) := by
  rw [words.eq_def]
  dsimp only
  rw [hc]
  cases h : words (d :: s) with
  | nil => rfl
  | cons w ws => simp [hd]

theorem words_letter_letter (hc : isBlank c = false) (hd : isBlank d = false)
    (h : words (d :: s) = w :: ws) : words (c :: d :: s) = (c :: w) :: ws := by
  rw [words.eq_def]
  dsimp only
  rw [hc, h]
  simp [hd]

theorem exists_words_letter (hc : isBlank c = false) (s : List Char) :
    ∃ w ws, words (c :: s) = (c :: w) :: ws := by
  induction s generalizing c with
  | nil => exact ⟨[], [], words_letter hc⟩
  | cons d s ih =>
    cases hd : isBlank d with
    | true => exact ⟨[], _, words_letter_blank hc hd s⟩
    | false =>
      obtain ⟨w, ws, h⟩ := ih hd
      exact ⟨_, ws, words_letter_letter hc hd h⟩

theorem words_append_cons (hc : isBlank c = true) (a b : List Char) :
    words (a ++ c :: b) = words a ++ words b := by
  induction a with
  | nil => exact words_blank hc b
  | cons x a ih =>
    cases hx : isBlank x with
    | true => rw [List.cons_append, words_blank hx, words_blank hx, ih]
    | false =>
      cases a with
      | nil =>
        rw [List.singleton_append, words_letter_blank hx hc, words_blank hc, words_letter hx]
        rfl
      | cons y a =>
        rw [List.cons_append] at ih
        cases hy : isBlank y with
        | true =>
          rw [List.cons_append, List.cons_append, words_letter_blank hx hy,
            words_letter_blank hx hy, ih, List.cons_append]
        | false =>
          obtain ⟨w, ws, h⟩ := exists_words_letter hy a
          rw [h, List.cons_append] at ih
          rw [List.cons_append, List.cons_append, words_letter_letter hx hy ih,
            words_letter_letter hx hy h, List.cons_append]

theorem letters_of_mem_words (hw : w ∈ words s) : w ≠ [] ∧ ∀ c ∈ w, isBlank c = false := by
  induction s generalizing w with
  | nil => cases hw
  | cons x s ih =>
    cases hx : isBlank x with
    | true =>
      rw [words_blank hx] at hw
      exact ih hw
    | false =>
      have hletter : [x] ≠ [] ∧ ∀ c ∈ [x], isBlank c = false := by simp [hx]
      cases s with
      | nil =>
        rw [words_letter hx, List.mem_singleton] at hw
        exact hw ▸ hletter
      | cons y s =>
        cases hy : isBlank y with
        | true =>
          rw [words_letter_blank hx hy] at hw
          rcases List.mem_cons.1 hw with rfl | hw
          · exact hletter
          · exact ih hw
        | false =>
          obtain ⟨v, vs, h⟩ := exists_words_letter hy s
          rw [words_letter_letter hx hy h] at hw
          rw [h] at ih
          rcases List.mem_cons.1 hw with rfl | hw
          · exact ⟨List.cons_ne_nil _ _, List.forall_mem_cons.2 ⟨hx, (ih List.mem_cons_self).2⟩⟩
          · exact ih (List.mem_cons_of_mem _ hw)

theorem words_eq_singleton (hne : w ≠ []) (hw : ∀ c ∈ w, isBlank c = false) : words w = [w] := by
  induction w with
  | nil => exact absurd rfl hne
  | cons x w ih =>
    rw [List.forall_mem_cons] at hw
    cases w with
    | nil => exact words_letter hw.1
    | cons y w =>
      exact words_letter_letter hw.1 (hw.2 y List.mem_cons_self)
        (ih (List.cons_ne_nil y w) hw.2)

end Words

/-- A word by itself. -/
def IsWord (s : String) : Prop := s ≠ "" ∧ ∀ c ∈ s.toList, isBlank c = false

theorem IsWord.words_eq {s : String} (hs : IsWord s) : words s.toList = [s.toList] :=
  words_eq_singleton (mt String.toList_eq_nil_iff.1 hs.1) hs.2

section Trim

theorem words_trimStart (s : List Char) : words (trimStart s) = words s := by
  induction s with
  | nil => rfl
  | cons c s ih =>
    rw [trimStart, List.dropWhile_cons]
    split
    next hc => exact ih.trans (words_blank hc s).symm
    next => rfl

theorem words_trimEnd (s : List Char) : words (trimEnd s) = words s := by
  induction s using List.reverseRecOn with
  | nil => rfl
  | append_singleton s c ih =>
    have hlast : trimEnd (s ++ [c]) = if isBlank c then trimEnd s else s ++ [c] :=
      List.rdropWhile_concat isBlank s c
    rw [hlast]
    split
    next hc => rw [ih, words_append_cons hc, show words [] = [] from rfl, List.append_nil]
    next => rfl

theorem words_trimmed (s : String) : words (trimmed s).toList = words s.toList := by
  rw [trimmed, String.toList_ofList, trim, words_trimEnd, words_trimStart]

end Trim

end FormulaDrawing.Text
