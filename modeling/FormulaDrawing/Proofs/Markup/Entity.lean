import Mathlib
import FormulaDrawing.Markup.Entity

/-! Reading entities undoes writing them, for every text. What is written has none of the characters
that end a text or a value. -/

namespace FormulaDrawing.Markup

/-- The characters that mark where a text or a value ends. -/
def isDelimiter (c : Char) : Bool := c == '<' || c == '>' || c == '"' || c == '\''

theorem escapeChar_cases (c : Char) :
    (∃ name, escapeChar c = '&' :: name ++ [';'] ∧ name.all Char.isAlpha = true ∧
      ∀ start, character start name = .ok c) ∨
    escapeChar c = [c] ∧ c ≠ '&' ∧ isDelimiter c = false := by
  by_cases h1 : c = '&'
  · exact .inl ⟨"amp".toList, by subst h1; rfl, by decide, fun _ => by subst h1; rfl⟩
  by_cases h2 : c = '<'
  · exact .inl ⟨"lt".toList, by subst h2; rfl, by decide, fun _ => by subst h2; rfl⟩
  by_cases h3 : c = '>'
  · exact .inl ⟨"gt".toList, by subst h3; rfl, by decide, fun _ => by subst h3; rfl⟩
  by_cases h4 : c = '"'
  · exact .inl ⟨"quot".toList, by subst h4; rfl, by decide, fun _ => by subst h4; rfl⟩
  by_cases h5 : c = '\''
  · exact .inl ⟨"apos".toList, by subst h5; rfl, by decide, fun _ => by subst h5; rfl⟩
  refine .inr ⟨?_, h1, by simp [isDelimiter, h2, h3, h4, h5]⟩
  unfold escapeChar
  split <;> first | rfl | exact absurd rfl ‹_›

theorem entityName?_of_isAlpha {name : List Char} (h : name.all Char.isAlpha = true)
    (rest : List Char) : entityName? (name ++ ';' :: rest) = some (name, rest) := by
  induction name with
  | nil => rfl
  | cons c name ih =>
    rw [List.all_cons, Bool.and_eq_true] at h
    have hsemi : c ≠ ';' := by rintro rfl; simp at h
    have hand : c ≠ '&' := by rintro rfl; simp at h
    rw [List.cons_append, entityName?, ih h.2]
    · rfl
    · exact hsemi
    · exact hand

theorem unescapeFrom_escape (total offset : Nat) (s : List Char) :
    unescapeFrom total offset (escape s) = .ok s := by
  induction s generalizing offset with
  | nil => rw [escape, List.flatMap_nil, unescapeFrom]
  | cons c s ih =>
    have hs : escape (c :: s) = escapeChar c ++ escape s := List.flatMap_cons ..
    rw [hs]
    rcases escapeChar_cases c with ⟨name, he, ha, hc⟩ | ⟨he, hand, -⟩
    · have hn := entityName?_of_isAlpha ha (escape s)
      have hform : escapeChar c ++ escape s = '&' :: (name ++ ';' :: escape s) := by simp [he]
      rw [hform, unescapeFrom, if_pos rfl]
      split
      · rename_i h
        simp [hn] at h
      · rename_i h
        obtain ⟨rfl, rfl⟩ : name = _ ∧ escape s = _ := by simpa [hn] using h
        simp [hc, ih, bind, Except.bind, pure, Except.pure]
    · rw [he, List.singleton_append, unescapeFrom, if_neg hand, ih]
      rfl

theorem unescape_escape (s : List Char) : unescape (escape s) = .ok s := unescapeFrom_escape ..

@[simp] theorem escape_nil : escape [] = [] := rfl

theorem escape_append (s t : List Char) : escape (s ++ t) = escape s ++ escape t :=
  List.flatMap_append

theorem isDelimiter_of_mem_escape {c : Char} {s : List Char} (h : c ∈ escape s) :
    isDelimiter c = false := by
  obtain ⟨x, -, hx⟩ := List.mem_flatMap.1 h
  rcases escapeChar_cases x with ⟨name, he, ha, -⟩ | ⟨he, -, hd⟩
  · rw [he, List.cons_append, List.mem_cons, List.mem_append, List.mem_singleton] at hx
    rcases hx with rfl | hx | rfl
    · rfl
    · have hc : c.isAlpha = true := List.all_eq_true.1 ha c hx
      rw [isDelimiter]
      refine Bool.eq_false_iff.2 fun hd => ?_
      simp only [Bool.or_eq_true, beq_iff_eq] at hd
      rcases hd with ((rfl | rfl) | rfl) | rfl <;> simp at hc
    · rfl
  · rw [he, List.mem_singleton] at hx
    rw [hx, hd]

theorem escape_eq_nil_iff {s : List Char} : escape s = [] ↔ s = [] := by
  refine ⟨fun h => ?_, fun h => by rw [h, escape_nil]⟩
  have hu := unescape_escape s
  rw [h, unescape, unescapeFrom] at hu
  exact (Except.ok.inj hu).symm

end FormulaDrawing.Markup
