import Mathlib
import FormulaDrawing.Text.Blank

/-! What is left of a text that is trimmed. To trim it again changes nothing, it neither begins nor ends in a
blank, and a part without blanks stays in it. -/

namespace FormulaDrawing.Text

variable {s t : String} {c : Char}

theorem nonBlank?_eq_some_iff : nonBlank? s = some t ↔ t ≠ "" ∧ trimmed s = t := by
  unfold nonBlank?
  by_cases h : trimmed s = ""
  · rw [if_pos (String.isEmpty_iff.2 h)]
    exact ⟨nofun, fun ⟨hne, he⟩ => absurd (he.symm.trans h) hne⟩
  · rw [if_neg (mt String.isEmpty_iff.1 h), Option.some.injEq]
    exact ⟨fun he => ⟨he ▸ h, he⟩, And.right⟩

theorem nonBlank?_eq_none_iff : nonBlank? s = none ↔ trimmed s = "" := by
  unfold nonBlank?
  by_cases h : trimmed s = "" <;> simp [h]

theorem trim_leads (s : List Char) : trim s <+: trimStart s := List.rdropWhile_prefix isBlank _

theorem trim_trim (s : List Char) : trim (trim s) = trim s := by
  have hleads := trim_leads s
  have hstart : trimStart (trim s) = trim s := by
    rw [trimStart, List.dropWhile_eq_self_iff]
    intro hpos
    have hfirst := List.dropWhile_get_zero_not (p := isBlank) s (hpos.trans_le hleads.length_le)
    rwa [hleads.getElem hpos]
  rw [trim, hstart]
  exact List.rdropWhile_idempotent isBlank _

theorem trimmed_trimmed (s : String) : trimmed (trimmed s) = trimmed s := by
  rw [trimmed, trimmed, String.toList_ofList, trim_trim]

theorem mem_of_mem_trimmed (h : c ∈ (trimmed s).toList) : c ∈ s.toList := by
  rw [trimmed, String.toList_ofList] at h
  exact (List.dropWhile_sublist isBlank).subset ((trim_leads _).subset h)

theorem trimmed_of_nonBlank? (h : nonBlank? s = some t) : trimmed t = t := by
  obtain ⟨-, rfl⟩ := nonBlank?_eq_some_iff.1 h
  exact trimmed_trimmed s

theorem nonBlank?_of_trimmed (h : trimmed s = s) : nonBlank? s = if s = "" then none else some s := by
  split
  next he =>
    subst he
    rfl
  next hne => exact nonBlank?_eq_some_iff.2 ⟨hne, h⟩

theorem isBlank_of_visible (hlow : 0x20 < c.toNat) (hhigh : c.toNat < 0x7f) : isBlank c = false := by
  simp only [isBlank, Bool.or_eq_false_iff, Bool.and_eq_false_iff, decide_eq_false_iff_not,
    beq_eq_false_iff_ne]
  omega

theorem isBlank_of_isAlphanum (hc : c.isAlphanum = true) : isBlank c = false := by
  simp only [Char.isAlphanum, Char.isAlpha, Char.isUpper, Char.isLower, Char.isDigit, Bool.or_eq_true,
    Bool.and_eq_true, decide_eq_true_eq, UInt32.le_iff_toNat_le, ge_iff_le] at hc
  change (((65 ≤ c.toNat ∧ c.toNat ≤ 90) ∨ (97 ≤ c.toNat ∧ c.toNat ≤ 122)) ∨
    (48 ≤ c.toNat ∧ c.toNat ≤ 57)) at hc
  exact isBlank_of_visible (by omega) (by omega)

theorem isGap_eq_false {p : Char → Bool} {c : Char}
    (hp : [' ', '\t', '\n', '\r'].any p = false) (h : p c = true) : isGap c = false := by
  rw [Bool.eq_false_iff]
  intro hg
  simp only [isGap, Bool.or_eq_true, beq_iff_eq] at hg
  simp only [List.any_cons, List.any_nil, Bool.or_eq_false_iff] at hp
  rcases hg with ((rfl | rfl) | rfl) | rfl <;> simp_all

section Trim

theorem isBlank_of_head?_dropWhile {s : List Char} (h : (s.dropWhile isBlank).head? = some c) :
    isBlank c = false := by
  rw [← List.find?_not_eq_head?_dropWhile] at h
  simpa using List.find?_some h

theorem isBlank_of_head?_trim {s : List Char} (h : (trim s).head? = some c) : isBlank c = false := by
  obtain ⟨rest, hrest⟩ := trim_leads s
  apply isBlank_of_head?_dropWhile (s := s)
  rw [← trimStart, ← hrest, List.head?_append, h]
  rfl

theorem isBlank_of_getLast?_trim {s : List Char} (h : (trim s).getLast? = some c) : isBlank c = false := by
  rw [trim, trimEnd, List.getLast?_reverse] at h
  exact isBlank_of_head?_dropWhile h

theorem infix_dropWhile_iff {p s : List Char} (hp : ∀ c ∈ p, isBlank c = false) :
    p <:+: s.dropWhile isBlank ↔ p <:+: s := by
  refine ⟨fun h => h.trans (List.dropWhile_suffix isBlank).isInfix, fun h => ?_⟩
  induction s with
  | nil => exact h
  | cons c s ih =>
    rw [List.dropWhile_cons]
    split
    next hc =>
      rcases List.infix_cons_iff.1 h with hpre | hin
      · -- nothing of the part stands at the blank
        cases p with
        | nil => exact List.nil_infix
        | cons b p =>
          obtain ⟨rfl, -⟩ := List.cons_prefix_cons.1 hpre
          exact absurd hc (Bool.eq_false_iff.1 (hp b List.mem_cons_self))
      · exact ih hin
    next => exact h

theorem infix_trim_iff {p s : List Char} (hp : ∀ c ∈ p, isBlank c = false) :
    p <:+: trim s ↔ p <:+: s := by
  have hrev : ∀ c ∈ p.reverse, isBlank c = false := fun c hc => hp c (List.mem_reverse.1 hc)
  rw [trim, trimEnd, ← List.reverse_infix, List.reverse_reverse, infix_dropWhile_iff hrev,
    List.reverse_infix, trimStart, infix_dropWhile_iff hp]

theorem trim_of_forall {s : List Char} (hs : ∀ c ∈ s, isBlank c = false) : trim s = s := by
  have hstart {u : List Char} (hu : ∀ c ∈ u, isBlank c = false) : u.dropWhile isBlank = u :=
    List.dropWhile_eq_self_iff.2 fun hpos => Bool.eq_false_iff.1 (hu _ (List.getElem_mem hpos))
  rw [trim, trimEnd, trimStart, hstart hs, hstart fun c hc => hs c (List.mem_reverse.1 hc),
    List.reverse_reverse]

end Trim

end FormulaDrawing.Text
