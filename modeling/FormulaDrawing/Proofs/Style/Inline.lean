import FormulaDrawing.Proofs.Text.Blank
import FormulaDrawing.Proofs.Text.Part
import FormulaDrawing.Style.Resolver

/-! Style attributes read back. A value never reaches over a semicolon, so that what is written for a text
comes back as long as there is none in it. -/

namespace FormulaDrawing.Style

open Text

variable {kept ps : List (String × String)} {p : String × String} {piece : List Char}
  {style key v k : String}

theorem pair?_eq (hkey : ':' ∉ key.toList) (v : List Char) :
    pair? (key.toList ++ ':' :: v) =
      (nonBlank? key).bind fun k => (nonBlank? (String.ofList v)).map fun v => (k, v) := by
  have hcolon : ¬ [':'] <:+: key.toList ++ [':'].dropLast := by
    simpa [List.singleton_infix_iff] using hkey
  have hsplit := splitFirst?_append hcolon v
  rw [List.append_assoc, List.singleton_append] at hsplit
  rw [pair?, hsplit]
  dsimp only [Option.bind_eq_bind, Option.bind_some]
  rw [String.ofList_toList]
  cases nonBlank? key <;> cases nonBlank? (String.ofList v) <;> rfl

theorem value_of_pair? (h : pair? piece = some p) :
    p.2 ≠ "" ∧ trimmed p.2 = p.2 ∧ ∀ c ∈ p.2.toList, c ∈ piece := by
  rw [pair?] at h
  obtain ⟨⟨front, back⟩, hsplit, h⟩ := Option.bind_eq_some_iff.1 h
  obtain ⟨k, -, h⟩ := Option.bind_eq_some_iff.1 h
  obtain ⟨v, hv, h⟩ := Option.bind_eq_some_iff.1 h
  obtain rfl := Option.some.inj h
  obtain ⟨hne, hback⟩ := nonBlank?_eq_some_iff.1 hv
  refine ⟨hne, trimmed_of_nonBlank? hv, fun c hc => ?_⟩
  have hmem : c ∈ (String.ofList back).toList := mem_of_mem_trimmed (hback ▸ hc)
  rw [String.toList_ofList] at hmem
  rw [eq_append_of_splitFirst? hsplit]
  exact List.mem_append_right _ hmem

theorem mem_of_mem_foldl_keepFirst (h : p ∈ ps.foldl keepFirst kept) : p ∈ kept ∨ p ∈ ps := by
  induction ps generalizing kept with
  | nil => exact .inl h
  | cons q ps ih =>
    rw [List.foldl_cons] at h
    rcases ih h with h | h
    · rw [keepFirst] at h
      split at h
      · exact .inl h
      · exact (List.mem_append.1 h).imp_right fun h => List.mem_cons.2 (.inl (List.mem_singleton.1 h))
    · exact .inr (List.mem_cons_of_mem q h)

theorem value_of_inlineValue? (h : inlineValue? style key = some v) :
    v ≠ "" ∧ trimmed v = v ∧ ';' ∉ v.toList := by
  obtain ⟨q, hq, rfl⟩ := Option.map_eq_some_iff.1 h
  have hmem := (mem_of_mem_foldl_keepFirst (List.mem_of_find?_eq_some hq)).resolve_left List.not_mem_nil
  obtain ⟨piece, hpiece, hpair⟩ := List.mem_filterMap.1 hmem
  obtain ⟨hne, htrimmed, hsub⟩ := value_of_pair? hpair
  exact ⟨hne, htrimmed, fun hc => not_mem_of_mem_pieces hpiece (hsub _ hc)⟩

theorem equalIgnoringCase_name (p q : Property) : equalIgnoringCase p.name q.name = decide (p = q) := by
  cases p <;> cases q <;> decide

theorem nonBlank?_name (p : Property) : nonBlank? p.name = some p.name := by
  cases p <;> decide

theorem inlineValue?_inline {s : Style} (hfill : ';' ∉ s.fill.toList) (hsize : ';' ∉ s.fontSize.toList)
    (p : Property) : inlineValue? s.inline p.name =
      match p with
      | .fill => nonBlank? s.fill
      | .fontSize => nonBlank? s.fontSize
      | .fontFamily => none := by
  have hpieces : pieces ';' s.inline.toList =
      [Property.fill.name.toList ++ ':' :: s.fill.toList,
        Property.fontSize.name.toList ++ ':' :: s.fontSize.toList] := by
    have htext : s.inline.toList = (Property.fill.name.toList ++ ':' :: s.fill.toList) ++
        ';' :: (Property.fontSize.name.toList ++ ':' :: s.fontSize.toList) := by
      simp [inline, Property.name]
    rw [htext, pieces_append_cons, pieces_of_not_mem, pieces_of_not_mem]
    · rfl
    · simpa [Property.name] using hsize
    · simpa [Property.name] using hfill
  rw [inlineValue?, inlinePairs, hpieces, List.filterMap_cons, List.filterMap_cons, pair?_eq (by decide),
    pair?_eq (by decide), nonBlank?_name, nonBlank?_name, String.ofList_toList, String.ofList_toList]
  cases nonBlank? s.fill <;> cases nonBlank? s.fontSize <;> cases p <;>
    simp [keepFirst, equalIgnoringCase_name]

end FormulaDrawing.Style
