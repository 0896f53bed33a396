import FormulaDrawing.Artifact.Store
import FormulaDrawing.Proofs.Attempt
import FormulaDrawing.Proofs.Text.Part

/-! Reading a name back. Neither part of a name holds the mark between them, but a template that ends
in the mark without its last underscore makes a mark with the first underscore of the one behind it. -/

namespace FormulaDrawing.Artifact

open Text

variable {template context id n : String}

theorem checkId_eq_ok_iff : checkId id = .ok () ↔
    id.toList ≠ [] ∧ (∀ c ∈ id.toList, isSeparator c = false) ∧ ¬ ['.', '.'] <:+: id.toList ∧
      ¬ contextMark <:+: id.toList := by
  have hany : id.toList.any isSeparator = true ↔ ¬ ∀ c ∈ id.toList, isSeparator c = false := by
    simp
  rw [← contains_eq_true_iff, ← contains_eq_true_iff,
    ← not_not (a := ∀ c ∈ id.toList, isSeparator c = false), ← hany, checkId, idFault?]
  simp only [List.isEmpty_iff, ne_eq]
  split_ifs <;> simp [*]

theorem check_eq_ok_iff : check context n = .ok () ↔
    checkId context = .ok () ∧
      ∃ template, parts? n = some (template, context) ∧ checkId template = .ok () := by
  rw [check, bind_eq_ok_iff]
  constructor
  · rintro ⟨⟨⟩, hc, h⟩
    refine ⟨hc, ?_⟩
    split at h
    next template owner hp =>
      obtain ⟨hp, ho⟩ := Option.filter_eq_some_iff.1 hp
      exact ⟨template, beq_iff_eq.1 ho ▸ hp, h⟩
    next => cases h
  · rintro ⟨hc, template, hp, ht⟩
    have hf : (parts? n).filter (·.2 == context) = some (template, context) := by
      rw [hp, Option.filter_some, if_pos (beq_self_eq_true context)]
    exact ⟨(), hc, by rw [hf]; exact ht⟩

theorem parts?_name_eq (template context : String) : parts? (name template context) =
    (splitFirst? contextMark (template.toList ++ contextMark ++ context.toList)).map fun p =>
      (String.ofList p.1, String.ofList p.2) := by
  have hopening : after? opening (name template context).toList =
      some (template.toList ++ contextMark ++ context.toList ++ ending) := by
    rw [after?_eq_some_iff, name, String.toList_ofList]
    simp only [List.append_assoc]
  have hending : before? ending (template.toList ++ contextMark ++ context.toList ++ ending) =
      some (template.toList ++ contextMark ++ context.toList) :=
    before?_eq_some_iff.2 rfl
  rw [parts?, hopening, Option.bind_eq_bind, Option.bind_some, hending, Option.bind_eq_bind,
    Option.bind_some]
  cases splitFirst? contextMark (template.toList ++ contextMark ++ context.toList) <;> rfl

theorem eq_name_of_parts? (h : parts? n = some (template, context)) :
    n = name template context := by
  simp only [parts?, Option.bind_eq_bind, Option.bind_eq_some_iff, Option.pure_def,
    Option.some.injEq, Prod.mk.injEq] at h
  obtain ⟨s, hs, u, hu, ⟨front, back⟩, hsplit, rfl, rfl⟩ := h
  rw [after?_eq_some_iff] at hs
  rw [before?_eq_some_iff] at hu
  rw [← String.toList_inj, hs, hu, eq_append_of_splitFirst? hsplit, name, String.toList_ofList,
    String.toList_ofList, String.toList_ofList]
  simp only [List.append_assoc]

theorem name_left_injective (context : String) : Function.Injective fun t => name t context := by
  intro t t' h
  have hlist := congrArg String.toList h
  simp only [name, String.toList_ofList, List.append_assoc, List.append_cancel_left_eq,
    List.append_cancel_right_eq] at hlist
  exact String.toList_inj.1 hlist

section Files

theorem stem?_documentFile (n : String) : stem? (documentFile n) = some n := by
  have h : before? ".svg".toList (documentFile n).toList = some n.toList := by
    rw [before?_eq_some_iff, documentFile, String.toList_append]
  rw [stem?, h, Option.map_some, String.ofList_toList]

theorem stem?_imageFile (n : String) : stem? (imageFile n) = some n := by
  have hsvg : before? ".svg".toList (imageFile n).toList = none := by
    rw [Option.eq_none_iff_forall_ne_some]
    intro front hf
    have hlength : ".png".toList.length = ".svg".toList.length := by decide
    rw [before?_eq_some_iff, imageFile, String.toList_append] at hf
    exact absurd (List.append_inj_right' hf hlength) (by decide)
  have hpng : before? ".png".toList (imageFile n).toList = some n.toList := by
    rw [before?_eq_some_iff, imageFile, String.toList_append]
  rw [stem?, hsvg, hpng, Option.map_some, String.ofList_toList]

theorem belongsTo_iff {file : String} : belongsTo file context = true ↔
    ∃ n template, stem? file = some n ∧ parts? n = some (template, context) := by
  rw [belongsTo, Option.any_eq_true]
  constructor
  · rintro ⟨⟨template, owner⟩, hp, ho⟩
    obtain ⟨n, hn, hp⟩ := Option.bind_eq_some_iff.1 hp
    exact ⟨n, template, hn, beq_iff_eq.1 ho ▸ hp⟩
  · rintro ⟨n, template, hn, hp⟩
    exact ⟨(template, context), by rw [hn, Option.bind_some, hp], beq_self_eq_true context⟩

theorem belongsTo_documentFile_iff :
    belongsTo (documentFile n) context = true ↔ ∃ template, parts? n = some (template, context) := by
  rw [belongsTo_iff, stem?_documentFile]
  simp

theorem documentFile_ne_imageFile (n m : String) : documentFile n ≠ imageFile m := by
  intro h
  obtain rfl : n = m := by
    rw [← Option.some_inj, ← stem?_documentFile, h, stem?_imageFile]
  have hlist := congrArg String.toList h
  rw [documentFile, imageFile, String.toList_append, String.toList_append] at hlist
  exact absurd (List.append_cancel_left hlist) (by decide)

theorem documentFile_injective : Function.Injective documentFile := fun n m h => by
  rw [← Option.some_inj, ← stem?_documentFile, h, stem?_documentFile]

theorem imageFile_injective : Function.Injective imageFile := fun n m h => by
  rw [← Option.some_inj, ← stem?_imageFile, h, stem?_imageFile]

end Files

/-- The template ends in the mark without its last underscore. -/
def Overlaps (template : String) : Prop := ∃ front, template = front ++ "_line"

theorem not_infix_of_not_overlaps (h : ¬ contextMark <:+: template.toList)
    (ho : ¬ Overlaps template) : ¬ contextMark <:+: template.toList ++ contextMark.dropLast := by
  -- Which beginnings of the mark leave a rest that the mark begins with, too.
  have hborder : ∀ a ∈ contextMark.inits, contextMark.drop a.length <+: contextMark.dropLast →
      a = contextMark ∨ a = "_line".toList := by decide
  intro hi
  rcases infix_append_cases hi with hi | hi | ⟨a, b, hab, ha, hb⟩
  · exact h hi
  · exact absurd hi.length_le (by decide)
  · have hrest : contextMark.drop a.length = b := by rw [hab, List.drop_left]
    have hinit : a ∈ contextMark.inits := (List.mem_inits _ _).2 ⟨b, hab.symm⟩
    rcases hborder a hinit (hrest ▸ hb) with rfl | rfl
    · exact h ha.isInfix
    · obtain ⟨front, hf⟩ := ha
      refine ho ⟨String.ofList front, ?_⟩
      rw [← String.toList_inj, String.toList_append, String.toList_ofList, hf]

theorem parts?_name (ht : checkId template = .ok ()) (ho : ¬ Overlaps template)
    (context : String) : parts? (name template context) = some (template, context) := by
  have hi := not_infix_of_not_overlaps (checkId_eq_ok_iff.1 ht).2.2.2 ho
  rw [parts?_name_eq, splitFirst?_append hi, Option.map_some, String.ofList_toList,
    String.ofList_toList]

theorem name_append_line (front context : String) :
    name (front ++ "_line") context = name front ("line_" ++ context) := by
  have hmark : "_line".toList ++ contextMark = contextMark ++ "line_".toList := by decide
  rw [name, name, String.toList_append, String.toList_append]
  simp only [List.append_assoc]
  rw [← List.append_assoc "_line".toList, hmark, List.append_assoc]

theorem parts?_name_of_overlap {front : String} (ht : checkId (front ++ "_line") = .ok ())
    (context : String) :
    parts? (name (front ++ "_line") context) = some (front, "line_" ++ context) := by
  have hi : ¬ contextMark <:+: front.toList ++ contextMark.dropLast := by
    have := (checkId_eq_ok_iff.1 ht).2.2.2
    rwa [String.toList_append] at this
  rw [name_append_line, parts?_name_eq, splitFirst?_append hi, Option.map_some,
    String.ofList_toList, String.ofList_toList]

end FormulaDrawing.Artifact
