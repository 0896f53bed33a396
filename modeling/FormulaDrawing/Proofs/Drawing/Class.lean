import FormulaDrawing.Drawing.Element
import FormulaDrawing.Proofs.Text.Words

/-! The classes of an element. Adding a class leaves its words among them, also where the class attribute
has blanks around it or the class is made of several words; adding a single word puts it into the set of
them. The attribute is trimmed and continued as a text, so what has to be seen is that neither changes
the words that it had. -/

namespace FormulaDrawing

namespace Element

open Text

variable {e : Element} {c w name : String} {a : String × String}

section Attributes

theorem names_setFirst (name value : String) (l : List (String × String)) :
    (setFirst name value l).map Prod.fst = l.map Prod.fst ∨
      name ∉ l.map Prod.fst ∧ (setFirst name value l).map Prod.fst = l.map Prod.fst ++ [name] := by
  induction l with
  | nil => exact .inr ⟨List.not_mem_nil, rfl⟩
  | cons a l ih =>
    obtain ⟨n, v⟩ := a
    rw [setFirst]
    by_cases hn : n = name
    · exact .inl (by rw [if_pos hn]; rfl)
    · rw [if_neg hn, List.map_cons, List.map_cons, List.mem_cons, not_or]
      rcases ih with ih | ⟨hnew, ih⟩
      · exact .inl (by rw [ih])
      · exact .inr ⟨⟨Ne.symm hn, hnew⟩, by rw [ih]; rfl⟩

theorem getElem?_setFirst (ha : a.1 ≠ name) (value : String) (l : List (String × String)) (i : Nat) :
    (setFirst name value l)[i]? = some a ↔ l[i]? = some a := by
  induction l generalizing i with
  | nil =>
    rw [setFirst, List.getElem?_nil, List.getElem?_singleton]
    split
    · constructor
      · intro h
        obtain rfl := Option.some.inj h
        exact absurd rfl ha
      · intro h
        cases h
    · rfl
  | cons b l ih =>
    obtain ⟨n, v⟩ := b
    rw [setFirst]
    split
    next hn =>
      cases i with
      | zero =>
        -- the attribute itself, which is not asked for
        subst hn
        constructor <;> exact fun h => absurd (congrArg Prod.fst (Option.some.inj h)).symm ha
      | succ i => rfl
    next =>
      cases i with
      | zero => rfl
      | succ i => exact ih i

theorem nodup_names_setFirst {l : List (String × String)} (hl : (l.map Prod.fst).Nodup) (name value : String) :
    ((setFirst name value l).map Prod.fst).Nodup := by
  rcases names_setFirst name value l with h | ⟨hnew, h⟩
  · rwa [h]
  · rw [h, ← List.concat_eq_append]
    exact hl.concat hnew

theorem addClass_eq_or (e : Element) (c : String) :
    e.addClass c = e ∨ ∃ value, e.addClass c = e.setAttr "class" value := by
  unfold addClass
  split
  · exact .inl rfl
  · split <;> exact .inr ⟨_, rfl⟩

theorem attr?_addClass_of_ne (h : name ≠ "class") (e : Element) (c : String) :
    (e.addClass c).attr? name = e.attr? name := by
  rcases addClass_eq_or e c with he | ⟨value, he⟩ <;> rw [he]
  rw [attr?_setAttr, if_neg h]

end Attributes

section Words

/-- Every word of the class is one of the element's classes. -/
def HasWords (e : Element) (c : String) : Prop :=
  ∀ w ∈ words c.toList, String.ofList w ∈ e.classes

theorem classes_setAttr (e : Element) (value : String) :
    (e.setAttr "class" value).classes = (words value.toList).map String.ofList := by
  rw [classes, attr, attr?_setAttr, if_pos rfl, Option.getD_some]

theorem hasWords_addClass (e : Element) (c : String) : (e.addClass c).HasWords c := by
  intro w hw
  have hmem : String.ofList w ∈ (words c.toList).map String.ofList := List.mem_map_of_mem hw
  unfold addClass
  split
  next hc =>
    obtain ⟨v, hv, rfl⟩ := List.mem_map.1 (List.contains_iff_mem.1 hc)
    obtain ⟨hne, hletters⟩ := letters_of_mem_words hv
    rw [String.toList_ofList, words_eq_singleton hne hletters, List.mem_singleton] at hw
    exact hw ▸ List.mem_map_of_mem hv
  next =>
    split
    next => exact classes_setAttr e c ▸ hmem
    next existing _ =>
      have hblank : (existing ++ " " ++ c).toList = existing.toList ++ ' ' :: c.toList := by
        simp
      rw [classes_setAttr, hblank, words_append_cons (by decide), List.map_append]
      exact List.mem_append_right _ hmem

end Words

section Insertion

theorem addClass_of_mem (hmem : c ∈ e.classes) : e.addClass c = e := by
  have hhas : e.hasClass c = true := List.contains_iff_mem.2 hmem
  rw [addClass, if_pos hhas]

theorem classes_addClass (e : Element) (hc : IsWord c) :
    (e.addClass c).classes = e.classes ++ if c ∈ e.classes then [] else [c] := by
  have hone : (words c.toList).map String.ofList = [c] := by
    rw [hc.words_eq, List.map_singleton, String.ofList_toList]
  have hkept := words_trimmed (e.attr "class")
  by_cases hmem : c ∈ e.classes
  · rw [addClass_of_mem hmem, if_pos hmem, List.append_nil]
  · have hhas : ¬ e.hasClass c = true := mt List.contains_iff_mem.1 hmem
    rw [addClass, if_neg hhas, if_neg hmem]
    split
    next hnone =>
      have hclasses : e.classes = [] := by
        rw [classes, ← hkept, nonBlank?_eq_none_iff.1 hnone]
        rfl
      rw [classes_setAttr, hone, hclasses, List.nil_append]
    next existing hsome =>
      obtain ⟨-, rfl⟩ := nonBlank?_eq_some_iff.1 hsome
      have hblank : (trimmed (e.attr "class") ++ " " ++ c).toList =
          (trimmed (e.attr "class")).toList ++ ' ' :: c.toList := by simp
      rw [classes_setAttr, hblank, words_append_cons (by decide), List.map_append, hkept, hone, classes]

theorem mem_classes_addClass (e : Element) (hc : IsWord c) :
    w ∈ (e.addClass c).classes ↔ w ∈ e.classes ∨ w = c := by
  rw [classes_addClass e hc]
  split
  next hmem =>
    rw [List.append_nil, iff_self_or]
    rintro rfl
    exact hmem
  next => rw [List.mem_append, List.mem_singleton]

/-- The classes are those from before in their order, and behind them the new one if it was not among them.
No other attribute changes or moves, and none stands twice; to add a class again changes nothing, and in
which order two are added makes no difference to what classes there are. -/
theorem classes_of_addClass (he : (e.attributes.map Prod.fst).Nodup) (hc : IsWord c) :
    (e.addClass c).classes = (e.classes ++ if c ∈ e.classes then [] else [c]) ∧
      (e.addClass c).name = e.name ∧
      (∀ (i : Nat) (a : String × String), a.1 ≠ "class" →
        ((e.addClass c).attributes[i]? = some a ↔ e.attributes[i]? = some a)) ∧
      ((e.addClass c).attributes.map Prod.fst).Nodup ∧
      (e.addClass c).addClass c = e.addClass c ∧
      ∀ c', IsWord c' → ∀ w,
        w ∈ ((e.addClass c).addClass c').classes ↔ w ∈ ((e.addClass c').addClass c).classes := by
  have hagain : (e.addClass c).addClass c = e.addClass c :=
    addClass_of_mem ((mem_classes_addClass e hc).2 (.inr rfl))
  refine ⟨classes_addClass e hc, ?_, fun i a ha => ?_, ?_, hagain, fun c' hc' w => ?_⟩
  · rcases addClass_eq_or e c with h | ⟨value, h⟩ <;> rw [h]
    rfl
  · rcases addClass_eq_or e c with h | ⟨value, h⟩ <;> rw [h]
    exact getElem?_setFirst ha value e.attributes i
  · rcases addClass_eq_or e c with h | ⟨value, h⟩ <;> rw [h]
    · exact he
    · exact nodup_names_setFirst he "class" value
  · rw [mem_classes_addClass _ hc', mem_classes_addClass e hc, mem_classes_addClass _ hc,
      mem_classes_addClass e hc', or_right_comm]

/-- The new class begins like one that is there, and there are blanks of several kinds. -/
theorem classes_of_addClass_part :
    let e : Element :=
      { name := "path", attributes := [("id", "a"), ("class", "\u3000formula \tother\u0085"), ("d", "")] }
    IsWord "form" ∧ (e.addClass "form").classes = ["formula", "other", "form"] ∧
      (e.addClass "form").attributes[2]? = some ("d", "") ∧
      (e.addClass "form").addClass "form" = e.addClass "form" := by
  intro e
  have hword : IsWord "form" := ⟨by decide, by simp [isBlank]⟩
  have hclasses : e.classes = ["formula", "other"] := by
    subst e
    decide +kernel
  obtain ⟨hnew, -, hkept, -, hagain, -⟩ := classes_of_addClass (e := e) (by decide) hword
  refine ⟨hword, ?_, (hkept 2 ("d", "") (by decide)).2 rfl, hagain⟩
  rw [hnew, hclasses]
  decide

end Insertion

end Element

end FormulaDrawing
