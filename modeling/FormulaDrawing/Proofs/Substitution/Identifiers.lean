import FormulaDrawing.Proofs.Drawing.Class
import FormulaDrawing.Proofs.Substitution.Standing

/-! Where the identifiers in the result come from. What is new has none of its own, and what stands keeps
the one it had. -/

namespace FormulaDrawing.Substitution

open Drawing

variable {i : Input} {b c t u : Layout} {ts : List Layout} {w : Tree Content} {e x : Element}
  {text name : String}

theorem attr?_id_of_replace {t : Tree Content} {x : Element} {text : String}
    (h : verdict i t = .replace x text) :
    ∃ e id, t.element? = some e ∧ e.id? = some id ∧ x.attr? "id" = some id := by
  unfold verdict at h
  split at h
  · cases h
  next e he =>
    split at h
    · split at h
      next name id hname hid =>
        split at h
        · obtain ⟨rfl, -⟩ := Verdict.replace.inj h
          refine ⟨e, id, he, hid, ?_⟩
          rw [newText, Element.attr?, List.cons_append, List.lookup_cons_self]
        · cases h
        · cases h
      · cases h
    · cases h

theorem attr?_id_of_flag {t : Tree Content} {x : Element} (h : verdict i t = .flag x) :
    x.attr? "id" = none := by
  unfold verdict at h
  split at h
  · cases h
  split at h
  · split at h
    · split at h
      · cases h
      · obtain rfl := Verdict.flag.inj h
        simp [newWarning, Element.attr?, List.lookup]
      · cases h
    · cases h
  · cases h

theorem mem_subtrees_holding {w : Tree Content} {e : Element} {text : String}
    (hw : w ∈ (Tree.holding e text).subtrees) : w = .holding e text ∨ w.element? = none := by
  rw [Tree.mem_subtrees_iff, Tree.holding, Tree.children_node, List.flatMap_singleton,
    Tree.mem_subtrees_iff] at hw
  rcases hw with rfl | rfl | hw
  · exact .inl rfl
  · exact .inr rfl
  · cases hw

theorem attr?_of_mem_holding {w : Tree Content} {e : Element} {text name : String}
    (hw : w ∈ (Tree.holding e text).subtrees) (he : e.attr? name = none) : w.attr? name = none := by
  rcases mem_subtrees_holding hw with rfl | hw
  · exact he
  · rw [Tree.attr?, hw]
    rfl

theorem attr?_of_mem_markers {us : List (Tree Content)} {w : Tree Content}
    (h : w ∈ (us.filterMap fun u => (verdict i u).marker? i.settings).flatMap Tree.subtrees) :
    w.attr? "id" = none := by
  obtain ⟨m, hm, hw⟩ := List.mem_flatMap.1 h
  obtain ⟨u, -, hmarker⟩ := List.mem_filterMap.1 hm
  cases hv : verdict i u with
  | replace e text => rw [hv] at hmarker; cases hmarker
  | keep => rw [hv] at hmarker; cases hmarker
  | flag x =>
    rw [hv] at hmarker
    obtain rfl := Option.some.inj hmarker
    exact attr?_of_mem_holding hw (attr?_id_of_flag hv)

theorem become_of_mem {w : Tree Content}
    (h : w ∈ (rewrittenAll i (ts.map Tree.contents)).flatMap Tree.subtrees) :
    w.attr? "id" = none ∨ ∃ u ∈ standingAll i ts, w = become i u := by
  induction ts using Tree.inductForest with
  | nil => cases h
  | cons t ts hbelow ih =>
    rw [rewrittenAll_cons, List.flatMap_cons, List.mem_append, Tree.subtrees_eq, List.mem_cons] at h
    -- Below a replacement there is only its text, below a tree that stays also the warnings.
    by_cases hv : (verdict i t.contents).Replaces
    · rw [standingAll_of_replaces hv]
      rcases h with (rfl | h) | h
      · exact .inr ⟨t, List.mem_cons_self, rfl⟩
      · obtain ⟨e, text, hv⟩ := hv
        rw [become, hv] at h
        rcases mem_subtrees_holding (Tree.mem_subtrees_of_below h) with rfl | hw
        · exact .inr ⟨t, List.mem_cons_self, by rw [become, hv]; rfl⟩
        · exact .inl (by rw [Tree.attr?, hw]; rfl)
      · rcases ih h with h | ⟨u, hu, hw⟩
        · exact .inl h
        · exact .inr ⟨u, List.mem_cons_of_mem _ hu, hw⟩
    · rw [standingAll_of_not_replaces hv]
      rcases h with (rfl | h) | h
      · exact .inr ⟨t, List.mem_cons_self, rfl⟩
      · rw [become_of_not_replaces hv, kept_contents, Tree.children_node, List.flatMap_append,
          List.mem_append] at h
        rcases h with h | h
        · rcases hbelow h with h | ⟨u, hu, hw⟩
          · exact .inl h
          · exact .inr ⟨u, List.mem_cons_of_mem _ (List.mem_append_left _ hu), hw⟩
        · exact .inl (attr?_of_mem_markers h)
      · rcases ih h with h | ⟨u, hu, hw⟩
        · exact .inl h
        · exact .inr ⟨u, List.mem_cons_of_mem _ (List.mem_append_right _ hu), hw⟩

section Kept

theorem element?_mapElement (f : Element → Element) (c : Content) :
    (c.mapElement f).element? = c.element?.map f := by
  cases c <;> rfl

theorem element?_kept_of_flag (hv : verdict i t.contents = .flag x) : (kept i t.contents).element? =
    t.contents.element?.map (·.addClass i.settings.errorClass) := by
  rw [kept_contents, hv, Tree.element?, Tree.label_node, Verdict.label, element?_mapElement,
    Tree.element?_contents]

theorem element?_kept_of_not_flag (hv : ∀ x, verdict i t.contents ≠ .flag x) :
    (kept i t.contents).element? = t.contents.element? := by
  rw [kept_contents, Tree.element?, Tree.label_node, Tree.element?_contents]
  cases h : verdict i t.contents with
  | replace e text => rfl
  | flag x => exact absurd h (hv x)
  | keep => rfl

theorem element?_rewritten (i : Input) (t : Tree Content) :
    (rewritten i t).element? = (kept i t).element? := by
  unfold rewritten
  dsimp only
  split <;> rfl

theorem attr?_kept (i : Input) (t : Layout) :
    (kept i t.contents).attr? "id" = t.contents.attr? "id" := by
  rw [Tree.attr?, Tree.attr?]
  by_cases hv : ∃ x, verdict i t.contents = .flag x
  · obtain ⟨x, hv⟩ := hv
    rw [element?_kept_of_flag hv, Option.bind_map]
    congr 1
    exact funext fun e => e.attr?_addClass_of_ne (by decide) _
  · rw [element?_kept_of_not_flag fun x h => hv ⟨x, h⟩]

end Kept

theorem attr?_become (i : Input) (t : Layout) :
    (become i t).attr? "id" = t.contents.attr? "id" := by
  by_cases hv : (verdict i t.contents).Replaces
  · obtain ⟨e, text, hv⟩ := hv
    obtain ⟨e', id, he, hid, hattr⟩ := attr?_id_of_replace hv
    rw [become, hv, Tree.attr?, Tree.attr?, he]
    exact hattr.trans (Option.filter_eq_some_iff.1 hid).1.symm
  · rw [become_of_not_replaces hv, attr?_kept]

theorem attr?_becomeIn (h : u.handle = b.handle → u = b) :
    (becomeIn i b u).attr? "id" = u.contents.attr? "id" := by
  rw [becomeIn]
  split
  next he =>
    rw [h he, Tree.attr?, element?_rewritten]
    exact attr?_kept i b
  next => exact attr?_become i u

theorem becomeIn_of_mem (hn : b.handles.Nodup) (h : w ∈ (rewritten i b.contents).subtrees) :
    w.attr? "id" = none ∨ ∃ u ∈ standing i b, w = becomeIn i b u := by
  have hkept : w ∈ (kept i b.contents).children.flatMap Tree.subtrees →
      w.attr? "id" = none ∨ ∃ u ∈ standing i b, w = becomeIn i b u := by
    intro h
    rw [kept_contents, Tree.children_node, List.flatMap_append, List.mem_append] at h
    rcases h with h | h
    · rcases become_of_mem h with h | ⟨u, hu, hw⟩
      · exact .inl h
      · refine .inr ⟨u, ?_, by rw [hw, becomeIn_of_mem_standingAll hn hu]⟩
        rw [standing_eq]
        exact List.mem_cons_of_mem _ hu
    · exact .inl (attr?_of_mem_markers h)
  rcases Tree.mem_subtrees_iff.1 h with rfl | h
  · refine .inr ⟨b, ?_, ?_⟩
    · rw [standing_eq]
      exact List.mem_cons_self
    · rw [becomeIn, if_pos rfl]
  · unfold rewritten at h
    dsimp only at h
    split at h
    · rw [Tree.children_node, List.flatMap_cons, List.mem_append] at h
      exact h.elim (fun h => .inl (attr?_of_mem_holding h rfl)) hkept
    · exact hkept h

theorem not_mem_standingAll (hn : (ts.flatMap Tree.subtrees).Nodup)
    (hc : c ∈ ts.flatMap Tree.subtrees) (hv : (verdict i c.contents).Replaces)
    (hu : u ∈ c.children.flatMap Tree.subtrees) : u ∉ standingAll i ts := by
  induction ts using Tree.inductForest with
  | nil => cases hc
  | cons t ts hbelow ih =>
    rw [List.flatMap_cons, Tree.subtrees_eq, List.cons_append, List.nodup_cons,
      List.nodup_append', List.mem_append] at hn
    obtain ⟨ht, hnbelow, hnrest, hdisjoint⟩ := hn
    rw [not_or] at ht
    rw [List.flatMap_cons, Tree.subtrees_eq, List.cons_append, List.mem_cons, List.mem_append] at hc
    have hsub : ∀ us : List Layout, u ∈ standingAll i us → u ∈ us.flatMap Tree.subtrees := fun us h =>
      (standingAll_sublist i us).subset h
    rw [mem_standingAll_cons]
    rintro (rfl | ⟨hnot, hstands⟩ | hstands)
    · rcases hc with rfl | hc | hc
      · exact ht.1 hu
      · exact ht.1 (Tree.mem_forest_trans hc hu)
      · exact ht.2 (Tree.mem_forest_trans hc hu)
    · rcases hc with rfl | hc | hc
      · exact hnot hv
      · exact hbelow hnbelow hc hstands
      · exact hdisjoint (hsub _ hstands) (Tree.mem_forest_trans hc hu)
    · rcases hc with rfl | hc | hc
      · exact hdisjoint hu (hsub _ hstands)
      · exact hdisjoint (Tree.mem_forest_trans hc hu) (hsub _ hstands)
      · exact ih hnrest hc hstands

end FormulaDrawing.Substitution
